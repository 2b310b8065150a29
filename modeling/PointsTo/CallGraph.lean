import PointsTo.Program.Class

/-!
Call graphs: which methods are reachable and which call sites call them. There is at most one edge
between a call site and a method, whatever the kind of the edge.
-/
namespace PointsTo

/-- The kind of an edge: that of its call, or none of those. -/
inductive EdgeKind where
  | ofCall (kind : CallKind)
  | other
deriving DecidableEq, Repr, Inhabited

namespace EdgeKind

def all : List EdgeKind := CallKind.all.map ofCall ++ [other]

def label : EdgeKind → String
  | ofCall kind => kind.label
  | other => "OTHER"

end EdgeKind

structure CallEdge where
  kind : EdgeKind
  site : CallSite
  callee : MethodName
deriving DecidableEq, Repr

namespace CallEdge

/-- What identifies an edge: its call site and its callee. -/
def ends (e : CallEdge) : CallSite × MethodName := (e.site, e.callee)

def ofCall (site : CallSite) (callee : MethodName) : CallEdge :=
  ⟨.ofCall site.call.kind, site, callee⟩

def text (e : CallEdge) : String :=
  "[" ++ e.kind.label ++ "] " ++ e.site.place.text ++ " -> " ++ e.callee.signature

end CallEdge

/-- A call graph: its entry methods, the methods known to be reachable, and its edges, each in the
order of arrival. -/
structure CallGraph where
  entries : OrderedSet MethodName := ∅
  reachable : OrderedSet MethodName := ∅
  edges : Roster CallEdge.ends := ∅
deriving DecidableEq

namespace CallGraph

/-- Adds an entry method, which does not make it reachable. -/
def addEntry (g : CallGraph) (m : MethodName) : CallGraph := { g with entries := g.entries.add m }

/-- Makes a method reachable and says whether it was not before. -/
def tryReach (g : CallGraph) (m : MethodName) : Bool × CallGraph :=
  let (isNew, reachable) := g.reachable.tryAdd m
  (isNew, { g with reachable })

/-- Adds an edge and says whether its ends had none before. -/
def tryAddEdge (g : CallGraph) (e : CallEdge) : Bool × CallGraph :=
  let (isNew, edges) := g.edges.tryAdd e
  (isNew, { g with edges })

def contains (g : CallGraph) (m : MethodName) : Bool := g.reachable.contains m

def edgesFrom (g : CallGraph) (site : CallSite) : List CallEdge :=
  g.edges.items.filter fun e => e.site = site

def edgesInto (g : CallGraph) (m : MethodName) : List CallEdge :=
  g.edges.items.filter fun e => e.callee = m

def calleesOf (g : CallGraph) (site : CallSite) : List MethodName :=
  (g.edgesFrom site).map CallEdge.callee

def callersOf (g : CallGraph) (m : MethodName) : List CallSite :=
  (g.edgesInto m).map CallEdge.site

end CallGraph

end PointsTo
