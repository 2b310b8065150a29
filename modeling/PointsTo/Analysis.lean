import PointsTo.Solver.Run

/-!
The two analyses of a program from an entry method, and the questions that can be put to the result
of the pointer analysis. A pointer that the analysis never met points to nothing.
-/
namespace PointsTo

open Solver

def Program.resolveEntry (p : Program) (entry : Option String) : Except AnalysisFault Method :=
  match entry with
  | none =>
    match p.main? with
    | some m => .ok m
    | none => .error .noMain
  | some text =>
    match p.findMethod text with
    | .error ambiguity => .error (.ambiguousEntry ambiguity)
    | .ok none => .error (.noEntry text)
    | .ok (some m) => .ok m

/-! ### Pointer analysis -/

def analyzeFrom (p : Program) (entry : Method) : Progress :=
  (({} : State).record (.asked p.classes.size entry.id)).solve p (some entry)

def analyzePointers (p : Program) (entry : Option String) : Progress :=
  match p.resolveEntry entry with
  | .ok m => analyzeFrom p m
  | .error fault => .stopped {} fault

namespace Solver.State

/-- The variables that have a node. -/
def vars (s : State) : List Variable :=
  s.graph.nodes.items.filterMap fun n =>
    match n.pointer with
    | .var v => some v
    | _ => none

def objects (s : State) : List ObjectId :=
  ObjectSet.sorted (OrderedSet.ofList (s.graph.nodes.items.flatMap fun n => n.objects.items))

def mayAlias (s : State) (a b : Variable) : Bool :=
  (s.pointsTo (.var a)).items.any fun o => (s.pointsTo (.var b)).contains o

def texts (s : State) (objects : ObjectSet) : List String :=
  (ObjectSet.sorted objects).map s.heap.text

/-- The variables that point to something, with the objects by number. -/
def variableSets (s : State) : List (Variable × List ObjectId) :=
  (s.graph.nodesOf .var).filterMap fun n =>
    match n.pointer with
    | .var v => if n.objects.isEmpty then none else some (v, ObjectSet.sorted n.objects)
    | _ => none

end Solver.State

/-- The names of the variables that point to exactly one set of objects. -/
structure AliasGroup where
  objects : List ObjectId
  names : OrderedSet String

def AliasGroup.leader (g : AliasGroup) : String :=
  match g.names.items with
  | [] => ""
  | name :: names => names.foldl (fun least n => if n < least then n else least) name

/-- The groups of variables that point to the same objects, in the order of their first variables;
of two groups with one leader the later one stands. -/
def Solver.State.aliasGroups (s : State) : List AliasGroup :=
  let groups := s.variableSets.foldl (fun (groups : Roster AliasGroup.objects) (v, objects) =>
    let names := ((groups.get? objects).map AliasGroup.names).getD ∅
    groups.put ⟨objects, names.add v.text⟩) ∅
  (Roster.ofList groups.items : Roster AliasGroup.leader).items

structure NamedSet where
  name : String
  objects : List String
deriving DecidableEq

def Solver.State.setsByName (s : State) : List NamedSet :=
  (Roster.ofList (s.variableSets.map fun (v, objects) =>
    ⟨v.text, (OrderedSet.ofList (objects.map s.heap.text)).items⟩) :
      Roster NamedSet.name).items

/-! ### Class hierarchy analysis -/

/-- Adds the edges of the call sites of a method, and puts down the callees that are not reachable
yet. -/
def callTargets (p : Program) (m : Method) (g : CallGraph) (pending : List MethodName) :
    CallGraph × List MethodName :=
  m.callSites.foldl (fun (g, pending) site =>
    (p.hierarchyTargets site.call).foldl (fun (g, pending) callee =>
      let g := (g.tryAddEdge (.ofCall site callee.id)).2
      (g, if g.contains callee.id then pending else pending ++ [callee.id])) (g, pending))
    (g, pending)

/-- Follows the calls of pending methods, at most `limit` of them. -/
def followCalls (p : Program) : (limit : Nat) → List MethodName → CallGraph → CallGraph
  | 0, _, g => g
  | _, [], g => g
  | limit + 1, name :: pending, g =>
    let (isNew, g) := g.tryReach name
    if !isNew then followCalls p limit pending g
    else
      match p.method? name with
      | none => followCalls p limit pending g
      | some m =>
        let (g, pending) := callTargets p m g pending
        followCalls p limit pending g

/-- How many methods the class hierarchy analysis can put down: the entry, and for every call site
each method once. -/
def callLimit (p : Program) : Nat := p.callSites.length * p.methods.length + 1

/-- The call graph in which every call may run whatever the class hierarchy lets it. -/
def hierarchyCallGraph (p : Program) (entry : Method) : CallGraph :=
  followCalls p (callLimit p) [entry.id] (({} : CallGraph).addEntry entry.id)

def CallGraph.finished (g : CallGraph) : Event := .classGraph g.reachable.size g.edges.size

end PointsTo
