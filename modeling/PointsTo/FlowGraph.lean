import PointsTo.Heap

/-!
The pointer flow graph. Its nodes are pointers with the objects that they may point to; an edge says
that whatever its source points to, its target points to as well. A node comes into being when its
pointer is first asked for, and its handle is its place in that order.
-/
namespace PointsTo

/-- What can hold a reference: a variable, a static field, a field of an object, or the elements of
an array, which are one pointer whatever the index. -/
inductive Pointer where
  | var (v : Variable)
  | static (f : FieldName)
  | field (base : ObjectId) (f : FieldName)
  | element (array : ObjectId)
deriving DecidableEq, Repr, Inhabited

inductive PointerKind where
  | var
  | static
  | field
  | element
deriving DecidableEq, Repr

def Pointer.kind : Pointer → PointerKind
  | var _ => .var
  | static _ => .static
  | field .. => .field
  | element _ => .element

structure Node where
  pointer : Pointer
  objects : ObjectSet
deriving DecidableEq

/-- The pointer flow graph. `statics` keeps the declarations of the static fields among the
pointers, as they were when their nodes came into being. -/
structure FlowGraph where
  nodes : Roster Node.pointer := ∅
  edges : OrderedSet (Pointer × Pointer) := ∅
  statics : Roster Field.id := ∅
deriving DecidableEq

namespace FlowGraph

/-- Asks for the node of a pointer. -/
def touch (g : FlowGraph) (p : Pointer) : FlowGraph := { g with nodes := g.nodes.add ⟨p, ∅⟩ }

def touchStatic (g : FlowGraph) (f : Field) : FlowGraph :=
  { g.touch (.static f.id) with statics := g.statics.add f }

/-- The handle of a pointer that has a node. -/
def handle? (g : FlowGraph) (p : Pointer) : Option Nat := g.nodes.indexOf? p

def pointer? (g : FlowGraph) (handle : Nat) : Option Pointer := g.nodes.keys[handle]?

/-- The objects that a pointer may point to, none if it has no node. -/
def pointsTo (g : FlowGraph) (p : Pointer) : ObjectSet :=
  ((g.nodes.get? p).map Node.objects).getD ∅

def assign (g : FlowGraph) (p : Pointer) (objects : ObjectSet) : FlowGraph :=
  { g with nodes := g.nodes.put ⟨p, objects⟩ }

/-- Adds an edge and says whether it is new. -/
def tryAddEdge (g : FlowGraph) (source target : Pointer) : Bool × FlowGraph :=
  let (isNew, edges) := g.edges.tryAdd (source, target)
  (isNew, { g with edges })

def hasEdge (g : FlowGraph) (source target : Pointer) : Bool := g.edges.contains (source, target)

/-- The targets of the edges from a pointer, in the order in which the edges were added. -/
def successors (g : FlowGraph) (p : Pointer) : List Pointer :=
  (g.edges.items.filter fun e => e.1 = p).map Prod.snd

/-- All edges by source: the sources in the order of their first edges, the edges of each in the
order in which they were added. -/
def edgesBySource (g : FlowGraph) : List (Pointer × Pointer) :=
  (OrderedSet.ofList (g.edges.items.map Prod.fst)).items.flatMap fun source =>
    (g.successors source).map fun target => (source, target)

/-- The nodes of a kind, in the order in which they came into being. -/
def nodesOf (g : FlowGraph) (kind : PointerKind) : List Node :=
  g.nodes.items.filter fun n => n.pointer.kind = kind

def text (g : FlowGraph) (h : Heap) : Pointer → String
  | .var v => v.text
  | .static f => ((g.statics.get? f).map Field.text).getD ""
  | .field base f => h.text base ++ "." ++ f.name
  | .element array => h.text array ++ "[*]"

@[simp] theorem pointsTo_touch (g : FlowGraph) (p q : Pointer) :
    (g.touch p).pointsTo q = g.pointsTo q := by
  unfold pointsTo touch
  rw [Roster.get?_add]
  split
  · next h => rw [Roster.get?_eq_none.2 h.2]; rfl
  · rfl

/-- A pointer has the set that it was given last. -/
theorem pointsTo_assign (g : FlowGraph) (p q : Pointer) (objects : ObjectSet) :
    (g.assign p objects).pointsTo q = if p = q then objects else g.pointsTo q := by
  unfold pointsTo assign
  rw [Roster.get?_put]
  split <;> rfl

theorem mem_successors {g : FlowGraph} {p q : Pointer} :
    q ∈ g.successors p ↔ (p, q) ∈ g.edges.items := by
  simp [successors]

end FlowGraph

end PointsTo
