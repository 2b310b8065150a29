import PointsTo.AnalysisFault
import PointsTo.FlowGraph
import PointsTo.Hierarchy.Lookup
import PointsTo.Log
import PointsTo.Queue

/-!
The state of the pointer analysis, and the actions on it that cannot fail. The work list holds the
objects that still have to be delivered to a pointer; whatever an edge is to carry passes through
it.
-/
namespace PointsTo.Solver

/-- Objects on their way to a pointer. -/
structure Delivery where
  pointer : Pointer
  objects : ObjectSet
deriving DecidableEq

/-- What the statements of the methods reached so far do through one variable: they can be turned
into edges only when the objects of the variable are known. -/
structure Uses where
  base : Variable
  stores : List (FieldRef × Variable) := []
  loads : List (Variable × FieldRef) := []
  elementStores : List Variable := []
  elementLoads : List Variable := []
  calls : List CallSite := []
deriving DecidableEq

/-- A field or the elements of whatever a variable points to, written or read. -/
inductive Access where
  | store (field : FieldRef) (source : Variable)
  | load (target : Variable) (field : FieldRef)
  | storeElement (source : Variable)
  | loadElement (target : Variable)
deriving DecidableEq

/-- One thing that is done through a variable. -/
inductive Use where
  | access (a : Access)
  | call (site : CallSite)
deriving DecidableEq

/-- The accesses through a variable, in the order in which they serve an object. -/
def Uses.accesses (u : Uses) : List Access :=
  u.stores.map (fun (field, source) => .store field source) ++
    u.loads.map (fun (target, field) => .load target field) ++
    u.elementStores.map .storeElement ++ u.elementLoads.map .loadElement

/-- A use of a variable as it served an object of the variable. -/
structure Service where
  base : Variable
  object : ObjectId
  use : Use
deriving DecidableEq

/-- One delivery as it happened: the pointer, the objects it was given, and those that were new. -/
structure Propagation where
  pointer : Pointer
  given : ObjectSet
  fresh : ObjectSet
deriving DecidableEq

/-- The state of the analysis. What was ever put on the work list (`sent`), `history`, `services`
and `log` record what happened and are never read. -/
structure State where
  heap : Heap := ∅
  graph : FlowGraph := {}
  calls : CallGraph := {}
  phantoms : PhantomFields := ∅
  uses : Roster Uses.base := ∅
  pending : List MethodName := []
  work : Queue Delivery := ∅
  iterations : Nat := 0
  sent : Array Delivery := #[]
  history : Array Propagation := #[]
  services : Array Service := #[]
  log : Array Event := #[]

/-- How an action ends: with a state to go on from, or with a fault and the state that it leaves. -/
inductive Progress where
  | going (s : State)
  | stopped (s : State) (fault : AnalysisFault)

namespace Progress

def state : Progress → State
  | going s => s
  | stopped s _ => s

def fault? : Progress → Option AnalysisFault
  | going _ => none
  | stopped _ fault => some fault

/-- Goes on with another action unless there was a fault. -/
def andThen : Progress → (State → Progress) → Progress
  | going s, next => next s
  | stopped s fault, _ => stopped s fault

@[simp] theorem state_going (s : State) : (going s).state = s := rfl

@[simp] theorem state_stopped (s : State) (fault : AnalysisFault) :
    (stopped s fault).state = s := rfl

@[simp] theorem going_andThen (s : State) (next : State → Progress) :
    (going s).andThen next = next s := rfl

@[simp] theorem stopped_andThen (s : State) (fault : AnalysisFault) (next : State → Progress) :
    (stopped s fault).andThen next = stopped s fault := rfl

theorem eq_going {r : Progress} (h : r.fault?.isNone) : r = going r.state := by
  cases r with
  | going s => rfl
  | stopped s fault => cases h

theorem andThen_eq_going {r : Progress} {next : State → Progress} {t : State} :
    r.andThen next = going t ↔ ∃ u, r = going u ∧ next u = going t := by
  cases r with
  | going s => simp
  | stopped s fault => simp

end Progress

/-- An action for every item of a list, from the left, up to the first fault. -/
def forEach {α : Type} (action : α → State → Progress) : List α → State → Progress
  | [], s => .going s
  | a :: rest, s => (action a s).andThen (forEach action rest)

theorem forEach_cons_eq_going {α : Type} {action : α → State → Progress} {a : α} {rest : List α}
    {s t : State} : forEach action (a :: rest) s = .going t ↔
      ∃ u, action a s = .going u ∧ forEach action rest u = .going t :=
  Progress.andThen_eq_going

theorem forEach_append {α : Type} (action : α → State → Progress) (items more : List α)
    (s : State) :
    forEach action (items ++ more) s = (forEach action items s).andThen (forEach action more) := by
  induction items generalizing s with
  | nil => rfl
  | cons a rest ih =>
    rw [List.cons_append, forEach, forEach]
    cases action a s with
    | going t => exact ih t
    | stopped t fault => rfl

/-- What two actions keep, one after the other keeps, with a fault or without. -/
theorem andThen_keeps {r : Progress} {next : State → Progress} (inv : State → Prop)
    (h : inv r.state) (step : ∀ s, inv s → inv (next s).state) : inv (r.andThen next).state := by
  cases r with
  | going s => exact step s h
  | stopped s fault => exact h

/-- What every action of a list keeps, the whole list keeps, with a fault or without. -/
theorem forEach_keeps {α : Type} {action : α → State → Progress} (inv : State → Prop)
    {items : List α} (step : ∀ a ∈ items, ∀ s, inv s → inv (action a s).state) {s : State}
    (h : inv s) : inv (forEach action items s).state := by
  induction items generalizing s with
  | nil => exact h
  | cons a rest ih =>
    exact andThen_keeps inv (step a (by simp) s h) fun t ht =>
      ih (fun b hb => step b (by simp [hb])) ht

/-- If every action of a list goes on and keeps an invariant, so does the whole list. -/
theorem forEach_goes {α : Type} {action : α → State → Progress} (inv : State → Prop)
    {items : List α} (step : ∀ a ∈ items, ∀ s, inv s → ∃ t, action a s = .going t ∧ inv t)
    {s : State} (h : inv s) : ∃ t, forEach action items s = .going t ∧ inv t := by
  induction items generalizing s with
  | nil => exact ⟨s, rfl, h⟩
  | cons a rest ih =>
    obtain ⟨u, hu, hinv⟩ := step a (by simp) s h
    obtain ⟨t, ht, hinv⟩ := ih (fun b hb => step b (by simp [hb])) hinv
    exact ⟨t, forEach_cons_eq_going.2 ⟨u, hu, ht⟩, hinv⟩

namespace State

def pointsTo (s : State) (p : Pointer) : ObjectSet := s.graph.pointsTo p

def record (s : State) (e : Event) : State := { s with log := s.log.push e }

/-- Asks for the node of a pointer. -/
def touch (s : State) (p : Pointer) : State := { s with graph := s.graph.touch p }

def touchStatic (s : State) (f : Field) : State := { s with graph := s.graph.touchStatic f }

/-- Puts objects on their way to a pointer. -/
def send (s : State) (p : Pointer) (objects : ObjectSet) : State :=
  { s with work := s.work.push ⟨p, objects⟩, sent := s.sent.push ⟨p, objects⟩ }

/-- Notes that a use of a variable serves an object. -/
def serve (s : State) (v : Variable) (o : ObjectId) (use : Use) : State :=
  { s with services := s.services.push ⟨v, o, use⟩ }

/-- Adds an edge between two nodes. If it is new, what its source points to already is put on its
way to the target. -/
def addFlow (s : State) (source target : Pointer) : State :=
  let (isNew, graph) := s.graph.tryAddEdge source target
  let s := { s with graph }
  if isNew && !(s.pointsTo source).isEmpty then s.send target (s.pointsTo source) else s

/-- Asks for the nodes of two pointers, the source first, and adds the edge between them. -/
def flow (s : State) (source target : Pointer) : State :=
  ((s.touch source).touch target).addFlow source target

def allocate (s : State) (a : Allocation) : ObjectId × State :=
  let (o, heap) := s.heap.objectOf a
  (o, { s with heap })

def resolve (s : State) (p : Program) (ref : FieldRef) : Field × State :=
  let (f, phantoms) := p.resolveField s.phantoms ref
  (f, { s with phantoms })

/-- Makes a method reachable; the first time its statements are put down for processing. -/
def reach (s : State) (m : MethodName) : State :=
  let (isNew, calls) := s.calls.tryReach m
  let s := { s with calls }
  if isNew then { s.record (.reached m) with pending := s.pending ++ [m] } else s

/-- What is done through a variable. -/
def usesOf (s : State) (v : Variable) : Uses := (s.uses.get? v).getD { base := v }

theorem usesOf_congr {s t : State} (h : t.uses = s.uses) (v : Variable) :
    t.usesOf v = s.usesOf v := by
  unfold usesOf
  rw [h]

def addUse (s : State) (v : Variable) (change : Uses → Uses) : State :=
  { s with uses := s.uses.put { change (s.usesOf v) with base := v } }

/-- Delivers objects to a pointer: those that it lacks are added to its set and put on their way to
every successor. They come out first. -/
def propagate (s : State) (p : Pointer) (objects : ObjectSet) : ObjectSet × State :=
  let fresh := objects.diff (s.pointsTo p)
  let s := { s with history := s.history.push ⟨p, objects, fresh⟩ }
  if fresh.isEmpty then (fresh, s)
  else
    let s := { s with graph := s.graph.assign p ((s.pointsTo p).union fresh) }
    (fresh, (s.graph.successors p).foldl (fun s q => s.send q fresh) s)

end State

end PointsTo.Solver
