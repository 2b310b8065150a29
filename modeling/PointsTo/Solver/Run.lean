import PointsTo.Solver.Rules

/-!
The run of the analysis. `settle` processes the statements of the methods that were put down for it;
`analyze` takes deliveries from the work list until there are none. Both loops are counted down
from a bound that the program and the state give.
-/
namespace PointsTo.Solver

namespace State

/-! ### Pending methods -/

def processMethod (s : State) (p : Program) (name : MethodName) : Progress :=
  match p.method? name with
  | none => .going s
  | some m => forEach (fun (place, instruction) s => s.process p m place instruction) m.placed s

/-- Processes pending methods, at most `limit` of them, those that become reachable as well. -/
def settleWithin (p : Program) : (limit : Nat) → State → Progress
  | 0, s => .going s
  | limit + 1, s =>
    match s.pending with
    | [] => .going s
    | name :: rest =>
      ({ s with pending := rest }.processMethod p name).andThen (settleWithin p limit)

/-- How many methods can be processed from a state on: those that are pending and those that can
still become reachable. -/
def settleLimit (s : State) (p : Program) : Nat := s.pending.length + p.methods.length

def settle (s : State) (p : Program) : Progress := settleWithin p (s.settleLimit p) s

/-! ### The work list -/

/-- Accepts one delivery: what is new is propagated, and the uses of a variable serve each new
object. -/
def accept (s : State) (p : Program) (d : Delivery) : Progress :=
  let s := { s with iterations := s.iterations + 1 }
  let (fresh, s) := s.propagate d.pointer d.objects
  match d.pointer with
  | .var v => forEach (fun o s => s.discover p v o) fresh.items s
  | _ => .going s

/-- Takes one delivery and processes the methods that became reachable by it before the next. -/
def deliver (s : State) (p : Program) (d : Delivery) : Progress :=
  (s.accept p d).andThen fun s => s.settle p

/-- Takes deliveries from the front of the work list, at most `limit` of them. -/
def analyzeWithin (p : Program) : (limit : Nat) → State → Progress
  | 0, s => .going s
  | limit + 1, s =>
    match s.work.pop? with
    | none => .going s
    | some (d, work) => ({ s with work }.deliver p d).andThen (analyzeWithin p limit)

end State

end PointsTo.Solver

namespace PointsTo

def Instruction.vars : Instruction → List Variable
  | allocate target _ => [target]
  | copy target source => [target, source]
  | loadStatic target _ => [target]
  | loadField target base _ => [target, base]
  | storeStatic _ source => [source]
  | storeField base _ source => [base, source]
  | loadElement target base => [target, base]
  | storeElement base source => [base, source]
  | call c => c.result.toList ++ c.receiver.toList ++ c.args.filterMap id
  | ret value => value.toList
  | other _ => []

def Instruction.fieldRef? : Instruction → Option FieldRef
  | loadStatic _ field | loadField _ _ field | storeStatic field _ | storeField _ field _ =>
    some field
  | _ => none

/-- The variables of a body that calls and returns bind. -/
def Body.bound (b : Body) : List Variable :=
  (b.params ++ b.receiver.toList ++ b.returned.toList).map Local.var

namespace Program

def placed (p : Program) : List (Place × Instruction) := p.methods.flatMap Method.placed

def vars (p : Program) : List Variable :=
  p.placed.flatMap (fun (_, i) => i.vars) ++
    (p.methods.filterMap Method.body).flatMap Body.bound

def fieldRefs (p : Program) : List FieldRef := p.placed.filterMap fun (_, i) => i.fieldRef?

def allocations (p : Program) : List Allocation :=
  p.placed.filterMap fun
    | (place, .allocate _ type) => some ⟨place, type⟩
    | _ => none

def callSites (p : Program) : List CallSite := p.methods.flatMap Method.callSites

end Program

namespace Solver

namespace State

def objectLimit (s : State) (p : Program) : Nat := s.heap.size + p.allocations.length

/-- How many pointers there can be from a state on: those that have a node, the variables and
static fields of the program, and the fields and elements of every object. -/
def pointerLimit (s : State) (p : Program) : Nat :=
  s.graph.nodes.size + p.vars.length + p.fieldRefs.length +
    s.objectLimit p * (p.fieldRefs.length + 1)

/-- How many deliveries can be taken from a state on: those on the work list, one for every
allocation and one for every edge, and for every fact one along each edge and one for each call. -/
def analyzeLimit (s : State) (p : Program) : Nat :=
  let pointers := s.pointerLimit p
  s.work.size + p.allocations.length + pointers * pointers +
    pointers * s.objectLimit p * (pointers + p.callSites.length) + 1

def analyze (s : State) (p : Program) : Progress := analyzeWithin p (s.analyzeLimit p) s

/-! ### A whole run -/

def start (s : State) (p : Program) (entry : Option Method) : Progress :=
  match entry with
  | none => .stopped s .nothingToStart
  | some m =>
    if m.body.isNone then .stopped s (.bodylessEntry m.id)
    else
      let s := s.record (.started m.id)
      (({ s with calls := s.calls.addEntry m.id }).reach m.id).settle p

def summary (s : State) : Summary where
  methods := s.calls.reachable.size
  calls := s.calls.edges.size
  pointers := s.graph.nodes.size
  edges := s.graph.edges.size
  objects := s.heap.size
  iterations := s.iterations

/-- Runs the analysis from an entry method to its end. -/
def solve (s : State) (p : Program) (entry : Option Method) : Progress :=
  ((s.start p entry).andThen fun s => s.analyze p).andThen fun s =>
    .going (s.record (.finished s.summary))

end State

end Solver

end PointsTo
