import PointsTo.Solver.Run

/-!
What can be asked of an analysis, one request at a time. Whoever asks keeps the state, also one that
a fault has left behind, so that requests come in any order and as often as one likes.
-/
namespace PointsTo.Solver

/-- A request to an analysis. Nodes and objects come into being when they are asked for. -/
inductive Operation where
  | node (q : Pointer)
  | static (f : Field)
  | object (a : Allocation)
  | start
  | reach (m : MethodName)
  | connect (source target : Pointer)
  | send (q : Pointer) (objects : ObjectSet)
  | propagate (q : Pointer) (objects : ObjectSet)
  | processCalls (v : Variable) (o : ObjectId)
  | analyze
  | solve

namespace Operation

def perform (p : Program) (entry : Option Method) : Operation → State → Progress
  | node q, s => .going (s.touch q)
  | static f, s => .going (s.touchStatic f)
  | object a, s => .going (s.allocate a).2
  | start, s => s.start p entry
  | reach m, s => .going (s.reach m)
  | connect source target, s => .going (s.flow source target)
  | send q objects, s => .going ((s.touch q).send q objects)
  | propagate q objects, s => .going ((s.touch q).propagate q objects).2
  | processCalls v o, s => s.processCalls p v o
  | analyze, s => s.analyze p
  | solve, s => s.solve p entry

/-- The state after requests, each made of the state that the one before has left behind. -/
def session (p : Program) (entry : Option Method) (ops : List Operation) (s : State) : State :=
  ops.foldl (fun s op => (op.perform p entry s).state) s

end Operation

end PointsTo.Solver
