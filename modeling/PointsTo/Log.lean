import PointsTo.CallGraph

/-!
The log. The analyses record what happens as events; an event has a severity, a channel and a
wording.
-/
namespace PointsTo

/-- The sizes of the results of a finished pointer analysis. -/
structure Summary where
  methods : Nat
  calls : Nat
  pointers : Nat
  edges : Nat
  objects : Nat
  iterations : Nat
deriving DecidableEq, Repr

/-- What the analyses record. -/
inductive Event where
  | asked (classes : Nat) (entry : MethodName)
  | started (entry : MethodName)
  | finished (summary : Summary)
  | reached (method : MethodName)
  | linked (edge : CallEdge)
  /-- A static or special call has no method in the program. -/
  | unresolved (callee : MethodRef) (place : Place)
  /-- A call has neither a receiver nor a linked method. -/
  | ignored (place : Place)
  /-- A receiver's class chain leaves the program before a method is found. -/
  | outside (receiverClass subsignature : String)
  | classGraph (methods calls : Nat)
  | failed
deriving DecidableEq, Repr

inductive Severity where
  | debug
  | info
  | warning
deriving DecidableEq, Repr

namespace Severity

def name : Severity → String
  | debug => "DEBUG"
  | info => "INFO"
  | warning => "WARNING"

/-- The rank of a severity among the log levels. -/
def rank : Severity → Nat
  | debug => 10
  | info => 20
  | warning => 30

end Severity

namespace Event

def severity : Event → Severity
  | started _ | finished _ | classGraph .. => .info
  | outside .. => .warning
  | _ => .debug

def channel : Event → String
  | asked .. => "ptanalyzer.analysis.pointer_analysis"
  | started _ | finished _ | reached _ | linked _ | unresolved .. | ignored _ =>
    "ptanalyzer.analysis.solver"
  | outside .. => "ptanalyzer.intermediate_representation.hierarchy"
  | classGraph .. => "ptanalyzer.analysis.cha"
  | failed => "ptanalyzer.cli"

def message : Event → String
  | asked classes entry =>
    "analyzing " ++ toString classes ++ " classes from " ++ entry.signature
  | started entry => "pointer analysis starts from " ++ entry.signature
  | finished s =>
    "pointer analysis finished: " ++ toString s.methods ++ " reachable methods, " ++
      toString s.calls ++ " call edges, " ++ toString s.pointers ++ " pointers, " ++
      toString s.edges ++ " PFG edges, " ++ toString s.objects ++ " objects, " ++
      toString s.iterations ++ " iterations"
  | reached m => "new reachable method " ++ m.signature
  | linked e => "new call edge " ++ e.text
  | unresolved callee place => "unresolved call " ++ callee.signature ++ " at " ++ place.text
  | ignored place => "ignoring receiver-less call " ++ place.text
  | outside receiverClass subsignature =>
    "skipping " ++ subsignature ++ " on " ++ receiverClass ++ ": class chain leaves the program"
  | classGraph methods calls =>
    "CHA call graph: " ++ toString methods ++ " reachable methods, " ++ toString calls ++ " edges"
  | failed => "analysis failed"

def line (e : Event) : String :=
  e.severity.name ++ " " ++ e.channel ++ ": " ++ e.message

end Event

end PointsTo
