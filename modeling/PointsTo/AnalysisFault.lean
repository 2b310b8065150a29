import PointsTo.Program.Class

/-!
Why an analysis ends without a result.
-/
namespace PointsTo

/-- What ends an analysis. -/
inductive AnalysisFault where
  | noMain
  | noEntry (text : String)
  /-- The given short name fits several methods. -/
  | ambiguousEntry (ambiguity : Ambiguity)
  /-- The solver has no entry method to start from. -/
  | nothingToStart
  | bodylessEntry (entry : MethodName)
  | argumentMismatch (site : Place) (callee : MethodName) (args params : Nat)
  /-- A receiver type whose class chain is known has no method for a call. -/
  | noMethod (receiverType subsignature : String) (site : Place)
deriving DecidableEq, Repr

def AnalysisFault.message : AnalysisFault → String
  | noMain => "program has no main method; pass an entry method"
  | noEntry text => "entry method " ++ text ++ " not found"
  | ambiguousEntry ambiguity => ambiguity.message
  | nothingToStart => "no entry method: program has no main method"
  | bodylessEntry entry => "entry method " ++ entry.signature ++ " has no body"
  | argumentMismatch site callee args params =>
    site.text ++ " passes " ++ toString args ++ " argument(s) to " ++ callee.signature ++
      ", which declares " ++ toString params ++ " parameter(s)"
  | noMethod receiverType subsignature site =>
    "cannot dispatch " ++ subsignature ++ " on receiver type " ++ receiverType ++ " at " ++
      site.text

end PointsTo
