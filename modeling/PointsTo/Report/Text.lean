import PointsTo.Analysis

/-!
The readable report: the call graph and every points-to set that is not empty.
-/
namespace PointsTo.Report

open PointsTo.Solver

def lines (l : List String) : String := "\n".intercalate l

def callGraphText (g : CallGraph) : String :=
  lines <|
    ["Reachable methods (" ++ toString g.reachable.size ++ "):"] ++
    g.reachable.items.map (fun m => "  " ++ m.signature) ++
    ["Call edges (" ++ toString g.edges.size ++ "):"] ++
    g.edges.items.map fun e => "  " ++ e.text

/-- The nodes of a kind that point to something. -/
def filledNodes (s : State) (kind : PointerKind) : List Node :=
  (s.graph.nodesOf kind).filter fun n => !n.objects.isEmpty

def nodeLine (s : State) (n : Node) : String :=
  "  " ++ s.graph.text s.heap n.pointer ++ " -> \x7b" ++ ", ".intercalate (s.texts n.objects) ++
    "\x7d"

/-- A titled section of nodes, which is left out where it has none. -/
def titled (s : State) (title : String) (nodes : List Node) : List String :=
  if nodes.isEmpty then [] else [lines (title :: nodes.map (nodeLine s))]

def resultText (s : State) : String :=
  let vars := filledNodes s .var
  "\n\n".intercalate (
    [callGraphText s.calls,
      lines (("Variables (" ++ toString vars.length ++ "):") :: vars.map (nodeLine s))] ++
    titled s "Static fields:" (filledNodes s .static) ++
    titled s "Heap:" (filledNodes s .field ++ filledNodes s .element)) ++ "\n"

end PointsTo.Report
