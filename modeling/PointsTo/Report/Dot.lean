import PointsTo.Analysis

/-!
Graphs in the DOT language.
-/
namespace PointsTo.Report

open PointsTo.Solver

def dotQuote (s : String) : String :=
  "\x22" ++ String.ofList (s.toList.flatMap fun c => if c = '\x22' then ['\\', c] else [c]) ++
    "\x22"

def digraph (name : String) (body : List String) : String :=
  "\n".intercalate (
    ["digraph " ++ name ++ " \x7b", "  node [shape=box, fontname=monospace];"] ++ body ++
      ["\x7d"]) ++ "\n"

/-- The line of a call edge, between the nodes of its caller and its callee; an edge with an end
that is not reachable has none. -/
def callEdgeLine? (g : CallGraph) (e : CallEdge) : Option String := do
  let caller ← e.site.place.method?
  let source ← g.reachable.indexOf? caller
  let target ← g.reachable.indexOf? e.callee
  return "  m" ++ toString source ++ " -> m" ++ toString target ++ " [label=" ++
    dotQuote (e.kind.label ++ " @" ++ e.site.place.indexText) ++ "];"

/-- The graph of the reachable methods, the entries in bold, with the kinds of the calls. -/
def callGraphDot (g : CallGraph) : String :=
  digraph "CallGraph" <|
    g.reachable.items.zipIdx.map (fun (m, i) =>
      "  m" ++ toString i ++ " [label=" ++ dotQuote m.signature ++
        (if g.entries.contains m then ", style=bold" else "") ++ "];") ++
    g.edges.items.filterMap (callEdgeLine? g)

/-- The pointer flow graph, with the numbers of the objects of each pointer. -/
def flowGraphDot (s : State) : String :=
  let g := s.graph
  let name := fun p => "p" ++ toString ((g.handle? p).getD 0)
  digraph "PFG" <|
    g.nodes.items.map (fun n =>
      let objects := ", ".intercalate
        ((ObjectSet.sorted n.objects).map fun o => "o" ++ toString o)
      "  " ++ name n.pointer ++ " [label=" ++
        dotQuote (g.text s.heap n.pointer ++ "\\n\x7b" ++ objects ++ "\x7d") ++ "];") ++
    g.edgesBySource.map fun (source, target) =>
      "  " ++ name source ++ " -> " ++ name target ++ ";"

end PointsTo.Report
