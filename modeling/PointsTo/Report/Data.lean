import PointsTo.Report.Json
import PointsTo.Report.Text

/-!
The report as data. Pointers are told apart by their written forms; where two have one, the first
gives the place and the last the objects.
-/
namespace PointsTo.Report

open PointsTo.Solver

structure Data where
  reachable : List String
  calls : List CallEdge
  objects : List String
  vars : List NamedSet
  statics : List NamedSet
  fields : List NamedSet
  elements : List NamedSet

/-- The points-to sets of the pointers of a kind. -/
def pointsToMap (s : State) (kind : PointerKind) : List NamedSet :=
  (Roster.ofList ((filledNodes s kind).map fun n =>
    ⟨s.graph.text s.heap n.pointer, s.texts n.objects⟩) : Roster NamedSet.name).items

/-- The report of a pointer analysis. -/
def resultData (s : State) : Data where
  reachable := s.calls.reachable.items.map MethodName.signature
  calls := s.calls.edges.items
  objects := s.objects.map s.heap.text
  vars := pointsToMap s .var
  statics := pointsToMap s .static
  fields := pointsToMap s .field
  elements := pointsToMap s .element

def textList (l : List String) : Json := .list (l.map .text)

def setsJson (sets : List NamedSet) : Json :=
  .object (sets.map fun set => (set.name, textList set.objects))

def callJson (e : CallEdge) : Json :=
  .object [
    ("kind", .text e.kind.label),
    ("call_site", .text e.site.place.text),
    ("callee", .text e.callee.signature)]

def Data.json (d : Data) : Json :=
  .object [
    ("reachable_methods", textList d.reachable),
    ("call_edges", .list (d.calls.map callJson)),
    ("objects", textList d.objects),
    ("points_to", .object [
      ("vars", setsJson d.vars),
      ("static_fields", setsJson d.statics),
      ("instance_fields", setsJson d.fields),
      ("arrays", setsJson d.elements)])]

def resultJson (s : State) : String := (resultData s).json.render 0 ++ "\n"

end PointsTo.Report
