import PointsTo.Proofs.Reachability
import PointsTo.Report.Dot

/-!
Pictures of call graphs, line by line. Each reachable method has a line under the number of its
place among them, and behind those each call edge has a line between the numbers of its caller and
its callee. An edge with an end that is not reachable would be left out; both analyses reach both
ends of every edge, so that none is.
-/
namespace PointsTo

open Relation (ReflTransGen)

namespace Report

/-- A text as it stands between quotes: a quote has a backslash in front of it, and any other
character stands for itself. -/
inductive Escaped : List Char → List Char → Prop
  | nil : Escaped [] []
  | quote {text inner} (rest : Escaped text inner) :
      Escaped ('\x22' :: text) ('\\' :: '\x22' :: inner)
  | plain {c text inner} (other : c ≠ '\x22') (rest : Escaped text inner) :
      Escaped (c :: text) (c :: inner)

/-- A text between quotes. -/
def Quoted (text label : String) : Prop :=
  ∃ inner, Escaped text.toList inner ∧ label.toList = '\x22' :: inner ++ ['\x22']

/-- The line of a reachable method under its number; an entry method is in bold. -/
def NodeLine (g : CallGraph) (x : MethodName × Nat) (line : String) : Prop :=
  ∃ label, Quoted x.1.signature label ∧
    line = "  m" ++ toString x.2 ++ " [label=" ++ label ++
      (if x.1 ∈ g.entries.items then ", style=bold" else "") ++ "];"

/-- The line of a call edge, from the number of the method of its call site to the number of its
callee, with its kind and the index of its call site. -/
def EdgeLine (g : CallGraph) (e : CallEdge) (line : String) : Prop :=
  ∃ (caller : MethodName) (source target : Nat) (label : String),
    e.site.place.method? = some caller ∧
    g.reachable.items[source]? = some caller ∧ g.reachable.items[target]? = some e.callee ∧
    Quoted (e.kind.label ++ " @" ++ e.site.place.indexText) label ∧
    line = "  m" ++ toString source ++ " -> m" ++ toString target ++ " [label=" ++ label ++ "];"

/-- The lines of the picture between its opening and its closing brace: how nodes are drawn, one
line for each reachable method and one for each call edge, all in their order. Each line is ended by
a line feed. -/
def Pictures (g : CallGraph) (picture : String) : Prop :=
  ∃ nodes edges, List.Forall₂ (NodeLine g) g.reachable.items.zipIdx nodes ∧
    List.Forall₂ (EdgeLine g) g.edges.items edges ∧
    picture.toList =
      (["digraph CallGraph \x7b", "  node [shape=box, fontname=monospace];"] ++ nodes ++ edges ++
        ["\x7d"]).flatMap fun line => line.toList ++ ['\n']

/-! ### Texts in the DOT language -/

theorem quoted_dotQuote (s : String) : Quoted s (dotQuote s) := by
  refine ⟨s.toList.flatMap fun c => if c = '\x22' then ['\\', c] else [c], ?_, by simp [dotQuote]⟩
  induction s.toList with
  | nil => exact .nil
  | cons c rest ih =>
    rw [List.flatMap_cons]
    by_cases hc : c = '\x22'
    · rw [if_pos hc, hc]
      exact .quote ih
    · rw [if_neg hc]
      exact .plain hc ih

/-- Lines with line feeds between them and one at the end are lines that each have one. -/
theorem toList_lines (first : String) (rest : List String) :
    ("\n".intercalate (first :: rest) ++ "\n").toList =
      (first :: rest).flatMap fun line => line.toList ++ ['\n'] := by
  induction rest generalizing first with
  | nil => simp
  | cons second rest ih =>
    rw [List.flatMap_cons, ← ih second, String.intercalate_cons_cons]
    simp only [String.toList_append, List.append_assoc]
    rfl

theorem toList_digraph (name : String) (body : List String) :
    (digraph name body).toList =
      (["digraph " ++ name ++ " \x7b", "  node [shape=box, fontname=monospace];"] ++ body ++
        ["\x7d"]).flatMap fun line => line.toList ++ ['\n'] :=
  toList_lines _ _

/-! ### The lines -/

theorem exists_indexOf? {l : OrderedSet MethodName} {m : MethodName} (h : m ∈ l.items) :
    ∃ number, l.indexOf? m = some number ∧ l.items[number]? = some m := by
  have hkeys := OrderedSet.keys_eq_items l
  cases hi : l.indexOf? m with
  | none =>
    unfold Roster.indexOf? at hi
    rw [List.idxOf?_eq_none_iff, hkeys] at hi
    exact absurd h hi
  | some number =>
    obtain ⟨hlt, heq, -⟩ := List.idxOf?_eq_some_iff.1 hi
    refine ⟨number, rfl, ?_⟩
    rw [← hkeys]
    exact List.getElem?_eq_some_iff.2 ⟨hlt, heq⟩

/-- What is drawn for a reachable method under its number. -/
def nodeText (g : CallGraph) (x : MethodName × Nat) : String :=
  "  m" ++ toString x.2 ++ " [label=" ++ dotQuote x.1.signature ++
    (if g.entries.contains x.1 then ", style=bold" else "") ++ "];"

/-- What is drawn for a call edge between two numbers. -/
def edgeText (e : CallEdge) (source target : Nat) : String :=
  "  m" ++ toString source ++ " -> m" ++ toString target ++ " [label=" ++
    dotQuote (e.kind.label ++ " @" ++ e.site.place.indexText) ++ "];"

section Lines

variable {p : Program} {entry : MethodName} {g : CallGraph}

theorem nodeLine_nodeText (g : CallGraph) (x : MethodName × Nat) :
    NodeLine g x (nodeText g x) := by
  refine ⟨dotQuote x.1.signature, quoted_dotQuote _, ?_⟩
  have hentry : g.entries.contains x.1 = true ↔ x.1 ∈ g.entries.items := by
    rw [Roster.contains_iff, OrderedSet.keys_eq_items]
  simp only [nodeText, hentry]

theorem exists_callEdgeLine? (h : g.Reaches p entry) {e : CallEdge} (he : e ∈ g.edges.items) :
    ∃ line, callEdgeLine? g e = some line ∧ EdgeLine g e line := by
  obtain ⟨m, -, hcaller, -, hplace⟩ := h.callers e he
  obtain ⟨source, hsource, hget⟩ := exists_indexOf? hcaller
  obtain ⟨target, htarget, hget'⟩ := exists_indexOf? (h.callees e he)
  refine ⟨edgeText e source target, ?_, m.id, source, target, _, hplace, hget, hget',
    quoted_dotQuote _, rfl⟩
  simp only [callEdgeLine?, hplace, hsource, htarget, bind, Option.bind, pure]
  rfl

/-- **The picture of a graph leaves no edge out** where the ends of all edges are reachable. -/
theorem pictures_callGraphDot (h : g.Reaches p entry) : Pictures g (callGraphDot g) := by
  have nodes : ∀ items : List (MethodName × Nat),
      List.Forall₂ (NodeLine g) items (items.map (nodeText g)) := by
    intro items
    exact List.forall₂_map_right_iff.2 (List.forall₂_same.2 fun x _ => nodeLine_nodeText g x)
  have edges : ∀ items : List CallEdge, (∀ e ∈ items, e ∈ g.edges.items) →
      List.Forall₂ (EdgeLine g) items (items.filterMap (callEdgeLine? g)) := by
    intro items hitems
    induction items with
    | nil => exact .nil
    | cons e rest ih =>
      obtain ⟨line, hline, hdraws⟩ := exists_callEdgeLine? h (hitems e List.mem_cons_self)
      rw [List.filterMap_cons_some hline]
      exact .cons hdraws (ih fun d hd => hitems d (List.mem_cons_of_mem e hd))
  refine ⟨_, _, nodes _, edges _ fun _ => id, ?_⟩
  rw [List.append_assoc _ (List.map _ _)]
  exact toList_digraph "CallGraph" _

end Lines

end Report

namespace Solver

/-- **The reachable methods of both analyses are those that call edges lead to from the entry
method**, at every state of a run of the pointer analysis, also where it stops with a fault; both
ends of every edge are reachable. The picture of a finished graph has a line for each reachable
method and a line for each call edge, between its caller and its callee. -/
theorem callGraphs_reach {p : Program} (h : Jimple.Parsed p) {entry : Method}
    (hasBody : entry.body.isSome) :
    (∀ log s, ReflTransGen (Move p) (State.opened { log } entry.id) s →
      s.calls.Reaches p entry.id) ∧
    (analyzeFrom p entry).state.calls.Reaches p entry.id ∧
    (hierarchyCallGraph p entry).Reaches p entry.id ∧
    (∀ s, analyzeFrom p entry = .going s → Report.Pictures s.calls (Report.callGraphDot s.calls)) ∧
    Report.Pictures (hierarchyCallGraph p entry)
      (Report.callGraphDot (hierarchyCallGraph p entry)) := by
  have hsolved := (analyzeFrom_grown h.proper hasBody).reaches
  have hfollowed := (hierarchyCallGraph_grown h.proper entry).reaches
  refine ⟨fun log s run => (moves_grown h.proper run).reaches, hsolved, hfollowed,
    fun s goes => ?_, Report.pictures_callGraphDot hfollowed⟩
  rw [goes] at hsolved
  exact Report.pictures_callGraphDot hsolved

/-- The picture of the knot: two methods, and two calls, the second of them from a method to
itself. -/
def knotPicture : String :=
  "digraph CallGraph \x7b\n" ++
  "  node [shape=box, fontname=monospace];\n" ++
  "  m0 [label=\"<A: void main(java.lang.String[])>\", style=bold];\n" ++
  "  m1 [label=\"<A: void m()>\"];\n" ++
  "  m0 -> m1 [label=\"VIRTUAL @1\"];\n" ++
  "  m1 -> m1 [label=\"VIRTUAL @2\"];\n" ++
  "\x7d\n"

theorem callGraphDot_knot : (Jimple.knot.main?.all fun m =>
    Report.callGraphDot (analyzeFrom Jimple.knot m).state.calls = knotPicture) = true := by
  decide +kernel

theorem callGraphs_reach_knot : ∃ m s, Jimple.knot.main? = some m ∧
    analyzeFrom Jimple.knot m = .going s ∧
    (∀ log s, ReflTransGen (Move Jimple.knot) (State.opened { log } m.id) s →
      s.calls.Reaches Jimple.knot m.id) ∧
    (analyzeFrom Jimple.knot m).state.calls.Reaches Jimple.knot m.id ∧
    (hierarchyCallGraph Jimple.knot m).Reaches Jimple.knot m.id ∧
    Report.callGraphDot s.calls = knotPicture ∧ Report.Pictures s.calls knotPicture ∧
    Report.Pictures (hierarchyCallGraph Jimple.knot m)
      (Report.callGraphDot (hierarchyCallGraph Jimple.knot m)) := by
  obtain ⟨m, s, hm, -, goes⟩ := Jimple.exists_going Jimple.knot_runs.1
  obtain ⟨hmoves, hsolved, hfollowed, hpicture, hpicture'⟩ :=
    callGraphs_reach Jimple.parsed_knot (hasBody_of_going goes)
  have hdrawn := callGraphDot_knot
  rw [hm] at hdrawn
  have hdot := of_decide_eq_true hdrawn
  rw [goes] at hdot
  exact ⟨m, s, hm, goes, hmoves, hsolved, hfollowed, hdot, hdot ▸ hpicture s goes, hpicture'⟩

end Solver

end PointsTo
