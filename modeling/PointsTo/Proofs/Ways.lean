import Mathlib.Data.List.Lex
import Mathlib.Data.Prod.Lex
import PointsTo.Proofs.Chains

/-!
Ways through the classes of a program. A way says at which place of each list the search goes on;
ways are ranked by their length, and those of one length place by place. `reach` comes to exactly
the names that ways lead to, in the order of their first ways, so that the first class of a kind
that it comes to is the one with the first way of all.
-/
namespace PointsTo.Program

open Relation (ReflTransGen)

/-- The class of the first name links to the second name. -/
def Links (p : Program) (links : Class → List String) (name further : String) : Prop :=
  ∃ c, p.class? name = some c ∧ further ∈ links c

/-- The way leads to a name: its first place is one of the start, and each further place is one
among the links of the class that it has come to. -/
inductive Way (p : Program) (links : Class → List String) (start : List String) :
    List Nat → String → Prop
  | first {i name} (listed : start[i]? = some name) : Way p links start [i] name
  | next {w name c i further} (way : Way p links start w name) (here : p.class? name = some c)
      (listed : (links c)[i]? = some further) : Way p links start (w ++ [i]) further

/-- A shorter way comes before a longer one, and of two equally long ways the one whose places come
first. -/
def rank (w : List Nat) : Nat ×ₗ List Nat := toLex (w.length, w)

section Rank

variable {u w : List Nat} {i j : Nat}

theorem rank_lt_iff : rank u < rank w ↔ u.length < w.length ∨ u.length = w.length ∧ u < w :=
  Prod.Lex.toLex_lt_toLex

theorem rank_injective (h : rank u = rank w) : u = w := (Prod.mk.inj (toLex.injective h)).2

theorem append_lt_append (hlength : u.length = w.length) (h : u < w) (s t : List Nat) :
    u ++ s < w ++ t := by
  induction u generalizing w with
  | nil =>
    have hnil : w = [] := List.length_eq_zero_iff.1 hlength.symm
    subst hnil
    exact absurd h (lt_irrefl _)
  | cons a u ih =>
    cases w with
    | nil => simp at hlength
    | cons b w =>
      rw [List.cons_append, List.cons_append, List.cons_lt_cons_iff]
      rcases List.cons_lt_cons_iff.1 h with hab | ⟨hab, hrest⟩
      · exact .inl hab
      · exact .inr ⟨hab, ih (Nat.succ.inj hlength) hrest⟩

theorem rank_lt_snoc (w : List Nat) (i : Nat) : rank w < rank (w ++ [i]) := by
  rw [rank_lt_iff]
  left
  simp

theorem rank_snoc_lt_snoc (h : rank u < rank w) (i j : Nat) :
    rank (u ++ [i]) < rank (w ++ [j]) := by
  rw [rank_lt_iff] at h ⊢
  simp only [List.length_append, List.length_singleton]
  rcases h with hshorter | ⟨hlength, hplace⟩
  · left
    omega
  · right
    exact ⟨by omega, append_lt_append hlength hplace [i] [j]⟩

theorem rank_snoc_le_snoc (h : rank u ≤ rank w) (i : Nat) :
    rank (u ++ [i]) ≤ rank (w ++ [i]) := by
  rcases h.lt_or_eq with hless | hsame
  · exact (rank_snoc_lt_snoc hless i i).le
  · rw [rank_injective hsame]

theorem rank_snoc_lt_of_lt (w : List Nat) (h : i < j) : rank (w ++ [i]) < rank (w ++ [j]) := by
  rw [rank_lt_iff]
  right
  refine ⟨by simp, List.append_left_lt ?_⟩
  exact List.cons_lt_cons_iff.2 (.inl h)

end Rank

section Ways

variable {p : Program} {links : Class → List String} {start : List String} {w : List Nat}
  {name name' : String}

theorem not_way_nil : ¬ p.Way links start [] name := by
  generalize hw : ([] : List Nat) = w
  intro h
  cases h with
  | first => cases hw
  | next => simp at hw

/-- A way leads to one name. -/
theorem Way.unique (h : p.Way links start w name) (h' : p.Way links start w name') :
    name = name' := by
  induction h generalizing name' with
  | @first i name listed =>
    generalize hw : [i] = w at h'
    cases h' with
    | first listed' =>
      cases hw
      exact Option.some.inj (listed.symm.trans listed')
    | @next v _ _ j _ way =>
      -- a way of one place has no way before it
      have hnil : v = [] := (List.append_eq_singleton_iff.1 hw.symm).elim (·.1) fun h => by
        simp at h
      exact absurd (hnil ▸ way) not_way_nil
  | @next w name c i further way here listed ih =>
    generalize hw : w ++ [i] = v at h'
    cases h' with
    | first =>
      have hnil : w = [] := (List.append_eq_singleton_iff.1 hw).elim (·.1) fun h => by
        simp at h
      exact absurd (hnil ▸ way) not_way_nil
    | next way' here' listed' =>
      obtain ⟨rfl, rfl⟩ := List.append_singleton_inj.1 hw
      obtain rfl := ih way'
      obtain rfl := Option.some.inj (here.symm.trans here')
      exact Option.some.inj (listed.symm.trans listed')

/-- Ways lead to the names that links lead to from the start. -/
theorem exists_way_iff :
    (∃ w, p.Way links start w name) ↔ ∃ first ∈ start, ReflTransGen (p.Links links) first name := by
  constructor
  · rintro ⟨w, way⟩
    induction way with
    | first listed => exact ⟨_, List.mem_of_getElem? listed, .refl⟩
    | next _ here listed ih =>
      obtain ⟨first, hfirst, hlinks⟩ := ih
      exact ⟨first, hfirst, hlinks.tail ⟨_, here, List.mem_of_getElem? listed⟩⟩
  · rintro ⟨first, hfirst, hlinks⟩
    induction hlinks with
    | refl =>
      obtain ⟨i, listed⟩ := List.mem_iff_getElem?.1 hfirst
      exact ⟨[i], .first listed⟩
    | tail _ last ih =>
      obtain ⟨w, way⟩ := ih
      obtain ⟨c, here, hmem⟩ := last
      obtain ⟨i, listed⟩ := List.mem_iff_getElem?.1 hmem
      exact ⟨w ++ [i], way.next here listed⟩

end Ways

/-! ### The search -/

/-- A name that the search comes to, and the way by which it does. -/
structure Stop where
  name : String
  way : List Nat

/-- One of the stops is at the name, by a way that is no later than the given one. -/
def Covered (stops : List Stop) (w : List Nat) (name : String) : Prop :=
  ∃ y ∈ stops, y.name = name ∧ rank y.way ≤ rank w

/-- The stops behind a stop: the links of its class in their order. -/
def branches (p : Program) (links : Class → List String) (x : Stop) : List Stop :=
  match p.class? x.name with
  | none => []
  | some c => (links c).zipIdx.map fun l => ⟨l.1, x.way ++ [l.2]⟩

/-- How far the search has come. All stops are in the order of their ways, the way before each
pending stop is behind, and whatever is listed at the start or linked to by a stop that was made is
covered. -/
structure Searched (p : Program) (links : Class → List String) (start : List String)
    (made pending : List Stop) : Prop where
  ways : ∀ x ∈ made ++ pending, p.Way links start x.way x.name
  sorted : (made ++ pending).Pairwise fun x y => rank x.way < rank y.way
  behind : ∀ x ∈ pending, ∀ u i, x.way = u ++ [i] → ∀ y ∈ pending, rank u < rank y.way
  listed : ∀ i name, start[i]? = some name → Covered (made ++ pending) [i] name
  linked : ∀ x ∈ made, ∀ c, p.class? x.name = some c → ∀ i name, (links c)[i]? = some name →
    Covered (made ++ pending) (x.way ++ [i]) name

section Search

variable {p : Program} {links : Class → List String} {start : List String}
  {made pending stops : List Stop} {x y : Stop} {w : List Nat} {name : String}

theorem Covered.mono {stops' : List Stop} (h : Covered stops w name) (hsub : stops ⊆ stops') :
    Covered stops' w name := by
  obtain ⟨y, hy, hname, hrank⟩ := h
  exact ⟨y, hsub hy, hname, hrank⟩

theorem mem_branches : y ∈ p.branches links x ↔ ∃ c i, p.class? x.name = some c ∧
    (links c)[i]? = some y.name ∧ y.way = x.way ++ [i] := by
  unfold branches
  split
  · next absent => simp [absent]
  · next c here =>
    rw [List.mem_map]
    constructor
    · rintro ⟨l, hl, rfl⟩
      exact ⟨c, l.2, here, List.mem_zipIdx_iff_getElem?.1 hl, rfl⟩
    · rintro ⟨d, i, here', listed, hway⟩
      rw [here] at here'
      obtain rfl := Option.some.inj here'
      refine ⟨(y.name, i), List.mem_zipIdx_iff_getElem?.2 listed, ?_⟩
      rw [← hway]

theorem map_name_branches {c : Class} (here : p.class? x.name = some c) :
    (p.branches links x).map Stop.name = links c := by
  unfold branches
  rw [here]
  dsimp only
  rw [List.map_map]
  exact List.zipIdx_map_fst 0 (links c)

theorem branches_of_absent (absent : p.class? x.name = none) : p.branches links x = [] := by
  unfold branches
  rw [absent]

theorem sorted_branches :
    (p.branches links x).Pairwise fun y z => rank y.way < rank z.way := by
  unfold branches
  split
  · exact .nil
  · rw [List.pairwise_map, List.pairwise_iff_getElem]
    intro i j _ _ hij
    simp only [List.getElem_zipIdx, Nat.zero_add]
    exact rank_snoc_lt_of_lt x.way hij

/-- A name at which a stop was made before is passed over. -/
theorem Searched.skip (h : p.Searched links start made (x :: pending))
    (old : x.name ∈ made.map Stop.name) : p.Searched links start made pending := by
  have hsub : (made ++ pending).Sublist (made ++ x :: pending) :=
    (List.sublist_cons_self x pending).append_left made
  -- what the dropped stop covers is covered by the earlier one of its name
  have hcovered : ∀ w name, Covered (made ++ x :: pending) w name →
      Covered (made ++ pending) w name := by
    rintro w name ⟨y, hy, hname, hrank⟩
    rcases List.mem_append.1 hy with hy | hy
    · exact ⟨y, List.mem_append_left _ hy, hname, hrank⟩
    rcases List.mem_cons.1 hy with rfl | hy
    · obtain ⟨z, hz, hsame⟩ := List.mem_map.1 old
      have hless := (List.pairwise_append.1 h.sorted).2.2 z hz y List.mem_cons_self
      exact ⟨z, List.mem_append_left _ hz, hsame.trans hname, hless.le.trans hrank⟩
    · exact ⟨y, List.mem_append_right _ hy, hname, hrank⟩
  constructor
  · exact fun y hy => h.ways y (hsub.subset hy)
  · exact h.sorted.sublist hsub
  · intro y hy u i hway z hz
    exact h.behind y (List.mem_cons_of_mem x hy) u i hway z (List.mem_cons_of_mem x hz)
  · exact fun i name hlisted => hcovered _ _ (h.listed i name hlisted)
  · exact fun y hy c here i name hlisted => hcovered _ _ (h.linked y hy c here i name hlisted)

/-- Everything so far comes before what is behind the stop that is visited. -/
theorem Searched.rank_lt_branch (h : p.Searched links start made (x :: pending))
    (hy : y ∈ made ++ x :: pending) (i : Nat) : rank y.way < rank (x.way ++ [i]) := by
  obtain ⟨-, hpending, hmade⟩ := List.pairwise_append.1 h.sorted
  rcases List.mem_append.1 hy with hy | hy
  · exact (hmade y hy x List.mem_cons_self).trans (rank_lt_snoc x.way i)
  rcases List.mem_cons.1 hy with rfl | hy
  · exact rank_lt_snoc y.way i
  · -- the way before a pending stop comes before that of the stop which is visited
    have hway := h.ways y (List.mem_append_right _ (List.mem_cons_of_mem x hy))
    rcases List.eq_nil_or_concat y.way with hnil | ⟨u, j, hu⟩
    · exact absurd (hnil ▸ hway) not_way_nil
    · rw [List.concat_eq_append] at hu
      rw [hu]
      exact rank_snoc_lt_snoc
        (h.behind y (List.mem_cons_of_mem x hy) u j hu x List.mem_cons_self) j i

/-- At a name that is new a stop is made, and the stops behind it are put down. -/
theorem Searched.visit (h : p.Searched links start made (x :: pending)) :
    p.Searched links start (made ++ [x]) (pending ++ p.branches links x) := by
  have hsame : made ++ [x] ++ (pending ++ p.branches links x) =
      (made ++ x :: pending) ++ p.branches links x := by simp
  have hsub : made ++ x :: pending ⊆ made ++ [x] ++ (pending ++ p.branches links x) := by
    rw [hsame]
    exact List.subset_append_left _ _
  obtain ⟨-, hpending, -⟩ := List.pairwise_append.1 h.sorted
  have hnext : ∀ y ∈ pending, rank x.way < rank y.way := (List.pairwise_cons.1 hpending).1
  constructor
  · intro y hy
    rw [hsame] at hy
    rcases List.mem_append.1 hy with hy | hy
    · exact h.ways y hy
    · obtain ⟨c, i, here, hlisted, hway⟩ := mem_branches.1 hy
      have hx := h.ways x (List.mem_append_right _ List.mem_cons_self)
      rw [hway]
      exact hx.next here hlisted
  · rw [hsame, List.pairwise_append]
    refine ⟨h.sorted, sorted_branches, fun y hy z hz => ?_⟩
    obtain ⟨c, i, -, -, hway⟩ := mem_branches.1 hz
    rw [hway]
    exact h.rank_lt_branch hy i
  · intro y hy u i hu z hz
    have hbehind : rank u ≤ rank x.way := by
      rcases List.mem_append.1 hy with hy | hy
      · exact (h.behind y (List.mem_cons_of_mem x hy) u i hu x List.mem_cons_self).le
      · obtain ⟨c, j, -, -, hway⟩ := mem_branches.1 hy
        rw [hway] at hu
        rw [(List.append_singleton_inj.1 hu).1]
    rcases List.mem_append.1 hz with hz | hz
    · exact hbehind.trans_lt (hnext z hz)
    · obtain ⟨c, j, -, -, hway⟩ := mem_branches.1 hz
      rw [hway]
      exact hbehind.trans_lt (rank_lt_snoc x.way j)
  · exact fun i name hlisted => (h.listed i name hlisted).mono hsub
  · intro y hy c here i name hlisted
    rcases List.mem_append.1 hy with hy | hy
    · exact (h.linked y hy c here i name hlisted).mono hsub
    · obtain rfl := List.mem_singleton.1 hy
      have hbranch : (⟨name, y.way ++ [i]⟩ : Stop) ∈ p.branches links y :=
        mem_branches.2 ⟨c, i, here, hlisted, rfl⟩
      exact ⟨_, hsame ▸ List.mem_append_right _ hbranch, rfl, le_rfl⟩

theorem searched_start (p : Program) (links : Class → List String) (start : List String) :
    p.Searched links start [] (start.zipIdx.map fun l => ⟨l.1, [l.2]⟩) := by
  have hmem : ∀ {y : Stop}, y ∈ start.zipIdx.map (fun l => (⟨l.1, [l.2]⟩ : Stop)) ↔
      ∃ i, start[i]? = some y.name ∧ y.way = [i] := by
    intro y
    rw [List.mem_map]
    constructor
    · rintro ⟨l, hl, rfl⟩
      exact ⟨l.2, List.mem_zipIdx_iff_getElem?.1 hl, rfl⟩
    · rintro ⟨i, hlisted, hway⟩
      refine ⟨(y.name, i), List.mem_zipIdx_iff_getElem?.2 hlisted, ?_⟩
      rw [← hway]
  constructor
  · intro y hy
    obtain ⟨i, hlisted, hway⟩ := hmem.1 hy
    rw [hway]
    exact .first hlisted
  · rw [List.nil_append, List.pairwise_map, List.pairwise_iff_getElem]
    intro i j _ _ hij
    simp only [List.getElem_zipIdx, Nat.zero_add]
    exact rank_snoc_lt_of_lt [] hij
  · intro y hy u i hu z hz
    obtain ⟨j, -, hway⟩ := hmem.1 hy
    obtain ⟨k, -, hway'⟩ := hmem.1 hz
    rw [hway] at hu
    have hnil : u = [] := (List.append_singleton_inj.1 (show [] ++ [j] = u ++ [i] from hu)).1.symm
    rw [hnil, hway']
    exact rank_lt_snoc [] k
  · exact fun i name hlisted => ⟨⟨name, [i]⟩, hmem.2 ⟨i, hlisted, rfl⟩, rfl, le_rfl⟩
  · exact fun y hy => absurd hy List.not_mem_nil

/-- A search from where it has come to makes the stops at the names that are collected. -/
theorem Scans.exists_stops {names seen r : List String} (h : p.Scans links names seen r)
    (hs : p.Searched links start made pending) (hpending : pending.map Stop.name = names)
    (hmade : made.map Stop.name = seen) :
    ∃ stops, stops.map Stop.name = r ∧ p.Searched links start stops [] := by
  induction h generalizing made pending with
  | done =>
    obtain rfl := List.map_eq_nil_iff.1 hpending
    exact ⟨made, hmade, hs⟩
  | skip old _ ih =>
    obtain ⟨x, pending, rfl, rfl, hrest⟩ := List.map_eq_cons_iff.1 hpending
    exact ih (hs.skip (hmade ▸ old)) hrest hmade
  | outside _ absent _ ih =>
    obtain ⟨x, pending, rfl, rfl, hrest⟩ := List.map_eq_cons_iff.1 hpending
    refine ih hs.visit ?_ ?_
    · rw [branches_of_absent absent, List.append_nil]
      exact hrest
    · rw [List.map_append, hmade]
      rfl
  | inside _ here _ ih =>
    obtain ⟨x, pending, rfl, rfl, hrest⟩ := List.map_eq_cons_iff.1 hpending
    refine ih hs.visit ?_ ?_
    · rw [List.map_append, hrest, map_name_branches here]
    · rw [List.map_append, hmade]
      rfl

/-- Where nothing is pending, every way is covered. -/
theorem Searched.covered (h : p.Searched links start stops [])
    (way : p.Way links start w name) : Covered stops w name := by
  have hall : stops ++ [] = stops := List.append_nil stops
  induction way with
  | first listed => exact hall ▸ h.listed _ _ listed
  | @next w name c i further _ here listed ih =>
    obtain ⟨x, hx, rfl, hrank⟩ := ih
    obtain ⟨y, hy, hname, hrank'⟩ := hall ▸ h.linked x hx c here i further listed
    exact ⟨y, hy, hname, hrank'.trans (rank_snoc_le_snoc hrank i)⟩

/-- **The search comes to the names of all ways, in the order of their first ways.** -/
theorem exists_stops (p : Program) (links : Class → List String) (start : List String) :
    ∃ stops, stops.map Stop.name = p.reach links start ∧
      (stops.Pairwise fun x y => rank x.way < rank y.way) ∧
      (∀ x ∈ stops, p.Way links start x.way x.name) ∧
      ∀ w name, p.Way links start w name → Covered stops w name := by
  have hnames : (start.zipIdx.map fun l => (⟨l.1, [l.2]⟩ : Stop)).map Stop.name = start := by
    rw [List.map_map]
    exact List.zipIdx_map_fst 0 start
  obtain ⟨stops, hstops, hs⟩ := (scans_reachFrom links start []).exists_stops
    (searched_start p links start) hnames rfl
  have hall : stops ++ [] = stops := List.append_nil stops
  exact ⟨stops, hstops, hall ▸ hs.sorted, hall ▸ hs.ways, fun _ _ => hs.covered⟩

/-- The names that are reached are those that links lead to from the start. -/
theorem mem_reach :
    name ∈ p.reach links start ↔ ∃ first ∈ start, ReflTransGen (p.Links links) first name := by
  rw [← exists_way_iff]
  obtain ⟨stops, hstops, -, hways, hcovered⟩ := exists_stops p links start
  rw [← hstops, List.mem_map]
  constructor
  · rintro ⟨x, hx, rfl⟩
    exact ⟨x.way, hways x hx⟩
  · rintro ⟨w, way⟩
    obtain ⟨y, hy, hname, -⟩ := hcovered w name way
    exact ⟨y, hy, hname⟩

theorem mem_reachClasses {c : Class} : c ∈ p.reachClasses links start ↔
    p.class? c.name = some c ∧ ∃ first ∈ start, ReflTransGen (p.Links links) first c.name := by
  unfold reachClasses
  rw [List.mem_filterMap]
  constructor
  · rintro ⟨name, hname, here⟩
    obtain rfl : c.name = name := Roster.key_of_get? here
    exact ⟨here, mem_reach.1 hname⟩
  · rintro ⟨here, hlinks⟩
    exact ⟨c.name, mem_reach.2 hlinks, here⟩

theorem findSome?_filterMap {α β γ : Type} (f : α → Option β) (g : β → Option γ) (l : List α) :
    (l.filterMap f).findSome? g = l.findSome? fun x => (f x).bind g := by
  induction l with
  | nil => rfl
  | cons x l ih =>
    cases h : f x with
    | none =>
      rw [List.filterMap_cons_none h, ih, List.findSome?_cons, h]
      rfl
    | some b =>
      rw [List.filterMap_cons_some h, List.findSome?_cons, List.findSome?_cons, h, ih]
      rfl

/-- The first answer is that of a class whose way is the first of all that lead to an answer. -/
theorem exists_first_way {α : Type} {answer : Class → Option α} {a : α}
    (h : (p.reachClasses links start).findSome? answer = some a) :
    ∃ w c, p.Way links start w c.name ∧ p.class? c.name = some c ∧ answer c = some a ∧
      ∀ v d, p.Way links start v d.name → p.class? d.name = some d → (answer d).isSome →
        rank w ≤ rank v := by
  obtain ⟨stops, hstops, hsorted, hways, hcovered⟩ := exists_stops p links start
  have hfind : (p.reachClasses links start).findSome? answer =
      stops.findSome? fun x => (p.class? x.name).bind answer := by
    unfold reachClasses
    rw [← hstops, findSome?_filterMap, List.findSome?_map]
    rfl
  rw [hfind] at h
  obtain ⟨before, x, behind, rfl, hx, hnone⟩ := List.findSome?_eq_some_iff.1 h
  obtain ⟨c, here, hanswer⟩ := Option.bind_eq_some_iff.1 hx
  obtain hname : c.name = x.name := Roster.key_of_get? here
  refine ⟨x.way, c, hname ▸ hways x (by simp), hname ▸ here, hanswer, ?_⟩
  intro v d way here' hsome
  obtain ⟨y, hy, hsame, hrank⟩ := hcovered v d.name way
  refine le_trans ?_ hrank
  rcases List.mem_append.1 hy with hy | hy
  · have hnot := hnone y hy
    rw [hsame, here', Option.bind_some] at hnot
    rw [hnot] at hsome
    cases hsome
  · rcases List.mem_cons.1 hy with rfl | hy
    · exact le_rfl
    · have hbehind := (List.pairwise_append.1 hsorted).2.1
      exact ((List.pairwise_cons.1 hbehind).1 y hy).le

/-- **The first class for which a search has an answer is the one with the first way of all that
have one.** -/
theorem findSome?_reachClasses {α : Type} {answer : Class → Option α} {a : α} :
    (p.reachClasses links start).findSome? answer = some a ↔
      ∃ w c, p.Way links start w c.name ∧ p.class? c.name = some c ∧ answer c = some a ∧
        ∀ v d, p.Way links start v d.name → p.class? d.name = some d → (answer d).isSome →
          rank w ≤ rank v := by
  refine ⟨exists_first_way, ?_⟩
  rintro ⟨w, c, way, here, hanswer, hfirst⟩
  cases hfound : (p.reachClasses links start).findSome? answer with
  | none =>
    have hnone := List.findSome?_eq_none_iff.1 hfound c
      (mem_reachClasses.2 ⟨here, exists_way_iff.1 ⟨w, way⟩⟩)
    rw [hnone] at hanswer
    cases hanswer
  | some b =>
    -- both are first, and a way leads to one class
    obtain ⟨v, d, way', here', hanswer', hfirst'⟩ := exists_first_way hfound
    have hrank : rank w = rank v :=
      le_antisymm (hfirst v d way' here' (by rw [hanswer']; rfl))
        (hfirst' w c way here (by rw [hanswer]; rfl))
    obtain rfl := rank_injective hrank
    rw [way'.unique way, here] at here'
    obtain rfl := Option.some.inj here'
    rw [← hanswer, ← hanswer']

end Search

end PointsTo.Program
