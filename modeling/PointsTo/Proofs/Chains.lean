import Mathlib.Data.List.Perm.Subperm
import Mathlib.Logic.Relation
import Mathlib.Order.WellFounded
import PointsTo.Hierarchy.Lookup

/-!
The walks over classes as they are meant, without a bound. `Climbs` follows superclass links until
there is none to follow, and `Scans` goes on until no name is pending. Where every superclass chain
is finite no class comes twice on it, so that the bound of `ancestry` never cuts a climb short.
-/
namespace PointsTo.Program

variable {p : Program}

/-- The first name is that of the superclass of the class of the second. -/
def Above (p : Program) (above below : String) : Prop :=
  ∃ c, p.class? below = some c ∧ c.superclass = some above

/-- Every superclass chain is finite. -/
def FiniteChains (p : Program) : Prop := WellFounded p.Above

/-- Follows superclass links from a name on. -/
inductive Climbs (p : Program) : String → Ancestry → Prop
  | outside {name} (absent : p.class? name = none) : Climbs p name ⟨[], some name⟩
  | top {name c} (here : p.class? name = some c) (isTop : c.superclass = none) :
      Climbs p name ⟨[c], none⟩
  | up {name c above a} (here : p.class? name = some c) (link : c.superclass = some above)
      (climb : Climbs p above a) : Climbs p name ⟨c :: a.classes, a.beyond⟩

/-- Collects names, first those that are pending. -/
inductive Scans (p : Program) (links : Class → List String) :
    List String → List String → List String → Prop
  | done {seen} : Scans p links [] seen seen
  | skip {name rest seen r} (old : name ∈ seen) (more : Scans p links rest seen r) :
      Scans p links (name :: rest) seen r
  | outside {name rest seen r} (new : name ∉ seen) (absent : p.class? name = none)
      (more : Scans p links rest (seen ++ [name]) r) : Scans p links (name :: rest) seen r
  | inside {name rest seen r c} (new : name ∉ seen) (here : p.class? name = some c)
      (more : Scans p links (rest ++ links c) (seen ++ [name]) r) :
      Scans p links (name :: rest) seen r

theorem scans_reachFrom (links : Class → List String) (pending seen : List String) :
    p.Scans links pending seen (p.reachFrom links pending seen) := by
  induction pending, seen using reachFrom.induct p links with
  | case1 seen =>
    rw [reachFrom]
    exact .done
  | case2 seen name rest old ih =>
    rw [reachFrom, dif_pos old]
    exact .skip old ih
  | case3 seen name rest new absent ih =>
    rw [reachFrom, dif_neg new]
    split
    · exact .outside new absent ih
    · next c here => rw [absent] at here; cases here
  | case4 seen name rest new c here ih =>
    rw [reachFrom, dif_neg new]
    split
    · next absent => rw [here] at absent; cases absent
    · next c' here' =>
      rw [here] at here'
      cases here'
      exact .inside new here ih

/-- From every name on there is a climb to the end. -/
theorem FiniteChains.exists_climb (h : p.FiniteChains) (name : String) : ∃ a, p.Climbs name a := by
  induction name using h.induction with
  | _ name ih =>
    cases here : p.class? name with
    | none => exact ⟨_, .outside here⟩
    | some c =>
      cases link : c.superclass with
      | none => exact ⟨_, .top here link⟩
      | some above =>
        obtain ⟨a, climb⟩ := ih above ⟨c, here, link⟩
        exact ⟨_, .up here link climb⟩

/-- The classes of a climb are the one it begins with and ones above it. -/
theorem Climbs.above {name : String} {a : Ancestry} (h : p.Climbs name a) {c : Class}
    (hc : c ∈ a.classes) :
    c ∈ p.classes.items ∧ Relation.ReflTransGen p.Above c.name name := by
  induction h with
  | outside => cases hc
  | top here =>
    obtain rfl := List.mem_singleton.1 hc
    have hname := Roster.key_of_get? here
    exact ⟨Roster.mem_of_get? here, hname ▸ .refl⟩
  | @up name d above a here link _ ih =>
    rcases List.mem_cons.1 hc with rfl | hc
    · have hname := Roster.key_of_get? here
      exact ⟨Roster.mem_of_get? here, hname ▸ .refl⟩
    · obtain ⟨hmem, hup⟩ := ih hc
      exact ⟨hmem, hup.tail ⟨d, here, link⟩⟩

/-- What is above a class is the class itself or above its superclass. -/
theorem above_iff {n name : String} {c : Class} (here : p.class? name = some c) :
    Relation.ReflTransGen p.Above n name ↔
      n = name ∨ ∃ above, c.superclass = some above ∧ Relation.ReflTransGen p.Above n above := by
  constructor
  · intro hup
    rcases hup.cases_tail with rfl | ⟨above, hup, d, here', link⟩
    · exact .inl rfl
    · rw [here] at here'
      obtain rfl := Option.some.inj here'
      exact .inr ⟨above, link, hup⟩
  · rintro (rfl | ⟨above, link, hup⟩)
    · exact .refl
    · exact hup.tail ⟨c, here, link⟩

theorem eq_of_above {n name : String} (absent : p.class? name = none)
    (hup : Relation.ReflTransGen p.Above n name) : n = name := by
  rcases hup.cases_tail with rfl | ⟨_, -, d, here, -⟩
  · rfl
  · rw [absent] at here
    cases here

/-- A climb meets all classes above the one it begins with. -/
theorem Climbs.mem_classes {name : String} {a : Ancestry} (h : p.Climbs name a) {c : Class} :
    c ∈ a.classes ↔ p.class? c.name = some c ∧ Relation.ReflTransGen p.Above c.name name := by
  refine ⟨fun hc => ?_, ?_⟩
  · obtain ⟨hmem, hup⟩ := h.above hc
    exact ⟨Roster.get?_key hmem, hup⟩
  rintro ⟨hclass, hup⟩
  induction h with
  | outside absent =>
    rw [eq_of_above absent hup, absent] at hclass
    cases hclass
  | top here isTop =>
    rcases (above_iff here).1 hup with hsame | ⟨above, link, -⟩
    · rw [hsame, here] at hclass
      exact Option.some.inj hclass ▸ List.mem_cons_self
    · rw [isTop] at link
      cases link
  | @up name d above a here link _ ih =>
    rcases (above_iff here).1 hup with hsame | ⟨above', link', hup⟩
    · rw [hsame, here] at hclass
      exact Option.some.inj hclass ▸ List.mem_cons_self
    · rw [link] at link'
      exact List.mem_cons_of_mem d (ih (Option.some.inj link' ▸ hup))

/-- A climb leaves the program if a name above the one it begins with is not in the program. -/
theorem Climbs.isSome_beyond {name : String} {a : Ancestry} (h : p.Climbs name a) :
    a.beyond.isSome = true ↔
      ∃ n, p.class? n = none ∧ Relation.ReflTransGen p.Above n name := by
  induction h with
  | @outside name absent => exact ⟨fun _ => ⟨name, absent, .refl⟩, fun _ => rfl⟩
  | top here isTop =>
    constructor
    · intro hsome
      cases hsome
    · rintro ⟨n, absent, hup⟩
      rcases (above_iff here).1 hup with rfl | ⟨above, link, -⟩
      · rw [absent] at here
        cases here
      · rw [isTop] at link
        cases link
  | @up name d above a here link _ ih =>
    rw [ih]
    constructor
    · rintro ⟨n, absent, hup⟩
      exact ⟨n, absent, (above_iff here).2 (.inr ⟨above, link, hup⟩)⟩
    · rintro ⟨n, absent, hup⟩
      rcases (above_iff here).1 hup with rfl | ⟨above', link', hup⟩
      · rw [absent] at here
        cases here
      · rw [link] at link'
        exact ⟨n, absent, Option.some.inj link' ▸ hup⟩

/-- No class comes twice on a climb. -/
theorem Climbs.nodup (hp : p.FiniteChains) {name : String} {a : Ancestry}
    (h : p.Climbs name a) : (a.classes.map Class.name).Nodup := by
  induction h with
  | outside => exact List.nodup_nil
  | top => simp
  | @up name c above a here link climb ih =>
    refine List.nodup_cons.2 ⟨fun hmem => ?_, ih⟩
    obtain ⟨d, hd, hsame⟩ := List.mem_map.1 hmem
    have hname : c.name = name := Roster.key_of_get? here
    -- a class that came again would lie above itself
    have hcycle : Relation.TransGen p.Above name name := by
      have hup := (climb.above hd).2
      rw [hsame, hname] at hup
      exact Relation.TransGen.tail' hup ⟨c, here, link⟩
    have hwf : WellFounded (Relation.TransGen p.Above) := hp.transGen
    exact hwf.asymmetric name name hcycle hcycle

theorem Climbs.length_le (hp : p.FiniteChains) {name : String} {a : Ancestry}
    (h : p.Climbs name a) : a.classes.length ≤ p.classes.size := by
  have hsub : a.classes.map Class.name ⊆ p.classes.keys := by
    intro n hn
    obtain ⟨c, hc, rfl⟩ := List.mem_map.1 hn
    exact List.mem_map_of_mem (h.above hc).1
  have hle := ((h.nodup hp).subperm hsub).length_le
  unfold Roster.keys at hle
  rwa [List.length_map, List.length_map] at hle

/-- The bounded walk is the climb if the bound is above its length. -/
theorem Climbs.ancestryWithin_eq {name : String} {a : Ancestry} (h : p.Climbs name a)
    {limit : Nat} (hlimit : a.classes.length < limit) : p.ancestryWithin limit name = a := by
  induction h generalizing limit with
  | outside absent =>
    obtain ⟨limit, rfl⟩ := Nat.exists_eq_succ_of_ne_zero (Nat.ne_of_gt (Nat.zero_lt_of_lt hlimit))
    simp [ancestryWithin, absent]
  | top here isTop =>
    obtain ⟨limit, rfl⟩ := Nat.exists_eq_succ_of_ne_zero (Nat.ne_of_gt (Nat.zero_lt_of_lt hlimit))
    simp [ancestryWithin, here, isTop]
  | up here link climb ih =>
    obtain ⟨limit, rfl⟩ := Nat.exists_eq_succ_of_ne_zero (Nat.ne_of_gt (Nat.zero_lt_of_lt hlimit))
    have hless : _ < limit := Nat.lt_of_succ_lt_succ (by rwa [List.length_cons] at hlimit)
    have habove := ih hless
    simp [ancestryWithin, here, link, habove]

/-- **A climb is never cut short.** -/
theorem climbs_ancestry (hp : p.FiniteChains) (name : String) :
    p.Climbs name (p.ancestry name) := by
  obtain ⟨a, climb⟩ := hp.exists_climb name
  have hle := climb.length_le hp
  have heq : p.ancestry name = a := climb.ancestryWithin_eq (by omega)
  rw [heq]
  exact climb

/-- Chains are finite if some rank falls along every superclass link. -/
theorem finiteChains_of_rank (rank : String → Nat)
    (h : ∀ c ∈ p.classes.items, ∀ above, c.superclass = some above → rank above < rank c.name) :
    p.FiniteChains := by
  refine Subrelation.wf (r := InvImage (· < ·) rank) ?_ (InvImage.wf rank Nat.lt_wfRel.wf)
  rintro above below ⟨c, here, link⟩
  have hrank := h c (Roster.mem_of_get? here) above link
  rwa [Roster.key_of_get? here] at hrank

/-- Chains are finite if `java.lang.Object` is the only superclass and has none itself. -/
theorem finiteChains_of_flat (h : ∀ c ∈ p.classes.items, ∀ above ∈ c.superclass,
    above = objectClass ∧ c.name ≠ objectClass) : p.FiniteChains := by
  apply finiteChains_of_rank fun n => if n = objectClass then 0 else 1
  intro c hc above hlink
  obtain ⟨habove, hname⟩ := h c hc above hlink
  rw [if_pos habove, if_neg hname]
  exact Nat.one_pos

end PointsTo.Program
