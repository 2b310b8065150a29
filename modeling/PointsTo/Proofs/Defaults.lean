import PointsTo.Proofs.Origins
import PointsTo.Proofs.Ways

/-!
Default methods. Where no class of a superclass chain has a method to run, a receiver runs that of
the interface which is named first: by the shortest way through the interface lists, and of equally
short ways by the one whose places come first. That need not be a most specific interface, since an
interface may be named before another one that extends it.
-/
namespace PointsTo

/-- The method of a subsignature that a receiver can run in the class. -/
def Class.concrete? (c : Class) (subsignature : String) : Option Method :=
  (c.methods.get? subsignature).filter fun m => !m.isAbstract

namespace Program

open Relation (TransGen)

/-- A way through the interface lists of a superclass chain leads to a class which has a method to
run. -/
structure Default (p : Program) (a : Ancestry) (subsignature : String) (w : List Nat) (c : Class)
    (m : Method) : Prop where
  way : p.Way Class.interfaces (a.classes.flatMap Class.interfaces) w c.name
  here : p.class? c.name = some c
  runs : c.concrete? subsignature = some m

/-- No way to such a class comes before this one. -/
def FirstDefault (p : Program) (a : Ancestry) (subsignature : String) (w : List Nat) (c : Class)
    (m : Method) : Prop :=
  p.Default a subsignature w c m ∧ ∀ v d n, p.Default a subsignature v d n → rank w ≤ rank v

/-- A method to run stands in another interface that extends this one, perhaps through further
interfaces. -/
def Overridden (p : Program) (a : Ancestry) (subsignature : String) (c : Class) : Prop :=
  ∃ v d n, p.Default a subsignature v d n ∧ d.name ≠ c.name ∧
    TransGen (p.Links Class.interfaces) d.name c.name

section Dispatch

variable {p : Program} {name subsignature : String} {a : Ancestry} {c : Class} {m : Method}
  {w : List Nat}

theorem concrete?_eq_some : c.concrete? subsignature = some m ↔
    c.methods.get? subsignature = some m ∧ m.isAbstract = false := by
  unfold Class.concrete?
  rw [Option.filter_eq_some_iff, Bool.not_eq_true']

/-- A receiver looks on the superclass chain, and then in the interfaces. -/
theorem dispatch_eq (p : Program) (name subsignature : String) :
    p.dispatch name subsignature =
      ((p.ancestry name).classes.findSome? fun c => c.concrete? subsignature).or
        ((p.interfacesOf name).findSome? fun c => c.concrete? subsignature) :=
  List.findSome?_append

theorem ancestry_eq (chains : p.FiniteChains) (climb : p.Climbs name a) : p.ancestry name = a := by
  have hle := climb.length_le chains
  exact climb.ancestryWithin_eq (Nat.lt_succ_of_le hle)

/-- The first name of a list is reached by the first way of all. -/
theorem Way.zero_le {links : Class → List String} {start : List String}
    (way : p.Way links start w name) : rank [0] ≤ rank w := by
  cases w with
  | nil => exact absurd way not_way_nil
  | cons i w =>
    rcases Nat.eq_zero_or_pos (w.length + i) with hzero | hpos
    · have hnil : w = [] := List.length_eq_zero_iff.1 (by omega)
      have hi : i = 0 := by omega
      rw [hnil, hi]
    · apply le_of_lt
      rw [rank_lt_iff, List.cons_lt_cons_iff]
      simp only [List.length_cons, List.length_nil]
      omega

/-- **Where no class has a method to run, the first default is run.** It is in a most specific
interface if and only if, whenever a default is overridden, some default is named before it; so it
is if no interface is named before one that extends it. -/
theorem dispatch_default (chains : p.FiniteChains) (climb : p.Climbs name a)
    (inherited : ∀ c ∈ a.classes, c.concrete? subsignature = none) :
    (∀ m, p.dispatch name subsignature = some m ↔
      ∃ w c, p.FirstDefault a subsignature w c m) ∧
    ((∀ w c m, p.FirstDefault a subsignature w c m → ¬ p.Overridden a subsignature c) ↔
      ∀ w c m, p.Default a subsignature w c m → p.Overridden a subsignature c →
        ∃ v d n, p.Default a subsignature v d n ∧ rank v < rank w) := by
  refine ⟨fun m => ?_, ?_⟩
  · have hchain : (a.classes.findSome? fun c => c.concrete? subsignature) = none :=
      List.findSome?_eq_none_iff.2 inherited
    have hinterfaces : p.interfacesOf name =
        p.reachClasses Class.interfaces (a.classes.flatMap Class.interfaces) := by
      unfold interfacesOf
      rw [ancestry_eq chains climb]
    rw [dispatch_eq, ancestry_eq chains climb, hchain, Option.none_or, hinterfaces,
      findSome?_reachClasses]
    constructor
    · rintro ⟨w, c, way, here, runs, hfirst⟩
      refine ⟨w, c, ⟨way, here, runs⟩, fun v d n h => ?_⟩
      exact hfirst v d h.way h.here (Option.isSome_iff_exists.2 ⟨n, h.runs⟩)
    · rintro ⟨w, c, h, hfirst⟩
      refine ⟨w, c, h.way, h.here, h.runs, fun v d way here hsome => ?_⟩
      obtain ⟨n, runs⟩ := Option.isSome_iff_exists.1 hsome
      exact hfirst v d n ⟨way, here, runs⟩
  · constructor
    · intro specific w c m h hover
      by_contra hnone
      refine specific w c m ⟨h, fun v d n h' => ?_⟩ hover
      exact le_of_not_gt fun hless => hnone ⟨v, d, n, h', hless⟩
    · intro earlier w c m h hover
      obtain ⟨v, d, n, h', hless⟩ := earlier w c m h.1 hover
      exact absurd (h.2 v d n h') (not_le_of_gt hless)

end Dispatch

/-- A class lists an interface before another one that extends it. -/
def rivalText : String :=
  "interface J\n\x7b\nvoid m()\n\x7b\nreturn;\n\x7d\n\x7d\n" ++
  "interface I extends J\n\x7b\nvoid m()\n\x7b\nreturn;\n\x7d\n\x7d\n" ++
  "class C implements J, I\n\x7b\n\x7d\n"

def rival : Program := Jimple.programOf rivalText

theorem rival_lists :
    (∀ c ∈ rival.classes.items, ∀ above ∈ c.superclass,
      above = objectClass ∧ c.name ≠ objectClass) ∧
    (rival.ancestry "C").classes.flatMap Class.interfaces = ["J", "I"] ∧
    (∀ c ∈ (rival.ancestry "C").classes, c.concrete? "void m()" = none) ∧
    (rival.class? "J").any (fun c => (c.concrete? "void m()").isSome) = true ∧
    (rival.class? "I").any (fun c => (c.concrete? "void m()").isSome &&
      c.interfaces.contains "J") = true := by
  decide +kernel

/-- The class runs the method of the interface that it lists first, though the other one overrides
it. -/
theorem dispatch_default_rival : rival.FiniteChains ∧ ∃ a, rival.Climbs "C" a ∧
    (∀ c ∈ a.classes, c.concrete? "void m()" = none) ∧
    (∀ m, rival.dispatch "C" "void m()" = some m ↔
      ∃ w c, rival.FirstDefault a "void m()" w c m) ∧
    ((∀ w c m, rival.FirstDefault a "void m()" w c m → ¬ rival.Overridden a "void m()" c) ↔
      ∀ w c m, rival.Default a "void m()" w c m → rival.Overridden a "void m()" c →
        ∃ v d n, rival.Default a "void m()" v d n ∧ rank v < rank w) ∧
    ∃ w c m, rival.FirstDefault a "void m()" w c m ∧ c.name = "J" ∧
      rival.dispatch "C" "void m()" = some m ∧ rival.Overridden a "void m()" c := by
  obtain ⟨hflat, hlists, inherited, hj, hi⟩ := rival_lists
  have chains := finiteChains_of_flat hflat
  have climb := climbs_ancestry chains "C"
  obtain ⟨hdispatch, hspecific⟩ := dispatch_default chains climb inherited
  refine ⟨chains, _, climb, inherited, hdispatch, hspecific, ?_⟩
  obtain ⟨j, hereJ, hsomeJ⟩ := (Option.any_eq_true _ _).1 hj
  obtain ⟨i, hereI, hrest⟩ := (Option.any_eq_true _ _).1 hi
  obtain ⟨hsomeI, hextends⟩ := Bool.and_eq_true_iff.1 hrest
  obtain ⟨m, runsJ⟩ := Option.isSome_iff_exists.1 hsomeJ
  obtain ⟨n, runsI⟩ := Option.isSome_iff_exists.1 hsomeI
  have nameJ : j.name = "J" := Roster.key_of_get? hereJ
  have nameI : i.name = "I" := Roster.key_of_get? hereI
  have defaultJ : rival.Default (rival.ancestry "C") "void m()" [0] j m := by
    refine ⟨.first ?_, by rw [nameJ]; exact hereJ, runsJ⟩
    rw [hlists, nameJ]
    rfl
  have defaultI : rival.Default (rival.ancestry "C") "void m()" [1] i n := by
    refine ⟨.first ?_, by rw [nameI]; exact hereI, runsI⟩
    rw [hlists, nameI]
    rfl
  have first : rival.FirstDefault (rival.ancestry "C") "void m()" [0] j m :=
    ⟨defaultJ, fun v d k h => h.way.zero_le⟩
  have below : TransGen (rival.Links Class.interfaces) i.name j.name := by
    apply TransGen.single
    exact ⟨i, defaultI.here, by rw [nameJ]; exact List.contains_iff_mem.1 hextends⟩
  have apart : i.name ≠ j.name := by
    rw [nameI, nameJ]
    decide
  have runs : rival.dispatch "C" "void m()" = some m := (hdispatch m).2 ⟨[0], j, first⟩
  exact ⟨[0], j, m, first, nameJ, runs, [1], i, n, defaultI, apart, below⟩

end Program

end PointsTo
