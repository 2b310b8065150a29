import PointsTo.Proofs.CallTargets
import PointsTo.Proofs.Defaults
import PointsTo.Proofs.Reading

/-!
The targets of a call by the class hierarchy. They are searched for downwards, by the subtypes of
each class: for an interface what lists it, for any other class what extends it. Where nothing
extends an interface and nothing lists a class, these are the links to supertypes turned around, so
that the search comes to all classes of the program from which the class of the reference is reached
upwards.
-/
namespace PointsTo.Program

open Relation (ReflTransGen)

/-- No superclass is an interface, and what is listed as an interface is one. -/
structure KindsApart (p : Program) : Prop where
  superclasses : ∀ c ∈ p.classes.items, ∀ above ∈ c.superclass, ∀ d ∈ p.class? above,
    d.isInterface = false
  interfaces : ∀ c ∈ p.classes.items, ∀ i ∈ c.interfaces, ∀ d ∈ p.class? i, d.isInterface = true

/-- A call of the subsignature runs the method on objects of a class from which supertypes lead to
the named class. -/
def RunsBelow (p : Program) (name subsignature : String) (m : Method) : Prop :=
  ∃ c ∈ p.classes.items, c.isAbstract = false ∧
    ReflTransGen (p.Links Class.supertypes) c.name name ∧ p.dispatch c.name subsignature = some m

section Descent

variable {p : Program} {name further : String} {c : Class}

theorem mem_listing {interfaces : Bool} :
    c ∈ p.listing name interfaces ↔
      c ∈ p.classes.items ∧ c.isInterface = interfaces ∧ name ∈ c.interfaces := by
  unfold listing
  rw [List.mem_flatMap]
  constructor
  · rintro ⟨d, hd, hc⟩
    split at hc
    · next hkind =>
      obtain ⟨i, hi, rfl⟩ := List.mem_map.1 hc
      obtain ⟨hlisted, hname⟩ := List.mem_filter.1 hi
      obtain rfl := of_decide_eq_true hname
      exact ⟨hd, hkind, hlisted⟩
    · cases hc
  · rintro ⟨hc, hkind, hlisted⟩
    refine ⟨c, hc, ?_⟩
    rw [if_pos hkind]
    exact List.mem_map.2 ⟨name, List.mem_filter.2 ⟨hlisted, decide_eq_true rfl⟩, rfl⟩

theorem mem_subtypes_of_interface (hc : c.isInterface = true) :
    name ∈ p.subtypes c ↔ ∃ d ∈ p.classes.items, d.name = name ∧ c.name ∈ d.interfaces := by
  unfold subtypes subinterfaces implementors
  rw [if_pos hc]
  simp only [List.mem_map, List.mem_append, mem_listing]
  constructor
  · rintro ⟨d, ⟨hd, -, hlisted⟩ | ⟨hd, -, hlisted⟩, hname⟩
    · exact ⟨d, hd, hname, hlisted⟩
    · exact ⟨d, hd, hname, hlisted⟩
  · rintro ⟨d, hd, hname, hlisted⟩
    cases hkind : d.isInterface with
    | true => exact ⟨d, .inl ⟨hd, hkind, hlisted⟩, hname⟩
    | false => exact ⟨d, .inr ⟨hd, hkind, hlisted⟩, hname⟩

theorem mem_subtypes_of_class (hc : c.isInterface = false) :
    name ∈ p.subtypes c ↔ ∃ d ∈ p.classes.items, d.name = name ∧ d.superclass = some c.name := by
  unfold subtypes subclasses
  rw [if_neg (Bool.eq_false_iff.1 hc)]
  simp only [List.mem_map, List.mem_filter, decide_eq_true_eq]
  constructor
  · rintro ⟨d, ⟨hd, hextends⟩, hname⟩
    exact ⟨d, hd, hname, hextends⟩
  · rintro ⟨d, hd, hname, hextends⟩
    exact ⟨d, ⟨hd, hextends⟩, hname⟩

/-- Where the kinds are apart, subtypes are the classes of which one is a supertype. -/
theorem KindsApart.mem_subtypes (apart : p.KindsApart) (here : p.class? c.name = some c) :
    name ∈ p.subtypes c ↔ ∃ d ∈ p.classes.items, d.name = name ∧ c.name ∈ d.supertypes := by
  unfold Class.supertypes
  simp only [List.mem_append, Option.mem_toList]
  cases hkind : c.isInterface with
  | true =>
    rw [mem_subtypes_of_interface hkind]
    constructor
    · rintro ⟨d, hd, hname, hlisted⟩
      exact ⟨d, hd, hname, .inr hlisted⟩
    · rintro ⟨d, hd, hname, hextends | hlisted⟩
      · -- nothing extends an interface
        have hclass := apart.superclasses d hd c.name hextends c here
        rw [hkind] at hclass
        cases hclass
      · exact ⟨d, hd, hname, hlisted⟩
  | false =>
    rw [mem_subtypes_of_class hkind]
    constructor
    · rintro ⟨d, hd, hname, hextends⟩
      exact ⟨d, hd, hname, .inl hextends⟩
    · rintro ⟨d, hd, hname, hextends | hlisted⟩
      · exact ⟨d, hd, hname, hextends⟩
      · -- no class is listed as an interface
        have hinterface := apart.interfaces d hd c.name hlisted c here
        rw [hkind] at hinterface
        cases hinterface

/-- A step of the search is a link to a supertype turned around. -/
theorem KindsApart.links_subtypes (apart : p.KindsApart) :
    p.Links p.subtypes name further ↔
      (p.class? name).isSome ∧ p.Links Class.supertypes further name := by
  constructor
  · rintro ⟨c, here, hlisted⟩
    obtain rfl : c.name = name := Roster.key_of_get? here
    obtain ⟨d, hd, rfl, hsuper⟩ := (apart.mem_subtypes here).1 hlisted
    exact ⟨Option.isSome_iff_exists.2 ⟨c, here⟩, d, Roster.get?_key hd, hsuper⟩
  · rintro ⟨hsome, d, below, hsuper⟩
    obtain ⟨c, here⟩ := Option.isSome_iff_exists.1 hsome
    obtain rfl : c.name = name := Roster.key_of_get? here
    have hname : d.name = further := Roster.key_of_get? below
    exact ⟨c, here, (apart.mem_subtypes here).2 ⟨d, Roster.mem_of_get? below, hname, hsuper⟩⟩

/-- **The search goes down to the names from which supertypes lead up to the first.** -/
theorem KindsApart.descends_iff (apart : p.KindsApart) (known : (p.class? name).isSome) :
    ReflTransGen (p.Links p.subtypes) name further ↔
      ReflTransGen (p.Links Class.supertypes) further name := by
  constructor
  · intro down
    induction down with
    | refl => exact .refl
    | tail _ last ih => exact .head (apart.links_subtypes.1 last).2 ih
  · intro up
    induction up using ReflTransGen.head_induction_on with
    | refl => exact .refl
    | @head below above link rest ih =>
      -- every name on the way up is that of a class: the last by assumption, any other by its link
      have habove : (p.class? above).isSome := by
        rcases rest.cases_head with rfl | ⟨_, ⟨c, here, -⟩, -⟩
        · exact known
        · exact Option.isSome_iff_exists.2 ⟨c, here⟩
      exact ih.tail (apart.links_subtypes.2 ⟨habove, link⟩)

end Descent

section Targets

variable {p : Program} {call : Call} {m : Method}

theorem KindsApart.runsBelow_iff (apart : p.KindsApart)
    (known : (p.class? call.callee.declaringClass).isSome) :
    p.RunsBelow call.callee.declaringClass call.callee.subsignature m ↔
      ∃ c ∈ p.reachClasses p.subtypes [call.callee.declaringClass], c.isAbstract = false ∧
        p.dispatch c.name call.callee.subsignature = some m := by
  unfold RunsBelow
  constructor
  · rintro ⟨c, hc, hconcrete, up, hdispatch⟩
    refine ⟨c, mem_reachClasses.2 ⟨Roster.get?_key hc, _, List.mem_singleton.2 rfl, ?_⟩,
      hconcrete, hdispatch⟩
    exact (apart.descends_iff known).2 up
  · rintro ⟨c, hc, hconcrete, hdispatch⟩
    obtain ⟨here, first, hfirst, down⟩ := mem_reachClasses.1 hc
    obtain rfl := List.mem_singleton.1 hfirst
    exact ⟨c, Roster.mem_of_get? here, hconcrete, (apart.descends_iff known).1 down, hdispatch⟩

/-- **A call is offered, each once, the methods that the concrete classes run from which supertypes
lead to the class of its reference.** Methods are told apart by their names, under which a program
that was read has one method each. -/
theorem hierarchyTargets_exact (apart : p.KindsApart) (kind : ¬ call.kind.isLinked = true)
    (known : (p.class? call.callee.declaringClass).isSome) :
    ((p.hierarchyTargets call).map Method.id).Nodup ∧
    (∀ m ∈ p.hierarchyTargets call,
      p.RunsBelow call.callee.declaringClass call.callee.subsignature m) ∧
    (∀ m, p.RunsBelow call.callee.declaringClass call.callee.subsignature m →
      m.id ∈ (p.hierarchyTargets call).map Method.id) ∧
    (p.Proper → ∀ m, m ∈ p.hierarchyTargets call ↔
      p.RunsBelow call.callee.declaringClass call.callee.subsignature m) := by
  refine ⟨(p.hierarchyTargets_methods call).2, fun m hm => ?_, fun m hruns => ?_, fun hp m => ?_⟩
  · exact (apart.runsBelow_iff known).2 (receiver_of_mem_hierarchyTargets kind hm)
  · obtain ⟨c, hc, hconcrete, hdispatch⟩ := (apart.runsBelow_iff known).1 hruns
    exact id_mem_hierarchyTargets kind hc hconcrete hdispatch
  · rw [apart.runsBelow_iff known]
    exact hp.mem_hierarchyTargets kind

end Targets

/-- Interfaces that extend each other, an abstract class that implements one of them twice over, and
two classes below it. -/
def ringText : String :=
  "interface I extends J\n\x7b\nabstract void m();\n\x7d\n" ++
  "interface J extends I\n\x7b\n\x7d\n" ++
  "abstract class A implements I, J\n\x7b\nvoid m()\n\x7b\nreturn;\n\x7d\n\x7d\n" ++
  "class B extends A\n\x7b\n\x7d\n" ++
  "class C extends A implements J\n\x7b\nvoid m()\n\x7b\nreturn;\n\x7d\n\x7d\n"

def ring : Program := Jimple.programOf ringText

def ringCall : Call := ⟨.interface, ⟨"I", "m", [], "void"⟩, none, [], none⟩

theorem ring_links :
    (∀ c ∈ ring.classes.items, ∀ above ∈ c.superclass, ∀ d ∈ ring.class? above,
      d.isInterface = false) ∧
    (∀ c ∈ ring.classes.items, ∀ i ∈ c.interfaces, ∀ d ∈ ring.class? i, d.isInterface = true) ∧
    (ring.class? "I").isSome = true ∧
    ((ring.class? "B").any fun c => !c.isAbstract && c.supertypes.contains "A") = true ∧
    ((ring.class? "A").any fun c => c.supertypes.contains "I") = true ∧
    (((ring.ancestry "B").classes.findSome? fun c => c.concrete? "void m()").any fun m =>
      m.declaringClass = "A") = true := by
  decide +kernel

/-- The method of the abstract class is offered, since a class below it runs that method. -/
theorem hierarchyTargets_exact_ring : ring.KindsApart ∧ ¬ ringCall.kind.isLinked = true ∧
    (ring.class? "I").isSome ∧ ((ring.hierarchyTargets ringCall).map Method.id).Nodup ∧
    (∀ m, m ∈ ring.hierarchyTargets ringCall ↔ ring.RunsBelow "I" "void m()" m) ∧
    ∃ m ∈ ring.hierarchyTargets ringCall, m.declaringClass = "A" := by
  obtain ⟨hsuper, hlisted, known, hb, ha, hruns⟩ := ring_links
  have apart : ring.KindsApart := ⟨hsuper, hlisted⟩
  have kind : ¬ ringCall.kind.isLinked = true := by decide
  obtain ⟨hnodup, -, -, hexact⟩ := hierarchyTargets_exact apart kind known
  have hmem := hexact (Jimple.Parsed.programOf ringText).proper
  obtain ⟨b, hereB, hrest⟩ := (Option.any_eq_true _ _).1 hb
  obtain ⟨hconcrete, hextends⟩ := Bool.and_eq_true_iff.1 hrest
  obtain ⟨a, hereA, himplements⟩ := (Option.any_eq_true _ _).1 ha
  obtain ⟨m, hfound, hclass⟩ := (Option.any_eq_true _ _).1 hruns
  have hname : b.name = "B" := Roster.key_of_get? hereB
  have up : ReflTransGen (ring.Links Class.supertypes) b.name "I" := by
    apply ReflTransGen.head ⟨b, hname ▸ hereB, List.contains_iff_mem.1 hextends⟩
    exact .single ⟨a, hereA, List.contains_iff_mem.1 himplements⟩
  have hdispatch : ring.dispatch b.name "void m()" = some m := by
    rw [dispatch_eq, hname, hfound]
    rfl
  refine ⟨apart, kind, known, hnodup, hmem, m, (hmem m).2 ?_, of_decide_eq_true hclass⟩
  exact ⟨b, Roster.mem_of_get? hereB, by simpa using hconcrete, up, hdispatch⟩

end PointsTo.Program
