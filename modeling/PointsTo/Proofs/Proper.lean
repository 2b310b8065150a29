import PointsTo.Analysis

/-!
Proper programs: each method stands in the class that it names, no class name has a blank in it, and
a body speaks of variables of its own method only. In such a program the written signature of a
method identifies it, so that a variable tells to which method it belongs.
-/
namespace PointsTo

/-- The body speaks of variables of the method only. -/
structure Method.Owned (m : Method) : Prop where
  statements : ∀ s ∈ m.statements, ∀ v ∈ s.instruction.vars, v.method = m.signature
  bound : ∀ body, m.body = some body → ∀ v ∈ body.bound, v.method = m.signature

theorem Method.mem_placed {m : Method} {place : Place} {i : Instruction} :
    (place, i) ∈ m.placed ↔ ∃ index s, m.statements[index]? = some s ∧
      place = .within m.id index s.line ∧ i = s.instruction := by
  unfold placed
  rw [List.mem_map]
  constructor
  · rintro ⟨⟨s, index⟩, hs, heq⟩
    obtain ⟨rfl, rfl⟩ := Prod.mk.inj heq
    exact ⟨index, s, List.mem_zipIdx_iff_getElem?.1 hs, rfl, rfl⟩
  · rintro ⟨index, s, hs, rfl, rfl⟩
    exact ⟨(s, index), List.mem_zipIdx_iff_getElem?.2 hs, rfl⟩

theorem Method.exists_placed {m : Method} {s : Statement} (hs : s ∈ m.statements) :
    ∃ place, (place, s.instruction) ∈ m.placed := by
  obtain ⟨index, hindex⟩ := List.mem_iff_getElem?.1 hs
  exact ⟨_, mem_placed.2 ⟨index, s, hindex, rfl, rfl⟩⟩

theorem Method.mem_statements_of_placed {m : Method} {place : Place} {i : Instruction}
    (h : (place, i) ∈ m.placed) : ∃ s ∈ m.statements, s.instruction = i := by
  obtain ⟨index, s, hs, -, rfl⟩ := mem_placed.1 h
  exact ⟨s, List.mem_of_getElem? hs, rfl⟩

theorem Method.statements_of_body {m : Method} {b : Body} (hb : m.body = some b) :
    m.statements = b.statements := by
  rw [statements, hb]
  rfl

theorem Method.mem_callSites {m : Method} {site : CallSite} :
    site ∈ m.callSites ↔ (site.place, .call site.call) ∈ m.placed := by
  unfold callSites
  rw [List.mem_filterMap]
  constructor
  · rintro ⟨⟨place, i⟩, hmem, heq⟩
    split at heq
    · next hpair =>
      cases hpair
      cases heq
      exact hmem
    · cases heq
  · exact fun h => ⟨_, h, rfl⟩

/-- What the reader promises of a class. -/
structure Class.Proper (c : Class) : Prop where
  blankless : ' ' ∉ c.name.toList
  declared : ∀ m ∈ c.methods.items, m.declaringClass = c.name
  owned : ∀ m ∈ c.methods.items, m.Owned

/-- All classes are proper. -/
def Program.Proper (p : Program) : Prop := ∀ c ∈ p.classes.items, c.Proper

/-- The class of a written signature ends at its first blank. -/
theorem MethodName.signature_injective {a b : MethodName} (ha : ' ' ∉ a.declaringClass.toList)
    (hb : ' ' ∉ b.declaringClass.toList) (h : a.signature = b.signature) : a = b := by
  -- up to its first blank a written signature has the class and a colon
  have cut : ∀ {m : MethodName}, ' ' ∉ m.declaringClass.toList →
      m.signature.toList.takeWhile (· ≠ ' ') = '<' :: m.declaringClass.toList ++ [':'] := by
    intro m hm
    have hbefore : ∀ c ∈ '<' :: m.declaringClass.toList ++ [':'], decide (c ≠ ' ') = true := by
      intro c hc
      rw [decide_eq_true_iff]
      rintro rfl
      simp_all
    have hsplit : m.signature.toList =
        ('<' :: m.declaringClass.toList ++ [':']) ++ ' ' :: (m.subsignature.toList ++ ['>']) := by
      simp [MethodName.signature, String.toList_append]
    rw [hsplit, List.takeWhile_append_of_pos hbefore]
    simp
  have hcut := cut ha
  rw [h, cut hb] at hcut
  have hclass : a.declaringClass = b.declaringClass := by
    have := List.append_cancel_right (List.cons.inj hcut).2
    exact String.toList_inj.1 this.symm
  obtain ⟨aclass, asub⟩ := a
  obtain ⟨bclass, bsub⟩ := b
  obtain rfl : aclass = bclass := hclass
  have hlist := congrArg String.toList h
  simp only [MethodName.signature, String.toList_append] at hlist
  have hsub : asub.toList = bsub.toList := by
    have := List.append_cancel_right hlist
    exact List.append_cancel_left this
  rw [String.toList_inj.1 hsub]

namespace Program

variable {p : Program}

theorem mem_methods {m : Method} :
    m ∈ p.methods ↔ ∃ c ∈ p.classes.items, m ∈ c.methods.items := List.mem_flatMap

theorem method?_eq_some {name : MethodName} {m : Method} :
    p.method? name = some m ↔ ∃ c, p.class? name.declaringClass = some c ∧
      c.methods.get? name.subsignature = some m := Option.bind_eq_some_iff

theorem mem_methods_of_method? {name : MethodName} {m : Method} (h : p.method? name = some m) :
    m ∈ p.methods := by
  obtain ⟨c, hc, hm⟩ := method?_eq_some.1 h
  exact mem_methods.2 ⟨c, Roster.mem_of_get? hc, Roster.mem_of_get? hm⟩

namespace Proper

variable (hp : p.Proper)

include hp

theorem method?_id {m : Method} (h : m ∈ p.methods) : p.method? m.id = some m := by
  obtain ⟨c, hc, hm⟩ := mem_methods.1 h
  have hclass : p.class? m.id.declaringClass = some c := by
    have hname : m.id.declaringClass = c.name := (hp c hc).declared m hm
    rw [hname]
    exact Roster.get?_key hc
  exact method?_eq_some.2 ⟨c, hclass, Roster.get?_key hm⟩

theorem id_of_method? {name : MethodName} {m : Method} (h : p.method? name = some m) :
    m.id = name := by
  obtain ⟨c, hc, hm⟩ := method?_eq_some.1 h
  have hclass : c.name = name.declaringClass := Roster.key_of_get? hc
  have hdeclared := (hp c (Roster.mem_of_get? hc)).declared m (Roster.mem_of_get? hm)
  have hsub : m.subsignature = name.subsignature := Roster.key_of_get? hm
  unfold Method.id
  rw [hdeclared, hclass, hsub]

theorem owned {m : Method} (h : m ∈ p.methods) : m.Owned := by
  obtain ⟨c, hc, hm⟩ := mem_methods.1 h
  exact (hp c hc).owned m hm

/-- The variables of a statement of a method are its own. -/
theorem owned_of_placed {name : MethodName} {m : Method} (hm : p.method? name = some m)
    {place : Place} {i : Instruction} (hmem : (place, i) ∈ m.placed) {v : Variable}
    (hv : v ∈ i.vars) : v.method = m.signature := by
  obtain ⟨s, hs, rfl⟩ := Method.mem_statements_of_placed hmem
  exact (hp.owned (mem_methods_of_method? hm)).statements s hs v hv

/-- Two methods of one written signature are one method. -/
theorem eq_of_signature {m n : Method} (hm : m ∈ p.methods) (hn : n ∈ p.methods)
    (h : m.signature = n.signature) : m = n := by
  have blankless : ∀ {k}, k ∈ p.methods → ' ' ∉ k.id.declaringClass.toList := by
    intro k hk
    obtain ⟨c, hc, hkc⟩ := mem_methods.1 hk
    have hname : k.id.declaringClass = c.name := (hp c hc).declared k hkc
    rw [hname]
    exact (hp c hc).blankless
  have hid : m.id = n.id := MethodName.signature_injective (blankless hm) (blankless hn) h
  have hfound := hp.method?_id hm
  rw [hid, hp.method?_id hn] at hfound
  exact (Option.some.inj hfound).symm

end Proper

/-! ### Resolved methods -/

theorem mem_ancestryWithin {limit : Nat} {name : String} {c : Class}
    (h : c ∈ (p.ancestryWithin limit name).classes) : c ∈ p.classes.items := by
  induction limit generalizing name with
  | zero => simp [ancestryWithin] at h
  | succ limit ih =>
    unfold ancestryWithin at h
    split at h
    · simp at h
    · next d hd =>
      split at h
      · obtain rfl := List.mem_singleton.1 h
        exact Roster.mem_of_get? hd
      · rcases List.mem_cons.1 h with rfl | h
        · exact Roster.mem_of_get? hd
        · exact ih h

theorem mem_of_reachClasses {links : Class → List String} {start : List String} {c : Class}
    (h : c ∈ p.reachClasses links start) : c ∈ p.classes.items := by
  obtain ⟨name, -, hc⟩ := List.mem_filterMap.1 h
  exact Roster.mem_of_get? hc

/-- What a look-up finds is a method of the program that has the subsignature and passes the
test. -/
theorem of_lookup {name subsignature : String} {test : Method → Bool} {m : Method}
    (h : p.lookup name subsignature test = some m) :
    m ∈ p.methods ∧ m.subsignature = subsignature ∧ test m = true := by
  obtain ⟨c, hc, hm⟩ := List.exists_of_findSome?_eq_some h
  obtain ⟨hm, htest⟩ := Option.filter_eq_some_iff.1 hm
  have hclass : c ∈ p.classes.items := by
    rcases List.mem_append.1 hc with hc | hc
    · exact mem_ancestryWithin hc
    · exact mem_of_reachClasses hc
  exact ⟨mem_methods.2 ⟨c, hclass, Roster.mem_of_get? hm⟩, Roster.key_of_get? hm, htest⟩

/-- A call runs a method of the program. -/
theorem mem_methods_of_found {type : Option String} {call : Call} {m : Method}
    (h : p.resolveCall type call = .found m) : m ∈ p.methods := by
  unfold resolveCall at h
  split at h
  · split at h
    · next hm =>
      cases h
      exact (of_lookup hm).1
    · cases h
  · split at h
    · cases h
    · dsimp only at h
      split at h
      · next hm =>
        cases h
        exact (of_lookup hm).1
      · split at h <;> cases h

/-- A call runs a method of the subsignature that it names. -/
theorem subsignature_of_found {type : Option String} {call : Call} {m : Method}
    (h : p.resolveCall type call = .found m) : m.subsignature = call.callee.subsignature := by
  unfold resolveCall at h
  split at h
  · split at h
    · next hm =>
      cases h
      exact (of_lookup hm).2.1
    · cases h
  · split at h
    · cases h
    · dsimp only at h
      split at h
      · next hm =>
        cases h
        exact (of_lookup hm).2.1
      · split at h <;> cases h

theorem Proper.method?_of_found (hp : p.Proper) {type : Option String} {call : Call} {m : Method}
    (h : p.resolveCall type call = .found m) : p.method? m.id = some m :=
  hp.method?_id (mem_methods_of_found h)

end Program

end PointsTo
