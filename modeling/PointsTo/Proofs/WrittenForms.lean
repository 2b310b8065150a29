import PointsTo.Proofs.Signatures

/-!
What is written determines what is meant. A place is written as the signature of its method, its
index and its line, so that it can be read off whatever begins with it; and so can an allocation,
since no two statements of a program stand at one place. A variable is told by its method and its
name, and a static field by its class, whatever the type that is written between them.
-/
namespace PointsTo

/-- A number ends where no digit follows. -/
theorem eq_of_digits {m n : Nat} {c : Char} (hc : c.isDigit = false) {x y : List Char}
    (h : (toString m).toList ++ c :: x = (toString n).toList ++ c :: y) : m = n ∧ x = y := by
  have digits : ∀ k : Nat, (toString k).toList = Nat.toDigits 10 k := fun k => Nat.toList_repr
  have hnot : ∀ k : Nat, c ∉ (toString k).toList := by
    intro k hmem
    rw [digits] at hmem
    have hdigit := Nat.isDigit_of_mem_toDigits (by decide) (by decide) hmem
    rw [hc] at hdigit
    cases hdigit
  obtain ⟨hnumber, hrest⟩ := eq_of_append_cons (hnot m) (hnot n) h
  rw [digits, digits] at hnumber
  have hsame := congrArg (Nat.ofDigitChars 10 · 0) hnumber
  simp only [Nat.ofDigitChars_ten_toDigits] at hsame
  exact ⟨hsame, hrest⟩

/-! ### Places and allocations -/

/-- **A place can be read off its text**, whatever stands behind it. -/
theorem Method.Spelled.place_of_append {m n : Method} (hm : m.Spelled) (hn : n.Spelled)
    {i j line line' : Nat} {x y : List Char}
    (h : (Place.within m.id i line).text.toList ++ x =
      (Place.within n.id j line').text.toList ++ y) :
    (m.id = n.id ∧ i = j ∧ line = line') ∧ x = y := by
  have text : ∀ (k : Method) (index line : Nat) (z : List Char),
      (Place.within k.id index line).text.toList ++ z =
        k.signature.toList ++ ('[' :: ((toString index).toList ++ '@' :: 'L' ::
          ((toString line).toList ++ ']' :: z))) := by
    intro k index line z
    simp [Place.text, Method.signature, String.toList_append]
  rw [text, text] at h
  obtain ⟨hid, h⟩ := hm.id_of_append hn h
  obtain ⟨hindex, h⟩ := eq_of_digits (by decide) (List.cons.inj h).2
  obtain ⟨hline, h⟩ := eq_of_digits (by decide) (List.cons.inj h).2
  exact ⟨⟨hid, hindex, hline⟩, h⟩

theorem Program.mem_allocations {p : Program} {a : Allocation} :
    a ∈ p.allocations ↔
      ∃ m ∈ p.methods, ∃ target, (a.place, .allocate target a.type) ∈ m.placed := by
  unfold allocations placed
  rw [List.mem_filterMap]
  constructor
  · rintro ⟨⟨place, i⟩, hmem, heq⟩
    obtain ⟨m, hm, hmem⟩ := List.mem_flatMap.1 hmem
    split at heq
    · next hpair =>
      cases hpair
      cases heq
      exact ⟨m, hm, _, hmem⟩
    · cases heq
  · rintro ⟨m, hm, target, hmem⟩
    exact ⟨_, List.mem_flatMap.2 ⟨m, hm, hmem⟩, rfl⟩

/-- **An allocation can be read off its text**, whatever stands behind it. -/
theorem Jimple.Parsed.allocation_of_append {p : Program} (h : Parsed p) {a b : Allocation}
    (ha : a ∈ p.allocations) (hb : b ∈ p.allocations) {x y : List Char}
    (heq : a.text.toList ++ x = b.text.toList ++ y) : a = b ∧ x = y := by
  obtain ⟨m, hm, target, hmem⟩ := Program.mem_allocations.1 ha
  obtain ⟨n, hn, target', hmem'⟩ := Program.mem_allocations.1 hb
  obtain ⟨i, s, hs, hplace, hi⟩ := Method.mem_placed.1 hmem
  obtain ⟨j, s', hs', hplace', hj⟩ := Method.mem_placed.1 hmem'
  have text : ∀ (c : Allocation) (z : List Char), c.text.toList ++ z =
      "NewObj\x7b".toList ++ (c.place.text.toList ++
        (" new ".toList ++ (c.type.toList ++ '}' :: z))) := by
    intro c z
    simp [Allocation.text, String.toList_append]
  rw [text, text, hplace, hplace'] at heq
  obtain ⟨⟨hid, rfl, -⟩, heq⟩ :=
    (h.spelled hm).place_of_append (h.spelled hn) (List.append_cancel_left heq)
  -- the statement at the place allocates one type of object
  have hsame : m = n := by
    have hfound := h.proper.method?_id hm
    rw [hid, h.proper.method?_id hn] at hfound
    exact (Option.some.inj hfound).symm
  subst hsame
  obtain rfl : s = s' := Option.some.inj (hs.symm.trans hs')
  obtain ⟨rfl, htype⟩ := Instruction.allocate.inj (hi.trans hj.symm)
  have hab : a = b := by
    cases a
    cases b
    simp_all
  subst hab
  exact ⟨rfl, by simpa using heq⟩

/-! ### Variables and static fields -/

/-- A variable of a method is told by its text. -/
theorem Method.Spelled.variable_of_text {m n : Method} (hm : m.Spelled) (hn : n.Spelled)
    {v w : Variable} (hv : v.method = m.signature) (hw : w.method = n.signature)
    (h : v.text = w.text) : v = w := by
  obtain ⟨owner, name⟩ := v
  obtain ⟨owner', name'⟩ := w
  obtain rfl : owner = m.signature := hv
  obtain rfl : owner' = n.signature := hw
  have hlist := congrArg String.toList h
  simp only [Variable.text, String.toList_append, List.append_assoc] at hlist
  obtain ⟨hid, hrest⟩ := hm.id_of_append hn hlist
  have hname : name = name' := String.toList_inj.1 (List.append_cancel_left hrest)
  unfold Method.signature
  rw [hid, hname]

/-- A static field is told by its text, whose type and name are words. -/
theorem FieldName.eq_of_text {f g : FieldName} {type type' : String}
    (hf : Jimple.SpelledField type f.name) (hg : Jimple.SpelledField type' g.name)
    (h : f.text type = g.text type') : f = g := by
  -- read backwards, the name and the type end at the first blanks
  have text : ∀ (k : FieldName) (t : String), (k.text t).toList.reverse =
      '>' :: (k.name.toList.reverse ++ ' ' ::
        (t.toList.reverse ++ ' ' :: (':' :: (k.declaringClass.toList.reverse ++ ['<'])))) := by
    intro k t
    simp [FieldName.text, String.toList_append]
  have hlist := congrArg (fun w => w.toList.reverse) h
  simp only [text] at hlist
  obtain ⟨hname, hlist⟩ := eq_of_append_cons (mt List.mem_reverse.1 hf.name)
    (mt List.mem_reverse.1 hg.name) (List.cons.inj hlist).2
  obtain ⟨-, hlist⟩ := eq_of_append_cons (mt List.mem_reverse.1 hf.type)
    (mt List.mem_reverse.1 hg.type) hlist
  have howner := List.append_cancel_right (List.cons.inj hlist).2
  obtain ⟨owner, name⟩ := f
  obtain ⟨owner', name'⟩ := g
  obtain rfl : owner = owner' := String.toList_inj.1 (List.reverse_inj.1 howner)
  obtain rfl : name = name' := String.toList_inj.1 (List.reverse_inj.1 hname)
  rfl

end PointsTo
