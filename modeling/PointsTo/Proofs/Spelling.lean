import PointsTo.Proofs.Written

/-!
What the names, numbers and constants of a statement look like: which characters they have, that they
are trimmed, and how the reader takes a name off a text, tells a variable from a constant and knows
an argument by its text.
-/
namespace PointsTo.Jimple

open PointsTo.Text

/-! ### Names -/

theorem isNameChar_of_isNameStart {c : Char} (h : isNameStart c = true) : isNameChar c = true := by
  simp only [isNameStart, Bool.or_eq_true, beq_iff_eq] at h
  rcases h with (h | rfl) | rfl
  · have hword : isWord c = true := isWord_of_isAlphanum (by simp [Char.isAlphanum, h])
    simp [isNameChar, hword]
  · decide
  · decide

theorem not_isBlank_of_isNameChar {c : Char} (h : isNameChar c = true) : isBlank c = false := by
  simp only [isNameChar, Bool.or_eq_true, beq_iff_eq] at h
  rcases h with (h | rfl) | rfl
  · exact not_isBlank_of_isWord h
  · decide
  · decide

namespace LocalName

variable (x : LocalName)

theorem exists_cons : ∃ c rest, x.chars = c :: rest ∧ isNameStart c = true ∧
    (∀ d ∈ rest, isNameChar d = true) ∧ x.chars ≠ "null".toList ∧
    keywords.contains (String.ofList x.chars) = false := by
  obtain ⟨chars, valid⟩ := x
  cases chars with
  | nil => cases valid
  | cons c rest =>
    simp only [isBareLocal, Bool.and_eq_true, List.all_eq_true, decide_eq_true_eq,
      Bool.not_eq_true'] at valid
    obtain ⟨⟨⟨hfirst, hrest⟩, hnull⟩, hkeyword⟩ := valid
    exact ⟨c, rest, rfl, hfirst, hrest, hnull, hkeyword⟩

theorem ne_nil : x.chars ≠ [] := by
  obtain ⟨c, rest, heq, -⟩ := x.exists_cons
  simp [heq]

theorem isNameChar_of_mem {c : Char} (h : c ∈ x.chars) : isNameChar c = true := by
  obtain ⟨d, rest, heq, hfirst, hrest, -⟩ := x.exists_cons
  rw [heq] at h
  rcases List.mem_cons.1 h with rfl | h
  · exact isNameChar_of_isNameStart hfirst
  · exact hrest c h

theorem not_mem {c : Char} (h : isNameChar c = false) : c ∉ x.chars := fun hc => by
  rw [x.isNameChar_of_mem hc] at h
  cases h

theorem not_isBlank : ∀ c ∈ x.chars, isBlank c = false := fun _ hc =>
  not_isBlank_of_isNameChar (x.isNameChar_of_mem hc)

theorem trimmed : Trimmed x.chars := .of_not_blank x.not_isBlank

theorem skipQuote (rest : List Char) : skipQuote (x.chars ++ rest) = x.chars ++ rest := by
  obtain ⟨c, name, heq, hfirst, -⟩ := x.exists_cons
  rw [heq, List.cons_append]
  refine skipQuote.eq_2 _ fun rest' h => ?_
  rw [(List.cons.inj h).1] at hfirst
  exact absurd hfirst (by decide)

theorem nameOf : nameOf x.chars = String.ofList x.chars := by
  obtain ⟨c, name, heq, hfirst, -⟩ := x.exists_cons
  rw [Jimple.nameOf, heq]
  congr 1
  refine unquote.eq_2 _ fun rest h => ?_
  rw [(List.cons.inj h).1] at hfirst
  exact absurd hfirst (by decide)

theorem variableOf (owner : String) : variableOf owner x.chars = x.var owner := by
  rw [Jimple.variableOf, x.nameOf]
  rfl

theorem isLocal : isLocal x.chars = true := by
  obtain ⟨c, rest, heq, hfirst, hrest, hnull, -⟩ := x.exists_cons
  have hskip := x.skipQuote []
  rw [List.append_nil] at hskip
  have hid : isIdentifier x.chars = true := by
    rw [isIdentifier, hskip, heq]
    simp [hfirst, List.dropWhile_eq_nil_iff.2 hrest, Jimple.skipQuote]
  rw [Jimple.isLocal, hid, Bool.and_true]
  exact decide_eq_true hnull

theorem local? (owner : String) : local? owner x.chars = some (x.var owner) := by
  rw [Jimple.local?, if_pos x.isLocal, x.variableOf]

/-- The name is read off a text that goes on with another kind of character. -/
theorem afterName? {c : Char} (hc : isNameChar c = false) (hquote : c ≠ '\x27')
    (rest : List Char) : afterName? (x.chars ++ c :: rest) = some (c :: rest) := by
  have hname : ∀ d ∈ x.chars, isNameChar d = true := fun d => x.isNameChar_of_mem
  have hskip : Jimple.skipQuote (c :: rest) = c :: rest :=
    skipQuote.eq_2 _ fun rest' h => hquote (List.cons.inj h).1
  have hne : x.chars.isEmpty = false := List.isEmpty_eq_false_iff.2 x.ne_nil
  simp only [Jimple.afterName?, x.skipQuote, takeWhile_run hname hc, dropWhile_run hname hc, hne,
    Bool.false_eq_true, if_false, hskip]

theorem afterName?_self : Jimple.afterName? x.chars = some [] := by
  have hname : ∀ d ∈ x.chars, isNameChar d = true := fun d => x.isNameChar_of_mem
  have hskip := x.skipQuote []
  rw [List.append_nil] at hskip
  have hne : x.chars.isEmpty = false := List.isEmpty_eq_false_iff.2 x.ne_nil
  simp only [Jimple.afterName?, hskip, List.takeWhile_eq_self_iff.2 hname,
    List.dropWhile_eq_nil_iff.2 hname, hne, Bool.false_eq_true, if_false]
  rfl

end LocalName

namespace PlainName

variable (n : PlainName)

theorem ne_nil : n.chars ≠ [] := by
  have h := n.valid
  rw [isPlainName, Bool.and_eq_true, Bool.not_eq_true'] at h
  exact List.isEmpty_eq_false_iff.1 h.1

theorem not_isBlank_and_stop {c : Char} (h : c ∈ n.chars) :
    isBlank c = false ∧ c ∉ nameStops := by
  have hall := n.valid
  rw [isPlainName, Bool.and_eq_true, List.all_eq_true] at hall
  simpa using hall.2 c h

theorem not_isBlank : ∀ c ∈ n.chars, isBlank c = false := fun _ hc => (n.not_isBlank_and_stop hc).1

theorem not_mem {c : Char} (h : c ∈ nameStops) : c ∉ n.chars := fun hc =>
  (n.not_isBlank_and_stop hc).2 h

theorem trimmed : Trimmed n.chars := .of_not_blank n.not_isBlank

theorem nameOf : nameOf n.chars = String.ofList n.chars := by
  rw [Jimple.nameOf]
  congr 1
  refine unquote.eq_2 _ fun rest heq => ?_
  exact n.not_mem (c := '\x27') (by decide) (heq ▸ List.mem_cons_self)

end PlainName

namespace MemberName

variable (m : MemberName)

theorem ne_nil : m.chars ≠ [] := by
  cases m with
  | plain name => exact name.ne_nil
  | initializer => decide
  | classInitializer => decide

theorem not_isBlank : ∀ c ∈ m.chars, isBlank c = false := by
  cases m with
  | plain name => exact name.not_isBlank
  | initializer => exact List.all_iff_forall_prop.1 (by decide)
  | classInitializer => exact List.all_iff_forall_prop.1 (by decide)

theorem not_mem {c : Char} (h : c ∈ ['\x27', '\x22', ':', ',', '(', ')']) : c ∉ m.chars := by
  cases m with
  | plain name =>
    have hall : ∀ c ∈ ['\x27', '\x22', ':', ',', '(', ')'], c ∈ nameStops :=
      List.all_iff_forall_prop.1 (by decide)
    exact name.not_mem (hall c h)
  | initializer =>
    have hall : ∀ c ∈ ['\x27', '\x22', ':', ',', '(', ')'], c ∉ "<init>".toList :=
      List.all_iff_forall_prop.1 (by decide)
    exact hall c h
  | classInitializer =>
    have hall : ∀ c ∈ ['\x27', '\x22', ':', ',', '(', ')'], c ∉ "<clinit>".toList :=
      List.all_iff_forall_prop.1 (by decide)
    exact hall c h

theorem nameOf : nameOf m.chars = String.ofList m.chars := by
  rw [Jimple.nameOf]
  congr 1
  refine unquote.eq_2 _ fun rest heq => ?_
  exact m.not_mem (c := '\x27') (by decide) (heq ▸ List.mem_cons_self)

/-- The angle brackets of an initializer are closed. -/
theorem nesting (depth : Nat) : nesting '<' '>' depth m.chars = some depth := by
  cases m with
  | plain name => exact nesting_of_not_mem (name.not_mem (by decide)) (name.not_mem (by decide))
  | initializer =>
    have h : chars initializer = ['<', 'i', 'n', 'i', 't', '>'] := rfl
    rw [h]
    rfl
  | classInitializer =>
    have h : chars classInitializer = ['<', 'c', 'l', 'i', 'n', 'i', 't', '>'] := rfl
    rw [h]
    rfl

end MemberName

/-! ### Arguments and indices -/

/-- A character of a number or a name. -/
def isIndexChar (c : Char) : Bool := isNameChar c || ['+', '-', '.', '#'].contains c

theorem not_isBlank_of_isIndexChar {c : Char} (h : isIndexChar c = true) : isBlank c = false := by
  rcases Bool.or_eq_true_iff.1 h with h | h
  · exact not_isBlank_of_isNameChar h
  · have hall : ∀ d ∈ ['+', '-', '.', '#'], isBlank d = false :=
      List.all_iff_forall_prop.1 (by decide)
    exact hall c (by simpa using h)

theorem not_isNameStart_of_isDigit {c : Char} (h : c.isDigit = true) :
    isNameStart c = false ∧ c ≠ '\x27' := by
  simp only [Char.isDigit, Bool.and_eq_true, decide_eq_true_eq, UInt32.le_iff_toNat_le,
    ge_iff_le] at h
  refine ⟨?_, by rintro rfl; exact absurd h.1 (by decide)⟩
  simp only [isNameStart, Bool.or_eq_false_iff, beq_eq_false_iff_ne]
  refine ⟨⟨?_, ?_⟩, ?_⟩
  · rw [Bool.eq_false_iff, Ne, isAlpha_iff]
    have hval : c.val.toNat = c.toNat := rfl
    have h9 : '9'.val.toNat = 57 := rfl
    omega
  · rintro rfl
    exact absurd h.2 (by decide)
  · rintro rfl
    exact absurd h.1 (by decide)

namespace NumberText

variable (n : NumberText)

theorem isIndexChar_of_mem : ∀ c ∈ n.chars, isIndexChar c = true := by
  obtain ⟨chars, valid⟩ := n
  cases chars with
  | nil => cases valid
  | cons c rest =>
    simp only [isNumber, Bool.and_eq_true, List.all_eq_true] at valid
    have hword : ∀ d, isWord d = true → isIndexChar d = true := fun d hd => by
      simp [isIndexChar, isNameChar, hd]
    have hsign : ∀ d, ['+', '-', '.', '#'].contains d = true → isIndexChar d = true := fun d hd => by
      rw [isIndexChar, hd, Bool.or_true]
    intro d hd
    rcases List.mem_cons.1 hd with rfl | hd
    · rcases Bool.or_eq_true_iff.1 valid.1 with h | h
      · exact hword d (isWord_of_isAlphanum (by simp [Char.isAlphanum, h]))
      · exact hsign d h
    · rcases Bool.or_eq_true_iff.1 (valid.2 d hd) with h | h
      · exact hword d h
      · exact hsign d h

theorem exists_cons : ∃ c rest, n.chars = c :: rest ∧ isNameStart c = false ∧ c ≠ '\x27' := by
  obtain ⟨chars, valid⟩ := n
  cases chars with
  | nil => cases valid
  | cons c rest =>
    simp only [isNumber, Bool.and_eq_true] at valid
    refine ⟨c, rest, rfl, ?_⟩
    rcases Bool.or_eq_true_iff.1 valid.1 with h | h
    · exact not_isNameStart_of_isDigit h
    · have hall : ∀ d ∈ ['+', '-', '.', '#'], isNameStart d = false ∧ d ≠ '\x27' :=
        List.all_iff_forall_prop.1 (by decide)
      exact hall c (by simpa using h)

theorem ne_nil : n.chars ≠ [] := by
  obtain ⟨c, rest, heq, -⟩ := n.exists_cons
  simp [heq]

/-- A number is no variable. -/
theorem isLocal : isLocal n.chars = false := by
  obtain ⟨c, rest, heq, hfirst, hquote⟩ := n.exists_cons
  have hskip : skipQuote n.chars = c :: rest := by
    rw [heq]
    exact skipQuote.eq_2 _ fun rest' h => hquote (List.cons.inj h).1
  have hid : isIdentifier n.chars = false := by
    rw [isIdentifier, hskip]
    simp [hfirst]
  rw [Jimple.isLocal, hid, Bool.and_false]

end NumberText

namespace Index

variable (i : Index)

theorem isIndexChar_of_mem : ∀ c ∈ i.chars, isIndexChar c = true := by
  cases i with
  | name x =>
    intro c hc
    rw [isIndexChar, x.isNameChar_of_mem hc, Bool.true_or]
  | number n => exact n.isIndexChar_of_mem

theorem not_mem {c : Char} (h : isIndexChar c = false) : c ∉ i.chars := fun hc => by
  rw [i.isIndexChar_of_mem c hc] at h
  cases h

end Index

theorem outsides_of_not_mem {s : List Char} (h : '\x22' ∉ s) :
    outsides .outside s = s ∧ Quoting.outside.after s = .outside := by
  induction s with
  | nil => exact ⟨rfl, rfl⟩
  | cons c s ih =>
    rw [List.mem_cons, not_or] at h
    have hnext : Quoting.outside.next c = .outside := if_neg (Ne.symm h.1)
    have hafter : Quoting.outside.after (c :: s) = (Quoting.outside.next c).after s := rfl
    rw [outsides, hafter, hnext, (ih h.2).1]
    exact ⟨rfl, (ih h.2).2⟩

/-- Inside of a string constant its parts are gone over. -/
theorem outsides_stringParts (parts : List StringPart) :
    outsides .inside (parts.flatMap StringPart.chars) = [] ∧
      Quoting.inside.after (parts.flatMap StringPart.chars) = .inside := by
  induction parts with
  | nil => exact ⟨rfl, rfl⟩
  | cons part parts ih =>
    have hpart : outsides .inside part.chars = [] ∧ Quoting.inside.after part.chars = .inside := by
      cases part with
      | plain c valid => simp [StringPart.chars, outsides, Quoting.after, Quoting.next, valid]
      | escaped c => simp [StringPart.chars, outsides, Quoting.after, Quoting.next]
    rw [List.flatMap_cons, outsides_append, Quoting.after_append, hpart.1, hpart.2]
    exact ih

theorem outsides_stringText (parts : List StringPart) :
    outsides .outside (stringText parts) = ['\x22'] ∧
      Quoting.outside.after (stringText parts) = .outside := by
  obtain ⟨houtsides, hafter⟩ := outsides_stringParts parts
  have hopen : Quoting.outside.next '\x22' = .inside := rfl
  constructor
  · rw [stringText, List.cons_append, outsides, hopen, outsides_append, houtsides, hafter]
    rfl
  · rw [stringText, List.cons_append, ← List.singleton_append, Quoting.after_append,
      Quoting.after_append]
    exact congrArg (Quoting.after · ['\x22']) hafter

theorem trimmed_stringText (parts : List StringPart) : Trimmed (stringText parts) := by
  have hquote : Trimmed ['\x22'] := .of_all (by decide)
  exact hquote.append hquote (by simp) (by simp)

theorem isArgument_of_bare {s : List Char} (hne : s ≠ []) (h : ∀ c ∈ s, isIndexChar c = true) :
    IsArgument s := by
  have hnot : ∀ c, isIndexChar c = false → c ∉ s := fun c hc hmem => by
    rw [h c hmem] at hc
    cases hc
  obtain ⟨houtsides, hclosed⟩ := outsides_of_not_mem (hnot '\x22' (by decide))
  refine ⟨hne, .of_not_blank fun c hc => not_isBlank_of_isIndexChar (h c hc), hclosed, ?_, ?_⟩
  · rw [houtsides]
    exact hnot ',' (by decide)
  · rw [houtsides]
    exact nesting_of_not_mem (hnot '(' (by decide)) (hnot ')' (by decide))

namespace Argument

variable (a : Argument)

theorem isArgument : IsArgument a.chars := by
  cases a with
  | name x =>
    refine isArgument_of_bare x.ne_nil fun c hc => ?_
    rw [isIndexChar, x.isNameChar_of_mem hc, Bool.true_or]
  | constant k =>
    cases k with
    | null => exact isArgument_of_bare (by decide) (List.all_eq_true.1 (by decide))
    | number n => exact isArgument_of_bare n.ne_nil n.isIndexChar_of_mem
    | string parts =>
      obtain ⟨houtsides, hclosed⟩ := outsides_stringText parts
      refine ⟨by simp [chars, Constant.chars, stringText], trimmed_stringText parts, hclosed, ?_, ?_⟩
      · exact houtsides ▸ by decide
      · exact houtsides ▸ rfl
    | classRef parts =>
      obtain ⟨houtsides, hclosed⟩ := outsides_stringText parts
      obtain ⟨hclass, hopen⟩ := outsides_of_not_mem (s := "class ".toList) (by decide)
      have houtside : outsides .outside (constant (.classRef parts)).chars =
          "class ".toList ++ ['\x22'] := by
        rw [chars, Constant.chars, outsides_append, hclass, hopen, houtsides]
      refine ⟨by simp [chars, Constant.chars], ?_, ?_, ?_, ?_⟩
      · have hword : Trimmed "class".toList := .of_all (by decide)
        have hquoted : stringText parts ≠ [] := by simp [stringText]
        simpa [chars, Constant.chars] using
          hword.append (t := [' ']) (trimmed_stringText parts) (by decide) hquoted
      · rw [chars, Constant.chars, Quoting.after_append, hopen, hclosed]
      · exact houtside ▸ by decide
      · exact houtside ▸ by decide

/-- The reader knows the variables among the arguments. -/
theorem local? (owner : String) : local? owner a.chars = a.var? owner := by
  cases a with
  | name x => exact x.local? owner
  | constant k =>
    have hconstant : isLocal k.chars = false := by
      cases k with
      | null => decide
      | number n => exact n.isLocal
      | string parts =>
        rw [isLocal, Bool.and_eq_false_iff]
        exact .inr rfl
      | classRef parts =>
        have hid : isIdentifier (Constant.classRef parts).chars = false := by
          have hname : ("class ".toList ++ stringText parts) =
              'c' :: ("lass".toList ++ ' ' :: stringText parts) := rfl
          have hrest : ("lass".toList ++ ' ' :: stringText parts).dropWhile isNameChar =
              ' ' :: stringText parts := dropWhile_run (List.all_eq_true.1 (by decide)) (by decide)
          rw [Constant.chars, hname, isIdentifier, skipQuote]
          · simp only [hrest]
            rfl
          · simp
        rw [isLocal, hid, Bool.and_false]
    rw [chars, Jimple.local?, hconstant]
    rfl

end Argument

end PointsTo.Jimple
