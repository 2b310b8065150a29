import PointsTo.Proofs.References

/-!
Assignments read back. A statement that begins with no keyword is cut at its first ` = `, and for
each side the reading is followed to the branch that is meant for it: what comes first in the text
keeps the others from it.
-/
namespace PointsTo.Jimple

open PointsTo.Text

variable {owner : String} {s : List Char}

/-! ### The first word of a statement -/

theorem firstWord_append {w : List Char} (h : ' ' ∉ w) (rest : List Char) :
    firstWord (w ++ ' ' :: rest) = w :=
  takeWhile_run (fun _ hc => decide_eq_true fun heq => h (heq ▸ hc)) (by decide)

theorem firstWord_self {w : List Char} (h : ' ' ∉ w) : firstWord w = w :=
  List.takeWhile_eq_self_iff.2 fun _ hc => decide_eq_true fun heq => h (heq ▸ hc)

theorem mem_firstWord_append {w : List Char} {c : Char} (h : ' ' ∉ w) (hc : c ∈ w)
    (rest : List Char) : c ∈ firstWord (w ++ rest) := by
  have hrun : ∀ d ∈ w, decide (d ≠ ' ') = true := fun d hd =>
    decide_eq_true fun heq => h (heq ▸ hd)
  rw [firstWord, List.takeWhile_append_of_pos hrun]
  exact List.mem_append_left _ hc

/-- The words that begin a statement, but for those of calls and handlers. -/
def controlWords : List String :=
  ["return", "nop", "breakpoint", "if", "goto", "throw", "entermonitor", "exitmonitor"]

/-- No keyword has a character that is no letter. -/
theorem not_keyword {w : List Char} {c : Char} (hc : c ∈ w) (halpha : c.isAlpha = false) :
    keywords.contains (String.ofList w) = false := by
  have hall : (keywords.all fun k => k.toList.all Char.isAlpha) = true := by decide
  have hletters : ∀ k ∈ keywords, ∀ d ∈ k.toList, d.isAlpha = true := by simpa using hall
  rw [Bool.eq_false_iff]
  intro hcontains
  have hletter := hletters (String.ofList w) (List.contains_iff_mem.1 hcontains) c
    (by rwa [String.toList_ofList])
  rw [hletter] at halpha
  cases halpha

theorem callKind?_eq_none (h : keywords.contains (String.ofList (firstWord s)) = false) :
    callKind? s = none := by
  rw [callKind?, CallKind.ofKeyword?, List.find?_eq_none]
  intro kind hkind hword
  have hmem : kind.keyword ∈ keywords :=
    List.mem_append_right _ (List.mem_map_of_mem hkind)
  rw [decide_eq_true_eq] at hword
  rw [← hword, List.contains_iff_mem.2 hmem] at h
  cases h

/-- A statement that begins with no control word is a call, an identity or an assignment. -/
theorem readStatement_of_not_control (h : String.ofList (firstWord s) ∉ controlWords) :
    readStatement owner s =
      match callKind? s with
      | some kind => readCall owner kind s none
      | none =>
      match identity? s with
      | some (name, role) => readIdentity owner s name role
      | none =>
      match cut? " = ".toList s with
      | some (left, right) => readAssignment owner (trim left) (trim right) s
      | none => .ok (Reading.plain s []) := by
  have hword : ∀ k : String, ' ' ∉ k.toList → k ∈ controlWords → s ≠ k.toList := by
    rintro k hspace hk rfl
    rw [firstWord_self hspace, String.ofList_toList] at h
    exact h hk
  have hstart : ∀ k : String, ' ' ∉ k.toList → k ∈ controlWords →
      startsWith (k.toList ++ [' ']) s = false := by
    intro k hspace hk
    rw [Bool.eq_false_iff]
    intro hs
    obtain ⟨rest, rfl⟩ := startsWith_iff.1 hs
    rw [List.append_assoc, List.singleton_append, firstWord_append hspace,
      String.ofList_toList] at h
    exact h hk
  have hreturn := hword "return" (by decide) (by decide)
  have hreturn' := hstart "return" (by decide) (by decide)
  have hnop := hword "nop" (by decide) (by decide)
  have hbreak := hword "breakpoint" (by decide) (by decide)
  have hcontrol : controlBeginnings.any (startsWith · s) = false := by
    rw [List.any_eq_false]
    simp only [controlBeginnings, List.forall_mem_cons, List.not_mem_nil, false_implies,
      implies_true, and_true, Bool.not_eq_true]
    exact ⟨hstart "if" (by decide) (by decide), hstart "goto" (by decide) (by decide),
      hstart "throw" (by decide) (by decide), hstart "entermonitor" (by decide) (by decide),
      hstart "exitmonitor" (by decide) (by decide)⟩
  have hfirst : (decide (s = "return".toList) || startsWith "return ".toList s) = false :=
    Bool.or_eq_false_iff.2 ⟨decide_eq_false hreturn, hreturn'⟩
  have hsecond : (decide (s = "nop".toList) || decide (s = "breakpoint".toList) ||
      controlBeginnings.any (startsWith · s)) = false := by
    rw [decide_eq_false hnop, decide_eq_false hbreak, hcontrol]
    rfl
  rw [readStatement, hfirst, hsecond]
  rfl

theorem not_control_of_not_keyword {w : List Char}
    (h : keywords.contains (String.ofList w) = false) : String.ofList w ∉ controlWords := by
  intro hmem
  have hall : ∀ k ∈ controlWords, k ∈ keywords := by decide
  rw [List.contains_iff_mem.2 (hall _ hmem)] at h
  cases h

/-- The range of a handler begins with its word. -/
theorem not_startsWith_catch (h : firstWord s ≠ "catch".toList) :
    startsWith "catch ".toList s = false := by
  rw [Bool.eq_false_iff]
  intro hstart
  obtain ⟨rest, rfl⟩ := startsWith_iff.1 hstart
  exact h (firstWord_append (w := "catch".toList) (by decide) rest)

/-! ### Where an assignment is cut -/

/-- A statement is no identity where the first colon of its first word ends the word, and what comes
behind the blank does not begin with the sign. -/
theorem identity?_eq_none {w t : List Char} {b : Char} (hb : isBlank b = true)
    (hw : ∀ c ∈ w, isBlank c = false) (hcolon : ':' ∉ w.dropLast)
    (ht : after? [':', '='] (trimLeft t) = none) : identity? (w ++ b :: t) = none := by
  have hrun : ∀ c ∈ w, (!isBlank c) = true := fun c hc => by simp [hw c hc]
  rw [identity?, takeWhile_run hrun (by simp [hb]), List.findSome?_eq_none_iff]
  intro n hn
  have hlength : n < w.length := by simpa using hn
  have hsign : after? [':', '='] (((w ++ b :: t).drop (n + 1)).dropWhile isBlank) = none := by
    rw [List.drop_append_of_le_length hlength]
    cases hsuffix : w.drop (n + 1) with
    | nil =>
      rw [List.nil_append, List.dropWhile_cons_of_pos hb]
      exact ht
    | cons c u =>
      have hmem : ∀ d ∈ c :: u, d ∈ w := fun d hd => List.mem_of_mem_drop (hsuffix ▸ hd)
      have hc : isBlank c = false := hw c (hmem c List.mem_cons_self)
      rw [List.cons_append, List.dropWhile_cons_of_neg (by simp [hc]),
        Option.eq_none_iff_forall_ne_some]
      intro rest hafter
      obtain ⟨rfl, htail⟩ := List.cons.inj (after?_eq_some.1 hafter)
      cases u with
      | nil =>
        obtain rfl : b = '=' := (List.cons.inj htail).1
        exact absurd hb (by decide)
      | cons d u =>
        refine hcolon ?_
        have hw' : w.dropLast = w.take (n + 1) ++ ':' :: (d :: u).dropLast := by
          conv_lhs => rw [← List.take_append_drop (n + 1) w, hsuffix,
            List.dropLast_append_of_ne_nil (by simp), List.dropLast_cons_cons]
        rw [hw']
        exact List.mem_append_right _ List.mem_cons_self
  rw [hsign]
  rfl

theorem readStatement_cut {w t left right : List Char} (hw : ∀ c ∈ w, isBlank c = false)
    (hword : keywords.contains (String.ofList w) = false) (hcolon : ':' ∉ w.dropLast)
    (ht : after? [':', '='] (trimLeft t) = none)
    (hcut : cut? " = ".toList (w ++ ' ' :: t) = some (left, right)) :
    readStatement owner (w ++ ' ' :: t) =
      readAssignment owner (trim left) (trim right) (w ++ ' ' :: t) := by
  have hspace : ' ' ∉ w := fun hc => absurd (hw ' ' hc) (by decide)
  have hfirst := firstWord_append hspace t
  rw [← hfirst] at hword
  rw [readStatement_of_not_control (not_control_of_not_keyword hword), callKind?_eq_none hword,
    identity?_eq_none (by decide) hw hcolon ht, hcut]

/-- A target without blanks and colons. -/
theorem readStatement_plainTarget (owner : String) {left : List Char}
    (hleft : ∀ c ∈ left, isBlank c = false)
    (hword : keywords.contains (String.ofList left) = false) (hcolon : ':' ∉ left)
    (right : List Char) :
    readStatement owner (Written.assignment left right) =
      readAssignment owner left (trim right) (Written.assignment left right) := by
  have hspace : ' ' ∉ left := fun hc => absurd (hleft ' ' hc) (by decide)
  have htext : Written.assignment left right = left ++ ' ' :: ('=' :: ' ' :: right) := by
    simp [Written.assignment]
  have hsign : after? [':', '='] (trimLeft ('=' :: ' ' :: right)) = none := by
    rw [trimLeft, List.dropWhile_cons_of_neg (by decide)]
    rfl
  have hcut : cut? " = ".toList (left ++ ' ' :: ('=' :: ' ' :: right)) = some (left, right) := by
    have h := cut?_append_mark ['=', ' '] hspace right
    simpa using h
  rw [htext, readStatement_cut hleft hword
    (fun hc => hcolon ((List.dropLast_sublist left).subset hc)) hsign hcut,
    (Trimmed.of_not_blank hleft).trim]

/-- A word between blanks is no sign of an assignment, unless it is the mere `=`. -/
theorem after?_sign_eq_none {w : List Char} {c : Char} (hne : w ≠ [])
    (hw : ∀ d ∈ w, isBlank d = false) (h : w ≠ ['='] ∨ c ≠ ' ') (rest : List Char) :
    after? [' ', '=', ' '] (' ' :: w ++ c :: rest) = none := by
  rw [Option.eq_none_iff_forall_ne_some]
  intro behind hafter
  have heq := after?_eq_some.1 hafter
  obtain ⟨d, u, rfl⟩ := List.exists_cons_of_ne_nil hne
  cases u with
  | nil =>
    obtain ⟨rfl, rfl⟩ : d = '=' ∧ c = ' ' := by simp_all
    simp at h
  | cons e u =>
    have he : e = ' ' := by simp_all
    have hblank := hw e (by simp)
    rw [he] at hblank
    exact absurd hblank (by decide)

/-- The sign of a store into a field is not found inside of the reference. -/
theorem cut?_fieldTarget {w : List Char} (hw : ' ' ∉ w) (f : WrittenField)
    (hf : f.type.chars ≠ ['=']) (right : List Char) :
    cut? [' ', '=', ' '] (w ++ ' ' :: f.type.chars ++ ' ' :: f.name.chars ++
      '>' :: ' ' :: '=' :: ' ' :: right) =
      some (w ++ ' ' :: f.type.chars ++ ' ' :: f.name.chars ++ ['>'], right) := by
  have htype : ' ' ∉ f.type.chars := fun hc => absurd (f.type.not_isBlank ' ' hc) (by decide)
  have hname : ' ' ∉ f.name.chars ++ ['>'] := by
    have h : ' ' ∉ f.name.chars := fun hc => absurd (f.name.not_isBlank ' ' hc) (by decide)
    simp [h]
  have hbehind : cut? [' ', '=', ' '] (' ' :: f.name.chars ++ '>' :: ' ' :: '=' :: ' ' :: right) =
      some (' ' :: f.name.chars ++ ['>'], right) := by
    have hafter := after?_sign_eq_none (c := '>') f.name.ne_nil f.name.not_isBlank
      (.inr (by decide)) (' ' :: '=' :: ' ' :: right)
    have hmark := cut?_append_mark ['=', ' '] hname right
    simp only [List.append_assoc, List.cons_append, List.nil_append] at hmark hafter ⊢
    rw [cut?_of_after?_eq_none hafter, hmark, Option.map_some]
  have hafter := after?_sign_eq_none (c := ' ') f.type.ne_nil f.type.not_isBlank (.inl hf)
    (f.name.chars ++ '>' :: ' ' :: '=' :: ' ' :: right)
  simp only [List.append_assoc, List.cons_append] at hbehind hafter ⊢
  rw [cut?_append hw, cut?_of_after?_eq_none hafter, cut?_append htype, hbehind]
  simp

/-- A target that is a field, of a class or of an object. -/
theorem readStatement_fieldTarget (owner : String) {before : List Char}
    (hbefore : ∀ c ∈ before, isNameChar c = true ∨ c = '.') (f : WrittenField)
    (hf : f.type.chars ≠ ['=']) (right : List Char) :
    readStatement owner (Written.assignment (before ++ f.text) right) =
      readAssignment owner (trim (before ++ f.text)) (trim right)
        (Written.assignment (before ++ f.text) right) := by
  have hnot : ':' ∉ before := fun hc => by
    rcases hbefore ':' hc with h | h
    · exact absurd h (by decide)
    · cases h
  have hblank : ∀ c ∈ before, isBlank c = false := fun c hc => by
    rcases hbefore c hc with h | rfl
    · exact not_isBlank_of_isNameChar h
    · decide
  have hw : ∀ c ∈ before ++ '<' :: f.owner.chars ++ [':'], isBlank c = false := by
    intro c hc
    simp only [List.mem_append, List.mem_cons, List.not_mem_nil, or_false] at hc
    rcases hc with (hc | rfl | hc) | rfl
    · exact hblank c hc
    · decide
    · exact f.owner.not_isBlank c hc
    · decide
  have hspace : ' ' ∉ before ++ '<' :: f.owner.chars ++ [':'] := fun hc =>
    absurd (hw ' ' hc) (by decide)
  have hword :
      keywords.contains (String.ofList (before ++ '<' :: f.owner.chars ++ [':'])) = false :=
    not_keyword (c := ':') (by simp) (by decide)
  have hcolon : ':' ∉ (before ++ '<' :: f.owner.chars ++ [':']).dropLast := by
    have howner := f.owner.not_mem (c := ':') (by decide)
    rw [List.dropLast_concat]
    simp [howner, hnot]
  have hsign : ∀ rest, after? [':', '='] (trimLeft (f.type.chars ++ rest)) = none := by
    intro rest
    obtain ⟨c, type, htype⟩ := List.exists_cons_of_ne_nil f.type.ne_nil
    have hc : isBlank c = false := f.type.not_isBlank c (htype ▸ List.mem_cons_self)
    have hne : ':' ≠ c := fun heq =>
      f.type.not_mem (c := ':') (by decide) (htype ▸ heq ▸ List.mem_cons_self)
    rw [htype, List.cons_append, trimLeft, List.dropWhile_cons_of_neg (by simp [hc]), after?,
      if_neg hne]
  let behind := ' ' :: f.name.chars ++ '>' :: ' ' :: '=' :: ' ' :: right
  have htext : Written.assignment (before ++ f.text) right =
      before ++ '<' :: f.owner.chars ++ [':'] ++ ' ' :: (f.type.chars ++ behind) := by
    simp [Written.assignment, WrittenField.text, behind]
  have hcut : cut? " = ".toList (before ++ '<' :: f.owner.chars ++ [':'] ++
      ' ' :: (f.type.chars ++ behind)) = some (before ++ f.text, right) := by
    have h := cut?_fieldTarget hspace f hf right
    simpa [WrittenField.text, behind] using h
  rw [htext, readStatement_cut hw hword hcolon (hsign behind) hcut]

/-! ### Sides of an assignment -/

theorem WrittenField.trimmed_text (f : WrittenField) : Trimmed f.text := by
  have hopen : Trimmed ['<'] := .of_all (by decide)
  have hclose : Trimmed ['>'] := .of_all (by decide)
  have h := hopen.append (t := f.owner.chars ++ ':' :: ' ' :: f.type.chars ++ ' ' :: f.name.chars)
    hclose (by simp) (by simp)
  simpa [text] using h

theorem WrittenField.not_mem_text (f : WrittenField) : '(' ∉ f.text := by
  have howner := f.owner.not_mem (c := '(') (by decide)
  have htype := f.type.not_mem (c := '(') (by decide)
  have hname := f.name.not_mem (c := '(') (by decide)
  simp [text, howner, htype, hname]

theorem head?_ne_of_not_mem {c : Char} (h : c ∉ s) : s.head? ≠ some c := fun hc =>
  h (List.mem_of_head? hc)

/-- Where a text has no angle bracket, no member is accessed. -/
theorem cutAccess?_eq_none (h : '<' ∉ s) : cutAccess? s = none := by
  rw [cutAccess?, cut?_eq_none (c := '<') (by simp) h]

/-- A member is accessed at the first dot in front of a bracket. -/
theorem cutAccess?_append {base : List Char} (hne : base ≠ []) (hdot : '.' ∉ base)
    (rest : List Char) :
    cutAccess? (base ++ '.' :: '<' :: rest) = some (base, '<' :: rest) := by
  have hbase : base.isEmpty = false := List.isEmpty_eq_false_iff.2 hne
  have hcut : cut? ['.', '<'] (base ++ '.' :: '<' :: rest) = some (base, rest) := by
    simpa using cut?_append_mark ['<'] hdot rest
  simp only [cutAccess?, hcut, hbase, Bool.false_eq_true, if_false]

/-- The array of an element access ends where the name does. -/
theorem arrayOf?_bracketed {base index : List Char}
    (hname : afterName? (base ++ bracketed index) = some ('[' :: (index ++ [']'])))
    (closed : ']' ∉ index) : arrayOf? (base ++ bracketed index) = some base := by
  have hrun : ∀ c ∈ index, decide (c ≠ ']') = true := fun c hc =>
    decide_eq_true fun heq => closed (heq ▸ hc)
  have hindex : (index ++ [']']).dropWhile (fun c => decide (c ≠ ']')) = [']'] :=
    dropWhile_run hrun (by decide)
  have htake : (base ++ bracketed index).take
      ((base ++ bracketed index).length - (index ++ [']']).length - 1) = base := by
    have hlength : (base ++ bracketed index).length - (index ++ [']']).length - 1 =
        base.length := by
      simp only [bracketed, List.length_append, List.length_cons, List.length_nil]
      omega
    rw [hlength, List.take_left]
  simp only [arrayOf?, hname, hindex, if_true, htake]

namespace LocalName

variable (x : LocalName)

theorem space_not_mem : ' ' ∉ x.chars := x.not_mem (by decide)

theorem not_keyword : keywords.contains (String.ofList x.chars) = false := by
  obtain ⟨_, _, _, _, _, _, h⟩ := x.exists_cons
  exact h

theorem head?_append_ne {c : Char} (hc : isNameChar c = false) (rest : List Char) :
    (x.chars ++ rest).head? ≠ some c := by
  rw [List.head?_append_of_ne_nil _ x.ne_nil]
  exact head?_ne_of_not_mem (x.not_mem hc)

theorem cutAccess? (rest : List Char) :
    cutAccess? (x.chars ++ '.' :: '<' :: rest) = some (x.chars, '<' :: rest) :=
  cutAccess?_append x.ne_nil (x.not_mem (by decide)) rest

theorem arrayOf?_self : arrayOf? x.chars = none := by
  simp only [arrayOf?, x.afterName?_self]

theorem arrayOf? (i : Index) : arrayOf? (x.chars ++ bracketed i.chars) = some x.chars :=
  arrayOf?_bracketed (x.afterName? (by decide) (by decide) _) (i.not_mem (by decide))

end LocalName

/-! ### What is assigned -/

/-- Nothing is allocated where no parenthesis holds a type. -/
theorem allocated?_eq_none (hnew : startsWith "new ".toList s = false) (hparen : '(' ∉ s) :
    allocated? s = none := by
  have hnone : after? "new ".toList s = none := by
    rwa [startsWith, Option.isSome_eq_false_iff, Option.isNone_iff_eq_none] at hnew
  have htype : ∀ mark, (after? mark s).bind (fun rest => readParenType? (trimLeft rest)) = none := by
    intro mark
    cases hafter : after? mark s with
    | none => rfl
    | some rest =>
      have hrest : '(' ∉ trimLeft rest := fun hc => hparen <| by
        rw [after?_eq_some.1 hafter]
        exact List.mem_append_right _ ((List.dropWhile_sublist _).subset hc)
      cases hbehind : trimLeft rest with
      | nil => simp [hbehind, readParenType?]
      | cons c behind =>
        have hc : c ≠ '(' := fun heq => hrest (by simp [hbehind, heq])
        rw [Option.bind_some, hbehind]
        exact readParenType?.eq_2 _ fun rest' heq => hc (List.cons.inj heq).1
  simp only [allocated?, hnone, newArray?, newMultiArray?, htype, Option.map_none]

theorem readParenType?_text (type : PlainName) (rest : List Char) :
    readParenType? ('(' :: (type.chars ++ ')' :: rest)) = some (type.chars, trimLeft rest) := by
  have hrun : ∀ c ∈ type.chars, decide (c ≠ ')') = true := fun c hc =>
    decide_eq_true fun heq => type.not_mem (c := ')') (by decide) (heq ▸ hc)
  have hstop : decide (')' ≠ ')') = false := by decide
  have hne : type.chars.isEmpty = false := List.isEmpty_eq_false_iff.2 type.ne_nil
  simp only [readParenType?, takeWhile_run hrun hstop, dropWhile_run hrun hstop, hne,
    Bool.false_eq_true, if_false]

theorem not_startsWith_of_not_mem {mark : List Char} {c : Char} (hc : c ∈ mark) (h : c ∉ s) :
    startsWith mark s = false := by
  rw [Bool.eq_false_iff]
  intro hstart
  obtain ⟨rest, rfl⟩ := startsWith_iff.1 hstart
  exact h (List.mem_append_left _ hc)

section Source

variable {target : Variable} {text : List Char}

theorem readSource_allocate (type : PlainName) :
    readSource owner target ("new ".toList ++ type.chars) text =
      .ok ⟨.allocate target (String.ofList type.chars), [target], none⟩ := by
  have hafter : after? "new ".toList ("new ".toList ++ type.chars) = some type.chars :=
    after?_eq_some.2 rfl
  simp only [readSource, allocated?, hafter, type.trimmed.trim]

theorem trimLeft_bracketed (i rest : List Char) :
    trimLeft (bracketed i ++ rest) = bracketed i ++ rest :=
  trimLeft_of_first fun c hc => by
    obtain rfl : '[' = c := Option.some.inj hc
    decide

theorem readSource_allocateArray (type : PlainName) (size : Index) :
    readSource owner target ("newarray (".toList ++ type.chars ++ ')' :: bracketed size.chars) text =
      .ok ⟨.allocate target (Written.arrayType type.chars 1), [target], none⟩ := by
  have hread := readParenType?_text type (bracketed size.chars)
  have htrim := trimLeft_bracketed size.chars []
  rw [List.append_nil] at htrim
  have hafter : after? "newarray".toList
      ("newarray (".toList ++ type.chars ++ ')' :: bracketed size.chars) =
      some (' ' :: '(' :: (type.chars ++ ')' :: bracketed size.chars)) := by
    simp [after?_eq_some]
  have hparen : trimLeft (' ' :: '(' :: (type.chars ++ ')' :: bracketed size.chars)) =
      '(' :: (type.chars ++ ')' :: bracketed size.chars) := rfl
  have harray : newArray? ("newarray (".toList ++ type.chars ++ ')' :: bracketed size.chars) =
      some type.chars := by
    have hclose : endsWith ']' (size.chars ++ [']']) = true := by simp [endsWith]
    simp only [newArray?, hafter, Option.bind_some, hparen, hread, htrim]
    simp only [bracketed, List.cons_append, hclose, if_true, type.trimmed.trim]
  have hnew : after? "new ".toList
      ("newarray (".toList ++ type.chars ++ ')' :: bracketed size.chars) = none := rfl
  simp only [readSource, allocated?, hnew, harray]
  rfl

/-- The sizes of an array of several dimensions: one pair of brackets for each. -/
theorem areSizes_sizes (size : Option Index) (sizes : List (Option Index)) :
    areSizes ((size :: sizes).flatMap Written.sizeText) = true ∧
      ((size :: sizes).flatMap Written.sizeText).count '[' = sizes.length + 1 := by
  have hsize : ∀ size : Option Index, ∀ c ∈ (size.map Index.chars).getD [],
      isIndexChar c = true := by
    intro size
    cases size with
    | none => simp
    | some i => exact i.isIndexChar_of_mem
  have hclose : ∀ (size : Option Index) (rest : List Char),
      ((size.map Index.chars).getD [] ++ ']' :: rest).dropWhile (fun c => decide (c ≠ ']')) =
        ']' :: rest := by
    intro size rest
    refine dropWhile_run (fun c hc => decide_eq_true ?_) (by decide)
    rintro rfl
    exact absurd (hsize size _ hc) (by decide)
  have hcount : ∀ size : Option Index, (Written.sizeText size).count '[' = 1 := by
    intro size
    have hnot : '[' ∉ (size.map Index.chars).getD [] := fun hc =>
      absurd (hsize size _ hc) (by decide)
    simp [Written.sizeText, bracketed, List.count_eq_zero_of_not_mem hnot]
  have hstep : ∀ (size : Option Index) (rest : List Char),
      areSizes (Written.sizeText size ++ rest) = (rest.isEmpty || areSizes rest) := by
    intro size rest
    have htext : Written.sizeText size ++ rest =
        '[' :: ((size.map Index.chars).getD [] ++ ']' :: rest) := by
      simp [Written.sizeText, bracketed]
    rw [htext, areSizes]
    split
    · next hnil =>
      rw [hclose] at hnil
      cases hnil
    · next c behind hcons =>
      rw [hclose] at hcons
      rw [(List.cons.inj hcons).2]
  induction sizes generalizing size with
  | nil => 
    have h := hstep size []
    rw [List.append_nil] at h
    rw [List.flatMap_cons, List.flatMap_nil, List.append_nil, hcount]
    exact ⟨h, rfl⟩
  | cons next sizes ih =>
    obtain ⟨hsizes, hdims⟩ := ih next
    rw [List.flatMap_cons, hstep, hsizes, Bool.or_true, List.count_append, hcount, hdims,
      List.length_cons, Nat.add_comm]
    exact ⟨rfl, rfl⟩

theorem exists_append_sizes (size : Option Index) (sizes : List (Option Index)) :
    ∃ before, (size :: sizes).flatMap Written.sizeText = before ++ [']'] := by
  induction sizes generalizing size with
  | nil => exact ⟨'[' :: (size.map Index.chars).getD [], by simp [Written.sizeText, bracketed]⟩
  | cons next sizes ih =>
    obtain ⟨before, hbefore⟩ := ih next
    exact ⟨Written.sizeText size ++ before, by rw [List.flatMap_cons, hbefore, List.append_assoc]⟩

theorem readSource_allocateArrays (type : PlainName) (size : Option Index)
    (sizes : List (Option Index)) :
    readSource owner target ("newmultiarray (".toList ++ type.chars ++
        ')' :: (size :: sizes).flatMap Written.sizeText) text =
      .ok ⟨.allocate target (Written.arrayType type.chars (sizes.length + 1)), [target], none⟩ := by
  obtain ⟨hsizes, hdims⟩ := areSizes_sizes size sizes
  have htrim : trimLeft ((size :: sizes).flatMap Written.sizeText) =
      (size :: sizes).flatMap Written.sizeText := trimLeft_bracketed _ _
  generalize (size :: sizes).flatMap Written.sizeText = brackets at hsizes hdims htrim ⊢
  have hafter : after? "newmultiarray".toList
      ("newmultiarray (".toList ++ type.chars ++ ')' :: brackets) =
      some (' ' :: '(' :: (type.chars ++ ')' :: brackets)) := by
    simp [after?_eq_some]
  have hparen : trimLeft (' ' :: '(' :: (type.chars ++ ')' :: brackets)) =
      '(' :: (type.chars ++ ')' :: brackets) := rfl
  have harrays : newMultiArray? ("newmultiarray (".toList ++ type.chars ++ ')' :: brackets) =
      some (type.chars, sizes.length + 1) := by
    simp only [newMultiArray?, hafter, Option.bind_some, hparen, readParenType?_text, htrim, hsizes,
      hdims, if_true, type.trimmed.trim]
  have hnew : after? "new ".toList
      ("newmultiarray (".toList ++ type.chars ++ ')' :: brackets) = none := rfl
  have harray : newArray? ("newmultiarray (".toList ++ type.chars ++ ')' :: brackets) = none := rfl
  simp only [readSource, allocated?, hnew, harray, harrays, Option.map_some]
  rfl

theorem readSource_copy (y : LocalName) :
    readSource owner target y.chars text =
      .ok ⟨.copy target (y.var owner), [target, y.var owner], none⟩ := by
  have hparen : '(' ∉ y.chars := y.not_mem (by decide)
  have hallocated : allocated? y.chars = none :=
    allocated?_eq_none (not_startsWith_of_not_mem (by decide) y.space_not_mem) hparen
  have hcall : callKind? y.chars = none := by
    refine callKind?_eq_none ?_
    rw [firstWord_self y.space_not_mem]
    exact y.not_keyword
  have hhead : y.chars.head? ≠ some '<' := head?_ne_of_not_mem (y.not_mem (by decide))
  have haccess : Jimple.cutAccess? y.chars = none := cutAccess?_eq_none (y.not_mem (by decide))
  have htype : readParenType? y.chars = none := readParenType?.eq_2 _ fun rest heq =>
    hparen (heq ▸ List.mem_cons_self)
  simp only [readSource, hallocated, hcall, hhead, haccess, y.arrayOf?_self, castOperand?, htype,
    Option.filter_none, Option.getD_none, y.local?, if_false]

theorem readSource_cast (type : PlainName) (y : LocalName) :
    readSource owner target ('(' :: type.chars ++ ')' :: ' ' :: y.chars) text =
      .ok ⟨.copy target (y.var owner), [target, y.var owner], none⟩ := by
  have hcall : callKind? ('(' :: type.chars ++ ')' :: ' ' :: y.chars) = none :=
    callKind?_eq_none (not_keyword (c := '(') (by simp [firstWord]) (by decide))
  have haccess : cutAccess? ('(' :: type.chars ++ ')' :: ' ' :: y.chars) = none := by
    have htype := type.not_mem (c := '<') (by decide)
    have hname : '<' ∉ y.chars := y.not_mem (by decide)
    exact cutAccess?_eq_none (by simp [htype, hname])
  have hname : y.chars.isEmpty = false := List.isEmpty_eq_false_iff.2 y.ne_nil
  have hblank : y.chars.any isBlank = false := by
    simpa [List.any_eq_false] using y.not_isBlank
  have htrim : trimLeft (' ' :: y.chars) = y.chars := by
    rw [trimLeft, List.dropWhile_cons_of_pos (by decide)]
    exact trimLeft_of_first y.trimmed.first
  have hparen : readParenType? ('(' :: type.chars ++ ')' :: ' ' :: y.chars) =
      some (type.chars, y.chars) := by
    rw [List.cons_append, readParenType?_text, htrim]
  have hcast : castOperand? ('(' :: type.chars ++ ')' :: ' ' :: y.chars) = some y.chars := by
    simp only [castOperand?, hparen, hname, hblank, Bool.or_self, Bool.false_eq_true, if_false]
  have hallocated : allocated? ('(' :: type.chars ++ ')' :: ' ' :: y.chars) = none := rfl
  have harray : arrayOf? ('(' :: type.chars ++ ')' :: ' ' :: y.chars) = none := rfl
  have hhead : ('(' :: type.chars ++ ')' :: ' ' :: y.chars).head? ≠ some '<' := by simp
  simp only [readSource, hallocated, hcall, hhead, haccess, harray, hcast, Option.filter_none,
    Option.getD_some, y.local?, if_false]

theorem readSource_loadStatic (f : WrittenField) :
    readSource owner target f.text text = .ok ⟨.loadStatic target f.ref, [target], none⟩ := by
  have hallocated : allocated? f.text = none := allocated?_eq_none rfl f.not_mem_text
  have hcall : callKind? f.text = none :=
    callKind?_eq_none (not_keyword (c := '<') (by simp [firstWord, WrittenField.text]) (by decide))
  have hhead : f.text.head? = some '<' := rfl
  simp only [readSource, hallocated, hcall, hhead, readFieldRef_text, if_true]
  rfl

theorem readSource_loadField (base : LocalName) (f : WrittenField) :
    readSource owner target (base.chars ++ '.' :: f.text) text =
      .ok ⟨.loadField target (base.var owner) f.ref, [target, base.var owner], none⟩ := by
  have hdot : '.' ∈ firstWord (base.chars ++ '.' :: f.text) := by
    have hspace : ' ' ∉ base.chars ++ ['.'] := by simp [base.space_not_mem]
    simpa using mem_firstWord_append hspace (c := '.') (by simp) f.text
  have hnew : startsWith "new ".toList (base.chars ++ '.' :: f.text) = false := by
    rw [Bool.eq_false_iff]
    intro hstart
    obtain ⟨rest, heq⟩ := startsWith_iff.1 hstart
    have hfirst : firstWord ("new ".toList ++ rest) = "new".toList := rfl
    rw [heq, hfirst] at hdot
    exact absurd hdot (by decide)
  have hparen : '(' ∉ base.chars ++ '.' :: f.text := by
    have hbase : '(' ∉ base.chars := base.not_mem (by decide)
    simp [hbase, f.not_mem_text]
  have hallocated := allocated?_eq_none hnew hparen
  have hcall := callKind?_eq_none (not_keyword hdot (by decide))
  have hhead : (base.chars ++ '.' :: f.text).head? ≠ some '<' :=
    base.head?_append_ne (by decide) _
  have haccess : cutAccess? (base.chars ++ '.' :: f.text) = some (base.chars, f.text) :=
    base.cutAccess? f.text.tail
  simp only [readSource, hallocated, hcall, hhead, haccess, Option.filter_some, base.isLocal,
    readFieldRef_text, base.variableOf, if_true, if_false]
  rfl

theorem readSource_loadElement (base : LocalName) (i : Index) :
    readSource owner target (base.chars ++ bracketed i.chars) text =
      .ok ⟨.loadElement target (base.var owner), [target, base.var owner], none⟩ := by
  have hnot : ∀ c, isIndexChar c = false → c ≠ '[' → c ≠ ']' →
      c ∉ base.chars ++ bracketed i.chars := by
    intro c hc hopen hclose
    have hbase : c ∉ base.chars := base.not_mem (Bool.or_eq_false_iff.1 hc).1
    have hindex : c ∉ i.chars := i.not_mem hc
    simp [bracketed, hbase, hindex, hopen, hclose]
  have hspace := hnot ' ' (by decide) (by decide) (by decide)
  have hallocated : allocated? (base.chars ++ bracketed i.chars) = none :=
    allocated?_eq_none (not_startsWith_of_not_mem (by decide) hspace)
      (hnot '(' (by decide) (by decide) (by decide))
  have hcall : callKind? (base.chars ++ bracketed i.chars) = none := by
    refine callKind?_eq_none (not_keyword (c := '[') ?_ (by decide))
    rw [firstWord_self hspace]
    simp [bracketed]
  have hhead : (base.chars ++ bracketed i.chars).head? ≠ some '<' :=
    base.head?_append_ne (by decide) _
  have haccess : cutAccess? (base.chars ++ bracketed i.chars) = none :=
    cutAccess?_eq_none (hnot '<' (by decide) (by decide) (by decide))
  simp only [readSource, hallocated, hcall, hhead, haccess, base.arrayOf?, Option.filter_none,
    base.variableOf, if_false]

end Source

/-! ### Assignments -/

section Assignment

variable {right text : List Char}

/-- What is assigned to a variable is read as a source. -/
theorem readAssignment_local (x : LocalName) :
    readAssignment owner x.chars right text = readSource owner (x.var owner) right text := by
  have hhead : x.chars.head? ≠ some '<' := head?_ne_of_not_mem (x.not_mem (by decide))
  have haccess : Jimple.cutAccess? x.chars = none := cutAccess?_eq_none (x.not_mem (by decide))
  simp only [readAssignment, hhead, haccess, x.arrayOf?_self, x.isLocal, x.variableOf, if_true,
    if_false]

theorem readAssignment_storeStatic (f : WrittenField) (y : LocalName) :
    readAssignment owner f.text y.chars text =
      .ok ⟨.storeStatic f.ref (y.var owner), [y.var owner], none⟩ := by
  have hhead : f.text.head? = some '<' := rfl
  simp only [readAssignment, hhead, y.local?, readFieldRef_text, if_true]
  rfl

theorem readAssignment_storeField (base : LocalName) (f : WrittenField) (y : LocalName) :
    readAssignment owner (base.chars ++ '.' :: f.text) y.chars text =
      .ok ⟨.storeField (base.var owner) f.ref (y.var owner), [y.var owner, base.var owner],
        none⟩ := by
  have hhead : (base.chars ++ '.' :: f.text).head? ≠ some '<' :=
    base.head?_append_ne (by decide) _
  have haccess : cutAccess? (base.chars ++ '.' :: f.text) = some (base.chars, f.text) :=
    base.cutAccess? f.text.tail
  simp only [readAssignment, hhead, haccess, y.local?, readFieldRef_text, base.variableOf, if_false]
  rfl

theorem readAssignment_storeElement (base : LocalName) (i : Index) (y : LocalName) :
    readAssignment owner (base.chars ++ bracketed i.chars) y.chars text =
      .ok ⟨.storeElement (base.var owner) (y.var owner), [y.var owner, base.var owner], none⟩ := by
  have hhead : (base.chars ++ bracketed i.chars).head? ≠ some '<' :=
    base.head?_append_ne (by decide) _
  have haccess : cutAccess? (base.chars ++ bracketed i.chars) = none := by
    have hbase : '<' ∉ base.chars := base.not_mem (by decide)
    have hindex : '<' ∉ i.chars := i.not_mem (by decide)
    exact cutAccess?_eq_none (by simp [bracketed, hbase, hindex])
  simp only [readAssignment, hhead, haccess, base.arrayOf?, y.local?, base.variableOf, if_false]

end Assignment

end PointsTo.Jimple
