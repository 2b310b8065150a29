import PointsTo.Proofs.Owners

/-!
The places of a statement where the class of a member is named. What a statement means does not
depend on whether the name stands there with or without quotes; only the text that is kept of a
statement that moves no pointer does.
-/
namespace PointsTo.Jimple

open PointsTo.Text

/-! ### Places -/

/-- The left side and the sign of an assignment to a variable. -/
structure Target where
  name : VariableName
  before : List Char
  behind : List Char
  blank : (before ++ behind).all isBlank = true

def Target.text (x : Target) : List Char := x.name.chars ++ x.before ++ " = ".toList ++ x.behind

/-- Where a statement has a reference to a member: a store, a load, the callee of a call, and
anything behind that, as the references that link a dynamic call. -/
inductive Site where
  | storeStatic
  | storeField (base : VariableName)
  | loadStatic (target : Target)
  | loadField (target : Target) (base : VariableName)
  | callee (target : Option Target) (kind : CallKind) (front : List Char)
      (opening : IsOpening kind front)
  | behindCallee (target : Option Target) (kind : CallKind) (front : List Char)
      (opening : IsOpening kind front) (inside more : List Char)
      (balanced : nesting '<' '>' 0 inside = some 0)

namespace Site

/-- The text of a call up to its reference. -/
def call (kind : CallKind) (front : List Char) : List Char :=
  kind.keyword.toList ++ ' ' :: front

/-- What stands in front of the bracket that opens the reference. -/
def before : Site → List Char
  | storeStatic => []
  | storeField base => base.chars ++ ['.']
  | loadStatic target => target.text
  | loadField target base => target.text ++ base.chars ++ ['.']
  | callee target kind front _ => (target.elim [] Target.text) ++ call kind front
  | behindCallee target kind front _ inside more _ =>
    (target.elim [] Target.text) ++ call kind front ++ '<' :: inside ++ '>' :: more

end Site

/-- What follows the colon behind the owner: a blank, and the type somewhere behind it. -/
def IsTyped (z : List Char) : Prop :=
  ∃ gap d rest, z = gap ++ d :: rest ∧ gap ≠ [] ∧ (∀ c ∈ gap, isBlank c = true) ∧
    isBlank d = false ∧ d ≠ ':'

/-! ### Meaning -/

/-- What a statement means, if it can be read. -/
def meaning (x : Except StatementFault Reading) : Option Reading := x.toOption.map Reading.mute

theorem toOption_bind_congr {α β : Type} {x y : Except StatementFault α}
    (h : x.toOption = y.toOption) (f : α → Except StatementFault β) :
    (x >>= f).toOption = (y >>= f).toOption := by
  cases x with
  | error fault =>
    cases y with
    | error fault' => rfl
    | ok b => cases h
  | ok a =>
    cases y with
    | error fault' => cases h
    | ok b =>
      obtain rfl : a = b := Option.some.inj h
      rfl

theorem meaning_congr {x y : Except StatementFault Reading} (h : x.toOption = y.toOption) :
    meaning x = meaning y := by
  rw [meaning, meaning, h]

variable {owner : String} {C : ClassName} {u v z : List Char}

/-! ### Sources -/

theorem readParenType?_eq_none {s : List Char} (h : s.head? ≠ some '(') :
    readParenType? s = none :=
  readParenType?.eq_2 _ fun _ heq => h (heq ▸ rfl)

/-- A member of a variable is accessed at the first bracket behind a dot. -/
theorem VariableName.cutAccess? (x : VariableName) (rest : List Char) :
    cutAccess? (x.chars ++ '.' :: '<' :: rest) = some (x.chars, '<' :: rest) :=
  cutAccess?_append x.ne_nil (x.not_mem (by decide) (by decide)) rest

theorem meaning_readSource_call {target : Variable} {kind : CallKind} {rest rest' text text' : List Char}
    (h : ∀ result, (readCall owner kind (kind.keyword.toList ++ ' ' :: rest) result).toOption =
      (readCall owner kind (kind.keyword.toList ++ ' ' :: rest') result).toOption) :
    meaning (readSource owner target (kind.keyword.toList ++ ' ' :: rest) text) =
      meaning (readSource owner target (kind.keyword.toList ++ ' ' :: rest') text') := by
  rw [readSource_keyword, readSource_keyword]
  exact meaning_congr (h (some target))

theorem meaning_readSource_loadStatic {target : Variable} {text text' : List Char}
    (hu : C.IsOwner u) (hv : C.IsOwner v) (z : List Char) :
    meaning (readSource owner target ('<' :: u ++ ':' :: z) text) =
      meaning (readSource owner target ('<' :: v ++ ':' :: z) text') := by
  have hread : ∀ w text, readSource owner target ('<' :: w ++ ':' :: z) text = do
      return ⟨.loadStatic target (← readFieldRef ('<' :: w ++ ':' :: z)), [target], none⟩ := by
    intro w text
    have hallocated : allocated? ('<' :: w ++ ':' :: z) = none := rfl
    have hcall : callKind? ('<' :: w ++ ':' :: z) = none :=
      callKind?_eq_none (not_keyword (c := '<') (by simp [firstWord]) (by decide))
    have hhead : ('<' :: w ++ ':' :: z).head? = some '<' := rfl
    simp only [readSource, hallocated, hcall, hhead, if_true]
  rw [hread, hread]
  exact meaning_congr (toOption_bind_congr (toOption_readFieldRef hu hv z) _)

/-- Nothing is allocated where a member of a variable is accessed. -/
theorem VariableName.allocated?_access (base : VariableName) (rest : List Char) :
    allocated? (base.chars ++ '.' :: '<' :: rest) = none := by
  have hnew : after? "new ".toList (base.chars ++ '.' :: '<' :: rest) = none := by
    rw [Option.eq_none_iff_forall_ne_some]
    intro behind hafter
    obtain ⟨w, hw, -⟩ := exists_of_after? (by decide) hafter
    exact base.space_not_mem (hw ▸ by simp)
  have htype : ∀ mark : List Char, '.' ∉ mark →
      (after? mark (base.chars ++ '.' :: '<' :: rest)).bind
        (fun rest => readParenType? (trimLeft rest)) = none := by
    intro mark hmark
    cases hafter : after? mark (base.chars ++ '.' :: '<' :: rest) with
    | none => rfl
    | some behind =>
      obtain ⟨w, hw, rfl⟩ := exists_of_after? hmark hafter
      have hfirst : ∀ c, (w ++ '.' :: '<' :: rest).head? = some c → c ∈ base.chars ∨ c = '.' := by
        intro c hc
        cases w with
        | nil => exact .inr (Option.some.inj hc).symm
        | cons d w =>
          obtain rfl : d = c := Option.some.inj hc
          exact .inl (hw ▸ by simp)
      have htrim : trimLeft (w ++ '.' :: '<' :: rest) = w ++ '.' :: '<' :: rest := by
        refine trimLeft_of_first fun c hc => ?_
        rcases hfirst c hc with hbase | rfl
        · exact base.not_isBlank c hbase
        · decide
      rw [Option.bind_some, htrim]
      refine readParenType?_eq_none fun hc => ?_
      rcases hfirst '(' hc with hbase | hdot
      · exact base.not_mem (by decide) (by decide) hbase
      · exact absurd hdot (by decide)
  simp only [allocated?, hnew, newArray?, newMultiArray?, htype "newarray".toList (by decide),
    htype "newmultiarray".toList (by decide), Option.map_none]

theorem meaning_readSource_loadField {target : Variable} {text text' : List Char}
    (base : VariableName) (hu : C.IsOwner u) (hv : C.IsOwner v) (z : List Char) :
    meaning (readSource owner target (base.chars ++ '.' :: ('<' :: u ++ ':' :: z)) text) =
      meaning (readSource owner target (base.chars ++ '.' :: ('<' :: v ++ ':' :: z)) text') := by
  have hread : ∀ rest text, readSource owner target (base.chars ++ '.' :: '<' :: rest) text = do
      return ⟨.loadField target (variableOf owner base.chars) (← readFieldRef ('<' :: rest)),
        [target, variableOf owner base.chars], none⟩ := by
    intro rest text
    have hdot : '.' ∈ firstWord (base.chars ++ '.' :: '<' :: rest) := by
      have hspace : ' ' ∉ base.chars ++ ['.'] := by simp [base.space_not_mem]
      simpa using mem_firstWord_append hspace (c := '.') (by simp) ('<' :: rest)
    have hcall : callKind? (base.chars ++ '.' :: '<' :: rest) = none :=
      callKind?_eq_none (not_keyword hdot (by decide))
    have hallocated := base.allocated?_access rest
    have hhead : (base.chars ++ '.' :: '<' :: rest).head? ≠ some '<' := by
      rw [List.head?_append_of_ne_nil _ base.ne_nil]
      exact head?_ne_of_not_mem (base.not_mem (by decide) (by decide))
    simp only [readSource, hallocated, hcall, hhead, base.cutAccess? rest, Option.filter_some,
      base.isLocal, if_true, if_false]
  rw [List.cons_append, List.cons_append, hread, hread]
  exact meaning_congr (toOption_bind_congr (toOption_readFieldRef hu hv z) _)

/-! ### Assignments to a variable -/

theorem arrayOf?_eq_none {s : List Char} (h : '[' ∉ s) : arrayOf? s = none := by
  have hskip : ∀ s : List Char, (skipQuote s).Sublist s := by
    intro s
    unfold skipQuote
    split
    · exact List.sublist_cons_self _ _
    · exact List.Sublist.refl _
  rw [arrayOf?]
  split
  · next index hname =>
    rw [afterName?] at hname
    split at hname
    · cases hname
    · have hsub : ('[' :: index).Sublist s := by
        rw [← Option.some.inj hname]
        exact (hskip _).trans ((List.dropWhile_sublist _).trans (hskip s))
      exact absurd (hsub.subset List.mem_cons_self) h
  · rfl

theorem readAssignment_variable (x : VariableName) (right text : List Char) :
    readAssignment owner x.chars right text =
      readSource owner (variableOf owner x.chars) right text := by
  have hhead : x.chars.head? ≠ some '<' :=
    head?_ne_of_not_mem (x.not_mem (by decide) (by decide))
  have haccess : Jimple.cutAccess? x.chars = none :=
    cutAccess?_eq_none (x.not_mem (by decide) (by decide))
  have harray : arrayOf? x.chars = none := arrayOf?_eq_none (x.not_mem (by decide) (by decide))
  simp only [readAssignment, hhead, haccess, harray, x.isLocal, if_true, if_false]

theorem Target.blank_before (x : Target) : ∀ c ∈ x.before, isBlank c = true := fun c hc =>
  List.all_eq_true.1 x.blank c (List.mem_append_left _ hc)

theorem Target.blank_behind (x : Target) : ∀ c ∈ x.behind, isBlank c = true := fun c hc =>
  List.all_eq_true.1 x.blank c (List.mem_append_right _ hc)

/-- A blank ends the name, and behind more of them comes the sign. -/
theorem Target.exists_blank (x : Target) (right : List Char) :
    ∃ b t, x.text ++ right = x.name.chars ++ b :: t ∧ isBlank b = true ∧
      trimLeft t = '=' :: ' ' :: (x.behind ++ right) := by
  have hsign : trimLeft ('=' :: ' ' :: (x.behind ++ right)) = '=' :: ' ' :: (x.behind ++ right) :=
    List.dropWhile_cons_of_neg (by decide)
  have hblank := x.blank_before
  cases hbefore : x.before with
  | nil => exact ⟨' ', '=' :: ' ' :: (x.behind ++ right), by simp [text, hbefore], by decide, hsign⟩
  | cons b gap =>
    rw [hbefore] at hblank
    refine ⟨b, gap ++ ' ' :: '=' :: ' ' :: (x.behind ++ right), by simp [text, hbefore],
      hblank b List.mem_cons_self, ?_⟩
    have hgap : ∀ c ∈ gap ++ [' '], isBlank c = true := fun c hc => by
      rcases List.mem_append.1 hc with hc | hc
      · exact hblank c (List.mem_cons_of_mem b hc)
      · rw [List.mem_singleton.1 hc]
        decide
    rw [← List.singleton_append, ← List.append_assoc, trimLeft_append hgap, hsign]

theorem Target.cut?_text (x : Target) (right : List Char) :
    cut? " = ".toList (x.text ++ right) = some (x.name.chars ++ x.before, x.behind ++ right) := by
  have hequals : '=' ∉ x.name.chars ++ x.before := by
    have hname : '=' ∉ x.name.chars := x.name.not_mem (by decide) (by decide)
    have hbefore : '=' ∉ x.before := fun hc => absurd (x.blank_before '=' hc) (by decide)
    simp [hname, hbefore]
  have hfollows := cut?_append_of_not_follows [' '] (m := ' ') (n := '=') hequals
    (s := ' ' :: '=' :: ' ' :: (x.behind ++ right)) (by simp)
  have hmark : cut? [' ', '=', ' '] (' ' :: '=' :: ' ' :: (x.behind ++ right)) =
      some ([], x.behind ++ right) := cut?_mark [' ', '=', ' '] _
  rw [hmark, Option.map_some, List.append_nil] at hfollows
  rw [← hfollows]
  congr 1
  simp [text]

/-- A variable in front of a blank is no keyword, nor is it one with the blank where that does not
end a word. -/
theorem VariableName.not_keyword_blank (x : VariableName) {b : Char} (hb : isBlank b = true)
    (t : List Char) :
    keywords.contains (String.ofList (firstWord (x.chars ++ b :: t))) = false := by
  by_cases hspace : b = ' '
  · rw [hspace, firstWord_append x.space_not_mem]
    exact x.not_keyword
  · have hmem : ' ' ∉ x.chars ++ [b] := by simp [x.space_not_mem, Ne.symm hspace]
    have hfirst := mem_firstWord_append hmem (c := b) (by simp) t
    rw [List.append_assoc, List.singleton_append] at hfirst
    refine Jimple.not_keyword hfirst ?_
    rw [Bool.eq_false_iff]
    intro halpha
    have hletter := not_isBlank_of_isWord
      (isWord_of_isAlphanum (c := b) (by simp [Char.isAlphanum, halpha]))
    rw [hletter] at hb
    cases hb

/-- What is assigned to a variable is read as a source, whatever blanks surround the sign. -/
theorem readStatement_target (x : Target) (right : List Char) :
    readStatement owner (x.text ++ right) =
      readSource owner (variableOf owner x.name.chars) (trim (x.behind ++ right))
        (x.text ++ right) := by
  obtain ⟨b, t, htext, hb, ht⟩ := x.exists_blank right
  have hword := x.name.not_keyword_blank hb t
  have hcolon : ':' ∉ x.name.chars.dropLast := fun hc =>
    x.name.not_mem (by decide) (by decide) ((List.dropLast_sublist _).subset hc)
  have hidentity : identity? (x.name.chars ++ b :: t) = none :=
    identity?_eq_none hb x.name.not_isBlank hcolon (by rw [ht]; rfl)
  have htrim : trim (x.name.chars ++ x.before) = x.name.chars := by
    rw [x.name.trimmed.trim_append x.name.ne_nil, trimRight_of_blank x.blank_before,
      List.append_nil]
  rw [← htext] at hword hidentity
  rw [readStatement_of_not_control (not_control_of_not_keyword hword), callKind?_eq_none hword]
  simp only [hidentity, x.cut?_text, htrim, readAssignment_variable]

/-! ### Statements -/

section Identity

variable {front : List Char}

/-- Where the owner of a member has no blank, the first word ends behind its colon. -/
theorem identity?_site_of_word (hfront : ∀ c ∈ front, isBlank c = false ∧ c ≠ ':')
    (hu : ∀ c ∈ u, isBlank c = false ∧ c ≠ ':') (hz : IsTyped z) :
    identity? (front ++ '<' :: (u ++ ':' :: z)) = none := by
  obtain ⟨gap, d, rest, rfl, hgap, hblank, hd, hne⟩ := hz
  obtain ⟨b, gap, rfl⟩ := List.exists_cons_of_ne_nil hgap
  have hw : ∀ c ∈ front ++ '<' :: u ++ [':'], isBlank c = false := by
    intro c hc
    simp only [List.mem_append, List.mem_cons, List.not_mem_nil, or_false] at hc
    rcases hc with (hc | rfl | hc) | rfl
    · exact (hfront c hc).1
    · decide
    · exact (hu c hc).1
    · decide
  have hlast : ':' ∉ (front ++ '<' :: u ++ [':']).dropLast := by
    have hfront' : ':' ∉ front := fun hc => (hfront ':' hc).2 rfl
    have hu' : ':' ∉ u := fun hc => (hu ':' hc).2 rfl
    rw [List.dropLast_concat]
    simp [hfront', hu']
  have hsign : after? [':', '='] (trimLeft (gap ++ d :: rest)) = none := by
    have hgap' : ∀ c ∈ gap, isBlank c = true := fun c hc => hblank c (List.mem_cons_of_mem b hc)
    rw [trimLeft_append hgap', trimLeft, List.dropWhile_cons_of_neg (by simp [hd]), after?,
      if_neg (Ne.symm hne)]
  have h := identity?_eq_none (hblank b List.mem_cons_self) hw hlast hsign
  simpa using h

/-- Where the owner of a member has a blank, the first word ends at the first of them. -/
theorem identity?_site_of_blank {first behind : List Char} {b : Char}
    (hfront : ∀ c ∈ front, isBlank c = false ∧ c ≠ ':')
    (hfirst : ∀ c ∈ first, isBlank c = false ∧ c ≠ ':') (hb : isBlank b = true)
    (hbehind : ':' ∉ behind) (hz : IsTyped z) :
    identity? (front ++ '<' :: (first ++ b :: behind ++ ':' :: z)) = none := by
  obtain ⟨gap, d, rest, rfl, hgap, hblank, hd, hne⟩ := hz
  obtain ⟨b', gap, rfl⟩ := List.exists_cons_of_ne_nil hgap
  have hw : ∀ c ∈ front ++ '<' :: first, isBlank c = false ∧ c ≠ ':' := by
    intro c hc
    rcases List.mem_append.1 hc with hc | hc
    · exact hfront c hc
    · rcases List.mem_cons.1 hc with rfl | hc
      · decide
      · exact hfirst c hc
  have hlast : ':' ∉ (front ++ '<' :: first).dropLast := fun hc =>
    (hw ':' ((List.dropLast_sublist _).subset hc)).2 rfl
  have hsign : after? [':', '='] (trimLeft (behind ++ ':' :: (b' :: gap ++ d :: rest))) = none := by
    have hnot : ':' ∉ trimLeft behind := fun hc => hbehind ((List.dropWhile_sublist _).subset hc)
    rw [trimLeft_append_cons (by decide)]
    cases htrim : trimLeft behind with
    | nil =>
      have hequals : '=' ≠ b' := by
        rintro rfl
        exact absurd (hblank '=' List.mem_cons_self) (by decide)
      rw [List.nil_append, after?, if_pos rfl, List.cons_append, after?, if_neg hequals]
    | cons c behind =>
      rw [htrim, List.mem_cons, not_or] at hnot
      rw [List.cons_append, after?, if_neg hnot.1]
  have h := identity?_eq_none hb (fun c hc => (hw c hc).1) hlast hsign
  simpa using h

/-- A statement is no identity where a class is named in front of its first colon. -/
theorem identity?_site (hfront : ∀ c ∈ front, isBlank c = false ∧ c ≠ ':') (hu : C.IsOwner u)
    (hz : IsTyped z) : identity? (front ++ '<' :: (u ++ ':' :: z)) = none := by
  have hcolon : ':' ∉ u := hu.not_mem (by decide)
  have hne : ∀ c ∈ u, c ≠ ':' := fun c hc heq => hcolon (heq ▸ hc)
  cases hbehind : u.dropWhile fun c => !isBlank c with
  | nil =>
    have hword : ∀ c ∈ u, isBlank c = false := by
      simpa [List.dropWhile_eq_nil_iff] using hbehind
    exact identity?_site_of_word hfront (fun c hc => ⟨hword c hc, hne c hc⟩) hz
  | cons b behind =>
    have hsplit : u = (u.takeWhile fun c => !isBlank c) ++ b :: behind := by
      rw [← hbehind, List.takeWhile_append_dropWhile]
    have hb : isBlank b = true := by
      have := List.head?_dropWhile_not (fun c => !isBlank c) u
      simpa [hbehind] using this
    have hfirst : ∀ c ∈ u.takeWhile fun c => !isBlank c, isBlank c = false ∧ c ≠ ':' :=
      fun c hc => ⟨by simpa using List.mem_takeWhile_imp hc,
        hne c ((List.takeWhile_sublist _).subset hc)⟩
    have hrest : ':' ∉ behind := fun hc =>
      hcolon (hsplit ▸ List.mem_append_right _ (List.mem_cons_of_mem _ hc))
    rw [hsplit]
    exact identity?_site_of_blank hfront hfirst hb hrest hz

end Identity

/-- What is stored to a member is cut off behind its reference. -/
theorem readStatement_store {front : List Char}
    (hfront : ∀ c ∈ front, isBlank c = false ∧ c ≠ ':' ∧ c ≠ '=')
    (hu : C.IsOwner u) (hz : IsTyped z) :
    readStatement owner (front ++ '<' :: (u ++ ':' :: z)) =
      match cut? " = ".toList z with
      | some (left, right) =>
        readAssignment owner (front ++ '<' :: u ++ ':' :: trimRight left) (trim right)
          (front ++ '<' :: (u ++ ':' :: z))
      | none => .ok (Reading.plain (front ++ '<' :: (u ++ ':' :: z)) []) := by
  have htext : front ++ '<' :: (u ++ ':' :: z) = front ++ '<' :: u ++ ':' :: z := by simp
  have hword : keywords.contains
      (String.ofList (firstWord (front ++ '<' :: (u ++ ':' :: z)))) = false := by
    have hspace : ' ' ∉ front ++ ['<'] := by
      have hfront' : ' ' ∉ front := fun hc => absurd (hfront ' ' hc).1 (by decide)
      simp [hfront']
    have hmem := mem_firstWord_append hspace (c := '<') (by simp) (u ++ ':' :: z)
    rw [List.append_assoc, List.singleton_append] at hmem
    exact not_keyword hmem (by decide)
  have hidentity : identity? (front ++ '<' :: (u ++ ':' :: z)) = none :=
    identity?_site (fun c hc => ⟨(hfront c hc).1, (hfront c hc).2.1⟩) hu hz
  have hequals : '=' ∉ front ++ '<' :: u := by
    have hfront' : '=' ∉ front := fun hc => (hfront '=' hc).2.2 rfl
    have hu' : '=' ∉ u := hu.not_mem (by decide)
    simp [hfront', hu']
  have hcut : cut? " = ".toList (front ++ '<' :: u ++ ':' :: z) =
      (cut? " = ".toList z).map fun halves =>
        (front ++ '<' :: u ++ ':' :: halves.1, halves.2) := by
    have hcolon : cut? [' ', '=', ' '] (':' :: z) =
        (cut? [' ', '=', ' '] z).map fun halves => (':' :: halves.1, halves.2) :=
      cut?_of_after?_eq_none rfl
    have happend := cut?_append_of_not_follows [' '] (m := ' ') (n := '=') hequals
      (s := ':' :: z) (by simp)
    rw [hcolon, Option.map_map] at happend
    exact happend
  have htrim : ∀ left, trim (front ++ '<' :: u ++ ':' :: left) =
      front ++ '<' :: u ++ ':' :: trimRight left := by
    intro left
    rw [trim_append_cons (by decide), trimLeft_of_first fun c hc => ?_]
    cases front with
    | nil =>
      obtain rfl : '<' = c := Option.some.inj hc
      decide
    | cons d front =>
      obtain rfl : d = c := Option.some.inj hc
      exact (hfront d List.mem_cons_self).1
  rw [readStatement_of_not_control (not_control_of_not_keyword hword), callKind?_eq_none hword]
  simp only [hidentity]
  rw [htext, hcut]
  cases cut? " = ".toList z with
  | none => rfl
  | some halves => simp only [Option.map_some, htrim]

theorem meaning_store {front : List Char}
    (hfront : ∀ c ∈ front, isBlank c = false ∧ c ≠ ':' ∧ c ≠ '=')
    (hu : C.IsOwner u) (hv : C.IsOwner v) (hz : IsTyped z)
    (h : ∀ left right text text',
      meaning (readAssignment owner (front ++ '<' :: u ++ ':' :: left) right text) =
        meaning (readAssignment owner (front ++ '<' :: v ++ ':' :: left) right text')) :
    meaning (readStatement owner (front ++ '<' :: (u ++ ':' :: z))) =
      meaning (readStatement owner (front ++ '<' :: (v ++ ':' :: z))) := by
  rw [readStatement_store hfront hu hz, readStatement_store hfront hv hz]
  cases cut? " = ".toList z with
  | none => rfl
  | some halves => exact h _ _ _ _

theorem meaning_readAssignment_static (hu : C.IsOwner u) (hv : C.IsOwner v)
    (left right text text' : List Char) :
    meaning (readAssignment owner ('<' :: u ++ ':' :: left) right text) =
      meaning (readAssignment owner ('<' :: v ++ ':' :: left) right text') := by
  have hhead : ∀ w : List Char, ('<' :: w ++ ':' :: left).head? = some '<' := fun w => rfl
  simp only [readAssignment, hhead, if_true]
  cases local? owner right with
  | none => rfl
  | some source => exact meaning_congr (toOption_bind_congr (toOption_readFieldRef hu hv left) _)

theorem meaning_readAssignment_field (base : VariableName) (hu : C.IsOwner u) (hv : C.IsOwner v)
    (left right text text' : List Char) :
    meaning (readAssignment owner (base.chars ++ ['.'] ++ '<' :: u ++ ':' :: left) right text) =
      meaning
        (readAssignment owner (base.chars ++ ['.'] ++ '<' :: v ++ ':' :: left) right text') := by
  have htext : ∀ w : List Char, base.chars ++ ['.'] ++ '<' :: w ++ ':' :: left =
      base.chars ++ '.' :: '<' :: (w ++ ':' :: left) := fun w => by simp
  have hhead : ∀ rest, (base.chars ++ '.' :: '<' :: rest).head? ≠ some '<' := fun rest => by
    rw [List.head?_append_of_ne_nil _ base.ne_nil]
    exact head?_ne_of_not_mem (base.not_mem (by decide) (by decide))
  simp only [htext, readAssignment, hhead, base.cutAccess?, if_false]
  cases local? owner right with
  | none => rfl
  | some source => exact meaning_congr (toOption_bind_congr (toOption_readFieldRef hu hv left) _)

/-- What stands behind a sign, without the blanks around it. -/
theorem trim_site {behind front : List Char} (hbehind : ∀ c ∈ behind, isBlank c = true)
    (hfront : ∀ c, front.head? = some c → isBlank c = false) (u z : List Char) :
    trim (behind ++ (front ++ '<' :: (u ++ ':' :: z))) =
      front ++ '<' :: (u ++ ':' :: trimRight z) := by
  have htext : behind ++ (front ++ '<' :: (u ++ ':' :: z)) =
      behind ++ (front ++ '<' :: u) ++ ':' :: z := by simp
  have hfirst : trimLeft (front ++ '<' :: u) = front ++ '<' :: u :=
    trimLeft_of_first fun c hc => by
      cases front with
      | nil =>
        obtain rfl : '<' = c := Option.some.inj hc
        decide
      | cons d front => exact hfront c hc
  rw [htext, trim_append_cons (by decide), trimLeft_append hbehind, hfirst, List.append_assoc,
    List.cons_append]

/-- What a call means, where it stands alone and where it stands behind a sign. -/
theorem meaning_call (target : Option Target) {kind : CallKind} {front : List Char}
    (h : ∀ z result,
      (readCall owner kind (Site.call kind front ++ '<' :: (u ++ ':' :: z)) result).toOption =
        (readCall owner kind (Site.call kind front ++ '<' :: (v ++ ':' :: z)) result).toOption) :
    meaning (readStatement owner
        (target.elim [] Target.text ++ Site.call kind front ++ '<' :: (u ++ ':' :: z))) =
      meaning (readStatement owner
        (target.elim [] Target.text ++ Site.call kind front ++ '<' :: (v ++ ':' :: z))) := by
  have hcall : ∀ w : List Char, Site.call kind front ++ '<' :: w =
      kind.keyword.toList ++ ' ' :: (front ++ '<' :: w) := fun w => by simp [Site.call]
  cases target with
  | none =>
    have h' := h z none
    rw [hcall, hcall] at h'
    rw [Option.elim_none, List.nil_append, hcall, hcall, readStatement_keyword,
      readStatement_keyword]
    exact meaning_congr h'
  | some x =>
    have hfirst : ∀ c, (Site.call kind front).head? = some c → isBlank c = false := by
      intro c hc
      cases kind <;> (obtain rfl := Option.some.inj hc; decide)
    rw [Option.elim_some, List.append_assoc, List.append_assoc, readStatement_target,
      readStatement_target, trim_site x.blank_behind hfirst, trim_site x.blank_behind hfirst]
    simp only [hcall]
    refine meaning_readSource_call fun result => ?_
    have h' := h (trimRight z) result
    rwa [hcall, hcall] at h'

/-- **A statement means the same whether the class that owns a member stands with or without
quotes.** -/
theorem meaning_site (owner : String) (site : Site) (hu : C.IsOwner u) (hv : C.IsOwner v)
    (hz : IsTyped z) :
    meaning (readStatement owner (site.before ++ '<' :: (u ++ ':' :: z))) =
      meaning (readStatement owner (site.before ++ '<' :: (v ++ ':' :: z))) := by
  cases site with
  | storeStatic =>
    have hfront : ∀ c ∈ ([] : List Char), isBlank c = false ∧ c ≠ ':' ∧ c ≠ '=' := by simp
    exact meaning_store hfront hu hv hz
      fun left right => meaning_readAssignment_static hu hv left right
  | storeField base =>
    refine meaning_store (fun c hc => ?_) hu hv hz
      fun left right => meaning_readAssignment_field base hu hv left right
    rcases List.mem_append.1 hc with hc | hc
    · refine ⟨base.not_isBlank c hc, ?_, ?_⟩
      · rintro rfl
        exact base.not_mem (by decide) (by decide) hc
      · rintro rfl
        exact base.not_mem (by decide) (by decide) hc
    · rw [List.mem_singleton.1 hc]
      decide
  | loadStatic target =>
    rw [Site.before, readStatement_target, readStatement_target]
    have hfirst : ∀ c, ([] : List Char).head? = some c → isBlank c = false := by simp
    have htrim : ∀ w, trim (target.behind ++ '<' :: (w ++ ':' :: z)) =
        '<' :: w ++ ':' :: trimRight z := fun w =>
      trim_site target.blank_behind hfirst w z
    rw [htrim, htrim]
    exact meaning_readSource_loadStatic hu hv (trimRight z)
  | loadField target base =>
    have hfirst : ∀ c, (base.chars ++ ['.']).head? = some c → isBlank c = false := by
      intro c hc
      rw [List.head?_append_of_ne_nil _ base.ne_nil] at hc
      exact base.not_isBlank c (List.mem_of_head? hc)
    have htext : ∀ w : List Char, base.chars ++ ['.'] ++ '<' :: (w ++ ':' :: trimRight z) =
        base.chars ++ '.' :: ('<' :: w ++ ':' :: trimRight z) := fun w => by simp
    rw [Site.before, List.append_assoc target.text, List.append_assoc target.text,
      List.append_assoc target.text, readStatement_target, readStatement_target,
      trim_site target.blank_behind hfirst, trim_site target.blank_behind hfirst, htext, htext]
    exact meaning_readSource_loadField base hu hv (trimRight z)
  | callee target kind front opening =>
    refine meaning_call target fun z result => ?_
    have h := toOption_readCall_callee owner opening hu hv z result
    simpa only [Site.call, List.append_assoc, List.cons_append] using h
  | behindCallee target kind front opening inside more balanced =>
    have hbefore : (Site.behindCallee target kind front opening inside more balanced).before =
        target.elim [] Target.text ++ Site.call kind (front ++ '<' :: inside ++ '>' :: more) := by
      simp [Site.before, Site.call]
    rw [hbefore]
    refine meaning_call target fun z result => ?_
    have h := toOption_readCall_behind owner opening balanced more hu hv z result
    simpa only [Site.call, List.append_assoc, List.cons_append] using h

end PointsTo.Jimple
