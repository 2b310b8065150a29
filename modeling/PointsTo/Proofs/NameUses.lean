import PointsTo.Proofs.Sites

/-!
The places of a statement where a variable is named. A declaration takes every simple name, but a
statement takes only an identifier for a variable, and any other name for a constant. `NameUse`
lists the uses of a name, with what the statement does where the name is a variable and where it is
not; reading the statement decides between the two by the beginning of the name alone.
-/
namespace PointsTo.Jimple

open PointsTo.Text

variable {owner : String}

/-! ### Simple names -/

theorem not_mem_of_isSimpleName {s : List Char} (h : isSimpleName s = true) {c : Char}
    (hname : isNameChar c = false) (hquote : c ≠ '\x27') : c ∉ s := by
  intro hc
  rcases mem_of_isSimpleName h c hc with hc | hc
  · rw [hc] at hname
    cases hname
  · exact hquote hc

theorem ne_nil_of_isSimpleName {s : List Char} (h : isSimpleName s = true) : s ≠ [] := by
  rintro rfl
  exact absurd h (by decide)

theorem skipQuote_append {s : List Char} (h : s ≠ []) (rest : List Char) :
    skipQuote (s ++ rest) = skipQuote s ++ rest := by
  obtain ⟨c, s, rfl⟩ := List.exists_cons_of_ne_nil h
  by_cases hc : c = '\x27'
  · rw [hc]
    rfl
  · have hskip : ∀ t, skipQuote (c :: t) = c :: t := fun t =>
      skipQuote.eq_2 _ fun rest heq => hc (List.cons.inj heq).1
    rw [List.cons_append, hskip, hskip, List.cons_append]

theorem skipQuote_eq_nil {s : List Char} (h : skipQuote s = []) : s = [] ∨ s = ['\x27'] := by
  cases s with
  | nil => exact .inl rfl
  | cons c s =>
    by_cases hc : c = '\x27'
    · subst hc
      have hs : s = [] := h
      exact .inr (by rw [hs])
    · rw [skipQuote.eq_2 _ fun rest heq => hc (List.cons.inj heq).1] at h
      cases h

/-- A simple name ends where a character follows that is none of a name. -/
theorem afterName?_append {s : List Char} (h : isSimpleName s = true) {c : Char}
    (hname : isNameChar c = false) (hquote : c ≠ '\x27') (rest : List Char) :
    afterName? (s ++ c :: rest) = some (c :: rest) := by
  have hne := ne_nil_of_isSimpleName h
  have hskip : skipQuote (c :: rest) = c :: rest :=
    skipQuote.eq_2 _ fun rest heq => hquote (List.cons.inj heq).1
  rw [isSimpleName, afterName?, beq_iff_eq] at h
  rw [afterName?, skipQuote_append hne]
  generalize skipQuote s = s at h
  split at h
  · cases h
  next hrun =>
  have hall : ∀ d ∈ s.takeWhile isNameChar, isNameChar d = true :=
    fun d hd => List.mem_takeWhile_imp hd
  have hsplit : s.takeWhile isNameChar ++ s.dropWhile isNameChar = s :=
    List.takeWhile_append_dropWhile
  rcases skipQuote_eq_nil (Option.some.inj h) with hend | hend
  · rw [hend, List.append_nil] at hsplit
    rw [hsplit] at hall hrun
    rw [takeWhile_run hall hname, dropWhile_run hall hname, if_neg hrun, hskip]
  · have htext : s ++ c :: rest = s.takeWhile isNameChar ++ '\x27' :: c :: rest := by
      rw [hend] at hsplit
      conv_lhs => rw [← hsplit]
      simp
    rw [htext, takeWhile_run hall (by decide), dropWhile_run hall (by decide), if_neg hrun]
    rfl

/-- A name as it may be declared, with or without quotes: any simple name but the null constant and
the keywords. -/
structure DeclarableName where
  chars : List Char
  valid : (isSimpleName chars && chars ≠ "null".toList &&
    !keywords.contains (String.ofList chars)) = true

namespace DeclarableName

variable (x : DeclarableName)

theorem isSimpleName : isSimpleName x.chars = true := by
  have h := x.valid
  rw [Bool.and_eq_true, Bool.and_eq_true] at h
  exact h.1.1

theorem not_keyword : keywords.contains (String.ofList x.chars) = false := by
  have h := x.valid
  rw [Bool.and_eq_true, Bool.not_eq_true'] at h
  exact h.2

theorem isLocal : isLocal x.chars = isIdentifier x.chars := by
  have h := x.valid
  rw [Bool.and_eq_true, Bool.and_eq_true] at h
  rw [Jimple.isLocal, h.1.2, Bool.true_and]

theorem local? (owner : String) : local? owner x.chars =
    if isIdentifier x.chars then some (variableOf owner x.chars) else none := by
  rw [Jimple.local?, x.isLocal]

theorem ne_nil : x.chars ≠ [] := ne_nil_of_isSimpleName x.isSimpleName

theorem not_mem {c : Char} (hname : isNameChar c = false) (hquote : c ≠ '\x27') : c ∉ x.chars :=
  not_mem_of_isSimpleName x.isSimpleName hname hquote

theorem space_not_mem : ' ' ∉ x.chars := x.not_mem (by decide) (by decide)

theorem not_isBlank : ∀ c ∈ x.chars, isBlank c = false := by
  intro c hc
  rcases mem_of_isSimpleName x.isSimpleName c hc with h | rfl
  · exact not_isBlank_of_isNameChar h
  · decide

theorem trimmed : Trimmed x.chars := .of_not_blank x.not_isBlank

theorem head?_ne {c : Char} (hname : isNameChar c = false) (hquote : c ≠ '\x27') :
    x.chars.head? ≠ some c :=
  head?_ne_of_not_mem (x.not_mem hname hquote)

theorem isArgument : IsArgument x.chars := by
  have hquote := x.not_mem (c := '\x22') (by decide) (by decide)
  obtain ⟨houtsides, hclosed⟩ := outsides_of_not_mem hquote
  refine ⟨x.ne_nil, x.trimmed, hclosed, ?_, ?_⟩
  · rw [houtsides]
    exact x.not_mem (by decide) (by decide)
  · rw [houtsides]
    exact nesting_of_not_mem (x.not_mem (by decide) (by decide)) (x.not_mem (by decide) (by decide))

end DeclarableName

/-! ### Assignments of a name -/

/-- A role stands behind its sign to the end of the statement, but for a type without blanks. -/
theorem exists_of_roleOf? {s : List Char} {role : Role ⊕ List Char} (h : roleOf? s = some role) :
    ∃ mark rest, s = '@' :: mark ++ rest ∧ '=' ∉ mark ∧ endsRole rest = true := by
  have hends : ∀ mark : List Char, ((after? mark s).map endsRole).getD false = true →
      ∃ rest, s = mark ++ rest ∧ endsRole rest = true := by
    intro mark hmark
    cases hafter : after? mark s with
    | none =>
      rw [hafter] at hmark
      cases hmark
    | some rest =>
      rw [hafter] at hmark
      exact ⟨rest, after?_eq_some.1 hafter, hmark⟩
  unfold roleOf? at h
  split at h
  · next hthis =>
    obtain ⟨rest, rfl, hrest⟩ := hends _ hthis
    exact ⟨"this".toList, rest, rfl, by decide, hrest⟩
  split at h
  · next hcaught =>
    obtain ⟨rest, rfl, hrest⟩ := hends _ hcaught
    exact ⟨"caughtexception".toList, rest, rfl, by decide, hrest⟩
  split at h
  · cases h
  next rest hafter =>
  dsimp only at h
  split at h
  · next hrest =>
    rw [Bool.and_eq_true] at hrest
    refine ⟨"parameter".toList ++ rest.takeWhile isDigit, rest.dropWhile isDigit, ?_, ?_, hrest.2⟩
    · rw [after?_eq_some.1 hafter, List.cons_append, List.append_assoc,
        List.takeWhile_append_dropWhile]
      rfl
    · rw [List.mem_append, not_or]
      exact ⟨by decide, fun hc => absurd (List.mem_takeWhile_imp hc) (by decide)⟩
  · cases h

theorem endsRole_sign (front behind : List Char) :
    endsRole (front ++ '=' :: ' ' :: behind) = false := by
  cases front with
  | nil => rfl
  | cons c front =>
    by_cases hc : c = ':'
    · subst hc
      have htype : (front ++ '=' :: ' ' :: behind).dropWhile isBlank =
          trimLeft front ++ '=' :: ' ' :: behind :=
        trimLeft_append_cons (by decide) front (' ' :: behind)
      have hblank : isBlank ' ' = true := by decide
      rw [List.cons_append, endsRole, htype]
      simp [hblank]
    · refine endsRole.eq_3 _ (by simp) fun rest heq => hc ?_
      exact (List.cons.inj heq).1

/-- No role is named in front of a sign of an assignment and a name. -/
theorem roleOf?_eq_none {s left right : List Char} (hname : '@' ∉ right)
    (hs : s <:+ left ++ " = ".toList ++ right) : roleOf? s = none := by
  rw [Option.eq_none_iff_forall_ne_some]
  intro role hrole
  obtain ⟨mark, rest, rfl, hmark, hends⟩ := exists_of_roleOf? hrole
  obtain ⟨before, hbefore⟩ := hs
  rw [List.append_assoc, List.append_eq_append_iff] at hbefore
  obtain ⟨front, -, htext⟩ | ⟨front, -, htext⟩ := hbefore
  · have hsign : '@' :: mark ++ rest = front ++ [' '] ++ '=' :: ' ' :: right := by
      rw [htext]
      simp
    rw [List.append_eq_append_iff] at hsign
    obtain ⟨gap, -, rfl⟩ | ⟨gap, hgap, hrest⟩ := hsign
    · rw [endsRole_sign] at hends
      cases hends
    · cases gap with
      | nil =>
        rw [← hrest.trans (List.nil_append rest)] at hends
        exact absurd hends (by rw [← List.nil_append ('=' :: _), endsRole_sign]; decide)
      | cons c gap =>
        obtain rfl : '=' = c := (List.cons.inj hrest).1
        have hmem : '=' ∈ '@' :: mark := by
          rw [hgap]
          simp
        rcases List.mem_cons.1 hmem with hc | hc
        · exact absurd hc (by decide)
        · exact hmark hc
  · have hmem : '@' ∈ " = ".toList ++ right := by
      rw [htext]
      simp
    rcases List.mem_append.1 hmem with hc | hc
    · exact absurd hc (by decide)
    · exact hname hc

/-- An assignment whose right side is a name is no identity. -/
theorem identity?_assignment (left : List Char) {right : List Char} (hname : '@' ∉ right) :
    identity? (Written.assignment left right) = none := by
  rw [identity?, List.findSome?_eq_none_iff]
  intro n hn
  rw [Option.bind_eq_none_iff]
  intro rest hafter
  have hsuffix : rest.dropWhile isBlank <:+ Written.assignment left right := by
    have hdrop : ∀ s : List Char, s.dropWhile isBlank <:+ s := fun s =>
      List.dropWhile_suffix isBlank
    have hrest : rest <:+ ((Written.assignment left right).drop (n + 1)).dropWhile isBlank :=
      ⟨[':', '='], (after?_eq_some.1 hafter).symm⟩
    exact (hdrop rest).trans (hrest.trans ((hdrop _).trans (List.drop_suffix _ _)))
  rw [roleOf?_eq_none hname hsuffix]
  rfl

theorem after?_append_of_length_le {mark s : List Char} (h : mark.length ≤ s.length)
    (t : List Char) : after? mark (s ++ t) = (after? mark s).map (· ++ t) := by
  induction mark generalizing s with
  | nil => rfl
  | cons m mark ih =>
    cases s with
    | nil => exact absurd h (by simp)
    | cons c s =>
      rw [List.cons_append, after?, after?]
      split
      · exact ih (by simpa using h)
      · rfl

/-- A statement is cut at its first sign. -/
theorem cut?_assignment {left : List Char} (h : cut? " = ".toList (left ++ " =".toList) = none)
    (right : List Char) :
    cut? " = ".toList (Written.assignment left right) = some (left, right) := by
  induction left with
  | nil => exact cut?_mark " = ".toList right
  | cons c left ih =>
    have hlength : " = ".toList.length ≤ (c :: left ++ " =".toList).length := by
      simp
    have hsplit : Written.assignment (c :: left) right =
        c :: left ++ " =".toList ++ ' ' :: right := by
      simp [Written.assignment]
    rw [List.cons_append, cut?] at h
    split at h
    · cases h
    next hnone =>
    have hafter : after? " = ".toList (c :: Written.assignment left right) = none := by
      have happend := after?_append_of_length_le hlength (' ' :: right)
      rw [← hsplit, List.cons_append, hnone] at happend
      exact happend
    have htail : cut? " = ".toList (left ++ " =".toList) = none := by
      simpa using h
    have hcons : Written.assignment (c :: left) right = c :: Written.assignment left right := rfl
    rw [hcons, cut?_of_after?_eq_none hafter, ih htail]
    rfl

theorem firstWord_behind (w rest : List Char) : firstWord (w ++ ' ' :: rest) = firstWord w := by
  induction w with
  | nil => rfl
  | cons c w ih =>
    rw [firstWord] at ih ⊢
    rw [firstWord, List.cons_append, List.takeWhile_cons, List.takeWhile_cons, ih, firstWord]

theorem firstWord_assignment (left right : List Char) :
    firstWord (Written.assignment left right) = firstWord left := by
  have htext : Written.assignment left right = left ++ ' ' :: ('=' :: ' ' :: right) := by
    simp [Written.assignment]
  rw [htext, firstWord_behind]

/-- The left side of an assignment: no keyword begins it, and no sign stands in it. -/
structure IsLeftSide (left : List Char) : Prop where
  trimmed : Trimmed left
  not_keyword : keywords.contains (String.ofList (firstWord left)) = false
  unsigned : cut? " = ".toList (left ++ " =".toList) = none

theorem DeclarableName.isLeftSide (x : DeclarableName) : IsLeftSide x.chars where
  trimmed := x.trimmed
  not_keyword := by
    rw [firstWord_self x.space_not_mem]
    exact x.not_keyword
  unsigned := by
    have hcut : cut? [' ', '=', ' '] (x.chars ++ [' ', '=']) = none := by
      rw [cut?_append x.space_not_mem]
      rfl
    exact hcut

theorem IsLeftSide.firstWord {left : List Char} (h : IsLeftSide left) (right : List Char) :
    keywords.contains (String.ofList (firstWord (Written.assignment left right))) = false := by
  rw [firstWord_assignment]
  exact h.not_keyword

/-- An assignment of a name is read by its two sides. -/
theorem readStatement_assignment {left : List Char} (h : IsLeftSide left) (x : DeclarableName) :
    readStatement owner (Written.assignment left x.chars) =
      readAssignment owner left x.chars (Written.assignment left x.chars) := by
  have hword := h.firstWord x.chars
  have hat : '@' ∉ x.chars := x.not_mem (by decide) (by decide)
  rw [readStatement_of_not_control (not_control_of_not_keyword hword), callKind?_eq_none hword,
    identity?_assignment left hat, cut?_assignment h.unsigned]
  dsimp only
  rw [h.trimmed.trim, x.trimmed.trim]

/-! ### Sources and targets -/

/-- A name that is assigned is copied if it is an identifier, and moves no pointer otherwise. -/
theorem readSource_name (x : DeclarableName) (target : Variable) (text : List Char) :
    readSource owner target x.chars text =
      if isIdentifier x.chars then
        .ok ⟨.copy target (variableOf owner x.chars), [target, variableOf owner x.chars], none⟩
      else .ok (Reading.plain text [target]) := by
  have hparen : '(' ∉ x.chars := x.not_mem (by decide) (by decide)
  have hallocated : allocated? x.chars = none :=
    allocated?_eq_none (not_startsWith_of_not_mem (by decide) x.space_not_mem) hparen
  have hcall : callKind? x.chars = none := callKind?_eq_none x.isLeftSide.not_keyword
  have hhead : x.chars.head? ≠ some '<' := x.head?_ne (by decide) (by decide)
  have haccess : cutAccess? x.chars = none :=
    cutAccess?_eq_none (x.not_mem (by decide) (by decide))
  have harray : arrayOf? x.chars = none := arrayOf?_eq_none (x.not_mem (by decide) (by decide))
  have htype : readParenType? x.chars = none :=
    readParenType?_eq_none (x.head?_ne (by decide) (by decide))
  simp only [readSource, hallocated, hcall, hhead, haccess, harray, castOperand?, htype,
    Option.filter_none, Option.getD_none, if_false, x.local?]
  cases isIdentifier x.chars <;> rfl

/-- A name may be assigned to if it is an identifier. -/
theorem readAssignment_name (x : DeclarableName) (right text : List Char) :
    readAssignment owner x.chars right text =
      if isIdentifier x.chars then readSource owner (variableOf owner x.chars) right text
      else .error (.badTarget (String.ofList x.chars)) := by
  have hhead : x.chars.head? ≠ some '<' := x.head?_ne (by decide) (by decide)
  have haccess : cutAccess? x.chars = none :=
    cutAccess?_eq_none (x.not_mem (by decide) (by decide))
  have harray : arrayOf? x.chars = none := arrayOf?_eq_none (x.not_mem (by decide) (by decide))
  simp only [readAssignment, hhead, haccess, harray, x.isLocal, if_false]

theorem readStatement_copy (x y : DeclarableName) :
    readStatement owner (Written.assignment x.chars y.chars) =
      if isIdentifier x.chars then
        if isIdentifier y.chars then
          .ok ⟨.copy (variableOf owner x.chars) (variableOf owner y.chars),
            [variableOf owner x.chars, variableOf owner y.chars], none⟩
        else .ok (Reading.plain (Written.assignment x.chars y.chars) [variableOf owner x.chars])
      else .error (.badTarget (String.ofList x.chars)) := by
  rw [readStatement_assignment x.isLeftSide y, readAssignment_name, readSource_name]

/-! ### Stores -/

/-- The places where a value is stored, with what storing a variable there is: a field of a class, a
field of an object, an element of an array. -/
inductive StorePlace (owner : String) : List Char → (Variable → Instruction) → Prop
  | static {ref : List Char} {f : FieldRef} (opens : ref.head? = some '<')
      (legible : readFieldRef ref = .ok f) : StorePlace owner ref (.storeStatic f)
  | field {base ref : List Char} {f : FieldRef} (simple : isSimpleName base = true)
      (opens : ref.head? = some '<') (legible : readFieldRef ref = .ok f) :
      StorePlace owner (base ++ '.' :: ref) (.storeField (variableOf owner base) f)
  | element {base index : List Char} (simple : isSimpleName base = true) (closed : ']' ∉ index)
      (bare : '<' ∉ index) :
      StorePlace owner (base ++ bracketed index) (.storeElement (variableOf owner base))

/-- The first word of a place has a character that no keyword has. -/
theorem StorePlace.not_keyword {place : List Char} {store : Variable → Instruction}
    (h : StorePlace owner place store) :
    keywords.contains (String.ofList (firstWord place)) = false := by
  have hbase : ∀ {base : List Char} {c : Char} (rest : List Char), isSimpleName base = true →
      c ≠ ' ' → c.isAlpha = false →
      keywords.contains (String.ofList (firstWord (base ++ c :: rest))) = false := by
    intro base c rest simple hspace halpha
    have hword : ' ' ∉ base ++ [c] := by
      have hblank := not_mem_of_isSimpleName simple (c := ' ') (by decide) (by decide)
      simp [hblank, Ne.symm hspace]
    have hmem := mem_firstWord_append hword (c := c) (by simp) rest
    rw [List.append_assoc, List.singleton_append] at hmem
    exact Jimple.not_keyword hmem halpha
  cases h with
  | static opens =>
    obtain ⟨rest, rfl⟩ := List.head?_eq_some_iff.1 opens
    exact Jimple.not_keyword (c := '<') (by simp [firstWord]) (by decide)
  | field simple => exact hbase _ simple (by decide) (by decide)
  | element simple => exact hbase _ simple (by decide) (by decide)

theorem StorePlace.ne_nil {place : List Char} {store : Variable → Instruction}
    (h : StorePlace owner place store) : place ≠ [] := by
  cases h with
  | static opens =>
    obtain ⟨rest, rfl⟩ := List.head?_eq_some_iff.1 opens
    simp
  | field => simp
  | element => simp [bracketed]

/-- A name that is stored is the variable that is stored at the place if it is an identifier, and
moves no pointer otherwise. -/
theorem StorePlace.readAssignment {place : List Char} {store : Variable → Instruction}
    (h : StorePlace owner place store) : ∃ bases : List Variable, ∀ (x : DeclarableName) text,
      readAssignment owner place x.chars text =
        if isIdentifier x.chars then
          .ok ⟨store (variableOf owner x.chars), variableOf owner x.chars :: bases, none⟩
        else .ok (Reading.plain text []) := by
  have hhead : ∀ {base : List Char} (rest : List Char), isSimpleName base = true →
      (base ++ rest).head? ≠ some '<' := by
    intro base rest simple
    rw [List.head?_append_of_ne_nil _ (ne_nil_of_isSimpleName simple)]
    exact head?_ne_of_not_mem (not_mem_of_isSimpleName simple (by decide) (by decide))
  cases h with
  | @static _ f opens legible =>
    refine ⟨[], fun x text => ?_⟩
    simp only [Jimple.readAssignment, opens, if_true, legible, x.local?]
    cases isIdentifier x.chars <;> rfl
  | @field base ref f simple opens legible =>
    refine ⟨[variableOf owner base], fun x text => ?_⟩
    obtain ⟨rest, rfl⟩ := List.head?_eq_some_iff.1 opens
    have haccess := cutAccess?_append (ne_nil_of_isSimpleName simple)
      (not_mem_of_isSimpleName simple (by decide) (by decide)) rest
    simp only [Jimple.readAssignment, hhead _ simple, haccess, if_false, legible, x.local?]
    cases isIdentifier x.chars <;> rfl
  | @element base index simple closed bare =>
    refine ⟨[variableOf owner base], fun x text => ?_⟩
    have haccess : cutAccess? (base ++ bracketed index) = none := by
      have hbase := not_mem_of_isSimpleName simple (c := '<') (by decide) (by decide)
      exact cutAccess?_eq_none (by simp [bracketed, hbase, bare])
    have hname : afterName? (base ++ bracketed index) = some ('[' :: (index ++ [']'])) :=
      afterName?_append simple (by decide) (by decide) _
    simp only [Jimple.readAssignment, hhead _ simple, haccess, arrayOf?_bracketed hname closed,
      if_false, x.local?]
    cases isIdentifier x.chars <;> rfl

/-! ### Calls -/

/-- A call up to the parenthesis that opens its arguments: the keyword, what stands in front of the
reference, and the reference. `before` is what the reader takes for the receiver or for the name of
a dynamic call. -/
structure OpenCall where
  kind : CallKind
  front : List Char
  inside : List Char
  before : List Char
  callee : MethodRef
  opening : ∀ rest, splitCall kind (trimLeft front ++ '<' :: rest) = .ok (before, '<' :: rest)
  balanced : nesting '<' '>' 0 inside = some 0
  legible : readMethodRef (if kind = .dynamic then dynamicSignature before ('<' :: inside ++ ['>'])
    else '<' :: inside ++ ['>']) = .ok callee

theorem readArguments_text {args : List (List Char)} (h : ∀ s ∈ args, IsArgument s)
    (behind : List Char) :
    readArguments owner ('(' :: joinArguments args ++ ')' :: behind) =
      some (args.map (local? owner)) := by
  have htake : ('(' :: joinArguments args ++ ')' :: behind).take
      ((joinArguments args).length + 2 - 1) = '(' :: joinArguments args := by
    have hlength : (joinArguments args).length + 2 - 1 = ('(' :: joinArguments args).length := by
      simp
    rw [hlength, List.take_left]
  rw [readArguments, parenLength?_joinArguments h, Option.map_some, htake, List.drop_succ_cons,
    List.drop_zero, splitArgs_joinArguments h]

namespace OpenCall

variable (c : OpenCall)

/-- The call with its arguments and what stands behind them. -/
def text (args : List (List Char)) (behind : List Char) : List Char :=
  c.kind.keyword.toList ++ ' ' ::
    (c.front ++ '<' :: (c.inside ++ '>' :: ('(' :: joinArguments args ++ ')' :: behind)))

def call (owner : String) (args : List (Option Variable)) (result : Option Variable) : Call where
  kind := c.kind
  callee := c.callee
  receiver := if hasReceiver c.kind then some (variableOf owner c.before) else none
  args
  result

theorem trim_text (args : List (List Char)) (behind : List Char) :
    trim (c.text args behind) = c.text args (trimRight behind) := by
  have htext : ∀ behind, c.text args behind = (c.kind.keyword.toList ++ ' ' ::
      (c.front ++ '<' :: (c.inside ++ '>' :: '(' :: joinArguments args))) ++ ')' :: behind := by
    intro behind
    simp [text]
  rw [htext, htext, trim_append_cons (by decide)]
  congr 1
  cases c.kind <;> rfl

/-- **The arguments of a call are read one by one**, each as a variable or as a constant. -/
theorem readCall_text (owner : String) {args : List (List Char)} (h : ∀ s ∈ args, IsArgument s)
    (behind : List Char) (result : Option Variable) : ∃ others : List Variable,
      readCall owner c.kind (c.text args behind) result =
        .ok ⟨.call (c.call owner (args.map (local? owner)) result),
          others ++ (args.map (local? owner)).filterMap id, none⟩ := by
  let rest := c.inside ++ '>' :: ('(' :: joinArguments args ++ ')' :: trimRight behind)
  have hsplit : splitCall c.kind (trim ((c.text args behind).drop
      (firstWord (c.text args behind)).length)) = .ok (c.before, '<' :: rest) := by
    have hrest : trimRight (c.inside ++ '>' :: ('(' :: joinArguments args ++ ')' :: behind)) =
        rest := by
      have happend := trimRight_append_cons (c := ')') (by decide)
        (c.inside ++ '>' :: '(' :: joinArguments args) behind
      simpa [rest] using happend
    rw [text, firstWord_append (space_not_mem_keyword c.kind), List.drop_left, ← List.cons_append,
      trim_append_cons (by decide), trimLeft_space, hrest]
    exact c.opening rest
  have hangle : angleEnd? ('<' :: rest) 0 = some (c.inside.length + 2) :=
    angleEnd?_bracketed c.balanced _
  have hreference : '<' :: rest = ('<' :: c.inside ++ ['>']) ++
      ('(' :: joinArguments args ++ ')' :: trimRight behind) := by
    simp [rest]
  have hlength : ('<' :: c.inside ++ ['>']).length = c.inside.length + 2 := by simp
  have htake : ('<' :: rest).take (c.inside.length + 2) = '<' :: c.inside ++ ['>'] := by
    rw [hreference, ← hlength, List.take_left]
  have hdrop : ('<' :: rest).drop (c.inside.length + 2) =
      '(' :: joinArguments args ++ ')' :: trimRight behind := by
    rw [hreference, ← hlength, List.drop_left]
  have hread := @toOption_readCall owner _ _ _ _ hsplit result
  rw [hangle, Option.bind_some, htake, c.legible, hdrop, readArguments_text h] at hread
  refine ⟨result.toList ++ (c.call owner (args.map (local? owner)) result).receiver.toList, ?_⟩
  cases hcall : readCall owner c.kind (c.text args behind) result with
  | error fault =>
    rw [hcall] at hread
    cases hread
  | ok r =>
    rw [hcall] at hread
    exact congrArg Except.ok (Option.some.inj hread)

theorem trimmed_text (args : List (List Char)) {behind : List Char}
    (ends : trimRight behind = behind) : Trimmed (c.text args behind) := by
  have h := trimmed_trim (c.text args behind)
  rwa [c.trim_text, ends] at h

/-- The statement of a call, with a target or without one. -/
def statement (target : Option VariableName) (args : List (List Char)) (behind : List Char) :
    List Char :=
  match target with
  | none => c.text args behind
  | some a => Written.assignment a.chars (c.text args behind)

theorem readStatement_statement (owner : String) (target : Option VariableName)
    {args : List (List Char)}
    (h : ∀ s ∈ args, IsArgument s) {behind : List Char} (ends : trimRight behind = behind) :
    ∃ others : List Variable, readStatement owner (c.statement target args behind) =
      .ok ⟨.call (c.call owner (args.map (local? owner))
          (target.map fun a => variableOf owner a.chars)),
        others ++ (args.map (local? owner)).filterMap id, none⟩ := by
  obtain ⟨others, hread⟩ := c.readCall_text owner h behind
    (target.map fun a => variableOf owner a.chars)
  refine ⟨others, hread ▸ ?_⟩
  cases target with
  | none => exact readStatement_keyword _
  | some a =>
    let x : Target := ⟨a, [], [], rfl⟩
    have htext : c.statement (some a) args behind = x.text ++ c.text args behind := by
      simp [statement, Written.assignment, Target.text, x]
    rw [htext, readStatement_target, List.nil_append, c.trim_text, ends]
    exact readSource_keyword _ _ _

end OpenCall

/-! ### Uses -/

/-- The uses of a name in a statement: it is copied, assigned to, returned, stored, or an argument
of a call. With each goes what the statement does where the name is a variable, and what it does,
unless it is refused, where the name is none. -/
inductive NameUse (owner : String) (x : DeclarableName) :
    List Char → Instruction → Option Instruction → Prop
  | copied (a : DeclarableName) (known : isIdentifier a.chars = true) :
      NameUse owner x (Written.assignment a.chars x.chars)
        (.copy (variableOf owner a.chars) (variableOf owner x.chars))
        (some (.other (String.ofList (Written.assignment a.chars x.chars))))
  | assigned (a : DeclarableName) (known : isIdentifier a.chars = true) :
      NameUse owner x (Written.assignment x.chars a.chars)
        (.copy (variableOf owner x.chars) (variableOf owner a.chars)) none
  | returned :
      NameUse owner x ("return ".toList ++ x.chars) (.ret (some (variableOf owner x.chars)))
        (some (.ret none))
  | stored {place : List Char} {store : Variable → Instruction} (h : StorePlace owner place store)
      (trimmed : Trimmed place) (unsigned : cut? " = ".toList (place ++ " =".toList) = none) :
      NameUse owner x (Written.assignment place x.chars) (store (variableOf owner x.chars))
        (some (.other (String.ofList (Written.assignment place x.chars))))
  | passed (c : OpenCall) (target : Option VariableName) (first last : List (List Char))
      (arguments : ∀ s ∈ first ++ last, IsArgument s) (behind : List Char)
      (ends : trimRight behind = behind) :
      NameUse owner x (c.statement target (first ++ x.chars :: last) behind)
        (.call (c.call owner
          (first.map (local? owner) ++ some (variableOf owner x.chars) :: last.map (local? owner))
          (target.map fun a => variableOf owner a.chars)))
        (some (.call (c.call owner
          (first.map (local? owner) ++ none :: last.map (local? owner))
          (target.map fun a => variableOf owner a.chars))))

namespace NameUse

variable {x : DeclarableName} {text : List Char} {used : Instruction}
  {otherwise : Option Instruction}

theorem isArgument_passed {first last : List (List Char)}
    (arguments : ∀ s ∈ first ++ last, IsArgument s) :
    ∀ s ∈ first ++ x.chars :: last, IsArgument s := by
  intro s hs
  rcases List.mem_append.1 hs with hs | hs
  · exact arguments s (List.mem_append_left _ hs)
  · rcases List.mem_cons.1 hs with rfl | hs
    · exact x.isArgument
    · exact arguments s (List.mem_append_right _ hs)

/-- **An identifier is a variable wherever it is used**, and its statement mentions it. -/
theorem read_variable (h : NameUse owner x text used otherwise)
    (identifier : isIdentifier x.chars = true) : ∃ mentions,
      readStatement owner text = .ok ⟨used, mentions, none⟩ ∧
        variableOf owner x.chars ∈ mentions := by
  have hlocal := x.local? owner
  rw [if_pos identifier] at hlocal
  cases h with
  | copied a known =>
    rw [readStatement_copy, if_pos known, if_pos identifier]
    exact ⟨_, rfl, by simp⟩
  | assigned a known =>
    rw [readStatement_copy, if_pos identifier, if_pos known]
    exact ⟨_, rfl, by simp⟩
  | returned =>
    rw [readStatement_value x.trimmed, hlocal]
    exact ⟨_, rfl, by simp⟩
  | @stored place store hplace trimmed unsigned =>
    obtain ⟨bases, hstore⟩ := hplace.readAssignment
    rw [readStatement_assignment ⟨trimmed, hplace.not_keyword, unsigned⟩ x, hstore,
      if_pos identifier]
    exact ⟨_, rfl, by simp⟩
  | passed c target first last arguments behind ends =>
    obtain ⟨others, hread⟩ := c.readStatement_statement owner target
      (isArgument_passed (x := x) arguments) ends
    rw [List.map_append, List.map_cons, hlocal] at hread
    exact ⟨_, hread, by simp⟩

/-- **Any other name is a constant wherever it is used.** -/
theorem read_constant (h : NameUse owner x text used otherwise)
    (constant : isIdentifier x.chars = false) :
    (readStatement owner text).toOption.map Reading.instruction = otherwise := by
  have hconstant : ¬isIdentifier x.chars = true := by simp [constant]
  have hlocal := x.local? owner
  rw [if_neg hconstant] at hlocal
  cases h with
  | copied a known =>
    rw [readStatement_copy, if_pos known, if_neg hconstant]
    rfl
  | assigned a known =>
    rw [readStatement_copy, if_neg hconstant]
    rfl
  | returned =>
    rw [readStatement_value x.trimmed, hlocal]
    rfl
  | @stored place store hplace trimmed unsigned =>
    obtain ⟨bases, hstore⟩ := hplace.readAssignment
    rw [readStatement_assignment ⟨trimmed, hplace.not_keyword, unsigned⟩ x, hstore,
      if_neg hconstant]
    rfl
  | passed c target first last arguments behind ends =>
    obtain ⟨others, hread⟩ := c.readStatement_statement owner target
      (isArgument_passed (x := x) arguments) ends
    rw [hread, List.map_append, List.map_cons, hlocal]
    rfl

/-- The two differ. -/
theorem otherwise_ne (h : NameUse owner x text used otherwise) : otherwise ≠ some used := by
  cases h with
  | copied => simp
  | assigned => simp
  | returned => simp
  | stored hplace => cases hplace <;> simp
  | passed => simp [OpenCall.call]

end NameUse

end PointsTo.Jimple
