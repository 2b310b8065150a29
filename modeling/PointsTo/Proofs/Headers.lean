import PointsTo.Proofs.Owners

/-!
The words of a class header. A header is cut into words at its blanks and commas, so a name in it is
one word whatever stands around it, and it says the same with or without quotes, unless it is one of
the words that the reader looks for.
-/
namespace PointsTo.Jimple

open PointsTo.Text

/-! ### Words -/

theorem headerWords_append_cons {b : Char} (hb : isBlank b = true) (s t : List Char) :
    headerWords (s ++ b :: t) = headerWords s ++ headerWords t := by
  have hcomma : b ≠ ',' := by
    rintro rfl
    exact absurd hb (by decide)
  rw [headerWords, List.flatMap_append, List.flatMap_cons, if_neg hcomma]
  exact words_append_cons hb _ _

theorem headerWords_append_comma (s t : List Char) :
    headerWords (s ++ ',' :: t) = headerWords s ++ [','] :: headerWords t := by
  have hcomma := words_append_cons (b := ' ') (by decide) [','] (t.flatMap fun c =>
    if c = ',' then [' ', ',', ' '] else [c])
  rw [headerWords, List.flatMap_append, List.flatMap_cons, if_pos rfl]
  exact (words_append_cons (b := ' ') (by decide) _ _).trans (congrArg _ hcomma)

theorem headerWords_of_not_blank {w : List Char} (hne : w ≠ []) (h : ∀ c ∈ w, isBlank c = false)
    (hcomma : ',' ∉ w) : headerWords w = [w] := by
  have hsame : (w.flatMap fun c => if c = ',' then [' ', ',', ' '] else [c]) = w := by
    have hmap : ∀ c ∈ w, (if c = ',' then [' ', ',', ' '] else [c]) = [c] := by
      intro c hc
      rw [if_neg]
      rintro rfl
      exact hcomma hc
    rw [List.flatMap_congr hmap, List.flatMap_singleton']
  rw [headerWords, hsame, words_of_not_blank hne h]

/-- A blank or a comma, which ends a word of a header. -/
def isSeparator (c : Char) : Bool := isBlank c || c == ','

/-- Behind a separator the words begin anew. -/
theorem headerWords_append_separator {c : Char} (hc : isSeparator c = true) (s t : List Char) :
    headerWords (s ++ c :: t) = headerWords (s ++ [c]) ++ headerWords t := by
  rcases Bool.or_eq_true_iff.1 hc with hblank | hcomma
  · rw [headerWords_append_cons hblank, headerWords_append_cons hblank]
    simp [headerWords, words, splitWhere]
  · obtain rfl := eq_of_beq hcomma
    rw [headerWords_append_comma, headerWords_append_comma]
    simp [headerWords, words, splitWhere]

/-- Before a separator a word ends. -/
theorem headerWords_before_separator {c : Char} (hc : isSeparator c = true) (s t : List Char) :
    headerWords (s ++ c :: t) = headerWords s ++ headerWords (c :: t) := by
  rcases Bool.or_eq_true_iff.1 hc with hblank | hcomma
  · have hfirst := headerWords_append_cons hblank [] t
    rw [headerWords_append_cons hblank]
    exact congrArg (headerWords s ++ ·) hfirst.symm
  · obtain rfl := eq_of_beq hcomma
    have hfirst := headerWords_append_comma [] t
    rw [headerWords_append_comma]
    exact congrArg (headerWords s ++ ·) hfirst.symm

theorem headerWords_blank_append {before : List Char} (h : ∀ c ∈ before, isBlank c = true)
    (s : List Char) : headerWords (before ++ s) = headerWords s := by
  induction before with
  | nil => rfl
  | cons b before ih =>
    have hcons := headerWords_append_cons (h b List.mem_cons_self) [] (before ++ s)
    rw [List.nil_append] at hcons
    rw [List.cons_append, hcons, ih fun c hc => h c (List.mem_cons_of_mem b hc)]
    rfl

theorem headerWords_append_blank {after : List Char} (h : ∀ c ∈ after, isBlank c = true)
    (s : List Char) : headerWords (s ++ after) = headerWords s := by
  cases after with
  | nil => rw [List.append_nil]
  | cons b after =>
    have hnil := headerWords_blank_append (fun c hc => h c (List.mem_cons_of_mem b hc)) []
    rw [List.append_nil] at hnil
    rw [headerWords_append_cons (h b List.mem_cons_self), hnil]
    exact List.append_nil _

theorem headerWords_trim (s : List Char) : headerWords (trim s) = headerWords s := by
  obtain ⟨before, after, hs, hbefore, hafter⟩ := exists_trim s
  conv_rhs => rw [hs, headerWords_append_blank hafter, headerWords_blank_append hbefore]

/-! ### Reading -/

def isKind (word : List Char) : Bool := classWords.contains (String.ofList word)

/-- The class of a header with these modifiers, of this kind, and with this name and supertypes. -/
def classOf (modifiers : List (List Char)) (kind name : List Char) (supertypes : Supertypes) :
    Class where
  name := nameOf name
  superclass :=
    if supertypes.superclass.isNone && !(String.ofList kind = "interface") &&
        nameOf name ≠ objectClass then
      some objectClass
    else supertypes.superclass
  interfaces := supertypes.interfaces
  modifiers := OrderedSet.ofList
    (modifiers.map String.ofList ++ if String.ofList kind = "class" then [] else [String.ofList kind])
  fields := ∅
  methods := ∅

/-- The supertypes that the words behind the name of a class say. -/
def readSupertypes (kind : List Char) (supertypes : Supertypes) (rest : List (List Char)) :
    Except LineFault Supertypes :=
  rest.foldlM (fun s word => s.word (String.ofList kind = "interface") word) supertypes

theorem readClassHeader_of_words {s kind name : List Char} {modifiers rest : List (List Char)}
    (h : headerWords s = modifiers ++ kind :: name :: rest)
    (hmodifiers : ∀ word ∈ modifiers, isKind word = false) (hkind : isKind kind = true) :
    readClassHeader s = (readSupertypes kind {} rest).map (classOf modifiers kind name) := by
  have hrun : ∀ word ∈ modifiers, (!isKind word) = true := fun word hword => by
    rw [hmodifiers word hword]
    rfl
  have hstop : (!isKind kind) = false := by
    rw [hkind]
    rfl
  have htake : ((headerWords s).takeWhile fun word => !isKind word) = modifiers := by
    rw [h, takeWhile_run hrun hstop]
  have hdrop : ((headerWords s).dropWhile fun word => !isKind word) = kind :: name :: rest := by
    rw [h, dropWhile_run hrun hstop]
  simp only [isKind] at htake hdrop
  simp only [readClassHeader, htake, hdrop, readSupertypes]
  cases List.foldlM (m := Except LineFault)
    (fun s word => s.word (String.ofList kind = "interface") word) ({} : Supertypes) rest <;> rfl

/-! ### Places -/

/-- Words that mean something to the reader where they stand behind the name of the class. -/
def clauseWords : List (List Char) := ["extends".toList, "implements".toList, [',']]

/-- Where a class is named in a header: behind a separator and behind the word that says what kind
of class it is, and in front of another separator, the brace of the class or nothing. -/
structure HeaderPlace where
  before : List Char
  separator : Char
  behind : List Char
  valid : (isSeparator separator && (headerWords (before ++ [separator])).any isKind &&
    (behind.head?.all isSeparator || behind == ['\x7b'])) = true

namespace HeaderPlace

/-- The words in front of the place. -/
def front (place : HeaderPlace) : List (List Char) :=
  headerWords (place.before ++ [place.separator])

/-- It is the class itself that is named. -/
def isOwn (place : HeaderPlace) : Bool :=
  (place.front.dropWhile fun word => !isKind word).length == 1

def text (place : HeaderPlace) (w : List Char) : List Char :=
  place.before ++ place.separator :: (w ++ place.behind)

end HeaderPlace

theorem toOption_word {s : Supertypes} {isInterface : Bool} {w w' : List Char}
    (hname : nameOf w' = nameOf w) (hw : w ∉ clauseWords) (hw' : w' ∉ clauseWords) :
    (s.word isInterface w').toOption = (s.word isInterface w).toOption := by
  simp only [clauseWords, List.mem_cons, List.not_mem_nil, or_false, not_or] at hw hw'
  simp only [Supertypes.word, if_neg hw.1, if_neg hw.2.1, if_neg hw.2.2, if_neg hw'.1,
    if_neg hw'.2.1, if_neg hw'.2.2, hname]
  cases s.clause <;> rfl

theorem toOption_map {ε α β : Type} (x : Except ε α) (f : α → β) :
    (x.map f).toOption = x.toOption.map f := by
  cases x <;> rfl

theorem toOption_bind {ε α β : Type} (x : Except ε α) (f : α → Except ε β) :
    (x >>= f).toOption = x.toOption.bind fun a => (f a).toOption := by
  cases x <;> rfl

theorem toOption_readSupertypes {kind w w' : List Char} {s : Supertypes}
    (hname : nameOf w' = nameOf w) (hw : w ∉ clauseWords) (hw' : w' ∉ clauseWords)
    (front back : List (List Char)) :
    (readSupertypes kind s (front ++ w' :: back)).toOption =
      (readSupertypes kind s (front ++ w :: back)).toOption := by
  simp only [readSupertypes, List.foldlM_append, List.foldlM_cons, toOption_bind,
    toOption_word hname hw hw']

/-- A header says the same with another spelling of a name, if that is the name of the class or the
reader looks for neither spelling. -/
theorem toOption_readClassHeader {s s' w w' : List Char} {front back : List (List Char)}
    (hs : headerWords s = front ++ w :: back) (hs' : headerWords s' = front ++ w' :: back)
    (hkind : front.any isKind = true) (hname : nameOf w' = nameOf w)
    (h : (front.dropWhile fun word => !isKind word).length = 1 ∨
      w ∉ clauseWords ∧ w' ∉ clauseWords) :
    (readClassHeader s').toOption = (readClassHeader s).toOption := by
  have hmodifiers : ∀ word ∈ front.takeWhile (fun word => !isKind word), isKind word = false :=
    fun word hword => by simpa using List.mem_takeWhile_imp hword
  obtain ⟨kind, tail, hdrop⟩ :
      ∃ kind tail, (front.dropWhile fun word => !isKind word) = kind :: tail := by
    refine List.exists_cons_of_ne_nil fun hnil => ?_
    obtain ⟨word, hmem, hword⟩ := List.any_eq_true.1 hkind
    have hnone := List.dropWhile_eq_nil_iff.1 hnil word hmem
    rw [hword] at hnone
    cases hnone
  have hkind' : isKind kind = true := by
    have hhead := List.head?_dropWhile_not (fun word => !isKind word) front
    simpa [hdrop] using hhead
  have hfront : front = (front.takeWhile fun word => !isKind word) ++ kind :: tail := by
    rw [← hdrop, List.takeWhile_append_dropWhile]
  rw [hdrop, List.length_cons] at h
  generalize (front.takeWhile fun word => !isKind word) = modifiers at hmodifiers hfront
  rw [hfront, List.append_assoc] at hs hs'
  cases tail with
  | nil =>
    -- The name of the class.
    have hclass : classOf modifiers kind w' = classOf modifiers kind w := by
      funext supertypes
      simp only [classOf, hname]
    rw [readClassHeader_of_words hs hmodifiers hkind', readClassHeader_of_words hs' hmodifiers hkind',
      hclass]
  | cons name tail =>
    obtain ⟨hw, hw'⟩ := h.resolve_left (by simp)
    rw [List.cons_append, List.cons_append] at hs hs'
    rw [readClassHeader_of_words hs hmodifiers hkind', readClassHeader_of_words hs' hmodifiers hkind',
      toOption_map, toOption_map, toOption_readSupertypes hname hw hw']

/-! ### Spellings -/

namespace HeaderPlace

variable (place : HeaderPlace) {C : ClassName} {w w' : List Char}

theorem isSeparator : isSeparator place.separator = true := by
  have h := place.valid
  simp only [Bool.and_eq_true] at h
  exact h.1.1

theorem any_isKind : place.front.any isKind = true := by
  have h := place.valid
  simp only [Bool.and_eq_true] at h
  exact h.1.2

theorem behind_cases : (∀ c, place.behind.head? = some c → Jimple.isSeparator c = true) ∨
    place.behind = ['\x7b'] := by
  have h := place.valid
  simp only [Bool.and_eq_true, Bool.or_eq_true, beq_iff_eq, Option.all_eq_true] at h
  exact h.2

/-- A spelling of a name is one word between separators. -/
theorem headerWords_spelling {behind : List Char} (hw : C.Spelling w)
    (hbehind : ∀ c, behind.head? = some c → Jimple.isSeparator c = true) :
    headerWords (place.before ++ place.separator :: (w ++ behind)) =
      place.front ++ w :: headerWords behind := by
  have hcomma : ',' ∉ w := fun hc => by
    rcases hw.mem ',' hc with h | h
    · exact absurd h (by decide)
    · exact absurd h (by decide)
  have hword : headerWords w = [w] := headerWords_of_not_blank hw.ne_nil hw.not_isBlank hcomma
  rw [headerWords_append_separator place.isSeparator]
  refine congrArg (place.front ++ ·) ?_
  cases behind with
  | nil => rw [List.append_nil, hword]; rfl
  | cons c behind =>
    rw [headerWords_before_separator (hbehind c rfl), hword]
    rfl

/-- The brace of the class belongs to what is behind the place. -/
theorem endsWith_text (hw : C.Spelling w) :
    endsWith '\x7b' (place.text w) = endsWith '\x7b' place.behind := by
  have htext : place.text w = (place.before ++ place.separator :: w) ++ place.behind := by
    simp [text]
  have hne : place.before ++ place.separator :: w ≠ [] := by simp
  have hbrace : '\x7b' ∉ w := fun hc => by
    rcases hw.mem '\x7b' hc with h | h
    · exact absurd h (by decide)
    · exact absurd h (by decide)
  rw [htext, endsWith, endsWith, List.getLast?_append]
  cases hbehind : place.behind.getLast? with
  | some c => rfl
  | none =>
    have hlast : (place.before ++ place.separator :: w).getLast? ≠ some '\x7b' := by
      rw [List.getLast?_append_of_ne_nil _ (by simp), List.getLast?_cons_of_ne_nil hw.ne_nil]
      exact fun hc => hbrace (List.mem_of_getLast? hc)
    simpa using hlast

/-- The words of the header without its brace. -/
theorem headerWords_text (hw : C.Spelling w) :
    headerWords (if endsWith '\x7b' (place.text w) then trim (place.text w).dropLast
      else place.text w) = place.front ++ w :: headerWords
        (if endsWith '\x7b' place.behind then place.behind.dropLast else place.behind) := by
  rw [place.endsWith_text hw]
  split
  · next hbrace =>
    have hne : place.behind ≠ [] := by
      intro hnil
      rw [hnil] at hbrace
      cases hbrace
    have hlast : (place.text w).dropLast =
        place.before ++ place.separator :: (w ++ place.behind.dropLast) := by
      rw [text, List.dropLast_append_of_ne_nil (by simp),
        List.dropLast_cons_of_ne_nil (by simp [hne]), List.dropLast_append_of_ne_nil hne]
    rw [headerWords_trim, hlast]
    refine place.headerWords_spelling hw fun c hc => ?_
    rcases place.behind_cases with hsep | hopen
    · refine hsep c ?_
      obtain ⟨rest, hrest⟩ := List.head?_eq_some_iff.1 hc
      rw [← List.dropLast_append_getLast hne, hrest]
      rfl
    · rw [hopen] at hc
      cases hc
  · next hbrace =>
    refine place.headerWords_spelling hw fun c hc => ?_
    rcases place.behind_cases with hsep | hopen
    · exact hsep c hc
    · rw [hopen] at hbrace
      exact absurd rfl hbrace

/-- **A header says the same whether a class in it is named with or without quotes.** -/
theorem outcome_classHeader (r : Reader) (hw : C.Spelling w) (hw' : C.Spelling w')
    (h : place.isOwn = true ∨ C.chars ∉ clauseWords) :
    Reader.outcome ((r.classHeader (place.text w')).mapError (Fault.atLine r.line)) =
      Reader.outcome ((r.classHeader (place.text w)).mapError (Fault.atLine r.line)) := by
  have hclause : ∀ w, C.Spelling w → C.chars ∉ clauseWords → w ∉ clauseWords := by
    intro w hw hbare
    cases hw with
    | bare => exact hbare
    | quoted => simp [clauseWords, ClassName.quoted]
  have hread := toOption_readClassHeader (place.headerWords_text hw) (place.headerWords_text hw')
    place.any_isKind (hw'.nameOf.trans hw.nameOf.symm)
    (h.imp eq_of_beq fun hbare => ⟨hclause w hw hbare, hclause w' hw' hbare⟩)
  rw [place.endsWith_text hw, place.endsWith_text hw'] at hread
  simp only [Reader.classHeader, place.endsWith_text hw, place.endsWith_text hw']
  generalize readClassHeader (if endsWith '\x7b' place.behind then trim (place.text w').dropLast
    else place.text w') = x' at hread ⊢
  generalize readClassHeader (if endsWith '\x7b' place.behind then trim (place.text w).dropLast
    else place.text w) = x at hread ⊢
  cases x with
  | error fault =>
    cases x' with
    | error fault' => rfl
    | ok c => cases hread
  | ok c =>
    cases x' with
    | error fault' => cases hread
    | ok c' =>
      obtain rfl : c' = c := Option.some.inj hread
      rfl

end HeaderPlace

end PointsTo.Jimple
