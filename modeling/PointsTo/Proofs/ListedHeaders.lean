import PointsTo.Proofs.Headers
import PointsTo.Proofs.Passage

/-!
Listed headers of classes. The words of a header are its modifiers, its keyword, its name, and those
of its clauses with the commas between them, wherever the blanks are; what the reader makes of them
is the class that is listed, before its members.
-/
namespace PointsTo.Jimple

open PointsTo.Text

/-! ### Words -/

namespace Word

variable (w : Word)

theorem ne_nil : w.chars ≠ [] := by
  have h := w.plain
  rw [Bool.and_eq_true, Bool.not_eq_true'] at h
  exact List.isEmpty_eq_false_iff.1 h.1

theorem isPlainChar_of_mem {c : Char} (h : c ∈ w.chars) : isPlainChar c = true := by
  have hall := w.plain
  rw [Bool.and_eq_true, List.all_eq_true] at hall
  exact hall.2 c h

theorem not_mem {c : Char} (h : isPlainChar c = false) : c ∉ w.chars := fun hc => by
  rw [w.isPlainChar_of_mem hc] at h
  cases h

theorem isBare : IsBare w.chars where
  ne_nil := w.ne_nil
  not_isBlank c hc := by
    have hplain := w.isPlainChar_of_mem hc
    rw [isPlainChar, Bool.or_eq_true, List.contains_iff_mem] at hplain
    rcases hplain with hword | hsign
    · exact not_isBlank_of_isWord hword
    · have hall : ∀ c ∈ ['.', '$', '[', ']'], isBlank c = false :=
        List.all_iff_forall_prop.1 (by decide)
      exact hall c hsign
  no_comma := w.not_mem (by decide)

theorem nameOf : nameOf w.chars = w.text := by
  rw [Jimple.nameOf, text]
  congr 1
  refine unquote.eq_2 _ fun rest heq => ?_
  exact w.not_mem (c := '\x27') (by decide) (heq ▸ List.mem_cons_self)

end Word

theorem IsBare.headerWords {w : List Char} (h : IsBare w) : headerWords w = [w] :=
  headerWords_of_not_blank h.ne_nil h.not_isBlank h.no_comma

theorem headerWords_spaced {ws : List (List Char)} (h : ∀ w ∈ ws, IsBare w) :
    headerWords (spaced ws) = ws := by
  cases ws with
  | nil => rfl
  | cons a ws =>
    induction ws generalizing a with
    | nil => rw [spaced_singleton, (h a List.mem_cons_self).headerWords]
    | cons b ws ih =>
      rw [spaced_cons_cons, headerWords_append_cons (by decide), (h a List.mem_cons_self).headerWords,
        ih b fun w hw => h w (List.mem_cons_of_mem a hw)]
      rfl

section CommaList

variable {gap : Gap} {items : List (List Char)}

/-- Commas are words of a header. -/
theorem headerWords_commaList (h : ∀ w ∈ items, IsBare w) :
    headerWords (commaList gap items) = items.intersperse [','] := by
  cases items with
  | nil => rfl
  | cons a items =>
    induction items generalizing a with
    | nil =>
      rw [commaList_singleton, (h a List.mem_cons_self).headerWords]
      rfl
    | cons b items ih =>
      rw [commaList_cons_cons, headerWords_append_comma, headerWords_blank_append gap.isBlank_of_mem,
        (h a List.mem_cons_self).headerWords, ih b fun w hw => h w (List.mem_cons_of_mem a hw)]
      rfl

end CommaList

theorem mem_clause {keyword : String} {gap : Gap} {names : List Word} {c : Char}
    (h : c ∈ clause keyword gap names) :
    c = ' ' ∨ c ∈ keyword.toList ∨ c = ',' ∨ isBlank c = true ∨ ∃ w ∈ names, c ∈ w.chars := by
  rw [clause] at h
  split at h
  · cases h
  · rw [List.mem_append, List.mem_cons, List.mem_cons] at h
    rcases h with (h | h) | h | h
    · exact .inl h
    · exact .inr (.inl h)
    · exact .inl h
    · rcases mem_commaList h with h | h | ⟨s, hs, h⟩
      · exact .inr (.inr (.inl h))
      · exact .inr (.inr (.inr (.inl h)))
      · obtain ⟨w, hw, rfl⟩ := List.mem_map.1 hs
        exact .inr (.inr (.inr (.inr ⟨w, hw, h⟩)))

/-! ### Class headers -/

/-- The words of a clause. -/
def clauseList (keyword : String) (names : List Word) : List (List Char) :=
  if names.isEmpty then [] else keyword.toList :: (names.map Word.chars).intersperse [',']

theorem headerWords_clause {keyword : String} (hkeyword : IsBare keyword.toList) (gap : Gap)
    (names : List Word) (s : List Char) :
    headerWords (s ++ clause keyword gap names) = headerWords s ++ clauseList keyword names := by
  have hnames : ∀ w ∈ names.map Word.chars, IsBare w := by
    intro s hs
    obtain ⟨w, -, rfl⟩ := List.mem_map.1 hs
    exact w.isBare
  rw [clause, clauseList]
  split
  · rw [List.append_nil, List.append_nil]
  · rw [List.cons_append, headerWords_append_cons (by decide), headerWords_append_cons (by decide),
      hkeyword.headerWords, headerWords_commaList hnames]
    rfl

section Supertypes

variable {kind : List Char} {s : Supertypes} {names : List Word}

theorem readSupertypes_append (front back : List (List Char)) :
    readSupertypes kind s (front ++ back) =
      readSupertypes kind s front >>= fun s => readSupertypes kind s back :=
  List.foldlM_append

theorem readSupertypes_cons {s' : Supertypes} {word : List Char}
    (h : s.word (String.ofList kind = "interface") word = .ok s') (rest : List (List Char)) :
    readSupertypes kind s (word :: rest) = readSupertypes kind s' rest := by
  rw [readSupertypes, List.foldlM_cons, h]
  rfl

theorem Word.not_mem_clauseWords {w : Word} (h : w.isReserved = false) : w.chars ∉ clauseWords := by
  intro hmem
  have hword : w.text ∈ ["extends", "implements", ","] := by
    have hmap := List.mem_map_of_mem (f := String.ofList) hmem
    exact hmap
  have hcomma : w.text ≠ "," := fun heq => by
    have hchars : w.chars = [','] := by
      have := congrArg String.toList heq
      rwa [Word.text, String.toList_ofList] at this
    exact w.not_mem (c := ',') (by decide) (hchars ▸ List.mem_cons_self)
  have hreserved : w.isReserved = true := by
    rw [Word.isReserved, List.contains_iff_mem]
    refine List.mem_append_right _ ?_
    simpa [hcomma] using hword
  rw [h] at hreserved
  cases hreserved

theorem word_of_not_reserved {w : Word} (h : w.isReserved = false) {clause : Clause}
    (hs : s.clause = some clause) (isInterface : Bool) :
    s.word isInterface w.chars =
      if clause = .extends ∧ !isInterface then .ok { s with superclass := some w.text }
      else .ok { s with interfaces := s.interfaces ++ [w.text] } := by
  have hnot := w.not_mem_clauseWords h
  simp only [clauseWords, List.mem_cons, List.not_mem_nil, or_false, not_or] at hnot
  simp only [Supertypes.word, if_neg hnot.1, if_neg hnot.2.1, if_neg hnot.2.2, hs, w.nameOf]

/-- Names behind a word for interfaces are interfaces. -/
theorem readSupertypes_names (kind : List Char) {clause : Clause} (hs : s.clause = some clause)
    (hclause : clause = .implements ∨ String.ofList kind = "interface")
    (hnames : ∀ w ∈ names, w.isReserved = false) :
    readSupertypes kind s ((names.map Word.chars).intersperse [',']) =
      .ok { s with interfaces := s.interfaces ++ names.map Word.text } := by
  have hword : ∀ (s : Supertypes) (w : Word), s.clause = some clause → w.isReserved = false →
      s.word (String.ofList kind = "interface") w.chars =
        .ok { s with interfaces := s.interfaces ++ [w.text] } := by
    intro s w hs hw
    rw [word_of_not_reserved hw hs, if_neg]
    rintro ⟨rfl, hkind⟩
    rcases hclause with h | h
    · cases h
    · simp [h] at hkind
  induction names generalizing s with
  | nil =>
    rw [List.map_nil, List.map_nil, List.append_nil]
    rfl
  | cons a names ih =>
    have ha := hword s a hs (hnames a List.mem_cons_self)
    cases names with
    | nil =>
      rw [List.map_singleton, List.intersperse_singleton, readSupertypes_cons ha]
      rfl
    | cons b names =>
      have hlist : ((a :: b :: names).map Word.chars).intersperse [','] =
          a.chars :: [','] :: ((b :: names).map Word.chars).intersperse [','] := rfl
      have hrest := ih (s := { s with interfaces := s.interfaces ++ [a.text] }) hs
        fun w hw => hnames w (List.mem_cons_of_mem a hw)
      rw [hlist, readSupertypes_cons ha, readSupertypes_cons rfl, hrest, List.append_assoc]
      rfl

/-- What a class says behind its name. -/
theorem readSupertypes_class {superclass : Option Word} {interfaces : List Word}
    (hsuper : ∀ w ∈ superclass, w.isReserved = false)
    (hinterfaces : ∀ w ∈ interfaces, w.isReserved = false) :
    ∃ clause, readSupertypes "class".toList {}
      (clauseList "extends" superclass.toList ++ clauseList "implements" interfaces) =
        .ok ⟨clause, superclass.map Word.text, interfaces.map Word.text⟩ := by
  have himplements : ∀ s : Supertypes, s.interfaces = [] → ∃ clause,
      readSupertypes "class".toList s (clauseList "implements" interfaces) =
        .ok ⟨clause, s.superclass, interfaces.map Word.text⟩ := by
    intro s hs
    rw [clauseList]
    split
    · next hempty =>
      obtain rfl := List.isEmpty_iff.1 hempty
      exact ⟨s.clause, congrArg (fun i => Except.ok (Supertypes.mk s.clause s.superclass i)) hs⟩
    · have hread := readSupertypes_names "class".toList
        (s := { s with clause := some .implements }) rfl (.inl rfl) hinterfaces
      refine ⟨some .implements, (readSupertypes_cons rfl _).trans (hread.trans ?_)⟩
      rw [hs]
      rfl
  rw [readSupertypes_append]
  cases superclass with
  | none => exact himplements {} rfl
  | some w =>
    have hword := word_of_not_reserved (hsuper w rfl) (s := { clause := some .extends }) rfl false
    have hextends : readSupertypes "class".toList {} (clauseList "extends" [w]) =
        .ok { clause := some .extends, superclass := some w.text } :=
      (readSupertypes_cons rfl _).trans (readSupertypes_cons hword _)
    rw [Option.toList_some, hextends]
    exact himplements { clause := some .extends, superclass := some w.text } rfl

/-- What an interface says behind its name. -/
theorem readSupertypes_interface {interfaces : List Word}
    (hinterfaces : ∀ w ∈ interfaces, w.isReserved = false) :
    ∃ clause, readSupertypes "interface".toList {} (clauseList "extends" interfaces) =
      .ok ⟨clause, none, interfaces.map Word.text⟩ := by
  rw [clauseList]
  split
  · next hempty =>
    obtain rfl := List.isEmpty_iff.1 hempty
    exact ⟨none, rfl⟩
  · have hkind : String.ofList "interface".toList = "interface" := String.ofList_toList
    have hread := readSupertypes_names "interface".toList
      (s := { clause := some .extends }) rfl (.inr hkind) hinterfaces
    exact ⟨some .extends, (readSupertypes_cons rfl _).trans hread⟩

end Supertypes

namespace ClassKind

variable (kind : ClassKind) (interfaces : List Word)

/-- The words behind the name of the class. -/
def supertypeWords : ClassKind → List (List Char)
  | ofClass superclass =>
    clauseList "extends" superclass.toList ++ clauseList "implements" interfaces
  | ofInterface => clauseList "extends" interfaces

theorem isKind_keyword : isKind kind.keyword.chars = true := by
  cases kind with
  | ofClass superclass =>
    have h : isKind "class".toList = true := by decide +kernel
    exact h
  | ofInterface =>
    have h : isKind "interface".toList = true := by decide +kernel
    exact h

theorem headerWords_supertypes (gap : Gap) (s : List Char) :
    headerWords (s ++ kind.supertypes gap interfaces) =
      headerWords s ++ supertypeWords interfaces kind := by
  have hextends : IsBare "extends".toList := .of_all (by decide) (by decide)
  have himplements : IsBare "implements".toList := .of_all (by decide) (by decide)
  cases kind with
  | ofClass superclass =>
    rw [supertypes, supertypeWords, ← List.append_assoc, headerWords_clause himplements,
      headerWords_clause hextends, List.append_assoc]
  | ofInterface => rw [supertypes, supertypeWords, headerWords_clause hextends]

theorem readSupertypes_words (hnamed : ∀ w ∈ kind.named?, w.isReserved = false)
    (hinterfaces : ∀ w ∈ interfaces, w.isReserved = false) :
    ∃ clause, readSupertypes kind.keyword.chars {} (supertypeWords interfaces kind) =
      .ok ⟨clause, kind.named?.map Word.text, interfaces.map Word.text⟩ := by
  cases kind with
  | ofClass superclass => exact readSupertypes_class hnamed hinterfaces
  | ofInterface => exact readSupertypes_interface hinterfaces

end ClassKind

namespace ClassText

variable (c : ClassText)

/-- The class when its header has been read. -/
def opened : Class := { c.toClass with fields := ∅, methods := ∅ }

theorem isKind_of_mem_modifiers {s : List Char} (hs : s ∈ c.modifiers.map Word.chars) :
    isKind s = false := by
  obtain ⟨w, hw, rfl⟩ := List.mem_map.1 hs
  have h := List.all_eq_true.1 c.modifiers_valid w hw
  rwa [Bool.not_eq_true'] at h

theorem isReserved_of_mem {w : Word} (hw : w ∈ c.name :: c.kind.named?.toList ++ c.interfaces) :
    w.isReserved = false := by
  have h := List.all_eq_true.1 c.names_valid w hw
  rwa [Bool.not_eq_true'] at h

theorem headerWords_header : headerWords c.header =
    c.modifiers.map Word.chars ++
      c.kind.keyword.chars :: c.name.chars :: ClassKind.supertypeWords c.interfaces c.kind := by
  have hbare : ∀ w ∈ c.modifiers.map Word.chars ++ [c.kind.keyword.chars, c.name.chars],
      IsBare w := by
    intro s hs
    rw [List.mem_append, List.mem_cons, List.mem_singleton] at hs
    rcases hs with hs | rfl | rfl
    · obtain ⟨w, -, rfl⟩ := List.mem_map.1 hs
      exact w.isBare
    · exact c.kind.keyword.isBare
    · exact c.name.isBare
  rw [header, ClassKind.headerWords_supertypes, headerWords_spaced hbare, List.append_assoc]
  rfl

/-- A header says what it lists. -/
theorem readClassHeader_header {s : List Char} (hs : headerWords s = headerWords c.header) :
    readClassHeader s = .ok c.opened := by
  obtain ⟨clause, hread⟩ := c.kind.readSupertypes_words c.interfaces
    (fun w hw => c.isReserved_of_mem (by simp [Option.mem_def.1 hw]))
    (fun w hw => c.isReserved_of_mem (by simp [hw]))
  rw [readClassHeader_of_words (hs.trans c.headerWords_header)
    (fun _ => c.isKind_of_mem_modifiers) c.kind.isKind_keyword, hread]
  refine congrArg Except.ok ?_
  have htext : (c.modifiers.map Word.chars).map String.ofList = c.modifiers.map Word.text := by
    rw [List.map_map]
    rfl
  have hclass : ∀ superclass, String.ofList (ClassKind.ofClass superclass).keyword.chars = "class" :=
    fun _ => String.ofList_toList
  have hinterface : String.ofList ClassKind.ofInterface.keyword.chars = "interface" :=
    String.ofList_toList
  rw [classOf, opened, toClass, c.name.nameOf, htext]
  cases hk : c.kind with
  | ofClass superclass =>
    cases superclass <;>
      simp [hclass, ClassKind.named?, ClassKind.superclassOf, ClassKind.modifiers]
  | ofInterface =>
    simp [hinterface, ClassKind.named?, ClassKind.superclassOf, ClassKind.modifiers]

/-- No character of a header but of its words, its commas and its blanks. -/
theorem mem_header {s : Char} (hs : s ∈ c.header) :
    isBlank s = true ∨ s = ',' ∨ isPlainChar s = true := by
  have hclause : ∀ (keyword : String) (names : List Word), keyword.toList.all isPlainChar = true →
      s ∈ clause keyword c.gap names → isBlank s = true ∨ s = ',' ∨ isPlainChar s = true := by
    intro keyword names hkeyword hmem
    rcases mem_clause hmem with rfl | h | h | h | ⟨w, -, h⟩
    · exact .inl (by decide)
    · exact .inr (.inr (List.all_eq_true.1 hkeyword s h))
    · exact .inr (.inl h)
    · exact .inl h
    · exact .inr (.inr (w.isPlainChar_of_mem h))
  rw [header, List.mem_append] at hs
  rcases hs with hs | hs
  · rcases mem_spaced hs with rfl | ⟨word, hword, hs⟩
    · exact .inl (by decide)
    · rw [List.mem_append, List.mem_cons, List.mem_singleton] at hword
      rcases hword with hword | rfl | rfl
      · obtain ⟨w, -, rfl⟩ := List.mem_map.1 hword
        exact .inr (.inr (w.isPlainChar_of_mem hs))
      · exact .inr (.inr (c.kind.keyword.isPlainChar_of_mem hs))
      · exact .inr (.inr (c.name.isPlainChar_of_mem hs))
  · cases hk : c.kind with
    | ofClass superclass =>
      rw [hk, ClassKind.supertypes, List.mem_append] at hs
      exact hs.elim (hclause _ _ (by decide +kernel)) (hclause _ _ (by decide +kernel))
    | ofInterface =>
      rw [hk, ClassKind.supertypes] at hs
      exact hclause _ _ (by decide +kernel) hs

/-- The header of a class opens it. -/
theorem reads_header (p : Program) :
    Reads p .outside (c.brace.lines c.number c.header) (p.declare c.opened) (.inClass c.opened) := by
  cases hbrace : c.brace with
  | behind gap =>
    have hends : endsWith '\x7b' (c.header ++ gap.chars ++ ['\x7b']) = true := by
      simp [endsWith]
    have hread : readClassHeader (trim (c.header ++ gap.chars)) = .ok c.opened :=
      c.readClassHeader_header (by rw [headerWords_trim, headerWords_append_blank gap.isBlank_of_mem])
    refine Reads.line (by simp) ?_
    simp only [Reader.line?, Reader.classHeader, hends, if_true, List.dropLast_concat, hread]
    rfl
  | below number =>
    have hends : endsWith '\x7b' c.header = false := by
      rw [endsWith, beq_eq_false_iff_ne]
      intro hlast
      rcases c.mem_header (List.mem_of_getLast? hlast) with h | h | h
      · exact absurd h (by decide)
      · exact absurd h (by decide)
      · exact absurd h (by decide)
    have hread := c.readClassHeader_header (s := c.header) rfl
    have hheader : Reads p .outside [⟨c.number, c.header⟩] (p.declare c.opened)
        (.beforeClass c.opened) := by
      refine Reads.line (by simp) ?_
      simp only [Reader.line?, Reader.classHeader, hends, Bool.false_eq_true, if_false, hread]
      rfl
    exact hheader.append (Reads.line (by simp) rfl)

end ClassText

end PointsTo.Jimple
