import PointsTo.Proofs.Spelling

/-!
Lists of words. Words with blanks between them and words with commas between them are cut into the
words that they were made of.
-/
namespace PointsTo.Jimple

open PointsTo.Text

/-- Blanks where a listing may have any number of them. -/
structure Gap where
  chars : List Char
  blank : chars.all isBlank = true

def spaced (words : List (List Char)) : List Char := [' '].intercalate words

def commaList (gap : Gap) (items : List (List Char)) : List Char :=
  (',' :: gap.chars).intercalate items

/-! ### Bare words -/

/-- One word of a list: no blanks and no commas. -/
structure IsBare (w : List Char) : Prop where
  ne_nil : w ≠ []
  not_isBlank : ∀ c ∈ w, isBlank c = false
  no_comma : ',' ∉ w

theorem PlainName.isBare (n : PlainName) : IsBare n.chars :=
  ⟨n.ne_nil, n.not_isBlank, n.not_mem (by decide)⟩

theorem MemberName.isBare (m : MemberName) : IsBare m.chars :=
  ⟨m.ne_nil, m.not_isBlank, m.not_mem (by decide)⟩

theorem LocalName.isBare (x : LocalName) : IsBare x.chars :=
  ⟨x.ne_nil, x.not_isBlank, x.not_mem (by decide)⟩

theorem IsBare.of_all {w : List Char} (hne : w ≠ [])
    (h : (w.all fun c => !isBlank c && c ≠ ',') = true) : IsBare w := by
  have hall : ∀ c ∈ w, isBlank c = false ∧ c ≠ ',' := by simpa using h
  exact ⟨hne, fun c hc => (hall c hc).1, fun hc => (hall ',' hc).2 rfl⟩

theorem IsBare.trimmed {w : List Char} (h : IsBare w) : Trimmed w := .of_not_blank h.not_isBlank

/-- One item of a list with commas: it may have blanks, but not at its ends. -/
structure IsItem (w : List Char) : Prop where
  ne_nil : w ≠ []
  trimmed : Trimmed w
  no_comma : ',' ∉ w

theorem IsBare.isItem {w : List Char} (h : IsBare w) : IsItem w := ⟨h.ne_nil, h.trimmed, h.no_comma⟩

/-! ### Words with a separator between them -/

section Separator

variable {separator a : List Char} {items : List (List Char)}

theorem mem_intercalate {c : Char} (h : c ∈ separator.intercalate items) :
    c ∈ separator ∨ ∃ w ∈ items, c ∈ w := by
  cases items with
  | nil => cases h
  | cons a items =>
    induction items generalizing a with
    | nil => exact .inr ⟨a, List.mem_cons_self, by simpa using h⟩
    | cons b items ih =>
      rw [List.intercalate_cons_cons, List.mem_append, List.mem_append] at h
      rcases h with (h | h) | h
      · exact .inr ⟨a, List.mem_cons_self, h⟩
      · exact .inl h
      · exact (ih b h).imp_right fun ⟨w, hw, hc⟩ => ⟨w, List.mem_cons_of_mem a hw, hc⟩

theorem intercalate_ne_nil (h : ∀ w ∈ a :: items, IsBare w) :
    separator.intercalate (a :: items) ≠ [] := by
  have ha := (h a List.mem_cons_self).ne_nil
  cases items with
  | nil => simpa using ha
  | cons b items => simp [List.intercalate_cons_cons, ha]

/-- There are no blanks at the ends of a list of words. -/
theorem trimmed_intercalate (h : ∀ w ∈ a :: items, IsBare w) :
    Trimmed (separator.intercalate (a :: items)) := by
  induction items generalizing a with
  | nil => simpa using (h a List.mem_cons_self).trimmed
  | cons b items ih =>
    have ha := h a List.mem_cons_self
    have hrest : ∀ w ∈ b :: items, IsBare w := fun w hw => h w (List.mem_cons_of_mem a hw)
    rw [List.intercalate_cons_cons]
    exact ha.trimmed.append (ih hrest) ha.ne_nil (intercalate_ne_nil hrest)

end Separator

/-! ### Words with blanks between them -/

theorem spaced_cons_cons (a b : List Char) (ws : List (List Char)) :
    spaced (a :: b :: ws) = a ++ ' ' :: spaced (b :: ws) := by
  simp [spaced, List.intercalate_cons_cons]

theorem spaced_singleton (a : List Char) : spaced [a] = a := by simp [spaced, List.intercalate]

theorem mem_spaced {ws : List (List Char)} {c : Char} (h : c ∈ spaced ws) :
    c = ' ' ∨ ∃ w ∈ ws, c ∈ w :=
  (mem_intercalate h).imp_left List.mem_singleton.1

theorem words_spaced {ws : List (List Char)} (h : ∀ w ∈ ws, IsBare w) : words (spaced ws) = ws := by
  cases ws with
  | nil => rfl
  | cons a ws =>
    induction ws generalizing a with
    | nil =>
      have ha := h a List.mem_cons_self
      rw [spaced_singleton, words_of_not_blank ha.ne_nil ha.not_isBlank]
    | cons b ws ih =>
      have ha := h a List.mem_cons_self
      rw [spaced_cons_cons, words_append_cons (by decide),
        words_of_not_blank ha.ne_nil ha.not_isBlank, ih b fun w hw => h w (List.mem_cons_of_mem a hw)]
      rfl

/-! ### Words with commas between them -/

section CommaList

variable {gap : Gap} {items : List (List Char)}

theorem Gap.isBlank_of_mem (gap : Gap) : ∀ c ∈ gap.chars, isBlank c = true :=
  List.all_eq_true.1 gap.blank

theorem commaList_cons_cons (gap : Gap) (a b : List Char) (items : List (List Char)) :
    commaList gap (a :: b :: items) = a ++ ',' :: (gap.chars ++ commaList gap (b :: items)) := by
  simp [commaList, List.intercalate_cons_cons]

theorem commaList_singleton (gap : Gap) (a : List Char) : commaList gap [a] = a := by
  simp [commaList, List.intercalate]

theorem mem_commaList {c : Char} (h : c ∈ commaList gap items) :
    c = ',' ∨ isBlank c = true ∨ ∃ w ∈ items, c ∈ w := by
  rcases mem_intercalate h with h | h
  · exact (List.mem_cons.1 h).imp_right fun hgap => .inl (gap.isBlank_of_mem c hgap)
  · exact .inr (.inr h)

/-- Cutting a list at its commas gives its items back. -/
theorem map_trim_commaList {a : List Char} (h : ∀ w ∈ a :: items, IsItem w) :
    (splitWhere (fun c => decide (c = ',')) (commaList gap (a :: items))).map trim = a :: items := by
  have hpiece : ∀ w, IsItem w → splitWhere (fun c => decide (c = ',')) w = [w] := by
    intro w hw
    have hcut : ∀ c ∈ w, decide (c = ',') = false := fun c hc =>
      decide_eq_false fun heq => hw.no_comma (heq ▸ hc)
    have hsplit := splitWhere_append hcut []
    rw [List.append_nil, splitWhere, foldr_extendFirst, List.append_nil] at hsplit
    exact hsplit
  have hgap : ∀ s, (splitWhere (fun c => decide (c = ',')) (gap.chars ++ s)).map trim =
      (splitWhere (fun c => decide (c = ',')) s).map trim := by
    intro s
    have hcut : ∀ c ∈ gap.chars, decide (c = ',') = false := by
      refine fun c hc => decide_eq_false ?_
      rintro rfl
      exact absurd (gap.isBlank_of_mem ',' hc) (by decide)
    obtain ⟨piece, pieces, hs⟩ := List.exists_cons_of_ne_nil
      (splitWhere_ne_nil (fun c => decide (c = ',')) s)
    rw [splitWhere_append hcut, hs, foldr_extendFirst, List.map_cons, List.map_cons, trim,
      trimLeft_append gap.isBlank_of_mem]
    rfl
  induction items generalizing a with
  | nil =>
    have ha := h a List.mem_cons_self
    rw [commaList_singleton, hpiece a ha, List.map_singleton, ha.trimmed.trim]
  | cons b items ih =>
    have ha := h a List.mem_cons_self
    rw [commaList_cons_cons, splitWhere_append_cons (by decide), List.map_append, hgap, hpiece a ha,
      List.map_singleton, ha.trimmed.trim, ih fun w hw => h w (List.mem_cons_of_mem a hw)]
    rfl

theorem splitTypes_commaList (h : ∀ w ∈ items, IsItem w) :
    splitTypes (commaList gap items) = items := by
  cases items with
  | nil => rfl
  | cons a items =>
    rw [splitTypes, map_trim_commaList h, List.filter_eq_self]
    intro w hw
    simpa using (h w hw).ne_nil

end CommaList

end PointsTo.Jimple
