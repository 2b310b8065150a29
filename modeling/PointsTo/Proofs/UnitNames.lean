import PointsTo.Proofs.JavaTexts

/-!
The name of a compilation unit and what its comments and string constants do to it. A declaration is
read at a place that begins a word, and how it is read there is settled by the text up to the first
fence. Blanks in place of what is hidden therefore change no reading outside of it, and leave none
inside. Main statement: the name of a unit is that of the first declaration that can be read
anywhere in its text, and with comments and string constants blank it is that of the first one
outside of them.
-/
namespace PointsTo.Java

open PointsTo.Text

/-! ### A declaration up to a fence -/

/-- Readers that are done at a fence at the latest, and read nothing where a word begins as the code
of a character does. -/
structure StopsAtFences (read : List Char → Option (List Char)) : Prop where
  fence {f : Char} (before rest rest' : List Char) (hf : isFence f = true) :
    read (before ++ f :: rest) = read (before ++ f :: rest')
  code (rest : List Char) : read ('u' :: rest) = none

theorem not_isBlank_of_isFence {c : Char} (h : isFence c = true) : isBlank c = false := by
  simp only [isFence, Bool.and_eq_true, Bool.not_eq_true'] at h
  exact h.2

/-- A word that has a fence in it is none of some words that are all letters. -/
theorem not_mem_of_fence {f : Char} {w : List Char} {words : List (List Char)}
    (hf : isFence f = true) (hw : f ∈ w) (hwords : (words.all fun s => s.all isWord) = true) :
    w ∉ words := by
  intro hmem
  have hword := List.all_eq_true.1 (List.all_eq_true.1 hwords w hmem) f hw
  rw [not_isWord_of_isFence hf] at hword
  cases hword

theorem typeHere?_eq_none {s : List Char} (h : (cutWord s).1 ∉ typeWords) : typeHere? s = none := by
  have hkind : typeWords.contains (cutWord s).1 = false := by
    rwa [← Bool.not_eq_true, List.contains_iff_mem]
  rw [typeHere?]
  simp only [hkind, Bool.false_and, Bool.false_eq_true, if_false]

theorem publicTypeHere?_eq_none {s : List Char} (h : (cutWord s).1 ∉ ["public".toList]) :
    publicTypeHere? s = none := by
  rw [List.mem_singleton] at h
  rw [publicTypeHere?]
  exact if_neg h

section Fence

variable {f : Char} (hf : isFence f = true)
include hf

/-- The first word of a text stands in front of the fence, or else has the fence in it. -/
theorem cutWord_fence (before : List Char) :
    (∃ word behind, ∀ rest, cutWord (before ++ f :: rest) = (word, behind ++ f :: rest)) ∨
    ∀ rest, f ∈ (cutWord (before ++ f :: rest)).1 := by
  have hblank := not_isBlank_of_isFence hf
  have hwhole := List.takeWhile_append_dropWhile (p := fun c => !isBlank c) (l := before)
  have hrun : ∀ c ∈ before.takeWhile fun c => !isBlank c, (!isBlank c) = true :=
    List.all_eq_true.1 List.all_takeWhile
  cases hcut : before.dropWhile fun c => !isBlank c with
  | nil =>
    right
    intro rest
    rw [cutWord, List.takeWhile_append_of_pos (List.dropWhile_eq_nil_iff.1 hcut),
      List.takeWhile_cons_of_pos (by simp [hblank])]
    simp
  | cons b more =>
    left
    have hb : (!isBlank b) = false := by
      have := List.head?_dropWhile_not (fun c => !isBlank c) before
      rwa [hcut] at this
    rw [hcut] at hwhole
    refine ⟨before.takeWhile fun c => !isBlank c, trimLeft (b :: more), fun rest => ?_⟩
    conv_lhs => rw [← hwhole, List.append_assoc, List.cons_append, cutWord,
      takeWhile_run hrun hb, dropWhile_run hrun hb]
    rw [← List.cons_append, trimLeft_append_cons hblank]

theorem skipModifiers_fence (before : List Char) :
    ∃ behind, ∀ rest, skipModifiers (before ++ f :: rest) = behind ++ f :: rest := by
  obtain ⟨n, hn⟩ : ∃ n, before.length = n := ⟨_, rfl⟩
  induction n using Nat.strong_induction_on generalizing before with
  | _ n ih =>
    subst hn
    have hstay (h : ∀ rest, (cutWord (before ++ f :: rest)).1 ∉ typeModifiers) :
        ∃ behind, ∀ rest, skipModifiers (before ++ f :: rest) = behind ++ f :: rest := by
      refine ⟨before, fun rest => ?_⟩
      rw [skipModifiers, dif_neg (by simpa only [List.contains_iff_mem] using h rest)]
    obtain ⟨word, behind, hcut⟩ | hmem := cutWord_fence hf before
    · by_cases hword : word ∈ typeModifiers
      · have hshorter : behind.length < before.length := by
          have hne : (cutWord (before ++ [f])).1 ≠ [] := by
            rw [hcut]
            rintro rfl
            revert hword
            decide
          have := length_cutWord_lt hne
          rw [hcut] at this
          simpa using this
        obtain ⟨last, hlast⟩ := ih _ hshorter behind rfl
        refine ⟨last, fun rest => ?_⟩
        rw [skipModifiers, dif_pos (by rwa [hcut, List.contains_iff_mem]), hcut, hlast]
      · exact hstay fun rest => by rwa [hcut]
    · exact hstay fun rest => not_mem_of_fence hf (hmem rest) (by decide)

theorem typeHere?_fence (before rest rest' : List Char) :
    typeHere? (before ++ f :: rest) = typeHere? (before ++ f :: rest') := by
  obtain ⟨word, behind, hcut⟩ | hmem := cutWord_fence hf before
  · have hname : (behind ++ f :: rest).takeWhile isWord =
        (behind ++ f :: rest').takeWhile isWord := by
      simp [List.takeWhile_append, not_isWord_of_isFence hf]
    rw [typeHere?, typeHere?, hcut, hcut]
    simp only [hname]
  · have hnone (rest : List Char) : typeHere? (before ++ f :: rest) = none :=
      typeHere?_eq_none (not_mem_of_fence hf (hmem rest) (by decide))
    rw [hnone, hnone]

theorem publicTypeHere?_fence (before rest rest' : List Char) :
    publicTypeHere? (before ++ f :: rest) = publicTypeHere? (before ++ f :: rest') := by
  obtain ⟨word, behind, hcut⟩ | hmem := cutWord_fence hf before
  · obtain ⟨last, hlast⟩ := skipModifiers_fence hf behind
    rw [publicTypeHere?, publicTypeHere?, hcut, hcut]
    simp only [hlast, typeHere?_fence hf last rest rest']
  · have hnone (rest : List Char) : publicTypeHere? (before ++ f :: rest) = none :=
      publicTypeHere?_eq_none (not_mem_of_fence hf (hmem rest) (by decide))
    rw [hnone, hnone]

end Fence

/-- A first word that begins with a letter with which none of some words begins. -/
theorem cutWord_not_mem {c : Char} (rest : List Char) {words : List (List Char)}
    (hc : isBlank c = false) (hwords : (words.all fun s => s.head? != some c) = true) :
    (cutWord (c :: rest)).1 ∉ words := by
  intro hmem
  have hhead := List.all_eq_true.1 hwords _ hmem
  rw [cutWord, List.takeWhile_cons_of_pos (by simp [hc]), List.head?_cons] at hhead
  simp at hhead

theorem stopsAtFences_typeHere? : StopsAtFences typeHere? where
  fence before rest rest' hf := typeHere?_fence hf before rest rest'
  code rest := typeHere?_eq_none (cutWord_not_mem rest (by decide) (by decide))

theorem stopsAtFences_publicTypeHere? : StopsAtFences publicTypeHere? where
  fence before rest rest' hf := publicTypeHere?_fence hf before rest rest'
  code rest := publicTypeHere?_eq_none (cutWord_not_mem rest (by decide) (by decide))

/-! ### Readings inside and outside of comments and constants -/

/-- A declaration that can be read in a text: the name it declares, and whether it begins inside a
comment or a string constant. -/
structure Naming where
  name : List Char
  hidden : Bool
deriving DecidableEq, Repr

/-- All that a reader finds at places that begin a word, in order. -/
def namings (read : List Char → Option (List Char)) : (insideWord : Bool) → List Spot → List Naming
  | _, [] => []
  | insideWord, spot :: rest =>
    let name :=
      if isWord spot.char && !insideWord then read ((spot :: rest).map Spot.char) else none
    (name.map (Naming.mk · spot.hidden)).toList ++ namings read (isWord spot.char) rest

/-- The first naming outside of comments and string constants. -/
def firstShown? (found : List Naming) : Option Naming := found.find? fun naming => !naming.hidden

theorem atWordStart?_char (read : List Char → Option (List Char)) (insideWord : Bool)
    (m : List Spot) :
    atWordStart? read insideWord (m.map Spot.char) =
      (namings read insideWord m).head?.map Naming.name := by
  induction m generalizing insideWord with
  | nil => rfl
  | cons spot m ih =>
    rw [List.map_cons, atWordStart?, ih, namings, List.map_cons]
    cases if isWord spot.char && !insideWord then read (spot.char :: m.map Spot.char) else none with
    | none => rfl
    | some name => rfl

section Readings

variable {read : List Char → Option (List Char)} {m : List Spot}

theorem firstShown?_hidden (insideWord : Bool) (c : Char) :
    firstShown? (namings read insideWord (⟨c, true⟩ :: m)) =
      firstShown? (namings read (isWord c) m) := by
  rw [namings]
  cases if isWord c && !insideWord then read ((⟨c, true⟩ :: m).map Spot.char) else none <;> rfl

theorem firstShown?_shown (insideWord : Bool) (c : Char) :
    (firstShown? (namings read insideWord (⟨c, false⟩ :: m))).map Naming.name =
      (if isWord c && !insideWord then read (c :: m.map Spot.char) else none).or
        ((firstShown? (namings read (isWord c) m)).map Naming.name) := by
  rw [namings, List.map_cons]
  cases if isWord c && !insideWord then read (c :: m.map Spot.char) else none <;> rfl

theorem atWordStart?_shown (insideWord : Bool) (c : Char) :
    atWordStart? read insideWord ((⟨c, false⟩ :: m).map Spot.shown) =
      (if isWord c && !insideWord then read (c :: m.map Spot.shown) else none).or
        (atWordStart? read (isWord c) (m.map Spot.shown)) := rfl

theorem atWordStart?_hidden (insideWord : Bool) (c : Char) :
    atWordStart? read insideWord ((⟨c, true⟩ :: m).map Spot.shown) =
      atWordStart? read false (m.map Spot.shown) := rfl

/-- With what is hidden blank, a reader finds first what it found first outside of it. This holds
also where the two texts differ in whether a word goes on, if none does. -/
def Unaffected (read : List Char → Option (List Char)) (m : List Spot) : Prop :=
  ∀ before after, (before = after ∨ Quiet m) →
    atWordStart? read after (m.map Spot.shown) =
      (firstShown? (namings read before m)).map Naming.name

/-- A run of hidden characters, if no word goes on behind it. -/
theorem Unaffected.hidden (h : Unaffected read m) (hm : Quiet m) (s : List Char) :
    Unaffected read (s.map (Spot.mk · true) ++ m) := by
  induction s with
  | nil => exact h
  | cons c s ih =>
    have hquiet : Quiet (s.map (Spot.mk · true) ++ m) := by
      cases s with
      | nil => exact hm
      | cons d s =>
        intro e he
        cases he
    intro before after _
    rw [List.map_cons, List.cons_append, firstShown?_hidden, atWordStart?_hidden]
    exact ih (isWord c) false (.inr hquiet)

/-- A character that is seen, where the reader finds the same in both texts. -/
theorem Unaffected.cons (h : Unaffected read m) {c : Char}
    (hc : isWord c = true → read (c :: m.map Spot.shown) = read (c :: m.map Spot.char)) :
    Unaffected read (⟨c, false⟩ :: m) := by
  intro before after hboth
  rw [firstShown?_shown, atWordStart?_shown, h (isWord c) (isWord c) (.inl rfl)]
  cases hword : isWord c with
  | false => rfl
  | true =>
    obtain rfl | hquiet := hboth
    · rw [hc hword]
    · rw [hquiet c rfl] at hword
      cases hword

/-- A run of letters inside of a word. -/
theorem Unaffected.letters (h : Unaffected read m) {s : List Char}
    (hs : ∀ c ∈ s, isWord c = true) :
    atWordStart? read true ((s.map (Spot.mk · false) ++ m).map Spot.shown) =
      (firstShown? (namings read true (s.map (Spot.mk · false) ++ m))).map Naming.name := by
  induction s with
  | nil => exact h true true (.inl rfl)
  | cons c s ih =>
    have hc := hs c List.mem_cons_self
    rw [List.map_cons, List.cons_append, firstShown?_shown, atWordStart?_shown, hc,
      ih fun d hd => hs d (List.mem_cons_of_mem c hd)]
    rfl

/-- The two texts are the same up to a fence, or to their end. -/
theorem read_shown (hread : StopsAtFences read) (before : List Char) (h : fencedOff m = true) :
    read (before ++ m.map Spot.shown) = read (before ++ m.map Spot.char) := by
  induction m generalizing before with
  | nil => rfl
  | cons spot m ih =>
    obtain ⟨c, hidden⟩ := spot
    simp only [fencedOff, Bool.and_eq_true, Bool.not_eq_true', Bool.or_eq_true] at h
    obtain ⟨rfl, hfence | hm⟩ := h
    · exact hread.fence before _ _ hfence
    · have hrest := ih (before ++ [c]) hm
      rwa [List.append_assoc, List.append_assoc] at hrest

/-- A character that is seen, however it is spelled. -/
theorem Unaffected.glyph (hread : StopsAtFences read) (h : Unaffected read m) (g : Glyph)
    (hg : isWord g.char = true → fencedOff m = true) :
    Unaffected read (g.spelling.map (Spot.mk · false) ++ m) := by
  obtain hspelling | ⟨code, hspelling, hcode⟩ := g.spelled
  · rw [hspelling]
    exact h.cons fun hword => read_shown hread [g.char] (hg hword)
  · rw [hspelling]
    intro before after _
    rw [List.map_cons, List.map_cons, List.cons_append, List.cons_append, firstShown?_shown,
      atWordStart?_shown, firstShown?_shown, atWordStart?_shown, hread.code, hread.code]
    have hletter : isWord 'u' = true := by decide
    have hback : isWord '\\' = false := by decide
    rw [hback, hletter, h.letters hcode]
    rfl

end Readings

/-- **What a reader finds outside of comments and string constants does not depend on what they
hold.** -/
theorem unaffected_spotsFrom {read : List Char → Option (List Char)} (hread : StopsAtFences read)
    {p : Place} {gs : List Glyph} (h : p.Fits (gs.map Glyph.char)) :
    Unaffected read (spotsFrom p gs) := by
  induction gs generalizing p with
  | nil =>
    intro before after _
    rfl
  | cons g gs ih =>
    obtain ⟨hfits, hshows, hhides⟩ := Place.step_spec h
    have hrest := ih hfits
    rw [spotsFrom]
    cases hp : p.shows with
    | true =>
      obtain ⟨hseen, hnext⟩ := hshows hp
      rw [hseen]
      refine hrest.glyph hread g fun hword => fencedOff_spotsFrom hfits (hnext.resolve_left ?_)
      intro hfence
      rw [not_isWord_of_isFence hfence] at hword
      cases hword
    | false =>
      obtain ⟨hhidden, hnext⟩ | ⟨hseen, hword⟩ := hhides hp
      · rw [hhidden]
        exact hrest.hidden (quiet_spotsFrom hfits hnext) g.spelling
      · rw [hseen]
        refine hrest.glyph hread g fun hword' => ?_
        rw [hword] at hword'
        cases hword'

/-! ### The name of a unit -/

/-- Every declaration that can be read in a text, those of public types first. -/
def declarations (source : String) : List Naming :=
  let found := spots source.toList
  namings publicTypeHere? false found ++ namings typeHere? false found

def nameOf : Option Naming → String
  | some naming => .ofList naming.name
  | none => "Main"

theorem unitName_eq {source : String} {found : Option Naming}
    (h : (atWordStart? publicTypeHere? false source.toList).or
      (atWordStart? typeHere? false source.toList) = found.map Naming.name) :
    unitName source = nameOf found := by
  rw [unitName, h]
  cases found <;> rfl

/-- **Comments and string constants change the name of a unit just when the first declaration that
can be read is inside of one** and the first outside of them gives another name. The unit has the
name of the first of all, and once they are blank that of the first outside. -/
theorem unitName_blanked (source : String) :
    let all := declarations source
    unitName source = nameOf all.head? ∧
    unitName (blanked source) = nameOf (firstShown? all) ∧
    (unitName (blanked source) = unitName source ↔
      ∀ first, all.head? = some first → first.hidden = true →
        nameOf (firstShown? all) = .ofList first.name) := by
  intro all
  have hsource : unitName source = nameOf all.head? := by
    apply unitName_eq
    conv_lhs => rw [← map_char_spots source.toList, atWordStart?_char, atWordStart?_char]
    rw [← Option.map_or]
    exact congrArg _ List.head?_append.symm
  have hblanked : unitName (blanked source) = nameOf (firstShown? all) := by
    have hfits : Place.Fits {} ((glyphs source.toList).map Glyph.char) := ⟨rfl, by simp⟩
    apply unitName_eq
    rw [blanked, String.toList_ofList, spots,
      unaffected_spotsFrom stopsAtFences_publicTypeHere? hfits false false (.inl rfl),
      unaffected_spotsFrom stopsAtFences_typeHere? hfits false false (.inl rfl), ← Option.map_or]
    exact congrArg _ List.find?_append.symm
  refine ⟨hsource, hblanked, ?_⟩
  rw [hsource, hblanked]
  cases hall : all with
  | nil => simp [firstShown?]
  | cons first rest =>
    cases hhidden : first.hidden with
    | false => simp [firstShown?, hhidden]
    | true => simp [nameOf, hhidden]

/-- A type that only a comment declares. -/
example :
    let source := "/* public class A */\npublic class B \x7b\x7d"
    blanked source = "/*                */\npublic class B \x7b\x7d" ∧
      unitName source = "A" ∧ unitName (blanked source) = "B" := by
  decide +kernel

end PointsTo.Java
