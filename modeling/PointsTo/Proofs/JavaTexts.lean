import PointsTo.Java.UnitName
import PointsTo.Proofs.Cutting

/-!
Comments and string constants of a Java text. Its characters are read first, since some are written
by their code; then one scan tells which of them stand between the marks of a comment or of a string
constant. What the scan hides is fenced: a mark that is no part of a word stands in front of it, and
no word goes on behind it.
-/
namespace PointsTo.Java

open PointsTo.Text

/-! ### Characters and their spelling -/

/-- A character of a program, and how the text writes it: as it is, or by its code behind a
backslash and the letter `u`. -/
structure Glyph where
  char : Char
  spelling : List Char
  spelled : spelling = [char] ∨
    ∃ code, spelling = '\\' :: 'u' :: code ∧ ∀ c ∈ code, isWord c = true

def Glyph.plain (c : Char) : Glyph := ⟨c, [c], .inl rfl⟩

def hexDigits : List Char := "0123456789abcdefABCDEF".toList

def digitValue (c : Char) : Nat :=
  let i := hexDigits.idxOf c
  if i < 16 then i else i - 6

theorem isWord_of_mem_code (s : List Char) {digits : List Char}
    (h : digits.all hexDigits.contains = true) :
    ∀ c ∈ s.takeWhile (· == 'u') ++ digits, isWord c = true := by
  intro c hc
  rcases List.mem_append.1 hc with hc | hc
  · obtain rfl : c = 'u' := by simpa using List.all_eq_true.1 List.all_takeWhile c hc
    decide
  · have hword : hexDigits.all isWord = true := by decide
    have hdigit : c ∈ hexDigits := List.contains_iff_mem.1 (List.all_eq_true.1 h c hc)
    exact List.all_eq_true.1 hword c hdigit

/-- The character that is written by its code where a text goes on behind a backslash: the letter
`u`, once or more often, and four digits. -/
def coded? : List Char → Option Glyph
  | 'u' :: rest =>
    let letters := rest.takeWhile (· == 'u')
    let digits := (rest.dropWhile (· == 'u')).take 4
    if h : digits.length = 4 ∧ digits.all hexDigits.contains = true then
      some {
        char := .ofNat (digits.foldl (fun code d => 16 * code + digitValue d) 0)
        spelling := '\\' :: 'u' :: (letters ++ digits)
        spelled := .inr ⟨_, rfl, isWord_of_mem_code rest h.2⟩ }
    else none
  | _ => none

/-- The characters of a program. Of two backslashes neither begins a code. -/
def glyphs : List Char → List Glyph
  | [] => []
  | '\\' :: '\\' :: rest => .plain '\\' :: .plain '\\' :: glyphs rest
  | c :: rest =>
    match if c = '\\' then coded? rest else none with
    | some g => g :: glyphs (rest.drop (g.spelling.length - 1))
    | none => .plain c :: glyphs rest
termination_by s => s.length
decreasing_by
  · simp only [List.length_cons]
    omega
  · simp only [List.length_drop, List.length_cons]
    omega
  · exact Nat.lt_succ_self _

theorem spelling_of_coded? {s : List Char} {g : Glyph} (h : coded? s = some g) :
    g.spelling ++ s.drop (g.spelling.length - 1) = '\\' :: s := by
  unfold coded? at h
  split at h
  · next rest =>
    dsimp only at h
    split at h
    · obtain rfl := Option.some.inj h
      have hbegins : 'u' :: (rest.takeWhile (· == 'u') ++ (rest.dropWhile (· == 'u')).take 4) <+:
          'u' :: rest := by
        refine (List.prefix_cons_inj _).2 ?_
        conv_rhs => rw [← List.takeWhile_append_dropWhile (p := (· == 'u')) (l := rest)]
        exact (List.prefix_append_right_inj _).2 (List.take_prefix _ _)
      exact congrArg ('\\' :: ·) (List.prefix_iff_eq_append.1 hbegins)
    · cases h
  · cases h

/-- The spellings together are the text. -/
theorem flatMap_glyphs (s : List Char) : (glyphs s).flatMap Glyph.spelling = s := by
  fun_induction glyphs s with
  | case1 => rfl
  | case2 rest ih => simp [Glyph.plain, ih]
  | case3 c rest _ g hg ih =>
    split at hg
    · next hc => rw [List.flatMap_cons, ih, spelling_of_coded? hg, hc]
    · cases hg
  | case4 c rest _ _ ih => simp [Glyph.plain, ih]

/-! ### Comments and constants -/

/-- A mark that is neither blank nor part of a word. -/
def isFence (c : Char) : Bool := !isWord c && !isBlank c

/-- One kind of comment or constant: the mark that opens it, the marks that close it, whether a
backslash keeps the next character from closing it, and whether what stands between them is
hidden. -/
structure Enclosure where
  opening : List Char
  closings : List (List Char)
  escapes : Bool
  hides : Bool
  opens : (!opening.isEmpty && opening.all isFence) = true := by decide
  closes : (closings.all fun closing => !closing.isEmpty && closing.all (!isWord ·)) = true := by
    decide

/-- Comments to the end of the line and over several lines, blocks of text, string constants, and
character constants, which are not hidden but may hold a quote. -/
def enclosures : List Enclosure := [
  { opening := "//".toList, closings := [['\n'], ['\r']], escapes := false, hides := true },
  { opening := "/*".toList, closings := ["*/".toList], escapes := false, hides := true },
  { opening := "\"\"\"".toList, closings := ["\"\"\"".toList], escapes := true, hides := true },
  { opening := "\"".toList, closings := ["\"".toList, ['\n'], ['\r']], escapes := true,
    hides := true },
  { opening := "'".toList, closings := ["'".toList, ['\n'], ['\r']], escapes := true,
    hides := false }]

/-- What is opened where the characters begin. -/
def opened? (s : List Char) : Option Enclosure := enclosures.find? fun e => startsWith e.opening s

/-- The mark by which an enclosure is closed where the characters begin. -/
def Enclosure.closed? (e : Enclosure) (s : List Char) : Option (List Char) :=
  e.closings.find? fun closing => startsWith closing s

/-- Where the scan is: the enclosure that it is in, if it is not in the code; what is still ahead of
the mark that led there; and whether the next character is escaped. -/
structure Place where
  within : Option Enclosure := none
  ahead : List Char := []
  escaped : Bool := false

namespace Place

/-- Whether the next character is hidden, and where the scan is behind it. -/
def step (p : Place) (c : Char) (rest : List Char) : Bool × Place :=
  match p.ahead, p.within with
  | _ :: ahead, _ => (false, { p with ahead })
  | [], none =>
    match opened? (c :: rest) with
    | some e => (false, { within := some e, ahead := e.opening.tail })
    | none => (false, p)
  | [], some e =>
    match if p.escaped then none else e.closed? (c :: rest) with
    | some closing => (false, { ahead := closing.tail })
    | none => (e.hides, { p with escaped := e.escapes && c == '\\' && !p.escaped })

/-- Characters of this place are seen, those of a mark ahead apart. -/
def shows (p : Place) : Bool := p.within.all fun e => !e.hides

/-- The mark ahead is what comes next. -/
def Fits (p : Place) (s : List Char) : Prop :=
  startsWith p.ahead s = true ∧ ∀ c ∈ p.ahead, isWord c = false

end Place

namespace Enclosure

variable {e : Enclosure}

theorem opening_ne_nil (e : Enclosure) : e.opening ≠ [] := by
  have h := e.opens
  simp only [Bool.and_eq_true, Bool.not_eq_true', List.isEmpty_eq_false_iff] at h
  exact h.1

theorem isFence_of_mem_opening {c : Char} (hc : c ∈ e.opening) : isFence c = true := by
  have h := e.opens
  rw [Bool.and_eq_true] at h
  exact List.all_eq_true.1 h.2 c hc

theorem closing_marks {closing : List Char} (h : closing ∈ e.closings) :
    closing ≠ [] ∧ ∀ c ∈ closing, isWord c = false := by
  have hcloses := List.all_eq_true.1 e.closes closing h
  simpa using hcloses

end Enclosure

/-! ### One character -/

theorem eq_cons_tail {mark rest : List Char} {c : Char} (hne : mark ≠ [])
    (h : startsWith mark (c :: rest) = true) :
    mark = c :: mark.tail ∧ startsWith mark.tail rest = true := by
  cases mark with
  | nil => exact absurd rfl hne
  | cons d more =>
    obtain ⟨behind, heq⟩ := startsWith_iff.1 h
    obtain ⟨rfl, rfl⟩ := List.cons.inj heq
    exact ⟨rfl, startsWith_iff.2 ⟨behind, rfl⟩⟩

theorem not_isWord_of_isFence {c : Char} (h : isFence c = true) : isWord c = false := by
  simp only [isFence, Bool.and_eq_true, Bool.not_eq_true'] at h
  exact h.1

section Opened

variable {e : Enclosure} {c : Char} {rest closing : List Char}

theorem isFence_of_opened? (h : opened? (c :: rest) = some e) : isFence c = true := by
  have hbegins : startsWith e.opening (c :: rest) = true := by simpa using List.find?_some h
  obtain ⟨hmark, -⟩ := eq_cons_tail e.opening_ne_nil hbegins
  apply e.isFence_of_mem_opening
  rw [hmark]
  exact List.mem_cons_self

theorem fits_of_opened? (h : opened? (c :: rest) = some e) :
    Place.Fits { within := some e, ahead := e.opening.tail } rest := by
  have hbegins : startsWith e.opening (c :: rest) = true := by simpa using List.find?_some h
  obtain ⟨-, hrest⟩ := eq_cons_tail e.opening_ne_nil hbegins
  exact ⟨hrest, fun d hd =>
    not_isWord_of_isFence (e.isFence_of_mem_opening (List.mem_of_mem_tail hd))⟩

theorem fits_of_closed? (h : e.closed? (c :: rest) = some closing) :
    isWord c = false ∧ Place.Fits { ahead := closing.tail } rest := by
  obtain ⟨hne, hmarks⟩ := e.closing_marks (List.mem_of_find?_eq_some h)
  have hbegins : startsWith closing (c :: rest) = true := by simpa using List.find?_some h
  obtain ⟨hmark, hrest⟩ := eq_cons_tail hne hbegins
  refine ⟨hmarks c ?_, hrest, fun d hd => hmarks d (List.mem_of_mem_tail hd)⟩
  rw [hmark]
  exact List.mem_cons_self

end Opened

/-- What one character does to the scan. From a place where characters are seen only a fence leads
to one where they are hidden; there all is hidden but marks, which are no part of a word. -/
theorem Place.step_spec {p : Place} {c : Char} {rest : List Char} (h : p.Fits (c :: rest)) :
    (p.step c rest).2.Fits rest ∧
    (p.shows = true →
      (p.step c rest).1 = false ∧ (isFence c = true ∨ (p.step c rest).2.shows = true)) ∧
    (p.shows = false →
      ((p.step c rest).1 = true ∧ (p.step c rest).2.shows = false) ∨
      ((p.step c rest).1 = false ∧ isWord c = false)) := by
  unfold step
  split
  · next d ahead hahead =>
    obtain ⟨hmark, hrest⟩ := eq_cons_tail (by simp [hahead]) h.1
    have hd : c = d := by
      rw [hahead] at hmark
      exact (List.cons.inj hmark).1.symm
    rw [Fits, hahead] at h
    rw [hahead] at hrest
    refine ⟨⟨hrest, fun d hd => h.2 d (List.mem_cons_of_mem _ hd)⟩, fun hp => ⟨rfl, .inr hp⟩,
      fun _ => .inr ⟨rfl, h.2 c ?_⟩⟩
    rw [hd]
    exact List.mem_cons_self
  · next hahead hwithin =>
    have hshows : p.shows = true := by simp [shows, hwithin]
    cases hopened : opened? (c :: rest) with
    | some e =>
      exact ⟨fits_of_opened? hopened, fun _ => ⟨rfl, .inl (isFence_of_opened? hopened)⟩,
        fun hp => by rw [hshows] at hp; cases hp⟩
    | none =>
      refine ⟨⟨?_, ?_⟩, fun _ => ⟨rfl, .inr hshows⟩, fun hp => by rw [hshows] at hp; cases hp⟩
      · rw [hahead]; rfl
      · rw [hahead]; simp
  · next e hahead hwithin =>
    have hshows : p.shows = !e.hides := by simp [shows, hwithin]
    cases hclosed : if p.escaped then none else e.closed? (c :: rest) with
    | some closing =>
      have hclosed : e.closed? (c :: rest) = some closing := by
        split at hclosed
        · cases hclosed
        · exact hclosed
      obtain ⟨hword, hfits⟩ := fits_of_closed? hclosed
      exact ⟨hfits, fun _ => ⟨rfl, .inr rfl⟩, fun _ => .inr ⟨rfl, hword⟩⟩
    | none =>
      refine ⟨⟨?_, ?_⟩, fun hp => ⟨?_, .inr hp⟩, fun hp => .inl ⟨?_, hp⟩⟩
      · show startsWith p.ahead rest = true
        rw [hahead]; rfl
      · show ∀ c ∈ p.ahead, isWord c = false
        rw [hahead]; simp
      · rw [hshows] at hp
        simpa using hp
      · rw [hshows] at hp
        simpa using hp

/-! ### A whole text -/

/-- A character of a text, and whether it is inside a comment or a string constant. -/
structure Spot where
  char : Char
  hidden : Bool
deriving DecidableEq, Repr

/-- What is left of it where comments and string constants are blank. -/
def Spot.shown (spot : Spot) : Char := if spot.hidden then ' ' else spot.char

def spotsFrom (p : Place) : List Glyph → List Spot
  | [] => []
  | g :: gs =>
    let read := p.step g.char (gs.map Glyph.char)
    g.spelling.map (Spot.mk · read.1) ++ spotsFrom read.2 gs

def spots (s : List Char) : List Spot := spotsFrom {} (glyphs s)

/-- The text with a space for every character inside a comment or a string constant. -/
def blanked (source : String) : String := .ofList ((spots source.toList).map Spot.shown)

/-- A quote as a character constant, one escaped and one written by its code; a block of text with
quotes in it; a mark of a comment inside of a string constant, and a quote inside of a comment. -/
example :
    blanked "c = '\"' + \"a\\\"//\" + \\u0022b\\u0022 /* \" */ + \"\"\"\nd\"\\\"\"\"e\"\"\"; // f" =
      "c = '\"' + \"     \" + \\u0022 \\u0022 /*   */ + \"\"\"        \"\"\"; //  " := by
  decide +kernel

theorem map_char_spots (s : List Char) : (spots s).map Spot.char = s := by
  have hfrom (p : Place) (gs : List Glyph) :
      (spotsFrom p gs).map Spot.char = gs.flatMap Glyph.spelling := by
    induction gs generalizing p with
    | nil => rfl
    | cons g gs ih => simp [spotsFrom, ih, Function.comp_def]
  rw [spots, hfrom, flatMap_glyphs]

/-- A fence stands before the first hidden character, if there is one. -/
def fencedOff : List Spot → Bool
  | [] => true
  | spot :: rest => !spot.hidden && (isFence spot.char || fencedOff rest)

/-- No word begins with the first character, nor goes on. -/
def Quiet (m : List Spot) : Prop := ∀ c, m.head? = some ⟨c, false⟩ → isWord c = false

/-- A spelling begins with the character itself or with a backslash. -/
theorem Glyph.exists_spelling (g : Glyph) :
    ∃ c more, g.spelling = c :: more ∧ (c = g.char ∨ isFence c = true) := by
  obtain h | ⟨code, h, -⟩ := g.spelled
  · exact ⟨g.char, [], h, .inl rfl⟩
  · exact ⟨'\\', 'u' :: code, h, .inr (by decide)⟩

theorem fencedOff_append (s : List Char) {m : List Spot} (h : fencedOff m = true) :
    fencedOff (s.map (Spot.mk · false) ++ m) = true := by
  induction s with
  | nil => exact h
  | cons c s ih => simp [fencedOff, ih]

theorem fencedOff_spotsFrom {p : Place} {gs : List Glyph} (h : p.Fits (gs.map Glyph.char))
    (hp : p.shows = true) : fencedOff (spotsFrom p gs) = true := by
  induction gs generalizing p with
  | nil => rfl
  | cons g gs ih =>
    obtain ⟨hfits, hshows, -⟩ := Place.step_spec h
    obtain ⟨hseen, hfence | hnext⟩ := hshows hp
    · obtain ⟨c, more, hspelling, hc⟩ := g.exists_spelling
      have hc : isFence c = true := hc.elim (fun hc => by rw [hc, hfence]) id
      simp [spotsFrom, hseen, hspelling, fencedOff, hc]
    · rw [spotsFrom, hseen]
      exact fencedOff_append _ (ih hfits hnext)

theorem quiet_spotsFrom {p : Place} {gs : List Glyph} (h : p.Fits (gs.map Glyph.char))
    (hp : p.shows = false) : Quiet (spotsFrom p gs) := by
  cases gs with
  | nil =>
    intro c hc
    cases hc
  | cons g gs =>
    obtain ⟨-, -, hhides⟩ := Place.step_spec h
    obtain ⟨c, more, hspelling, hc⟩ := g.exists_spelling
    intro d hd
    simp only [spotsFrom, hspelling, List.map_cons, List.cons_append, List.head?_cons,
      Option.some.injEq, Spot.mk.injEq] at hd
    obtain ⟨rfl, hhidden⟩ := hd
    obtain ⟨hhidden', -⟩ | ⟨-, hword⟩ := hhides hp
    · rw [hhidden] at hhidden'
      cases hhidden'
    · rcases hc with rfl | hfence
      · exact hword
      · exact not_isWord_of_isFence hfence

end PointsTo.Java
