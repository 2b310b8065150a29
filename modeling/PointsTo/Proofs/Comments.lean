import PointsTo.Proofs.Cutting
import PointsTo.Proofs.FaultLines

/-!
Comments and string constants. Taking the comments off a text goes over it twice, first for block
comments and then line by line for the rest of a line, and only the second pass knows string
constants. Against it stands one scan from left to right that knows everything at once. The two
agree on every text whose comments and string constants keep apart: no block comment begins inside
a string constant or inside a comment of the other kind, and its lines end as most lines do.
-/
namespace PointsTo.Jimple

open PointsTo.Text

/-! ### One scan -/

/-- The inside of a closed block comment at the start of a text, and what follows it. -/
def blockComment? (s : List Char) : Option (List Char × List Char) :=
  (after? ['/', '*'] s).bind (cut? ['*', '/'])

theorem eq_of_blockComment? {s comment behind : List Char}
    (h : blockComment? s = some (comment, behind)) :
    s = '/' :: '*' :: (comment ++ '*' :: '/' :: behind) := by
  obtain ⟨rest, hafter, hcut⟩ := Option.bind_eq_some_iff.1 h
  rw [after?_eq_some.1 hafter, eq_append_of_cut? hcut]
  simp

/-- How many lines end in a text. A carriage return and the line feed behind it end one. -/
def lineEnds : List Char → Nat
  | [] => 0
  | c :: rest =>
    (if isLineEnd c ∧ ¬(c = '\r' ∧ rest.head? = some '\n') then 1 else 0) + lineEnds rest

/-- Where a scan is: in the code, with what it knows of string constants, or in the comment that
takes the rest of a line. -/
inductive Region where
  | code (q : Quoting)
  | remark
deriving DecidableEq, Repr

/-- Where the scan is behind a character. The end of a line ends string constants and remarks. -/
def Region.next (r : Region) (c : Char) (rest : List Char) : Region :=
  if isLineEnd c then .code .outside
  else
    match r with
    | .remark => .remark
    | .code q =>
      if q = .outside ∧ c = '/' ∧ rest.head? = some '/' then .remark else .code (q.next c)

/-- The block comment that begins where the scan is. One begins in the code only. -/
def Region.block? : Region → List Char → Option (List Char × List Char)
  | .code .outside, s => blockComment? s
  | _, _ => none

section Block

variable {r : Region} {s comment behind : List Char}

theorem Region.eq_of_block? (h : r.block? s = some (comment, behind)) : r = .code .outside := by
  unfold block? at h
  split at h
  · rfl
  · cases h

theorem blockComment?_of_block? (h : r.block? s = some (comment, behind)) :
    blockComment? s = some (comment, behind) := by
  rwa [r.eq_of_block? h] at h

theorem Region.length_of_block? (h : r.block? s = some (comment, behind)) :
    behind.length < s.length := by
  have := congrArg List.length (eq_of_blockComment? (blockComment?_of_block? h))
  simp only [List.length_cons, List.length_append] at this
  omega

end Block

/-- A line is there, though nothing of it is kept. -/
def openLine : List (List Char) → List (List Char)
  | [] => [[]]
  | lines => lines

/-- The lines of a text without comments, in one scan: a block comment in the code goes but for its
ends of lines, and two slashes there take the rest of the line with them. -/
def scanLines (r : Region) : List Char → List (List Char)
  | [] => []
  | c :: rest =>
    match _h : r.block? (c :: rest) with
    | some (comment, behind) =>
      List.replicate (lineEnds comment) [] ++ scanLines (.code .outside) behind
    | none =>
      let next := r.next c rest
      if c = '\r' ∧ rest.head? = some '\n' then scanLines next rest
      else if isLineEnd c then [] :: scanLines next rest
      else if next = .remark then openLine (scanLines next rest)
      else extendFirst c (scanLines next rest)
termination_by s => s.length
decreasing_by
  · exact Region.length_of_block? _h
  all_goals simp

/-- Comments and string constants keep apart: where a closed block comment begins, the scan is in
the code, all ends of lines inside of it are line feeds, with or without a carriage return, and
without it no carriage return comes to stand before a line feed. -/
def commentsApart (r : Region) : List Char → Bool
  | [] => true
  | c :: rest =>
    match _h : r.block? (c :: rest) with
    | some (comment, behind) =>
      lineEnds comment = comment.count '\n' && commentsApart (.code .outside) behind
    | none =>
      (blockComment? (c :: rest)).isNone &&
      (c ≠ '\r' || (removeBlocks rest).head? ≠ some '\n' || rest.head? = some '\n') &&
        commentsApart (r.next c rest) rest
termination_by s => s.length
decreasing_by
  · exact Region.length_of_block? _h
  · simp

section Equations

variable {r : Region} {c : Char} {rest comment behind : List Char}

theorem scanLines_of_block (h : r.block? (c :: rest) = some (comment, behind)) :
    scanLines r (c :: rest) =
      List.replicate (lineEnds comment) [] ++ scanLines (.code .outside) behind := by
  rw [scanLines]
  split
  · next comment' behind' h' =>
    obtain ⟨rfl, rfl⟩ := Prod.mk.inj (Option.some.inj (h.symm.trans h'))
    rfl
  · next hnone => rw [h] at hnone; cases hnone

theorem scanLines_of_code (h : r.block? (c :: rest) = none) :
    scanLines r (c :: rest) =
      if c = '\r' ∧ rest.head? = some '\n' then scanLines (r.next c rest) rest
      else if isLineEnd c then [] :: scanLines (r.next c rest) rest
      else if r.next c rest = .remark then openLine (scanLines (r.next c rest) rest)
      else extendFirst c (scanLines (r.next c rest) rest) := by
  rw [scanLines]
  split
  · next hsome => rw [h] at hsome; cases hsome
  · rfl

/-- Outside of the code no block comment begins that is closed. -/
theorem blockComment?_of_apart {s : List Char} (hr : r.block? s = none)
    (h : commentsApart r s = true) : blockComment? s = none := by
  cases s with
  | nil => rfl
  | cons c rest =>
    rw [commentsApart] at h
    split at h
    · next hsome => rw [hr] at hsome; cases hsome
    · simp only [Bool.and_eq_true, Option.isNone_iff_eq_none] at h
      exact h.1.1

end Equations

/-! ### Both passes -/

/-- What is kept of a line that begins where the scan is. -/
def Region.keep : Region → List Char → List Char
  | .code q, line => beforeComment q line
  | .remark, _ => []

/-- The lines that the second pass makes of some lines, the first of them begun before. -/
def keepLines (r : Region) : List (List Char) → List (List Char)
  | [] => []
  | line :: lines => r.keep line :: lines.map (beforeComment .outside)

theorem keepLines_outside (lines : List (List Char)) :
    keepLines (.code .outside) lines = lines.map (beforeComment .outside) := by
  cases lines <;> rfl

theorem keepLines_nil_cons (r : Region) (lines : List (List Char)) :
    keepLines r ([] :: lines) = [] :: keepLines (.code .outside) lines := by
  rw [keepLines_outside, keepLines]
  cases r with
  | code q => cases q <;> rfl
  | remark => rfl

/-- The line feeds that a block comment leaves are lines of their own. -/
theorem splitLines_feeds (comment s : List Char) :
    splitLines (comment.filter (· = '\n') ++ s) =
      List.replicate (comment.count '\n') [] ++ splitLines s := by
  induction comment with
  | nil => rfl
  | cons c comment ih =>
    by_cases hc : c = '\n'
    · subst hc
      rw [List.filter_cons_of_pos (by simp), List.count_cons_self, List.replicate_succ,
        List.cons_append, List.cons_append, ← ih, splitLines_cons (by simp), if_pos (by decide)]
    · rw [List.filter_cons_of_neg (by simpa using hc), List.count_cons_of_ne (by simpa using hc)]
      exact ih

theorem keepLines_feeds (n : Nat) (lines : List (List Char)) :
    keepLines (.code .outside) (List.replicate n [] ++ lines) =
      List.replicate n [] ++ keepLines (.code .outside) lines := by
  rw [keepLines_outside, keepLines_outside, List.map_append, List.map_replicate]
  rfl

/-! ### The first pass, one character at a time -/

theorem removeBlocks_of_blockComment? {s comment behind : List Char}
    (h : blockComment? s = some (comment, behind)) :
    removeBlocks s = comment.filter (· = '\n') ++ removeBlocks behind := by
  obtain ⟨rest, hafter, hcut⟩ := Option.bind_eq_some_iff.1 h
  obtain rfl := after?_eq_some.1 hafter
  rw [List.cons_append, List.cons_append, List.nil_append, removeBlocks]
  split
  · next comment' behind' hcut' =>
    obtain ⟨rfl, rfl⟩ := Prod.mk.inj (Option.some.inj (hcut.symm.trans hcut'))
    rfl
  · next hnone => rw [hcut] at hnone; cases hnone

theorem cut?_eq_none_of_cons {mark s : List Char} {c : Char} (h : cut? mark (c :: s) = none) :
    cut? mark s = none := by
  rw [cut?] at h
  split at h
  · cases h
  · exact Option.map_eq_none_iff.1 h

/-- A text in which no comment is closed is left as it is. -/
theorem removeBlocks_of_unclosed {s : List Char} (h : cut? ['*', '/'] s = none) :
    removeBlocks s = s := by
  fun_induction removeBlocks s with
  | case1 => rfl
  | case2 rest comment behind hcut ih =>
    rw [cut?_eq_none_of_cons (cut?_eq_none_of_cons h)] at hcut
    cases hcut
  | case3 rest hcut => rfl
  | case4 c rest hno ih => rw [ih (cut?_eq_none_of_cons h)]

/-- Where no comment begins that is closed, the first character stays. -/
theorem removeBlocks_cons {c : Char} {rest : List Char} (h : blockComment? (c :: rest) = none) :
    removeBlocks (c :: rest) = c :: removeBlocks rest := by
  by_cases hopens : c = '/' ∧ rest.head? = some '*'
  · obtain ⟨rfl, hrest⟩ := hopens
    obtain ⟨behind, rfl⟩ := List.head?_eq_some_iff.1 hrest
    have hcut : cut? ['*', '/'] behind = none := by simpa [blockComment?, after?] using h
    have hstar : removeBlocks ('*' :: behind) = '*' :: removeBlocks behind :=
      removeBlocks.eq_3 '*' behind (by simp)
    rw [removeBlocks, hstar, removeBlocks_of_unclosed hcut]
    split
    · next hsome => rw [hcut] at hsome; cases hsome
    · rfl
  · refine removeBlocks.eq_3 c rest fun behind hc hrest => hopens ⟨hc, ?_⟩
    rw [hrest]
    rfl

theorem head?_of_removeBlocks_slash {s : List Char} (h : (removeBlocks s).head? = some '/') :
    s.head? = some '/' := by
  cases hblock : blockComment? s with
  | some halves =>
    rw [eq_of_blockComment? hblock]
    rfl
  | none =>
    cases s with
    | nil => simp [removeBlocks] at h
    | cons c rest =>
      rw [removeBlocks_cons hblock] at h
      exact h

/-! ### One pass and two passes -/

theorem beforeComment_cons {q : Quoting} {c : Char} {line : List Char}
    (h : ¬(q = .outside ∧ c = '/' ∧ line.head? = some '/')) :
    beforeComment q (c :: line) = c :: beforeComment (q.next c) line := by
  refine beforeComment.eq_3 q c line fun rest hq hc hline => h ⟨hq, hc, ?_⟩
  rw [hline]
  rfl

/-- The second pass and the scan do the same with a character that does not end the line. -/
theorem keepLines_extendFirst {r : Region} {c : Char} {rest : List Char}
    {lines : List (List Char)} (hline : isLineEnd c = false)
    (hslash : lines.head?.bind List.head? = some '/' → rest.head? = some '/')
    (hremark : r.next c rest = .remark → rest.head? = some '/' →
      lines.head?.bind List.head? = some '/') :
    keepLines r (extendFirst c lines) =
      if r.next c rest = .remark then openLine (keepLines (r.next c rest) lines)
      else extendFirst c (keepLines (r.next c rest) lines) := by
  cases r with
  | remark =>
    have hnext : Region.remark.next c rest = .remark := by simp [Region.next, hline]
    rw [if_pos hnext, hnext]
    cases lines <;> rfl
  | code q =>
    by_cases hopens : q = .outside ∧ c = '/' ∧ rest.head? = some '/'
    · have hnext : (Region.code q).next c rest = .remark := by
        simp only [Region.next, hline, Bool.false_eq_true, if_false, if_pos hopens]
      obtain ⟨line, hhead, hfirst⟩ :=
        Option.bind_eq_some_iff.1 (hremark hnext hopens.2.2)
      obtain ⟨lines, rfl⟩ := List.head?_eq_some_iff.1 hhead
      obtain ⟨line, rfl⟩ := List.head?_eq_some_iff.1 hfirst
      rw [if_pos hnext, hnext, hopens.1, hopens.2.1]
      rfl
    · have hnext : (Region.code q).next c rest = .code (q.next c) := by
        simp only [Region.next, hline, Bool.false_eq_true, if_false, if_neg hopens]
      rw [hnext, if_neg (by simp)]
      cases lines with
      | nil =>
        simp [extendFirst, keepLines, Region.keep, beforeComment_cons, beforeComment]
      | cons line lines =>
        have hkept : ¬(q = .outside ∧ c = '/' ∧ line.head? = some '/') := fun h =>
          hopens ⟨h.1, h.2.1, hslash h.2.2⟩
        simp [extendFirst, keepLines, Region.keep, beforeComment_cons hkept]

/-- A text and its first line begin alike, if not with an end of line. -/
theorem head?_splitLines {c : Char} (hc : isLineEnd c = false) (s : List Char) :
    (splitLines s).head?.bind List.head? = some c ↔ s.head? = some c := by
  cases s with
  | nil => simp [splitLines]
  | cons d rest =>
    by_cases hjoin : d = '\r' ∧ rest.head? = some '\n'
    · obtain ⟨rfl, hrest⟩ := hjoin
      obtain ⟨rest, rfl⟩ := List.head?_eq_some_iff.1 hrest
      have hne : '\r' ≠ c := by
        rintro rfl
        cases hc
      simp [splitLines, hne]
    · rw [splitLines_cons hjoin]
      split
      · next hd =>
        have hne : d ≠ c := by
          rintro rfl
          rw [hc] at hd
          cases hd
        simp [hne]
      · cases splitLines rest <;> simp [extendFirst]

theorem splitLines_feed (s : List Char) : splitLines ('\n' :: s) = [] :: splitLines s := by
  rw [splitLines_cons (by simp), if_pos (by decide)]

/-- A carriage return in front of a line feed makes no line. -/
theorem splitLines_return {s : List Char} (h : s.head? = some '\n') :
    splitLines ('\r' :: s) = splitLines s := by
  obtain ⟨rest, rfl⟩ := List.head?_eq_some_iff.1 h
  rw [splitLines, splitLines_feed]

theorem keepLines_feed (r r' : Region) {s : List Char} (h : s.head? = some '\n') :
    keepLines r (splitLines s) = keepLines r' (splitLines s) := by
  obtain ⟨rest, rfl⟩ := List.head?_eq_some_iff.1 h
  rw [splitLines_feed, keepLines_nil_cons, keepLines_nil_cons]

theorem keepLines_removeBlocks (r : Region) (s : List Char) (h : commentsApart r s = true) :
    keepLines r (splitLines (removeBlocks s)) = scanLines r s := by
  fun_induction commentsApart r s with
  | case1 r => simp [removeBlocks, splitLines, scanLines, keepLines]
  | case2 r c rest comment behind hblock ih =>
    simp only [Bool.and_eq_true, decide_eq_true_eq] at h
    rw [scanLines_of_block hblock, removeBlocks_of_blockComment? (blockComment?_of_block? hblock),
      splitLines_feeds, r.eq_of_block? hblock, keepLines_feeds, ih h.2, h.1]
  | case3 r c rest hblock ih =>
    simp only [Bool.and_eq_true, Bool.or_eq_true, decide_eq_true_eq,
      Option.isNone_iff_eq_none] at h
    obtain ⟨⟨hnone, hreturn⟩, hrest⟩ := h
    rw [scanLines_of_code hblock, removeBlocks_cons hnone, ← ih hrest]
    by_cases hjoin : c = '\r' ∧ rest.head? = some '\n'
    · have hfeed := head?_removeBlocks hjoin.2
      rw [if_pos hjoin, hjoin.1, splitLines_return hfeed]
      exact keepLines_feed _ _ hfeed
    · have hkept : ¬(c = '\r' ∧ (removeBlocks rest).head? = some '\n') := by
        rintro ⟨rfl, hfeed⟩
        rcases hreturn with (hc | hc) | hc
        · exact hc rfl
        · exact hc hfeed
        · exact hjoin ⟨rfl, hc⟩
      rw [if_neg hjoin, splitLines_cons hkept]
      by_cases hline : isLineEnd c = true
      · have hnext : r.next c rest = .code .outside := if_pos hline
        rw [if_pos hline, if_pos hline, keepLines_nil_cons, hnext]
      · rw [if_neg hline, if_neg hline]
        refine keepLines_extendFirst (by simpa using hline) (fun hhead => ?_) fun hnext hhead => ?_
        · exact head?_of_removeBlocks_slash ((head?_splitLines (by decide) _).1 hhead)
        · rw [hnext] at hrest
          obtain ⟨behind, rfl⟩ := List.head?_eq_some_iff.1 hhead
          have hopen := removeBlocks_cons (blockComment?_of_apart (r := .remark) rfl hrest)
          rw [head?_splitLines (by decide), hopen]
          rfl

/-! ### Line numbers -/

/-- Line by line, the first lines have nothing but what the second ones have at the same place. -/
def LinesWithin : List (List Char) → List (List Char) → Prop
  | [], _ => True
  | _ :: _, [] => False
  | line :: lines, whole :: wholes => line.Sublist whole ∧ LinesWithin lines wholes

namespace LinesWithin

variable {lines wholes : List (List Char)} {c : Char}

theorem openLine (h : LinesWithin lines wholes) (hne : wholes ≠ []) :
    LinesWithin (openLine lines) wholes := by
  obtain ⟨whole, wholes, rfl⟩ := List.exists_cons_of_ne_nil hne
  cases lines with
  | nil => exact ⟨List.nil_sublist whole, trivial⟩
  | cons line lines => exact h

theorem refl (lines : List (List Char)) : LinesWithin lines lines := by
  induction lines with
  | nil => trivial
  | cons line lines ih => exact ⟨List.Sublist.refl line, ih⟩

theorem skip (h : LinesWithin lines wholes) (c : Char) :
    LinesWithin lines (extendFirst c wholes) := by
  cases lines with
  | nil => trivial
  | cons line lines =>
    cases wholes with
    | nil => cases h
    | cons whole wholes => exact ⟨h.1.cons c, h.2⟩

theorem take (h : LinesWithin lines wholes) (c : Char) :
    LinesWithin (extendFirst c lines) (extendFirst c wholes) := by
  cases lines with
  | nil =>
    cases wholes with
    | nil => exact ⟨List.Sublist.refl _, trivial⟩
    | cons whole wholes => exact ⟨(List.nil_sublist whole).cons_cons c, trivial⟩
  | cons line lines =>
    cases wholes with
    | nil => cases h
    | cons whole wholes => exact ⟨h.1.cons_cons c, h.2⟩

theorem getElem? (h : LinesWithin lines wholes) {i : Nat} {line : List Char}
    (hi : lines[i]? = some line) : ∃ whole, wholes[i]? = some whole ∧ line.Sublist whole := by
  induction lines generalizing wholes i with
  | nil => cases hi
  | cons first lines ih =>
    cases wholes with
    | nil => cases h
    | cons whole wholes =>
      cases i with
      | zero =>
        obtain rfl := Option.some.inj hi
        exact ⟨whole, rfl, h.1⟩
      | succ i => exact ih h.2 hi

end LinesWithin

/-- Text of which only the ends of lines are kept. -/
theorem linesWithin_lineEnds {lines : List (List Char)} {s : List Char} (t : List Char)
    (h : LinesWithin lines (splitLines s)) (hs : s.head? ≠ some '\n') :
    LinesWithin (List.replicate (lineEnds t) [] ++ lines) (splitLines (t ++ s)) := by
  induction t with
  | nil => exact h
  | cons c t ih =>
    have hhead : (t ++ s).head? = some '\n' ↔ t.head? = some '\n' := by
      cases t with
      | nil => simpa using hs
      | cons d t => rfl
    rw [lineEnds, List.cons_append]
    by_cases hjoin : c = '\r' ∧ t.head? = some '\n'
    · rw [if_neg fun hc => hc.2 hjoin, Nat.zero_add, hjoin.1, splitLines_return (hhead.2 hjoin.2)]
      exact ih
    · rw [splitLines_cons fun hc => hjoin ⟨hc.1, hhead.1 hc.2⟩]
      by_cases hline : isLineEnd c = true
      · rw [if_pos ⟨hline, hjoin⟩, if_pos hline, Nat.add_comm, List.replicate_succ]
        exact ⟨List.nil_sublist _, ih⟩
      · rw [if_neg fun hc => hline hc.1, if_neg hline, Nat.zero_add]
        exact ih.skip c

theorem linesWithin_skip {lines : List (List Char)} {s : List Char} {c : Char}
    (hc : isLineEnd c = false) (h : LinesWithin lines (splitLines s)) :
    LinesWithin lines (splitLines (c :: s)) := by
  rw [splitLines_cons (by rintro ⟨rfl, -⟩; cases hc), hc]
  exact h.skip c

/-- A block comment of which only the ends of lines are kept. -/
theorem linesWithin_block {lines : List (List Char)} {behind : List Char} (comment : List Char)
    (h : LinesWithin lines (splitLines behind)) :
    LinesWithin (List.replicate (lineEnds comment) [] ++ lines)
      (splitLines ('/' :: '*' :: (comment ++ '*' :: '/' :: behind))) := by
  have hbehind := linesWithin_skip (c := '*') (by decide) (linesWithin_skip (c := '/') (by decide) h)
  have hcomment := linesWithin_lineEnds comment hbehind (by simp)
  exact linesWithin_skip (by decide) (linesWithin_skip (by decide) hcomment)

/-- What the scan keeps stays on its line. -/
theorem linesWithin_scanLines (r : Region) (s : List Char) :
    LinesWithin (scanLines r s) (splitLines s) := by
  fun_induction scanLines r s with
  | case1 r => trivial
  | case2 r c rest comment behind hblock ih =>
    rw [eq_of_blockComment? (blockComment?_of_block? hblock)]
    exact linesWithin_block comment ih
  | case3 r c rest hblock next hjoin ih =>
    rw [hjoin.1, splitLines_return hjoin.2]
    exact ih
  | case4 r c rest hblock next hjoin hline ih =>
    rw [splitLines_cons hjoin, if_pos hline]
    exact ⟨List.nil_sublist _, ih⟩
  | case5 r c rest hblock next hjoin hline hremark ih =>
    rw [splitLines_cons hjoin, if_neg hline]
    refine LinesWithin.openLine (ih.skip c) ?_
    cases splitLines rest <;> simp [extendFirst]
  | case6 r c rest hblock next hjoin hline hremark ih =>
    rw [splitLines_cons hjoin, if_neg hline]
    exact ih.take c

/-! ### Characters -/

section Characters

variable {s line : List Char} {c : Char}

theorem mem_of_mem_removeBlocks (h : c ∈ removeBlocks s) : c ∈ s := by
  fun_induction removeBlocks s with
  | case1 => exact h
  | case2 rest comment behind hcut ih =>
    rw [eq_append_of_cut? hcut]
    rcases List.mem_append.1 h with h | h
    · simp [List.mem_of_mem_filter h]
    · simp [ih h]
  | case3 => exact h
  | case4 d rest _ ih =>
    rcases List.mem_cons.1 h with rfl | h
    · exact List.mem_cons_self
    · exact List.mem_cons_of_mem d (ih h)

theorem mem_of_mem_splitLines (h : line ∈ splitLines s) (hc : c ∈ line) : c ∈ s := by
  fun_induction splitLines s generalizing line with
  | case1 => cases h
  | case2 rest ih =>
    rcases List.mem_cons.1 h with rfl | h
    · cases hc
    · exact List.mem_cons_of_mem _ (List.mem_cons_of_mem _ (ih h hc))
  | case3 d rest _ _ ih =>
    rcases List.mem_cons.1 h with rfl | h
    · cases hc
    · exact List.mem_cons_of_mem d (ih h hc)
  | case4 d rest _ _ ih =>
    rcases mem_of_mem_extendFirst h hc with rfl | ⟨p, hp, hc⟩
    · exact List.mem_cons_self
    · exact List.mem_cons_of_mem d (ih hp hc)

theorem mem_of_mem_beforeComment {q : Quoting} (h : c ∈ beforeComment q s) : c ∈ s := by
  fun_induction beforeComment q s with
  | case1 => exact h
  | case2 => cases h
  | case3 q d rest _ ih =>
    rcases List.mem_cons.1 h with rfl | h
    · exact List.mem_cons_self
    · exact List.mem_cons_of_mem d (ih h)

/-- A line of code has only characters of its text. -/
theorem mem_of_mem_codeLines (h : line ∈ codeLines s) (hc : c ∈ line) : c ∈ s := by
  obtain ⟨raw, hraw, rfl⟩ := List.mem_map.1 h
  have hmem := mem_of_mem_beforeComment (mem_of_mem_trim hc)
  exact mem_of_mem_removeBlocks (mem_of_mem_splitLines hraw hmem)

end Characters

/-! ### Lines of code -/

/-- **Taking the comments off is one scan that knows string constants**, for every text in which
comments and string constants keep apart: the lines of code are those of the scan, trimmed. Each has
the number of the line of the text that it is a part of. -/
theorem codeLines_eq_scanLines (text : List Char)
    (h : commentsApart (.code .outside) text = true) :
    codeLines text = (scanLines (.code .outside) text).map trim ∧
    ∀ (i : Nat) (line : List Char), (codeLines text)[i]? = some line →
      ∃ whole, (splitLines text)[i]? = some whole ∧ line.Sublist whole := by
  have hscan : codeLines text = (scanLines (.code .outside) text).map trim := by
    rw [← keepLines_removeBlocks _ _ h, keepLines_outside, List.map_map]
    rfl
  refine ⟨hscan, fun i line hi => ?_⟩
  rw [hscan, List.getElem?_map] at hi
  obtain ⟨kept, hkept, rfl⟩ := Option.map_eq_some_iff.1 hi
  obtain ⟨whole, hwhole, hsub⟩ := (linesWithin_scanLines _ _).getElem? hkept
  obtain ⟨before, after, heq, -, -⟩ := exists_trim kept
  have htrim : (trim kept).Sublist kept := by
    conv_rhs => rw [heq]
    exact (List.sublist_append_right before _).trans (List.sublist_append_left _ after)
  exact ⟨whole, hwhole, htrim.trans hsub⟩

/-- String constants with marks and an escaped quote, comments with quotes, a comment over two
lines, and one that is not closed. Behind it a text whose string constants hold the two marks of a
comment: the statement between them is lost. -/
theorem codeLines_eq_scanLines_tangled :
    let text := "x = \"//\\\"\"; /* \"\n // */ y = \"z\"; // \" /* '\n\"a\n/* b".toList
    let swallowed := "a = \"/*\";\nb = c;\nd = \"*/\";".toList
    (commentsApart (.code .outside) text = true ∧
      codeLines text = (scanLines (.code .outside) text).map trim ∧
      codeLines text =
        ["x = \"//\\\"\";".toList, "y = \"z\";".toList, "\"a".toList, "/* b".toList]) ∧
    (commentsApart (.code .outside) swallowed = false ∧
      codeLines swallowed = ["a = \"".toList, [], "\";".toList] ∧
      scanLines (.code .outside) swallowed =
        ["a = \"/*\";".toList, "b = c;".toList, "d = \"*/\";".toList]) := by
  intro text swallowed
  have h : commentsApart (.code .outside) text = true := by decide +kernel
  exact ⟨⟨h, (codeLines_eq_scanLines text h).1, by decide +kernel⟩,
    by decide +kernel, by decide +kernel, by decide +kernel⟩

end PointsTo.Jimple
