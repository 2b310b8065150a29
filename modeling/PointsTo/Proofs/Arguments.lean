import PointsTo.Jimple.Scan
import PointsTo.Proofs.Cutting

/-!
Argument lists. An argument may hold string constants, and in them any character; outside of them it
has no comma, and its parentheses are balanced. Behind such an argument a scan is where it was
before, so the parenthesis that closes a list of arguments is found, and cutting the list gives them
back.
-/
namespace PointsTo.Jimple

open PointsTo.Text

/-! ### Scans over texts put together -/

/-- Where a scan is behind a text. -/
def Quoting.after (q : Quoting) (s : List Char) : Quoting := s.foldl Quoting.next q

theorem Quoting.after_append (q : Quoting) (s t : List Char) :
    q.after (s ++ t) = (q.after s).after t :=
  List.foldl_append

/-- The characters of a text that are read outside of string constants. -/
def outsides : Quoting → List Char → List Char
  | _, [] => []
  | .outside, c :: rest => c :: outsides (Quoting.outside.next c) rest
  | q, c :: rest => outsides (q.next c) rest

theorem outsides_append (q : Quoting) (s t : List Char) :
    outsides q (s ++ t) = outsides q s ++ outsides (q.after s) t := by
  induction s generalizing q with
  | nil => cases q <;> rfl
  | cons c s ih =>
    have hafter : q.after (c :: s) = (q.next c).after s := rfl
    cases q <;> simp only [List.cons_append, outsides, ih, hafter]

/-- How deep the brackets are nested behind a text, unless one of them closes what the text has not
opened. -/
def nesting (opening closing : Char) : Nat → List Char → Option Nat
  | depth, [] => some depth
  | depth, c :: rest =>
    if c = opening then nesting opening closing (depth + 1) rest
    else if c = closing then
      if depth = 0 then none else nesting opening closing (depth - 1) rest
    else nesting opening closing depth rest

section Nesting

variable {opening closing : Char} {i j : Nat} {s t : List Char}

theorem nesting_append (h : nesting opening closing i s = some j) :
    nesting opening closing i (s ++ t) = nesting opening closing j t := by
  fun_induction nesting opening closing i s with
  | case1 i =>
    obtain rfl := Option.some.inj h
    rfl
  | case2 i rest ih =>
    rw [List.cons_append, nesting, if_pos rfl]
    exact ih h
  | case3 rest hc => cases h
  | case4 i rest hc hi ih =>
    rw [List.cons_append, nesting, if_neg hc, if_pos rfl, if_neg hi]
    exact ih h
  | case5 i c rest hopen hclose ih =>
    rw [List.cons_append, nesting, if_neg hopen, if_neg hclose]
    exact ih h

theorem nesting_of_not_mem (hopen : opening ∉ s) (hclose : closing ∉ s) :
    nesting opening closing i s = some i := by
  induction s with
  | nil => rfl
  | cons c s ih =>
    rw [List.mem_cons, not_or] at hopen hclose
    rw [nesting, if_neg (Ne.symm hopen.1), if_neg (Ne.symm hclose.1)]
    exact ih hopen.2 hclose.2

end Nesting

/-! ### Closing brackets -/

theorem map_length_cons (c : Char) (s : List Char) (n : Option Nat) :
    (n.map (s.length + ·)).map (· + 1) = n.map ((c :: s).length + ·) := by
  cases n with
  | none => rfl
  | some n =>
    simp only [Option.map_some, List.length_cons]
    congr 1
    omega

/-- Inside a bracket, a text that closes no more than it opens is gone over. -/
theorem angleLength?_append {i j : Nat} {s : List Char} (t : List Char)
    (h : nesting '<' '>' i s = some j) :
    angleLength? (i + 1) (s ++ t) = (angleLength? (j + 1) t).map (s.length + ·) := by
  fun_induction nesting '<' '>' i s with
  | case1 i =>
    obtain rfl := Option.some.inj h
    simp
  | case2 i rest ih =>
    have hdepth : ((i + 1 : Nat) : Int) + 1 = i + 1 + 1 := by omega
    rw [List.cons_append, angleLength?, if_neg (by simp), ← map_length_cons, ← ih h, hdepth]
    rfl
  | case3 rest hc => cases h
  | case4 i rest hc hi ih =>
    have hdepth : ((i - 1 : Nat) : Int) + 1 = i + 1 - 1 := by omega
    rw [List.cons_append, angleLength?, if_neg (by omega), ← map_length_cons, ← ih h, hdepth]
    rfl
  | case5 i c rest hopen hclose ih =>
    rw [List.cons_append, angleLength?, if_neg fun hc => hclose hc.1, if_neg hopen, if_neg hclose,
      ← map_length_cons, ← ih h]

/-- Inside a parenthesis, a text that closes no more than it opens is gone over, whatever its string
constants close. -/
theorem parenLength?_append {q : Quoting} {i j : Nat} {s : List Char} (t : List Char)
    (h : nesting '(' ')' i (outsides q s) = some j) :
    parenLength? q (i + 1) (s ++ t) =
      (parenLength? (q.after s) (j + 1) t).map (s.length + ·) := by
  induction s generalizing q i with
  | nil =>
    have hij : i = j := by
      cases q <;> exact Option.some.inj h
    simp [hij, Quoting.after]
  | cons c s ih =>
    have hafter : q.after (c :: s) = (q.next c).after s := rfl
    rw [List.cons_append, hafter, ← map_length_cons, parenLength?]
    by_cases hq : q = .outside
    · subst hq
      rw [outsides, nesting] at h
      split at h
      · next hopen =>
        subst hopen
        have hdepth : ((i + 1 : Nat) : Int) + 1 = i + 1 + 1 := by omega
        rw [if_neg (by simp), ← ih h, hdepth]
        rfl
      split at h
      · next hclose =>
        subst hclose
        split at h
        · cases h
        · have hdepth : ((i - 1 : Nat) : Int) + 1 = i + 1 - 1 := by omega
          rw [if_neg (by omega), ← ih h, hdepth]
          rfl
      · next hopen hclose =>
        rw [if_neg fun hc => hclose hc.2.1, if_neg fun hc => hopen hc.2,
          if_neg fun hc => hclose hc.2, ← ih h]
    · have hskip : outsides q (c :: s) = outsides (q.next c) s := by
        cases q with
        | outside => exact absurd rfl hq
        | inside => rfl
        | escaped => rfl
      rw [hskip] at h
      rw [if_neg fun hc => hq hc.1, if_neg fun hc => hq hc.1, if_neg fun hc => hq hc.1, ← ih h]

/-! ### Lists of arguments -/

/-- The text of an argument: trimmed and not empty, every string constant in it closed, and outside
of those without a comma and with balanced parentheses. -/
structure IsArgument (s : List Char) : Prop where
  ne_nil : s ≠ []
  trimmed : Trimmed s
  closed : Quoting.outside.after s = .outside
  no_comma : ',' ∉ outsides .outside s
  balanced : nesting '(' ')' 0 (outsides .outside s) = some 0

/-- Arguments as they are written in a list. -/
def joinArguments (args : List (List Char)) : List Char := [',', ' '].intercalate args

theorem joinArguments_cons_cons (a b : List Char) (args : List (List Char)) :
    joinArguments (a :: b :: args) = a ++ [',', ' '] ++ joinArguments (b :: args) := by
  simp [joinArguments, List.intercalate_cons_cons]

theorem pieces_append {q : Quoting} {s : List Char} (t : List Char) (h : ',' ∉ outsides q s) :
    pieces q (s ++ t) = s.foldr extendFirst (pieces (q.after s) t) := by
  induction s generalizing q with
  | nil => rfl
  | cons c s ih =>
    have hpiece : ¬(q = .outside ∧ c = ',') := by
      rintro ⟨rfl, rfl⟩
      exact h List.mem_cons_self
    have hrest : ',' ∉ outsides (q.next c) s := by
      cases q with
      | outside => exact fun hs => h (List.mem_cons_of_mem _ hs)
      | inside => exact h
      | escaped => exact h
    rw [List.cons_append, pieces, if_neg hpiece, ih hrest]
    rfl

/-- A list of arguments falls into these, each but the first behind a blank. -/
theorem pieces_joinArguments {a : List Char} {args : List (List Char)}
    (h : ∀ s ∈ a :: args, IsArgument s) :
    pieces .outside (joinArguments (a :: args)) = a :: args.map (' ' :: ·) := by
  induction args generalizing a with
  | nil =>
    have ha := h a List.mem_cons_self
    have hpieces := pieces_append [] ha.no_comma
    rw [ha.closed, pieces, foldr_extendFirst] at hpieces
    simpa [joinArguments, List.intercalate] using hpieces
  | cons b args ih =>
    have ha := h a List.mem_cons_self
    rw [joinArguments_cons_cons, List.append_assoc, pieces_append _ ha.no_comma, ha.closed,
      List.cons_append, pieces, if_pos ⟨rfl, rfl⟩, List.cons_append, List.nil_append, pieces,
      if_neg (by simp)]
    have hnext : Quoting.outside.next ' ' = .outside := rfl
    rw [hnext, ih fun s hs => h s (List.mem_cons_of_mem a hs), extendFirst, foldr_extendFirst,
      List.append_nil]
    rfl

/-- **Cutting a list of arguments gives them back.** -/
theorem splitArgs_joinArguments {args : List (List Char)} (h : ∀ s ∈ args, IsArgument s) :
    splitArgs (joinArguments args) = args := by
  have htrim : ∀ s ∈ args, trim s = s ∧ trim (' ' :: s) = s := by
    intro s hs
    have htrimmed := (h s hs).trimmed
    refine ⟨htrimmed.trim, ?_⟩
    rw [trim, trimLeft_space, ← trim, htrimmed.trim]
  cases args with
  | nil => rfl
  | cons a args =>
    have hpieces : (pieces .outside (joinArguments (a :: args))).map trim = a :: args := by
      rw [pieces_joinArguments h, List.map_cons, List.map_map, (htrim a List.mem_cons_self).1]
      congr 1
      calc args.map (trim ∘ (' ' :: ·))
        _ = args.map id :=
          List.map_congr_left fun s hs => (htrim s (List.mem_cons_of_mem a hs)).2
        _ = args := List.map_id args
    rw [splitArgs, hpieces]
    split
    · next hempty => exact absurd (List.cons.inj hempty).1 (h a List.mem_cons_self).ne_nil
    · rfl

theorem closed_joinArguments {args : List (List Char)} (h : ∀ s ∈ args, IsArgument s) :
    Quoting.outside.after (joinArguments args) = .outside ∧
      nesting '(' ')' 0 (outsides .outside (joinArguments args)) = some 0 := by
  cases args with
  | nil => exact ⟨rfl, rfl⟩
  | cons a args =>
    induction args generalizing a with
    | nil =>
      have ha := h a List.mem_cons_self
      simpa [joinArguments, List.intercalate] using And.intro ha.closed ha.balanced
    | cons b args ih =>
      have ha := h a List.mem_cons_self
      obtain ⟨hclosed, hbalanced⟩ := ih b fun s hs => h s (List.mem_cons_of_mem a hs)
      have hcomma : Quoting.outside.after [',', ' '] = .outside := rfl
      rw [joinArguments_cons_cons, Quoting.after_append, Quoting.after_append, outsides_append,
        outsides_append, Quoting.after_append, ha.closed, hcomma, nesting_append (j := 0)]
      · exact ⟨hclosed, hbalanced⟩
      · rw [nesting_append ha.balanced]
        rfl

/-- **The parenthesis that closes a list of arguments is found.** -/
theorem parenLength?_joinArguments {args : List (List Char)} (h : ∀ s ∈ args, IsArgument s)
    (rest : List Char) :
    parenLength? .outside 0 ('(' :: joinArguments args ++ ')' :: rest) =
      some ((joinArguments args).length + 2) := by
  obtain ⟨hclosed, hbalanced⟩ := closed_joinArguments h
  have hinside := parenLength?_append (')' :: rest) hbalanced
  rw [hclosed, parenLength?, if_pos ⟨rfl, rfl, rfl⟩] at hinside
  rw [List.cons_append, parenLength?, if_neg (by simp)]
  exact congrArg (Option.map (· + 1)) hinside

theorem parenEnd?_joinArguments {args : List (List Char)} (h : ∀ s ∈ args, IsArgument s)
    (before rest : List Char) :
    parenEnd? (before ++ '(' :: joinArguments args ++ ')' :: rest) before.length =
      some (before.length + ((joinArguments args).length + 2)) := by
  rw [parenEnd?, List.append_assoc, List.drop_left, parenLength?_joinArguments h]
  rfl

end PointsTo.Jimple
