import PointsTo.Proofs.Muting
import PointsTo.Proofs.RoundTrip

/-!
The class that owns a member, written with or without quotes. A reference says the same for both
writings, wherever in a statement it stands: what comes before it and what follows the colon behind
the class are read as they are, and the quotes are taken off.
-/
namespace PointsTo.Jimple

open PointsTo.Text

/-! ### Class names -/

def isClassChar (c : Char) : Bool := isWord c || c == '.' || c == '$'

/-- The name of a class, of letters, digits, dots and dollar signs. -/
structure ClassName where
  chars : List Char
  valid : (!chars.isEmpty && chars.all isClassChar) = true

/-- A character of a class name with quotes and blanks around it. -/
def isOwnerChar (c : Char) : Bool := isClassChar c || c == '\x27' || isBlank c

namespace ClassName

/-- The name in single quotes. -/
def quoted (C : ClassName) : List Char := '\x27' :: C.chars ++ ['\x27']

/-- The two ways to write the name. -/
inductive Spelling (C : ClassName) : List Char → Prop
  | bare : C.Spelling C.chars
  | quoted : C.Spelling C.quoted

/-- The name, written in either way, with blanks around it. -/
def IsOwner (C : ClassName) (u : List Char) : Prop :=
  ∃ before w after, u = before ++ w ++ after ∧ C.Spelling w ∧
    (∀ c ∈ before, isBlank c = true) ∧ ∀ c ∈ after, isBlank c = true

variable {C : ClassName} {u w : List Char}

theorem ne_nil (C : ClassName) : C.chars ≠ [] := by
  have h := C.valid
  rw [Bool.and_eq_true, Bool.not_eq_true'] at h
  exact List.isEmpty_eq_false_iff.1 h.1

theorem isClassChar_of_mem (C : ClassName) : ∀ c ∈ C.chars, isClassChar c = true := by
  have h := C.valid
  rw [Bool.and_eq_true, List.all_eq_true] at h
  exact h.2

theorem Spelling.ne_nil (h : C.Spelling w) : w ≠ [] := by
  cases h with
  | bare => exact C.ne_nil
  | quoted => simp [ClassName.quoted]

theorem Spelling.mem (h : C.Spelling w) : ∀ c ∈ w, isClassChar c = true ∨ c = '\x27' := by
  intro c hc
  cases h with
  | bare => exact .inl (C.isClassChar_of_mem c hc)
  | quoted =>
    rw [ClassName.quoted, List.mem_append, List.mem_cons, List.mem_singleton] at hc
    rcases hc with (rfl | hc) | rfl
    · exact .inr rfl
    · exact .inl (C.isClassChar_of_mem c hc)
    · exact .inr rfl

theorem Spelling.not_isBlank (h : C.Spelling w) : ∀ c ∈ w, isBlank c = false := by
  intro c hc
  rcases h.mem c hc with hclass | rfl
  · simp only [isClassChar, Bool.or_eq_true, beq_iff_eq] at hclass
    rcases hclass with (hword | rfl) | rfl
    · exact not_isBlank_of_isWord hword
    · decide
    · decide
  · decide

theorem Spelling.trimmed (h : C.Spelling w) : Trimmed w := .of_not_blank h.not_isBlank

/-- Both writings name the class. -/
theorem Spelling.nameOf (h : C.Spelling w) : nameOf w = String.ofList C.chars := by
  rw [Jimple.nameOf]
  congr 1
  cases h with
  | bare =>
    refine unquote.eq_2 _ fun rest heq => ?_
    have hquote := C.isClassChar_of_mem '\x27' (heq ▸ List.mem_cons_self)
    exact absurd hquote (by decide)
  | quoted =>
    have hends : endsWith '\x27' (C.chars ++ ['\x27']) = true := by simp [endsWith]
    rw [ClassName.quoted, List.cons_append, unquote, if_pos hends, List.dropLast_concat]

theorem Spelling.isOwner (h : C.Spelling w) : C.IsOwner w :=
  ⟨[], w, [], by simp, h, by simp, by simp⟩

theorem IsOwner.isOwnerChar (h : C.IsOwner u) : ∀ c ∈ u, isOwnerChar c = true := by
  obtain ⟨before, w, after, rfl, hw, hbefore, hafter⟩ := h
  intro c hc
  rw [List.mem_append, List.mem_append] at hc
  rw [Jimple.isOwnerChar]
  rcases hc with (hc | hc) | hc
  · simp [hbefore c hc]
  · rcases hw.mem c hc with hclass | hquote
    · simp [hclass]
    · simp [hquote]
  · simp [hafter c hc]

theorem IsOwner.not_mem (h : C.IsOwner u) {c : Char} (hc : Jimple.isOwnerChar c = false) :
    c ∉ u := fun hmem => by
  rw [h.isOwnerChar c hmem] at hc
  cases hc

theorem IsOwner.trimLeft_ne_nil (h : C.IsOwner u) : trimLeft u ≠ [] := by
  obtain ⟨before, w, after, rfl, hw, hbefore, -⟩ := h
  rw [List.append_assoc, trimLeft_append hbefore]
  intro hnil
  have hblank : ∀ c ∈ w ++ after, isBlank c = true := by
    intro c hc
    by_contra hc'
    have := List.dropWhile_eq_nil_iff.1 hnil c hc
    exact hc' this
  obtain ⟨c, rest, heq⟩ := List.exists_cons_of_ne_nil hw.ne_nil
  have hc : c ∈ w := heq ▸ List.mem_cons_self
  have hclass := hw.not_isBlank c hc
  rw [hblank c (List.mem_append_left _ hc)] at hclass
  cases hclass

/-- The reader finds the name of the class. -/
theorem IsOwner.nameOf (h : C.IsOwner u) : nameOf (trim (trimLeft u)) = String.ofList C.chars := by
  obtain ⟨before, w, after, rfl, hw, hbefore, hafter⟩ := h
  obtain ⟨c, rest, heq⟩ := List.exists_cons_of_ne_nil hw.ne_nil
  have hfirst : trimLeft (w ++ after) = w ++ after := by
    refine trimLeft_of_first fun d hd => hw.not_isBlank d ?_
    rw [List.head?_append_of_ne_nil _ hw.ne_nil] at hd
    exact List.mem_of_head? hd
  rw [List.append_assoc, trimLeft_append hbefore, hfirst, hw.trimmed.trim_append hw.ne_nil,
    trimRight_of_blank hafter, List.append_nil, hw.nameOf]

end ClassName

/-! ### References -/

/-- The type behind the colon of a reference, and the rest behind that. -/
def readTyped? (z : List Char) : Option (List Char × List Char) :=
  let typed := z.dropWhile isBlank
  let type := typed.takeWhile fun c => !isBlank c
  let rest := typed.dropWhile fun c => !isBlank c
  if typed.length = z.length || type.isEmpty || rest.isEmpty then none
  else some (type, rest.dropWhile isBlank)

variable {C : ClassName} {u v z : List Char}

theorem readOwner?_append {u : List Char} (hne : u ≠ []) (hcolon : ':' ∉ u) (z : List Char) :
    readOwner? (u ++ ':' :: z) = (readTyped? z).map fun typed => (u, typed.1, typed.2) := by
  have hrun : ∀ d ∈ u, decide (d ≠ ':') = true := fun d hd =>
    decide_eq_true fun heq => hcolon (heq ▸ hd)
  have hstop : decide (':' ≠ ':') = false := by decide
  have howner : u.isEmpty = false := List.isEmpty_eq_false_iff.2 hne
  simp only [readOwner?, takeWhile_run hrun hstop, dropWhile_run hrun hstop, howner,
    Bool.false_or, readTyped?]
  split <;> rfl

/-- What the angle brackets of a reference hold. -/
theorem readOwner?_inner (hu : C.IsOwner u) (z : List Char) :
    readOwner? (inner ('<' :: u ++ ':' :: z)) =
      (readTyped? (trimRight z.dropLast)).map fun typed => (trimLeft u, typed.1, typed.2) := by
  have hcolon : ':' ∉ u := hu.not_mem (by decide)
  have htrim : ':' ∉ trimLeft u := fun hc => hcolon ((List.dropWhile_sublist _).subset hc)
  rw [inner, List.cons_append, List.drop_succ_cons, List.drop_zero]
  by_cases hz : z = []
  · have hnot : ':' ∉ trim u := fun hc => hcolon <| by
      obtain ⟨before, after, heq, -⟩ := exists_trim u
      rw [heq]
      simp [hc]
    have hnone : (trim u).dropWhile (fun c => decide (c ≠ ':')) = [] :=
      List.dropWhile_eq_nil_iff.2 fun c hc => decide_eq_true fun heq => hnot (heq ▸ hc)
    rw [hz, List.dropLast_concat]
    simp only [readOwner?, hnone]
    rfl
  · have hlast : (u ++ ':' :: z).dropLast = u ++ ':' :: z.dropLast := by
      rw [List.dropLast_append_of_ne_nil (by simp), List.dropLast_cons_of_ne_nil hz]
    rw [hlast, trim_append_cons (by decide), readOwner?_append hu.trimLeft_ne_nil htrim]

theorem toOption_readFieldRef (hu : C.IsOwner u) (hv : C.IsOwner v) (z : List Char) :
    (readFieldRef ('<' :: u ++ ':' :: z)).toOption =
      (readFieldRef ('<' :: v ++ ':' :: z)).toOption := by
  rw [readFieldRef, readFieldRef, readOwner?_inner hu, readOwner?_inner hv]
  cases readTyped? (trimRight z.dropLast) with
  | none => rfl
  | some typed =>
    simp only [Option.map_some, hu.nameOf, hv.nameOf]
    split <;> rfl

theorem toOption_readMethodRef (hu : C.IsOwner u) (hv : C.IsOwner v) (z : List Char) :
    (readMethodRef ('<' :: u ++ ':' :: z)).toOption =
      (readMethodRef ('<' :: v ++ ':' :: z)).toOption := by
  rw [readMethodRef, readMethodRef, readOwner?_inner hu, readOwner?_inner hv]
  cases readTyped? (trimRight z.dropLast) with
  | none => rfl
  | some typed =>
    simp only [Option.map_some, hu.nameOf, hv.nameOf]
    cases readSignature? typed.2 <;> rfl

/-! ### Variables -/

theorem mem_skipQuote {s : List Char} {c : Char} (h : c ∈ s) : c = '\x27' ∨ c ∈ skipQuote s := by
  unfold skipQuote
  split
  · exact List.mem_cons.1 h
  · exact .inr h

theorem mem_of_skipQuote_dropWhile {s : List Char} (h : skipQuote (s.dropWhile isNameChar) = []) :
    ∀ c ∈ s, isNameChar c = true ∨ c = '\x27' := by
  intro c hc
  rw [← List.takeWhile_append_dropWhile (p := isNameChar) (l := s), List.mem_append] at hc
  rcases hc with hc | hc
  · exact .inl (List.mem_takeWhile_imp hc)
  · rcases mem_skipQuote hc with hquote | hrest
    · exact .inr hquote
    · rw [h] at hrest
      cases hrest

/-- A simple name, with or without quotes, has no other characters. -/
theorem mem_of_isSimpleName {s : List Char} (h : isSimpleName s = true) :
    ∀ c ∈ s, isNameChar c = true ∨ c = '\x27' := by
  intro c hc
  have hrest : skipQuote ((skipQuote s).dropWhile isNameChar) = [] := by
    rw [isSimpleName, afterName?, beq_iff_eq] at h
    split at h
    · cases h
    · exact Option.some.inj h
  rcases mem_skipQuote hc with hquote | hskip
  · exact .inr hquote
  · exact mem_of_skipQuote_dropWhile hrest c hskip

theorem mem_of_isLocal {s : List Char} (h : isLocal s = true) :
    ∀ c ∈ s, isNameChar c = true ∨ c = '\x27' := by
  intro c hc
  rw [isLocal, Bool.and_eq_true, isIdentifier] at h
  rcases mem_skipQuote hc with hquote | hskip
  · exact .inr hquote
  · cases hs : skipQuote s with
    | nil => simp [hs] at hskip
    | cons first rest =>
      have hid := h.2
      rw [hs] at hid hskip
      simp only [Bool.and_eq_true, List.isEmpty_iff] at hid
      rcases List.mem_cons.1 hskip with rfl | hrest
      · exact .inl (isNameChar_of_isNameStart hid.1)
      · exact mem_of_skipQuote_dropWhile hid.2 c hrest

theorem local?_eq_none {owner : String} {s : List Char} {c : Char} (hc : c ∈ s)
    (hname : isNameChar c = false) (hquote : c ≠ '\x27') : local? owner s = none := by
  refine if_neg fun hlocal => ?_
  rcases mem_of_isLocal hlocal c hc with h | h
  · rw [h] at hname
    cases hname
  · exact hquote h

/-- The name of a variable as a statement may write it, with or without quotes. -/
structure VariableName where
  chars : List Char
  valid : (isLocal chars && !keywords.contains (String.ofList chars)) = true

namespace VariableName

variable (x : VariableName)

theorem isLocal : isLocal x.chars = true := (Bool.and_eq_true_iff.1 x.valid).1

theorem not_keyword : keywords.contains (String.ofList x.chars) = false := by
  simpa using (Bool.and_eq_true_iff.1 x.valid).2

theorem ne_nil : x.chars ≠ [] := by
  have h := x.isLocal
  rintro heq
  rw [heq] at h
  exact absurd h (by decide)

theorem not_mem {c : Char} (hname : isNameChar c = false) (hquote : c ≠ '\x27') : c ∉ x.chars := by
  intro hc
  rcases mem_of_isLocal x.isLocal c hc with h | h
  · rw [h] at hname
    cases hname
  · exact hquote h

theorem not_isBlank : ∀ c ∈ x.chars, isBlank c = false := by
  intro c hc
  rcases mem_of_isLocal x.isLocal c hc with h | rfl
  · exact not_isBlank_of_isNameChar h
  · decide

theorem trimmed : Trimmed x.chars := .of_not_blank x.not_isBlank

theorem space_not_mem : ' ' ∉ x.chars := x.not_mem (by decide) (by decide)

end VariableName

/-! ### Calls -/

/-- What may stand between the keyword of a call and its reference. -/
inductive IsOpening : CallKind → List Char → Prop
  | static {gap : List Char} (blank : ∀ c ∈ gap, isBlank c = true) : IsOpening .static gap
  | receiver {kind : CallKind} {gap : List Char} (valid : hasReceiver kind = true)
      (blank : ∀ c ∈ gap, isBlank c = true) (x : VariableName) :
      IsOpening kind (gap ++ x.chars ++ ['.'])
  | dynamic {front : List Char} (h : '<' ∉ front) : IsOpening .dynamic front

theorem IsOpening.splitCall {kind : CallKind} {front : List Char} (h : IsOpening kind front) :
    ∃ before, ∀ rest, splitCall kind (trimLeft (' ' :: front) ++ '<' :: rest) =
      .ok (before, '<' :: rest) := by
  cases h with
  | static blank =>
    have hgap : trimLeft (' ' :: front) = [] :=
      List.dropWhile_eq_nil_iff.2 fun c hc => by
        rcases List.mem_cons.1 hc with rfl | hc
        · decide
        · exact blank c hc
    exact ⟨[], fun rest => by rw [hgap]; rfl⟩
  | @receiver _ gap valid blank x =>
    refine ⟨x.chars, fun rest => ?_⟩
    have hfront : trimLeft (' ' :: (gap ++ x.chars ++ ['.'])) = x.chars ++ ['.'] := by
      have hblank : ∀ c ∈ ' ' :: gap, isBlank c = true := fun c hc => by
        rcases List.mem_cons.1 hc with rfl | hc
        · decide
        · exact blank c hc
      have hfirst : ∀ c, (x.chars ++ ['.']).head? = some c → isBlank c = false := by
        intro c hc
        rw [List.head?_append_of_ne_nil _ x.ne_nil] at hc
        exact x.trimmed.first c hc
      rw [List.append_assoc, ← List.cons_append, trimLeft_append hblank, trimLeft_of_first hfirst]
    have hdot : '<' ∉ x.chars := x.not_mem (by decide) (by decide)
    have hcut : cut? ['.', '<'] (x.chars ++ ['.'] ++ '<' :: rest) = some (x.chars, rest) := by
      have h := cut?_append_of_not_follows [] (m := '.') hdot (s := '.' :: '<' :: rest)
        (by simp)
      have hmark := cut?_mark ['.', '<'] rest
      rw [List.append_assoc, List.singleton_append, h]
      exact (congrArg (Option.map _) hmark).trans (by simp)
    rw [hfront]
    cases kind with
    | static => cases valid
    | dynamic => cases valid
    | special => simp only [Jimple.splitCall, hcut]
    | virtual => simp only [Jimple.splitCall, hcut]
    | interface => simp only [Jimple.splitCall, hcut]
  | dynamic h =>
    refine ⟨stripDoubleQuotes (trim (trimLeft (' ' :: front))), fun rest => ?_⟩
    have hmem : '<' ∉ trimLeft (' ' :: front) := fun hc => by
      rcases List.mem_cons.1 ((List.dropWhile_sublist _).subset hc) with hc | hc
      · exact absurd hc (by decide)
      · exact h hc
    have hcut := cut?_append_mark [] hmem rest
    rw [List.append_assoc, List.singleton_append] at hcut
    simp only [Jimple.splitCall, hcut]

/-- The arguments of a call, read off what follows its reference. -/
def readArguments (owner : String) (behind : List Char) : Option (List (Option Variable)) :=
  (parenLength? .outside 0 behind).map fun length =>
    (splitArgs ((behind.take (length - 1)).drop 1)).map (local? owner)

theorem parenLength?_pos {q : Quoting} {depth : Int} {s : List Char} {n : Nat}
    (h : parenLength? q depth s = some n) : 1 ≤ n := by
  cases s with
  | nil => cases h
  | cons c s =>
    rw [parenLength?] at h
    split at h
    · cases h
      exact Nat.le_refl 1
    · obtain ⟨m, -, rfl⟩ := Option.map_eq_some_iff.1 h
      exact Nat.le_add_left 1 m

/-- A call is read part by part: what stands in front of the reference, the reference, and the
arguments behind it. -/
theorem toOption_readCall {owner : String} {kind : CallKind} {s before rest : List Char}
    (hsplit : splitCall kind (trim (s.drop (firstWord s).length)) = .ok (before, '<' :: rest))
    (result : Option Variable) :
    (readCall owner kind s result).toOption =
      (angleEnd? ('<' :: rest) 0).bind fun n =>
      (readMethodRef (if kind = .dynamic then dynamicSignature before (('<' :: rest).take n)
        else ('<' :: rest).take n)).toOption.bind fun callee =>
      (readArguments owner (('<' :: rest).drop n)).map fun args =>
        let receiver := if hasReceiver kind then some (variableOf owner before) else none
        { instruction := .call { kind, callee, receiver, args, result }
          mentions := result.toList ++ receiver.toList ++ args.filterMap id } := by
  have hhead : ¬('<' :: rest).head? ≠ some '<' := by simp
  simp only [readCall, hsplit, bind, Except.bind, if_neg hhead]
  cases angleEnd? ('<' :: rest) 0 with
  | none => rfl
  | some n =>
    dsimp only [Option.bind_some]
    cases readMethodRef (if kind = .dynamic then dynamicSignature before (('<' :: rest).take n)
      else ('<' :: rest).take n) with
    | error fault => rfl
    | ok callee =>
      rw [readArguments, parenEnd?]
      cases hlength : parenLength? .outside 0 (('<' :: rest).drop n) with
      | none => rfl
      | some k =>
        have hpos := parenLength?_pos hlength
        have hlist : (('<' :: rest).take (n + k - 1)).drop (n + 1) =
            ((('<' :: rest).drop n).take (k - 1)).drop 1 := by
          rw [List.drop_take, List.drop_take, List.drop_drop]
          congr 1
          omega
        simp only [Option.map_some, hlist]
        rfl

/-- A call up to the reference that is looked at, and what the reader makes of it. -/
theorem splitCall_site {kind : CallKind} {front : List Char} (h : IsOpening kind front) :
    ∃ before, ∀ rest,
      splitCall kind (trim ((kind.keyword.toList ++ ' ' :: (front ++ '<' :: rest)).drop
        (firstWord (kind.keyword.toList ++ ' ' :: (front ++ '<' :: rest))).length)) =
        .ok (before, '<' :: trimRight rest) := by
  obtain ⟨before, hbefore⟩ := h.splitCall
  refine ⟨before, fun rest => ?_⟩
  rw [firstWord_append (space_not_mem_keyword kind), List.drop_left, ← List.cons_append,
    trim_append_cons (by decide), hbefore]

/-- The bracket that closes a reference stands as far behind its colon as it does, whatever the owner
is. -/
theorem angleEnd?_owner {w : List Char} (hw : C.IsOwner w) (rest : List Char) :
    angleEnd? ('<' :: (w ++ ':' :: rest)) 0 =
      (angleLength? 1 rest).map fun k => w.length + 2 + k := by
  have hnesting : nesting '<' '>' 0 w = some 0 :=
    nesting_of_not_mem (hw.not_mem (by decide)) (hw.not_mem (by decide))
  have hcolon : angleLength? 1 (':' :: rest) = (angleLength? 1 rest).map (· + 1) := rfl
  have hopen : angleLength? 0 ('<' :: (w ++ ':' :: rest)) =
      (angleLength? 1 (w ++ ':' :: rest)).map (· + 1) := rfl
  have hinside : angleLength? 1 (w ++ ':' :: rest) =
      (angleLength? 1 (':' :: rest)).map (w.length + ·) := angleLength?_append (':' :: rest) hnesting
  rw [angleEnd?, List.drop_zero, hopen, hinside, hcolon, Option.map_map, Option.map_map,
    Option.map_map]
  congr 1
  funext k
  simp only [Function.comp_apply]
  omega

/-- The owner in the reference of a call may be written in either way. -/
theorem toOption_readCall_callee (owner : String) {kind : CallKind} {front : List Char}
    (h : IsOpening kind front) (hu : C.IsOwner u) (hv : C.IsOwner v) (z : List Char)
    (result : Option Variable) :
    (readCall owner kind
        (kind.keyword.toList ++ ' ' :: (front ++ '<' :: (u ++ ':' :: z))) result).toOption =
      (readCall owner kind
        (kind.keyword.toList ++ ' ' :: (front ++ '<' :: (v ++ ':' :: z))) result).toOption := by
  obtain ⟨before, hbefore⟩ := splitCall_site h
  have htrim : ∀ w, trimRight (w ++ ':' :: z) = w ++ ':' :: trimRight z := fun w =>
    trimRight_append_cons (by decide) w z
  rw [toOption_readCall (hbefore _), toOption_readCall (hbefore _), htrim, htrim,
    angleEnd?_owner hu, angleEnd?_owner hv]
  cases angleLength? 1 (trimRight z) with
  | none => rfl
  | some k =>
    have htake : ∀ w : List Char, ('<' :: (w ++ ':' :: trimRight z)).take (w.length + 2 + k) =
        '<' :: w ++ ':' :: (trimRight z).take k := by
      intro w
      have happend : ('<' :: w ++ [':'] ++ trimRight z).take (('<' :: w ++ [':']).length + k) =
          '<' :: w ++ [':'] ++ (trimRight z).take k := List.take_length_add_append k
      simpa using happend
    have hdrop : ∀ w : List Char, ('<' :: (w ++ ':' :: trimRight z)).drop (w.length + 2 + k) =
        (trimRight z).drop k := by
      intro w
      have happend : ('<' :: w ++ [':'] ++ trimRight z).drop (('<' :: w ++ [':']).length + k) =
          (trimRight z).drop k := List.drop_length_add_append k
      simpa using happend
    have hsignature : ∀ w : List Char, dynamicSignature before
        ('<' :: w ++ ':' :: (trimRight z).take k) = '<' :: w ++ ':' :: (trimRight z).take k := by
      intro w
      exact if_pos (by simp)
    simp only [Option.map_some, Option.bind_some, htake, hdrop, hsignature, ite_self,
      toOption_readMethodRef hu hv]

/-! ### References behind the callee -/

/-- Where a scan is behind some text that does not matter to it. -/
def Quoting.settled : Quoting → Quoting
  | .outside => .outside
  | _ => .inside

/-- The text does not matter to the scans for parentheses and commas. -/
structure IsPlain (w : List Char) : Prop where
  ne_nil : w ≠ []
  not_mem : ∀ c ∈ ['(', ')', ',', '\x22', '\\'], c ∉ w

theorem IsPlain.after {w : List Char} (h : IsPlain w) (q : Quoting) : q.after w = q.settled := by
  have hrun : ∀ w : List Char, '\x22' ∉ w → '\\' ∉ w →
      ∀ q : Quoting, q.settled.after w = q.settled := by
    intro w hquote hslash q
    induction w with
    | nil => rfl
    | cons c w ih =>
      rw [List.mem_cons, not_or] at hquote hslash
      have hnext : q.settled.next c = q.settled := by
        cases q <;> simp [Quoting.settled, Quoting.next, Ne.symm hquote.1, Ne.symm hslash.1]
      have hafter : q.settled.after (c :: w) = (q.settled.next c).after w := rfl
      rw [hafter, hnext, ih hquote.2 hslash.2]
  obtain ⟨c, w, rfl⟩ := List.exists_cons_of_ne_nil h.ne_nil
  have hquote := h.not_mem '\x22' (by simp)
  have hslash := h.not_mem '\\' (by simp)
  rw [List.mem_cons, not_or] at hquote hslash
  have hnext : q.next c = q.settled := by
    cases q <;> simp [Quoting.settled, Quoting.next, Ne.symm hquote.1, Ne.symm hslash.1]
  have hafter : q.after (c :: w) = (q.next c).after w := rfl
  rw [hafter, hnext, hrun w hquote.2 hslash.2]

theorem IsPlain.parenLength? {w : List Char} (h : IsPlain w) (q : Quoting) (depth : Int)
    (rest : List Char) :
    parenLength? q depth (w ++ rest) = (parenLength? q.settled depth rest).map (w.length + ·) := by
  have hopen := h.not_mem '(' (by simp)
  have hclose := h.not_mem ')' (by simp)
  rw [← h.after q]
  clear h
  induction w generalizing q with
  | nil => simp [Quoting.after]
  | cons c w ih =>
    rw [List.mem_cons, not_or] at hopen hclose
    have hafter : q.after (c :: w) = (q.next c).after w := rfl
    rw [List.cons_append, Jimple.parenLength?, if_neg fun hc => hclose.1 hc.2.1.symm,
      if_neg fun hc => hopen.1 hc.2.symm, if_neg fun hc => hclose.1 hc.2.symm, hafter,
      ← map_length_cons]
    exact congrArg (Option.map (· + 1)) (ih (q.next c) hopen.2 hclose.2)

/-- The scan for the closing parenthesis ends inside of a text, or goes on behind it. -/
theorem parenLength?_prefix (q : Quoting) (depth : Int) (w : List Char) :
    (∃ k, k ≤ w.length ∧ ∀ rest, parenLength? q depth (w ++ rest) = some k) ∨
      ∃ q' depth', ∀ rest,
        parenLength? q depth (w ++ rest) = (parenLength? q' depth' rest).map (w.length + ·) := by
  induction w generalizing q depth with
  | nil => exact .inr ⟨q, depth, fun rest => by simp⟩
  | cons c w ih =>
    by_cases hclose : q = .outside ∧ c = ')' ∧ depth = 1
    · exact .inl ⟨1, by simp, fun rest => by rw [List.cons_append, parenLength?, if_pos hclose]⟩
    · rcases ih (q.next c) (if q = .outside ∧ c = '(' then depth + 1
            else if q = .outside ∧ c = ')' then depth - 1 else depth) with
          ⟨k, hk, hend⟩ | ⟨q', depth', hgo⟩
      · refine .inl ⟨k + 1, Nat.succ_le_succ hk, fun rest => ?_⟩
        rw [List.cons_append, parenLength?, if_neg hclose]
        exact congrArg (Option.map (· + 1)) (hend rest)
      · refine .inr ⟨q', depth', fun rest => ?_⟩
        rw [List.cons_append, parenLength?, if_neg hclose, ← map_length_cons]
        exact congrArg (Option.map (· + 1)) (hgo rest)

theorem mem_of_mem_outsides {q : Quoting} {s : List Char} {c : Char} (h : c ∈ outsides q s) :
    c ∈ s := by
  induction s generalizing q with
  | nil => cases q <;> cases h
  | cons d s ih =>
    cases q with
    | outside =>
      rcases List.mem_cons.1 h with rfl | h
      · exact List.mem_cons_self
      · exact List.mem_cons_of_mem d (ih h)
    | inside => exact List.mem_cons_of_mem d (ih h)
    | escaped => exact List.mem_cons_of_mem d (ih h)

theorem pieces_ne_nil (q : Quoting) (s : List Char) : pieces q s ≠ [] := by
  cases s with
  | nil => simp [pieces]
  | cons c s =>
    rw [pieces]
    split
    · simp
    · cases pieces (q.next c) s <;> simp [extendFirst]

/-- Whatever plain text stands at some place of a list, it is part of one piece, and all else is the
same. -/
theorem pieces_insert (q : Quoting) (front behind : List Char) :
    ∃ before x y after, ∀ w, IsPlain w →
      pieces q (front ++ (w ++ behind)) = before ++ (x ++ w ++ y) :: after := by
  induction front generalizing q with
  | nil =>
    obtain ⟨p, after, hp⟩ := List.exists_cons_of_ne_nil (pieces_ne_nil q.settled behind)
    refine ⟨[], [], p, after, fun w hw => ?_⟩
    have hcomma : ',' ∉ outsides q w := fun hc =>
      hw.not_mem ',' (by simp) (mem_of_mem_outsides hc)
    rw [List.nil_append, pieces_append behind hcomma, hw.after, hp, foldr_extendFirst]
    rfl
  | cons c front ih =>
    by_cases hcomma : q = .outside ∧ c = ','
    · obtain ⟨before, x, y, after, h⟩ := ih .outside
      exact ⟨[] :: before, x, y, after, fun w hw => by
        rw [List.cons_append, pieces, if_pos hcomma, h w hw, List.cons_append]⟩
    · obtain ⟨before, x, y, after, h⟩ := ih (q.next c)
      cases before with
      | nil =>
        exact ⟨[], c :: x, y, after, fun w hw => by
          rw [List.cons_append, pieces, if_neg hcomma, h w hw]
          rfl⟩
      | cons first before =>
        exact ⟨(c :: first) :: before, x, y, after, fun w hw => by
          rw [List.cons_append, pieces, if_neg hcomma, h w hw]
          rfl⟩

theorem mem_trim {s : List Char} {c : Char} (hc : isBlank c = false) (h : c ∈ s) : c ∈ trim s := by
  obtain ⟨before, after, rfl⟩ := List.append_of_mem h
  rw [trim_append_cons hc]
  simp

/-- An argument that holds a colon is no variable, so it does not matter what else it holds. -/
theorem map_local?_splitArgs {owner : String} (front behind : List Char) {w w' : List Char}
    (hw : IsPlain w) (hw' : IsPlain w') (hcolon : ':' ∈ w) (hcolon' : ':' ∈ w') :
    (splitArgs (front ++ (w ++ behind))).map (local? owner) =
      (splitArgs (front ++ (w' ++ behind))).map (local? owner) := by
  obtain ⟨before, x, y, after, hpieces⟩ := pieces_insert .outside front behind
  have hargs : ∀ w, IsPlain w → ':' ∈ w → (splitArgs (front ++ (w ++ behind))).map (local? owner) =
      (before.map trim).map (local? owner) ++ none :: (after.map trim).map (local? owner) := by
    intro w hw hcolon
    have hmem : ':' ∈ trim (x ++ w ++ y) := mem_trim (by decide) (by simp [hcolon])
    have hlocal : local? owner (trim (x ++ w ++ y)) = none :=
      local?_eq_none hmem (by decide) (by decide)
    have hmap : (pieces .outside (front ++ (w ++ behind))).map trim =
        before.map trim ++ trim (x ++ w ++ y) :: after.map trim := by
      rw [hpieces w hw, List.map_append, List.map_cons]
    have hsplit : splitArgs (front ++ (w ++ behind)) =
        before.map trim ++ trim (x ++ w ++ y) :: after.map trim := by
      rw [splitArgs, hmap]
      split
      · next hempty =>
        have hnil : trim (x ++ w ++ y) ∈ [([] : List Char)] := by
          rw [← hempty]
          simp
        rw [List.mem_singleton.1 hnil] at hmem
        cases hmem
      · rfl
    rw [hsplit, List.map_append, List.map_cons, hlocal]
  rw [hargs w hw hcolon, hargs w' hw' hcolon']

theorem readArguments_owner {owner : String} (more : List Char) (hu : C.IsOwner u)
    (hv : C.IsOwner v) (z : List Char) :
    readArguments owner (more ++ '<' :: (u ++ ':' :: z)) =
      readArguments owner (more ++ '<' :: (v ++ ':' :: z)) := by
  have hplain : ∀ w, C.IsOwner w → IsPlain (w ++ [':']) := fun w hw => by
    refine ⟨by simp, fun c hc => ?_⟩
    have hall : ∀ c ∈ ['(', ')', ',', '\x22', '\\'], isOwnerChar c = false ∧ c ≠ ':' :=
      List.all_iff_forall_prop.1 (by decide)
    have hw' := hw.not_mem (hall c hc).1
    simp [hw', (hall c hc).2]
  have htext : ∀ w : List Char, more ++ '<' :: (w ++ ':' :: z) =
      (more ++ ['<']) ++ (w ++ [':'] ++ z) := fun w => by simp
  rw [htext, htext, readArguments, readArguments]
  rcases parenLength?_prefix .outside 0 (more ++ ['<']) with ⟨k, hk, hend⟩ | ⟨q, depth, hgo⟩
  · rw [hend, hend]
    have hle : k - 1 ≤ (more ++ ['<']).length := by omega
    simp only [Option.map_some, List.take_append_of_le_length hle]
  · rw [hgo, hgo, (hplain u hu).parenLength?, (hplain v hv).parenLength?]
    cases hlength : parenLength? q.settled depth z with
    | none => rfl
    | some k =>
      have hpos := parenLength?_pos hlength
      have htake : ∀ w : List Char, (((more ++ ['<']) ++ (w ++ [':'] ++ z)).take
          ((more ++ ['<']).length + ((w ++ [':']).length + k) - 1)).drop 1 =
          (more ++ ['<']).drop 1 ++ (w ++ [':'] ++ z.take (k - 1)) := by
        intro w
        have hlength : (more ++ ['<']).length + ((w ++ [':']).length + k) - 1 =
            ((more ++ ['<']) ++ (w ++ [':'])).length + (k - 1) := by
          simp only [List.length_append]
          omega
        rw [← List.append_assoc (more ++ ['<']), hlength, List.take_length_add_append,
          List.append_assoc (more ++ ['<']), List.drop_append_of_le_length (by simp)]
      simp only [Option.map_some, htake]
      rw [map_local?_splitArgs _ _ (hplain u hu) (hplain v hv) (by simp) (by simp)]

/-- So may the owner in a reference that stands behind the one of the call. -/
theorem toOption_readCall_behind (owner : String) {kind : CallKind} {front inside : List Char}
    (h : IsOpening kind front) (hinside : nesting '<' '>' 0 inside = some 0) (more : List Char)
    (hu : C.IsOwner u) (hv : C.IsOwner v) (z : List Char) (result : Option Variable) :
    (readCall owner kind (kind.keyword.toList ++ ' ' :: (front ++
        '<' :: (inside ++ '>' :: (more ++ '<' :: (u ++ ':' :: z))))) result).toOption =
      (readCall owner kind (kind.keyword.toList ++ ' ' :: (front ++
        '<' :: (inside ++ '>' :: (more ++ '<' :: (v ++ ':' :: z))))) result).toOption := by
  obtain ⟨before, hbefore⟩ := splitCall_site h
  have htrim : ∀ w : List Char, trimRight (inside ++ '>' :: (more ++ '<' :: (w ++ ':' :: z))) =
      inside ++ '>' :: (more ++ '<' :: (w ++ ':' :: trimRight z)) := fun w => by
    have happend := trimRight_append_cons (c := ':') (by decide)
      (inside ++ '>' :: (more ++ '<' :: w)) z
    simpa using happend
  have hangle : ∀ rest, angleEnd? ('<' :: (inside ++ '>' :: rest)) 0 = some (inside.length + 2) :=
    angleEnd?_bracketed hinside
  have htake : ∀ rest : List Char, ('<' :: (inside ++ '>' :: rest)).take (inside.length + 2) =
      '<' :: inside ++ ['>'] := fun rest => by
    have happend : ('<' :: inside ++ ['>'] ++ rest).take (inside.length + 2) =
        '<' :: inside ++ ['>'] := List.take_left' (by simp)
    simpa using happend
  have hdrop : ∀ rest : List Char, ('<' :: (inside ++ '>' :: rest)).drop (inside.length + 2) =
      rest := fun rest => by simp
  rw [toOption_readCall (hbefore _), toOption_readCall (hbefore _), htrim, htrim]
  simp only [hangle, Option.bind_some, htake, hdrop, readArguments_owner more hu hv]

end PointsTo.Jimple
