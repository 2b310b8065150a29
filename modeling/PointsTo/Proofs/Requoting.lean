import Mathlib.Logic.Relation
import PointsTo.Proofs.Headers
import PointsTo.Proofs.Sites

/-!
Texts that differ in the quotes around the name of a class. Wherever a header or a reference names
a class, it does so with or without quotes, and the program that is read is the same up to the texts
of statements that move no pointer. A class that is allocated is the exception: its name is kept as
it is written, quotes and all.
-/
namespace PointsTo.Jimple

open PointsTo.Text

variable {C : ClassName} {u v w z : List Char}

/-! ### Lines of a body -/

theorem exists_mem_splitWhere (cut : Char → Bool) {s : List Char} {c : Char} (h : c ∈ s)
    (hc : cut c = false) : ∃ piece ∈ splitWhere cut s, c ∈ piece := by
  obtain ⟨front, behind, rfl⟩ := List.append_of_mem h
  induction front with
  | nil =>
    obtain ⟨first, pieces, hs⟩ := List.exists_cons_of_ne_nil (splitWhere_ne_nil cut behind)
    exact ⟨c :: first, by simp [splitWhere, hc, hs, extendFirst], List.mem_cons_self⟩
  | cons d front ih =>
    obtain ⟨piece, hmem, hpiece⟩ := ih (by simp)
    rw [List.cons_append, splitWhere]
    split
    · exact ⟨piece, List.mem_cons_of_mem _ hmem, hpiece⟩
    · obtain ⟨first, pieces, hs⟩ :=
        List.exists_cons_of_ne_nil (splitWhere_ne_nil cut (front ++ c :: behind))
      rw [hs] at hmem ⊢
      rcases List.mem_cons.1 hmem with rfl | hmem
      · exact ⟨d :: piece, List.mem_cons_self, List.mem_cons_of_mem d hpiece⟩
      · exact ⟨piece, List.mem_cons_of_mem _ hmem, hpiece⟩

/-- A character that is neither of a type nor of a name, nor sets names apart. -/
def isDeclarationStop (c : Char) : Bool :=
  !isTypeChar c && !isNameChar c && !isBlank c && c != ','

/-- A text with such a character declares no names. -/
theorem localDeclaration?_eq_none {s : List Char} {c : Char} (hc : isDeclarationStop c = true)
    (h : c ∈ s) : localDeclaration? s = none := by
  simp only [isDeclarationStop, Bool.and_eq_true, Bool.not_eq_true', bne_iff_ne] at hc
  obtain ⟨⟨⟨htype, hname⟩, hblank⟩, hcomma⟩ := hc
  have hrest : c ∈ s.dropWhile isTypeChar := by
    rw [← List.takeWhile_append_dropWhile (p := isTypeChar) (l := s), List.mem_append] at h
    refine h.resolve_left fun hrun => ?_
    rw [List.mem_takeWhile_imp hrun] at htype
    cases htype
  have htrim : c ∈ trimLeft (s.dropWhile isTypeChar) := by
    obtain ⟨front, behind, heq⟩ := List.append_of_mem hrest
    rw [heq, trimLeft_append_cons hblank]
    simp
  obtain ⟨piece, hmem, hpiece⟩ :=
    exists_mem_splitWhere (fun c => decide (c = ',')) htrim (by simpa using hcomma)
  have hname : isSimpleName (trim piece) = false := by
    rw [Bool.eq_false_iff]
    intro hsimple
    rcases mem_of_isSimpleName hsimple c (mem_trim hblank hpiece) with hmem | rfl
    · rw [hmem] at hname
      cases hname
    · exact absurd htype (by decide)
  have hall : ((splitWhere (fun c => decide (c = ',')) (trimLeft (s.dropWhile isTypeChar))).map
      trim).all isSimpleName = false := by
    rw [List.all_eq_false]
    exact ⟨trim piece, List.mem_map_of_mem hmem, by simp [hname]⟩
  simp only [localDeclaration?, hall]
  simp

namespace Site

variable (site : Site)

/-- The statement at the place, a reference that begins with a spelling of its owner, with its
semicolon. -/
def line (u z : List Char) : List Char := site.before ++ '<' :: (u ++ ':' :: z) ++ [';']

/-- No blank stands in front of the statement. -/
theorem first : ∀ c, site.before.head? = some c → isBlank c = false := by
  have hname : ∀ (x : VariableName) (rest : List Char) (c : Char),
      (x.chars ++ rest).head? = some c → isBlank c = false := by
    intro x rest c hc
    rw [List.head?_append_of_ne_nil _ x.ne_nil] at hc
    exact x.not_isBlank c (List.mem_of_head? hc)
  have htarget : ∀ (x : Target) (rest : List Char) (c : Char),
      (x.text ++ rest).head? = some c → isBlank c = false := by
    intro x rest c hc
    simp only [Target.text, List.append_assoc] at hc
    exact hname _ _ c hc
  have hcall : ∀ (target : Option Target) (kind : CallKind) (rest : List Char) (c : Char),
      (target.elim [] Target.text ++ (kind.keyword.toList ++ rest)).head? = some c →
        isBlank c = false := by
    intro target kind rest c hc
    cases target with
    | some x => exact htarget x _ c hc
    | none => cases kind <;> (obtain rfl := Option.some.inj hc; decide)
  cases site with
  | storeStatic => simp [before]
  | storeField base => exact hname base _
  | loadStatic target => exact fun c hc => htarget target [] c (by rwa [List.append_nil])
  | loadField target base =>
    rw [before, List.append_assoc]
    exact htarget target _
  | callee target kind front =>
    exact hcall target kind _
  | behindCallee target kind front _ inside more =>
    simp only [before, call, List.append_assoc]
    exact hcall target kind _

end Site

theorem IsTyped.trimRight (h : IsTyped z) : IsTyped (trimRight z) := by
  obtain ⟨gap, d, rest, rfl, hgap, hblank, hd, hne⟩ := h
  exact ⟨gap, d, Text.trimRight rest, trimRight_append_cons hd gap rest, hgap, hblank, hd, hne⟩

/-- A line with a reference is read as a statement or is the range of a handler. -/
theorem readLine_site (site : Site) (d : Draft) (u z : List Char) (line : Nat) :
    d.readLine (site.line u z) line =
      if startsWith "catch ".toList site.before then .ok d
      else
        match readStatement d.method.signature
          (site.before ++ '<' :: (u ++ ':' :: trimRight z)) with
        | .ok reading => .ok (d.record reading line)
        | .error fault => .error (.badStatement fault) := by
  have hbehind : ∀ c ∈ ([] : List Char), isBlank c = true := by simp
  have htrim : trim (site.before ++ '<' :: (u ++ ':' :: z)) =
      site.before ++ '<' :: (u ++ ':' :: trimRight z) := trim_site hbehind site.first u z
  have hcatch : startsWith "catch ".toList (site.before ++ '<' :: (u ++ ':' :: trimRight z)) =
      startsWith "catch ".toList site.before := startsWith_append_cons (by decide) _
  have hdeclaration : localDeclaration? (site.before ++ '<' :: (u ++ ':' :: trimRight z)) = none :=
    localDeclaration?_eq_none (c := '<') (by decide) (by simp)
  rewrite [Site.line, Draft.readLine_semicolon, htrim, hcatch, hdeclaration]
  rfl

theorem readLine_requoted (site : Site) (d : Draft) (hu : C.IsOwner u) (hv : C.IsOwner v)
    (hz : IsTyped z) (line : Nat) :
    (d.readLine (site.line v z) line).toOption.map Draft.mute =
      (d.readLine (site.line u z) line).toOption.map Draft.mute := by
  have hmeaning := meaning_site d.method.signature site hu hv hz.trimRight
  rw [readLine_site, readLine_site]
  split
  · rfl
  generalize readStatement d.method.signature
    (site.before ++ '<' :: (u ++ ':' :: trimRight z)) = x at hmeaning ⊢
  generalize readStatement d.method.signature
    (site.before ++ '<' :: (v ++ ':' :: trimRight z)) = x' at hmeaning ⊢
  cases x with
  | error fault =>
    cases x' with
    | error fault' => rfl
    | ok reading => cases hmeaning
  | ok reading =>
    cases x' with
    | error fault' => cases hmeaning
    | ok reading' =>
      have hreading : reading.mute = reading'.mute := Option.some.inj hmeaning
      refine congrArg some ?_
      rw [Draft.mute_record, Draft.mute_record, hreading]

/-- In the body of a method a statement does the same whether the class that owns a member is named
with or without quotes. -/
theorem outcome_bodyLine (r : Reader) (c : Class) (d : Draft) (site : Site) (hu : C.IsOwner u)
    (hv : C.IsOwner v) (hz : IsTyped z) :
    Reader.outcome ((r.bodyLine c d (site.line v z)).mapError (Fault.atLine r.line)) =
      Reader.outcome ((r.bodyLine c d (site.line u z)).mapError (Fault.atLine r.line)) := by
  have hswitch : ∀ u, opensSwitch (site.line u z) = opensSwitch site.before := by
    intro u
    rw [Site.line, List.append_assoc, List.cons_append, opensSwitch_append_cons (by decide)]
  have hbrace : ∀ u, site.line u z ≠ ['\x7d'] := fun u => concat_ne_brace (by decide) _
  have hread := readLine_requoted site d hu hv hz r.line
  rw [Reader.bodyLine, Reader.bodyLine, hswitch, hswitch]
  split
  · rfl
  rw [if_neg (hbrace u), if_neg (hbrace v)]
  generalize d.readLine (site.line u z) r.line = x at hread ⊢
  generalize d.readLine (site.line v z) r.line = x' at hread ⊢
  cases x with
  | error fault =>
    cases x' with
    | error fault' => rfl
    | ok d' => cases hread
  | ok d' =>
    cases x' with
    | error fault' => cases hread
    | ok d'' =>
      have hdraft : d''.mute = d'.mute := Option.some.inj hread
      refine congrArg Except.ok ?_
      simp only [Reader.mute, Phase.mute, hdraft]

/-! ### Texts -/

/-- The reader is in the body of a method. -/
def Phase.isInBody : Phase → Bool
  | inBody .. => true
  | _ => false

/-- The reader is outside of all classes. -/
def Phase.isOutside : Phase → Bool
  | outside => true
  | _ => false

/-- Where the reader is behind some lines, unless they have a fault. -/
def phaseBehind? (program : Program) (lines : List (List Char)) : Option Phase :=
  (lines.foldlM Reader.step { program }).toOption.map Reader.phase

/-- Two texts, given line by line, that differ in how one place names a class: in a header, or in a
reference of a statement. -/
inductive Requoted (program : Program) (C : ClassName) :
    List (List Char) → List (List Char) → Prop
  | header {u v : List Char} (before after : List (List Char)) (place : HeaderPlace)
      (hphase : (phaseBehind? program before).all Phase.isOutside = true)
      (hw : C.Spelling u) (hw' : C.Spelling v)
      (hclause : place.isOwn = true ∨ C.chars ∉ clauseWords) :
      Requoted program C (before ++ place.text u :: after) (before ++ place.text v :: after)
  | reference {u v z : List Char} (before after : List (List Char)) (site : Site)
      (hphase : (phaseBehind? program before).all Phase.isInBody = true)
      (hu : C.IsOwner u) (hv : C.IsOwner v) (hz : IsTyped z) :
      Requoted program C (before ++ site.line u z :: after) (before ++ site.line v z :: after)

namespace Reader

/-- A line in the body of a method that is not blank. -/
theorem step_inBody {r : Reader} {c : Class} {d : Draft} (body : r.phase = .inBody c d)
    {s : List Char} (hne : s ≠ []) :
    r.step s = (({ r with seen := r.seen + 1, line := r.seen + 1 } : Reader).bodyLine c d
      s).mapError (Fault.atLine (r.seen + 1)) := by
  have hempty : s.isEmpty = false := List.isEmpty_eq_false_iff.2 hne
  rw [step_of_not_inSwitch _ (by simp [body])]
  simp only [hempty, Bool.false_eq_true, if_false, line?, body]

/-- One line in a text may be replaced by another that does the same where the reader meets it. -/
theorem run_replace {s t : List Char} (before after : List (List Char)) (r : Reader)
    (h : ∀ q, before.foldlM step r = .ok q → outcome (q.step t) = outcome (q.step s)) :
    ending (r.run (before ++ t :: after)) = ending (r.run (before ++ s :: after)) := by
  induction before generalizing r with
  | nil =>
    have hstep := h r rfl
    rw [List.nil_append, List.nil_append, run, run]
    cases hs : r.step s with
    | ok q =>
      cases ht : r.step t with
      | ok q' =>
        rw [hs, ht] at hstep
        exact run_congr (Except.ok.inj hstep) after
      | error fault => rw [hs, ht] at hstep; cases hstep
    | error fault =>
      cases ht : r.step t with
      | ok q' => rw [hs, ht] at hstep; cases hstep
      | error fault' =>
        rw [hs, ht] at hstep
        exact Prod.ext rfl (congrArg some (Except.error.inj hstep))
  | cons line before ih =>
    rw [List.cons_append, List.cons_append, run, run]
    cases hline : r.step line with
    | error fault => rfl
    | ok q =>
      refine ih q fun q' hq' => h q' ?_
      rw [List.foldlM_cons, hline]
      exact hq'

end Reader

/-- The reader's phase where it meets a line. -/
theorem phase_of_reached {program : Program} {before : List (List Char)} {p : Phase → Bool}
    (h : (phaseBehind? program before).all p = true) {r : Reader}
    (hr : before.foldlM Reader.step { program } = .ok r) : p r.phase = true := by
  rw [phaseBehind?, hr] at h
  exact h

/-- **Quotes around the name of a class in one place of a text** make no difference. -/
theorem Requoted.ending_run {program : Program} {lines lines' : List (List Char)}
    (h : Requoted program C lines lines') :
    Reader.ending (({ program } : Reader).run lines') =
      Reader.ending (({ program } : Reader).run lines) := by
  cases h with
  | @header u v before after place hphase hw hw' hclause =>
    refine Reader.run_replace before after _ fun r hr => ?_
    have houtside : r.phase = .outside := by
      have hr' := phase_of_reached hphase hr
      unfold Phase.isOutside at hr'
      split at hr'
      · assumption
      · cases hr'
    have hempty : ∀ w, (place.text w).isEmpty = false := fun w => by simp [HeaderPlace.text]
    have hstep : ∀ w, r.step (place.text w) =
        (({ r with seen := r.seen + 1, line := r.seen + 1 } : Reader).classHeader
          (place.text w)).mapError (Fault.atLine (r.seen + 1)) := by
      intro w
      rw [Reader.step_of_not_inSwitch _ (by simp [houtside])]
      simp only [hempty, Bool.false_eq_true, if_false, Reader.line?, houtside]
    rw [hstep, hstep]
    exact place.outcome_classHeader { r with seen := r.seen + 1, line := r.seen + 1 } hw hw' hclause
  | @reference u v z before after site hphase hu hv hz =>
    refine Reader.run_replace before after _ fun r hr => ?_
    obtain ⟨c, d, hbody⟩ : ∃ c d, r.phase = .inBody c d := by
      have hr' := phase_of_reached hphase hr
      unfold Phase.isInBody at hr'
      split at hr'
      · exact ⟨_, _, by assumption⟩
      · cases hr'
    have hne : ∀ u, site.line u z ≠ [] := fun u => by simp [Site.line]
    rw [Reader.step_inBody hbody (hne u), Reader.step_inBody hbody (hne v)]
    exact outcome_bodyLine { r with seen := r.seen + 1, line := r.seen + 1 } c d site hu hv hz

/-- An allocation keeps the name of its class as it is written. -/
theorem readStatement_new (owner : String) (x : Target) (hw : C.Spelling w) :
    readStatement owner (x.text ++ "new ".toList ++ w) =
      .ok ⟨.allocate (variableOf owner x.name.chars) (String.ofList w),
        [variableOf owner x.name.chars], none⟩ := by
  have hfirst : ∀ c, ("new ".toList ++ w).head? = some c → isBlank c = false := fun c hc => by
    obtain rfl : 'n' = c := Option.some.inj hc
    decide
  have htrim : trim (x.behind ++ ("new ".toList ++ w)) = "new ".toList ++ w := by
    have hlast : ∀ c, ("new ".toList ++ w).getLast? = some c → isBlank c = false := fun c hc => by
      rw [List.getLast?_append_of_ne_nil _ hw.ne_nil] at hc
      exact hw.trimmed.last c hc
    rw [trim, trimLeft_append x.blank_behind, trimLeft_of_first hfirst, trimRight_of_last hlast]
  have hallocated : allocated? ("new ".toList ++ w) = some w := by
    simp only [allocated?, after?_eq_some.2 (rfl : "new ".toList ++ w = _), hw.trimmed.trim]
  rw [List.append_assoc, readStatement_target, htrim]
  simp only [readSource, hallocated]

/-- **Quotes around the name of a class make no difference in headers and references.** However many
of the places of a text that name the class change between both spellings, the program that is read
is the same up to the texts of statements that move no pointer, and so is the line of a fault. -/
theorem read_requoted (program : Program) (C : ClassName) (text text' : String)
    (h : Relation.ReflTransGen (Requoted program C) (codeLines text.toList)
      (codeLines text'.toList)) :
    Reader.ending (read program text') = Reader.ending (read program text) := by
  rw [read, read]
  generalize codeLines text'.toList = lines' at h
  induction h with
  | refl => rfl
  | tail _ hlast ih => exact hlast.ending_run.trans ih

/-- A class named in its header, in a clause and in a reference, first bare and then in quotes. The
two programs agree. An allocation of the same class in quotes is one of another type. -/
theorem read_requoted_everywhere :
    let C : ClassName := ⟨"C".toList, by decide⟩
    let bare := "class C\n\x7b\nvoid run()\n\x7b\nx = <C: C f>;\n\x7d\n\x7d\nclass D extends C\n\x7b\n\x7d\n"
    let quoted := "class \x27C\x27\n\x7b\nvoid run()\n\x7b\nx = <\x27C\x27: C f>;\n\x7d\n\x7d\nclass D extends \x27C\x27\n\x7b\n\x7d\n"
    Relation.ReflTransGen (Requoted ∅ C) (codeLines bare.toList) (codeLines quoted.toList) ∧
      Reader.ending (read ∅ quoted) = Reader.ending (read ∅ bare) ∧
      readStatement "run" "x = new \x27C\x27".toList =
        .ok ⟨.allocate ⟨"run", "x"⟩ "\x27C\x27", [⟨"run", "x"⟩], none⟩ := by
  intro C bare quoted
  let front := ["\x7b".toList, "void run()".toList, "\x7b".toList]
  let behind := ["\x7d".toList, "\x7d".toList]
  let last := ["\x7b".toList, "\x7d".toList]
  let own : HeaderPlace := ⟨"class".toList, ' ', [], by decide +kernel⟩
  let super : HeaderPlace := ⟨"class D extends".toList, ' ', [], by decide +kernel⟩
  let x : Target := ⟨⟨"x".toList, by decide +kernel⟩, [], [], by decide⟩
  let site : Site := .loadStatic x
  let lines (u v w : List Char) : List (List Char) :=
    own.text u :: (front ++ site.line v " C f>".toList :: (behind ++ super.text w :: last))
  have hbare : codeLines bare.toList = lines C.chars C.chars C.chars := by decide +kernel
  have hquoted : codeLines quoted.toList = lines C.quoted C.quoted C.quoted := by decide +kernel
  have hown : Requoted ∅ C (lines C.chars C.chars C.chars) (lines C.quoted C.chars C.chars) :=
    .header [] _ own (by decide +kernel) .bare .quoted (.inl (by decide +kernel))
  have hsite : Requoted ∅ C (lines C.quoted C.chars C.chars) (lines C.quoted C.quoted C.chars) :=
    .reference (own.text C.quoted :: front) (behind ++ super.text C.chars :: last) site
      (by decide +kernel) (ClassName.Spelling.bare).isOwner (ClassName.Spelling.quoted).isOwner
      ⟨[' '], 'C', " f>".toList, by decide +kernel, by decide, List.all_eq_true.1 (by decide),
        by decide, by decide⟩
  have hsuper : Requoted ∅ C (lines C.quoted C.quoted C.chars) (lines C.quoted C.quoted C.quoted) :=
    .header (own.text C.quoted :: (front ++ site.line C.quoted " C f>".toList :: behind)) last super
      (by decide +kernel) .bare .quoted (.inr (by decide +kernel))
  have h : Relation.ReflTransGen (Requoted ∅ C) (codeLines bare.toList)
      (codeLines quoted.toList) := by
    rw [hbare, hquoted]
    exact ((Relation.ReflTransGen.single hown).tail hsite).tail hsuper
  have hnew := readStatement_new "run" x (ClassName.Spelling.quoted (C := C))
  have htext : x.text ++ "new ".toList ++ C.quoted = "x = new \x27C\x27".toList := by decide +kernel
  have htype : String.ofList C.quoted = "\x27C\x27" := by decide +kernel
  have hname : variableOf "run" x.name.chars = ⟨"run", "x"⟩ := by decide +kernel
  rw [htext, htype, hname] at hnew
  exact ⟨h, read_requoted ∅ C bare quoted h, hnew⟩

end PointsTo.Jimple
