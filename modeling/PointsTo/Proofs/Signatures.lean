import PointsTo.Proofs.Reading
import PointsTo.Proofs.WordLists

/-!
Written signatures. Wherever a class has no blank, a return type no blank, a name no opening
parenthesis and a parameter type neither a comma nor a closing parenthesis, the parts of a signature
can be read off its text, also where more text stands behind it. All methods and method references
that were read are spelled so.
-/
namespace PointsTo

/-- A character that does not occur before marks where the text before it ends. -/
theorem eq_of_append_cons {α : Type} {c : α} {a b x y : List α} (ha : c ∉ a) (hb : c ∉ b)
    (h : a ++ c :: x = b ++ c :: y) : a = b ∧ x = y := by
  induction a generalizing b with
  | nil =>
    cases b with
    | nil => exact ⟨rfl, (List.cons.inj h).2⟩
    | cons d b => exact absurd (List.cons.inj h).1 fun heq => hb (heq ▸ List.mem_cons_self)
  | cons d a ih =>
    cases b with
    | nil => exact absurd (List.cons.inj h).1 fun heq => ha (heq ▸ List.mem_cons_self)
    | cons e b =>
      obtain ⟨rfl, hrest⟩ := List.cons.inj h
      obtain ⟨rfl, hxy⟩ := ih (fun hc => ha (List.mem_cons_of_mem _ hc))
        (fun hc => hb (List.mem_cons_of_mem _ hc)) hrest
      exact ⟨rfl, hxy⟩

/-- A list of non-empty texts without commas is determined by the texts with commas between. -/
theorem eq_of_intercalate {as bs : List (List Char)} (ha : ∀ w ∈ as, w ≠ [] ∧ ',' ∉ w)
    (hb : ∀ w ∈ bs, w ≠ [] ∧ ',' ∉ w) (h : [','].intercalate as = [','].intercalate bs) :
    as = bs := by
  -- a list with an element is what its text is split into
  have split : ∀ {ws : List (List Char)}, (∀ w ∈ ws, w ≠ [] ∧ ',' ∉ w) → ws ≠ [] →
      ([','].intercalate ws).splitOn ',' = ws :=
    fun hws hne => List.splitOn_intercalate ',' (fun w hw => (hws w hw).2) hne
  -- the empty text is split into an empty piece
  have empty : ∀ {ws : List (List Char)}, (∀ w ∈ ws, w ≠ [] ∧ ',' ∉ w) →
      [] = [','].intercalate ws → ws = [] := by
    intro ws hws hnil
    by_contra hne
    have hsplit := split hws hne
    rw [← hnil, List.splitOn_nil] at hsplit
    exact (hws [] (hsplit ▸ List.mem_singleton_self _)).1 rfl
  by_cases hne : as = []
  · subst hne
    exact (empty hb h).symm
  · by_cases hne' : bs = []
    · subst hne'
      exact empty ha h.symm
    · rw [← split ha hne, h, split hb hne']

/-- The parts of a subsignature end where their texts say so. -/
structure Spelled (returnType name : String) (paramTypes : List String) : Prop where
  returnType : ' ' ∉ returnType.toList
  name : '(' ∉ name.toList
  params : ∀ type ∈ paramTypes, type.toList ≠ [] ∧ ',' ∉ type.toList ∧ ')' ∉ type.toList

namespace Spelled

variable {type name type' name' : String} {params params' : List String} {x y : List Char}

theorem close_not_mem (h : Spelled type name params) :
    ')' ∉ [','].intercalate (params.map String.toList) := by
  intro hclose
  rcases Jimple.mem_intercalate hclose with hclose | ⟨w, hw, hclose⟩
  · exact absurd (List.mem_singleton.1 hclose) (by decide)
  · obtain ⟨t, ht, rfl⟩ := List.mem_map.1 hw
    exact (h.params t ht).2.2 hclose

/-- **A subsignature can be read off its text**, whatever stands behind it. -/
theorem parts_of_append (h : Spelled type name params) (h' : Spelled type' name' params')
    (heq : (subsignature type name params).toList ++ x =
      (subsignature type' name' params').toList ++ y) :
    (type = type' ∧ name = name' ∧ params = params') ∧ x = y := by
  have text : ∀ (t n : String) (ps : List String) (z : List Char),
      (subsignature t n ps).toList ++ z =
        t.toList ++ ' ' :: (n.toList ++ '(' ::
          ([','].intercalate (ps.map String.toList) ++ ')' :: z)) := by
    intro t n ps z
    simp [subsignature, String.toList_append, String.toList_intercalate]
  rw [text, text] at heq
  obtain ⟨htype, heq⟩ := eq_of_append_cons h.returnType h'.returnType heq
  obtain ⟨hname, heq⟩ := eq_of_append_cons h.name h'.name heq
  obtain ⟨hparams, heq⟩ := eq_of_append_cons h.close_not_mem h'.close_not_mem heq
  have pieces : ∀ {t n : String} {ps : List String}, Spelled t n ps →
      ∀ w ∈ ps.map String.toList, w ≠ [] ∧ ',' ∉ w := by
    intro t n ps hs w hw
    obtain ⟨t, ht, rfl⟩ := List.mem_map.1 hw
    exact ⟨(hs.params t ht).1, (hs.params t ht).2.1⟩
  have hlists := eq_of_intercalate (pieces h) (pieces h') hparams
  exact ⟨⟨String.toList_inj.1 htype, String.toList_inj.1 hname,
    List.map_injective_iff.2 (fun _ _ => String.toList_inj.1) hlists⟩, heq⟩

theorem params_eq (h : Spelled type name params) (h' : Spelled type' name' params')
    (heq : subsignature type name params = subsignature type' name' params') :
    params = params' :=
  (h.parts_of_append (x := []) (y := []) h' (by rw [heq])).1.2.2

end Spelled

/-- The class of the method has no blank, and its subsignature is spelled. -/
structure Method.Spelled (m : Method) : Prop where
  owner : ' ' ∉ m.declaringClass.toList
  parts : PointsTo.Spelled m.returnType m.name m.paramTypes

/-- **A signature can be read off its text**, whatever stands behind it. -/
theorem Method.Spelled.id_of_append {m n : Method} (hm : m.Spelled) (hn : n.Spelled)
    {x y : List Char} (h : m.signature.toList ++ x = n.signature.toList ++ y) :
    m.id = n.id ∧ x = y := by
  have text : ∀ (k : Method) (z : List Char), k.signature.toList ++ z =
      ('<' :: k.declaringClass.toList ++ [':']) ++ ' ' :: (k.subsignature.toList ++ '>' :: z) := by
    intro k z
    simp [Method.signature, MethodName.signature, Method.id, String.toList_append]
  have blankless : ∀ {k : Method}, k.Spelled →
      ' ' ∉ '<' :: k.declaringClass.toList ++ [':'] := by
    intro k hk hblank
    rcases List.mem_append.1 hblank with hblank | hblank
    · exact hk.owner ((List.mem_cons.1 hblank).resolve_left (by decide))
    · exact absurd (List.mem_singleton.1 hblank) (by decide)
  rw [text, text] at h
  obtain ⟨howner, h⟩ := eq_of_append_cons (blankless hm) (blankless hn) h
  obtain ⟨⟨htype, hname, hparams⟩, hrest⟩ := hm.parts.parts_of_append hn.parts h
  have hclass : m.declaringClass = n.declaringClass :=
    String.toList_inj.1 (List.append_cancel_right (List.cons.inj howner).2)
  refine ⟨?_, (List.cons.inj hrest).2⟩
  simp only [Method.id, Method.subsignature, hclass, htype, hname, hparams]

end PointsTo

namespace PointsTo.Jimple

open PointsTo.Text

/-! ### What pieces of a text are made of -/

section Pieces

variable {s piece : List Char}

/-- A type of a parameter list is a text between commas. -/
theorem of_mem_splitTypes (h : piece ∈ splitTypes s) : IsItem piece ∧ ∀ c ∈ piece, c ∈ s := by
  obtain ⟨hmem, hne⟩ := List.mem_filter.1 h
  obtain ⟨raw, hraw, rfl⟩ := List.mem_map.1 hmem
  refine ⟨⟨by simpa using hne, trimmed_trim raw, fun hcomma => ?_⟩, fun c hc =>
    mem_of_mem_splitWhere hraw (mem_of_mem_trim hc)⟩
  have := not_cut_of_mem_splitWhere hraw ',' (mem_of_mem_trim hcomma)
  exact absurd this (by decide)

/-- The parameter types are items without parentheses wherever their list ends at the first one. -/
theorem isItem_of_mem_types {type : String}
    (h : type ∈ (splitTypes (s.takeWhile (· ≠ ')'))).map String.ofList) :
    IsItem type.toList ∧ ')' ∉ type.toList := by
  obtain ⟨w, hw, rfl⟩ := List.mem_map.1 h
  obtain ⟨hitem, hmem⟩ := of_mem_splitTypes hw
  rw [String.toList_ofList]
  exact ⟨hitem, fun hclose => by simpa using List.mem_takeWhile_imp (hmem ')' hclose)⟩

theorem spelled_splitTypes {type : String}
    (h : type ∈ (splitTypes (s.takeWhile (· ≠ ')'))).map String.ofList) :
    type.toList ≠ [] ∧ ',' ∉ type.toList ∧ ')' ∉ type.toList := by
  obtain ⟨hitem, hclose⟩ := isItem_of_mem_types h
  exact ⟨hitem.ne_nil, hitem.no_comma, hclose⟩

end Pieces

/-! ### Methods and references as they are read -/

/-- The type and the name of a declaration are words of it. -/
theorem of_cutDeclaration? {s : List Char} {modifiers : List String} {type name : String}
    (h : cutDeclaration? s = some (modifiers, type, name)) :
    (∃ w ∈ words s, type = String.ofList w) ∧ ∃ w ∈ words s, name = nameOf w := by
  unfold cutDeclaration? at h
  split at h
  · next last before rest hwords =>
    cases h
    have hmem : ∀ w ∈ last :: before :: rest, w ∈ words s := fun w hw =>
      List.mem_reverse.1 (hwords ▸ hw)
    exact ⟨⟨before, hmem before (by simp), rfl⟩, last, hmem last (by simp), rfl⟩
  · cases h

theorem blankless_of_mem_words {s w : List Char} (h : w ∈ words s) : ' ' ∉ w := fun hblank =>
  absurd (not_blank_of_mem_words h ' ' hblank) (by decide)

theorem spelled_readMethodHeader {owner : String} {line : List Char} {m : Method}
    (h : readMethodHeader owner line = some (.ok m)) :
    Spelled m.returnType m.name m.paramTypes := by
  obtain ⟨modifiers, head, rest, rfl, -, hcut, heq⟩ := of_readMethodHeader h
  obtain ⟨⟨w, hw, htype⟩, v, hv, hname⟩ := of_cutDeclaration? hcut
  rw [htype, hname, heq]
  refine ⟨by rw [String.toList_ofList]; exact blankless_of_mem_words hw, fun hopen => ?_,
    fun t ht => spelled_splitTypes ht⟩
  have hmem := mem_of_mem_words hv (mem_of_mem_nameOf hopen)
  simpa using List.mem_takeWhile_imp hmem

/-- In front of the colon of a reference is its owner, and behind the colon a type without blanks. -/
theorem of_readOwner? {s owner type rest : List Char}
    (h : readOwner? s = some (owner, type, rest)) :
    owner = s.takeWhile (· ≠ ':') ∧ owner ≠ [] ∧ type ≠ [] ∧ (∀ c ∈ type, isBlank c = false) ∧
      ∀ c ∈ rest, c ∈ s := by
  unfold readOwner? at h
  dsimp only at h
  split at h
  · cases h
  · next colon behind hbehind =>
    split at h
    · cases h
    · next hfull =>
      cases h
      simp only [Bool.or_eq_true, List.isEmpty_iff, not_or] at hfull
      obtain ⟨⟨⟨howner, -⟩, htype⟩, -⟩ := hfull
      refine ⟨rfl, howner, htype, fun c hc => by simpa using List.mem_takeWhile_imp hc,
        fun c hc => ?_⟩
      -- the rest is what three cuts leave of the end of the text
      have hc := (List.dropWhile_sublist _).subset hc
      have hc := (List.dropWhile_sublist _).subset hc
      have hc := List.mem_cons_of_mem colon ((List.dropWhile_sublist _).subset hc)
      rw [← hbehind] at hc
      exact (List.dropWhile_sublist _).subset hc

theorem of_readSignature? {s name params : List Char} (h : readSignature? s = some (name, params)) :
    name = s.takeWhile (fun c => !isBlank c && c ≠ '(') ∧ name ≠ [] ∧
      ∃ rest : List Char, params = rest.takeWhile (· ≠ ')') := by
  unfold readSignature? at h
  dsimp only at h
  split at h
  · next rest _ =>
    split at h
    · cases h
    · next hfull =>
      cases h
      simp only [Bool.or_eq_true, List.isEmpty_iff, not_or] at hfull
      exact ⟨rfl, hfull.1, rest, rfl⟩
  · cases h

theorem of_readMethodRef {s : List Char} {r : MethodRef} (h : readMethodRef s = .ok r) :
    ∃ owner type rest name params, readOwner? (inner s) = some (owner, type, rest) ∧
      readSignature? rest = some (name, params) ∧
      r = ⟨nameOf (trim owner), nameOf name, (splitTypes params).map String.ofList,
        String.ofList type⟩ := by
  unfold readMethodRef at h
  split at h
  · cases h
  · next owner type rest howner =>
    split at h
    · cases h
    · next name params hsignature =>
      cases h
      exact ⟨owner, type, rest, name, params, howner, hsignature, rfl⟩

theorem of_readFieldRef {s : List Char} {r : FieldRef} (h : readFieldRef s = .ok r) :
    ∃ owner type name, readOwner? (inner s) = some (owner, type, name) ∧ name ≠ [] ∧
      (∀ c ∈ name, isBlank c = false) ∧
      r = ⟨nameOf (trim owner), nameOf name, String.ofList type⟩ := by
  unfold readFieldRef at h
  split at h
  · cases h
  · next owner type name howner =>
    split at h
    · cases h
    · next hname =>
      cases h
      simp only [Bool.or_eq_true, List.isEmpty_iff, not_or, List.any_eq_true, not_exists,
        not_and, Bool.not_eq_true] at hname
      exact ⟨owner, type, name, howner, hname.1, hname.2, rfl⟩

theorem spelled_readMethodRef {s : List Char} {r : MethodRef} (h : readMethodRef s = .ok r) :
    Spelled r.returnType r.name r.paramTypes := by
  obtain ⟨owner, type, rest, name, params, howner, hsignature, rfl⟩ := of_readMethodRef h
  obtain ⟨-, -, -, htype, -⟩ := of_readOwner? howner
  obtain ⟨rfl, -, behind, rfl⟩ := of_readSignature? hsignature
  refine ⟨?_, fun hopen => ?_, fun t ht => spelled_splitTypes ht⟩
  · rw [String.toList_ofList]
    exact fun hblank => absurd (htype ' ' hblank) (by decide)
  · exact absurd (List.mem_takeWhile_imp (mem_of_mem_nameOf hopen)) (by decide)

/-- The type and the name of a field are words. -/
structure SpelledField (type name : String) : Prop where
  type : ' ' ∉ type.toList
  name : ' ' ∉ name.toList

theorem spelled_readField {owner : String} {s : List Char} {f : Field}
    (h : readField owner s = .ok f) : SpelledField f.type f.name := by
  obtain ⟨modifiers, hcut, -⟩ := of_readField h
  obtain ⟨⟨w, hw, htype⟩, v, hv, hname⟩ := of_cutDeclaration? hcut
  rw [htype, hname]
  exact ⟨by rw [String.toList_ofList]; exact blankless_of_mem_words hw,
    fun hblank => blankless_of_mem_words hv (mem_of_mem_nameOf hblank)⟩

theorem spelled_readFieldRef {s : List Char} {r : FieldRef} (h : readFieldRef s = .ok r) :
    SpelledField r.type r.name := by
  obtain ⟨owner, type, name, howner, -, hname, rfl⟩ := of_readFieldRef h
  obtain ⟨-, -, -, htype, -⟩ := of_readOwner? howner
  refine ⟨?_, fun hblank => absurd (hname ' ' (mem_of_mem_nameOf hblank)) (by decide)⟩
  rw [String.toList_ofList]
  exact fun hblank => absurd (htype ' ' hblank) (by decide)

/-! ### References in statements -/

/-- The method or the field that the instruction names is spelled. -/
structure SpelledInstruction (i : Instruction) : Prop where
  callee : ∀ call, i = .call call →
    Spelled call.callee.returnType call.callee.name call.callee.paramTypes
  field : ∀ ref, i.fieldRef? = some ref → SpelledField ref.type ref.name

section Statement

variable {owner : String} {s text : List Char} {r : Reading}

/-- An instruction that names no member. -/
theorem SpelledInstruction.of_none {i : Instruction} (hcall : ∀ call, i ≠ .call call)
    (hfield : i.fieldRef? = none) : SpelledInstruction i :=
  ⟨fun call h => absurd h (hcall call), fun ref h => by rw [hfield] at h; cases h⟩

/-- An instruction that names a field, as it was read. -/
theorem SpelledInstruction.of_field {i : Instruction} {ref : FieldRef}
    (hcall : ∀ call, i ≠ .call call) (hfield : i.fieldRef? = some ref)
    (read : readFieldRef s = .ok ref) : SpelledInstruction i := by
  refine ⟨fun call h => absurd h (hcall call), fun ref' h => ?_⟩
  rw [hfield] at h
  exact Option.some.inj h ▸ spelled_readFieldRef read

theorem spelled_plain (mentions : List Variable) :
    SpelledInstruction (Reading.plain text mentions).instruction :=
  .of_none (by simp [Reading.plain]) rfl

theorem spelled_readIdentity {name : List Char} {role : Role ⊕ List Char}
    (h : readIdentity owner s name role = .ok r) : SpelledInstruction r.instruction := by
  unfold readIdentity at h
  split at h
  · cases h
    exact .of_none (by simp [Reading.plain]) rfl
  · split at h
    · cases h
    · cases h
      exact .of_none (by simp [Reading.plain]) rfl

theorem spelled_readCall {kind : CallKind} {result : Option Variable}
    (h : readCall owner kind s result = .ok r) : SpelledInstruction r.instruction := by
  have hcallee : ∃ call, r.instruction = .call call ∧ ∃ t, readMethodRef t = .ok call.callee := by
    unfold readCall at h
    simp only [bind, Except.bind, pure, Except.pure, throw, throwThe, MonadExceptOf.throw] at h
    repeat' split at h
    all_goals cases h
    all_goals exact ⟨_, rfl, _, ‹readMethodRef _ = _›⟩
  obtain ⟨call, hcall, t, read⟩ := hcallee
  rw [hcall]
  refine ⟨fun call' heq => ?_, fun ref hfield => by cases hfield⟩
  exact Instruction.call.inj heq ▸ spelled_readMethodRef read

theorem spelled_readSource {target : Variable} (h : readSource owner target s text = .ok r) :
    SpelledInstruction r.instruction := by
  unfold readSource at h
  split at h
  · cases h
    exact .of_none (by simp) rfl
  split at h
  · exact spelled_readCall h
  split at h
  · simp only [bind, Except.bind, pure, Except.pure] at h
    split at h <;> cases h
    exact .of_field (by simp) rfl ‹readFieldRef _ = _›
  split at h
  · simp only [bind, Except.bind, pure, Except.pure] at h
    split at h <;> cases h
    exact .of_field (by simp) rfl ‹readFieldRef _ = _›
  split at h
  · cases h
    exact .of_none (by simp) rfl
  split at h
  · cases h
    exact .of_none (by simp) rfl
  · cases h
    exact spelled_plain _

theorem spelled_readAssignment {left right : List Char}
    (h : readAssignment owner left right text = .ok r) : SpelledInstruction r.instruction := by
  unfold readAssignment at h
  dsimp only at h
  split at h
  · split at h
    · cases h
      exact spelled_plain _
    · simp only [bind, Except.bind, pure, Except.pure] at h
      split at h <;> cases h
      exact .of_field (by simp) rfl ‹readFieldRef _ = _›
  split at h
  · split at h
    · cases h
      exact spelled_plain _
    · simp only [bind, Except.bind, pure, Except.pure] at h
      split at h <;> cases h
      exact .of_field (by simp) rfl ‹readFieldRef _ = _›
  split at h
  · split at h
    · cases h
      exact spelled_plain _
    · cases h
      exact .of_none (by simp) rfl
  split at h
  · exact spelled_readSource h
  · cases h

theorem spelled_readStatement (h : readStatement owner s = .ok r) :
    SpelledInstruction r.instruction := by
  unfold readStatement at h
  dsimp only at h
  split at h
  · cases h
    exact .of_none (by simp) rfl
  split at h
  · cases h
    exact spelled_plain _
  split at h
  · exact spelled_readCall h
  split at h
  · exact spelled_readIdentity h
  split at h
  · exact spelled_readAssignment h
  · cases h
    exact spelled_plain _

end Statement

/-! ### Methods that were read -/

theorem Drafted.exists_header {owner : String} {d : Draft} (h : Drafted owner d) :
    ∃ line, readMethodHeader owner line = some (.ok d.method) := by
  induction h with
  | @header line m read => exact ⟨line, read⟩
  | line _ read ih => exact Draft.method_readLine read ▸ ih
  | switch _ _ _ ih => exact ih

theorem Drafted.spelled {owner : String} {d : Draft} (h : Drafted owner d) :
    ∀ s ∈ d.statements, SpelledInstruction s.instruction := by
  induction h with
  | header => exact fun s hs => by cases hs
  | @line d d' text n _ read ih =>
    obtain ⟨type, names, rfl⟩ | ⟨text, r, hread, rfl⟩ := Draft.of_readLine read
    · rw [(d.declare_frame type (fun name => name) names).2]
      exact ih
    · rw [(d.record_spec r n).2]
      intro s hs
      rcases List.mem_append.1 hs with hs | hs
      · exact ih s hs
      · exact List.mem_singleton.1 hs ▸ spelled_readStatement hread
  | switch _ opening n ih =>
    intro s hs
    rcases List.mem_append.1 hs with hs | hs
    · exact ih s hs
    · exact List.mem_singleton.1 hs ▸ .of_none (by simp) rfl

/-- A method with a body was read line by line. -/
theorem MethodRead.drafted {owner : String} {m : Method} (h : MethodRead owner m) {body : Body}
    (hbody : m.body = some body) :
    ∃ d, Drafted owner d ∧ body = d.finish ∧ m = { d.method with body := some body } := by
  cases h with
  | header read =>
    rw [bodyless_readMethodHeader read] at hbody
    cases hbody
  | @body d drafted =>
    cases hbody
    exact ⟨d, drafted, rfl, rfl⟩

theorem MethodRead.spelled {owner : String} {m : Method} (h : MethodRead owner m) :
    Spelled m.returnType m.name m.paramTypes := by
  cases h with
  | header read => exact spelled_readMethodHeader read
  | body drafted =>
    obtain ⟨line, read⟩ := drafted.exists_header
    have hspelled := spelled_readMethodHeader read
    exact hspelled

theorem MethodRead.spelled_statements {owner : String} {m : Method} (h : MethodRead owner m) :
    ∀ s ∈ m.statements, SpelledInstruction s.instruction := by
  intro s hs
  cases hbody : m.body with
  | none => simp [Method.statements, hbody] at hs
  | some body =>
    obtain ⟨d, drafted, rfl, -⟩ := h.drafted hbody
    rw [Method.statements_of_body hbody, d.statements_finish] at hs
    exact drafted.spelled s hs

theorem MethodRead.length_params {owner : String} {m : Method} (h : MethodRead owner m)
    {body : Body} (hbody : m.body = some body) : body.params.length = m.paramTypes.length := by
  obtain ⟨d, -, rfl, rfl⟩ := h.drafted hbody
  exact d.length_params_finish

theorem Parsed.methodRead {p : Program} (h : Parsed p) {m : Method} (hm : m ∈ p.methods) :
    ∃ c ∈ p.classes.items, m ∈ c.methods.items ∧ MethodRead c.name m := by
  obtain ⟨c, hc, hmc⟩ := Program.mem_methods.1 hm
  exact ⟨c, hc, hmc, (h.classRead c hc).methods m hmc⟩

theorem Parsed.spelled_placed {p : Program} (h : Parsed p) {m : Method} (hm : m ∈ p.methods)
    {x : Place × Instruction} (hx : x ∈ m.placed) : SpelledInstruction x.2 := by
  obtain ⟨c, -, -, hread⟩ := h.methodRead hm
  obtain ⟨s, hs, heq⟩ := Method.mem_statements_of_placed hx
  exact heq ▸ hread.spelled_statements s hs

theorem Parsed.spelled {p : Program} (h : Parsed p) {m : Method} (hm : m ∈ p.methods) :
    m.Spelled := by
  obtain ⟨c, hc, hmc, hread⟩ := h.methodRead hm
  have hproper := (h.classRead c hc).proper
  exact ⟨hproper.declared m hmc ▸ hproper.blankless, hread.spelled⟩

end PointsTo.Jimple
