import PointsTo.Proofs.WordLists

/-!
References to members read back. The owner of a reference is what stands in front of its first colon,
so it may be any text without one; the type, the name and the types of the parameters are what they
were written as. The angle bracket that closes a reference is found past those of an initializer.
-/
namespace PointsTo.Jimple

open PointsTo.Text

/-- The owner, the type and the name of a reference can be told apart in its text. -/
structure Legible (owner type name : List Char) : Prop where
  owner_ne_nil : owner ≠ []
  owner_trimmed : Trimmed owner
  no_colon : ':' ∉ owner
  type_ne_nil : type ≠ []
  type_not_blank : ∀ c ∈ type, isBlank c = false
  name_ne_nil : name ≠ []
  name_not_blank : ∀ c ∈ name, isBlank c = false

variable {owner type name : List Char}

/-! ### Owner and type -/

theorem Legible.readOwner? (h : Legible owner type name) (tail : List Char) :
    readOwner? (owner ++ ':' :: ' ' :: type ++ ' ' :: (name ++ tail)) =
      some (owner, type, name ++ tail) := by
  obtain ⟨c, rest, rfl⟩ := List.exists_cons_of_ne_nil h.name_ne_nil
  have hc : isBlank c = false := h.name_not_blank c List.mem_cons_self
  have hrun : ∀ d ∈ owner, decide (d ≠ ':') = true := fun d hd =>
    decide_eq_true fun heq => h.no_colon (heq ▸ hd)
  have hnames : ∀ d ∈ type, (!isBlank d) = true := fun d hd => by simp [h.type_not_blank d hd]
  have htyped : (' ' :: (type ++ ' ' :: c :: (rest ++ tail))).dropWhile isBlank =
      type ++ ' ' :: c :: (rest ++ tail) := by
    obtain ⟨d, ds, rfl⟩ := List.exists_cons_of_ne_nil h.type_ne_nil
    have hd : isBlank d = false := h.type_not_blank d List.mem_cons_self
    rw [List.dropWhile_cons_of_pos (by decide), List.cons_append,
      List.dropWhile_cons_of_neg (by simp [hd])]
  have htail : (' ' :: c :: (rest ++ tail)).dropWhile isBlank = c :: (rest ++ tail) := by
    rw [List.dropWhile_cons_of_pos (by decide), List.dropWhile_cons_of_neg (by simp [hc])]
  have hblank : (!isBlank ' ') = false := by decide
  have howner : owner.isEmpty = false := List.isEmpty_eq_false_iff.2 h.owner_ne_nil
  have htype : type.isEmpty = false := List.isEmpty_eq_false_iff.2 h.type_ne_nil
  have hshorter : (type ++ ' ' :: c :: (rest ++ tail)).length ≠
      (' ' :: (type ++ ' ' :: c :: (rest ++ tail))).length := by
    simp
  rw [List.append_assoc, List.cons_append, List.cons_append, List.cons_append]
  simp only [Jimple.readOwner?, takeWhile_run hrun (by decide : decide (':' ≠ ':') = false),
    dropWhile_run hrun (by decide : decide (':' ≠ ':') = false), htyped,
    takeWhile_run hnames hblank, dropWhile_run hnames hblank, htail, howner, htype,
    decide_eq_false hshorter, List.isEmpty_cons, Bool.or_self, Bool.false_eq_true, if_false]

/-- The inside of angle brackets. -/
theorem inner_bracketed {s : List Char} (h : Trimmed s) : inner ('<' :: s ++ ['>']) = s := by
  rw [inner, List.cons_append, List.drop_succ_cons, List.drop_zero, List.dropLast_concat, h.trim]

theorem Legible.inner (h : Legible owner type name) {last : List Char} (hlast : Trimmed last)
    (hne : last ≠ []) : inner ('<' :: owner ++ ':' :: ' ' :: type ++ ' ' :: last ++ ['>']) =
      owner ++ ':' :: ' ' :: type ++ ' ' :: last := by
  have htrimmed := h.owner_trimmed.append (t := ':' :: ' ' :: type ++ [' ']) hlast h.owner_ne_nil hne
  simpa using inner_bracketed htrimmed

/-! ### Fields -/

/-- **A reference to a field is read as its parts.** -/
theorem Legible.readFieldRef (h : Legible owner type name) :
    readFieldRef ('<' :: owner ++ ':' :: ' ' :: type ++ ' ' :: name ++ ['>']) = .ok {
      declaringClass := nameOf owner
      name := nameOf name
      type := String.ofList type } := by
  have hread := h.readOwner? []
  rw [List.append_nil] at hread
  have hblank : name.any isBlank = false := by simpa [List.any_eq_false] using h.name_not_blank
  have hne : name.isEmpty = false := List.isEmpty_eq_false_iff.2 h.name_ne_nil
  simp only [Jimple.readFieldRef, h.inner (.of_not_blank h.name_not_blank) h.name_ne_nil, hread,
    hblank, hne, Bool.or_self, Bool.false_eq_true, if_false, h.owner_trimmed.trim]

theorem WrittenField.legible (f : WrittenField) :
    Legible f.owner.chars f.type.chars f.name.chars :=
  ⟨f.owner.ne_nil, f.owner.trimmed, f.owner.not_mem (by decide), f.type.ne_nil, f.type.not_isBlank,
    f.name.ne_nil, f.name.not_isBlank⟩

theorem readFieldRef_text (f : WrittenField) : readFieldRef f.text = .ok f.ref := by
  have hread := f.legible.readFieldRef
  rw [f.owner.nameOf, f.name.nameOf] at hread
  exact hread

/-! ### Methods -/

/-- The types of parameters can be told apart in the parentheses. -/
def LegibleTypes (types : List (List Char)) : Prop := ∀ w ∈ types, IsItem w ∧ ')' ∉ w

theorem LegibleTypes.not_mem {types : List (List Char)} (h : LegibleTypes types) :
    ')' ∉ [','].intercalate types := by
  intro hclose
  rcases mem_intercalate hclose with hclose | ⟨w, hw, hclose⟩
  · exact absurd (List.mem_singleton.1 hclose) (by decide)
  · exact (h w hw).2 hclose

theorem readSignature?_text {types : List (List Char)} (hne : name ≠ [])
    (hblank : ∀ c ∈ name, isBlank c = false) (hopen : '(' ∉ name) (htypes : LegibleTypes types) :
    readSignature? (name ++ '(' :: ([','].intercalate types ++ [')'])) =
      some (name, [','].intercalate types) := by
  have hname : ∀ c ∈ name, (!isBlank c && decide (c ≠ '(')) = true := fun c hc => by
    have hparen : c ≠ '(' := fun heq => hopen (heq ▸ hc)
    simp [hblank c hc, hparen]
  have hstop : (!isBlank '(' && decide ('(' ≠ '(')) = false := by decide
  have hparams : ∀ c ∈ [','].intercalate types, decide (c ≠ ')') = true := fun c hc =>
    decide_eq_true fun heq => htypes.not_mem (heq ▸ hc)
  simp only [readSignature?, takeWhile_run hname hstop, dropWhile_run hname hstop,
    takeWhile_run hparams (by decide : decide (')' ≠ ')') = false),
    List.isEmpty_eq_false_iff.2 hne, List.drop_left, ne_eq, not_true_eq_false, decide_false,
    Bool.or_self, Bool.false_eq_true, if_false]

/-- **A reference to a method is read as its parts.** -/
theorem Legible.readMethodRef {types : List (List Char)} (h : Legible owner type name)
    (hopen : '(' ∉ name) (htypes : LegibleTypes types) :
    readMethodRef ('<' :: owner ++ ':' :: ' ' :: type ++ ' ' :: name ++
      '(' :: [','].intercalate types ++ [')', '>']) = .ok {
        declaringClass := nameOf owner
        name := nameOf name
        paramTypes := types.map String.ofList
        returnType := String.ofList type } := by
  have hlast : Trimmed (name ++ '(' :: ([','].intercalate types ++ [')'])) := by
    have hclose : Trimmed [')'] := .of_all (by decide)
    have hall := (Trimmed.of_not_blank h.name_not_blank).append
      (t := '(' :: [','].intercalate types) hclose h.name_ne_nil (by simp)
    simpa using hall
  have hinner := h.inner hlast (by simp)
  have htext : '<' :: owner ++ ':' :: ' ' :: type ++ ' ' :: name ++
      '(' :: [','].intercalate types ++ [')', '>'] = '<' :: owner ++ ':' :: ' ' :: type ++
        ' ' :: (name ++ '(' :: ([','].intercalate types ++ [')'])) ++ ['>'] := by
    simp
  have hparams : splitTypes (commaList ⟨[], rfl⟩ types) = types :=
    splitTypes_commaList fun w hw => (htypes w hw).1
  change splitTypes ([','].intercalate types) = types at hparams
  simp only [Jimple.readMethodRef, htext, hinner, h.readOwner?,
    readSignature?_text h.name_ne_nil h.name_not_blank hopen htypes, h.owner_trimmed.trim, hparams]

theorem typeList_eq (types : List PlainName) :
    typeList types = commaList ⟨[], rfl⟩ (types.map PlainName.chars) := rfl

/-- No type has the character of a list in it. -/
theorem not_mem_typeList {c : Char} (hc : c ∈ nameStops) (hcomma : c ≠ ',')
    (types : List PlainName) : c ∉ typeList types := by
  have hstops : ∀ c ∈ nameStops, isBlank c = false := List.all_iff_forall_prop.1 (by decide)
  intro hmem
  rw [typeList_eq] at hmem
  rcases mem_commaList hmem with heq | hblank | ⟨w, hw, hmem⟩
  · exact hcomma heq
  · rw [hstops c hc] at hblank
    cases hblank
  · obtain ⟨n, -, rfl⟩ := List.mem_map.1 hw
    exact n.not_mem hc hmem

theorem legibleTypes_chars (types : List PlainName) : LegibleTypes (types.map PlainName.chars) := by
  intro w hw
  obtain ⟨n, -, rfl⟩ := List.mem_map.1 hw
  exact ⟨n.isBare.isItem, n.not_mem (by decide)⟩

theorem readMethodRef_methodText (hne : owner ≠ []) (htrimmed : Trimmed owner)
    (hcolon : ':' ∉ owner) (returnType : PlainName) (name : MemberName)
    (params : List PlainName) :
    readMethodRef (methodText owner returnType name params) = .ok {
      declaringClass := nameOf owner
      name := String.ofList name.chars
      paramTypes := params.map fun type => String.ofList type.chars
      returnType := String.ofList returnType.chars } := by
  have h : Legible owner returnType.chars name.chars :=
    ⟨hne, htrimmed, hcolon, returnType.ne_nil, returnType.not_isBlank, name.ne_nil,
      name.not_isBlank⟩
  have hread := h.readMethodRef (name.not_mem (by decide)) (legibleTypes_chars params)
  rw [name.nameOf, List.map_map] at hread
  exact hread

theorem readMethodRef_text (m : WrittenMethod) : readMethodRef m.text = .ok m.ref := by
  have h := readMethodRef_methodText m.owner.ne_nil m.owner.trimmed (m.owner.not_mem (by decide))
    m.returnType m.name m.params
  rw [m.owner.nameOf] at h
  exact h

/-! ### Closing angle brackets -/

/-- The bracket that closes a text with balanced brackets is found, whatever follows. -/
theorem angleEnd?_bracketed {s : List Char} (h : nesting '<' '>' 0 s = some 0)
    (rest : List Char) :
    angleEnd? ('<' :: s ++ '>' :: rest) 0 = some (s.length + 2) := by
  have hinside := angleLength?_append ('>' :: rest) h
  rw [angleLength?, if_pos ⟨rfl, rfl⟩] at hinside
  have hlength : angleLength? 0 ('<' :: s ++ '>' :: rest) = some (s.length + 2) := by
    rw [List.cons_append, angleLength?, if_neg (by simp)]
    exact congrArg (Option.map (· + 1)) hinside
  rw [angleEnd?, List.drop_zero, hlength, Option.map_some, Nat.zero_add]

theorem nesting_methodText (hopen : '<' ∉ owner) (hclose : '>' ∉ owner) (returnType : PlainName)
    (name : MemberName) (params : List PlainName) :
    nesting '<' '>' 0 (owner ++ ':' :: ' ' :: returnType.chars ++ ' ' :: name.chars ++
      '(' :: typeList params ++ [')']) = some 0 := by
  have hhead : nesting '<' '>' 0 (owner ++ ':' :: ' ' :: returnType.chars ++ [' ']) = some 0 := by
    refine nesting_of_not_mem ?_ ?_
    · have htype := returnType.not_mem (c := '<') (by decide)
      simp [hopen, htype]
    · have htype := returnType.not_mem (c := '>') (by decide)
      simp [hclose, htype]
  have htail : nesting '<' '>' 0 ('(' :: typeList params ++ [')']) = some 0 := by
    refine nesting_of_not_mem ?_ ?_
    · have htypes := not_mem_typeList (c := '<') (by decide) (by decide) params
      simp [htypes]
    · have htypes := not_mem_typeList (c := '>') (by decide) (by decide) params
      simp [htypes]
  have hname := nesting_append (t := '(' :: typeList params ++ [')']) (name.nesting 0)
  have hall := nesting_append (t := name.chars ++ ('(' :: typeList params ++ [')'])) hhead
  rw [hname, htail] at hall
  simpa using hall

end PointsTo.Jimple
