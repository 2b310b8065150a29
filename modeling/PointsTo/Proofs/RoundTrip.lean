import PointsTo.Proofs.Assigned

/-!
A statement is read as it was written. A string constant among the arguments of a call may hold any
text. Two things that the types of `Written` allow cannot be read back: a store into a field of a
type that is a mere `=`, and a dynamic call of an initializer.
-/
namespace PointsTo.Jimple

open PointsTo.Text

variable {owner : String} {s : List Char}

/-! ### Calls -/

/-- The name of a dynamic call is taken out of its quotes. -/
theorem PlainName.stripDoubleQuotes (n : PlainName) :
    stripDoubleQuotes (trim ('\x22' :: n.chars ++ ['\x22', ' '])) = n.chars := by
  have hquote : Trimmed ['\x22'] := .of_all (by decide)
  have htrimmed : Trimmed ('\x22' :: n.chars ++ ['\x22']) :=
    hquote.append hquote (by simp) (by simp)
  have hblank : trimRight [' '] = [] := by decide
  have htrim : trim ('\x22' :: n.chars ++ ['\x22', ' ']) = '\x22' :: n.chars ++ ['\x22'] := by
    have h := htrimmed.trim_append (by simp) [' ']
    rwa [hblank, List.append_nil, List.append_assoc, List.singleton_append] at h
  have hdrop : ∀ s : List Char, '\x22' ∉ s →
      s.dropWhile (fun c => decide (c = '\x22')) = s := by
    intro s hs
    cases s with
    | nil => rfl
    | cons c s =>
      have hc : ¬decide (c = '\x22') = true := fun heq =>
        hs (of_decide_eq_true heq ▸ List.mem_cons_self)
      exact List.dropWhile_cons_of_neg hc
  have hname : '\x22' ∉ n.chars := n.not_mem (by decide)
  have hfront : ('\x22' :: n.chars ++ ['\x22']).dropWhile (fun c => decide (c = '\x22')) =
      n.chars ++ ['\x22'] := by
    obtain ⟨c, rest, heq⟩ := List.exists_cons_of_ne_nil n.ne_nil
    have hc : c ≠ '\x22' := fun h => hname (heq ▸ h ▸ List.mem_cons_self)
    rw [List.cons_append, List.dropWhile_cons_of_pos (by decide), heq, List.cons_append,
      List.dropWhile_cons_of_neg (by simp only [decide_eq_true_eq, hc, not_false_eq_true])]
  have hback : (n.chars ++ ['\x22']).reverse.dropWhile (fun c => decide (c = '\x22')) =
      n.chars.reverse := by
    rw [List.reverse_append, List.reverse_singleton, List.singleton_append,
      List.dropWhile_cons_of_pos (by decide), hdrop _ fun hc => hname (List.mem_reverse.1 hc)]
  rw [htrim, Jimple.stripDoubleQuotes, hfront, hback, List.reverse_reverse]

theorem splitCall_dynamic (name : PlainName) (rest : List Char) :
    splitCall .dynamic ('\x22' :: name.chars ++ ['\x22', ' '] ++ '<' :: rest) =
      .ok (name.chars, '<' :: rest) := by
  have hquoted : '<' ∉ '\x22' :: name.chars ++ ['\x22', ' '] := by
    have hname := name.not_mem (c := '<') (by decide)
    simp [hname]
  have hcut := cut?_append_mark [] hquoted rest
  rw [List.append_assoc _ ['<'], List.singleton_append] at hcut
  have hname := name.stripDoubleQuotes
  simp only [splitCall, hcut, hname]

theorem splitCall_receiver {kind : CallKind} (h : hasReceiver kind = true) (receiver : LocalName)
    (rest : List Char) :
    splitCall kind (receiver.chars ++ ['.'] ++ '<' :: rest) = .ok (receiver.chars, '<' :: rest) := by
  have hdot : '.' ∉ receiver.chars := receiver.not_mem (by decide)
  have hcut : cut? ['.', '<'] (receiver.chars ++ ['.'] ++ '<' :: rest) =
      some (receiver.chars, rest) := by
    simpa using cut?_append_mark ['<'] hdot rest
  cases kind with
  | static => cases h
  | dynamic => cases h
  | special => simp only [splitCall, hcut]
  | virtual => simp only [splitCall, hcut]
  | interface => simp only [splitCall, hcut]

namespace Callee

variable (c : Callee)

/-- A reference stands in angle brackets, and those within are balanced. -/
theorem exists_signature : ∃ inside, c.signature = '<' :: inside ++ ['>'] ∧
    nesting '<' '>' 0 inside = some 0 := by
  have hmethod : ∀ owner : PlainName, ∀ returnType name params, ∃ inside,
      methodText owner.chars returnType name params = '<' :: inside ++ ['>'] ∧
        nesting '<' '>' 0 inside = some 0 := by
    intro owner returnType name params
    refine ⟨_, ?_, nesting_methodText (owner.not_mem (by decide)) (owner.not_mem (by decide))
      returnType name params⟩
    simp [methodText]
  cases c with
  | static method => exact hmethod _ _ _ _
  | onObject kind valid receiver method => exact hmethod _ _ _ _
  | dynamic owner name returnType params linkage =>
    cases owner with
    | some owner => exact hmethod _ _ _ _
    | none =>
      refine ⟨returnType.chars ++ ' ' :: '(' :: typeList params ++ [')'], by simp [signature],
        nesting_of_not_mem ?_ ?_⟩
      · have htype := returnType.not_mem (c := '<') (by decide)
        have htypes := not_mem_typeList (c := '<') (by decide) (by decide) params
        simp [htype, htypes]
      · have htype := returnType.not_mem (c := '>') (by decide)
        have htypes := not_mem_typeList (c := '>') (by decide) (by decide) params
        simp [htype, htypes]

/-- What the reader takes for the part in front of the reference. -/
def opening : Callee → List Char
  | static _ => []
  | onObject _ _ receiver _ => receiver.chars
  | dynamic _ name .. => name.chars

theorem splitCall {c : Callee} (h : c.isLegible = true) (rest : List Char) :
    splitCall c.kind (c.before ++ '<' :: rest) = .ok (c.opening, '<' :: rest) := by
  cases c with
  | static method => rfl
  | onObject kind valid receiver method => exact splitCall_receiver valid receiver rest
  | dynamic owner name returnType params linkage =>
    cases name with
    | initializer => cases h
    | classInitializer => cases h
    | plain name => exact splitCall_dynamic name rest

/-- A reference without an owner is completed by the name of the call. -/
theorem dynamicSignature_types (name : MemberName) (returnType : PlainName)
    (params : List PlainName) :
    dynamicSignature name.chars ('<' :: returnType.chars ++ ' ' :: '(' :: typeList params ++ [')', '>']) =
      methodText dynamicClass.toList returnType name params := by
  have htype := returnType.not_mem (c := ':') (by decide)
  have htypes := not_mem_typeList (c := ':') (by decide) (by decide) params
  have hcolon : ('<' :: returnType.chars ++ ' ' :: '(' :: typeList params ++ [')', '>']).contains ':' =
      false := by
    rw [Bool.eq_false_iff, ne_eq, List.contains_iff_mem]
    simp [htype, htypes]
  have hinside :
      (('<' :: returnType.chars ++ ' ' :: '(' :: typeList params ++ [')', '>']).drop 1).dropLast =
        returnType.chars ++ ' ' :: ('(' :: typeList params ++ [')']) := by
    have hconcat : ('<' :: returnType.chars ++ ' ' :: '(' :: typeList params ++ [')', '>']).drop 1 =
        returnType.chars ++ ' ' :: ('(' :: typeList params ++ [')']) ++ ['>'] := by
      simp
    rw [hconcat, List.dropLast_concat]
  have hspace : ' ' ∉ returnType.chars := fun hc =>
    absurd (returnType.not_isBlank ' ' hc) (by decide)
  have hparams : (returnType.chars ++ ' ' :: ('(' :: typeList params ++ [')'])).drop
      (returnType.chars.length + 1) = '(' :: typeList params ++ [')'] := by
    rw [← List.drop_drop, List.drop_left]
    rfl
  have htrim : trim ('(' :: typeList params ++ [')']) = '(' :: typeList params ++ [')'] := by
    have hopen : Trimmed ['('] := .of_all (by decide)
    have hclose : Trimmed [')'] := .of_all (by decide)
    exact (hopen.append (t := typeList params) hclose (by simp) (by simp)).trim
  have hname : name.chars.isEmpty = false := List.isEmpty_eq_false_iff.2 name.ne_nil
  simp only [dynamicSignature, hcolon, hinside, firstWord_append hspace, hparams, htrim, hname,
    Bool.false_eq_true, if_false]
  simp [methodText]

theorem readMethodRef {c : Callee} :
    readMethodRef (if c.kind = .dynamic then dynamicSignature c.opening c.signature
      else c.signature) = .ok c.ref := by
  cases c with
  | static method => exact readMethodRef_text method
  | onObject kind valid receiver method =>
    have hkind : kind ≠ .dynamic := by
      rintro rfl
      cases valid
    rw [Callee.kind, if_neg hkind]
    exact readMethodRef_text method
  | dynamic owner name returnType params linkage =>
    rw [Callee.kind, if_pos rfl, opening]
    cases owner with
    | none =>
      have hne : dynamicClass.toList ≠ [] := by decide
      have hread := readMethodRef_methodText hne (.of_all (by decide)) (by decide) returnType
        name params
      have hclass : nameOf dynamicClass.toList = dynamicClass := by decide
      rw [hclass] at hread
      rw [signature, dynamicSignature_types, hread]
      rfl
    | some owner =>
      have hcolon : (methodText owner.chars returnType name params).contains ':' = true := by
        rw [List.contains_iff_mem]
        simp [methodText]
      have hread := readMethodRef_methodText owner.ne_nil owner.trimmed (owner.not_mem (by decide))
        returnType name params
      rw [owner.nameOf] at hread
      rw [signature, dynamicSignature, if_pos hcolon, hread]
      rfl

end Callee

/-- A call behind its keyword up to the parenthesis that closes the arguments. -/
def callHead (c : Callee) (args : List Argument) : List Char :=
  c.before ++ c.signature ++ '(' :: joinArguments (args.map Argument.chars) ++ [')']

theorem trimmed_callHead (c : Callee) (args : List Argument) : Trimmed (callHead c args) := by
  have hclose : Trimmed [')'] := .of_all (by decide)
  have hfront : ∃ s t, callHead c args = s ++ t ++ [')'] ∧ Trimmed s ∧ s ≠ [] := by
    let list := joinArguments (args.map Argument.chars)
    obtain ⟨inside, hsignature, -⟩ := c.exists_signature
    cases c with
    | static method =>
      refine ⟨['<'], inside ++ '>' :: '(' :: list, ?_, .of_all (by decide), by simp⟩
      simp [callHead, hsignature, Callee.before, list]
    | onObject kind valid receiver method =>
      refine ⟨receiver.chars, '.' :: method.text ++ '(' :: list, ?_, receiver.trimmed,
        receiver.ne_nil⟩
      simp [callHead, Callee.signature, Callee.before, list]
    | dynamic owner name returnType params linkage =>
      refine ⟨['\x22'], name.chars ++ ['\x22', ' '] ++ '<' :: inside ++ '>' :: '(' :: list, ?_,
        .of_all (by decide), by simp⟩
      simp [callHead, hsignature, Callee.before, list]
  obtain ⟨s, t, heq, hs, hne⟩ := hfront
  rw [heq]
  exact hs.append hclose hne (by simp)

/-- The bracket that closes the signature is its last character. -/
theorem Callee.angleEnd?_signature (c : Callee) (rest : List Char) :
    angleEnd? (c.signature ++ rest) 0 = some c.signature.length := by
  obtain ⟨inside, hsignature, hnesting⟩ := c.exists_signature
  have h := angleEnd?_bracketed hnesting rest
  rw [hsignature]
  simpa using h

/-- What stands in front of the reference is the receiver of a call that has one. -/
theorem Callee.receiver?_opening (c : Callee) :
    (if hasReceiver c.kind then some (variableOf owner c.opening) else none) =
      c.receiver? owner := by
  cases c with
  | static method => rfl
  | onObject kind valid receiver method =>
    rw [Callee.kind, if_pos valid, Callee.opening, receiver.variableOf]
    rfl
  | dynamic owner name returnType params linkage => rfl

theorem space_not_mem_keyword (kind : CallKind) : ' ' ∉ kind.keyword.toList := by
  cases kind <;> decide

/-- **A call is read as it was written**, whatever stands behind its arguments. -/
theorem readCall_head {c : Callee} (hc : c.isLegible = true) (args : List Argument)
    (behind : List Char) (result : Option Variable) :
    readCall owner c.kind (c.kind.keyword.toList ++ ' ' :: (callHead c args ++ behind)) result =
      .ok {
        instruction := .call {
          kind := c.kind
          callee := c.ref
          receiver := c.receiver? owner
          args := args.map (Argument.var? owner)
          result }
        mentions := result.toList ++ (c.receiver? owner).toList ++
          args.filterMap (Argument.var? owner) } := by
  obtain ⟨inside, hsignature, -⟩ := c.exists_signature
  have hargs : ∀ s ∈ args.map Argument.chars, IsArgument s := by
    intro s hs
    obtain ⟨a, -, rfl⟩ := List.mem_map.1 hs
    exact a.isArgument
  have hne : callHead c args ≠ [] := by simp [callHead]
  have htrim : trim (' ' :: (callHead c args ++ behind)) = callHead c args ++ trimRight behind := by
    rw [← (trimmed_callHead c args).trim_append hne, trim, trimLeft,
      List.dropWhile_cons_of_pos (by decide)]
    rfl
  have hdrop : (c.kind.keyword.toList ++ ' ' :: (callHead c args ++ behind)).drop
      (firstWord (c.kind.keyword.toList ++ ' ' :: (callHead c args ++ behind))).length =
      ' ' :: (callHead c args ++ behind) := by
    rw [firstWord_append (space_not_mem_keyword c.kind), List.drop_left]
  let list := joinArguments (args.map Argument.chars)
  let rest := c.signature ++ '(' :: list ++ ')' :: trimRight behind
  have hrest : rest = '<' :: (inside ++ '>' :: '(' :: (list ++ ')' :: trimRight behind)) := by
    simp [rest, hsignature]
  have hsplit : splitCall c.kind (callHead c args ++ trimRight behind) = .ok (c.opening, rest) := by
    rw [hrest, ← Callee.splitCall hc, ← hrest]
    congr 1
    simp [callHead, rest, list]
  have hangle : angleEnd? rest 0 = some c.signature.length := by
    have h := c.angleEnd?_signature ('(' :: list ++ ')' :: trimRight behind)
    rwa [← List.append_assoc] at h
  have htake : rest.take c.signature.length = c.signature := by
    simp [rest]
  have hparen : parenEnd? rest c.signature.length = some (c.signature.length + (list.length + 2)) :=
    parenEnd?_joinArguments hargs c.signature (trimRight behind)
  have hlist : (rest.take (c.signature.length + (list.length + 2) - 1)).drop
      (c.signature.length + 1) = list := by
    have hend : c.signature.length + (list.length + 2) - 1 =
        (c.signature ++ '(' :: list).length := by
      simp only [List.length_append, List.length_cons]
      omega
    rw [hend, List.take_left, ← List.drop_drop, List.drop_left]
    rfl
  have hlocals : (splitArgs list).map (local? owner) = args.map (Argument.var? owner) := by
    rw [splitArgs_joinArguments hargs, List.map_map]
    exact List.map_congr_left fun a _ => a.local? owner
  have hhead : ¬rest.head? ≠ some '<' := by simp [hrest]
  have hcallee := c.readMethodRef
  simp only [readCall, hdrop, htrim, hsplit, bind, Except.bind, if_neg hhead, hangle, htake,
    hcallee, hparen, hlist, hlocals, c.receiver?_opening, List.filterMap_map, Function.id_comp]
  rfl

theorem callText_eq (c : Callee) (args : List Argument) :
    Written.callText c args = c.kind.keyword.toList ++ ' ' :: (callHead c args ++ c.behind) := by
  simp [Written.callText, Callee.text, callHead]

theorem callKind?_keyword (kind : CallKind) (rest : List Char) :
    callKind? (kind.keyword.toList ++ ' ' :: rest) = some kind := by
  rw [callKind?, firstWord_append (space_not_mem_keyword kind), String.ofList_toList,
    CallKind.ofKeyword?_keyword]

/-- A statement that begins with the keyword of a call is the call. -/
theorem readStatement_keyword {kind : CallKind} (rest : List Char) :
    readStatement owner (kind.keyword.toList ++ ' ' :: rest) =
      readCall owner kind (kind.keyword.toList ++ ' ' :: rest) none := by
  have hcontrol :
      String.ofList (firstWord (kind.keyword.toList ++ ' ' :: rest)) ∉ controlWords := by
    rw [firstWord_append (space_not_mem_keyword kind), String.ofList_toList]
    cases kind <;> decide
  rw [readStatement_of_not_control hcontrol]
  simp only [callKind?_keyword]

theorem readSource_keyword {kind : CallKind} (rest : List Char) (target : Variable)
    (text : List Char) :
    readSource owner target (kind.keyword.toList ++ ' ' :: rest) text =
      readCall owner kind (kind.keyword.toList ++ ' ' :: rest) (some target) := by
  have hallocated : allocated? (kind.keyword.toList ++ ' ' :: rest) = none := by
    cases kind <;> rfl
  simp only [readSource, hallocated, callKind?_keyword]

theorem readStatement_call {c : Callee} (hc : c.isLegible = true) (args : List Argument) :
    readStatement owner (Written.callText c args) =
      .ok (Written.reading owner (.call none c args)) := by
  rw [callText_eq, readStatement_keyword, readCall_head hc]
  rfl

theorem readSource_call {c : Callee} (hc : c.isLegible = true) (args : List Argument)
    (target : Variable) (text : List Char) :
    readSource owner target (trim (Written.callText c args)) text = .ok {
      instruction := .call {
        kind := c.kind
        callee := c.ref
        receiver := c.receiver? owner
        args := args.map (Argument.var? owner)
        result := some target }
      mentions := target :: ((c.receiver? owner).toList ++
        args.filterMap (Argument.var? owner)) } := by
  have htrim : trim (Written.callText c args) =
      c.kind.keyword.toList ++ ' ' :: (callHead c args ++ trimRight c.behind) := by
    have hkeyword : Trimmed c.kind.keyword.toList ∧ c.kind.keyword.toList ≠ [] := by
      cases c.kind <;> exact ⟨.of_all (by decide), by decide⟩
    have hne : callHead c args ≠ [] := by simp [callHead]
    have htrimmed := hkeyword.1.append (t := [' ']) (trimmed_callHead c args) hkeyword.2 hne
    have h := htrimmed.trim_append (by simp) c.behind
    simp only [List.append_assoc, List.cons_append, List.nil_append] at h
    rw [callText_eq, h]
  rw [htrim, readSource_keyword, readCall_head hc]
  rfl

/-! ### All statements -/

/-- What is returned is a variable or a constant. -/
theorem readStatement_value {s : List Char} (h : Trimmed s) :
    readStatement owner ("return ".toList ++ s) =
      .ok ⟨.ret (local? owner s), (local? owner s).toList, none⟩ := by
  have hvalue : trim (("return ".toList ++ s).drop "return".toList.length) = s := by
    have hdrop : ("return ".toList ++ s).drop "return".toList.length = ' ' :: s := rfl
    rw [hdrop, trim, trimLeft_space, ← trim, h.trim]
  have hreturn : (decide ("return ".toList ++ s = "return".toList) ||
      startsWith "return ".toList ("return ".toList ++ s)) = true := by
    rw [startsWith_iff.2 ⟨s, rfl⟩, Bool.or_true]
  rw [readStatement, if_pos hreturn, hvalue]

theorem readStatement_return (a : Argument) :
    readStatement owner ("return ".toList ++ a.chars) =
      .ok (Written.reading owner (.ret (some a))) := by
  rw [readStatement_value a.isArgument.trimmed, a.local?]
  rfl

/-- An assignment to a variable is read as its source. -/
theorem readStatement_local (x : LocalName) {right : List Char} (h : Trimmed right) :
    readStatement owner (Written.assignment x.chars right) =
      readSource owner (x.var owner) right (Written.assignment x.chars right) := by
  rw [readStatement_plainTarget owner x.not_isBlank x.not_keyword (x.not_mem (by decide)), h.trim,
    readAssignment_local]

theorem readStatement_storeField (base : LocalName) (f : WrittenField)
    (hf : f.type.chars ≠ ['=']) (y : LocalName) :
    readStatement owner (Written.assignment (base.chars ++ '.' :: f.text) y.chars) =
      .ok (Written.reading owner (.storeField base f y)) := by
  have hbefore : ∀ c ∈ base.chars ++ ['.'], isNameChar c = true ∨ c = '.' := by
    intro c hc
    rcases List.mem_append.1 hc with hc | hc
    · exact .inl (base.isNameChar_of_mem hc)
    · exact .inr (List.mem_singleton.1 hc)
  have hread := readStatement_fieldTarget owner hbefore f hf y.chars
  have htrimmed : Trimmed (base.chars ++ '.' :: f.text) := by
    simpa using base.trimmed.append (t := ['.']) f.trimmed_text base.ne_nil
      (by simp [WrittenField.text])
  rw [List.append_assoc, List.singleton_append, htrimmed.trim, y.trimmed.trim,
    readAssignment_storeField] at hread
  exact hread

theorem trimmed_element (base : LocalName) (i : Index) :
    Trimmed (base.chars ++ bracketed i.chars) := by
  have hclose : Trimmed [']'] := .of_all (by decide)
  simpa [bracketed] using
    base.trimmed.append (t := '[' :: i.chars) hclose base.ne_nil (by simp)

theorem readStatement_storeElement (base : LocalName) (i : Index) (y : LocalName) :
    readStatement owner (Written.assignment (base.chars ++ bracketed i.chars) y.chars) =
      .ok (Written.reading owner (.storeElement base i y)) := by
  have hnot : ∀ c, isIndexChar c = false → c ≠ '[' → c ≠ ']' →
      c ∉ base.chars ++ bracketed i.chars := by
    intro c hc hopen hclose
    have hbase : c ∉ base.chars := base.not_mem (Bool.or_eq_false_iff.1 hc).1
    have hindex : c ∉ i.chars := i.not_mem hc
    simp [bracketed, hbase, hindex, hopen, hclose]
  have hblank : ∀ c ∈ base.chars ++ bracketed i.chars, isBlank c = false := by
    intro c hc
    by_contra hblank
    refine hnot c ?_ ?_ ?_ hc
    · rw [Bool.eq_false_iff]
      exact fun h => hblank (not_isBlank_of_isIndexChar h)
    · rintro rfl
      exact hblank (by decide)
    · rintro rfl
      exact hblank (by decide)
  have hword : keywords.contains (String.ofList (base.chars ++ bracketed i.chars)) = false :=
    not_keyword (c := '[') (by simp [bracketed]) (by decide)
  rw [readStatement_plainTarget owner hblank hword (hnot ':' (by decide) (by decide) (by decide)),
    y.trimmed.trim, readAssignment_storeElement]
  rfl

/-- **Reading a written statement gives back its instruction**, component by component, with the
variables that it mentions and no role for any. -/
theorem readStatement_text (owner : String) (w : Written) (h : w.isLegible = true) :
    readStatement owner w.text = .ok (w.reading owner) := by
  have hopen : Trimmed ['('] := .of_all (by decide)
  have hclose : Trimmed [']'] := .of_all (by decide)
  cases w with
  | allocate x type =>
    have hnew : Trimmed "new".toList := .of_all (by decide)
    have hright : Trimmed ("new ".toList ++ type.chars) :=
      hnew.append (t := [' ']) type.trimmed (by decide) type.ne_nil
    exact (readStatement_local x hright).trans (readSource_allocate type)
  | allocateArray x type size =>
    have hnew : Trimmed "newarray".toList := .of_all (by decide)
    have hright : Trimmed ("newarray (".toList ++ type.chars ++ ')' :: bracketed size.chars) := by
      have h := hnew.append (t := " (".toList ++ type.chars ++ ')' :: '[' :: size.chars) hclose
        (by decide) (by simp)
      simpa [bracketed] using h
    exact (readStatement_local x hright).trans (readSource_allocateArray type size)
  | allocateArrays x type size sizes =>
    have hnew : Trimmed "newmultiarray".toList := .of_all (by decide)
    have hright : Trimmed ("newmultiarray (".toList ++ type.chars ++
        ')' :: (size :: sizes).flatMap Written.sizeText) := by
      obtain ⟨before, hbefore⟩ := exists_append_sizes size sizes
      have h := hnew.append (t := " (".toList ++ type.chars ++ ')' :: before) hclose (by decide)
        (by simp)
      rw [hbefore]
      simpa using h
    exact (readStatement_local x hright).trans (readSource_allocateArrays type size sizes)
  | copy x y => exact (readStatement_local x y.trimmed).trans (readSource_copy y)
  | cast x type y =>
    have hright : Trimmed ('(' :: type.chars ++ ')' :: ' ' :: y.chars) := by
      simpa using hopen.append (t := type.chars ++ [')', ' ']) y.trimmed (by simp) y.ne_nil
    exact (readStatement_local x hright).trans (readSource_cast type y)
  | loadStatic x f =>
    exact (readStatement_local x f.trimmed_text).trans (readSource_loadStatic f)
  | loadField x base f =>
    have hright : Trimmed (base.chars ++ '.' :: f.text) := by
      simpa using base.trimmed.append (t := ['.']) f.trimmed_text base.ne_nil
        (by simp [WrittenField.text])
    exact (readStatement_local x hright).trans (readSource_loadField base f)
  | storeStatic f y =>
    have hf : f.type.chars ≠ ['='] := of_decide_eq_true h
    have hbefore : ∀ c ∈ ([] : List Char), isNameChar c = true ∨ c = '.' := by simp
    have hread := readStatement_fieldTarget owner hbefore f hf y.chars
    rw [List.nil_append, f.trimmed_text.trim, y.trimmed.trim, readAssignment_storeStatic] at hread
    exact hread
  | storeField base f y => exact readStatement_storeField base f (of_decide_eq_true h) y
  | loadElement x base i =>
    exact (readStatement_local x (trimmed_element base i)).trans (readSource_loadElement base i)
  | storeElement base i y => exact readStatement_storeElement base i y
  | call result callee args =>
    cases result with
    | none => exact readStatement_call h args
    | some x =>
      have hread := readStatement_plainTarget owner x.not_isBlank x.not_keyword
        (x.not_mem (by decide)) (Written.callText callee args)
      rw [readAssignment_local, readSource_call h] at hread
      exact hread
  | ret value =>
    cases value with
    | none => rfl
    | some a => exact readStatement_return a

/-- A call whose arguments look like much else is read with its arguments at their places. -/
theorem readStatement_text_lookalikes :
    Written.isLegible (.call (some ⟨"new".toList, by decide⟩)
      (.onObject .interface rfl ⟨"newarray".toList, by decide⟩
        ⟨⟨"a.B".toList, by decide⟩, ⟨"C[]".toList, by decide⟩, .plain ⟨"m=".toList, by decide⟩,
          [⟨"=".toList, by decide⟩, ⟨"int".toList, by decide⟩]⟩)
      [.constant (.string [.plain ',' (by decide), .escaped '\x22', .plain ')' (by decide),
        .plain ' ' (by decide), .plain '=' (by decide), .plain ' ' (by decide),
        .plain '<' (by decide)]),
       .name ⟨"x#1".toList, by decide⟩]) = true ∧
    readStatement "<A: void m()>"
        "new = interfaceinvoke newarray.<a.B: C[] m=(=,int)>(\x22,\\\x22) = <\x22, x#1)".toList =
      .ok ⟨.call {
          kind := .interface
          callee := ⟨"a.B", "m=", ["=", "int"], "C[]"⟩
          receiver := some ⟨"<A: void m()>", "newarray"⟩
          args := [none, some ⟨"<A: void m()>", "x#1"⟩]
          result := some ⟨"<A: void m()>", "new"⟩ },
        [⟨"<A: void m()>", "new"⟩, ⟨"<A: void m()>", "newarray"⟩, ⟨"<A: void m()>", "x#1"⟩],
        none⟩ := by
  refine ⟨rfl, ?_⟩
  have h := readStatement_text "<A: void m()>" (.call (some ⟨"new".toList, by decide⟩)
    (.onObject .interface rfl ⟨"newarray".toList, by decide⟩
      ⟨⟨"a.B".toList, by decide⟩, ⟨"C[]".toList, by decide⟩, .plain ⟨"m=".toList, by decide⟩,
        [⟨"=".toList, by decide⟩, ⟨"int".toList, by decide⟩]⟩)
    [.constant (.string [.plain ',' (by decide), .escaped '\x22', .plain ')' (by decide),
      .plain ' ' (by decide), .plain '=' (by decide), .plain ' ' (by decide),
      .plain '<' (by decide)]),
     .name ⟨"x#1".toList, by decide⟩]) rfl
  exact h

/-- A store into a field whose type is a mere `=` is taken for something that moves no pointer, and a
dynamic call of an initializer is refused. -/
theorem readStatement_illegible :
    readStatement "<A: void m()>" (Written.text (.storeStatic
        ⟨⟨"C".toList, by decide⟩, ⟨"=".toList, by decide⟩, .plain ⟨"f".toList, by decide⟩⟩
        ⟨"x".toList, by decide⟩)) =
      .ok (Reading.plain "<C: = f> = x".toList []) ∧
    Written.instruction "<A: void m()>" (.storeStatic
        ⟨⟨"C".toList, by decide⟩, ⟨"=".toList, by decide⟩, .plain ⟨"f".toList, by decide⟩⟩
        ⟨"x".toList, by decide⟩) =
      .storeStatic ⟨"C", "f", "="⟩ ⟨"<A: void m()>", "x"⟩ ∧
    readStatement "<A: void m()>" (Written.text (.call none
        (.dynamic none .initializer ⟨"A".toList, by decide⟩ [] []) [])) =
      .error (.badMethodRef "<soot.dummy.InvokeDynamic: init invokedynamic>") ∧
    Written.instruction "<A: void m()>" (.call none
        (.dynamic none .initializer ⟨"A".toList, by decide⟩ [] []) []) =
      .call ⟨.dynamic, ⟨"soot.dummy.InvokeDynamic", "<init>", [], "A"⟩, none, [], none⟩ := by
  refine ⟨?_, ?_, ?_, ?_⟩ <;> decide +kernel

end PointsTo.Jimple
