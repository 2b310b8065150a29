import PointsTo.Proofs.ListedHeaders

/-!
The lines of listed members. What the reader makes of a field, of the header of a method, and of
each part of a body, is what the listing says.
-/
namespace PointsTo.Jimple

open PointsTo.Text

/-! ### Fields -/

/-- The last two words of a declaration are its type and its name. -/
theorem cutDeclaration?_spaced (modifiers : List Word) {type name : List Char} (htype : IsBare type)
    (hname : IsBare name) :
    cutDeclaration? (spaced (modifiers.map Word.chars ++ [type, name])) =
      some (modifiers.map Word.text, String.ofList type, nameOf name) := by
  have hbare : ∀ w ∈ modifiers.map Word.chars ++ [type, name], IsBare w := by
    intro s hs
    rw [List.mem_append, List.mem_cons, List.mem_singleton] at hs
    rcases hs with hs | rfl | rfl
    · obtain ⟨w, -, rfl⟩ := List.mem_map.1 hs
      exact w.isBare
    · exact htype
    · exact hname
  have hreverse : (modifiers.map Word.chars ++ [type, name]).reverse =
      name :: type :: (modifiers.map Word.chars).reverse := by
    rw [List.reverse_append]
    rfl
  simp only [cutDeclaration?, words_spaced hbare, hreverse, List.reverse_reverse, List.map_map]
  rfl

theorem FieldText.reads (f : FieldText) (p : Program) (c : Class) :
    Reads p (.inClass c) [f.line]
      (p.declare { c with fields := c.fields.put (f.toField c.name) })
      (.inClass { c with fields := c.fields.put (f.toField c.name) }) := by
  have hlast : f.line.chars.getLast? = some ';' := List.getLast?_concat
  have hbrace : f.line.chars ≠ ['\x7d'] := by
    intro h
    rw [h] at hlast
    exact absurd hlast (by decide)
  have hparen : f.line.chars.contains '(' = false := by
    rw [Bool.eq_false_iff, ne_eq, List.contains_iff_mem]
    intro h
    rcases List.mem_append.1 h with h | h
    · rcases mem_spaced h with h | ⟨w, hw, h⟩
      · exact absurd h (by decide)
      · rw [List.mem_append, List.mem_cons, List.mem_singleton] at hw
        rcases hw with hw | rfl | rfl
        · obtain ⟨w, -, rfl⟩ := List.mem_map.1 hw
          exact w.not_mem (by decide) h
        · exact f.type.not_mem (by decide) h
        · exact f.name.not_mem (by decide) h
    · exact absurd h (by decide)
  have hends : endsWith ';' f.line.chars = true := by simp [endsWith, hlast]
  have hdrop : f.line.chars.dropLast =
      spaced (f.modifiers.map Word.chars ++ [f.type.chars, f.name.chars]) := List.dropLast_concat
  have hread : readField c.name f.line.chars = .ok (f.toField c.name) := by
    simp only [readField, hends, hdrop, f.name.nameOf,
      cutDeclaration?_spaced f.modifiers f.type.isBare f.name.isBare, Bool.not_true,
      Bool.false_eq_true, if_false]
    rfl
  have hline : (Reader.mk p (.inClass c) f.number f.number).line? f.line.chars =
      .ok ((Reader.mk p (.inClass c) f.number f.number).keep
        { c with fields := c.fields.put (f.toField c.name) } .inClass) := by
    simp only [Reader.line?, Reader.member, if_neg hbrace, hparen, Bool.false_eq_true, if_false,
      hread]
  exact Reads.line (by simp) hline

/-! ### Methods -/

namespace MethodText

variable (m : MethodText)

/-- The header up to the end of its parameters. -/
def signature : List Char :=
  spaced (m.modifiers.map Word.chars ++ [m.returnType.chars, m.name.chars]) ++
    '(' :: commaList m.gap (m.params.map PlainName.chars)

theorem header_eq : m.header = m.signature ++ ')' :: clause "throws" m.gap m.throws := by
  simp [header, signature]

theorem open_mem_signature : '(' ∈ m.signature := by simp [signature]

theorem trimLeft_signature : trimLeft m.signature = m.signature := by
  refine trimLeft_of_first fun s hs => ?_
  cases hwords : m.modifiers.map Word.chars with
  | nil =>
    rw [signature, hwords, List.nil_append, spaced_cons_cons, List.append_assoc,
      List.head?_append_of_ne_nil _ m.returnType.ne_nil] at hs
    exact m.returnType.not_isBlank s (List.mem_of_head? hs)
  | cons first rest =>
    obtain ⟨w, -, rfl⟩ := List.mem_map.1 (hwords ▸ List.mem_cons_self : first ∈ _)
    obtain ⟨second, rest', hrest⟩ :
        ∃ second rest', rest ++ [m.returnType.chars, m.name.chars] = second :: rest' :=
      List.exists_cons_of_ne_nil (by simp)
    rw [signature, hwords, List.cons_append, hrest, spaced_cons_cons, List.append_assoc,
      List.head?_append_of_ne_nil _ w.ne_nil] at hs
    exact w.isBare.not_isBlank s (List.mem_of_head? hs)

/-- Whatever stands behind the parameters, the header says the method. -/
theorem readMethodHeader_header {owner : String} {line rest : List Char}
    (h : headerText line = m.signature ++ ')' :: rest) :
    readMethodHeader owner line = some (.ok (m.declared owner)) := by
  have hopen : ∀ c ∈ spaced (m.modifiers.map Word.chars ++ [m.returnType.chars, m.name.chars]),
      decide (c ≠ '(') = true := by
    refine fun c hc => decide_eq_true ?_
    rintro rfl
    rcases mem_spaced hc with hc | ⟨w, hw, hc⟩
    · exact absurd hc (by decide)
    · rw [List.mem_append, List.mem_cons, List.mem_singleton] at hw
      rcases hw with hw | rfl | rfl
      · obtain ⟨w, -, rfl⟩ := List.mem_map.1 hw
        exact w.not_mem (by decide) hc
      · exact m.returnType.not_mem (by decide) hc
      · exact m.name.not_mem (by decide) hc
  have hclose : ∀ c ∈ commaList m.gap (m.params.map PlainName.chars), decide (c ≠ ')') = true := by
    refine fun c hc => decide_eq_true ?_
    rintro rfl
    rcases mem_commaList hc with hc | hc | ⟨w, hw, hc⟩
    · exact absurd hc (by decide)
    · exact absurd hc (by decide)
    · obtain ⟨n, -, rfl⟩ := List.mem_map.1 hw
      exact n.not_mem (by decide) hc
  have hparams : splitTypes (commaList m.gap (m.params.map PlainName.chars)) =
      m.params.map PlainName.chars := by
    refine splitTypes_commaList fun w hw => ?_
    obtain ⟨n, -, rfl⟩ := List.mem_map.1 hw
    exact n.isBare.isItem
  have htext : m.signature ++ ')' :: rest =
      spaced (m.modifiers.map Word.chars ++ [m.returnType.chars, m.name.chars]) ++
        '(' :: (commaList m.gap (m.params.map PlainName.chars) ++ ')' :: rest) := by
    simp [signature]
  have hdrop : ∀ head behind : List Char, (head ++ '(' :: behind).drop (head.length + 1) = behind :=
    fun head behind => by simp
  have hcontains : (commaList m.gap (m.params.map PlainName.chars) ++ ')' :: rest).contains ')' =
      true := by simp
  have hstop : decide ('(' ≠ '(') = false := by decide
  have hstop' : decide (')' ≠ ')') = false := by decide
  simp only [readMethodHeader, h, htext, takeWhile_run hopen hstop, hdrop, hcontains,
    cutDeclaration?_spaced m.modifiers m.returnType.isBare m.name.isBare, m.name.nameOf,
    takeWhile_run hclose hstop', hparams, Bool.not_true, Bool.false_eq_true, if_false,
    List.map_map]
  rfl

theorem headerText_closed {last : Char} (hlast : last = ';' ∨ last = '\x7b') (behind : List Char) :
    headerText (m.signature ++ ')' :: behind ++ [last]) = m.signature ++ ')' :: trimRight behind := by
  have hends : (endsWith ';' (m.signature ++ ')' :: behind ++ [last]) ||
      endsWith '\x7b' (m.signature ++ ')' :: behind ++ [last])) = true := by
    rw [endsWith_concat, endsWith_concat]
    rcases hlast with rfl | rfl <;> rfl
  rw [headerText, if_pos hends, List.dropLast_concat, trim_append_cons (by decide),
    m.trimLeft_signature]

/-- A header whose body begins on a line of its own ends with a name or with the parameters. -/
theorem not_endsWith_header (last : Char) (hplain : isPlainChar last = false)
    (hblank : isBlank last = false) (hparen : last ≠ ')') (hcomma : last ≠ ',') :
    endsWith last m.header = false := by
  rw [header_eq, endsWith, beq_eq_false_iff_ne, List.getLast?_append_of_ne_nil _ (by simp)]
  intro hlast
  rcases List.mem_cons.1 (List.mem_of_getLast? hlast) with hc | hc
  · exact hparen hc
  · rcases mem_clause hc with rfl | h | h | h | ⟨w, -, h⟩
    · exact absurd hblank (by decide)
    · have hthrows : ∀ c ∈ "throws".toList, isPlainChar c = true :=
        List.all_eq_true.1 (by decide +kernel)
      rw [hthrows last h] at hplain
      cases hplain
    · exact hcomma h
    · rw [h] at hblank
      cases hblank
    · exact w.not_mem hplain h

theorem headerText_header : headerText m.header =
    m.signature ++ ')' :: clause "throws" m.gap m.throws := by
  rw [headerText, m.not_endsWith_header ';' (by decide) (by decide) (by decide) (by decide),
    m.not_endsWith_header '\x7b' (by decide) (by decide) (by decide) (by decide), header_eq]
  rfl

/-- The class once the header of the method has been read. -/
def declareIn (c : Class) : Class := { c with methods := c.methods.put (m.declared c.name) }

/-- A line that holds the header of the method declares it. -/
theorem line?_header {p : Program} {c : Class} {n : Nat} {line rest : List Char}
    (hopen : '(' ∈ line) (h : headerText line = m.signature ++ ')' :: rest) :
    (Reader.mk p (.inClass c) n n).line? line =
      .ok ((Reader.mk p (.inClass c) n n).keep (m.declareIn c) fun c' =>
        if endsWith ';' line then .inClass c'
        else if endsWith '\x7b' line then .inBody c' { method := m.declared c.name }
        else .beforeBody c' { method := m.declared c.name }) := by
  have hbrace : line ≠ ['\x7d'] := by
    rintro rfl
    exact absurd hopen (by decide)
  have hcontains : line.contains '(' = true := List.contains_iff_mem.2 hopen
  simp only [Reader.line?, Reader.member, if_neg hbrace, hcontains, if_true, Reader.methodHeader,
    m.readMethodHeader_header h]
  rfl

theorem reads_semicolon (p : Program) (c : Class) :
    Reads p (.inClass c) [⟨m.number, m.header ++ [';']⟩] (p.declare (m.declareIn c))
      (.inClass (m.declareIn c)) := by
  have hopen : '(' ∈ m.header ++ [';'] := by simp [header_eq, m.open_mem_signature]
  have htext := m.headerText_closed (.inl rfl) (clause "throws" m.gap m.throws)
  rw [← header_eq] at htext
  have hline := m.line?_header (p := p) (c := c) (n := m.number) hopen htext
  simp only [endsWith_concat, beq_self_eq_true, if_true] at hline
  exact Reads.line (by simp) hline

theorem reads_brace (brace : Brace) (p : Program) (c : Class) :
    Reads p (.inClass c) (brace.lines m.number m.header) (p.declare (m.declareIn c))
      (.inBody (m.declareIn c) { method := m.declared c.name }) := by
  have hopen : '(' ∈ m.header := by simp [header_eq, m.open_mem_signature]
  cases brace with
  | behind gap =>
    have htext := m.headerText_closed (.inr rfl) (clause "throws" m.gap m.throws ++ gap.chars)
    rw [← List.cons_append, ← List.append_assoc, ← header_eq] at htext
    have hline := m.line?_header (p := p) (c := c) (n := m.number) (by simp [hopen]) htext
    have hsemicolon : ('\x7b' == ';') = false := by decide
    simp only [endsWith_concat, hsemicolon, beq_self_eq_true, Bool.false_eq_true, if_false,
      if_true] at hline
    exact Reads.line (by simp) hline
  | below number =>
    have hline := m.line?_header (p := p) (c := c) (n := m.number) hopen m.headerText_header
    have hsemicolon := m.not_endsWith_header ';' (by decide) (by decide) (by decide) (by decide)
    have hbrace := m.not_endsWith_header '\x7b' (by decide) (by decide) (by decide) (by decide)
    simp only [hsemicolon, hbrace, Bool.false_eq_true, if_false] at hline
    exact Reads.append (Reads.line (n := m.number) (by simp) hline)
      (Reads.line (n := number) (by simp) rfl)

end MethodText

/-! ### Bodies -/

/-- A list of locals behind their type is a declaration. -/
theorem localDeclaration?_text {type : Word} (htype : type.isReserved = false) (gap : Gap)
    (name : LocalName) (names : List LocalName) :
    localDeclaration? (type.chars ++ ' ' :: commaList gap ((name :: names).map LocalName.chars)) =
      some (type.text, (name :: names).map fun x => String.ofList x.chars) := by
  have hbare : ∀ w ∈ name.chars :: names.map LocalName.chars, IsBare w := by
    intro s hs
    rw [← List.map_cons] at hs
    obtain ⟨x, -, rfl⟩ := List.mem_map.1 hs
    exact x.isBare
  have hrun : ∀ c ∈ type.chars, isTypeChar c = true := by
    intro c hc
    have hplain := type.isPlainChar_of_mem hc
    rw [isPlainChar, Bool.or_eq_true, List.contains_iff_mem] at hplain
    rw [isTypeChar, Bool.or_eq_true, List.contains_iff_mem]
    exact hplain.imp_right fun h => List.mem_append_left ['\x27'] h
  have hstop : isTypeChar ' ' = false := by decide
  have hne : type.chars.isEmpty = false := List.isEmpty_eq_false_iff.2 type.ne_nil
  have htrim : trimLeft (' ' :: commaList gap (name.chars :: names.map LocalName.chars)) =
      commaList gap (name.chars :: names.map LocalName.chars) := by
    rw [trimLeft_space]
    exact trimLeft_of_first (trimmed_intercalate hbare).first
  have hsimple : (name.chars :: names.map LocalName.chars).all isSimpleName = true := by
    rw [← List.map_cons, List.all_map, List.all_eq_true]
    intro x _
    simp only [Function.comp_apply, isSimpleName, x.afterName?_self, beq_self_eq_true]
  have hkeyword : keywords.contains (String.ofList type.chars) = false := by
    rw [Bool.eq_false_iff]
    intro hmem
    have hreserved : type.isReserved = true := by
      rw [Word.isReserved, List.contains_iff_mem]
      exact List.mem_append_left _ (List.mem_append_left _ (List.contains_iff_mem.1 hmem))
    rw [htype] at hreserved
    cases hreserved
  have hblank : isBlank ' ' = true := by decide
  have hnames : (name.chars :: names.map LocalName.chars).map nameOf =
      (name :: names).map fun x => String.ofList x.chars := by
    rw [← List.map_cons, List.map_map]
    exact List.map_congr_left fun x _ => x.nameOf
  simp only [localDeclaration?, List.map_cons, takeWhile_run hrun hstop, dropWhile_run hrun hstop,
    htrim, map_trim_commaList fun w hw => (hbare w hw).isItem, hne, hsimple, hkeyword,
    List.head?_cons, Option.map_some, hblank, ne_eq, not_true_eq_false, decide_false, Bool.or_self,
    Bool.not_true, Bool.false_eq_true, if_false]
  exact congrArg (fun names => some (type.text, names)) hnames

namespace BodyPart

variable {p : Program} {c : Class} {d : Draft}

theorem reads_line {n : Nat} {s : List Char} {d' : Draft} (hswitch : opensSwitch s = false)
    (hbrace : s ≠ ['\x7d']) (h : d.readLine s n = .ok d') :
    Reads p (.inBody c d) [⟨n, s⟩] p (.inBody c d') := by
  have hline : (Reader.mk p (.inBody c d) n n).line? s = .ok ⟨p, .inBody c d', n, n⟩ := by
    simp only [Reader.line?, Reader.bodyLine, hswitch, Bool.false_eq_true, if_false,
      if_neg hbrace, h]
    rfl
  exact Reads.line (by simp) hline

/-- A line with a semicolon is no brace. -/
theorem reads_semicolon {n : Nat} {text : List Char} {d' : Draft}
    (hswitch : opensSwitch text = false) (h : d.readLine (text ++ [';']) n = .ok d') :
    Reads p (.inBody c d) [⟨n, text ++ [';']⟩] p (.inBody c d') := by
  refine reads_line ?_ (concat_ne_brace (by decide) text) h
  rwa [opensSwitch_append_cons (by decide)]

theorem reads_declaration (n : Nat) {type : Word} (htype : type.isReserved = false)
    (hswitch : opensSwitch type.chars = false) (gap : Gap) (name : LocalName)
    (names : List LocalName) :
    Reads p (.inBody c d) (declaration n type gap name names).lines p
      (.inBody c (record d (declaration n type gap name names))) := by
  have hbare : ∀ w ∈ (name :: names).map LocalName.chars, IsBare w := by
    intro s hs
    obtain ⟨x, -, rfl⟩ := List.mem_map.1 hs
    exact x.isBare
  have hlist : Trimmed (commaList gap ((name :: names).map LocalName.chars)) :=
    trimmed_intercalate hbare
  have htext := type.isBare.trimmed.append (t := [' ']) hlist type.ne_nil (intercalate_ne_nil hbare)
  rw [List.append_assoc, List.singleton_append] at htext
  have hcatch : startsWith "catch ".toList
      (type.chars ++ ' ' :: commaList gap ((name :: names).map LocalName.chars)) = false := by
    have hspace : ' ' ∉ type.chars := type.not_mem (by decide)
    refine not_startsWith_catch fun hword => ?_
    rw [firstWord_append hspace] at hword
    have hreserved : type.isReserved = true := by
      rw [Word.isReserved, Word.text, hword]
      decide +kernel
    rw [htype] at hreserved
    cases hreserved
  refine reads_semicolon ?_ ?_
  · rwa [opensSwitch_append_cons (by decide)]
  · have htrim : trim (type.chars ++ ' ' :: commaList gap ((name :: names).map LocalName.chars)) =
        type.chars ++ ' ' :: commaList gap ((name :: names).map LocalName.chars) := htext.trim
    rw [Draft.readLine_semicolon, htrim, hcatch, localDeclaration?_text htype]
    refine congrArg Except.ok ?_
    rw [List.foldl_map]
    rfl

theorem reads_label (n : Nat) {name : PlainName} (hswitch : opensSwitch name.chars = false) :
    Reads p (.inBody c d) (label n name).lines p (.inBody c d) := by
  have hlabel : isLabel (name.chars ++ [':']) = true := by
    have hspace : ' ' ∉ name.chars := fun hc => absurd (name.not_isBlank ' ' hc) (by decide)
    simp [isLabel, endsWith_concat, hspace]
  refine reads_line ?_ (concat_ne_brace (by decide) name.chars) ?_
  · rwa [opensSwitch_append_cons (by decide)]
  · rw [Draft.readLine, if_pos hlabel]

theorem reads_handler (n : Nat) (type first last target : PlainName) :
    Reads p (.inBody c d) (handler n type first last target).lines p (.inBody c d) := by
  have hbare : ∀ w ∈ [type.chars, "from".toList, first.chars, "to".toList, last.chars,
      "with".toList, target.chars], IsBare w := by
    simp only [List.mem_cons, List.not_mem_nil, or_false, forall_eq_or_imp, forall_eq]
    exact ⟨type.isBare, .of_all (by decide) (by decide), first.isBare,
      .of_all (by decide) (by decide), last.isBare, .of_all (by decide) (by decide),
      target.isBare⟩
  have hcatch : Trimmed "catch".toList := .of_all (by decide)
  have htext := hcatch.append (t := [' ']) (u := spaced _) (trimmed_intercalate hbare) (by decide)
    (intercalate_ne_nil hbare)
  have hword : "catch".toList ++ [' '] = "catch ".toList := by decide
  rw [hword] at htext
  refine reads_semicolon rfl ?_
  rw [Draft.readLine_semicolon, htext.trim, startsWith_iff.2 ⟨_, rfl⟩, if_pos rfl]

/-- **Every part of a body is read as what it says.** -/
theorem reads {part : BodyPart} (hvalid : part.isValid d.method.signature = true)
    (hswitch : part.avoidsSwitch = true) :
    Reads p (.inBody c d) part.lines p (.inBody c (record d part)) := by
  cases part with
  | declaration n type gap name names =>
    rw [isValid, Bool.not_eq_true'] at hvalid
    rw [avoidsSwitch, Bool.not_eq_true'] at hswitch
    exact reads_declaration n hvalid hswitch gap name names
  | label n name =>
    rw [avoidsSwitch, Bool.not_eq_true'] at hswitch
    exact reads_label n hswitch
  | handler n type first last target => exact reads_handler n type first last target
  | statement n text =>
    simp only [isValid, Bool.and_eq_true, decide_eq_true_eq, Bool.not_eq_true',
      Option.isNone_iff_eq_none] at hvalid
    obtain ⟨⟨⟨⟨htrim, haccepted⟩, hopens⟩, hcatch⟩, hdeclaration⟩ := hvalid
    refine reads_semicolon hopens ?_
    rw [Draft.readLine_semicolon, ← htrim, hcatch, hdeclaration, record]
    cases hread : readStatement d.method.signature text with
    | ok reading => rfl
    | error fault =>
      rw [hread] at haccepted
      cases haccepted
  | switch n opening inside closing =>
    rw [isValid, Bool.and_eq_true, List.all_eq_true] at hvalid
    refine Reads.switch hvalid.1 fun l hl => ?_
    have hopen := hvalid.2 l hl
    rwa [Bool.not_eq_true'] at hopen

end BodyPart

end PointsTo.Jimple
