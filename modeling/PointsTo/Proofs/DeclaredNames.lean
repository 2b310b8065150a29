import PointsTo.Proofs.Bodies
import PointsTo.Proofs.NameUses
import PointsTo.Proofs.Requoting

/-!
Declared names in the body of a method. What a line declares stays known to the end of the body, so
that a later statement can use the variable with its type. Whether it does is up to the name: a
declaration takes names that no statement takes for a variable, and these are constants wherever
they are used.
-/
namespace PointsTo.Jimple

open PointsTo.Text

/-- A line of a body declares a name, with a type. -/
structure Declares (s : List Char) (type name : String) : Prop where
  ends : endsWith ';' s = true
  named : ∃ names, localDeclaration? (trim s.dropLast) = some (type, names) ∧ name ∈ names

/-! ### Types of declared names -/

namespace Draft

variable {d d' : Draft} {name type : String}

/-- The variable of a name has a type, whether it was mentioned yet or not. -/
structure HasType (d : Draft) (name type : String) : Prop where
  declared : (d.declared.get? name).map Declared.type = some type
  known : ∀ l, d.locals.get? name = some l → l.type = type

theorem get?_declare (d : Draft) (type name : String) (names : List String) :
    (names.foldl (fun d x => d.declare type x) d).declared.get? name =
        (if name ∈ names then some ⟨name, type⟩ else d.declared.get? name) ∧
      (names.foldl (fun d x => d.declare type x) d).locals = d.locals := by
  induction names generalizing d with
  | nil => exact ⟨rfl, rfl⟩
  | cons x names ih =>
    obtain ⟨hdeclared, hlocals⟩ := ih (d.declare type x)
    refine ⟨?_, hlocals⟩
    rw [List.foldl_cons, hdeclared]
    by_cases hmem : name ∈ names
    · rw [if_pos hmem, if_pos (List.mem_cons_of_mem x hmem)]
    · rw [if_neg hmem, declare, Roster.get?_put]
      by_cases hx : x = name
      · subst hx
        rw [if_pos rfl, if_pos List.mem_cons_self]
      · rw [if_neg hx, if_neg fun hcons => ?_]
        rcases List.mem_cons.1 hcons with heq | hcons
        · exact hx heq.symm
        · exact hmem hcons

/-- A declaration gives its names the type, unless they were mentioned before. -/
theorem hasType_declare {names : List String} (declares : name ∈ names)
    (new : d.locals.get? name = none) :
    (names.foldl (fun d x => d.declare type x) d).HasType name type := by
  obtain ⟨hdeclared, hlocals⟩ := d.get?_declare type name names
  refine ⟨?_, fun l hl => ?_⟩
  · rw [hdeclared, if_pos declares]
    rfl
  · rw [hlocals, new] at hl
    cases hl

theorem HasType.declare (h : d.HasType name type) {names : List String} (other : name ∉ names)
    (type' : String) : (names.foldl (fun d x => d.declare type' x) d).HasType name type := by
  obtain ⟨hdeclared, hlocals⟩ := d.get?_declare type' name names
  refine ⟨?_, fun l hl => ?_⟩
  · rw [hdeclared, if_neg other]
    exact h.declared
  · rw [hlocals] at hl
    exact h.known l hl

theorem HasType.mention (h : d.HasType name type) (v : Variable) :
    (d.mention v).HasType name type := by
  refine ⟨h.declared, fun l hl => ?_⟩
  rw [Draft.mention, Roster.get?_add, d.name_localOf] at hl
  split at hl
  · next hnew =>
    obtain ⟨rfl, hnew⟩ := hnew
    obtain rfl := Option.some.inj hl
    rw [localOf, Roster.get?_eq_none.2 hnew, h.declared]
    rfl
  · exact h.known l hl

theorem HasType.mentions (h : d.HasType name type) (mentions : List Variable) :
    (mentions.foldl Draft.mention d).HasType name type := by
  induction mentions generalizing d with
  | nil => exact h
  | cons v mentions ih => exact ih (h.mention v)

/-- A statement declares nothing, and makes known what it mentions. -/
theorem record_names (d : Draft) (r : Reading) (line : Nat) :
    (d.record r line).declared = (r.mentions.foldl Draft.mention d).declared ∧
      (d.record r line).locals = (r.mentions.foldl Draft.mention d).locals := by
  rw [Draft.record]
  cases r.role with
  | none => exact ⟨rfl, rfl⟩
  | some role =>
    obtain ⟨role, v⟩ := role
    cases role <;> exact ⟨rfl, rfl⟩

theorem HasType.record (h : d.HasType name type) (r : Reading) (line : Nat) :
    (d.record r line).HasType name type := by
  obtain ⟨hdeclared, hlocals⟩ := d.record_names r line
  have hknown := h.mentions r.mentions
  exact ⟨by rw [hdeclared]; exact hknown.declared, by rw [hlocals]; exact hknown.known⟩

/-- A line that does not declare the name again leaves its type alone. -/
theorem HasType.readLine (h : d.HasType name type) {s : List Char} {line : Nat}
    (read : d.readLine s line = .ok d') (other : ∀ type', ¬Declares s type' name) :
    d'.HasType name type := by
  obtain rfl | ⟨type', names, ends, declares, rfl⟩ | ⟨r, -, -, rfl⟩ := readLine_cases read
  · exact h
  · exact h.declare (fun hmem => other type' ⟨ends, names, declares, hmem⟩) type'
  · exact h.record r line

/-- What a statement mentions is known behind it. -/
theorem mem_keys_record (d : Draft) {r : Reading} {v : Variable} (h : v ∈ r.mentions)
    (line : Nat) : v.name ∈ (d.record r line).locals.keys := by
  rw [(d.record_names r line).2]
  exact mem_keys_mentions h

end Draft

/-! ### Lines of one body -/

/-- The body that the reader is in, also inside of a switch. -/
def Phase.draft? : Phase → Option Draft
  | inBody _ d => some d
  | inSwitch _ d _ => some d
  | _ => none

namespace Reader

/-- The reader goes over lines of one body. -/
inductive Within : Reader → List (List Char) → Reader → Prop
  | here (r : Reader) : Within r [] r
  | line {r r' r'' : Reader} {s : List Char} {lines : List (List Char)} {d : Draft}
      (read : r.step s = .ok r') (inside : r'.phase.draft? = some d) (rest : Within r' lines r'') :
      Within r (s :: lines) r''

variable {r r' : Reader} {s : List Char} {d d' : Draft}

/-- What a line does to the body that it is in. -/
theorem Advances.draft_cases (h : r.Advances s r') (hd : r.phase.draft? = some d)
    (hd' : r'.phase.draft? = some d') :
    d' = d ∨ (∃ text line, d' = d.add (.other text) line) ∨
      d.readLine s (r.seen + 1) = .ok d' := by
  cases h with
  | inSwitch phase => exact .inl (Option.some.inj (hd'.symm.trans hd))
  | @closeSwitch c e opening phase =>
    rw [phase] at hd
    obtain rfl := Option.some.inj hd
    exact .inr (.inl ⟨opening, r.line, (Option.some.inj hd').symm⟩)
  | blank => exact .inl (Option.some.inj (hd'.symm.trans hd))
  | header =>
    dsimp only [keep] at hd'
    split at hd' <;> cases hd'
  | openClass => cases hd'
  | closeClass => cases hd'
  | method phase =>
    rw [phase] at hd
    cases hd
  | field => cases hd'
  | openBody phase =>
    rw [phase] at hd
    cases hd
  | openSwitch phase =>
    rw [phase] at hd
    exact .inl (Option.some.inj (hd'.symm.trans hd))
  | closeBody => cases hd'
  | line phase read =>
    rw [phase] at hd
    obtain rfl := Option.some.inj hd
    obtain rfl := Option.some.inj hd'
    exact .inr (.inr read)

/-- Over the lines of a body its method stays the same, and so does the type of a name that none of
them declares. -/
theorem Within.draft {lines : List (List Char)} (h : r.Within lines r')
    (hd : r.phase.draft? = some d) : ∃ d', r'.phase.draft? = some d' ∧ d'.method = d.method ∧
      ∀ name type, d.HasType name type → (∀ s ∈ lines, ∀ type', ¬Declares s type' name) →
        d'.HasType name type := by
  induction h generalizing d with
  | here r => exact ⟨d, hd, rfl, fun _ _ htype _ => htype⟩
  | @line r r₁ r' s lines d₁ read inside _ ih =>
    obtain ⟨d', hd', hmethod, htype⟩ := ih inside
    have hstep : d₁.method = d.method ∧ ∀ name type, d.HasType name type →
        (∀ type', ¬Declares s type' name) → d₁.HasType name type := by
      obtain rfl | ⟨text, line, rfl⟩ | hline := (advances_of_step read).draft_cases hd inside
      · exact ⟨rfl, fun _ _ htype _ => htype⟩
      · exact ⟨rfl, fun _ _ htype _ => ⟨htype.declared, htype.known⟩⟩
      · exact ⟨Draft.method_readLine hline, fun _ _ htype other => htype.readLine hline other⟩
    refine ⟨d', hd', hmethod.trans hstep.1, fun name type hname others => ?_⟩
    exact htype name type (hstep.2 name type hname (others s List.mem_cons_self))
      fun t ht => others t (List.mem_cons_of_mem s ht)

end Reader

/-! ### Lines that use a name -/

theorem not_startsWith_of_not_keyword {s : List Char}
    (h : keywords.contains (String.ofList (firstWord s)) = false) :
    startsWith "catch ".toList s = false :=
  not_startsWith_catch fun hword => absurd (hword ▸ h) (by decide)

/-- A text that begins with a keyword is no declaration. -/
theorem localDeclaration?_keyword (word : List Char) (hrun : word.all isTypeChar = true)
    (hword : keywords.contains (String.ofList word) = true) (s : List Char) :
    localDeclaration? (word ++ ' ' :: s) = none := by
  have htype : (word ++ ' ' :: s).takeWhile isTypeChar = word :=
    takeWhile_run (List.all_eq_true.1 hrun) (by decide)
  simp only [localDeclaration?, htype, hword, Bool.or_true, if_true]
  split <;> rfl

theorem OpenCall.startsWith_text (c : OpenCall) (args : List (List Char)) (behind : List Char) :
    startsWith "catch ".toList (c.text args behind) = false := by
  unfold text
  cases c.kind <;> rfl

namespace NameUse

variable {owner : String} {x : DeclarableName} {text : List Char} {used : Instruction}
  {otherwise : Option Instruction}

theorem trimmed (h : NameUse owner x text used otherwise) : trim text = text := by
  have hassignment : ∀ {left right : List Char}, Trimmed left → left ≠ [] → Trimmed right →
      right ≠ [] → trim (Written.assignment left right) = Written.assignment left right :=
    fun hleft hne hright hne' => (hleft.append hright hne hne').trim
  cases h with
  | copied a => exact hassignment a.trimmed a.ne_nil x.trimmed x.ne_nil
  | assigned a => exact hassignment x.trimmed x.ne_nil a.trimmed a.ne_nil
  | returned =>
    have hreturn : Trimmed "return".toList := .of_all (by decide)
    exact (hreturn.append (t := [' ']) x.trimmed (by decide) x.ne_nil).trim
  | stored hplace trimmed => exact hassignment trimmed hplace.ne_nil x.trimmed x.ne_nil
  | passed c target first last arguments behind ends =>
    have hcall := c.trimmed_text (first ++ x.chars :: last) ends
    cases target with
    | none => exact hcall.trim
    | some a => exact hassignment a.trimmed a.ne_nil hcall (by simp [OpenCall.text])

/-- A line that uses a name is read as a statement. -/
theorem readLine (h : NameUse owner x text used otherwise) (d : Draft) (line : Nat) :
    d.readLine (text ++ [';']) line =
      ((readStatement d.method.signature text).mapError LineFault.badStatement).map
        (d.record · line) := by
  have hcatch : startsWith "catch ".toList text = false := by
    cases h with
    | copied a => exact not_startsWith_of_not_keyword (a.isLeftSide.firstWord x.chars)
    | assigned a => exact not_startsWith_of_not_keyword (x.isLeftSide.firstWord a.chars)
    | returned => rfl
    | stored hplace trimmed unsigned =>
      exact not_startsWith_of_not_keyword
        (IsLeftSide.firstWord ⟨trimmed, hplace.not_keyword, unsigned⟩ _)
    | passed c target first last =>
      cases target with
      | none => exact c.startsWith_text _ _
      | some a =>
        refine not_startsWith_of_not_keyword ?_
        rw [OpenCall.statement, firstWord_assignment, firstWord_self a.space_not_mem]
        exact a.not_keyword
  have hdeclaration : localDeclaration? text = none := by
    cases h with
    | copied | assigned | stored =>
      exact localDeclaration?_eq_none (c := '=') (by decide) (by simp [Written.assignment])
    | returned =>
      exact localDeclaration?_keyword "return".toList (by decide) (by decide) x.chars
    | passed c target first last =>
      refine localDeclaration?_eq_none (c := '<') (by decide) ?_
      cases target <;> simp [OpenCall.statement, OpenCall.text, Written.assignment]
  rw [Draft.readLine_semicolon, h.trimmed, hcatch, hdeclaration]
  cases readStatement d.method.signature text <;> rfl

end NameUse

namespace Reader

variable {r r' r₁ r₂ : Reader} {c c₁ c₂ : Class} {d d₁ d₂ : Draft}

/-- A line with a semicolon in a body opens a switch or belongs to the body. -/
theorem step_semicolon (body : r.phase = .inBody c d) (text : List Char) :
    r.step (text ++ [';']) =
      if opensSwitch text then
        .ok { r.next with phase := .inSwitch c d (String.ofList (text ++ [';'])) }
      else
        ((d.readLine (text ++ [';']) (r.seen + 1)).mapError (Fault.atLine (r.seen + 1))).map
          fun d => { r.next with phase := .inBody c d } := by
  rw [step_inBody body (by simp)]
  simp only [bodyLine, opensSwitch_append_cons (c := ';') (by decide) text [],
    if_neg (concat_ne_brace (c := ';') (by decide) text)]
  split
  · rfl
  · cases d.readLine (text ++ [';']) (r.seen + 1) <;> rfl

/-- A line that declares a name that is new gives it the type. -/
theorem hasType_of_step {s : List Char} {type name : String} (body : r.phase = .inBody c d)
    (read : r.step s = .ok r₁) (still : r₁.phase = .inBody c₁ d₁)
    (declares : Declares s type name) :
    d₁.method = d.method ∧ (d.locals.get? name = none → d₁.HasType name type) := by
  obtain ⟨ends, names, hnames, named⟩ := declares
  obtain ⟨text, rfl⟩ := List.getLast?_eq_some_iff.1 (beq_iff_eq.1 ends)
  rw [List.dropLast_concat] at hnames
  have hcatch : startsWith "catch ".toList (trim text) = false := by
    rw [Bool.eq_false_iff]
    intro hstart
    obtain ⟨rest, heq⟩ := startsWith_iff.1 hstart
    have hnone : localDeclaration? ("catch ".toList ++ rest) = none :=
      localDeclaration?_keyword "catch".toList (by decide) (by decide) rest
    rw [heq, hnone] at hnames
    cases hnames
  rw [step_semicolon body, Draft.readLine_semicolon, hcatch, hnames] at read
  split at read
  · obtain rfl := Except.ok.inj read
    cases still
  · obtain rfl := Except.ok.inj read
    cases still
    exact ⟨(d.declare_frame type id names).1, fun new => Draft.hasType_declare named new⟩

/-- A line of a body is read as a statement with an instruction, and behind it the body knows a
variable. -/
def Records (r : Reader) (s : List Char) (i : Instruction) (l : Local) : Prop :=
  ∃ c d r' d', r.phase = .inBody c d ∧ r.step s = .ok r' ∧ r'.phase = .inBody c d' ∧
    d'.statements = d.statements ++ [⟨i, r.seen + 1⟩] ∧ d'.locals.get? l.name = some l

section Use

variable {x : DeclarableName} {text : List Char} {used : Instruction}
  {otherwise : Option Instruction}

theorem records_iff (body : r.phase = .inBody c d)
    (use : NameUse d.method.signature x text used otherwise) (i : Instruction) (l : Local) :
    r.Records (text ++ [';']) i l ↔ opensSwitch text = false ∧
      ∃ reading, readStatement d.method.signature text = .ok reading ∧ reading.instruction = i ∧
        (d.record reading (r.seen + 1)).locals.get? l.name = some l := by
  have hstep := step_semicolon body text
  rw [use.readLine] at hstep
  constructor
  · rintro ⟨c', e, r', d', hbody, hread, hbody', hstatements, hl⟩
    rw [body] at hbody
    cases hbody
    rw [hstep] at hread
    split at hread
    · obtain rfl := Except.ok.inj hread
      cases hbody'
    next hswitch =>
    refine ⟨by simpa using hswitch, ?_⟩
    cases hreading : readStatement d.method.signature text with
    | error fault =>
      rw [hreading] at hread
      cases hread
    | ok reading =>
      rw [hreading] at hread
      obtain rfl := Except.ok.inj hread
      cases hbody'
      refine ⟨reading, rfl, ?_, hl⟩
      rw [(d.record_spec reading _).2, List.append_cancel_left_eq] at hstatements
      exact congrArg Statement.instruction (List.cons.inj hstatements).1
  · rintro ⟨hswitch, reading, hreading, rfl, hl⟩
    rw [hswitch, hreading] at hstep
    exact ⟨c, d, _, _, body, hstep, rfl, (d.record_spec reading _).2, hl⟩

/-- **A declared name is used as a variable just where it is an identifier** and the statement does
not begin as a switch does. The variable then has the type of the declaration, unless it was
mentioned before or declared again. -/
theorem use_of_declared_iff {s : List Char} {type : String} {lines : List (List Char)}
    (body : r.phase = .inBody c d) (declares : Declares s type (nameOf x.chars))
    (read : r.step s = .ok r₁) (still : r₁.phase = .inBody c₁ d₁) (within : r₁.Within lines r₂)
    (behind : r₂.phase = .inBody c₂ d₂)
    (use : NameUse d.method.signature x text used otherwise) :
    ((∃ l, l.name = nameOf x.chars ∧ r₂.Records (text ++ [';']) used l) ↔
        isIdentifier x.chars = true ∧ opensSwitch text = false) ∧
      (d.locals.get? (nameOf x.chars) = none →
        (∀ t ∈ lines, ∀ type', ¬Declares t type' (nameOf x.chars)) →
        ∀ l, l.name = nameOf x.chars → r₂.Records (text ++ [';']) used l → l.type = type) := by
  obtain ⟨hmethod₁, hdeclared⟩ := hasType_of_step body read still declares
  obtain ⟨d₂', hd₂, hmethod₂, htype⟩ := within.draft (congrArg Phase.draft? still)
  rw [behind] at hd₂
  obtain rfl := Option.some.inj hd₂
  rw [← hmethod₁, ← hmethod₂] at use
  refine ⟨⟨?_, ?_⟩, ?_⟩
  · rintro ⟨l, -, hrecords⟩
    obtain ⟨hswitch, reading, hreading, hused, -⟩ := (records_iff behind use used l).1 hrecords
    refine ⟨?_, hswitch⟩
    by_contra hidentifier
    have hconstant := use.read_constant (by simpa using hidentifier)
    rw [hreading] at hconstant
    exact use.otherwise_ne (hconstant.symm.trans (congrArg some hused))
  · rintro ⟨identifier, hswitch⟩
    obtain ⟨mentions, hreading, hmem⟩ := use.read_variable identifier
    obtain ⟨l, hl⟩ := Option.ne_none_iff_exists'.1 fun hnone =>
      Roster.get?_eq_none.1 hnone
        (d₂.mem_keys_record (r := ⟨used, mentions, none⟩) hmem (r₂.seen + 1))
    have hname : l.name = nameOf x.chars := Roster.key_of_get? hl
    refine ⟨l, hname, (records_iff behind use used l).2 ⟨hswitch, _, hreading, rfl, ?_⟩⟩
    rw [hname]
    exact hl
  · intro new others l hname hrecords
    obtain ⟨-, reading, -, -, hl⟩ := (records_iff behind use used l).1 hrecords
    rw [hname] at hl
    exact ((htype _ _ (hdeclared new) others).record reading _).known l hl

end Use

/-- A method before its body is read. -/
def emptyDraft : Draft where
  method :=
    { declaringClass := "C", name := "m", paramTypes := [], returnType := "void",
      modifiers := OrderedSet.ofList ["static"], body := none }

/-- In the body of that method, behind the line of its brace. -/
def opened : Reader where
  program := ∅
  phase := .inBody
    { name := "C", superclass := none, interfaces := [], modifiers := ∅, fields := ∅, methods := ∅ }
    emptyDraft
  seen := 4
  line := 4

/-- Of two names that a line declares, the one that begins with an accented letter is not copied. -/
theorem use_of_declared_iff_accented : ∃ r, opened.step "T a, é;".toList = .ok r ∧
    (∃ l, l.name = "a" ∧ l.type = "T" ∧ r.Records "a = a;".toList
      (.copy ⟨"<C: void m()>", "a"⟩ ⟨"<C: void m()>", "a"⟩) l) ∧
    ¬∃ l, l.name = "é" ∧ r.Records "a = é;".toList
      (.copy ⟨"<C: void m()>", "a"⟩ ⟨"<C: void m()>", "é"⟩) l := by
  let a : DeclarableName := ⟨"a".toList, by decide⟩
  let accented : DeclarableName := ⟨"é".toList, by decide +kernel⟩
  have declares : ∀ name ∈ ["a", "é"], Declares "T a, é;".toList "T" name := fun name hname =>
    ⟨by decide, ["a", "é"], by decide +kernel, hname⟩
  obtain ⟨r, d, hread, hphase⟩ : ∃ r d, opened.step "T a, é;".toList = .ok r ∧
      r.phase = .inBody _ d := ⟨_, _, rfl, rfl⟩
  refine ⟨r, hread, ?_, ?_⟩
  · obtain ⟨huse, htype⟩ := use_of_declared_iff (x := a) rfl (declares "a" (by decide)) hread
      hphase (.here r) hphase (.copied a (by decide))
    obtain ⟨l, hname, hrecords⟩ := huse.2 ⟨by decide, by decide⟩
    exact ⟨l, hname, htype rfl (by simp) l hname hrecords, hrecords⟩
  · obtain ⟨huse, -⟩ := use_of_declared_iff (x := accented) rfl (declares "é" (by decide)) hread
      hphase (.here r) hphase (.copied a (by decide))
    exact fun h => absurd (huse.1 h).1 (by decide)

end Reader

end PointsTo.Jimple
