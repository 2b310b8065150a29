import PointsTo.Proofs.Comments
import PointsTo.Proofs.Reading
import PointsTo.Proofs.Sources

/-!
Bodies that were read from a text. Each statement keeps the number of its line, so the numbers rise
along a body, and where lines end at line feeds only it is the number of the line of the text that has
the statement, whatever comments and switches stand before. Every variable that a body speaks of is
the one that it has under its name.
-/
namespace PointsTo

/-- The variable is of the method, and the body has it under its name. -/
structure Body.Has (b : Body) (signature : String) (v : Variable) : Prop where
  method : v.method = signature
  entry : ∃ l, b.locals.get? v.name = some l ∧ l.var = v

namespace Jimple

open PointsTo.Text

/-! ### Lines -/

/-- The lines of the text end at line feeds only. -/
def FeedsOnly (text : List Char) : Prop := ∀ c ∈ text, isLineEnd c = true → c = '\n'

instance (text : List Char) : Decidable (FeedsOnly text) :=
  List.decidableBAll (fun c => isLineEnd c = true → c = '\n') text

theorem FeedsOnly.sublist {s t : List Char} (h : FeedsOnly t) (hsub : s.Sublist t) : FeedsOnly s :=
  fun c hc => h c (hsub.subset hc)

theorem lineEnds_eq_count {s : List Char} (h : FeedsOnly s) : lineEnds s = s.count '\n' := by
  induction s with
  | nil => rfl
  | cons c s ih =>
    rw [lineEnds, ih (h.sublist (List.sublist_cons_self c s))]
    by_cases hfeed : c = '\n'
    · subst hfeed
      rw [if_pos ⟨by decide, by simp⟩, List.count_cons_self, Nat.add_comm]
    · rw [if_neg fun hend => hfeed (h c List.mem_cons_self hend.1),
        List.count_cons_of_ne hfeed, Nat.zero_add]

/-- Taking the block comments out leaves every line at its place. -/
theorem linesWithin_removeBlocks {s : List Char} (h : FeedsOnly s) :
    LinesWithin (splitLines (removeBlocks s)) (splitLines s) := by
  fun_induction removeBlocks s with
  | case1 => trivial
  | case2 rest comment behind hcut ih =>
    have hrest : rest = comment ++ '*' :: '/' :: behind := by
      rw [eq_append_of_cut? hcut]
      simp
    subst hrest
    have hcomment : FeedsOnly comment := fun c hc => h c (by simp [hc])
    have hbehind : FeedsOnly behind := fun c hc => h c (by simp [hc])
    rw [splitLines_feeds, ← lineEnds_eq_count hcomment]
    exact linesWithin_block comment (ih hbehind)
  | case3 rest hcut => exact .refl _
  | case4 c rest hno ih =>
    have hrest := ih (h.sublist (List.sublist_cons_self c rest))
    have hreturn : c ≠ '\r' := by
      rintro rfl
      exact absurd (h '\r' List.mem_cons_self (by decide)) (by decide)
    rw [splitLines_cons fun hc => hreturn hc.1, splitLines_cons fun hc => hreturn hc.1]
    split
    · exact ⟨List.Sublist.refl [], hrest⟩
    · exact hrest.take c

/-- A line of code is what a line of the text has outside of comments: that line without its parts of
block comments, up to the comment that takes its rest. -/
theorem getElem?_codeLines {text code : List Char} {k : Nat} (h : (codeLines text)[k]? = some code) :
    ∃ rest, (splitLines (removeBlocks text))[k]? = some rest ∧
      code = trim (beforeComment .outside rest) ∧
      (FeedsOnly text → ∃ whole, (splitLines text)[k]? = some whole ∧ rest.Sublist whole) := by
  rw [codeLines, List.getElem?_map] at h
  obtain ⟨rest, hrest, rfl⟩ := Option.map_eq_some_iff.1 h
  exact ⟨rest, hrest, rfl, fun feeds => (linesWithin_removeBlocks feeds).getElem? hrest⟩

/-- What a line of code means in a body: a statement with its semicolon, or the beginning of a switch,
of which no more is kept. -/
inductive Means (signature : String) (code : List Char) : Instruction → Prop
  | statement {r} (ends : endsWith ';' code = true)
      (read : readStatement signature (trim code.dropLast) = .ok r) :
      Means signature code r.instruction
  | switch (opens : opensSwitch code = true) : Means signature code (.other (String.ofList code))

/-- The statements of a body in the making stand among the first lines, in their order. -/
structure Draft.Numbered (lines : List (List Char)) (n : Nat) (d : Draft) : Prop where
  written : ∀ s ∈ d.statements, ∃ k code, s.line = k + 1 ∧ k < n ∧ lines[k]? = some code ∧
    Means d.method.signature code s.instruction
  increasing : d.statements.Pairwise fun s t => s.line < t.line

theorem Draft.Numbered.snoc {lines : List (List Char)} {n : Nat} {d d' : Draft} {code : List Char}
    {i : Instruction} (h : d.Numbered lines n) (here : lines[n]? = some code)
    (method : d'.method = d.method) (statements : d'.statements = d.statements ++ [⟨i, n + 1⟩])
    (means : Means d.method.signature code i) : d'.Numbered lines (n + 1) := by
  constructor
  · intro s hs
    rw [statements] at hs
    rw [method]
    rcases List.mem_append.1 hs with hs | hs
    · obtain ⟨k, code, hline, hk, hcode, hmeans⟩ := h.written s hs
      exact ⟨k, code, hline, Nat.lt_succ_of_lt hk, hcode, hmeans⟩
    · obtain rfl := List.mem_singleton.1 hs
      exact ⟨n, code, rfl, Nat.lt_succ_self n, here, means⟩
  · rw [statements, List.pairwise_append]
    refine ⟨h.increasing, List.pairwise_singleton _ _, fun s hs t ht => ?_⟩
    obtain rfl := List.mem_singleton.1 ht
    obtain ⟨k, -, hline, hk, -⟩ := h.written s hs
    rw [hline]
    exact Nat.succ_lt_succ hk

theorem Draft.Numbered.pass {lines : List (List Char)} {n : Nat} {d d' : Draft}
    (h : d.Numbered lines n) (method : d'.method = d.method)
    (statements : d'.statements = d.statements) : d'.Numbered lines (n + 1) := by
  constructor
  · intro s hs
    rw [statements] at hs
    rw [method]
    obtain ⟨k, code, hline, hk, hcode, hmeans⟩ := h.written s hs
    exact ⟨k, code, hline, Nat.lt_succ_of_lt hk, hcode, hmeans⟩
  · rw [statements]
    exact h.increasing

/-- Every line adds at most one statement, at the end and with its own number. -/
theorem DraftedFrom.numbered {lines : List (List Char)} {owner : String} {n : Nat} {d : Draft}
    (h : DraftedFrom lines owner n d) : d.Numbered lines n := by
  induction h with
  | header => exact ⟨by simp, .nil⟩
  | pass _ ih => exact ih.pass rfl rfl
  | @line n d d' s _ here read ih =>
    obtain rfl | ⟨type, names, -, -, rfl⟩ | ⟨r, ends, hr, rfl⟩ := Draft.readLine_cases read
    · exact ih.pass rfl rfl
    · obtain ⟨method, statements⟩ := d.declare_frame type id names
      exact ih.pass method statements
    · obtain ⟨method, statements⟩ := d.record_spec r (n + 1)
      exact ih.snoc here method statements (.statement ends hr)
  | switch _ here opens ih => exact ih.snoc here rfl rfl (.switch opens)

/-! ### Variables -/

/-- What completing a body may do to its variables: it adds some, and replaces none but those whose
names begin with the sign of added ones. -/
structure Draft.Extends (d d' : Draft) : Prop where
  keys : ∀ k ∈ d.locals.keys, k ∈ d'.locals.keys
  entries : ∀ k l, k.toList.head? ≠ some '@' → d.locals.get? k = some l → d'.locals.get? k = some l

/-- The body in the making has the variable under its name, with its type unless it may have been
replaced by one that was added. -/
structure Draft.Lists (d : Draft) (l : Local) : Prop where
  key : l.name ∈ d.locals.keys
  entry : l.name.toList.head? ≠ some '@' → d.locals.get? l.name = some l

/-- The body in the making has all variables that it speaks of. -/
structure Draft.Covered (d : Draft) : Prop where
  statements : ∀ s ∈ d.statements, ∀ v ∈ s.instruction.vars, v.name ∈ d.locals.keys
  params : ∀ n ∈ d.params.items, d.Lists n.param
  receiver : ∀ l, d.receiver = some l → d.Lists l

namespace Draft

variable {d d' d'' : Draft}

theorem Extends.of_locals (h : d'.locals = d.locals) : d.Extends d' :=
  ⟨fun k hk => by rwa [h], fun k l _ hl => by rwa [h]⟩

theorem Extends.refl (d : Draft) : d.Extends d := .of_locals rfl

theorem Extends.trans (h : d.Extends d') (h' : d'.Extends d'') : d.Extends d'' :=
  ⟨fun k hk => h'.keys k (h.keys k hk),
    fun k l hsign hl => h'.entries k l hsign (h.entries k l hsign hl)⟩

theorem Lists.extend {l : Local} (hl : d.Lists l) (h : d.Extends d') : d'.Lists l :=
  ⟨h.keys _ hl.key, fun hsign => h.entries _ _ hsign (hl.entry hsign)⟩

theorem extends_mention (d : Draft) (v : Variable) : d.Extends (d.mention v) := by
  refine ⟨fun k hk => Roster.mem_keys_add.2 (.inl hk), fun k l _ hl => ?_⟩
  have hk : k ∈ d.locals.keys := Roster.get?_isSome.1 (by simp [hl])
  exact (Roster.get?_add _ _ _).trans (by rw [if_neg fun h => h.2 hk, hl])

theorem extends_mentions (d : Draft) (vars : List Variable) : d.Extends (vars.foldl mention d) := by
  induction vars generalizing d with
  | nil => exact .refl d
  | cons v vars ih => exact (d.extends_mention v).trans (ih (d.mention v))

theorem name_localOf (d : Draft) (v : Variable) : (d.localOf v).name = v.name := by
  unfold localOf
  cases hl : d.locals.get? v.name with
  | none => rfl
  | some l => exact Roster.key_of_get? hl

theorem mem_keys_mentions {vars : List Variable} {v : Variable} (hv : v ∈ vars) :
    v.name ∈ (vars.foldl mention d).locals.keys := by
  induction vars generalizing d with
  | nil => cases hv
  | cons w vars ih =>
    rcases List.mem_cons.1 hv with rfl | hv
    · refine (extends_mentions _ vars).keys _ (Roster.mem_keys_add.2 (.inr ?_))
      exact (d.name_localOf v).symm
    · exact ih hv

/-- A variable that is known is listed. -/
theorem lists_localOf {v : Variable} (hv : v.name ∈ d.locals.keys) : d.Lists (d.localOf v) := by
  obtain ⟨l, hl⟩ := Option.isSome_iff_exists.1 (Roster.get?_isSome.2 hv)
  refine ⟨(d.name_localOf v).symm ▸ hv, fun _ => ?_⟩
  rw [d.name_localOf v, localOf, hl]
  rfl

/-- A variable that is added is listed, and others stay. -/
theorem extends_synthesize (d : Draft) (name type : String)
    (hsign : name.toList.head? = some '@') :
    d.Extends (d.synthesize name type).1 ∧
      (d.synthesize name type).1.Lists (d.synthesize name type).2 := by
  refine ⟨⟨fun k hk => Roster.mem_keys_put.2 (.inl hk), fun k l hk hl => ?_⟩,
    Roster.mem_keys_put.2 (.inr rfl), fun h => absurd hsign h⟩
  refine (Roster.get?_put _ _ _).trans ?_
  rw [if_neg, hl]
  rintro rfl
  exact hk hsign

namespace Covered

theorem start (m : Method) : ({ method := m } : Draft).Covered := ⟨by simp, by simp, by simp⟩

theorem extend (h : d.Covered) (hext : d.Extends d') (hstatements : d'.statements = d.statements)
    (hparams : d'.params = d.params) (hreceiver : d'.receiver = d.receiver) : d'.Covered := by
  refine ⟨fun s hs v hv => ?_, fun n hn => ?_, fun l hl => ?_⟩
  · rw [hstatements] at hs
    exact hext.keys _ (h.statements s hs v hv)
  · rw [hparams] at hn
    exact (h.params n hn).extend hext
  · rw [hreceiver] at hl
    exact (h.receiver l hl).extend hext

theorem declare (h : d.Covered) (type : String) (names : List String) :
    (names.foldl (fun d name => d.declare type name) d).Covered := by
  induction names generalizing d with
  | nil => exact h
  | cons name names ih =>
    exact ih (h.extend (.of_locals rfl) rfl rfl rfl)

theorem mentions (h : d.Covered) (vars : List Variable) : (vars.foldl mention d).Covered := by
  induction vars generalizing d with
  | nil => exact h
  | cons v vars ih => exact ih (h.extend (d.extends_mention v) rfl rfl rfl)

theorem assign (h : d.Covered) (role : Role) {v : Variable} (hv : v.name ∈ d.locals.keys) :
    (d.assign (role, v)).Covered := by
  have same : d.Extends (d.assign (role, v)) := .of_locals (by cases role <;> rfl)
  have known := (lists_localOf hv).extend same
  cases role with
  | receiver =>
    refine ⟨h.statements, fun n hn => (h.params n hn).extend same, fun l hl => ?_⟩
    cases hl
    exact known
  | param index =>
    refine ⟨h.statements, fun n hn => ?_, fun l hl => (h.receiver l hl).extend same⟩
    rcases Roster.mem_of_mem_put hn with hn | rfl
    · exact (h.params n hn).extend same
    · exact known
  | caught => exact h

theorem add (h : d.Covered) {i : Instruction} (hi : ∀ v ∈ i.vars, v.name ∈ d.locals.keys)
    (line : Nat) : (d.add i line).Covered := by
  have same : d.Extends (d.add i line) := .of_locals rfl
  refine ⟨fun s hs v hv => ?_, fun n hn => (h.params n hn).extend same,
    fun l hl => (h.receiver l hl).extend same⟩
  rcases List.mem_append.1 hs with hs | hs
  · exact h.statements s hs v hv
  · obtain rfl := List.mem_singleton.1 hs
    exact hi v hv

/-- A statement speaks of variables that it mentions, so they are known when it is added. -/
theorem record (h : d.Covered) {r : Reading} {owner : String} (hr : r.Complete owner) (line : Nat) :
    (d.record r line).Covered := by
  have hknown := h.mentions r.mentions
  have known : ∀ v ∈ r.mentions, v.name ∈ (r.mentions.foldl mention d).locals.keys :=
    fun v hv => mem_keys_mentions hv
  unfold Draft.record
  cases hrole : r.role with
  | none => exact hknown.add (fun v hv => known v (hr.vars v hv)) line
  | some role =>
    obtain ⟨role, v⟩ := role
    refine (hknown.assign role (known v (hr.role role v hrole))).add (fun w hw => ?_) line
    have hw := known w (hr.vars w hw)
    cases role <;> exact hw

end Covered

theorem covered_of_drafted {owner : String} (h : Drafted owner d) : d.Covered := by
  induction h with
  | header => exact .start _
  | line _ read ih =>
    obtain rfl | ⟨type, names, -, -, rfl⟩ | ⟨r, -, hr, rfl⟩ := readLine_cases read
    · exact ih
    · exact ih.declare type names
    · exact ih.record (complete_readStatement hr) _
  | switch _ opening n ih => exact ih.add (by simp [Instruction.vars]) n

/-! ### Completion -/

theorem extends_completeParams (d : Draft) (index : Nat) (types : List String) :
    d.Extends (d.completeParams index types).1 ∧
      (d.completeParams index types).1.receiver = d.receiver := by
  induction types generalizing d index with
  | nil => exact ⟨.refl d, rfl⟩
  | cons type types ih =>
    rw [completeParams]
    cases d.params.get? index with
    | some named => exact ih d (index + 1)
    | none =>
      have hsign : ("@parameter" ++ toString index).toList.head? = some '@' := by simp
      obtain ⟨hext, hreceiver⟩ :=
        ih (d.synthesize ("@parameter" ++ toString index) type).1 (index + 1)
      exact ⟨(d.extends_synthesize _ type hsign).1.trans hext, hreceiver⟩

theorem lists_completeParams (hparams : ∀ n ∈ d.params.items, d.Lists n.param) (index : Nat)
    (types : List String) : ∀ l ∈ (d.completeParams index types).2,
      (d.completeParams index types).1.Lists l := by
  induction types generalizing d index with
  | nil => simp [completeParams]
  | cons type types ih =>
    rw [completeParams]
    cases hn : d.params.get? index with
    | some named =>
      intro l hl
      rcases List.mem_cons.1 hl with rfl | hl
      · exact (hparams named (Roster.mem_of_get? hn)).extend (d.extends_completeParams _ types).1
      · exact ih hparams (index + 1) l hl
    | none =>
      have hsign : ("@parameter" ++ toString index).toList.head? = some '@' := by simp
      obtain ⟨hext, hadded⟩ := d.extends_synthesize _ type hsign
      intro l hl
      rcases List.mem_cons.1 hl with rfl | hl
      · exact hadded.extend (extends_completeParams _ (index + 1) types).1
      · exact ih (d := (d.synthesize ("@parameter" ++ toString index) type).1)
          (fun n hn => (hparams n hn).extend hext) (index + 1) l hl

theorem lists_completeReceiver (hreceiver : ∀ l, d.receiver = some l → d.Lists l) :
    d.Extends d.completeReceiver.1 ∧
      ∀ l, d.completeReceiver.2 = some l → d.completeReceiver.1.Lists l := by
  unfold completeReceiver
  cases hr : d.receiver with
  | some receiver =>
    refine ⟨.refl d, fun l hl => ?_⟩
    cases hl
    exact hreceiver receiver hr
  | none =>
    dsimp only
    split
    · exact ⟨.refl d, nofun⟩
    · obtain ⟨hext, hadded⟩ := d.extends_synthesize "@this" d.method.declaringClass rfl
      refine ⟨hext, fun l hl => ?_⟩
      cases hl
      exact hadded

theorem isSome_completeReceiver (h : d.method.isStatic = false) :
    d.completeReceiver.2.isSome = true := by
  unfold completeReceiver
  cases d.receiver with
  | some receiver => rfl
  | none =>
    dsimp only
    rw [h]
    rfl

theorem lists_completeReturned
    (hstatements : ∀ s ∈ d.statements, ∀ v ∈ s.instruction.vars, v.name ∈ d.locals.keys) :
    d.Extends d.completeReturned.1 ∧
      ∀ l, d.completeReturned.2 = some l → d.completeReturned.1.Lists l := by
  unfold completeReturned
  split
  · exact ⟨.refl d, nofun⟩
  · split
    · exact ⟨.refl d, nofun⟩
    · next v hv =>
      refine ⟨.refl d, fun l hl => ?_⟩
      cases hl
      obtain ⟨s, hs, hvar⟩ := exists_of_mem_returned (hv ▸ List.mem_singleton_self v)
      exact lists_localOf (hstatements s hs v hvar)
    · obtain ⟨hext, hadded⟩ := d.extends_synthesize "@return" d.method.returnType rfl
      refine ⟨hext, fun l hl => ?_⟩
      cases hl
      exact hadded

/-- The body in the making with the variables that it is completed with. -/
def completed (d : Draft) : Draft :=
  (d.completeParams 0 d.method.paramTypes).1.completeReceiver.1.completeReturned.1

theorem method_completed (d : Draft) : d.completed.method = d.method := by
  have hreturned : ∀ e : Draft, e.completeReturned.1.method = e.method := by
    intro e
    unfold completeReturned
    split
    · rfl
    · split <;> rfl
  rw [completed, hreturned, (completeReceiver_frame _).1, (completeParams_frame _ _ _).1]

/-- Completing a body adds variables, and the parameters, the receiver and the variable for the
returned value are among those that it then has. -/
theorem Covered.completed (h : d.Covered) : d.Extends d.completed ∧
    ∀ l ∈ d.finish.params ++ d.finish.receiver.toList ++ d.finish.returned.toList,
      d.completed.Lists l := by
  obtain ⟨hparams, hkept⟩ := d.extends_completeParams 0 d.method.paramTypes
  have hreceiver := lists_completeReceiver (d := (d.completeParams 0 d.method.paramTypes).1)
    fun l hl => (h.receiver l (hkept ▸ hl)).extend hparams
  have hreturned := lists_completeReturned
    (d := (d.completeParams 0 d.method.paramTypes).1.completeReceiver.1) fun s hs v hv => by
      rw [(completeReceiver_frame _).2, (completeParams_frame _ _ _).2] at hs
      exact hreceiver.1.keys _ (hparams.keys _ (h.statements s hs v hv))
  refine ⟨hparams.trans (hreceiver.1.trans hreturned.1), fun l hl => ?_⟩
  rcases List.mem_append.1 hl with hl | hl
  · rcases List.mem_append.1 hl with hl | hl
    · exact (lists_completeParams h.params 0 _ l hl).extend (hreceiver.1.trans hreturned.1)
    · exact (hreceiver.2 l (Option.mem_toList.1 hl)).extend hreturned.1
  · exact hreturned.2 l (Option.mem_toList.1 hl)

theorem Owned.completed (h : d.Owned) : d.completed.Owned := by
  have hreturned : ∀ e : Draft, e.Owned → e.completeReturned.1.Owned := by
    intro e he
    unfold Draft.completeReturned
    split
    · exact he
    · split
      · exact he
      · exact he
      · exact he.synthesize _ _
  exact hreturned _ ((h.completeParams _ 0).1.completeReceiver).1

/-- A variable of the method that has an entry under its name is that entry. -/
theorem has_of_key (h : d.Owned) {v : Variable} (hmethod : v.method = d.method.signature)
    (hkey : v.name ∈ d.completed.locals.keys) : d.finish.Has d.method.signature v := by
  obtain ⟨l, hl⟩ := Option.isSome_iff_exists.1 (Roster.get?_isSome.2 hkey)
  refine ⟨hmethod, l, hl, ?_⟩
  have howner := h.completed.locals l (Roster.mem_of_get? hl)
  rw [d.method_completed] at howner
  have hname : l.name = v.name := Roster.key_of_get? hl
  calc l.var = ⟨l.var.method, l.var.name⟩ := rfl
    _ = ⟨v.method, v.name⟩ := by rw [howner, hmethod, ← hname]; rfl

end Draft

/-! ### Bodies of a text -/

/-- What a text makes of the body of a method. -/
structure ReadFrom (text : List Char) (m : Method) (b : Body) : Prop where
  placed : ∀ (i : Nat) (s : Statement), b.statements[i]? = some s →
    m.placed[i]? = some (.within m.id i s.line, s.instruction)
  increasing : b.statements.Pairwise fun s t => s.line < t.line
  /-- Outside of comments, the line that a statement has the number of says what the statement
  means. -/
  written : ∀ s ∈ b.statements, ∃ k rest, s.line = k + 1 ∧
    (splitLines (removeBlocks text))[k]? = some rest ∧
    Means m.signature (trim (beforeComment .outside rest)) s.instruction ∧
    (FeedsOnly text → ∃ whole, (splitLines text)[k]? = some whole ∧ rest.Sublist whole)
  params : b.params.length = m.paramTypes.length
  receiver : m.isStatic = false → b.receiver.isSome = true
  statements : ∀ s ∈ b.statements, ∀ v ∈ s.instruction.vars, b.Has m.signature v
  bound : ∀ v ∈ b.bound, b.Has m.signature v
  /-- The types agree too, but where a name begins with the sign of the variables that are added to
  a body: one of those may have taken the place. -/
  typed : ∀ l ∈ b.params ++ b.receiver.toList ++ b.returned.toList,
    l.name.toList.head? ≠ some '@' → b.locals.get? l.name = some l

/-- **What is known of every body that was read from a text**, also of a text with a fault behind it.
Statements are counted, and have the numbers of the lines that say them; parameters and receiver are
complete; and each variable is the one of its name. -/
theorem readFrom_programOf {text : String} {m : Method} {b : Body}
    (hm : m ∈ (programOf text).methods) (hb : m.body = some b) : ReadFrom text.toList m b := by
  have hplaced : ∀ (i : Nat) (s : Statement), b.statements[i]? = some s →
      m.placed[i]? = some (.within m.id i s.line, s.instruction) := by
    intro i s hs
    rw [Method.placed, Method.statements_of_body hb, List.getElem?_map, List.getElem?_zipIdx, hs]
    simp
  obtain ⟨c, hc, hmc⟩ := Program.mem_methods.1 hm
  cases (classFrom_programOf hc).methods m hmc with
  | header _ read =>
    rw [bodyless_readMethodHeader read] at hb
    cases hb
  | @body n d drafted =>
    cases hb
    have howned := (Drafted.owned drafted.drafted).1
    have hcovered := Draft.covered_of_drafted drafted.drafted
    have hnumbered := drafted.numbered
    obtain ⟨hext, hlists⟩ := hcovered.completed
    have hfinish := howned.finish
    refine ⟨hplaced, ?_, ?_, ?_, ?_, ?_, ?_, ?_⟩
    · rw [d.statements_finish]
      exact hnumbered.increasing
    · intro s hs
      rw [d.statements_finish] at hs
      obtain ⟨k, code, hline, -, hcode, hmeans⟩ := hnumbered.written s hs
      obtain ⟨rest, hrest, rfl, hwhole⟩ := getElem?_codeLines hcode
      exact ⟨k, rest, hline, hrest, hmeans, hwhole⟩
    · exact d.length_params_finish
    · intro hstatic
      refine Draft.isSome_completeReceiver ?_
      rw [(Draft.completeParams_frame _ _ _).1]
      exact hstatic
    · intro s hs v hv
      rw [d.statements_finish] at hs
      exact Draft.has_of_key howned (howned.statements s hs v hv)
        (hext.keys _ (hcovered.statements s hs v hv))
    · intro v hv
      have hmethod := hfinish.bound _ rfl v hv
      obtain ⟨l, hl, rfl⟩ := List.mem_map.1 hv
      exact Draft.has_of_key howned hmethod (hlists l hl).key
    · exact fun l hl => (hlists l hl).entry

/-- Comments over several lines, blank lines and a switch stand in front of statements, one identity
statement comes for the second parameter, and none for the first and the receiver. -/
def sparseText : String :=
  "/* a\n b */ class A\n\x7b\n\nA m(A, A)\n\x7b\nA x;\nx := @parameter1: A; // c\n" ++
  "tableswitch(x) /* d\n e */\n\x7b\ncase 1: goto l;\n\x7d;\n\nl:\nreturn x;\n\x7d\n\x7d\n"

theorem sparse_has :
    FeedsOnly sparseText.toList ∧
    (splitLines sparseText.toList)[15]? = some "return x;".toList ∧
    ∃ m ∈ (programOf sparseText).methods, m.isStatic = false ∧ m.paramTypes = ["A", "A"] ∧
      ∃ b, m.body = some b ∧ b.statements.map Statement.line = [8, 9, 16] := by
  decide +kernel

/-- The last statement is on the sixteenth line, and the body is complete. -/
theorem readFrom_programOf_sparse : ∃ m b, m ∈ (programOf sparseText).methods ∧ m.body = some b ∧
    b.statements.map Statement.line = [8, 9, 16] ∧ b.params.length = 2 ∧
    b.receiver.isSome = true ∧ ∃ s, b.statements[2]? = some s ∧
      ∃ rest, rest.Sublist "return x;".toList ∧
        Means m.signature (trim (beforeComment .outside rest)) s.instruction := by
  obtain ⟨feeds, hline, m, hm, hstatic, hparams, b, hb, hlines⟩ := sparse_has
  have h := readFrom_programOf hm hb
  refine ⟨m, b, hm, hb, hlines, by rw [h.params, hparams]; rfl, h.receiver hstatic, ?_⟩
  have hlast : (b.statements.map Statement.line)[2]? = some 16 := by rw [hlines]; rfl
  rw [List.getElem?_map] at hlast
  obtain ⟨s, hs, hnumber⟩ := Option.map_eq_some_iff.1 hlast
  obtain ⟨k, rest, hk, -, hmeans, hwhole⟩ := h.written s (List.mem_of_getElem? hs)
  obtain ⟨whole, hat, hsub⟩ := hwhole feeds
  obtain rfl : k = 15 := by omega
  rw [hline] at hat
  cases hat
  exact ⟨s, hs, rest, hsub, hmeans⟩

end Jimple

end PointsTo
