import PointsTo.Proofs.Drafts
import PointsTo.Proofs.Proper
import PointsTo.Proofs.Sources

/-!
What is read is proper. The reader makes variables of the method that it is in and of no other, puts
methods into the class that it is in, and takes class names from words, which have no blank.
-/
namespace PointsTo.Jimple

open PointsTo.Text

/-! ### Statements -/

/-- The statement speaks of variables of one method. -/
structure Reading.Owned (r : Reading) (owner : String) : Prop where
  vars : ∀ v ∈ r.instruction.vars, v.method = owner
  mentions : ∀ v ∈ r.mentions, v.method = owner
  role : ∀ role v, r.role = some (role, v) → v.method = owner

/-- The statement mentions its variables, all of one method. -/
structure Reading.Complete (r : Reading) (owner : String) : Prop where
  mentions : ∀ v ∈ r.mentions, v.method = owner
  vars : ∀ v ∈ r.instruction.vars, v ∈ r.mentions
  role : ∀ role v, r.role = some (role, v) → v ∈ r.mentions

theorem Reading.Complete.owned {r : Reading} {owner : String} (h : r.Complete owner) :
    r.Owned owner :=
  ⟨fun v hv => h.mentions v (h.vars v hv), h.mentions,
    fun role v hr => h.mentions v (h.role role v hr)⟩

section Statement

variable {owner : String} {s text : List Char} {r : Reading}

theorem local?_owned {v : Variable} (h : local? owner s = some v) : v.method = owner := by
  unfold local? at h
  split at h
  · cases h
    rfl
  · cases h

/-- A reading without a role. -/
theorem Reading.complete_of_mentions {i : Instruction} {vars : List Variable}
    (hmentions : ∀ v ∈ vars, v.method = owner) (hvars : ∀ v ∈ i.vars, v ∈ vars) :
    Reading.Complete ⟨i, vars, none⟩ owner :=
  ⟨hmentions, hvars, fun _ _ h => by cases h⟩

theorem complete_plain {vars : List Variable} (h : ∀ v ∈ vars, v.method = owner) :
    (Reading.plain text vars).Complete owner :=
  Reading.complete_of_mentions h (by simp [Instruction.vars])

theorem complete_readIdentity {name : List Char} {role : Role ⊕ List Char}
    (h : readIdentity owner s name role = .ok r) : r.Complete owner := by
  have hv : ∀ v ∈ [variableOf owner name], v.method = owner := by simp [variableOf]
  unfold readIdentity at h
  split at h
  · cases h
    refine ⟨hv, by simp [Reading.plain, Instruction.vars], ?_⟩
    rintro role v ⟨⟩
    exact List.mem_singleton_self _
  · split at h
    · cases h
    · cases h
      refine ⟨hv, by simp [Reading.plain, Instruction.vars], ?_⟩
      rintro role v ⟨⟩
      exact List.mem_singleton_self _

theorem complete_call {kind : CallKind} {callee : MethodRef} {result receiver : Option Variable}
    {args : List (List Char)} (hresult : ∀ v ∈ result.toList, v.method = owner)
    (hreceiver : ∀ v ∈ receiver.toList, v.method = owner) :
    Reading.Complete ⟨.call { kind, callee, receiver, args := args.map (local? owner), result },
      result.toList ++ receiver.toList ++ (args.map (local? owner)).filterMap id, none⟩ owner := by
  refine Reading.complete_of_mentions (fun v hv => ?_) fun v hv => hv
  rcases List.mem_append.1 hv with hv | hv
  · rcases List.mem_append.1 hv with hv | hv
    · exact hresult v hv
    · exact hreceiver v hv
  · obtain ⟨arg, harg, hsome⟩ := List.mem_filterMap.1 hv
    obtain ⟨piece, -, hpiece⟩ := List.mem_map.1 harg
    exact local?_owned (hpiece.trans hsome)

theorem complete_readCall {kind : CallKind} {result : Option Variable}
    (hresult : ∀ v ∈ result.toList, v.method = owner)
    (h : readCall owner kind s result = .ok r) : r.Complete owner := by
  have hreceiver : ∀ name, ∀ v ∈ (some (variableOf owner name)).toList, v.method = owner := by
    simp [variableOf]
  unfold readCall at h
  simp only [bind, Except.bind, pure, Except.pure, throw, throwThe, MonadExceptOf.throw] at h
  repeat' split at h
  all_goals cases h
  · exact complete_call hresult (hreceiver _)
  · exact complete_call hresult (by simp)

theorem complete_readSource {target : Variable} (ht : target.method = owner)
    (h : readSource owner target s text = .ok r) : r.Complete owner := by
  have base : ∀ name, (variableOf owner name).method = owner := fun _ => rfl
  unfold readSource at h
  split at h
  · cases h
    exact Reading.complete_of_mentions (by simp [ht]) (by simp [Instruction.vars])
  split at h
  · exact complete_readCall (by simp [ht]) h
  split at h
  · simp only [bind, Except.bind, pure, Except.pure] at h
    split at h <;> cases h
    exact Reading.complete_of_mentions (by simp [ht]) (by simp [Instruction.vars])
  split at h
  · simp only [bind, Except.bind, pure, Except.pure] at h
    split at h <;> cases h
    exact Reading.complete_of_mentions (by simp [ht, base]) (by simp [Instruction.vars])
  split at h
  · cases h
    exact Reading.complete_of_mentions (by simp [ht, base]) (by simp [Instruction.vars])
  split at h
  · next source hsource =>
    cases h
    exact Reading.complete_of_mentions (by simp [ht, local?_owned hsource])
      (by simp [Instruction.vars])
  · cases h
    exact complete_plain (by simp [ht])

theorem complete_readAssignment {left right : List Char}
    (h : readAssignment owner left right text = .ok r) : r.Complete owner := by
  have base : ∀ name, (variableOf owner name).method = owner := fun _ => rfl
  have constant : (Reading.plain text []).Complete owner := complete_plain (by simp)
  unfold readAssignment at h
  dsimp only at h
  split at h
  · split at h
    · cases h
      exact constant
    · next source hsource =>
      simp only [bind, Except.bind, pure, Except.pure] at h
      split at h <;> cases h
      exact Reading.complete_of_mentions (by simp [local?_owned hsource]) (by simp [Instruction.vars])
  split at h
  · split at h
    · cases h
      exact constant
    · next source hsource =>
      simp only [bind, Except.bind, pure, Except.pure] at h
      split at h <;> cases h
      exact Reading.complete_of_mentions (by simp [local?_owned hsource, base])
        (by simp [Instruction.vars])
  split at h
  · split at h
    · cases h
      exact constant
    · next source hsource =>
      cases h
      exact Reading.complete_of_mentions (by simp [local?_owned hsource, base])
        (by simp [Instruction.vars])
  split at h
  · exact complete_readSource (base _) h
  · cases h

theorem complete_readStatement (h : readStatement owner s = .ok r) : r.Complete owner := by
  unfold readStatement at h
  dsimp only at h
  split at h
  · cases h
    refine Reading.complete_of_mentions (fun v hv => ?_) fun v hv => hv
    exact local?_owned (Option.mem_toList.1 hv)
  split at h
  · cases h
    exact complete_plain (by simp)
  split at h
  · exact complete_readCall (by simp) h
  split at h
  · exact complete_readIdentity h
  split at h
  · exact complete_readAssignment h
  · cases h
    exact complete_plain (by simp)
end Statement

/-! ### Bodies -/

/-- A body in the making speaks of variables of its method. -/
structure Draft.Owned (d : Draft) : Prop where
  statements : ∀ s ∈ d.statements, ∀ v ∈ s.instruction.vars, v.method = d.method.signature
  locals : ∀ l ∈ d.locals.items, l.var.method = d.method.signature
  params : ∀ n ∈ d.params.items, n.param.var.method = d.method.signature
  receiver : ∀ l, d.receiver = some l → l.var.method = d.method.signature

/-- A variable that is returned is one of a statement. -/
theorem Draft.exists_of_mem_returned {d : Draft} {v : Variable} (hv : v ∈ d.returned) :
    ∃ s ∈ d.statements, v ∈ s.instruction.vars := by
  obtain ⟨s, hs, hsome⟩ := List.mem_filterMap.1 (OrderedSet.mem_ofList.1 hv)
  refine ⟨s, hs, ?_⟩
  split at hsome
  · next value hi =>
    rw [hi]
    exact Option.mem_toList.2 hsome
  · cases hsome

namespace Draft.Owned

variable {d : Draft}

theorem start (m : Method) : ({ method := m } : Draft).Owned :=
  ⟨by simp, by simp, by simp, by simp⟩

theorem declare (h : d.Owned) (type name : String) : (d.declare type name).Owned :=
  ⟨h.statements, h.locals, h.params, h.receiver⟩

theorem localOf (h : d.Owned) {v : Variable} (hv : v.method = d.method.signature) :
    (d.localOf v).var.method = d.method.signature := by
  unfold Draft.localOf
  cases hl : d.locals.get? v.name with
  | none => exact hv
  | some l => exact h.locals l (Roster.mem_of_get? hl)

theorem mention (h : d.Owned) {v : Variable} (hv : v.method = d.method.signature) :
    (d.mention v).Owned := by
  refine ⟨h.statements, fun l hl => ?_, h.params, h.receiver⟩
  rcases Roster.mem_of_mem_add hl with hl | rfl
  · exact h.locals l hl
  · exact h.localOf hv

theorem assign (h : d.Owned) (role : Role × Variable)
    (hv : role.2.method = d.method.signature) : (d.assign role).Owned := by
  obtain ⟨role, v⟩ := role
  cases role with
  | receiver =>
    refine ⟨h.statements, h.locals, h.params, fun l hl => ?_⟩
    cases hl
    exact h.localOf hv
  | param index =>
    refine ⟨h.statements, h.locals, fun n hn => ?_, h.receiver⟩
    rcases Roster.mem_of_mem_put hn with hn | rfl
    · exact h.params n hn
    · exact h.localOf hv
  | caught => exact h

theorem add (h : d.Owned) {i : Instruction} (hi : ∀ v ∈ i.vars, v.method = d.method.signature)
    (line : Nat) : (d.add i line).Owned := by
  refine ⟨fun s hs => ?_, h.locals, h.params, h.receiver⟩
  rcases List.mem_append.1 hs with hs | hs
  · exact h.statements s hs
  · obtain rfl := List.mem_singleton.1 hs
    exact hi

theorem mentions (h : d.Owned) {vars : List Variable}
    (hv : ∀ v ∈ vars, v.method = d.method.signature) : (vars.foldl Draft.mention d).Owned := by
  induction vars generalizing d with
  | nil => exact h
  | cons v vars ih =>
    exact ih (h.mention (hv v (by simp))) fun w hw => hv w (List.mem_cons_of_mem v hw)

theorem record (h : d.Owned) {r : Reading} (hr : r.Owned d.method.signature) (line : Nat) :
    (d.record r line).Owned := by
  have hknown := h.mentions hr.mentions
  have hmethod := (d.mention_frame r.mentions).1
  unfold Draft.record
  cases hrole : r.role with
  | none =>
    refine hknown.add (fun v hv => ?_) line
    rw [hmethod]
    exact hr.vars v hv
  | some role =>
    have hassign := hknown.assign role (by
      rw [hmethod]
      exact hr.role role.1 role.2 hrole)
    have hsame : (Draft.assign (r.mentions.foldl Draft.mention d) role).method = d.method := by
      rw [← hmethod]
      obtain ⟨role, v⟩ := role
      cases role <;> rfl
    refine hassign.add (fun v hv => ?_) line
    rw [hsame]
    exact hr.vars v hv

theorem readLine {d' : Draft} (h : d.Owned) {s : List Char} {line : Nat}
    (hr : d.readLine s line = .ok d') : d'.Owned := by
  obtain ⟨type, names, rfl⟩ | ⟨text, r, hread, rfl⟩ := Draft.of_readLine hr
  · clear hr
    induction names generalizing d with
    | nil => exact h
    | cons name names ih => exact ih (h.declare type name)
  · exact h.record (complete_readStatement hread).owned line

theorem synthesize (h : d.Owned) (name type : String) : (d.synthesize name type).1.Owned := by
  refine ⟨h.statements, fun l hl => ?_, h.params, h.receiver⟩
  rcases Roster.mem_of_mem_put hl with hl | rfl
  · exact h.locals l hl
  · rfl

theorem completeParams (h : d.Owned) (types : List String) (index : Nat) :
    (d.completeParams index types).1.Owned ∧
      ∀ l ∈ (d.completeParams index types).2, l.var.method = d.method.signature := by
  induction types generalizing d index with
  | nil => exact ⟨h, by simp [Draft.completeParams]⟩
  | cons type types ih =>
    simp only [Draft.completeParams]
    cases hn : d.params.get? index with
    | some named =>
      obtain ⟨howned, hparams⟩ := ih h (index + 1)
      refine ⟨howned, fun l hl => ?_⟩
      rcases List.mem_cons.1 hl with rfl | hl
      · exact h.params named (Roster.mem_of_get? hn)
      · exact hparams l hl
    | none =>
      obtain ⟨howned, hparams⟩ :=
        ih (h.synthesize ("@parameter" ++ toString index) type) (index + 1)
      refine ⟨howned, fun l hl => ?_⟩
      rcases List.mem_cons.1 hl with rfl | hl
      · rfl
      · exact hparams l hl

theorem completeReceiver (h : d.Owned) : d.completeReceiver.1.Owned ∧
    ∀ l, d.completeReceiver.2 = some l → l.var.method = d.method.signature := by
  unfold Draft.completeReceiver
  cases hr : d.receiver with
  | some receiver =>
    refine ⟨h, fun l hl => ?_⟩
    cases hl
    exact h.receiver receiver hr
  | none =>
    dsimp only
    split
    · exact ⟨h, fun _ hl => by cases hl⟩
    · refine ⟨h.synthesize _ _, fun l hl => ?_⟩
      cases hl
      rfl

/-- A variable that is returned is one of the method. -/
theorem of_mem_returned (h : d.Owned) {v : Variable} (hv : v ∈ d.returned) :
    v.method = d.method.signature := by
  obtain ⟨s, hs, hvar⟩ := Draft.exists_of_mem_returned hv
  exact h.statements s hs v hvar

theorem completeReturned (h : d.Owned) :
    ∀ l, d.completeReturned.2 = some l → l.var.method = d.method.signature := by
  unfold Draft.completeReturned
  split
  · exact fun _ hl => by cases hl
  · split
    · exact fun _ hl => by cases hl
    · next v hv =>
      intro l hl
      cases hl
      exact h.localOf (h.of_mem_returned (hv ▸ List.mem_singleton_self v))
    · intro l hl
      cases hl
      rfl

theorem finish (h : d.Owned) : ({ d.method with body := some d.finish } : Method).Owned := by
  obtain ⟨hp, hparams⟩ := h.completeParams d.method.paramTypes 0
  obtain ⟨hr, hreceiver⟩ := hp.completeReceiver
  have hreturned := hr.completeReturned
  have hmethod := (d.completeParams_frame 0 d.method.paramTypes).1
  rw [(Draft.completeReceiver_frame _).1, hmethod] at hreturned
  rw [hmethod] at hreceiver
  constructor
  · intro s hs
    have hmem : s ∈ d.finish.statements := hs
    rw [d.statements_finish] at hmem
    exact h.statements s hmem
  · rintro body ⟨⟩ v hv
    obtain ⟨l, hl, rfl⟩ := List.mem_map.1 hv
    rcases List.mem_append.1 hl with hl | hl
    · rcases List.mem_append.1 hl with hl | hl
      · exact hparams l hl
      · exact hreceiver l (Option.mem_toList.1 hl)
    · exact hreturned l (Option.mem_toList.1 hl)

end Draft.Owned

/-! ### Classes -/

theorem mem_of_mem_nameOf {s : List Char} {c : Char} (h : c ∈ (nameOf s).toList) : c ∈ s := by
  unfold nameOf at h
  rw [String.toList_ofList] at h
  unfold unquote at h
  split at h
  · split at h
    · exact List.mem_cons_of_mem _ (List.dropLast_subset _ h)
    · exact h
  · exact h

/-- The name of a class is a word of its header. -/
theorem name_readClassHeader {s : List Char} {c : Class} (h : readClassHeader s = .ok c) :
    ∃ w ∈ headerWords s, c.name = nameOf w := by
  unfold readClassHeader at h
  dsimp only at h
  split at h
  · next kind name rest hdrop =>
    simp only [bind, Except.bind, pure, Except.pure] at h
    split at h <;> cases h
    have hmem : name ∈ kind :: name :: rest := by simp
    rw [← hdrop] at hmem
    exact ⟨name, (List.dropWhile_sublist _).subset hmem, rfl⟩
  · cases h

theorem blankless_readClassHeader {s : List Char} {c : Class} (h : readClassHeader s = .ok c) :
    ' ' ∉ c.name.toList := by
  obtain ⟨w, hw, heq⟩ := name_readClassHeader h
  intro hblank
  rw [heq] at hblank
  exact absurd (not_blank_of_mem_words hw ' ' (mem_of_mem_nameOf hblank)) (by decide)

theorem owned_readMethodHeader {owner : String} {line : List Char} {m : Method}
    (h : readMethodHeader owner line = some (.ok m)) : m.declaringClass = owner ∧ m.Owned := by
  have hbody := bodyless_readMethodHeader h
  obtain ⟨modifiers, head, rest, -, -, -, heq⟩ := of_readMethodHeader h
  refine ⟨by rw [heq], ⟨fun s hs => ?_, fun b hb => ?_⟩⟩
  · rw [Method.statements, hbody] at hs
    cases hs
  · rw [hbody] at hb
    cases hb

theorem Drafted.owned {owner : String} {d : Draft} (h : Drafted owner d) :
    d.Owned ∧ d.method.declaringClass = owner := by
  induction h with
  | header read => exact ⟨.start _, (owned_readMethodHeader read).1⟩
  | line _ read ih => exact ⟨ih.1.readLine read, Draft.method_readLine read ▸ ih.2⟩
  | switch _ opening n ih => exact ⟨ih.1.add (by simp [Instruction.vars]) n, ih.2⟩

theorem MethodRead.owned {owner : String} {m : Method} (h : MethodRead owner m) :
    m.declaringClass = owner ∧ m.Owned := by
  cases h with
  | header read => exact owned_readMethodHeader read
  | body drafted => exact ⟨drafted.owned.2, drafted.owned.1.finish⟩

theorem ClassRead.proper {c : Class} (h : ClassRead c) : c.Proper := by
  obtain ⟨line, header, hread, hname⟩ := h.header
  exact ⟨hname ▸ blankless_readClassHeader hread, fun m hm => (h.methods m hm).owned.1,
    fun m hm => (h.methods m hm).owned.2⟩

/-- **What is read is proper.** -/
theorem Parsed.proper {p : Program} (h : Parsed p) : p.Proper :=
  fun c hc => (h.classRead c hc).proper

/-! ### A program that was read -/

/-- A method that calls itself, an object that is stored in its own field, and an interface that
extends itself. -/
def knotText : String :=
  "interface I extends I\n\x7b\n\x7d\nclass A implements I\n\x7b\nA f;\nvoid m()\n\x7b\nA r;\n" ++
  "r := @this: A;\nr.<A: A f> = r;\nvirtualinvoke r.<A: void m()>();\n\x7d\n" ++
  "static void main(java.lang.String[])\n\x7b\nA a;\na = new A;\n" ++
  "virtualinvoke a.<A: void m()>();\n\x7d\n\x7d\n"

def knot : Program := (read ∅ knotText).1

theorem parsed_knot : Parsed knot := .read .empty knotText

/-- The analysis of the knot finds its end, and its superclass chains end at once. -/
theorem knot_runs :
    (knot.main?.any fun m => (analyzeFrom knot m).fault?.isNone) = true ∧
      ∀ c ∈ knot.classes.items, c.name ≠ objectClass ∧
        ∀ above ∈ c.superclass, above = objectClass := by
  decide +kernel

/-- An analysis from the main method that ends without a fault goes on to a state. -/
theorem exists_going {p : Program}
    (h : (p.main?.any fun m => (analyzeFrom p m).fault?.isNone) = true) :
    ∃ m s, p.main? = some m ∧ m ∈ p.methods ∧ analyzeFrom p m = .going s := by
  obtain ⟨m, hmain, hfault⟩ := (Option.any_eq_true _ _).1 h
  exact ⟨m, _, hmain, List.mem_of_find?_eq_some hmain, Solver.Progress.eq_going hfault⟩

end PointsTo.Jimple
