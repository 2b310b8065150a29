import PointsTo.Jimple.Draft
import PointsTo.Proofs.Rosters

/-!
Programs and drafts in which every statement is changed by itself. A change that leaves alone what
is returned commutes with all that the reader does to a draft and to a program, up to the statement
that is added.
-/
namespace PointsTo

variable (change : Statement → Statement)

/-! ### Programs -/

def Body.mapStatements (b : Body) : Body := { b with statements := b.statements.map change }

def Method.mapStatements (m : Method) : Method :=
  { m with body := m.body.map (Body.mapStatements change) }

theorem Method.subsignature_mapStatements (m : Method) :
    (m.mapStatements change).subsignature = m.subsignature := rfl

def Class.mapStatements (c : Class) : Class :=
  { c with
    methods := c.methods.mapItems (Method.mapStatements change)
      (Method.subsignature_mapStatements change) }

theorem Class.name_mapStatements (c : Class) : (c.mapStatements change).name = c.name := rfl

def Program.mapStatements (p : Program) : Program :=
  ⟨p.classes.mapItems (Class.mapStatements change) (Class.name_mapStatements change)⟩

theorem Program.mapStatements_declare (p : Program) (c : Class) :
    (p.declare c).mapStatements change =
      (p.mapStatements change).declare (c.mapStatements change) :=
  congrArg Program.mk (Roster.mapItems_put _ _ _)

theorem Class.mapStatements_putMethod (c : Class) (m : Method) :
    ({ c with methods := c.methods.put m } : Class).mapStatements change =
      { c.mapStatements change with
        methods := (c.mapStatements change).methods.put (m.mapStatements change) } :=
  congrArg (fun methods => { c with methods }) (Roster.mapItems_put _ _ _)

/-- A method without a body has no statements to change. -/
theorem Method.mapStatements_of_bodyless {m : Method} (h : m.body = none) :
    m.mapStatements change = m := by
  rw [mapStatements, h]
  obtain ⟨owner, name, params, returned, modifiers, body⟩ := m
  obtain rfl : body = none := h
  rfl

theorem Class.mapStatements_of_memberless {c : Class} (h : c.methods = ∅) :
    c.mapStatements change = c := by
  have hmethods : c.methods.mapItems (Method.mapStatements change)
      (Method.subsignature_mapStatements change) = c.methods := by
    rw [h]
    rfl
  exact congrArg (fun methods => { c with methods }) hmethods

/-! ### Two changes -/

variable {change} {change' change'' : Statement → Statement}

theorem Body.mapStatements_comp (h : ∀ s, change' (change s) = change'' s) (b : Body) :
    (b.mapStatements change).mapStatements change' = b.mapStatements change'' := by
  refine congrArg (fun statements => { b with statements }) ?_
  rw [mapStatements, List.map_map]
  exact List.map_congr_left fun s _ => h s

theorem Method.mapStatements_comp (h : ∀ s, change' (change s) = change'' s) (m : Method) :
    (m.mapStatements change).mapStatements change' = m.mapStatements change'' := by
  refine congrArg (fun body => { m with body }) ?_
  rw [mapStatements, Option.map_map]
  cases m.body with
  | none => rfl
  | some b => exact congrArg some (b.mapStatements_comp h)

theorem Class.mapStatements_comp (h : ∀ s, change' (change s) = change'' s) (c : Class) :
    (c.mapStatements change).mapStatements change' = c.mapStatements change'' := by
  have hmethods : ((c.mapStatements change).mapStatements change').methods =
      (c.mapStatements change'').methods := by
    refine Roster.ext ?_
    show (c.methods.items.map (Method.mapStatements change)).map (Method.mapStatements change') =
      c.methods.items.map (Method.mapStatements change'')
    rw [List.map_map]
    exact List.map_congr_left fun m _ => m.mapStatements_comp h
  exact congrArg (fun methods => { c with methods }) hmethods

/-! ### Drafts -/

namespace Jimple.Draft

/-- The change leaves alone what is returned. -/
def KeepsReturns (change : Statement → Statement) : Prop :=
  ∀ s v, (change s).instruction = .ret v ↔ s.instruction = .ret v

variable (change) (d : Draft)

def mapStatements : Draft := { d with statements := d.statements.map change }

theorem mapStatements_declare (names : List String) (type : String) :
    (names.foldl (fun d name => d.declare type name) d).mapStatements change =
      names.foldl (fun d name => d.declare type name) (d.mapStatements change) := by
  induction names generalizing d with
  | nil => rfl
  | cons name names ih => exact ih (d.declare type name)

theorem mapStatements_mention (mentions : List Variable) :
    (mentions.foldl mention d).mapStatements change =
      mentions.foldl mention (d.mapStatements change) := by
  induction mentions generalizing d with
  | nil => rfl
  | cons v mentions ih => exact ih (d.mention v)

variable {change}

theorem mapStatements_add {i i' : Instruction} {line line' : Nat}
    (h : change ⟨i, line⟩ = ⟨i', line'⟩) :
    (d.add i line).mapStatements change = (d.mapStatements change).add i' line' := by
  rw [add, add, mapStatements, mapStatements]
  congr 1
  rw [List.map_append, List.map_singleton, h]

theorem mapStatements_record {r r' : Reading} {line line' : Nat}
    (hmentions : r'.mentions = r.mentions) (hrole : r'.role = r.role)
    (h : change ⟨r.instruction, line⟩ = ⟨r'.instruction, line'⟩) :
    (d.record r line).mapStatements change = (d.mapStatements change).record r' line' := by
  have hknown := d.mapStatements_mention change r.mentions
  rw [record, record, mapStatements_add _ h, hmentions, hrole]
  cases r.role with
  | none => rw [Option.elim_none, Option.elim_none, hknown]
  | some role =>
    rw [Option.elim_some, Option.elim_some, ← hknown]
    obtain ⟨role, v⟩ := role
    cases role <;> rfl

theorem returned_mapStatements (keeps : KeepsReturns change) :
    (d.mapStatements change).returned = d.returned := by
  rw [returned, returned, mapStatements, List.filterMap_map]
  congr 2
  refine List.filterMap_congr fun s _ => ?_
  dsimp only [Function.comp_apply]
  by_cases hret : ∃ v, s.instruction = .ret v
  · obtain ⟨v, hv⟩ := hret
    rw [hv, (keeps s v).2 hv]
  · have hnot : ∀ v, s.instruction ≠ .ret v := fun v hv => hret ⟨v, hv⟩
    have hnot' : ∀ v, (change s).instruction ≠ .ret v := fun v hv => hnot v ((keeps s v).1 hv)
    split
    · next v hv => exact absurd hv (hnot' v)
    · rfl

theorem completeParams_mapStatements (index : Nat) (types : List String) :
    (d.mapStatements change).completeParams index types =
      ((d.completeParams index types).1.mapStatements change,
        (d.completeParams index types).2) := by
  induction types generalizing d index with
  | nil => rfl
  | cons type types ih =>
    rw [completeParams, completeParams]
    have hparams : (d.mapStatements change).params = d.params := rfl
    rw [hparams]
    cases d.params.get? index with
    | some named => simp only [ih]
    | none =>
      have hsynthesize :
          (d.mapStatements change).synthesize ("@parameter" ++ toString index) type =
            ((d.synthesize ("@parameter" ++ toString index) type).1.mapStatements change,
              (d.synthesize ("@parameter" ++ toString index) type).2) := rfl
      simp only [hsynthesize, ih]

theorem completeReceiver_mapStatements :
    (d.mapStatements change).completeReceiver =
      (d.completeReceiver.1.mapStatements change, d.completeReceiver.2) := by
  rw [completeReceiver, completeReceiver]
  have hreceiver : (d.mapStatements change).receiver = d.receiver := rfl
  have hmethod : (d.mapStatements change).method = d.method := rfl
  rw [hreceiver, hmethod]
  cases d.receiver with
  | some receiver => rfl
  | none =>
    dsimp only
    split <;> rfl

theorem completeReturned_mapStatements (keeps : KeepsReturns change) :
    (d.mapStatements change).completeReturned =
      (d.completeReturned.1.mapStatements change, d.completeReturned.2) := by
  rw [completeReturned, completeReturned, d.returned_mapStatements keeps]
  have hmethod : (d.mapStatements change).method = d.method := rfl
  rw [hmethod]
  split
  · rfl
  · cases d.returned with
    | nil => rfl
    | cons v values =>
      cases values <;> rfl

/-- What is returned decides which variables a body is completed by. -/
theorem finish_mapStatements (keeps : KeepsReturns change) :
    (d.mapStatements change).finish = d.finish.mapStatements change := by
  rw [finish, finish]
  have hmethod : (d.mapStatements change).method = d.method := rfl
  simp only [completeParams_mapStatements, completeReceiver_mapStatements,
    completeReturned_mapStatements _ keeps, hmethod]
  rfl

end Jimple.Draft

end PointsTo
