import PointsTo.Proofs.Renaming
import PointsTo.Proofs.Rosters
import PointsTo.Proofs.Signatures

/-!
Returned values with variables of their own. A method that returns one variable only hands that
variable to its callers, without a variable that stands for the returned value. Whether it does or
whether every returned value has such a variable makes no difference to the analysis: what flows
into the variable of its own is what the only returned variable holds, for returns alone flow there.
The two runs have other graphs and other orders, and meet only in what they solve.
-/
namespace PointsTo

/-! ### Programs in which every returned value has a variable -/

/-- The variables that are returned, each once, in the order of the statements. -/
def Body.returns (b : Body) : List Variable :=
  (OrderedSet.ofList (b.statements.filterMap fun s =>
    match s.instruction with
    | .ret value => value
    | _ => none)).items

/-- The variable for the returned value that no text names. -/
def Method.returnLocal (m : Method) : Local := ⟨⟨m.signature, "@return"⟩, m.returnType⟩

/-- The body of a method with a variable of its own for the returned value, if there is one. -/
def Body.apart (m : Method) (b : Body) : Body :=
  if m.returnType = "void" ∨ b.returns = [] then b
  else { b with returned := some m.returnLocal, locals := b.locals.put m.returnLocal }

def Method.apart (m : Method) : Method := { m with body := m.body.map (Body.apart m) }

theorem Method.subsignature_apart (m : Method) : m.apart.subsignature = m.subsignature := rfl

def Class.apart (c : Class) : Class :=
  { c with methods := c.methods.mapItems Method.apart Method.subsignature_apart }

theorem Class.name_apart (c : Class) : c.apart.name = c.name := rfl

/-- The program in which every method that returns a variable has one of its own for that. -/
def Program.apart (p : Program) : Program := ⟨p.classes.mapItems Class.apart Class.name_apart⟩

theorem Body.mem_returns {b : Body} {v : Variable} :
    v ∈ b.returns ↔ ∃ s ∈ b.statements, s.instruction = .ret (some v) := by
  unfold returns
  rw [OrderedSet.mem_ofList, List.mem_filterMap]
  refine exists_congr fun s => and_congr_right fun _ => ⟨fun h => ?_, fun h => ?_⟩
  · split at h
    · next value hi => rw [hi, h]
    · cases h
  · rw [h]

/-- Only the variable for the returned value and the list of the variables change. -/
theorem Body.apart_frame (m : Method) (b : Body) :
    (b.apart m).params = b.params ∧ (b.apart m).receiver = b.receiver ∧
      (b.apart m).statements = b.statements := by
  unfold apart
  split <;> exact ⟨rfl, rfl, rfl⟩

theorem Method.statements_apart (m : Method) : m.apart.statements = m.statements := by
  unfold statements apart
  cases m.body with
  | none => rfl
  | some b => exact (b.apart_frame m).2.2

theorem Method.placed_apart (m : Method) : m.apart.placed = m.placed := by
  unfold placed
  rw [m.statements_apart]
  rfl

/-! ### Bodies that were read -/

namespace Jimple

namespace Draft

/-- The variable that stands for the returned value: a new one, however many are returned. -/
def completeReturnedApart (d : Draft) : Draft × Option Local :=
  if d.method.returnType = "void" then (d, none)
  else
    match d.returned with
    | [] => (d, none)
    | _ =>
      let (d, returned) := d.synthesize "@return" d.method.returnType
      (d, some returned)

/-- The finished body, with a new variable for the returned value. -/
def finishApart (d : Draft) : Body :=
  let (d, params) := d.completeParams 0 d.method.paramTypes
  let (d, receiver) := d.completeReceiver
  let (d, returned) := d.completeReturnedApart
  { params, receiver, returned, statements := d.statements, locals := d.locals }

/-- Before the returned value is seen to, the method and the statements are those of the draft. -/
theorem completed_frame (d : Draft) :
    (d.completeParams 0 d.method.paramTypes).1.completeReceiver.1.method = d.method ∧
      (d.completeParams 0 d.method.paramTypes).1.completeReceiver.1.statements = d.statements := by
  obtain ⟨hmethod, hstatements⟩ := d.completeParams_frame 0 d.method.paramTypes
  obtain ⟨hmethod', hstatements'⟩ :=
    completeReceiver_frame (d.completeParams 0 d.method.paramTypes).1
  exact ⟨hmethod'.trans hmethod, hstatements'.trans hstatements⟩

theorem returns_finish (d : Draft) : d.finish.returns = d.returned := by
  unfold Body.returns
  rw [d.statements_finish]
  rfl

/-- Nothing is returned, or both ways make a variable for it: a new one, unless the shorter way
takes the only one that is returned. -/
theorem completeReturned_cases (d : Draft) :
    ((d.method.returnType = "void" ∨ d.returned = []) ∧
      d.completeReturned = (d, none) ∧ d.completeReturnedApart = (d, none)) ∨
    (¬ (d.method.returnType = "void" ∨ d.returned = []) ∧
      d.completeReturnedApart = ({ d with locals := d.locals.put d.method.returnLocal },
        some d.method.returnLocal) ∧
      ((∃ v, d.returned = [v] ∧ d.completeReturned = (d, some (d.localOf v))) ∨
        d.completeReturned = d.completeReturnedApart)) := by
  unfold completeReturned completeReturnedApart
  by_cases hvoid : d.method.returnType = "void"
  · rw [if_pos hvoid, if_pos hvoid]
    exact .inl ⟨.inl hvoid, rfl, rfl⟩
  · rw [if_neg hvoid, if_neg hvoid]
    rcases d.returned with _ | ⟨v, _ | ⟨w, more⟩⟩
    · exact .inl ⟨.inr rfl, rfl, rfl⟩
    · exact .inr ⟨by simp [hvoid], rfl, .inl ⟨v, rfl, rfl⟩⟩
    · exact .inr ⟨by simp [hvoid], rfl, .inr rfl⟩

/-- **Giving the returned value of a finished body a variable of its own is finishing the body in
the other way.** -/
theorem apart_finish (d : Draft) : d.finish.apart d.method = d.finishApart := by
  obtain ⟨hmethod, hstatements⟩ := d.completed_frame
  unfold Body.apart
  rw [d.returns_finish]
  unfold finish finishApart
  dsimp only
  generalize (d.completeParams 0 d.method.paramTypes).1.completeReceiver.1 = e
    at hmethod hstatements
  have hreturned : e.returned = d.returned := by
    unfold returned
    rw [hstatements]
  have hcases := e.completeReturned_cases
  rw [hmethod, hreturned] at hcases
  rcases hcases with ⟨hnone, hwhole, hapart⟩ | ⟨hsome, hapart, ⟨v, -, honly⟩ | hsame⟩
  · rw [if_pos hnone, hwhole, hapart]
  · rw [if_neg hsome, honly, hapart]
  · have hput : (e.locals.put d.method.returnLocal).put d.method.returnLocal =
        e.locals.put d.method.returnLocal := Roster.put_put _ rfl
    rw [if_neg hsome, hsame, hapart]
    dsimp only
    rw [hput]

/-- A variable of the method stays the same when its type is added. -/
theorem Owned.var_localOf {d : Draft} (h : d.Owned) {v : Variable}
    (hv : v.method = d.method.signature) : (d.localOf v).var = v := by
  have hmethod := h.localOf hv
  have hname : (d.localOf v).name = v.name := by
    unfold Draft.localOf
    cases hl : d.locals.get? v.name with
    | none => rfl
    | some l =>
      have hkey := Roster.key_of_get? hl
      exact hkey
  calc (d.localOf v).var = ⟨(d.localOf v).var.method, (d.localOf v).name⟩ := rfl
    _ = ⟨v.method, v.name⟩ := by rw [hmethod, ← hv, hname]

end Draft

end Jimple

/-- What the reader makes of the returned value: nothing where nothing is returned, and else the
only returned variable or a new one. -/
inductive Body.Returning (m : Method) (b : Body) : Prop
  | nothing (nothing : m.returnType = "void" ∨ b.returns = []) (returned : b.returned = none)
  | only {l : Local} (something : ¬ (m.returnType = "void" ∨ b.returns = []))
      (single : b.returns = [l.var]) (returned : b.returned = some l)
  | own (something : ¬ (m.returnType = "void" ∨ b.returns = []))
      (returned : b.returned = some m.returnLocal)

namespace Jimple

theorem Draft.Owned.returning {d : Draft} (h : d.Owned) : d.finish.Returning d.method := by
  obtain ⟨hmethod, hstatements⟩ := d.completed_frame
  have howned := (h.completeParams d.method.paramTypes 0).1.completeReceiver.1
  have hfinish : d.finish.returned =
      (d.completeParams 0 d.method.paramTypes).1.completeReceiver.1.completeReturned.2 := rfl
  generalize (d.completeParams 0 d.method.paramTypes).1.completeReceiver.1 = e
    at hmethod hstatements howned hfinish
  have hreturned : d.finish.returns = e.returned := by
    rw [d.returns_finish]
    unfold returned
    rw [hstatements]
  rw [← hmethod]
  rcases e.completeReturned_cases with ⟨hnone, hwhole, -⟩ | ⟨hsome, hapart, ⟨v, hv, honly⟩ | hsame⟩
  · exact .nothing (hreturned ▸ hnone) (by rw [hfinish, hwhole])
  · have hvar : (e.localOf v).var = v :=
      howned.var_localOf (howned.of_mem_returned (hv ▸ List.mem_singleton_self v))
    exact .only (hreturned ▸ hsome) (by rw [hreturned, hv, hvar]) (by rw [hfinish, honly])
  · exact .own (hreturned ▸ hsome) (by rw [hfinish, hsame, hapart])

/-- **What the reader makes of the returned value of any body.** -/
theorem Parsed.returning {p : Program} (h : Parsed p) {m : Method} (hm : m ∈ p.methods) {b : Body}
    (hb : m.body = some b) : b.Returning m := by
  obtain ⟨c, -, -, hread⟩ := h.methodRead hm
  obtain ⟨d, drafted, rfl, rfl⟩ := hread.drafted hb
  cases drafted.owned.1.returning with
  | nothing nothing returned => exact .nothing nothing returned
  | only something single returned => exact .only something single returned
  | own something returned => exact .own something returned

end Jimple

namespace Body.Returning

variable {m : Method} {b : Body} (h : b.Returning m)

include h

/-- A body has a variable for the returned value in both programs or in neither. -/
theorem returned_apart : (b.apart m).returned = b.returned.map fun _ => m.returnLocal := by
  unfold Body.apart
  cases h with
  | nothing nothing returned =>
    rw [if_pos nothing, returned]
    rfl
  | only something single returned =>
    rw [if_neg something, returned]
    rfl
  | own something returned =>
    rw [if_neg something, returned]
    rfl

theorem only_or_own {r : Local} (hr : b.returned = some r) :
    r = m.returnLocal ∨ b.returns = [r.var] := by
  cases h with
  | nothing nothing returned =>
    rw [hr] at returned
    cases returned
  | only something single returned =>
    rw [hr] at returned
    exact .inr (Option.some.inj returned ▸ single)
  | own something returned => exact .inl (Option.some.inj (hr.symm.trans returned))

end Body.Returning

/-! ### Counterparts -/

/-- No variable of the text of a method is named like that for the returned value. -/
def Method.SparesReturn (m : Method) : Prop :=
  (∀ s ∈ m.statements, ∀ v ∈ s.instruction.vars, v.name ≠ "@return") ∧
    ∀ b ∈ m.body, ∀ l ∈ b.params ++ b.receiver.toList, l.name ≠ "@return"

instance (m : Method) : Decidable m.SparesReturn := inferInstanceAs (Decidable (_ ∧ _))

def Program.SparesReturn (p : Program) : Prop := ∀ m ∈ p.methods, m.SparesReturn

instance (p : Program) : Decidable p.SparesReturn :=
  inferInstanceAs (Decidable (∀ m ∈ p.methods, m.SparesReturn))

namespace Program

/-- The methods of a program and what becomes of them. -/
def apartness (p : Program) : Counterpart where
  Rel m n := m ∈ p.methods ∧ n = m.apart
  subsignature h := h.2 ▸ rfl
  isAbstract h := h.2 ▸ rfl

variable {p : Program}

theorem matches_apart (p : Program) : p.Matches p.apartness p.apart := by
  refine Roster.rel_mapItems Class.name_apart fun c hc => ⟨rfl, ?_⟩
  exact Roster.rel_mapItems Method.subsignature_apart fun m hm => ⟨mem_methods.2 ⟨c, hc, hm⟩, rfl⟩

theorem Proper.apart (hp : p.Proper) : p.apart.Proper := by
  intro c' hc'
  obtain ⟨c, hc, rfl⟩ := List.mem_map.1 hc'
  refine ⟨(hp c hc).blankless, fun m' hm' => ?_, fun m' hm' => ?_⟩
  · obtain ⟨m, hm, rfl⟩ := List.mem_map.1 hm'
    exact (hp c hc).declared m hm
  · obtain ⟨m, hm, rfl⟩ := List.mem_map.1 hm'
    have howned := (hp c hc).owned m hm
    refine ⟨fun s hs => howned.statements s (m.statements_apart ▸ hs), fun b' hb' v hv => ?_⟩
    obtain ⟨b, hb, rfl⟩ := Option.map_eq_some_iff.1 hb'
    unfold Body.apart at hv
    split at hv
    · exact howned.bound b hb v hv
    · obtain ⟨l, hl, rfl⟩ := List.mem_map.1 hv
      rcases List.mem_append.1 hl with hl | hl
      · exact howned.bound b hb l.var (List.mem_map.2 ⟨l, List.mem_append_left _ hl, rfl⟩)
      · obtain rfl := List.mem_singleton.1 hl
        rfl

/-- A variable for the returned value, merged with the one that its method hands to its callers. -/
def merged (p : Program) (v : Variable) : Variable :=
  if v.name = "@return" then
    ((p.methods.find? fun m => m.signature = v.method).bind fun m =>
      m.body.bind Body.returned).elim v Local.var
  else v

theorem merged_of_ne {v : Variable} (h : v.name ≠ "@return") : p.merged v = v := if_neg h

theorem Proper.merged_returnLocal (hp : p.Proper) {m : Method} (hm : m ∈ p.methods) {r : Local}
    (hr : m.body.bind Body.returned = some r) : p.merged m.returnLocal.var = r.var := by
  have hfound : (p.methods.find? fun n => n.signature = m.signature) = some m := by
    cases hfind : p.methods.find? fun n => n.signature = m.signature with
    | none =>
      have hnone := List.find?_eq_none.1 hfind m hm
      simp at hnone
    | some n =>
      have hsame : n.signature = m.signature := by simpa using List.find?_some hfind
      rw [hp.eq_of_signature (List.mem_of_find?_eq_some hfind) hm hsame]
  have hmerged : p.merged m.returnLocal.var =
      ((p.methods.find? fun n => n.signature = m.signature).bind fun n =>
        n.body.bind Body.returned).elim m.returnLocal.var Local.var := if_pos rfl
  rw [hmerged, hfound, Option.bind_some, hr]
  rfl

end Program

theorem Jimple.Parsed.returned_apart {p : Program} (h : Parsed p) {m : Method}
    (hm : m ∈ p.methods) : m.apart.body.bind Body.returned =
      (m.body.bind Body.returned).map fun _ => m.returnLocal := by
  unfold Method.apart
  cases hb : m.body with
  | none => rfl
  | some b => exact (h.returning hm hb).returned_apart

namespace Solver

section Apart

variable {p : Program} {facts : Set Fact}

/-- The variables of the program itself follow those of the program with a variable for each
returned value: what its only returned variable holds, a return hands on to the new one. -/
theorem follows_apart (h : Jimple.Parsed p) {entry : MethodName}
    (hsol : Solves p.apart Call.Fits entry facts) {m n : Method} (hrel : p.apartness.Rel m n) :
    (⟨id, id⟩ : Renaming).Follows facts m n := by
  obtain ⟨hm, rfl⟩ := hrel
  have hplaced := m.placed_apart
  have hreturned := h.returned_apart hm
  refine ⟨rfl, fun hmem => hplaced ▸ hmem, fun _ _ _ => rfl, ?_, fun r hr hreachable => ?_,
    fun r place v hr hmem hincludes => ?_⟩
  · unfold Method.apart
    cases m.body with
    | none => exact .none
    | some b => exact .some ⟨(b.apart_frame m).1, (b.apart_frame m).2.1, fun _ _ => rfl⟩
  · rw [hr] at hreturned
    refine ⟨m.returnLocal, hreturned, ?_⟩
    obtain ⟨b, hb, hr⟩ := Option.bind_eq_some_iff.1 hr
    rcases (h.returning hm hb).only_or_own hr with rfl | honly
    · exact fun _ ha => ha
    · obtain ⟨s, hs, hi⟩ := Body.mem_returns.1 (honly ▸ List.mem_singleton_self r.var)
      obtain ⟨place, hmem⟩ := Method.exists_placed (Method.statements_of_body hb ▸ hs)
      rw [hi, ← hplaced] at hmem
      have hfound := h.proper.method?_id hm
      obtain ⟨n, hn, -, rfl⟩ := exists_of_rel (p.matches_apart.method? m.id) hfound
      exact hsol.statements m.id _ hreachable hn _ hmem _ m.returnLocal rfl hreturned
  · rw [hr] at hreturned
    obtain ⟨b, hb, hr⟩ := Option.bind_eq_some_iff.1 hr
    rcases (h.returning hm hb).only_or_own hr with rfl | honly
    · exact hincludes m.returnLocal hreturned
    · obtain ⟨s, hs, hi⟩ := Method.mem_statements_of_placed hmem
      have hv : v ∈ b.returns :=
        Body.mem_returns.2 ⟨s, Method.statements_of_body hb ▸ hs, hi⟩
      obtain rfl := List.mem_singleton.1 (honly ▸ hv)
      exact fun _ ha => ha

/-- The other way around, with the new variables merged with those that are handed to callers. -/
theorem apart_follows (h : Jimple.Parsed p) (spares : p.SparesReturn) {m n : Method}
    (hrel : p.apartness.Rel m n) : (⟨id, p.merged⟩ : Renaming).Follows facts n m := by
  obtain ⟨hm, rfl⟩ := hrel
  have hplaced := m.placed_apart
  have hreturned := h.returned_apart hm
  have source : ∀ r, m.apart.body.bind Body.returned = some r →
      ∃ r', m.body.bind Body.returned = some r' ∧ p.merged r.var = r'.var := by
    intro r hr
    rw [hreturned] at hr
    obtain ⟨r', hr', rfl⟩ := Option.map_eq_some_iff.1 hr
    exact ⟨r', hr', h.proper.merged_returnLocal hm hr'⟩
  refine ⟨rfl, fun hmem => hplaced ▸ hmem, fun hmem v hv => ?_, ?_, fun r hr _ => ?_,
    fun r place v hr _ hincludes => ?_⟩
  · rw [hplaced] at hmem
    obtain ⟨s, hs, rfl⟩ := Method.mem_statements_of_placed hmem
    exact Program.merged_of_ne ((spares m hm).1 s hs v hv)
  · have hspares := (spares m hm).2
    unfold Method.apart
    cases hb : m.body with
    | none => exact .none
    | some b =>
      obtain ⟨hparams, hreceiver, -⟩ := b.apart_frame m
      refine .some ⟨hparams.symm, hreceiver.symm, fun l hl => Program.merged_of_ne ?_⟩
      rw [hparams, hreceiver] at hl
      exact hspares b hb l hl
  · obtain ⟨r', hr', hmerged⟩ := source r hr
    exact ⟨r', hr', fun _ ha => hmerged ▸ ha⟩
  · obtain ⟨r', hr', hmerged⟩ := source r hr
    intro a ha
    change Fact.pointsTo (.var (p.merged r.var)) a ∈ facts
    rw [hmerged]
    exact hincludes r' hr' a ha

/-- An analysis that finds its end finds it without the new variables too, and no more. -/
theorem going_of_apart (h : Jimple.Parsed p) {m : Method} (hm : m ∈ p.methods) {t : State}
    (goes : analyzeFrom p.apart m.apart = .going t) :
    ∃ s, analyzeFrom p m = .going s ∧
      s.facts ⊆ Set.preimage (⟨id, id⟩ : Renaming).fact t.facts :=
  Renaming.going h.proper h.proper.apart p.matches_apart goes ⟨hm, rfl⟩
    fun hsol _ _ => follows_apart h hsol

/-- An analysis that finds its end finds it with the new variables too, and no more once they are
merged. -/
theorem apart_of_going (h : Jimple.Parsed p) (spares : p.SparesReturn) {m : Method}
    (hm : m ∈ p.methods) {s : State} (goes : analyzeFrom p m = .going s) :
    ∃ t, analyzeFrom p.apart m.apart = .going t ∧
      t.facts ⊆ Set.preimage (⟨id, p.merged⟩ : Renaming).fact s.facts :=
  Renaming.going h.proper.apart h.proper p.matches_apart.symm goes ⟨hm, rfl⟩
    fun _ _ _ hrel => apart_follows h spares hrel

end Apart

/-- **The variable of a returned value may be left out.** Let the second program be the first in
which every method that returns a variable, if it is not a void one, has a variable `@return` of its
own for that, and let the text name no variable so. From the same entry method either both analyses
find their end or neither does, and then they find the same: the same methods are reachable, the
same statements call the same methods, and the same objects are at every pointer other than the
variables `@return`. -/
theorem analysis_returns_apart {p : Program} (h : Jimple.Parsed p) (spares : p.SparesReturn)
    {m : Method} (hm : m ∈ p.methods) :
    ((∃ s, analyzeFrom p m = .going s) ↔ ∃ t, analyzeFrom p.apart m.apart = .going t) ∧
    ∀ s t, analyzeFrom p m = .going s → analyzeFrom p.apart m.apart = .going t →
      (∀ name, name ∈ t.calls.reachable.items ↔ name ∈ s.calls.reachable.items) ∧
      (∀ edge, edge ∈ t.calls.edges.keys ↔ edge ∈ s.calls.edges.keys) ∧
      (∀ l a, (∀ v, l = .var v → v.name ≠ "@return") →
        (.pointsTo l a ∈ t.facts ↔ .pointsTo l a ∈ s.facts)) ∧
      s.Located ∧ t.Located := by
  refine ⟨⟨fun ⟨s, goes⟩ => ?_, fun ⟨t, goes⟩ => ?_⟩, fun s t goes goes' => ?_⟩
  · obtain ⟨t, ht, -⟩ := apart_of_going h spares hm goes
    exact ⟨t, ht⟩
  · obtain ⟨s, hs, -⟩ := going_of_apart h hm goes
    exact ⟨s, hs⟩
  · obtain ⟨t', ht', hle⟩ := apart_of_going h spares hm goes
    obtain rfl : t = t' := Progress.going.inj (goes'.symm.trans ht')
    obtain ⟨s', hs', hge⟩ := going_of_apart h hm goes'
    obtain rfl : s = s' := Progress.going.inj (goes.symm.trans hs')
    refine ⟨fun name => ⟨fun ht => ?_, fun hs => ?_⟩, fun edge => ⟨fun ht => ?_, fun hs => ?_⟩,
      fun l a hl => ⟨fun ht => ?_, fun hs => ?_⟩, located_of_going h.proper goes,
      located_of_going h.proper.apart goes'⟩
    · exact hle (show .reachable name ∈ t.facts from ht)
    · exact hge (show .reachable name ∈ s.facts from hs)
    · exact hle (show .calls edge.1 edge.2 ∈ t.facts from ht)
    · exact hge (show .calls edge.1 edge.2 ∈ s.facts from hs)
    · have hfact := hle ht
      cases l with
      | var v =>
        have hmerged : Fact.pointsTo (.var (p.merged v)) a ∈ s.facts := hfact
        rwa [Program.merged_of_ne (hl v rfl)] at hmerged
      | static f => exact hfact
      | field base f => exact hfact
      | element array => exact hfact
    · have hfact := hge hs
      cases l <;> exact hfact

/-- A method that returns what it was given or what it returns itself. -/
def echoText : String :=
  "class A\n\x7b\nstatic A m(A)\n\x7b\nA r;\nr := @parameter0: A;\n" ++
  "r = staticinvoke <A: A m(A)>(r);\nreturn r;\n\x7d\n" ++
  "static void main(java.lang.String[])\n\x7b\nA a;\na = new A;\n" ++
  "a = staticinvoke <A: A m(A)>(a);\n\x7d\n\x7d\n"

def echo : Program := Jimple.programOf echoText

theorem echo_runs :
    (echo.main?.any fun m => (analyzeFrom echo m).fault?.isNone) = true ∧ echo.SparesReturn ∧
      echo.apart ≠ echo := by
  decide +kernel

theorem analysis_returns_apart_echo :
    echo.SparesReturn ∧ echo.apart ≠ echo ∧ ∃ m ∈ echo.methods, ∃ s t,
      analyzeFrom echo m = .going s ∧ analyzeFrom echo.apart m.apart = .going t ∧
        (∀ name, name ∈ t.calls.reachable.items ↔ name ∈ s.calls.reachable.items) ∧
        (∀ edge, edge ∈ t.calls.edges.keys ↔ edge ∈ s.calls.edges.keys) ∧
        (∀ l a, (∀ v, l = .var v → v.name ≠ "@return") →
          (.pointsTo l a ∈ t.facts ↔ .pointsTo l a ∈ s.facts)) ∧
        s.Located ∧ t.Located := by
  obtain ⟨hruns, spares, hne⟩ := echo_runs
  obtain ⟨m, s, -, hm, goes⟩ := Jimple.exists_going hruns
  obtain ⟨⟨ends, -⟩, agree⟩ := analysis_returns_apart (.programOf echoText) spares hm
  obtain ⟨t, goes'⟩ := ends ⟨s, goes⟩
  exact ⟨spares, hne, m, hm, s, t, goes, goes', agree s t goes goes'⟩

end Solver

end PointsTo
