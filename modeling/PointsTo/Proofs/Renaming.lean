import PointsTo.Proofs.Counterparts
import PointsTo.Proofs.Restart

/-!
Two programs that speak of the same under other names. A renaming says what the places and the
variables of one program are in another. If the methods of the first program follow their
counterparts, whatever solves the constraints of the second program solves those of the first once
it is read under the names of the first. So an analysis of the second program that finds its end
bounds that of the first.
-/
namespace PointsTo

open Solver

/-- What the places and the variables of one program are in another. -/
structure Renaming where
  place : Place → Place
  var : Variable → Variable

namespace Renaming

variable (ρ : Renaming)

def site (site : CallSite) : CallSite := { site with place := ρ.place site.place }

def allocation (a : Allocation) : Allocation := { a with place := ρ.place a.place }

def location : Location → Location
  | .var v => .var (ρ.var v)
  | .static f => .static f
  | .field base f => .field (ρ.allocation base) f
  | .element array => .element (ρ.allocation array)

def fact : Fact → Fact
  | .reachable m => .reachable m
  | .calls site callee => .calls (ρ.site site) callee
  | .pointsTo l a => .pointsTo (ρ.location l) (ρ.allocation a)

/-- The bodies take the same arguments, in variables that keep their names. -/
structure BodyFollows (b b' : Body) : Prop where
  params : b'.params = b.params
  receiver : b'.receiver = b.receiver
  fixed : ∀ l ∈ b.params ++ b.receiver.toList, ρ.var l.var = l.var

/-- The second method has the statements of the first, on variables that keep their names. The
variables for the returned values may differ, as long as the facts make no difference between them:
neither when the second hands its value on nor when a return of the first has to reach it. -/
structure Follows (facts : Set Fact) (m n : Method) : Prop where
  id : n.id = m.id
  placed : ∀ {place i}, (place, i) ∈ m.placed → (ρ.place place, i) ∈ n.placed
  fixed : ∀ {place i}, (place, i) ∈ m.placed → ∀ v ∈ i.vars, ρ.var v = v
  body : Option.Rel ρ.BodyFollows m.body n.body
  hands : ∀ r, m.body.bind Body.returned = some r → .reachable m.id ∈ facts →
    ∃ r', n.body.bind Body.returned = some r' ∧ Includes facts (.var (ρ.var r.var)) (.var r'.var)
  collects : ∀ r place v, m.body.bind Body.returned = some r → (place, .ret (some v)) ∈ m.placed →
    (∀ r', n.body.bind Body.returned = some r' → Includes facts (.var v) (.var r'.var)) →
    Includes facts (.var v) (.var (ρ.var r.var))

end Renaming

/-- A call connects its arguments with the parameters, and the returned variable with its result. -/
theorem Call.mem_bindings_iff {call : Call} {b : Body} {e : Variable × Variable} :
    e ∈ call.bindings b ↔
      (∃ param, (some e.1, param) ∈ call.args.zip b.params ∧ param.var = e.2) ∨
      ∃ returned, b.returned = some returned ∧ returned.var = e.1 ∧ call.result = some e.2 := by
  obtain ⟨source, target⟩ := e
  unfold bindings
  rw [List.mem_append, List.mem_filterMap]
  refine or_congr ⟨?_, ?_⟩ ⟨?_, ?_⟩
  · rintro ⟨⟨arg, param⟩, hzip, hsome⟩
    obtain ⟨a, rfl, heq⟩ := Option.map_eq_some_iff.1 hsome
    obtain ⟨rfl, rfl⟩ := Prod.mk.inj heq
    exact ⟨param, hzip, rfl⟩
  · rintro ⟨param, hzip, rfl⟩
    exact ⟨_, hzip, rfl⟩
  · intro h
    split at h
    · next returned result hreturned hresult =>
      obtain ⟨rfl, rfl⟩ := Prod.mk.inj (List.mem_singleton.1 h)
      exact ⟨returned, hreturned, rfl, hresult⟩
    · cases h
  · rintro ⟨returned, hreturned, rfl, hresult⟩
    rw [hreturned, hresult]
    exact List.mem_singleton_self _

namespace Renaming

variable {ρ : Renaming} {p q : Program} {R : Counterpart} {facts : Set Fact}

theorem fits_iff {b b' : Body} (h : ρ.BodyFollows b b') (call : Call) :
    call.Fits b' ↔ call.Fits b := by
  unfold Call.Fits
  rw [h.params]

/-! ### Solutions -/

theorem includes_preimage {source target : Location}
    (h : Includes facts (ρ.location source) (ρ.location target)) :
    Includes (Set.preimage ρ.fact facts) source target :=
  fun a ha => h (ρ.allocation a) ha

/-- The same between variables that keep their names. -/
theorem includes_vars {v w : Variable} (hv : ρ.var v = v) (hw : ρ.var w = w)
    (h : Includes facts (.var v) (.var w)) :
    Includes (Set.preimage ρ.fact facts) (.var v) (.var w) := by
  refine includes_preimage ?_
  change Includes facts (.var (ρ.var v)) (.var (ρ.var w))
  rwa [hv, hw]

theorem mem_preimage_var {v : Variable} (hv : ρ.var v = v) {a : Allocation} :
    .pointsTo (.var v) a ∈ Set.preimage ρ.fact facts ↔
      .pointsTo (.var v) (ρ.allocation a) ∈ facts := by
  change Fact.pointsTo (.var (ρ.var v)) (ρ.allocation a) ∈ facts ↔ _
  rw [hv]

section Call

variable {site : CallSite} {m n : Method} (h : ρ.Follows facts m n)
  (hvars : ∀ v ∈ (Instruction.call site.call).vars, ρ.var v = v)

include h hvars

theorem binds (hbinds : Binds Call.Fits facts (ρ.site site) n) :
    Binds Call.Fits (Set.preimage ρ.fact facts) site m where
  edge := by
    have hedge := hbinds.edge
    rw [h.id] at hedge
    exact hedge
  reachable := by
    have hreachable := hbinds.reachable
    rw [h.id] at hreachable
    exact hreachable
  flow b hb hfits e he := by
    obtain ⟨b', hb', hbody⟩ := exists_of_rel h.body hb
    have hflow := hbinds.flow b' hb' ((fits_iff hbody _).2 hfits)
    rcases Call.mem_bindings_iff.1 he with ⟨param, hzip, hparam⟩ | ⟨r, hr, hvar, hresult⟩
    · obtain ⟨harg, hmem⟩ := List.of_mem_zip hzip
      have hsource : ρ.var e.1 = e.1 :=
        hvars _ (List.mem_append_right _ (List.mem_filterMap.2 ⟨_, harg, rfl⟩))
      have htarget : ρ.var e.2 = e.2 := hparam ▸ hbody.fixed param (List.mem_append_left _ hmem)
      rw [← hbody.params] at hzip
      exact includes_vars hsource htarget
        (hflow e (Call.mem_bindings_iff.2 (.inl ⟨param, hzip, hparam⟩)))
    · have htarget : ρ.var e.2 = e.2 :=
        hvars _ (List.mem_append_left _ (List.mem_append_left _ (Option.mem_toList.2 hresult)))
      have hreachable := hbinds.reachable
      rw [h.id] at hreachable
      -- the returned variable hands its value to that of the counterpart, and that to the result
      obtain ⟨r', hr', hhands⟩ := h.hands r (by rw [hb]; exact hr) hreachable
      rw [hb'] at hr'
      have hlast := hflow (r'.var, e.2) (Call.mem_bindings_iff.2 (.inr ⟨r', hr', rfl, hresult⟩))
      refine includes_preimage fun a ha => ?_
      change .pointsTo (.var (ρ.var e.2)) a ∈ facts
      rw [htarget]
      exact hlast a (hhands a (hvar ▸ ha))

omit hvars in
theorem receives {call : Call} {self : Variable} (hreceives : Receives Call.Fits call m self) :
    Receives Call.Fits call n self ∧ ρ.var self = self := by
  obtain ⟨b, l, hb, hfits, hl, rfl⟩ := hreceives
  obtain ⟨b', hb', hbody⟩ := exists_of_rel h.body hb
  exact ⟨⟨b', l, hb', (fits_iff hbody _).2 hfits, hbody.receiver.trans hl, rfl⟩,
    hbody.fixed l (List.mem_append_right _ (Option.mem_toList.2 hl))⟩

end Call

section Pull

variable (h : p.Matches R q) (follows : ∀ m n, R.Rel m n → ρ.Follows facts m n)

include h follows

theorem meetsCall {site : CallSite} (hvars : ∀ v ∈ (Instruction.call site.call).vars, ρ.var v = v)
    (hmeets : MeetsCall q Call.Fits facts (ρ.site site)) :
    MeetsCall p Call.Fits (Set.preimage ρ.fact facts) site := by
  have receiver : ∀ v, site.call.receiver = some v → ρ.var v = v := fun v hv =>
    hvars v (List.mem_append_left _ (List.mem_append_right _ (Option.mem_toList.2 hv)))
  unfold MeetsCall
  split
  · next kind =>
    intro callee found
    obtain ⟨callee', found', hrel⟩ := h.resolveCall_found found
    have hcallee := follows _ _ hrel
    obtain ⟨hbinds, hself⟩ := hmeets.linked kind found'
    refine ⟨binds hcallee hvars hbinds, fun v self hv hreceives => ?_⟩
    obtain ⟨hreceives', hfixed⟩ := receives hcallee hreceives
    exact includes_vars (receiver v hv) hfixed (hself v self hv hreceives')
  · next kind =>
    intro v hv o ho callee found
    obtain ⟨callee', found', hrel⟩ := h.resolveCall_found found
    have hcallee := follows _ _ hrel
    have ho' := (mem_preimage_var (receiver v hv)).1 ho
    obtain ⟨hbinds, hself⟩ := hmeets.dispatched kind hv ho' found'
    refine ⟨binds hcallee hvars hbinds, fun self hreceives => ?_⟩
    obtain ⟨hreceives', hfixed⟩ := receives hcallee hreceives
    exact (mem_preimage_var hfixed).2 (hself self hreceives')

/-- A statement asks for the same under both names. -/
theorem meets {m n : Method} (hm : ρ.Follows facts m n) {place : Place} {i : Instruction}
    (hmem : (place, i) ∈ m.placed) (hmeets : Meets q Call.Fits facts n (ρ.place place) i) :
    Meets p Call.Fits (Set.preimage ρ.fact facts) m place i := by
  have fixed := hm.fixed hmem
  cases i with
  | allocate target type =>
    exact (mem_preimage_var (fixed target (by simp [Instruction.vars]))).2 hmeets
  | copy target source =>
    exact includes_vars (fixed source (by simp [Instruction.vars]))
      (fixed target (by simp [Instruction.vars])) hmeets
  | loadStatic target f =>
    change Includes facts (.static (q.fieldOf f)) (.var target) at hmeets
    rw [h.fieldOf, ← fixed target (by simp [Instruction.vars])] at hmeets
    exact includes_preimage hmeets
  | storeStatic f source =>
    change Includes facts (.var source) (.static (q.fieldOf f)) at hmeets
    rw [h.fieldOf, ← fixed source (by simp [Instruction.vars])] at hmeets
    exact includes_preimage hmeets
  | loadField target base f =>
    intro o ho
    have hobject := hmeets _ ((mem_preimage_var (fixed base (by simp [Instruction.vars]))).1 ho)
    rw [h.fieldOf, ← fixed target (by simp [Instruction.vars])] at hobject
    exact includes_preimage hobject
  | storeField base f source =>
    intro o ho
    have hobject := hmeets _ ((mem_preimage_var (fixed base (by simp [Instruction.vars]))).1 ho)
    rw [h.fieldOf, ← fixed source (by simp [Instruction.vars])] at hobject
    exact includes_preimage hobject
  | loadElement target base =>
    intro o ho
    have hobject := hmeets _ ((mem_preimage_var (fixed base (by simp [Instruction.vars]))).1 ho)
    rw [← fixed target (by simp [Instruction.vars])] at hobject
    exact includes_preimage hobject
  | storeElement base source =>
    intro o ho
    have hobject := hmeets _ ((mem_preimage_var (fixed base (by simp [Instruction.vars]))).1 ho)
    rw [← fixed source (by simp [Instruction.vars])] at hobject
    exact includes_preimage hobject
  | call call => exact meetsCall h follows fixed hmeets
  | ret value =>
    rintro v r rfl hr
    have hcollects := hm.collects r place v hr hmem fun r' hr' => hmeets v r' rfl hr'
    rw [← fixed v (by simp [Instruction.vars])] at hcollects
    exact includes_preimage hcollects
  | other text => trivial

/-- **A solution of the second program is a solution of the first**, under the names of that. -/
theorem solves {entry : MethodName} (hsol : Solves q Call.Fits entry facts) :
    Solves p Call.Fits entry (Set.preimage ρ.fact facts) := by
  refine ⟨hsol.entry, fun name m hname hm x hx => ?_⟩
  obtain ⟨n, hn, hrel⟩ := exists_of_rel (h.method? name) hm
  have hfollows := follows m n hrel
  exact meets h follows hfollows hx (hsol.statements name n hname hn _ (hfollows.placed hx))

/-- A call that cannot be made in the first program cannot be made in the second. -/
theorem offends {fault : AnalysisFault} (hoff : Offends p (Set.preimage ρ.fact facts) fault) :
    ∃ fault', Offends q facts fault' := by
  cases hoff with
  | @mismatch site callee body edge declared hasBody unfit =>
    obtain ⟨callee', declared', hrel⟩ := exists_of_rel (h.method? callee.id) declared
    have hcallee := follows _ _ hrel
    obtain ⟨body', hasBody', hbody⟩ := exists_of_rel hcallee.body hasBody
    rw [← hcallee.id] at edge declared'
    have edge' : Fact.calls (ρ.site site) callee'.id ∈ facts := edge
    refine ⟨_, .mismatch edge' declared' hasBody' ?_⟩
    rw [hbody.params]
    exact unfit
  | @missing name m place call receiver o _ _ reachable declared mem kind isReceiver object dead =>
    obtain ⟨n, declared', hrel⟩ := exists_of_rel (h.method? name) declared
    have hm := follows _ _ hrel
    have hreceiver : ρ.var receiver = receiver := hm.fixed mem receiver
      (List.mem_append_left _ (List.mem_append_right _ (Option.mem_toList.2 isReceiver)))
    exact ⟨_, .missing reachable declared' (hm.placed mem) kind isReceiver
      ((mem_preimage_var hreceiver).1 object) (h.resolveCall_missing dead)⟩

end Pull

/-- **If the analysis of the second program finds its end, so does that of the first, and it finds
no more.** -/
theorem going (hp : p.Proper) (hq : q.Proper) (h : p.Matches R q) {m n : Method} {t : State}
    (goes : analyzeFrom q n = .going t) (hm : R.Rel m n)
    (follows : Solves q Call.Fits n.id t.facts → ∀ m n, R.Rel m n → ρ.Follows t.facts m n) :
    ∃ s, analyzeFrom p m = .going s ∧ s.facts ⊆ Set.preimage ρ.fact t.facts := by
  obtain ⟨hsol, clear⟩ := solves_of_going hq goes
  have follows := follows (hsol Call.Fits)
  have hfollows := follows m n hm
  have hasBody : m.body.isSome := by
    obtain ⟨b', hb'⟩ := Option.isSome_iff_exists.1 (hasBody_of_going goes)
    rcases rel_cases hfollows.body with ⟨-, hnone⟩ | ⟨b, -, hb, -⟩
    · rw [hb'] at hnone
      cases hnone
    · rw [hb]
      rfl
  have hsol' := solves h follows (hsol Call.Fits)
  rw [hfollows.id] at hsol'
  refine going_of_solves hp hasBody hsol' fun fault hoff => ?_
  obtain ⟨fault', hoff'⟩ := offends h follows hoff
  exact clear fault' hoff'

end Renaming

end PointsTo
