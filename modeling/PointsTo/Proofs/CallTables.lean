import Mathlib.Data.List.Induction
import Mathlib.Data.List.Nodup
import PointsTo.CallGraph
import PointsTo.Proofs.Rosters

/-!
How a call graph can be stored: the edges, with a table of them for each call site, by callee, and
another one for each method that is called. A new edge goes into all three. Requests come in any
order, and whatever they are, the tables and the call graph answer alike and show the same edges, in
the order in which they were new, from wherever one looks at them.
-/
namespace PointsTo

/-! ### Requests -/

/-- A request to a call graph. -/
inductive CallRequest where
  | enter (m : MethodName)
  | reach (m : MethodName)
  | join (e : CallEdge)

namespace CallRequest

def entered? : CallRequest → Option MethodName
  | enter m => some m
  | _ => none

def reached? : CallRequest → Option MethodName
  | reach m => some m
  | _ => none

def joined? : CallRequest → Option CallEdge
  | join e => some e
  | _ => none

/-- Requests with their answers, each by what the one before has left behind. An entry method is
added without an answer. -/
def dialogue {σ : Type} (perform : CallRequest → σ → Option Bool × σ) (start : σ)
    (requests : List CallRequest) : List (CallRequest × Option Bool) × σ :=
  requests.foldl (fun (past, s) r =>
    let (answer, s) := perform r s
    (past ++ [(r, answer)], s)) ([], start)

theorem dialogue_concat {σ : Type} (perform : CallRequest → σ → Option Bool × σ) (start : σ)
    (requests : List CallRequest) (r : CallRequest) :
    dialogue perform start (requests ++ [r]) =
      ((dialogue perform start requests).1 ++
          [(r, (perform r (dialogue perform start requests).2).1)],
        (perform r (dialogue perform start requests).2).2) :=
  List.foldl_concat ..

/-- The edges that were new when they were added, in order of time. -/
def added (past : List (CallRequest × Option Bool)) : List CallEdge :=
  past.filterMap fun (r, answer) => if answer = some true then r.joined? else none

end CallRequest

open CallRequest

namespace CallGraph

def perform : CallRequest → CallGraph → Option Bool × CallGraph
  | .enter m, g => (none, g.addEntry m)
  | .reach m, g =>
    let (isNew, g) := g.tryReach m
    (some isNew, g)
  | .join e, g =>
    let (isNew, g) := g.tryAddEdge e
    (some isNew, g)

end CallGraph

/-! ### Tables -/

/-- A call graph as it can be stored. -/
structure CallTables where
  entries : OrderedSet MethodName := ∅
  reachable : OrderedSet MethodName := ∅
  edges : Roster CallEdge.ends := ∅
  bySite : Roster (Prod.fst : CallSite × Roster CallEdge.callee → CallSite) := ∅
  byCallee : Roster (Prod.fst : MethodName × Roster CallEdge.ends → MethodName) := ∅

namespace CallTables

/-- The edges that leave a call site, one for each callee. -/
def leaving (t : CallTables) (site : CallSite) : Roster CallEdge.callee :=
  ((t.bySite.get? site).map Prod.snd).getD ∅

/-- The edges that lead to a method. -/
def entering (t : CallTables) (m : MethodName) : Roster CallEdge.ends :=
  ((t.byCallee.get? m).map Prod.snd).getD ∅

/-- Adds an edge to all tables and says whether its ends had none before. -/
def tryAddEdge (t : CallTables) (e : CallEdge) : Bool × CallTables :=
  if t.edges.contains e.ends then (false, t)
  else (true, { t with
    edges := t.edges.add e
    bySite := t.bySite.put (e.site, (t.leaving e.site).put e)
    byCallee := t.byCallee.put (e.callee, (t.entering e.callee).add e) })

def edgesFrom (t : CallTables) (site : CallSite) : List CallEdge := (t.leaving site).items

def edgesInto (t : CallTables) (m : MethodName) : List CallEdge := (t.entering m).items

def calleesOf (t : CallTables) (site : CallSite) : List MethodName := (t.leaving site).keys

def callersOf (t : CallTables) (m : MethodName) : List CallSite :=
  (t.entering m).items.map CallEdge.site

def perform : CallRequest → CallTables → Option Bool × CallTables
  | .enter m, t => (none, { t with entries := t.entries.add m })
  | .reach m, t =>
    let (isNew, reachable) := t.reachable.tryAdd m
    (some isNew, { t with reachable })
  | .join e, t =>
    let (isNew, t) := t.tryAddEdge e
    (some isNew, t)

end CallTables

/-! ### One request -/

section Step

variable {g : CallGraph} {e : CallEdge} {site : CallSite} {m : MethodName}

theorem CallGraph.tryAddEdge_of_mem (h : e.ends ∈ g.edges.keys) : g.tryAddEdge e = (false, g) := by
  rw [tryAddEdge, Roster.tryAdd, Roster.add_of_mem h, Roster.contains_iff.2 h]
  rfl

theorem CallGraph.tryAddEdge_of_not_mem (h : e.ends ∉ g.edges.keys) :
    g.tryAddEdge e = (true, { g with edges := g.edges.add e }) := by
  rw [tryAddEdge, Roster.tryAdd, Roster.contains_eq_false.2 h]
  rfl

/-- Reachability and entry methods are left alone by an edge. -/
theorem CallGraph.tryAddEdge_frame (g : CallGraph) (e : CallEdge) :
    (g.tryAddEdge e).2.reachable = g.reachable ∧ (g.tryAddEdge e).2.entries = g.entries := by
  by_cases h : e.ends ∈ g.edges.keys
  · rw [tryAddEdge_of_mem h]
    exact ⟨rfl, rfl⟩
  · rw [tryAddEdge_of_not_mem h]
    exact ⟨rfl, rfl⟩

theorem CallTables.tryAddEdge_of_mem {t : CallTables} (h : e.ends ∈ t.edges.keys) :
    t.tryAddEdge e = (false, t) :=
  if_pos (Roster.contains_iff.2 h)

theorem CallTables.tryAddEdge_of_not_mem {t : CallTables} (h : e.ends ∉ t.edges.keys) :
    t.tryAddEdge e = (true, { t with
      edges := t.edges.add e
      bySite := t.bySite.put (e.site, (t.leaving e.site).put e)
      byCallee := t.byCallee.put (e.callee, (t.entering e.callee).add e) }) :=
  if_neg fun hcontains => h (Roster.contains_iff.1 hcontains)

theorem CallGraph.mem_edgesFrom : e ∈ g.edgesFrom site ↔ e ∈ g.edges.items ∧ e.site = site := by
  rw [edgesFrom, List.mem_filter, decide_eq_true_eq]

theorem CallGraph.mem_edgesInto : e ∈ g.edgesInto m ↔ e ∈ g.edges.items ∧ e.callee = m := by
  rw [edgesInto, List.mem_filter, decide_eq_true_eq]

theorem CallGraph.mem_calleesOf :
    m ∈ g.calleesOf site ↔ ∃ e ∈ g.edges.items, e.ends = (site, m) := by
  unfold calleesOf
  rw [List.mem_map]
  constructor
  · rintro ⟨e, he, rfl⟩
    obtain ⟨hmem, rfl⟩ := mem_edgesFrom.1 he
    exact ⟨e, hmem, rfl⟩
  · rintro ⟨e, he, hends⟩
    obtain ⟨rfl, rfl⟩ := Prod.mk.inj hends
    exact ⟨e, mem_edgesFrom.2 ⟨he, rfl⟩, rfl⟩

theorem CallGraph.mem_callersOf :
    site ∈ g.callersOf m ↔ ∃ e ∈ g.edges.items, e.ends = (site, m) := by
  unfold callersOf
  rw [List.mem_map]
  constructor
  · rintro ⟨e, he, rfl⟩
    obtain ⟨hmem, rfl⟩ := mem_edgesInto.1 he
    exact ⟨e, hmem, rfl⟩
  · rintro ⟨e, he, hends⟩
    obtain ⟨rfl, rfl⟩ := Prod.mk.inj hends
    exact ⟨e, mem_edgesInto.2 ⟨he, rfl⟩, rfl⟩

theorem CallGraph.eq_of_ends {d : CallEdge} (he : e ∈ g.edges.items) (hd : d ∈ g.edges.items)
    (h : e.ends = d.ends) : e = d := by
  have hfound : g.edges.get? e.ends = some e := Roster.get?_key he
  have hfound' : g.edges.get? d.ends = some d := Roster.get?_key hd
  rw [h] at hfound
  exact Option.some.inj (hfound.symm.trans hfound')

theorem CallGraph.nodup_edges (g : CallGraph) : g.edges.items.Nodup := g.edges.nodup.of_map

theorem CallGraph.nodup_calleesOf (g : CallGraph) (site : CallSite) : (g.calleesOf site).Nodup := by
  refine List.Nodup.map_on (fun e he d hd hcallee => ?_) (g.nodup_edges.filter _)
  obtain ⟨hedge, hsite⟩ := mem_edgesFrom.1 he
  obtain ⟨hedge', hsite'⟩ := mem_edgesFrom.1 hd
  exact eq_of_ends hedge hedge' (Prod.ext (hsite.trans hsite'.symm) hcallee)

theorem CallGraph.nodup_callersOf (g : CallGraph) (m : MethodName) : (g.callersOf m).Nodup := by
  refine List.Nodup.map_on (fun e he d hd hsite => ?_) (g.nodup_edges.filter _)
  obtain ⟨hedge, hcallee⟩ := mem_edgesInto.1 he
  obtain ⟨hedge', hcallee'⟩ := mem_edgesInto.1 hd
  exact eq_of_ends hedge hedge' (Prod.ext hsite (hcallee.trans hcallee'.symm))

end Step

/-- The tables hold what the call graph does. -/
structure CallTables.Holds (t : CallTables) (g : CallGraph) : Prop where
  entries : t.entries = g.entries
  reachable : t.reachable = g.reachable
  edges : t.edges = g.edges
  leaving : ∀ site, t.edgesFrom site = g.edgesFrom site
  entering : ∀ m, t.edgesInto m = g.edgesInto m

namespace CallTables.Holds

variable {t : CallTables} {g : CallGraph}

/-- A new edge comes behind the others of its call site, and behind the others of its callee. -/
theorem tryAddEdge (h : t.Holds g) (e : CallEdge) :
    (t.tryAddEdge e).1 = (g.tryAddEdge e).1 ∧ (t.tryAddEdge e).2.Holds (g.tryAddEdge e).2 := by
  by_cases hmem : e.ends ∈ g.edges.keys
  · rw [CallGraph.tryAddEdge_of_mem hmem, CallTables.tryAddEdge_of_mem (by rwa [h.edges])]
    exact ⟨rfl, h⟩
  have hcallee : e.callee ∉ (t.leaving e.site).keys := by
    intro hcallee
    obtain ⟨d, hd, hsame⟩ := List.mem_map.1 hcallee
    have hfrom : d ∈ g.edgesFrom e.site := h.leaving e.site ▸ hd
    obtain ⟨hedge, hsite⟩ := CallGraph.mem_edgesFrom.1 hfrom
    have hends : d.ends = e.ends := Prod.ext hsite hsame
    exact hmem (hends ▸ List.mem_map_of_mem hedge)
  have hends : e.ends ∉ (t.entering e.callee).keys := by
    intro hends
    obtain ⟨d, hd, hsame⟩ := List.mem_map.1 hends
    have hinto : d ∈ g.edgesInto e.callee := h.entering e.callee ▸ hd
    exact hmem (hsame ▸ List.mem_map_of_mem (CallGraph.mem_edgesInto.1 hinto).1)
  have hitems : (g.edges.add e).items = g.edges.items ++ [e] := by
    rw [Roster.items_add, if_neg hmem]
  rw [CallGraph.tryAddEdge_of_not_mem hmem, CallTables.tryAddEdge_of_not_mem (by rwa [h.edges])]
  refine ⟨rfl, h.entries, h.reachable, by rw [h.edges], fun site => ?_, fun m => ?_⟩
  · rw [CallGraph.edgesFrom, hitems, List.filter_append, ← CallGraph.edgesFrom, ← h.leaving site]
    unfold edgesFrom CallTables.leaving
    rw [Roster.get?_put]
    by_cases hsite : e.site = site
    · subst hsite
      rw [if_pos rfl, List.filter_cons_of_pos (by simp)]
      exact Roster.items_put_of_not_mem hcallee
    · rw [if_neg hsite, List.filter_cons_of_neg (by simpa using hsite)]
      exact (List.append_nil _).symm
  · rw [CallGraph.edgesInto, hitems, List.filter_append, ← CallGraph.edgesInto, ← h.entering m]
    unfold edgesInto CallTables.entering
    rw [Roster.get?_put]
    by_cases hm : e.callee = m
    · subst hm
      rw [if_pos rfl, List.filter_cons_of_pos (by simp)]
      show ((t.entering e.callee).add e).items = _
      rw [Roster.items_add, if_neg hends]
      rfl
    · rw [if_neg hm, List.filter_cons_of_neg (by simpa using hm)]
      exact (List.append_nil _).symm

/-- **One request is answered alike**, and the tables go on holding what the call graph does. -/
theorem perform (h : t.Holds g) (r : CallRequest) :
    (t.perform r).1 = (g.perform r).1 ∧ (t.perform r).2.Holds (g.perform r).2 := by
  cases r with
  | enter m =>
    refine ⟨rfl, ?_, h.reachable, h.edges, h.leaving, h.entering⟩
    show t.entries.add m = g.entries.add m
    rw [h.entries]
  | reach m =>
    refine ⟨?_, h.entries, ?_, h.edges, h.leaving, h.entering⟩
    · show some (!t.reachable.contains m) = some (!g.reachable.contains m)
      rw [h.reachable]
    · show t.reachable.add m = g.reachable.add m
      rw [h.reachable]
  | join e =>
    obtain ⟨hanswer, hholds⟩ := h.tryAddEdge e
    exact ⟨congrArg some hanswer, hholds⟩

end CallTables.Holds

/-! ### All requests -/

namespace CallGraph

/-- **Entry methods, reachable methods and edges each depend on their own requests only.** -/
theorem dialogue_eq (requests : List CallRequest) :
    (dialogue perform {} requests).2 =
      { entries := OrderedSet.ofList (requests.filterMap entered?)
        reachable := OrderedSet.ofList (requests.filterMap reached?)
        edges := Roster.addAll ∅ (requests.filterMap joined?) } := by
  induction requests using List.reverseRecOn with
  | nil => rfl
  | append_singleton requests r ih =>
    rw [dialogue_concat, ih]
    simp only [List.filterMap_append]
    cases r
    all_goals
      simp only [List.filterMap_cons, List.filterMap_nil, entered?, reached?, joined?,
        List.append_nil, OrderedSet.ofList, Roster.addAll_concat]
      rfl

/-- The edges are those that were new when they were added, in this order. -/
theorem items_edges_dialogue (requests : List CallRequest) :
    (dialogue perform {} requests).2.edges.items = added (dialogue perform {} requests).1 := by
  induction requests using List.reverseRecOn with
  | nil => rfl
  | append_singleton requests r ih =>
    rw [dialogue_concat]
    generalize dialogue perform {} requests = x at ih
    obtain ⟨past, g⟩ := x
    have hadded : ∀ answer, added (past ++ [(r, answer)]) =
        added past ++ (if answer = some true then r.joined? else none).toList := by
      intro answer
      unfold added
      rw [List.filterMap_append]
      congr 1
    dsimp only at ih ⊢
    rw [hadded, ← ih]
    cases r with
    | enter m => exact (List.append_nil _).symm
    | reach m =>
      show g.edges.items = _
      split <;> exact (List.append_nil _).symm
    | join e =>
      by_cases hmem : e.ends ∈ g.edges.keys
      · simp only [perform, tryAddEdge_of_mem hmem]
        exact (List.append_nil _).symm
      · simp only [perform, tryAddEdge_of_not_mem hmem, joined?]
        rw [Roster.items_add, if_neg hmem]
        rfl

end CallGraph

/-- Requests on an empty call graph and empty tables are answered alike, and leave the one to be what
the other holds. -/
theorem CallTables.holds_dialogue (requests : List CallRequest) :
    (dialogue CallTables.perform {} requests).1 = (dialogue CallGraph.perform {} requests).1 ∧
      (dialogue CallTables.perform {} requests).2.Holds
        (dialogue CallGraph.perform {} requests).2 := by
  induction requests using List.reverseRecOn with
  | nil => exact ⟨rfl, rfl, rfl, rfl, fun _ => rfl, fun _ => rfl⟩
  | append_singleton requests r ih =>
    obtain ⟨hsame, hholds⟩ := ih
    obtain ⟨hanswer, hstep⟩ := hholds.perform r
    rw [dialogue_concat, dialogue_concat, hsame, hanswer]
    exact ⟨rfl, hstep⟩

/-- What holds of requests with their answers, of the tables that they leave, and of the call graph
that they leave. -/
structure CallsIndexed (past : List (CallRequest × Option Bool)) (t : CallTables) (g : CallGraph) :
    Prop where
  /-- Each listing of the call graph is one of a table. -/
  listings : t.edges.items = g.edges.items ∧ ∀ site m,
    t.edgesFrom site = g.edgesFrom site ∧ t.calleesOf site = g.calleesOf site ∧
      t.edgesInto m = g.edgesInto m ∧ t.callersOf m = g.callersOf m
  /-- Between a call site and a method there is one edge at most. -/
  unique : ∀ e ∈ g.edges.items, ∀ e' ∈ g.edges.items, e.ends = e'.ends → e = e'
  /-- It is the one that was added first, with the kind that it had then. -/
  first : ∀ e, e ∈ g.edges.items ↔ ∃ before after,
    (past.map Prod.fst).filterMap joined? = before ++ e :: after ∧ ∀ d ∈ before, d.ends ≠ e.ends
  /-- It is at its call site and at its callee. -/
  edgesFrom : ∀ e site, e ∈ g.edgesFrom site ↔ e ∈ g.edges.items ∧ e.site = site
  edgesInto : ∀ e m, e ∈ g.edgesInto m ↔ e ∈ g.edges.items ∧ e.callee = m
  /-- Its ends are callee and caller of each other. -/
  callees : ∀ site m, m ∈ g.calleesOf site ↔ ∃ e ∈ g.edges.items, e.ends = (site, m)
  callers : ∀ site m, site ∈ g.callersOf m ↔ ∃ e ∈ g.edges.items, e.ends = (site, m)
  /-- All listings are in the order in which their edges were new. -/
  order : g.edges.items = added past ∧ ∀ site m,
    g.edgesFrom site = (added past).filter (fun e => e.site = site) ∧
      g.calleesOf site = ((added past).filter fun e => e.site = site).map CallEdge.callee ∧
      g.edgesInto m = (added past).filter (fun e => e.callee = m) ∧
      g.callersOf m = ((added past).filter fun e => e.callee = m).map CallEdge.site
  /-- None of them lists anything twice. -/
  nodup : g.edges.items.Nodup ∧ ∀ site m,
    (g.edgesFrom site).Nodup ∧ (g.calleesOf site).Nodup ∧ (g.edgesInto m).Nodup ∧
      (g.callersOf m).Nodup
  /-- The number of edges is that of the additions that were told that their edge was new. -/
  size : g.edges.size = (added past).length
  /-- Methods are reachable by their own requests, in the order of the first ones. -/
  reachable : t.reachable = g.reachable ∧
    g.reachable = OrderedSet.ofList ((past.map Prod.fst).filterMap reached?)
  /-- So are entry methods. -/
  entries : t.entries = g.entries ∧
    g.entries = OrderedSet.ofList ((past.map Prod.fst).filterMap entered?)
  /-- An edge that is added leaves both as they are. -/
  still : ∀ e, (g.tryAddEdge e).2.reachable = g.reachable ∧ (g.tryAddEdge e).2.entries = g.entries

/-- Every request is answered. -/
theorem CallRequest.dialogue_requests {σ : Type} (perform : CallRequest → σ → Option Bool × σ)
    (start : σ) (requests : List CallRequest) :
    (dialogue perform start requests).1.map Prod.fst = requests := by
  induction requests using List.reverseRecOn with
  | nil => rfl
  | append_singleton requests r ih =>
    rw [dialogue_concat, List.map_append, ih]
    rfl

/-- **Whatever is asked of a call graph and of tables that are empty at first**, both give the same
answers, and the edges, those of each call site and those into each method agree. -/
theorem callGraph_indexed (requests : List CallRequest) :
    (dialogue CallTables.perform {} requests).1.map Prod.fst = requests ∧
      (dialogue CallGraph.perform {} requests).1 = (dialogue CallTables.perform {} requests).1 ∧
      CallsIndexed (dialogue CallTables.perform {} requests).1
        (dialogue CallTables.perform {} requests).2
        (dialogue CallGraph.perform {} requests).2 := by
  obtain ⟨hsame, hholds⟩ := CallTables.holds_dialogue requests
  have hrequests := dialogue_requests CallGraph.perform {} requests
  have hedges := CallGraph.items_edges_dialogue requests
  have hgraph := CallGraph.dialogue_eq requests
  rw [hsame]
  refine ⟨hrequests, rfl, ?_⟩
  generalize (dialogue CallGraph.perform {} requests).1 = past at *
  generalize (dialogue CallGraph.perform {} requests).2 = g at *
  generalize (dialogue CallTables.perform {} requests).2 = t at *
  exact
    { listings := by
        refine ⟨congrArg Roster.items hholds.edges, fun site m => ?_⟩
        refine ⟨hholds.leaving site, ?_, hholds.entering m, ?_⟩
        · exact congrArg (List.map CallEdge.callee) (hholds.leaving site)
        · exact congrArg (List.map CallEdge.site) (hholds.entering m)
      unique := fun _ he _ he' => CallGraph.eq_of_ends he he'
      first := fun e => by
        rw [hrequests, hgraph]
        exact Roster.mem_addAll_iff_first
      edgesFrom := fun _ _ => CallGraph.mem_edgesFrom
      edgesInto := fun _ _ => CallGraph.mem_edgesInto
      callees := fun _ _ => CallGraph.mem_calleesOf
      callers := fun _ _ => CallGraph.mem_callersOf
      order := by
        rw [← hedges]
        exact ⟨rfl, fun site m => ⟨rfl, rfl, rfl, rfl⟩⟩
      nodup := ⟨g.nodup_edges, fun site m => ⟨g.nodup_edges.filter _, g.nodup_calleesOf site,
        g.nodup_edges.filter _, g.nodup_callersOf m⟩⟩
      size := congrArg List.length hedges
      reachable := ⟨hholds.reachable, by rw [hrequests, hgraph]⟩
      entries := ⟨hholds.entries, by rw [hrequests, hgraph]⟩
      still := g.tryAddEdge_frame }

end PointsTo
