import PointsTo.Proofs.Storage

/-!
A pointer has one node for ever. The flow graph answers requests as its storage does, whatever is
asked in whatever order, and the two show the same nodes under the same handles and the same edges
in the same order.
-/
namespace PointsTo

/-! ### Requests to a flow graph -/

namespace FlowGraph

/-- Asks for the node of a label. -/
def ask (g : FlowGraph) : Label → FlowGraph
  | .static f => g.touchStatic f
  | l => g.touch l.pointer

def perform : GraphRequest → FlowGraph → GraphAnswer × FlowGraph
  | .get l, g => (.node ((g.ask l).handle? l.pointer), g.ask l)
  | .find l, g => (.node (g.handle? l.pointer), g)
  | .connect source target, g =>
    match g.pointer? source, g.pointer? target with
    | some p, some q =>
      let (isNew, g) := g.tryAddEdge p q
      (.edge isNew, g)
    | _, _ => (.unknownHandle, g)

/-- Handles and pointers are each other's inverses. -/
theorem handle?_eq_some_iff {g : FlowGraph} {p : Pointer} {h : Nat} :
    g.handle? p = some h ↔ g.pointer? h = some p := by
  unfold handle? pointer? Roster.indexOf?
  rw [List.idxOf?_eq_some_iff]
  constructor
  · intro hfirst
    obtain ⟨hlt, heq, -⟩ := hfirst
    rw [List.getElem?_eq_getElem hlt, heq]
  · intro hget
    obtain ⟨hlt, heq⟩ := List.getElem?_eq_some_iff.1 hget
    refine ⟨hlt, heq, fun j hj hsame => ?_⟩
    have hindex := (List.getElem_inj g.nodes.keys_nodup).1 (hsame.trans heq.symm)
    omega

theorem tryAddEdge_of_mem {g : FlowGraph} {p q : Pointer} (h : (p, q) ∈ g.edges.items) :
    g.tryAddEdge p q = (false, g) := by
  have hmem : (p, q) ∈ g.edges.keys := by rwa [OrderedSet.keys_eq_items]
  rw [tryAddEdge, Roster.tryAdd, Roster.add_of_mem hmem, Roster.contains_iff.2 hmem]
  rfl

theorem tryAddEdge_of_not_mem {g : FlowGraph} {p q : Pointer} (h : (p, q) ∉ g.edges.items) :
    g.tryAddEdge p q = (true, { g with edges := g.edges.add (p, q) }) := by
  have hnot : (p, q) ∉ g.edges.keys := by rwa [OrderedSet.keys_eq_items]
  rw [tryAddEdge, Roster.tryAdd, Roster.contains_eq_false.2 hnot]
  rfl

theorem ask_nodes (g : FlowGraph) (l : Label) : (g.ask l).nodes = g.nodes.add ⟨l.pointer, ∅⟩ := by
  cases l <;> rfl

theorem ask_edges (g : FlowGraph) (l : Label) : (g.ask l).edges = g.edges := by
  cases l <;> rfl

end FlowGraph

namespace Storage

/-! ### The flow graph and its storage -/

/-- The flow graph has the nodes of the storage, and its edges in order of time. -/
structure Stores (edges : List (Nat × Nat)) (t : Storage) (g : FlowGraph) : Prop where
  nodes : g.nodes.keys = t.cells.map Cell.pointer
  statics : ∀ f, f ∈ g.statics.keys ↔ Pointer.static f ∈ g.nodes.keys
  edges : g.edges.items = edges.map fun e => (t.pointerAt e.1, t.pointerAt e.2)

namespace Stores

variable {edges : List (Nat × Nat)} {t : Storage} {g : FlowGraph}

theorem pointer?_eq (h : Stores edges t g) (handle : Nat) :
    g.pointer? handle = (t.cells[handle]?).map Cell.pointer := by
  rw [FlowGraph.pointer?, h.nodes, List.getElem?_map]

theorem handle?_eq (h : Stores edges t g) (sound : t.Sound) (l : Label) :
    g.handle? l.pointer = (t.find l).map Cell.handle := by
  apply Option.ext
  intro k
  rw [FlowGraph.handle?_eq_some_iff, h.pointer?_eq, Option.map_eq_some_iff, Option.map_eq_some_iff]
  constructor
  · intro hk
    obtain ⟨c, hc, hpointer⟩ := hk
    exact ⟨c, sound.find_eq_some_iff.2 ⟨List.mem_of_getElem? hc, hpointer⟩, sound.handles k c hc⟩
  · intro hk
    obtain ⟨c, hc, rfl⟩ := hk
    obtain ⟨hmem, hpointer⟩ := sound.find_eq_some_iff.1 hc
    exact ⟨c, sound.getElem?_handle hmem, hpointer⟩

theorem statics_ask (h : Stores edges t g) (l : Label) (f : FieldName) :
    f ∈ (g.ask l).statics.keys ↔ Pointer.static f ∈ (g.ask l).nodes.keys := by
  rw [FlowGraph.ask_nodes, Roster.mem_keys_add]
  cases l with
  | static k =>
    show f ∈ (g.statics.add k).keys ↔ _ ∨ Pointer.static f = Pointer.static k.id
    rw [Roster.mem_keys_add, h.statics, Pointer.static.injEq]
  | var | field | element =>
    show f ∈ g.statics.keys ↔ _ ∨ Pointer.static f = _
    rw [h.statics]
    simp [Label.pointer]

theorem ask (h : Stores edges t g) (sound : t.Sound) (linked : Linked edges t) (l : Label) :
    Stores edges (t.get l).2 (g.ask l) := by
  refine ⟨?_, h.statics_ask l, ?_⟩
  · have hkey : l.pointer ∈ g.nodes.keys ↔ ∃ c ∈ t.cells, c.pointer = l.pointer := by
      rw [h.nodes, List.mem_map]
    rw [FlowGraph.ask_nodes, Roster.keys_add]
    rcases sound.get_cases l with ⟨c, hc, hpointer, hget⟩ | ⟨hnew, -, hcells⟩
    · rw [if_pos (hkey.2 ⟨c, hc, hpointer⟩), hget, h.nodes]
    · rw [if_neg fun hmem => ?_, hcells, List.map_append, h.nodes]
      · rfl
      · obtain ⟨c, hc, hpointer⟩ := hkey.1 hmem
        exact hnew c hc hpointer
  · rw [FlowGraph.ask_edges, h.edges]
    refine List.map_congr_left fun e he => ?_
    obtain ⟨hsource, htarget⟩ := linked.joined e he
    rw [pointerAt_eq_of_cells (t.cells_get_extend l) hsource,
      pointerAt_eq_of_cells (t.cells_get_extend l) htarget]

/-- An edge is in the graph just where its handles are in the list. -/
theorem mem_edges (h : Stores edges t g) (sound : t.Sound) (linked : Linked edges t) {a b : Cell}
    (ha : a ∈ t.cells) (hb : b ∈ t.cells) :
    (a.pointer, b.pointer) ∈ g.edges.items ↔ (a.handle, b.handle) ∈ edges := by
  have registered : ∀ c ∈ t.cells, c.handle < t.cells.length := fun c hc =>
    (List.getElem?_eq_some_iff.1 (sound.getElem?_handle hc)).1
  rw [h.edges, List.mem_map]
  constructor
  · intro hmem
    obtain ⟨e, he, heq⟩ := hmem
    obtain ⟨hsource, htarget⟩ := linked.joined e he
    rw [← sound.pointerAt_handle ha, ← sound.pointerAt_handle hb, Prod.mk.injEq,
      sound.pointerAt_inj hsource (registered a ha),
      sound.pointerAt_inj htarget (registered b hb)] at heq
    obtain ⟨hsame, hsame'⟩ := heq
    rw [← hsame, ← hsame']
    exact he
  · intro hmem
    exact ⟨_, hmem, by rw [sound.pointerAt_handle ha, sound.pointerAt_handle hb]⟩

end Stores

/-- **Graph and storage give the same answer to every request**, and the graph goes on to be that
of the storage. -/
theorem Stores.perform {past : List (GraphRequest × GraphAnswer)} {t : Storage} {g : FlowGraph}
    (h : Stores (added past) t g) (recorded : Recorded past t) (r : GraphRequest) :
    (g.perform r).1 = (t.perform r).1 ∧
      Stores (added (past ++ [(r, (t.perform r).1)])) (t.perform r).2 (g.perform r).2 := by
  obtain ⟨sound, linked, -⟩ := recorded
  cases r with
  | get l =>
    have hstores := h.ask sound linked l
    refine ⟨?_, by rw [added_concat_get]; exact hstores⟩
    obtain ⟨hmem, hpointer⟩ := sound.get_mem l
    have hfind := (sound.get_sound l).find_eq_some_iff.2 ⟨hmem, hpointer⟩
    show GraphAnswer.node ((g.ask l).handle? l.pointer) = .node (some (t.get l).1.handle)
    rw [hstores.handle?_eq (sound.get_sound l), hfind]
    rfl
  | find l =>
    refine ⟨congrArg GraphAnswer.node (h.handle?_eq sound l), ?_⟩
    rw [added_concat_find]
    exact h
  | connect source target =>
    rw [added_concat_connect]
    rcases t.perform_connect source target with ⟨a, b, ha, hb, heq⟩ | ⟨hnone, heq⟩
    · have hgraph : g.perform (.connect source target) =
          (.edge (g.tryAddEdge a.pointer b.pointer).1, (g.tryAddEdge a.pointer b.pointer).2) := by
        simp only [FlowGraph.perform, h.pointer?_eq, ha, hb]
        rfl
      obtain rfl := sound.handles source a ha
      obtain rfl := sound.handles target b hb
      have hmem := h.mem_edges sound linked (List.mem_of_getElem? ha) (List.mem_of_getElem? hb)
      rw [← linked.mem_successors] at hmem
      rw [heq, hgraph]
      by_cases hold : b.handle ∈ t.successors a.handle
      · rw [connect_of_mem hold, FlowGraph.tryAddEdge_of_mem (hmem.2 hold)]
        exact ⟨rfl, h⟩
      · rw [connect_of_not_mem hold, FlowGraph.tryAddEdge_of_not_mem (mt hmem.1 hold)]
        refine ⟨rfl, h.nodes, h.statics, ?_⟩
        have hnew : (a.pointer, b.pointer) ∉ g.edges.keys := by
          rw [OrderedSet.keys_eq_items]
          exact mt hmem.1 hold
        show (g.edges.add (a.pointer, b.pointer)).items = _
        rw [if_pos rfl, Roster.items_add, if_neg hnew, h.edges, List.map_append,
          List.map_singleton]
        show _ ++ [(a.pointer, b.pointer)] =
          _ ++ [(t.pointerAt a.handle, t.pointerAt b.handle)]
        rw [sound.pointerAt_handle (List.mem_of_getElem? ha),
          sound.pointerAt_handle (List.mem_of_getElem? hb)]
        rfl
    · have hgraph : g.perform (.connect source target) = (.unknownHandle, g) := by
        simp only [FlowGraph.perform, h.pointer?_eq]
        rcases hnone with hnone | hnone
        · rw [hnone]
          rfl
        · rw [hnone]
          cases t.cells[source]? <;> rfl
      rw [heq, hgraph]
      exact ⟨rfl, h⟩

/-! ### What both show -/

namespace Stores

variable {edges : List (Nat × Nat)} {t : Storage} {g : FlowGraph} (h : Stores edges t g)
  (sound : t.Sound) (linked : Linked edges t)

include h sound linked

end Stores

end Storage

end PointsTo
