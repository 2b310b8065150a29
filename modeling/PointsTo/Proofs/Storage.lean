import Mathlib.Data.List.Induction
import Mathlib.Data.List.Nodup
import Mathlib.Logic.Function.Basic
import PointsTo.FlowGraph

/-!
How a flow graph can be stored: a list of cells, whose places are their handles, with a table of
cells for each kind of pointer, a table of targets by source, and a count of edges. Requests come in
any order, and whatever they are, the parts of the storage agree with each other and with what was
answered.
-/
namespace PointsTo

/-! ### Requests -/

/-- What a node is asked for by. Types, and whether a field is static, tell no pointers apart. -/
inductive Label where
  | var (l : Local)
  | static (f : Field)
  | field (base : ObjectId) (f : Field)
  | element (array : ObjectId)

def Label.pointer : Label → Pointer
  | var l => .var l.var
  | static f => .static f.id
  | field base f => .field base f.id
  | element array => .element array

/-- A request to a graph. Edges are asked for by the handles of nodes. -/
inductive GraphRequest where
  | get (l : Label)
  | find (l : Label)
  | connect (source target : Nat)

inductive GraphAnswer where
  | node (handle : Option Nat)
  | edge (isNew : Bool)
  | unknownHandle
deriving DecidableEq

/-- The edges that were new when they were asked for, in order of time. -/
def added (past : List (GraphRequest × GraphAnswer)) : List (Nat × Nat) :=
  past.filterMap fun
    | (.connect source target, .edge true) => some (source, target)
    | _ => none

/-! ### Storage -/

/-- A stored node: its handle, and what it was first asked for by. -/
structure Cell where
  handle : Nat
  label : Label

def Cell.pointer (c : Cell) : Pointer := c.label.pointer

/-- A flow graph as it can be stored. -/
structure Storage where
  cells : List Cell := []
  table : PointerKind → Roster Cell.pointer := fun _ => ∅
  targets : Roster (Prod.fst : Nat × OrderedSet Nat → Nat) := ∅
  edgeCount : Nat := 0

namespace Storage

def find (t : Storage) (l : Label) : Option Cell := (t.table l.pointer.kind).get? l.pointer

/-- The cell of a label, a new one if there is none. -/
def get (t : Storage) (l : Label) : Cell × Storage :=
  match t.find l with
  | some c => (c, t)
  | none =>
    let c : Cell := ⟨t.cells.length, l⟩
    let table := (t.table l.pointer.kind).put c
    (c, { t with
      cells := t.cells ++ [c]
      table := Function.update t.table l.pointer.kind table })

def targetsOf (t : Storage) (source : Nat) : OrderedSet Nat :=
  ((t.targets.get? source).map Prod.snd).getD ∅

/-- Adds an edge and says whether it is new. -/
def connect (t : Storage) (source target : Cell) : Bool × Storage :=
  let targets := t.targetsOf source.handle
  if targets.contains target.handle then (false, t)
  else (true, { t with
    targets := t.targets.put (source.handle, targets.add target.handle)
    edgeCount := t.edgeCount + 1 })

def hasEdge (t : Storage) (source target : Nat) : Bool := (t.targetsOf source).contains target

def successors (t : Storage) (source : Nat) : List Nat := (t.targetsOf source).items

def edges (t : Storage) : List (Nat × Nat) :=
  t.targets.items.flatMap fun (source, targets) => targets.items.map fun target => (source, target)

def perform : GraphRequest → Storage → GraphAnswer × Storage
  | .get l, t =>
    let (c, t) := t.get l
    (.node (some c.handle), t)
  | .find l, t => (.node ((t.find l).map Cell.handle), t)
  | .connect source target, t =>
    match t.cells[source]?, t.cells[target]? with
    | some a, some b =>
      let (isNew, t) := t.connect a b
      (.edge isNew, t)
    | _, _ => (.unknownHandle, t)

/-- The pointer of a handle. -/
def pointerAt (t : Storage) (h : Nat) : Pointer := ((t.cells[h]?).map Cell.pointer).getD default

/-! ### What requests keep -/

/-- The cells have their places as handles, and each is in the table of its kind only. -/
structure Sound (t : Storage) : Prop where
  handles : ∀ (h : Nat) (c : Cell), t.cells[h]? = some c → c.handle = h
  tables : ∀ kind, (t.table kind).items = t.cells.filter fun c => c.pointer.kind = kind

namespace Sound

variable {t : Storage} (sound : t.Sound)

include sound

theorem getElem?_handle {c : Cell} (hc : c ∈ t.cells) : t.cells[c.handle]? = some c := by
  obtain ⟨h, hget⟩ := List.mem_iff_getElem?.1 hc
  rw [sound.handles h c hget, hget]

theorem find_eq_some_iff {l : Label} {c : Cell} :
    t.find l = some c ↔ c ∈ t.cells ∧ c.pointer = l.pointer := by
  unfold find
  rw [Roster.get?_eq_some, sound.tables, List.mem_filter, decide_eq_true_eq]
  constructor
  · intro h
    exact ⟨h.1.1, h.2⟩
  · intro h
    exact ⟨⟨h.1, congrArg Pointer.kind h.2⟩, h.2⟩

/-- A pointer has one cell. -/
theorem eq_of_pointer {c c' : Cell} (hc : c ∈ t.cells) (hc' : c' ∈ t.cells)
    (h : c.pointer = c'.pointer) : c = c' := by
  have hfound : t.find c'.label = some c := sound.find_eq_some_iff.2 ⟨hc, h⟩
  have hfound' : t.find c'.label = some c' := sound.find_eq_some_iff.2 ⟨hc', rfl⟩
  exact Option.some.inj (hfound.symm.trans hfound')

theorem find_eq_none_iff {l : Label} : t.find l = none ↔ ∀ c ∈ t.cells, c.pointer ≠ l.pointer := by
  rw [Option.eq_none_iff_forall_ne_some]
  constructor
  · intro h c hc hpointer
    exact h c (sound.find_eq_some_iff.2 ⟨hc, hpointer⟩)
  · intro h c hfind
    obtain ⟨hc, hpointer⟩ := sound.find_eq_some_iff.1 hfind
    exact h c hc hpointer

/-- A label has a cell, which is found and changes nothing, or it gets the next handle. -/
theorem get_cases (l : Label) :
    (∃ c ∈ t.cells, c.pointer = l.pointer ∧ t.get l = (c, t)) ∨
      ((∀ c ∈ t.cells, c.pointer ≠ l.pointer) ∧ (t.get l).1 = ⟨t.cells.length, l⟩ ∧
        (t.get l).2.cells = t.cells ++ [⟨t.cells.length, l⟩]) := by
  unfold get
  cases hfind : t.find l with
  | some c =>
    obtain ⟨hmem, hpointer⟩ := sound.find_eq_some_iff.1 hfind
    exact .inl ⟨c, hmem, hpointer, rfl⟩
  | none => exact .inr ⟨sound.find_eq_none_iff.1 hfind, rfl, rfl⟩

theorem get_sound (l : Label) : (t.get l).2.Sound := by
  unfold get
  cases hfind : t.find l with
  | some c => exact sound
  | none =>
    have hnew : l.pointer ∉ (t.table l.pointer.kind).keys := Roster.get?_eq_none.1 hfind
    refine ⟨fun h c hget => ?_, fun kind => ?_⟩
    · dsimp only at hget
      rcases Nat.lt_or_ge h t.cells.length with hlt | hge
      · rw [List.getElem?_append_left hlt] at hget
        exact sound.handles h c hget
      · rw [List.getElem?_append_right hge, List.getElem?_singleton] at hget
        split at hget
        · next hzero =>
          cases hget
          show t.cells.length = h
          omega
        · cases hget
    · dsimp only
      rw [List.filter_append, Function.update_apply, ← sound.tables kind]
      by_cases hkind : kind = l.pointer.kind
      · subst hkind
        rw [if_pos rfl, Roster.items_put_of_not_mem hnew,
          List.filter_cons_of_pos (by simp [Cell.pointer]), List.filter_nil]
      · rw [if_neg hkind, List.filter_cons_of_neg (by simp [Cell.pointer, Ne.symm hkind]),
          List.filter_nil, List.append_nil]

theorem get_mem (l : Label) :
    (t.get l).1 ∈ (t.get l).2.cells ∧ (t.get l).1.pointer = l.pointer := by
  rcases sound.get_cases l with ⟨c, hc, hpointer, hget⟩ | ⟨-, hcell, hcells⟩
  · rw [hget]
    exact ⟨hc, hpointer⟩
  · rw [hcells, hcell]
    exact ⟨List.mem_append_right _ List.mem_cons_self, rfl⟩

theorem pointerAt_handle {c : Cell} (hc : c ∈ t.cells) : t.pointerAt c.handle = c.pointer := by
  rw [pointerAt, sound.getElem?_handle hc]
  rfl

/-- Two handles have two pointers. -/
theorem pointerAt_inj {h h' : Nat} (hlt : h < t.cells.length) (hlt' : h' < t.cells.length) :
    t.pointerAt h = t.pointerAt h' ↔ h = h' := by
  refine ⟨fun heq => ?_, fun heq => heq ▸ rfl⟩
  have hget := List.getElem?_eq_getElem hlt
  have hget' := List.getElem?_eq_getElem hlt'
  rw [pointerAt, pointerAt, hget, hget'] at heq
  have hcell := sound.eq_of_pointer (List.getElem_mem hlt) (List.getElem_mem hlt') heq
  rw [← sound.handles h _ hget, ← sound.handles h' _ hget', hcell]

end Sound

theorem cells_get_extend (t : Storage) (l : Label) : t.cells <+: (t.get l).2.cells := by
  unfold get
  cases t.find l with
  | some c => exact List.prefix_rfl
  | none => exact List.prefix_append _ _

theorem get_targets (t : Storage) (l : Label) : (t.get l).2.targets = t.targets := by
  unfold get
  cases t.find l <;> rfl

theorem get_edgeCount (t : Storage) (l : Label) : (t.get l).2.edgeCount = t.edgeCount := by
  unfold get
  cases t.find l <;> rfl

/-- The cells that were there keep their handles and their pointers. -/
theorem pointerAt_eq_of_cells {t u : Storage} (hcells : t.cells <+: u.cells) {h : Nat}
    (hlt : h < t.cells.length) : u.pointerAt h = t.pointerAt h := by
  obtain ⟨more, hmore⟩ := hcells
  rw [pointerAt, pointerAt, ← hmore, List.getElem?_append_left hlt]

/-- The targets of every source are those of a list of edges, which is in order of time. -/
structure Linked (edges : List (Nat × Nat)) (t : Storage) : Prop where
  nodup : edges.Nodup
  joined : ∀ e ∈ edges, e.1 < t.cells.length ∧ e.2 < t.cells.length
  successors : ∀ h, t.successors h = (edges.filter fun e => e.1 = h).map Prod.snd
  sources : t.targets.keys = (OrderedSet.ofList (edges.map Prod.fst)).items
  count : t.edgeCount = edges.length

/-- The handles that requests were answered are those of cells for what they asked. -/
structure Answered (past : List (GraphRequest × GraphAnswer)) (t : Storage) : Prop where
  got : ∀ l answer, (.get l, answer) ∈ past →
    ∃ c ∈ t.cells, c.pointer = l.pointer ∧ answer = .node (some c.handle)
  found : ∀ l h, (.find l, .node (some h)) ∈ past →
    ∃ c ∈ t.cells, c.pointer = l.pointer ∧ c.handle = h

/-- The storage is what the requests and their answers say. -/
structure Recorded (past : List (GraphRequest × GraphAnswer)) (t : Storage) : Prop where
  sound : t.Sound
  linked : Linked (added past) t
  answered : Answered past t

theorem added_concat_get (past : List (GraphRequest × GraphAnswer)) (l : Label)
    (answer : GraphAnswer) :
    added (past ++ [(.get l, answer)]) = added past := by
  simp [added]

theorem added_concat_find (past : List (GraphRequest × GraphAnswer)) (l : Label)
    (answer : GraphAnswer) :
    added (past ++ [(.find l, answer)]) = added past := by
  simp [added]

theorem added_concat_connect (past : List (GraphRequest × GraphAnswer)) (source target : Nat)
    (answer : GraphAnswer) :
    added (past ++ [(.connect source target, answer)]) =
      if answer = .edge true then added past ++ [(source, target)] else added past := by
  unfold added
  rw [List.filterMap_append]
  cases answer with
  | edge isNew => cases isNew <;> simp
  | node | unknownHandle => simp

/-! ### Edges -/

theorem connect_of_mem {t : Storage} {a b : Cell} (h : b.handle ∈ t.successors a.handle) :
    t.connect a b = (false, t) := by
  have hcontains : (t.targetsOf a.handle).contains b.handle = true :=
    Roster.contains_iff.2 (by rwa [OrderedSet.keys_eq_items])
  unfold connect
  exact if_pos hcontains

theorem connect_of_not_mem {t : Storage} {a b : Cell} (h : b.handle ∉ t.successors a.handle) :
    t.connect a b = (true, { t with
      targets := t.targets.put (a.handle, (t.targetsOf a.handle).add b.handle)
      edgeCount := t.edgeCount + 1 }) := by
  have hcontains : ¬ (t.targetsOf a.handle).contains b.handle = true := by
    rwa [Roster.contains_iff, OrderedSet.keys_eq_items]
  unfold connect
  exact if_neg hcontains

/-- The targets of a source after an edge that is new. -/
theorem successors_connect {t : Storage} {a b : Cell} (h : b.handle ∉ t.successors a.handle)
    (source : Nat) :
    (t.connect a b).2.successors source =
      if a.handle = source then t.successors source ++ [b.handle] else t.successors source := by
  have hitems : ((t.targetsOf a.handle).add b.handle).items =
      t.successors a.handle ++ [b.handle] := by
    rw [Roster.items_add, if_neg (by rwa [OrderedSet.keys_eq_items])]
    rfl
  rw [connect_of_not_mem h]
  unfold successors targetsOf
  dsimp only
  rw [Roster.get?_put]
  by_cases hsource : a.handle = source
  · subst hsource
    rw [if_pos rfl, if_pos rfl]
    exact hitems
  · rw [if_neg hsource, if_neg hsource]

/-- An edge is asked for between two cells, or nothing is done. -/
theorem perform_connect (t : Storage) (source target : Nat) :
    (∃ a b, t.cells[source]? = some a ∧ t.cells[target]? = some b ∧
      t.perform (.connect source target) = (.edge (t.connect a b).1, (t.connect a b).2)) ∨
    ((t.cells[source]? = none ∨ t.cells[target]? = none) ∧
      t.perform (.connect source target) = (.unknownHandle, t)) := by
  simp only [perform]
  cases t.cells[source]? with
  | none => exact .inr ⟨.inl rfl, rfl⟩
  | some a =>
    cases t.cells[target]? with
    | none => exact .inr ⟨.inr rfl, rfl⟩
    | some b => exact .inl ⟨a, b, rfl, rfl, rfl⟩

namespace Linked

variable {edges : List (Nat × Nat)} {t : Storage} (linked : Linked edges t)

include linked

theorem mem_successors {source target : Nat} :
    target ∈ t.successors source ↔ (source, target) ∈ edges := by
  rw [linked.successors]
  simp

theorem get (l : Label) : Linked edges (t.get l).2 := by
  refine ⟨linked.nodup, fun e he => ?_, fun h => ?_, ?_, ?_⟩
  · obtain ⟨hsource, htarget⟩ := linked.joined e he
    have hle := (t.cells_get_extend l).length_le
    exact ⟨by omega, by omega⟩
  · rw [← linked.successors h]
    unfold Storage.successors targetsOf
    rw [get_targets]
  · rw [get_targets, linked.sources]
  · rw [get_edgeCount, linked.count]

theorem connect {a b : Cell} (ha : a.handle < t.cells.length) (hb : b.handle < t.cells.length)
    (hnew : b.handle ∉ t.successors a.handle) :
    Linked (edges ++ [(a.handle, b.handle)]) (t.connect a b).2 := by
  have hconnect := congrArg Prod.snd (connect_of_not_mem hnew)
  have hcells : (t.connect a b).2.cells = t.cells := by rw [hconnect]
  refine ⟨?_, fun e he => ?_, fun h => ?_, ?_, ?_⟩
  · refine List.nodup_append.2 ⟨linked.nodup, by simp, fun e he e' he' heq => ?_⟩
    obtain rfl := List.mem_singleton.1 he'
    exact hnew (linked.mem_successors.2 (heq ▸ he))
  · rw [hcells]
    rcases List.mem_append.1 he with he | he
    · exact linked.joined e he
    · cases List.mem_singleton.1 he
      exact ⟨ha, hb⟩
  · rw [successors_connect hnew, List.filter_append, List.map_append, ← linked.successors h]
    by_cases hh : a.handle = h
    · simp [hh]
    · simp [hh]
  · have hsources : OrderedSet.ofList ((edges ++ [(a.handle, b.handle)]).map Prod.fst) =
        (OrderedSet.ofList (edges.map Prod.fst)).add a.handle := by
      rw [List.map_append]
      exact List.foldl_concat ..
    rw [hsources, Roster.items_add, OrderedSet.keys_eq_items, ← linked.sources, hconnect]
    exact Roster.keys_put ..
  · rw [List.length_append, ← linked.count, hconnect]
    rfl

end Linked

/-- What was answered stays so while cells come behind those that are there. -/
theorem Answered.concat {past : List (GraphRequest × GraphAnswer)} {t u : Storage}
    (h : Answered past t)
    (hcells : t.cells <+: u.cells) {r : GraphRequest} {answer : GraphAnswer}
    (got : ∀ l, r = .get l → ∃ c ∈ u.cells, c.pointer = l.pointer ∧ answer = .node (some c.handle))
    (found : ∀ l k, r = .find l → answer = .node (some k) →
      ∃ c ∈ u.cells, c.pointer = l.pointer ∧ c.handle = k) :
    Answered (past ++ [(r, answer)]) u := by
  refine ⟨fun l a hmem => ?_, fun l k hmem => ?_⟩
  · rcases List.mem_append.1 hmem with hmem | hmem
    · obtain ⟨c, hc, hpointer, hanswer⟩ := h.got l a hmem
      exact ⟨c, hcells.subset hc, hpointer, hanswer⟩
    · cases List.mem_singleton.1 hmem
      exact got l rfl
  · rcases List.mem_append.1 hmem with hmem | hmem
    · obtain ⟨c, hc, hpointer, hhandle⟩ := h.found l k hmem
      exact ⟨c, hcells.subset hc, hpointer, hhandle⟩
    · cases List.mem_singleton.1 hmem
      exact found l k rfl rfl

/-- **Every request keeps the storage in accord with what was answered.** -/
theorem Recorded.perform {past : List (GraphRequest × GraphAnswer)} {t : Storage}
    (h : Recorded past t)
    (r : GraphRequest) : Recorded (past ++ [(r, (t.perform r).1)]) (t.perform r).2 := by
  cases r with
  | get l =>
    obtain ⟨hmem, hpointer⟩ := h.sound.get_mem l
    refine ⟨h.sound.get_sound l, by rw [added_concat_get]; exact h.linked.get l, ?_⟩
    refine h.answered.concat (t.cells_get_extend l) (fun l' hr => ?_) (fun _ _ hr => by cases hr)
    cases hr
    exact ⟨_, hmem, hpointer, rfl⟩
  | find l =>
    refine ⟨h.sound, by rw [added_concat_find]; exact h.linked, ?_⟩
    refine h.answered.concat List.prefix_rfl (fun _ hr => by cases hr) (fun l' k hr hanswer => ?_)
    cases hr
    obtain ⟨c, hfind, hhandle⟩ := Option.map_eq_some_iff.1 (GraphAnswer.node.inj hanswer)
    obtain ⟨hmem, hpointer⟩ := h.sound.find_eq_some_iff.1 hfind
    exact ⟨c, hmem, hpointer, hhandle⟩
  | connect source target =>
    have answered : ∀ {u : Storage} (answer : GraphAnswer), u.cells = t.cells →
        Answered (past ++ [(.connect source target, answer)]) u := fun answer hcells =>
      h.answered.concat (hcells ▸ List.prefix_rfl) (fun _ hr => by cases hr)
        (fun _ _ hr => by cases hr)
    have hadded := added_concat_connect past source target
    rcases t.perform_connect source target with ⟨a, b, ha, hb, heq⟩ | ⟨-, heq⟩
    · obtain rfl := h.sound.handles source a ha
      obtain rfl := h.sound.handles target b hb
      rw [heq]
      by_cases hmem : b.handle ∈ t.successors a.handle
      · rw [connect_of_mem hmem]
        refine ⟨h.sound, ?_, answered _ rfl⟩
        rw [hadded]
        exact h.linked
      · have hconnect := connect_of_not_mem hmem
        have linked := h.linked.connect (List.getElem?_eq_some_iff.1 ha).1
          (List.getElem?_eq_some_iff.1 hb).1 hmem
        rw [hconnect] at linked ⊢
        refine ⟨⟨h.sound.handles, h.sound.tables⟩, ?_, answered _ rfl⟩
        rw [hadded]
        exact linked
    · rw [heq]
      refine ⟨h.sound, ?_, answered _ rfl⟩
      rw [hadded]
      exact h.linked

end Storage

end PointsTo
