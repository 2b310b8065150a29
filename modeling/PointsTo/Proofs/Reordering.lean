import Mathlib.Logic.Equiv.Defs
import PointsTo.Proofs.Counterparts

/-!
Programs that differ in nothing but order: that of the classes, of the methods in each class and of
the statements in each body. A place names a statement by its index, so a permutation for each
method says where its statements go. Reordered methods are counterparts, so that whatever is looked
up by name is the same in both programs up to the order inside.
-/
namespace PointsTo

/-- Where the statements of each method go, by their indices. -/
abbrev Shuffle := MethodName → Equiv.Perm Nat

def Shuffle.symm (σ : Shuffle) : Shuffle := fun name => (σ name).symm

/-- The second body has the statements of the first in another order, and is the same otherwise. -/
def Body.Reordered (σ : Equiv.Perm Nat) (b b' : Body) : Prop :=
  b' = { b with statements := b'.statements } ∧ ∀ i, b'.statements[σ i]? = b.statements[i]?

def Method.Reordered (σ : Shuffle) (m m' : Method) : Prop :=
  m' = { m with body := m'.body } ∧ Option.Rel (Body.Reordered (σ m.id)) m.body m'.body

def Class.Reordered (σ : Shuffle) (c c' : Class) : Prop :=
  c' = { c with methods := c'.methods } ∧
    Multiset.Rel (Method.Reordered σ) (c.methods.items : Multiset Method) c'.methods.items

/-- The second program has the classes of the first in another order, each with its methods in
another order, and these with their statements in another order. -/
def Program.Reordered (σ : Shuffle) (p p' : Program) : Prop :=
  Multiset.Rel (Class.Reordered σ) (p.classes.items : Multiset Class) p'.classes.items

/-! ### Permutations of a list -/

/-- The permutation that leaves zero where it is and does to all other numbers what the given one
does one lower. -/
def shifted (σ : Equiv.Perm Nat) : Equiv.Perm Nat where
  toFun
    | 0 => 0
    | i + 1 => σ i + 1
  invFun
    | 0 => 0
    | i + 1 => σ.symm i + 1
  left_inv i := by cases i <;> simp
  right_inv i := by cases i <;> simp

theorem exists_perm_getElem? {α : Type} {l l' : List α} (h : l.Perm l') :
    ∃ σ : Equiv.Perm Nat, ∀ i, l'[σ i]? = l[i]? := by
  induction h with
  | nil => exact ⟨.refl _, fun _ => rfl⟩
  | cons a _ ih =>
    obtain ⟨σ, hσ⟩ := ih
    refine ⟨shifted σ, fun i => ?_⟩
    cases i with
    | zero => rfl
    | succ i => exact hσ i
  | swap a b l =>
    refine ⟨Equiv.swap 0 1, fun i => ?_⟩
    match i with
    | 0 => rfl
    | 1 => rfl
    | i + 2 => rw [Equiv.swap_apply_of_ne_of_ne (by omega) (by omega)]; rfl
  | trans _ _ ih ih' =>
    obtain ⟨σ, hσ⟩ := ih
    obtain ⟨τ, hτ⟩ := ih'
    exact ⟨σ.trans τ, fun i => (hτ (σ i)).trans (hσ i)⟩

/-- Any order of the statements is that of a reordered body. -/
theorem Body.exists_reordered {b : Body} {statements : List Statement}
    (h : b.statements.Perm statements) : ∃ σ, b.Reordered σ { b with statements } := by
  obtain ⟨σ, hσ⟩ := exists_perm_getElem? h
  exact ⟨σ, rfl, hσ⟩

/-! ### Bodies, methods and classes -/

section Parts

variable {σ : Shuffle}

namespace Body.Reordered

variable {τ : Equiv.Perm Nat} {b b' : Body} (h : b.Reordered τ b')

include h

theorem params : b'.params = b.params := by rw [h.1]

theorem receiver : b'.receiver = b.receiver := by rw [h.1]

theorem returned : b'.returned = b.returned := by rw [h.1]

theorem bound : b'.bound = b.bound := by
  rw [h.1]
  rfl

theorem symm : b'.Reordered τ.symm b := by
  refine ⟨?_, fun i => ?_⟩
  · rw [h.1]
  · rw [← h.2 (τ.symm i), Equiv.apply_symm_apply]

end Body.Reordered

namespace Method.Reordered

variable {m m' : Method} (h : m.Reordered σ m')

include h

theorem id : m'.id = m.id := by
  rw [h.1]
  rfl

theorem subsignature : m'.subsignature = m.subsignature := by
  rw [h.1]
  rfl

theorem signature : m'.signature = m.signature := by
  rw [h.1]
  rfl

theorem isAbstract : m'.isAbstract = m.isAbstract := by
  rw [h.1]
  rfl

theorem declaringClass : m'.declaringClass = m.declaringClass := by rw [h.1]

theorem returned : m'.body.bind Body.returned = m.body.bind Body.returned := by
  rcases rel_cases h.2 with ⟨hb, hb'⟩ | ⟨b, b', hb, hb', hbody⟩
  · rw [hb, hb']
  · rw [hb, hb']
    exact hbody.returned

theorem symm : m'.Reordered σ.symm m := by
  refine ⟨?_, ?_⟩
  · rw [h.1]
  · rw [h.id]
    rcases rel_cases h.2 with ⟨hb, hb'⟩ | ⟨b, b', hb, hb', hbody⟩
    · rw [hb, hb']
      exact .none
    · rw [hb, hb']
      exact .some hbody.symm

theorem statements (i : Nat) : m'.statements[σ m.id i]? = m.statements[i]? := by
  unfold Method.statements
  rcases rel_cases h.2 with ⟨hb, hb'⟩ | ⟨b, b', hb, hb', hbody⟩
  · rw [hb, hb']
    rfl
  · rw [hb, hb']
    exact hbody.2 i

/-- A statement stands in the reordered method where the permutation puts it. -/
theorem mem_statements {s : Statement} : s ∈ m'.statements ↔ s ∈ m.statements := by
  rw [List.mem_iff_getElem?, List.mem_iff_getElem?]
  constructor
  · rintro ⟨i, hi⟩
    refine ⟨(σ m.id).symm i, ?_⟩
    rw [← h.statements, Equiv.apply_symm_apply]
    exact hi
  · rintro ⟨i, hi⟩
    exact ⟨σ m.id i, (h.statements i).trans hi⟩

theorem owned (howned : m.Owned) : m'.Owned := by
  refine ⟨fun s hs v hv => ?_, fun body' hbody' v hv => ?_⟩
  · rw [h.signature]
    exact howned.statements s (h.mem_statements.1 hs) v hv
  · rw [h.signature]
    rcases rel_cases h.2 with ⟨-, hb'⟩ | ⟨b, b', hb, hb', hbody⟩
    · rw [hb'] at hbody'
      cases hbody'
    · rw [hb'] at hbody'
      obtain rfl := Option.some.inj hbody'
      rw [hbody.bound] at hv
      exact howned.bound b hb v hv

end Method.Reordered

namespace Class.Reordered

variable {c c' : Class} (h : c.Reordered σ c')

include h

theorem symm : c'.Reordered σ.symm c := by
  refine ⟨by rw [h.1], ?_⟩
  exact Multiset.rel_flip.1 (h.2.mono fun _ _ _ _ hm => hm.symm)

theorem proper (hc : c.Proper) : c'.Proper := by
  have hname : c'.name = c.name := by rw [h.1]
  have source : ∀ m' ∈ c'.methods.items, ∃ m ∈ c.methods.items, m.Reordered σ m' := fun m' hm' =>
    Multiset.exists_mem_of_rel_of_mem (Multiset.rel_flip.2 h.2) hm'
  refine ⟨?_, fun m' hm' => ?_, fun m' hm' => ?_⟩
  · rw [hname]
    exact hc.blankless
  · obtain ⟨m, hm, hmethod⟩ := source m' hm'
    rw [hmethod.declaringClass, hname]
    exact hc.declared m hm
  · obtain ⟨m, hm, hmethod⟩ := source m' hm'
    exact hmethod.owned (hc.owned m hm)

end Class.Reordered

end Parts

/-! ### Programs -/

/-- Reordered methods as counterparts. -/
def reorderings (σ : Shuffle) : Counterpart where
  Rel := Method.Reordered σ
  subsignature h := h.subsignature
  isAbstract h := h.isAbstract

namespace Program.Reordered

variable {σ : Shuffle} {p p' : Program} (h : p.Reordered σ p')

include h

theorem symm : p'.Reordered σ.symm p :=
  Multiset.rel_flip.1 (Multiset.Rel.mono h fun _ _ _ _ hc => hc.symm)

theorem proper (hp : p.Proper) : p'.Proper := by
  intro c' hc'
  obtain ⟨c, hc, hclass⟩ := Multiset.exists_mem_of_rel_of_mem (Multiset.rel_flip.2 h) hc'
  exact hclass.proper (hp c hc)

/-- Whatever is looked up in a reordered program is found in its order. -/
theorem counterparts : p.Matches (reorderings σ) p' := h

end Program.Reordered

/-! ### A program read backwards -/

/-- The permutation that turns the first numbers around and leaves the others where they are. -/
def mirror (n : Nat) : Equiv.Perm Nat :=
  Function.Involutive.toPerm (fun i => if i < n then n - 1 - i else i) fun i => by
    by_cases hi : i < n
    · have hlt : n - 1 - i < n := by omega
      simp only [if_pos hi, if_pos hlt]
      omega
    · simp only [if_neg hi]

theorem getElem?_reverse_mirror {α : Type} (l : List α) (i : Nat) :
    l.reverse[mirror l.length i]? = l[i]? := by
  change l.reverse[if i < l.length then l.length - 1 - i else i]? = l[i]?
  split
  · next hi =>
    rw [List.getElem?_reverse (by omega), show l.length - 1 - (l.length - 1 - i) = i by omega]
  · next hi =>
    rw [List.getElem?_eq_none (by simpa using hi), List.getElem?_eq_none (by simpa using hi)]

/-- The roster backwards, with every item changed to one of the same key. -/
def Roster.mirrored {α κ : Type} {key : α → κ} (f : α → α) (same : ∀ a, key (f a) = key a)
    (r : Roster key) : Roster key :=
  ⟨(r.items.map f).reverse, by
    have hkeys : r.items.map (key ∘ f) = r.items.map key := List.map_congr_left fun a _ => same a
    rw [List.map_reverse, List.nodup_reverse, List.map_map, hkeys]
    exact r.nodup⟩

theorem Roster.rel_mirrored {α κ : Type} {key : α → κ} {R : α → α → Prop} {f : α → α}
    (same : ∀ a, key (f a) = key a) {r : Roster key} (h : ∀ a ∈ r.items, R a (f a)) :
    Multiset.Rel R (r.items : Multiset α) (r.mirrored f same).items := by
  change Multiset.Rel R (r.items : Multiset α) ((r.items.map f).reverse : List α)
  rw [Multiset.coe_reverse, ← Multiset.map_coe, Multiset.rel_map_right]
  exact Multiset.rel_refl_of_refl_on h

def Method.mirrored (m : Method) : Method :=
  { m with body := m.body.map fun b => { b with statements := b.statements.reverse } }

theorem Method.subsignature_mirrored (m : Method) : m.mirrored.subsignature = m.subsignature := rfl

def Class.mirrored (c : Class) : Class :=
  { c with methods := c.methods.mirrored Method.mirrored Method.subsignature_mirrored }

theorem Class.name_mirrored (c : Class) : c.mirrored.name = c.name := rfl

/-- The program with its classes, their methods and the statements of these backwards. -/
def Program.mirrored (p : Program) : Program :=
  ⟨p.classes.mirrored Class.mirrored Class.name_mirrored⟩

def Program.mirror (p : Program) : Shuffle := fun name =>
  PointsTo.mirror ((p.method? name).elim 0 fun m => m.statements.length)

theorem Program.Proper.reordered_mirrored {p : Program} (hp : p.Proper) :
    p.Reordered p.mirror p.mirrored := by
  refine Roster.rel_mirrored Class.name_mirrored fun c hc =>
    ⟨rfl, Roster.rel_mirrored Method.subsignature_mirrored fun m hm => ⟨rfl, ?_⟩⟩
  have hmirror : p.mirror m.id = PointsTo.mirror m.statements.length := by
    unfold Program.mirror
    rw [hp.method?_id (Program.mem_methods.2 ⟨c, hc, hm⟩)]
    rfl
  rw [hmirror]
  unfold Method.mirrored Method.statements
  cases m.body with
  | none => exact .none
  | some b => exact .some ⟨rfl, getElem?_reverse_mirror b.statements⟩

end PointsTo
