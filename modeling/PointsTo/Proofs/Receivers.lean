import PointsTo.Proofs.CallTargets
import PointsTo.Proofs.Defaults

/-!
What becomes of a call for a receiver type. A method is found if the part of the hierarchy that the
program has holds one to run. Otherwise the call is at fault as soon as all superclasses are known:
an interface that the program lacks is not asked for, though the method may stand in it.
-/
namespace PointsTo.Program

open Relation (ReflTransGen)

/-- A class of the superclass chain lists the interface, or lists one that leads to it. -/
def Superinterface (p : Program) (name interface : String) : Prop :=
  ∃ c, p.class? c.name = some c ∧ ReflTransGen p.Above c.name name ∧
    ∃ first ∈ c.interfaces, ReflTransGen (p.Links Class.interfaces) first interface

/-- The method is one to run, and it stands in a class of the superclass chain or in an interface of
one. -/
def Target (p : Program) (name subsignature : String) (m : Method) : Prop :=
  ∃ c, p.class? c.name = some c ∧ c.concrete? subsignature = some m ∧
    (ReflTransGen p.Above c.name name ∨ p.Superinterface name c.name)

/-- The program has the class and all its superclasses. -/
def ChainKnown (p : Program) (name : String) : Prop :=
  ∀ n, ReflTransGen p.Above n name → (p.class? n).isSome

/-- The program has all interfaces of the class and its superclasses. -/
def InterfacesKnown (p : Program) (name : String) : Prop :=
  ∀ i, p.Superinterface name i → (p.class? i).isSome

/-- The program has all that the class has methods from. -/
def Complete (p : Program) (name : String) : Prop := p.ChainKnown name ∧ p.InterfacesKnown name

section Receivers

variable {p : Program} {name subsignature : String} {m : Method}

theorem mem_interfacesOf (chains : p.FiniteChains) {c : Class} :
    c ∈ p.interfacesOf name ↔ p.class? c.name = some c ∧ p.Superinterface name c.name := by
  have climb := climbs_ancestry chains name
  unfold interfacesOf
  rw [mem_reachClasses]
  apply and_congr_right
  intro _
  constructor
  · rintro ⟨first, hfirst, hlinks⟩
    obtain ⟨d, hd, hlisted⟩ := List.mem_flatMap.1 hfirst
    obtain ⟨here, hup⟩ := climb.mem_classes.1 hd
    exact ⟨d, here, hup, first, hlisted, hlinks⟩
  · rintro ⟨d, here, hup, first, hlisted, hlinks⟩
    have hd := climb.mem_classes.2 ⟨here, hup⟩
    exact ⟨first, List.mem_flatMap.2 ⟨d, hd, hlisted⟩, hlinks⟩

/-- The classes in which a receiver looks for a method. -/
theorem mem_lookedUp (chains : p.FiniteChains) {c : Class} :
    c ∈ (p.ancestry name).classes ++ p.interfacesOf name ↔ p.class? c.name = some c ∧
      (ReflTransGen p.Above c.name name ∨ p.Superinterface name c.name) := by
  rw [List.mem_append, (climbs_ancestry chains name).mem_classes, mem_interfacesOf chains,
    and_or_left]

theorem target_of_dispatch (chains : p.FiniteChains) (h : p.dispatch name subsignature = some m) :
    p.Target name subsignature m := by
  obtain ⟨c, hc, hm⟩ := List.exists_of_findSome?_eq_some h
  obtain ⟨here, hwhere⟩ := (mem_lookedUp chains).1 hc
  exact ⟨c, here, hm, hwhere⟩

/-- Where there is nothing to run, nothing is found. -/
theorem dispatch_eq_none_iff (chains : p.FiniteChains) :
    p.dispatch name subsignature = none ↔ ¬ ∃ m, p.Target name subsignature m := by
  constructor
  · rintro h ⟨m, c, here, runs, hwhere⟩
    have hnone := List.findSome?_eq_none_iff.1 h c ((mem_lookedUp chains).2 ⟨here, hwhere⟩)
    have hsome : c.concrete? subsignature = none := hnone
    rw [runs] at hsome
    cases hsome
  · intro h
    cases hfound : p.dispatch name subsignature with
    | none => rfl
    | some m => exact absurd ⟨m, target_of_dispatch chains hfound⟩ h

theorem leavesProgram_eq_false_iff (chains : p.FiniteChains) :
    p.leavesProgram name = false ↔ p.ChainKnown name := by
  have hbeyond : p.leavesProgram name = true ↔ _ := (climbs_ancestry chains name).isSome_beyond
  rw [← Bool.not_eq_true, hbeyond]
  constructor
  · intro h n hup
    rw [Option.isSome_iff_ne_none]
    exact fun absent => h ⟨n, absent, hup⟩
  · rintro h ⟨n, absent, hup⟩
    have hsome := h n hup
    rw [absent] at hsome
    cases hsome

theorem complete_iff : p.Complete name ↔
    p.ChainKnown name ∧ ¬ ∃ i, p.Superinterface name i ∧ p.class? i = none := by
  unfold Complete
  apply and_congr_right
  intro _
  constructor
  · rintro known ⟨i, hsuper, absent⟩
    have hsome := known i hsuper
    rw [absent] at hsome
    cases hsome
  · intro h i hsuper
    rw [Option.isSome_iff_ne_none]
    exact fun absent => h ⟨i, hsuper, absent⟩

section Resolution

variable {call : Call} (kind : ¬ call.kind.isLinked = true) (type : String)

include kind

/-- A call that is not linked runs what the class of the receiver dispatches to; where that is
nothing, the superclass chain says what becomes of it. -/
theorem resolveCall_cases :
    (∃ m, p.dispatch (receiverClass type) call.callee.subsignature = some m ∧
      p.resolveCall (some type) call = .found m) ∨
    (p.dispatch (receiverClass type) call.callee.subsignature = none ∧
      p.leavesProgram (receiverClass type) = true ∧
      p.resolveCall (some type) call =
        .outside (receiverClass type) call.callee.subsignature) ∨
    (p.dispatch (receiverClass type) call.callee.subsignature = none ∧
      p.leavesProgram (receiverClass type) = false ∧
      p.resolveCall (some type) call =
        .missing (receiverClass type) call.callee.subsignature) := by
  unfold resolveCall
  rw [if_neg kind]
  dsimp only
  cases hfound : p.dispatch (receiverClass type) call.callee.subsignature with
  | some m => exact .inl ⟨m, rfl, rfl⟩
  | none =>
    right
    cases hleaves : p.leavesProgram (receiverClass type) with
    | true => exact .inl ⟨rfl, rfl, rfl⟩
    | false => exact .inr ⟨rfl, rfl, rfl⟩

theorem exists_found_iff : (∃ m, p.resolveCall (some type) call = .found m) ↔
    p.dispatch (receiverClass type) call.callee.subsignature ≠ none := by
  rcases resolveCall_cases (p := p) kind type with
    ⟨m, hsome, hfound⟩ | ⟨hnone, -, houtside⟩ | ⟨hnone, -, hmissing⟩
  · simp [hsome, hfound]
  · simp [hnone, houtside]
  · simp [hnone, hmissing]

theorem outside_iff :
    p.resolveCall (some type) call = .outside (receiverClass type) call.callee.subsignature ↔
      p.dispatch (receiverClass type) call.callee.subsignature = none ∧
        ¬ p.leavesProgram (receiverClass type) = false := by
  rcases resolveCall_cases (p := p) kind type with
    ⟨m, hsome, hfound⟩ | ⟨hnone, hleaves, houtside⟩ | ⟨-, hstays, hmissing⟩
  · simp [hsome, hfound]
  · simp [hnone, hleaves, houtside]
  · simp [hstays, hmissing]

theorem missing_iff :
    p.resolveCall (some type) call = .missing (receiverClass type) call.callee.subsignature ↔
      p.dispatch (receiverClass type) call.callee.subsignature = none ∧
        p.leavesProgram (receiverClass type) = false := by
  rcases resolveCall_cases (p := p) kind type with
    ⟨m, hsome, hfound⟩ | ⟨-, hleaves, houtside⟩ | ⟨hnone, hstays, hmissing⟩
  · simp [hsome, hfound]
  · simp [hleaves, houtside]
  · simp [hnone, hstays, hmissing]

/-- **A call is at fault if there is no target and the program has all superclasses.** It is skipped
if there is no target and a superclass is not in the program; a method is found, and it is a target,
if there is a target at all. So a fault is raised for an incomplete hierarchy just where it lacks
nothing but interfaces. -/
theorem resolveCall_receiver (chains : p.FiniteChains) :
    let name := receiverClass type
    let subsignature := call.callee.subsignature
    (∀ m, p.resolveCall (some type) call = .found m → p.Target name subsignature m) ∧
    ((∃ m, p.resolveCall (some type) call = .found m) ↔ ∃ m, p.Target name subsignature m) ∧
    (p.resolveCall (some type) call = .outside name subsignature ↔
      (¬ ∃ m, p.Target name subsignature m) ∧ ¬ p.ChainKnown name) ∧
    (p.resolveCall (some type) call = .missing name subsignature ↔
      (¬ ∃ m, p.Target name subsignature m) ∧ p.ChainKnown name) ∧
    (p.resolveCall (some type) call = .missing name subsignature ∧ ¬ p.Complete name ↔
      (¬ ∃ m, p.Target name subsignature m) ∧ p.ChainKnown name ∧
        ∃ i, p.Superinterface name i ∧ p.class? i = none) := by
  intro name subsignature
  have hnone : p.dispatch name subsignature = none ↔ _ := dispatch_eq_none_iff chains
  have hchain : p.leavesProgram name = false ↔ _ := leavesProgram_eq_false_iff chains
  have hmissing : p.resolveCall (some type) call = .missing name subsignature ↔
      (¬ ∃ m, p.Target name subsignature m) ∧ p.ChainKnown name := by
    rw [← hnone, ← hchain]
    exact missing_iff kind type
  refine ⟨fun m found => ?_, ?_, ?_, hmissing, ?_⟩
  · exact target_of_dispatch chains (dispatch_of_found kind found)
  · have hfound := exists_found_iff (p := p) kind type
    rwa [Ne, hnone, not_not] at hfound
  · rw [← hnone, ← hchain]
    exact outside_iff kind type
  · rw [hmissing, complete_iff, and_assoc]
    apply and_congr_right
    intro _
    constructor
    · rintro ⟨known, hincomplete⟩
      exact ⟨known, by_contra fun hall => hincomplete ⟨known, hall⟩⟩
    · rintro ⟨known, hlack⟩
      exact ⟨known, fun hcomplete => hcomplete.2 hlack⟩

end Resolution

end Receivers

/-- The program has the superclass of a class, and lacks its interface. -/
def unlistedText : String :=
  "class java.lang.Object\n\x7b\n\x7d\nclass A implements Lib\n\x7b\n\x7d\n"

def unlisted : Program := Jimple.programOf unlistedText

/-- A call of a method that is in none of its classes. -/
def unlistedCall : Call := ⟨.virtual, ⟨"A", "m", [], "void"⟩, none, [], none⟩

theorem unlisted_lacks :
    (∀ c ∈ unlisted.classes.items, ∀ above ∈ c.superclass,
      above = objectClass ∧ c.name ≠ objectClass) ∧
    (∀ c ∈ unlisted.classes.items, c.concrete? unlistedCall.callee.subsignature = none) ∧
    unlisted.leavesProgram "A" = false ∧
    ((unlisted.class? "A").any fun c => c.interfaces.contains "Lib") = true ∧
    unlisted.class? "Lib" = none := by
  decide +kernel

/-- The call is at fault although the method may stand in the interface that the program lacks. -/
theorem resolveCall_receiver_unlisted :
    unlisted.FiniteChains ∧ ¬ unlistedCall.kind.isLinked = true ∧
    (¬ ∃ m, unlisted.Target "A" "void m()" m) ∧ unlisted.ChainKnown "A" ∧
    (∃ i, unlisted.Superinterface "A" i ∧ unlisted.class? i = none) ∧
    unlisted.resolveCall (some "A") unlistedCall = .missing "A" "void m()" ∧
    ¬ unlisted.Complete "A" := by
  obtain ⟨hflat, hbare, hstays, hlists, absent⟩ := unlisted_lacks
  have chains := finiteChains_of_flat hflat
  have kind : ¬ unlistedCall.kind.isLinked = true := by decide
  have htarget : ¬ ∃ m, unlisted.Target "A" "void m()" m := by
    rintro ⟨m, c, here, runs, -⟩
    have hnone : c.concrete? "void m()" = none := hbare c (Roster.mem_of_get? here)
    rw [hnone] at runs
    cases runs
  have known : unlisted.ChainKnown "A" := (leavesProgram_eq_false_iff chains).1 hstays
  have hlack : ∃ i, unlisted.Superinterface "A" i ∧ unlisted.class? i = none := by
    obtain ⟨c, here, hlisted⟩ := (Option.any_eq_true _ _).1 hlists
    have hname : c.name = "A" := Roster.key_of_get? here
    refine ⟨"Lib", ⟨c, hname ▸ here, hname ▸ .refl, "Lib", ?_, .refl⟩, absent⟩
    exact List.contains_iff_mem.1 hlisted
  obtain ⟨-, -, -, -, hfault⟩ := resolveCall_receiver (p := unlisted) kind "A" chains
  obtain ⟨hmissing, hincomplete⟩ := hfault.2 ⟨htarget, known, hlack⟩
  exact ⟨chains, kind, htarget, known, hlack, hmissing, hincomplete⟩

end PointsTo.Program
