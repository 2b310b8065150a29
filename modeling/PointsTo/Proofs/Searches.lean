import PointsTo.Proofs.Defaults

/-!
Searches for members. A reference is linked, and a receiver dispatched, by a search that ends at the
first class which has an answer: it climbs the superclass chain, and where that has none it goes
through the interfaces breadth first. The two searches differ in what they take for an answer, since
abstract methods are linked to and not run, so either may go on where the other has ended. They still
go the same way: what a search comes to is the first answer among the classes that the full walks
collect.
-/
namespace PointsTo.Program

variable {p : Program} {α : Type} {answer : Class → Option α}

/-- Climbs from a name on until a class has an answer. -/
inductive Ascends (p : Program) (answer : Class → Option α) : String → Option α → Prop
  | outside {name} (absent : p.class? name = none) : Ascends p answer name none
  | found {name c x} (here : p.class? name = some c) (hit : answer c = some x) :
      Ascends p answer name (some x)
  | top {name c} (here : p.class? name = some c) (miss : answer c = none)
      (isTop : c.superclass = none) : Ascends p answer name none
  | up {name c above r} (here : p.class? name = some c) (miss : answer c = none)
      (link : c.superclass = some above) (more : Ascends p answer above r) : Ascends p answer name r

/-- Goes through the pending names until a class has an answer; what a class without one links to
comes behind the names that are pending. `seen` are the classes that had none. -/
inductive Seeks (p : Program) (links : Class → List String) (answer : Class → Option α) :
    List String → List String → Option α → Prop
  | nothing {seen} : Seeks p links answer [] seen none
  | outside {name rest seen r} (absent : p.class? name = none)
      (more : Seeks p links answer rest seen r) : Seeks p links answer (name :: rest) seen r
  | skip {name rest seen r c} (here : p.class? name = some c) (old : name ∈ seen)
      (more : Seeks p links answer rest seen r) : Seeks p links answer (name :: rest) seen r
  | found {name rest seen c x} (here : p.class? name = some c) (new : name ∉ seen)
      (hit : answer c = some x) : Seeks p links answer (name :: rest) seen (some x)
  | inside {name rest seen r c} (here : p.class? name = some c) (new : name ∉ seen)
      (miss : answer c = none) (more : Seeks p links answer (rest ++ links c) (seen ++ [name]) r) :
      Seeks p links answer (name :: rest) seen r

/-- Looks for an answer on the superclass chain, and then in the interfaces that its classes list and
in those above them. -/
inductive Finds (p : Program) (answer : Class → Option α) (name : String) : Option α → Prop
  | onChain {x} (hit : p.Ascends answer name (some x)) : Finds p answer name (some x)
  | beside {a r} (miss : p.Ascends answer name none) (climb : p.Climbs name a)
      (search : p.Seeks Class.interfaces answer (a.classes.flatMap Class.interfaces) [] r) :
      Finds p answer name r

/-! ### A search ends in one way -/

theorem Ascends.unique {name : String} {r r' : Option α} (h : p.Ascends answer name r)
    (h' : p.Ascends answer name r') : r = r' := by
  induction h with
  | outside absent => cases h' <;> simp_all
  | found here hit => cases h' <;> simp_all
  | top here miss isTop => cases h' <;> simp_all
  | up here miss link _ ih =>
    apply ih
    cases h' <;> simp_all

theorem Seeks.unique {links : Class → List String} {pending seen : List String} {r r' : Option α}
    (h : p.Seeks links answer pending seen r) (h' : p.Seeks links answer pending seen r') :
    r = r' := by
  induction h with
  | nothing =>
    cases h'
    rfl
  | outside absent _ ih =>
    apply ih
    cases h' <;> simp_all
  | skip here old _ ih =>
    apply ih
    cases h' <;> simp_all
  | found here new hit => cases h' <;> simp_all
  | inside here new miss _ ih =>
    apply ih
    cases h' <;> simp_all

/-! ### A search against the walk that does not stop -/

/-- A climb that stops comes to the first answer on the climb that does not. -/
theorem Climbs.ascends {name : String} {a : Ancestry} (climb : p.Climbs name a)
    (answer : Class → Option α) : p.Ascends answer name (a.classes.findSome? answer) := by
  induction climb with
  | outside absent => exact .outside absent
  | @top _ c here isTop =>
    cases h : answer c with
    | some x => simpa [h] using Ascends.found here h
    | none => simpa [h] using Ascends.top here h isTop
  | @up _ c _ a here link _ ih =>
    cases h : answer c with
    | some x => simpa [h] using Ascends.found here h
    | none => simpa [h] using Ascends.up here h link ih

/-- A search that stops comes to the first answer among what the search that does not stop has come
to. It may leave out of `seen'` the names that no class has. -/
theorem Scans.seeks {links : Class → List String} {pending seen seen' r : List String}
    (scan : p.Scans links pending seen r) (answer : Class → Option α)
    (agree : ∀ name, (p.class? name).isSome → (name ∈ seen' ↔ name ∈ seen)) :
    ∃ new, r = seen ++ new ∧
      p.Seeks links answer pending seen' ((new.filterMap p.class?).findSome? answer) := by
  induction scan generalizing seen' with
  | done => exact ⟨[], (List.append_nil _).symm, .nothing⟩
  | @skip name rest seen r old _ ih =>
    obtain ⟨new, hr, search⟩ := ih agree
    refine ⟨new, hr, ?_⟩
    cases here : p.class? name with
    | none => exact .outside here search
    | some c => exact .skip here ((agree name (by simp [here])).2 old) search
  | @outside name rest seen r _ absent _ ih =>
    have agree' : ∀ n, (p.class? n).isSome → (n ∈ seen' ↔ n ∈ seen ++ [name]) := by
      intro n hn
      have hother : n ≠ name := by
        rintro rfl
        rw [absent] at hn
        cases hn
      simp [agree n hn, hother]
    obtain ⟨new, hr, search⟩ := ih agree'
    refine ⟨name :: new, by simp [hr], .outside absent ?_⟩
    simpa [absent] using search
  | @inside name rest seen r c new here _ ih =>
    have agree' : ∀ n, (p.class? n).isSome → (n ∈ seen' ++ [name] ↔ n ∈ seen ++ [name]) := by
      intro n hn
      simp [agree n hn]
    have new' : name ∉ seen' := fun hseen => new ((agree name (by simp [here])).1 hseen)
    obtain ⟨further, hr, search⟩ := ih agree'
    refine ⟨name :: further, by simp [hr], ?_⟩
    cases h : answer c with
    | some x => simpa [here, h] using Seeks.found here new' h
    | none => simpa [here, h] using Seeks.inside here new' h search

/-- **A search comes to the first answer** of the superclass chain and the interfaces, in the order
in which the full walks collect them. -/
theorem finds_iff (chains : p.FiniteChains) {name : String} {r : Option α} :
    p.Finds answer name r ↔
      ((p.ancestry name).classes ++ p.interfacesOf name).findSome? answer = r := by
  have climb := climbs_ancestry chains name
  have chain := climb.ascends answer
  have scan := scans_reachFrom (p := p) Class.interfaces
    ((p.ancestry name).classes.flatMap Class.interfaces) []
  have agree : ∀ n, (p.class? n).isSome → (n ∈ ([] : List String) ↔ n ∈ ([] : List String)) :=
    fun _ _ => Iff.rfl
  obtain ⟨new, hnew, search⟩ := scan.seeks answer agree
  have hinterfaces : p.interfacesOf name = new.filterMap p.class? := by
    rw [List.nil_append] at hnew
    rw [interfacesOf, reachClasses, reach, hnew]
  rw [List.findSome?_append, hinterfaces]
  constructor
  · rintro (hit | ⟨miss, climb', search'⟩)
    · rw [← hit.unique chain]
      rfl
    · rw [ancestry_eq chains climb'] at chain search
      rw [ancestry_eq chains climb', ← miss.unique chain, Option.none_or]
      exact search.unique search'
  · rintro rfl
    cases h : (p.ancestry name).classes.findSome? answer with
    | some x => exact .onChain (h ▸ chain)
    | none => exact .beside (h ▸ chain) climb search

/-! ### Linking and dispatch -/

section Filtered

variable {β : Type} {l : List β} {f : β → Option α} {test : α → Bool} {x : α}

/-- The first answer of all is the first one that passes a test, if it passes. -/
theorem findSome?_filter_of_pass (h : l.findSome? f = some x) (pass : test x = true) :
    (l.findSome? fun b => (f b).filter test) = some x := by
  obtain ⟨before, b, after, hl, hb, hbefore⟩ := List.findSome?_eq_some_iff.1 h
  refine List.findSome?_eq_some_iff.2 ⟨before, b, after, hl, ?_, fun c hc => ?_⟩
  · rw [hb, Option.filter_some, if_pos pass]
  · rw [hbefore c hc, Option.filter_none]

/-- Where some answer passes a test, the first answer of all is that one or does not pass. -/
theorem findSome?_of_filter (h : (l.findSome? fun b => (f b).filter test) = some x) :
    ∃ y, l.findSome? f = some y ∧ (y = x ∨ test y = false) := by
  obtain ⟨b, hb, hfilter⟩ := List.exists_of_findSome?_eq_some h
  obtain ⟨hx, -⟩ := Option.filter_eq_some_iff.1 hfilter
  have hsome : (l.findSome? f).isSome := List.findSome?_isSome_iff.2 ⟨b, hb, by simp [hx]⟩
  obtain ⟨y, hy⟩ := Option.isSome_iff_exists.1 hsome
  refine ⟨y, hy, ?_⟩
  cases pass : test y with
  | false => exact .inr rfl
  | true =>
    have hsame := findSome?_filter_of_pass hy pass
    rw [h] at hsame
    exact .inl (Option.some.inj hsame).symm

end Filtered

/-- **Linking and dispatch agree on the class of a reference.** Both are searches over its superclass
chain and its interfaces, one for any method and one for a method to run. If the reference is linked
to a method that is not abstract, the class runs that method; and if the class runs a method, the
reference is linked to it or to an abstract one. -/
theorem linking_agrees_with_dispatch (chains : p.FiniteChains) (ref : MethodRef) :
    (∀ r, p.Finds (fun c => c.methods.get? ref.subsignature) ref.declaringClass r ↔
      p.resolveMethod ref = r) ∧
    (∀ r, p.Finds (fun c => c.concrete? ref.subsignature) ref.declaringClass r ↔
      p.dispatch ref.declaringClass ref.subsignature = r) ∧
    (∀ m, p.resolveMethod ref = some m → m.isAbstract = false →
      p.dispatch ref.declaringClass ref.subsignature = some m) ∧
    (∀ m, p.dispatch ref.declaringClass ref.subsignature = some m →
      ∃ n, p.resolveMethod ref = some n ∧ (n = m ∨ n.isAbstract = true)) := by
  have hlink : p.resolveMethod ref =
      ((p.ancestry ref.declaringClass).classes ++ p.interfacesOf ref.declaringClass).findSome?
        fun c => c.methods.get? ref.subsignature := by
    have hall : ∀ o : Option Method, (o.filter fun _ => true) = o := fun o => by cases o <;> rfl
    simp only [resolveMethod, lookup, hall]
  refine ⟨fun r => ?_, fun r => finds_iff chains, fun m linked runs => ?_, fun m found => ?_⟩
  · rw [hlink]
    exact finds_iff chains
  · rw [hlink] at linked
    exact findSome?_filter_of_pass linked (by rw [runs]; rfl)
  · obtain ⟨n, linked, hn⟩ := findSome?_of_filter found
    rw [← hlink] at linked
    rw [Bool.not_eq_false'] at hn
    exact ⟨n, linked, hn⟩

/-- A class that redeclares a method as abstract, below a class that the program lacks. Its interfaces
form a diamond, and the class below it lists one of them again and twice. -/
def redeclaredText : String :=
  "interface I\n\x7b\nabstract void m();\n\x7d\n" ++
  "interface J extends I\n\x7b\nvoid m()\n\x7b\nreturn;\n\x7d\n\x7d\n" ++
  "interface K extends I\n\x7b\n\x7d\n" ++
  "abstract class A extends Lib implements K, J\n\x7b\nabstract void m();\n\x7d\n" ++
  "class B extends A implements K, K\n\x7b\n\x7d\n"

def redeclared : Program := Jimple.programOf redeclaredText

theorem redeclared_has :
    (∀ c ∈ redeclared.classes.items, ∀ above ∈ c.superclass,
      [objectClass, "Lib", "A", "B"].idxOf above < [objectClass, "Lib", "A", "B"].idxOf c.name) ∧
    (∃ c, redeclared.class? "B" = some c ∧ c.methods.get? "void m()" = none ∧
      c.superclass = some "A" ∧ c.interfaces = ["K", "K"]) ∧
    (∃ c, redeclared.class? "A" = some c ∧
      (c.methods.get? "void m()").any Method.isAbstract = true ∧
      c.superclass = some "Lib" ∧ c.interfaces = ["K", "J"]) ∧
    redeclared.class? "Lib" = none ∧
    (∃ c, redeclared.class? "K" = some c ∧ c.methods.get? "void m()" = none) ∧
    ∃ c, redeclared.class? "J" = some c ∧ (c.concrete? "void m()").isSome = true := by
  decide +kernel

/-- The reference through `B` is linked to the abstract method on the chain, and `B` runs the default
of an interface; the reference through that interface is linked to what it runs. -/
theorem linking_agrees_with_dispatch_redeclared : redeclared.FiniteChains ∧
    ∃ m n, redeclared.resolveMethod ⟨"B", "m", [], "void"⟩ = some m ∧ m.isAbstract = true ∧
      redeclared.dispatch "B" "void m()" = some n ∧
      redeclared.resolveMethod ⟨"J", "m", [], "void"⟩ = some n ∧ n.isAbstract = false ∧
      redeclared.dispatch "J" "void m()" = some n := by
  obtain ⟨hrank, ⟨b, hereB, lacksB, linkB, listB⟩, ⟨a, hereA, abstractA, linkA, listA⟩, absent,
    ⟨k, hereK, lacksK⟩, j, hereJ, runsJ⟩ := redeclared_has
  have chains := finiteChains_of_rank _ hrank
  obtain ⟨m, hasA, isAbstract⟩ := (Option.any_eq_true _ _).1 abstractA
  obtain ⟨n, hn⟩ := Option.isSome_iff_exists.1 runsJ
  obtain ⟨hasJ, runs⟩ := concrete?_eq_some.1 hn
  obtain ⟨linksB, runsB, -, -⟩ := linking_agrees_with_dispatch chains ⟨"B", "m", [], "void"⟩
  obtain ⟨linksJ, -, agrees, -⟩ := linking_agrees_with_dispatch chains ⟨"J", "m", [], "void"⟩
  have linked := (linksJ (some n)).1 (.onChain (.found hereJ hasJ))
  refine ⟨chains, m, n, (linksB _).1 (.onChain ?_), isAbstract, (runsB _).1 ?_, linked, runs,
    agrees n linked runs⟩
  · exact .up hereB lacksB linkB (.found hereA hasA)
  · have noneOf : ∀ {c : Class}, c.methods.get? "void m()" = none → c.concrete? "void m()" = none :=
      fun h => by rw [Class.concrete?, h, Option.filter_none]
    have missA : a.concrete? "void m()" = none := by
      simp [Class.concrete?, hasA, isAbstract]
    have listed : [b, a].flatMap Class.interfaces = ["K", "K", "K", "J"] := by simp [listB, listA]
    refine .beside (a := ⟨[b, a], some "Lib"⟩) ?_ ?_ ?_
    · exact .up hereB (noneOf lacksB) linkB (.up hereA missA linkA (.outside absent))
    · exact .up hereB linkB (.up hereA linkA (.outside absent))
    · rw [listed]
      have again : "K" ∈ [] ++ ["K"] := by simp
      refine .inside hereK (by simp) (noneOf lacksK) ?_
      exact .skip hereK again (.skip hereK again (.found hereJ (by decide) hn))

end PointsTo.Program
