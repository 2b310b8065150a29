import PointsTo.Jimple.Reader

/-!
Where the parts of a program that was read come from. A class has its name from a header, each of
its fields from one line, and each of its methods from a header alone or from a header and the lines
of a body. What the reader promises of names, references and bodies is proved of these lines.
-/
namespace PointsTo.Jimple

/-- The programs that come from reading texts, one after the other. A text with a fault counts with
what was read before. -/
inductive Parsed : Program → Prop
  | empty : Parsed ∅
  | read {p : Program} (h : Parsed p) (text : String) : Parsed (Jimple.read p text).1

/-- What is read of a single text. -/
def programOf (text : String) : Program := (Jimple.read ∅ text).1

theorem Parsed.programOf (text : String) : Parsed (programOf text) := .read .empty text

/-- A field is what the last two words in front of the semicolon say. -/
theorem of_readField {owner : String} {s : List Char} {f : Field} (h : readField owner s = .ok f) :
    ∃ modifiers, cutDeclaration? s.dropLast = some (modifiers, f.type, f.name) ∧
      f = ⟨owner, f.name, f.type, modifiers.contains "static"⟩ := by
  unfold readField at h
  split at h
  · cases h
  · split at h
    · cases h
    · next modifiers type name hcut =>
      cases h
      exact ⟨modifiers, hcut, rfl⟩

/-- A method has its type and its name from the text in front of the parenthesis, its parameter types
from the text up to the next closing one, and no body. -/
theorem of_readMethodHeader {owner : String} {line : List Char} {m : Method}
    (h : readMethodHeader owner line = some (.ok m)) :
    ∃ modifiers head rest, head = (headerText line).takeWhile (· ≠ '(') ∧
      rest = (headerText line).drop (head.length + 1) ∧
      cutDeclaration? head = some (modifiers, m.returnType, m.name) ∧
      m = ⟨owner, m.name, (splitTypes (rest.takeWhile (· ≠ ')'))).map String.ofList, m.returnType,
        OrderedSet.ofList modifiers, none⟩ := by
  unfold readMethodHeader at h
  dsimp only at h
  split at h
  · cases h
  · split at h
    · cases h
    · next modifiers type name hcut =>
      cases h
      exact ⟨modifiers, _, _, rfl, rfl, hcut, rfl⟩

theorem bodyless_readMethodHeader {owner : String} {line : List Char} {m : Method}
    (h : readMethodHeader owner line = some (.ok m)) : m.body = none := by
  obtain ⟨modifiers, head, rest, -, -, -, heq⟩ := of_readMethodHeader h
  rw [heq]

/-- A body in the making, of a method of the class. -/
inductive Drafted (owner : String) : Draft → Prop
  | header {line : List Char} {m : Method} (read : readMethodHeader owner line = some (.ok m)) :
      Drafted owner { method := m }
  | line {d d' : Draft} {s : List Char} {n : Nat} (before : Drafted owner d)
      (read : d.readLine s n = .ok d') : Drafted owner d'
  | switch {d : Draft} (before : Drafted owner d) (opening : String) (n : Nat) :
      Drafted owner (d.add (.other opening) n)

/-- A method as it was read in a class. -/
inductive MethodRead (owner : String) : Method → Prop
  | header {line : List Char} {m : Method} (read : readMethodHeader owner line = some (.ok m)) :
      MethodRead owner m
  | body {d : Draft} (drafted : Drafted owner d) :
      MethodRead owner { d.method with body := some d.finish }

/-- A class as it was read. -/
structure ClassRead (c : Class) : Prop where
  header : ∃ line h, readClassHeader line = .ok h ∧ h.name = c.name
  fields : ∀ f ∈ c.fields.items, ∃ line, readField c.name line = .ok f
  methods : ∀ m ∈ c.methods.items, MethodRead c.name m

/-- A header has no members. -/
theorem members_of_readClassHeader {line : List Char} {c : Class} (h : readClassHeader line = .ok c) :
    c.fields = ∅ ∧ c.methods = ∅ := by
  unfold readClassHeader at h
  dsimp only at h
  split at h
  · simp only [bind, Except.bind, pure, Except.pure] at h
    split at h <;> cases h
    exact ⟨rfl, rfl⟩
  · cases h

end PointsTo.Jimple
