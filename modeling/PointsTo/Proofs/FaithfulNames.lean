import PointsTo.Proofs.Comments
import PointsTo.Proofs.FieldLookup
import PointsTo.Proofs.References
import PointsTo.Proofs.Signatures

/-!
The written form of a member names it. Where no text had a single quote and no class name has a
colon, the written form of a method or a field is read back as a reference to it, that reference
resolves to it, and a method is found by its signature. A reference that was read from any text
without single quotes is read again from its own written form.

Quotes are left out because a name loses them when it is read. A colon in a class name would end the
owner too early.
-/
namespace PointsTo

open Text

/-- The reference that names the method literally. -/
def Method.ref (m : Method) : MethodRef := ⟨m.declaringClass, m.name, m.paramTypes, m.returnType⟩

/-- The reference that names the field literally, with its type. -/
def Field.ref (f : Field) : FieldRef := ⟨f.declaringClass, f.name, f.type⟩

theorem Method.target_ref (m : Method) : m.ref.target = m.id := rfl

theorem Method.signature_ref (m : Method) : m.ref.signature = m.signature := rfl

theorem Field.text_ref (f : Field) : f.ref.text = f.text := rfl

namespace Jimple

/-! ### Names without quotes -/

section Unquoted

variable {s w : List Char}

theorem nameOf_of_unquoted (h : '\x27' ∉ s) : nameOf s = String.ofList s := by
  rw [nameOf]
  congr 1
  exact unquote.eq_2 _ fun rest heq => h (heq ▸ List.mem_cons_self)

/-- A word that is its own name. -/
structure OwnName (w : List Char) : Prop where
  ne_nil : w ≠ []
  not_isBlank : ∀ c ∈ w, isBlank c = false
  unquoted : '\x27' ∉ w

theorem OwnName.of_mem_words (hs : '\x27' ∉ s) (h : w ∈ words s) : OwnName w :=
  ⟨ne_nil_of_mem_words h, not_blank_of_mem_words h, fun hquote => hs (mem_of_mem_words h hquote)⟩

theorem OwnName.nameOf (h : OwnName w) : OwnName (nameOf w).toList := by
  rwa [nameOf_of_unquoted h.unquoted, String.toList_ofList]

end Unquoted

/-! ### References that can be read back -/

/-- The parts of a member are told apart in its written form, and each is its own name. -/
structure Readable (owner type name : String) : Prop where
  legible : Legible owner.toList type.toList name.toList
  owner_unquoted : '\x27' ∉ owner.toList
  name_unquoted : '\x27' ∉ name.toList

/-- The types of the parameters are told apart as well. -/
structure ReadableMethod (owner type name : String) (params : List String) : Prop
    extends Readable owner type name where
  no_paren : '(' ∉ name.toList
  types : ∀ type ∈ params, IsItem type.toList ∧ ')' ∉ type.toList

theorem Readable.of_ownName {owner type name : String} (howner : OwnName owner.toList)
    (hcolon : ':' ∉ owner.toList) (htype : OwnName type.toList) (hname : OwnName name.toList) :
    Readable owner type name :=
  ⟨⟨howner.ne_nil, .of_not_blank howner.not_isBlank, hcolon, htype.ne_nil, htype.not_isBlank,
    hname.ne_nil, hname.not_isBlank⟩, howner.unquoted, hname.unquoted⟩

theorem readFieldRef_of_readable {r : FieldRef} (h : Readable r.declaringClass r.type r.name) :
    readFieldRef r.text.toList = .ok r := by
  have htext : r.text.toList = '<' :: r.declaringClass.toList ++ ':' :: ' ' :: r.type.toList ++
      ' ' :: r.name.toList ++ ['>'] := by
    simp [FieldRef.text, FieldRef.target, FieldName.text, String.toList_append]
  rw [htext, h.legible.readFieldRef, nameOf_of_unquoted h.owner_unquoted,
    nameOf_of_unquoted h.name_unquoted]
  simp only [String.ofList_toList]

theorem readMethodRef_of_readable {r : MethodRef}
    (h : ReadableMethod r.declaringClass r.returnType r.name r.paramTypes) :
    readMethodRef r.signature.toList = .ok r := by
  have htext : r.signature.toList = '<' :: r.declaringClass.toList ++ ':' :: ' ' ::
      r.returnType.toList ++ ' ' :: r.name.toList ++
        '(' :: [','].intercalate (r.paramTypes.map String.toList) ++ [')', '>'] := by
    simp [MethodRef.signature, MethodRef.target, MethodName.signature, MethodRef.subsignature,
      subsignature, String.toList_append, String.toList_intercalate]
  have htypes : (r.paramTypes.map String.toList).map String.ofList = r.paramTypes := by
    rw [List.map_map]
    exact List.map_id'' (fun type => String.ofList_toList) r.paramTypes
  have hlegible : LegibleTypes (r.paramTypes.map String.toList) := List.forall_mem_map.2 h.types
  rw [htext, h.legible.readMethodRef h.no_paren hlegible, nameOf_of_unquoted h.owner_unquoted,
    nameOf_of_unquoted h.name_unquoted, htypes]
  simp only [String.ofList_toList]

/-! ### References that were read -/

section Read

variable {s owner type rest name : List Char}

theorem mem_of_mem_inner {c : Char} (h : c ∈ inner s) : c ∈ s :=
  List.mem_of_mem_drop (List.dropLast_subset _ (mem_of_mem_trim h))

/-- The owner of a reference begins with no blank, so that something of it is left when it is
trimmed. -/
theorem legible_of_readOwner? (h : readOwner? (inner s) = some (owner, type, rest))
    (hne : name ≠ []) (hblank : ∀ c ∈ name, isBlank c = false) :
    Legible (trim owner) type name := by
  obtain ⟨howner, hfull, htype, htypes, -⟩ := of_readOwner? h
  obtain ⟨c, cs, rfl⟩ := List.exists_cons_of_ne_nil hfull
  have hfirst : (inner s).head? = some c := by
    obtain ⟨behind, hbehind⟩ : c :: cs <+: inner s := howner ▸ List.takeWhile_prefix _
    rw [← hbehind]
    rfl
  have hc : isBlank c = false := (trimmed_trim _).first c hfirst
  have hcolon : ':' ∉ c :: cs := fun hmem => by
    rw [howner] at hmem
    simpa using List.mem_takeWhile_imp hmem
  have htrim : trim (c :: cs) = c :: trimRight cs := trim_append_cons hc [] cs
  exact ⟨by simp [htrim], trimmed_trim _, fun hmem => hcolon (mem_of_mem_trim hmem), htype, htypes,
    hne, hblank⟩

theorem readable_of_readOwner? (hs : '\x27' ∉ s)
    (h : readOwner? (inner s) = some (owner, type, rest)) (hname : ∀ c ∈ name, c ∈ rest)
    (hne : name ≠ []) (hblank : ∀ c ∈ name, isBlank c = false) :
    Readable (nameOf (trim owner)) (String.ofList type) (nameOf name) := by
  obtain ⟨rfl, -, -, -, hrest⟩ := of_readOwner? h
  have howner : '\x27' ∉ trim ((inner s).takeWhile (· ≠ ':')) := fun hmem => hs <|
    mem_of_mem_inner ((List.takeWhile_prefix _).subset (mem_of_mem_trim hmem))
  have hname : '\x27' ∉ name := fun hmem => hs (mem_of_mem_inner (hrest _ (hname _ hmem)))
  have hlegible := legible_of_readOwner? h hne hblank
  rw [nameOf_of_unquoted howner, nameOf_of_unquoted hname]
  refine ⟨?_, ?_, ?_⟩ <;> simpa only [String.toList_ofList]

theorem readable_readFieldRef (hs : '\x27' ∉ s) {r : FieldRef} (h : readFieldRef s = .ok r) :
    Readable r.declaringClass r.type r.name := by
  obtain ⟨owner, type, name, howner, hne, hblank, rfl⟩ := of_readFieldRef h
  exact readable_of_readOwner? hs howner (fun c hc => hc) hne hblank

theorem readable_readMethodRef (hs : '\x27' ∉ s) {r : MethodRef} (h : readMethodRef s = .ok r) :
    ReadableMethod r.declaringClass r.returnType r.name r.paramTypes := by
  have hspelled := spelled_readMethodRef h
  obtain ⟨owner, type, rest, name, params, howner, hsignature, rfl⟩ := of_readMethodRef h
  obtain ⟨rfl, hne, behind, rfl⟩ := of_readSignature? hsignature
  have hblank : ∀ c ∈ rest.takeWhile (fun c => !isBlank c && c ≠ '('), isBlank c = false := by
    intro c hc
    have htest := List.mem_takeWhile_imp hc
    rw [Bool.and_eq_true, Bool.not_eq_true'] at htest
    exact htest.1
  have hreadable := readable_of_readOwner? hs howner
    (fun c hc => (List.takeWhile_prefix _).subset hc) hne hblank
  exact ⟨hreadable, hspelled.name, fun type htype => isItem_of_mem_types htype⟩

end Read

/-! ### Members that were read -/

section Members

variable {lines : List (List Char)} {owner : String} {c : Class}

theorem ownName_of_cutDeclaration? {s : List Char} {modifiers : List String} {type name : String}
    (hs : '\x27' ∉ s) (h : cutDeclaration? s = some (modifiers, type, name)) :
    OwnName type.toList ∧ OwnName name.toList := by
  obtain ⟨⟨w, hw, rfl⟩, v, hv, rfl⟩ := of_cutDeclaration? h
  rw [String.toList_ofList]
  exact ⟨.of_mem_words hs hw, (OwnName.of_mem_words hs hv).nameOf⟩

theorem mem_of_mem_headerText {s : List Char} {c : Char} (h : c ∈ headerText s) : c ∈ s := by
  unfold headerText at h
  split at h
  · exact List.dropLast_subset _ (mem_of_mem_trim h)
  · exact h

theorem readable_readMethodHeader {line : List Char} {m : Method} (hline : '\x27' ∉ line)
    (howner : OwnName owner.toList) (hcolon : ':' ∉ owner.toList)
    (h : readMethodHeader owner line = some (.ok m)) :
    ReadableMethod owner m.returnType m.name m.paramTypes := by
  have hspelled := spelled_readMethodHeader h
  obtain ⟨modifiers, head, rest, rfl, -, hcut, heq⟩ := of_readMethodHeader h
  have hhead : '\x27' ∉ (headerText line).takeWhile (· ≠ '(') := fun hmem =>
    hline (mem_of_mem_headerText ((List.takeWhile_prefix _).subset hmem))
  obtain ⟨htype, hname⟩ := ownName_of_cutDeclaration? hhead hcut
  refine ⟨.of_ownName howner hcolon htype hname, hspelled.name, ?_⟩
  rw [heq]
  exact fun type htype => isItem_of_mem_types htype

theorem readable_readField {line : List Char} {f : Field} (hline : '\x27' ∉ line)
    (howner : OwnName owner.toList) (hcolon : ':' ∉ owner.toList)
    (h : readField owner line = .ok f) : Readable owner f.type f.name := by
  obtain ⟨modifiers, hcut, -⟩ := of_readField h
  obtain ⟨htype, hname⟩ := ownName_of_cutDeclaration?
    (fun hmem => hline (List.dropLast_subset _ hmem)) hcut
  exact .of_ownName howner hcolon htype hname

theorem ownName_readClassHeader {line : List Char} (hline : '\x27' ∉ line)
    (h : readClassHeader line = .ok c) : OwnName c.name.toList := by
  obtain ⟨w, hw, heq⟩ := name_readClassHeader h
  rw [heq]
  refine (OwnName.of_mem_words (fun hmem => ?_) hw).nameOf
  obtain ⟨d, hd, hmem⟩ := List.mem_flatMap.1 hmem
  split at hmem
  · exact absurd hmem (by decide)
  · exact hline (List.mem_singleton.1 hmem ▸ hd)

/-- The header of a method stays as it was read while its body is. -/
theorem DraftedFrom.exists_header {n : Nat} {d : Draft} (h : DraftedFrom lines owner n d) :
    ∃ line ∈ lines, readMethodHeader owner line = some (.ok d.method) := by
  induction h with
  | header here read => exact ⟨_, List.mem_of_getElem? here, read⟩
  | pass _ ih => exact ih
  | line _ _ read ih => exact Draft.method_readLine read ▸ ih
  | switch _ _ _ ih => exact ih

theorem MethodFrom.exists_header {m : Method} (h : MethodFrom lines owner m) :
    ∃ line ∈ lines, ∃ header, readMethodHeader owner line = some (.ok header) ∧
      header.ref = m.ref := by
  cases h with
  | header here read => exact ⟨_, here, m, read, rfl⟩
  | body drafted =>
    obtain ⟨line, here, read⟩ := drafted.exists_header
    exact ⟨line, here, _, read, rfl⟩

theorem ClassFrom.ownName (h : ClassFrom lines c) (hlines : ∀ line ∈ lines, '\x27' ∉ line) :
    OwnName c.name.toList := by
  obtain ⟨line, here, header, read, hname⟩ := h.header
  refine hname ▸ ownName_readClassHeader (fun hmem => hlines line here ?_) read
  split at hmem
  · exact List.dropLast_subset _ (mem_of_mem_trim hmem)
  · exact hmem

theorem ClassFrom.readable (h : ClassFrom lines c) (hlines : ∀ line ∈ lines, '\x27' ∉ line)
    (hcolon : ':' ∉ c.name.toList) :
    (∀ f ∈ c.fields.items, Readable c.name f.type f.name) ∧
      ∀ m ∈ c.methods.items, ReadableMethod c.name m.returnType m.name m.paramTypes := by
  have hname := h.ownName hlines
  constructor
  · intro f hf
    obtain ⟨line, here, read⟩ := h.fields f hf
    exact readable_readField (hlines line here) hname hcolon read
  · intro m hm
    obtain ⟨line, here, header, read, hsame⟩ := (h.methods m hm).exists_header
    have hreadable := readable_readMethodHeader (hlines line here) hname hcolon read
    obtain ⟨-, hmethod, hparams, htype⟩ := MethodRef.mk.inj hsame
    rwa [hmethod, hparams, htype] at hreadable

end Members

/-- The programs that come from reading texts without single quotes, one after the other. -/
inductive ParsedUnquoted : Program → Prop
  | empty : ParsedUnquoted ∅
  | read {p : Program} (h : ParsedUnquoted p) {text : String} (unquoted : '\x27' ∉ text.toList) :
      ParsedUnquoted (Jimple.read p text).1

namespace ParsedUnquoted

variable {p : Program}

theorem parsed (h : ParsedUnquoted p) : Parsed p := by
  induction h with
  | empty => exact .empty
  | read _ _ ih => exact .read ih _

theorem classFrom (h : ParsedUnquoted p) : ∀ c ∈ p.classes.items,
    ∃ lines, (∀ line ∈ lines, '\x27' ∉ line) ∧ ClassFrom lines c := by
  induction h with
  | empty => exact fun c hc => by cases hc
  | @read p _ text unquoted ih =>
    intro c hc
    rcases classFrom_of_read hc with hc | hc
    · exact ih c hc
    · exact ⟨_, fun line hline hquote => unquoted (mem_of_mem_codeLines hline hquote), hc⟩

end ParsedUnquoted

end Jimple

/-! ### Members that are found -/

namespace Program

open Jimple (ParsedUnquoted readMethodRef readFieldRef)

variable {p : Program} {c : Class}

/-- Every walk up from a class of the program begins with the class. -/
theorem exists_ancestry (here : p.class? c.name = some c) :
    ∃ above, (p.ancestry c.name).classes = c :: above := by
  rw [ancestry, ancestryWithin, here]
  cases link : c.superclass with
  | none => exact ⟨[], by simp only [link]⟩
  | some superclass => exact ⟨_, by simp only [link]; rfl⟩

theorem resolveMethod_ref {m : Method} (hc : c ∈ p.classes.items) (hm : m ∈ c.methods.items)
    (home : m.declaringClass = c.name) : p.resolveMethod m.ref = some m := by
  obtain ⟨above, habove⟩ := exists_ancestry (Roster.get?_key hc)
  have hname : m.ref.declaringClass = c.name := home
  have hfound : c.methods.get? m.ref.subsignature = some m := Roster.get?_key hm
  rw [resolveMethod, lookup, hname, habove, List.cons_append, List.findSome?_cons, hfound]
  rfl

theorem resolveField_ref {f : Field} (hc : c ∈ p.classes.items) (hf : f ∈ c.fields.items)
    (home : f.declaringClass = c.name) (phantoms : PhantomFields) :
    p.resolveField phantoms f.ref = (f, phantoms) := by
  obtain ⟨above, habove⟩ := exists_ancestry (Roster.get?_key hc)
  have hname : f.ref.declaringClass = c.name := home
  have hfound : c.fields.get? f.ref.name = some f := Roster.get?_key hf
  refine resolveField_declared phantoms ?_
  rw [declaredField?, hname, habove, List.findSome?_cons, hfound]

theorem findMethod_signature (hp : p.Proper) {m : Method} (hm : m ∈ p.methods) :
    p.findMethod m.signature = .ok (some m) := by
  cases hfind : p.methods.find? fun n => n.signature = m.signature with
  | none => exact absurd (List.find?_eq_none.1 hfind m hm) (by simp)
  | some n =>
    have hsame : n.signature = m.signature := by simpa using List.find?_some hfind
    obtain rfl := hp.eq_of_signature (List.mem_of_find?_eq_some hfind) hm hsame
    rw [findMethod, hfind]

/-- No method is listed twice, and no two methods have one signature. -/
theorem nodup_signatures (hp : p.Proper) : (p.methods.map Method.signature).Nodup := by
  have hmethods : p.methods.Nodup := by
    refine List.nodup_flatMap.2 ⟨fun c _ => .of_map _ c.methods.nodup, ?_⟩
    refine (List.pairwise_map.1 p.classes.nodup).imp_of_mem fun {c d} hc hd hne m hm hm' => ?_
    exact hne (((hp c hc).declared m hm).symm.trans ((hp d hd).declared m hm'))
  exact hmethods.map_on fun m hm n hn => hp.eq_of_signature hm hn

/-- **The written form of a member names it.** In a program from texts without single quotes, where
no class name has a colon, the signature of a method is read as the reference to its class and
subsignature, which resolves to the method, and the method is found by it; the text of a field is
read as a reference that resolves to the field, whatever phantom fields there are; and no two methods
have one signature. A reference that was read from a text without single quotes is what its own
written form is read as. -/
theorem names_faithful (h : ParsedUnquoted p)
    (hcolon : ∀ c ∈ p.classes.items, ':' ∉ c.name.toList) :
    (∀ m ∈ p.methods, readMethodRef m.signature.toList = .ok m.ref ∧ m.ref.target = m.id ∧
      p.resolveMethod m.ref = some m ∧ p.findMethod m.signature = .ok (some m)) ∧
    (∀ c ∈ p.classes.items, ∀ f ∈ c.fields.items, readFieldRef f.text.toList = .ok f.ref ∧
      ∀ phantoms, p.resolveField phantoms f.ref = (f, phantoms)) ∧
    (p.methods.map Method.signature).Nodup ∧
    (∀ s r, '\x27' ∉ s → readMethodRef s = .ok r → readMethodRef r.signature.toList = .ok r) ∧
    ∀ s r, '\x27' ∉ s → readFieldRef s = .ok r → readFieldRef r.text.toList = .ok r := by
  have hp := h.parsed.proper
  -- a member has its parts from a line without quotes, and stands in the class that it names
  refine ⟨fun m hm => ?_, fun c hc f hf => ?_, nodup_signatures hp,
    fun s r hs hr => Jimple.readMethodRef_of_readable (Jimple.readable_readMethodRef hs hr),
    fun s r hs hr => Jimple.readFieldRef_of_readable (Jimple.readable_readFieldRef hs hr)⟩
  · obtain ⟨c, hc, hmc⟩ := mem_methods.1 hm
    obtain ⟨lines, hlines, from_lines⟩ := h.classFrom c hc
    have home := (hp c hc).declared m hmc
    have hreadable := (from_lines.readable hlines (hcolon c hc)).2 m hmc
    rw [← home] at hreadable
    have hread : readMethodRef m.ref.signature.toList = .ok m.ref :=
      Jimple.readMethodRef_of_readable hreadable
    rw [m.signature_ref] at hread
    exact ⟨hread, m.target_ref, resolveMethod_ref hc hmc home, findMethod_signature hp hm⟩
  · obtain ⟨lines, hlines, from_lines⟩ := h.classFrom c hc
    have home := fieldsHomed_of_parsed h.parsed c hc f hf
    have hreadable := (from_lines.readable hlines (hcolon c hc)).1 f hf
    rw [← home] at hreadable
    have hread : readFieldRef f.ref.text.toList = .ok f.ref :=
      Jimple.readFieldRef_of_readable hreadable
    rw [f.text_ref] at hread
    exact ⟨hread, resolveField_ref hc hf home⟩

/-- A class hides the members of its superclass; they are written with more blanks than their
references have. -/
def looseText : String :=
  "class A\n\x7b\nT f;\nvoid m(int,A[]);\n\x7d\n" ++
  "class B extends A\n\x7b\nT  f ;\nvoid  m ( int , A[] );\n\x7d\n"

def loose : Program := (Jimple.read ∅ looseText).1

theorem loose_has : '\x27' ∉ looseText.toList ∧
    (∀ c ∈ loose.classes.items, ':' ∉ c.name.toList) ∧
    (∃ m ∈ loose.methods, m.signature = "<B: void m(int,A[])>") ∧
    ∃ c ∈ loose.classes.items, ∃ f ∈ c.fields.items, f.text = "<B: T f>" := by
  decide +kernel

theorem names_faithful_loose : ParsedUnquoted loose ∧
    (∀ c ∈ loose.classes.items, ':' ∉ c.name.toList) ∧
    (∃ m, readMethodRef "<B: void m(int,A[])>".toList = .ok m.ref ∧
      loose.resolveMethod m.ref = some m ∧
      loose.findMethod "<B: void m(int,A[])>" = .ok (some m)) ∧
    ∃ f, readFieldRef "<B: T f>".toList = .ok f.ref ∧ loose.resolveField ∅ f.ref = (f, ∅) := by
  obtain ⟨unquoted, hcolon, ⟨m, hm, hsignature⟩, c, hc, f, hf, htext⟩ := loose_has
  have hparsed : ParsedUnquoted loose := .read .empty unquoted
  obtain ⟨methods, fields, -⟩ := names_faithful hparsed hcolon
  obtain ⟨hmethod, -, hresolve, hfind⟩ := methods m hm
  obtain ⟨hfield, hresolve'⟩ := fields c hc f hf
  rw [hsignature] at hmethod hfind
  rw [htext] at hfield
  exact ⟨hparsed, hcolon, ⟨m, hmethod, hresolve, hfind⟩, f, hfield, hresolve' ∅⟩

end Program

end PointsTo
