import PointsTo.Proofs.Drafts
import PointsTo.Proofs.ListedLines
import PointsTo.Proofs.Rosters

/-!
Listed programs. The reader gets over each member of a class with the class as far as it has come,
over each class with the program as far as it has come, and so over the whole listing: it ends
outside of all classes with the program that is listed. A declared type or a label that begins like
a switch is the exception, for the reader takes its line for one.
-/
namespace PointsTo

theorem Program.declare_declare (p : Program) {c c' : Class} (h : c'.name = c.name) :
    (p.declare c).declare c' = p.declare c' :=
  congrArg Program.mk (p.classes.put_put h)

namespace Jimple

open PointsTo.Text

/-! ### Bodies -/

namespace BodyPart

/-- A part adds the statement that it says, if it says one, and the method stays. -/
theorem record_spec (d : Draft) {part : BodyPart}
    (hvalid : part.isValid d.method.signature = true) :
    (record d part).method = d.method ∧
      (record d part).statements =
        d.statements ++ (part.statement? d.method.signature).toList := by
  cases part with
  | declaration n type gap name names =>
    obtain ⟨hmethod, hstatements⟩ :=
      d.declare_frame type.text (fun x => String.ofList x.chars) (name :: names)
    exact ⟨hmethod, hstatements.trans (List.append_nil _).symm⟩
  | label n name => exact ⟨rfl, (List.append_nil _).symm⟩
  | handler n type first last target => exact ⟨rfl, (List.append_nil _).symm⟩
  | statement n text =>
    rw [record, statement?]
    cases hread : readStatement d.method.signature text with
    | ok reading => exact d.record_spec reading n
    | error fault =>
      simp [isValid, hread, Except.isOk, Except.toBool] at hvalid
  | switch n opening inside closing => exact ⟨rfl, rfl⟩

/-- Parts add the statements that they say, in their order. -/
theorem foldl_record_spec (d : Draft) {parts : List BodyPart}
    (hvalid : parts.all (isValid d.method.signature) = true) :
    (parts.foldl record d).method = d.method ∧
      (parts.foldl record d).statements =
        d.statements ++ parts.filterMap (statement? d.method.signature) := by
  induction parts generalizing d with
  | nil => exact ⟨rfl, (List.append_nil _).symm⟩
  | cons part parts ih =>
    rw [List.all_cons, Bool.and_eq_true] at hvalid
    obtain ⟨hmethod, hstatements⟩ := record_spec d hvalid.1
    obtain ⟨hmethod', hstatements'⟩ := ih (record d part) (by rw [hmethod]; exact hvalid.2)
    rw [hmethod, hstatements, List.append_assoc] at hstatements'
    refine ⟨hmethod'.trans hmethod, hstatements'.trans ?_⟩
    cases hsaid : part.statement? d.method.signature with
    | none => rw [List.filterMap_cons_none hsaid]; rfl
    | some said => rw [List.filterMap_cons_some hsaid]; rfl

theorem reads_all (p : Program) (c : Class) (d : Draft) {parts : List BodyPart}
    (hvalid : parts.all (isValid d.method.signature) = true)
    (hswitch : parts.all avoidsSwitch = true) :
    Reads p (.inBody c d) (parts.flatMap lines) p (.inBody c (parts.foldl record d)) := by
  induction parts generalizing d with
  | nil => exact .nil
  | cons part parts ih =>
    rw [List.all_cons, Bool.and_eq_true] at hvalid hswitch
    have hmethod := (record_spec d hvalid.1).1
    exact (reads hvalid.1 hswitch.1).append
      (ih (record d part) (by rw [hmethod]; exact hvalid.2) hswitch.2)

end BodyPart

/-! ### Methods -/

namespace MethodText

variable {m : MethodText} {c : Class}

/-- A class that has come as far as the method. -/
def addTo (m : MethodText) (c : Class) : Class :=
  { c with methods := c.methods.put (m.toMethod c.name) }

/-- The body that is read is the body that is listed. -/
theorem finish_foldl (m : MethodText) (owner : String)
    (hvalid : m.parts.all (BodyPart.isValid (m.declared owner).signature) = true) :
    (m.parts.foldl BodyPart.record { method := m.declared owner }).finish = m.body owner := by
  have hstatements := (BodyPart.foldl_record_spec { method := m.declared owner } hvalid).2
  rw [body, ← List.nil_append (m.parts.filterMap _), ← hstatements, ← Draft.statements_finish]

theorem reads_lines (p : Program)
    (hvalid : m.parts.all (BodyPart.isValid (m.declared c.name).signature) = true)
    (hswitch : m.parts.all BodyPart.avoidsSwitch = true) :
    Reads (p.declare c) (.inClass c) m.lines (p.declare (m.addTo c)) (.inClass (m.addTo c)) := by
  have hopened : (p.declare c).declare (m.declareIn c) = p.declare (m.declareIn c) :=
    p.declare_declare rfl
  cases hending : m.ending with
  | semicolon =>
    have hread := m.reads_semicolon (p.declare c) c
    have hadd : m.addTo c = m.declareIn c := by
      rw [addTo, toMethod, hending]
      rfl
    rw [lines, hending, hadd, ← hopened]
    exact hread
  | body brace parts closing =>
    have hparts : m.parts = parts := by rw [MethodText.parts, hending]
    rw [hparts] at hvalid hswitch
    have hheader := m.reads_brace brace (p.declare c) c
    have hbody := BodyPart.reads_all (p.declare (m.declareIn c)) (m.declareIn c)
      { method := m.declared c.name } hvalid hswitch
    have hmethod := (BodyPart.foldl_record_spec { method := m.declared c.name } hvalid).1
    have hfinish := m.finish_foldl c.name (by rwa [hparts])
    rw [hparts] at hfinish
    -- the method with its body stands where the method without it was put
    have hput := c.methods.put_put (a := m.declared c.name)
      (b := { m.declared c.name with body := some (m.body c.name) }) rfl
    have hadd : { m.declareIn c with
        methods := (m.declareIn c).methods.put
          { m.declared c.name with body := some (m.body c.name) } } = m.addTo c := by
      rw [addTo, toMethod, hending]
      exact congrArg (fun methods => { c with methods }) hput
    have hname : (m.addTo c).name = (m.declareIn c).name := rfl
    have hclose : Reads (p.declare (m.declareIn c))
        (.inBody (m.declareIn c) (parts.foldl BodyPart.record { method := m.declared c.name }))
        [⟨closing, ['\x7d']⟩] (p.declare (m.addTo c)) (.inClass (m.addTo c)) := by
      refine Reads.line (by simp) ?_
      have hopens : opensSwitch ['\x7d'] = false := by decide
      simp only [Reader.line?, Reader.bodyLine, hopens, Bool.false_eq_true, if_false, if_true,
        hmethod, hfinish, hadd, Reader.keep, p.declare_declare hname]
      rfl
    rw [hopened] at hheader
    rw [lines, hending]
    exact (hheader.append hbody).append hclose

end MethodText

/-! ### Members -/

namespace MemberText

variable {c : Class}

/-- A class that has come as far as the member. -/
def addTo (c : Class) : MemberText → Class
  | field f => { c with fields := c.fields.put (f.toField c.name) }
  | method m => m.addTo c

@[simp] theorem name_addTo (c : Class) (member : MemberText) : (addTo c member).name = c.name := by
  cases member <;> rfl

/-- The parts of the bodies in the member are what they say, and none is taken for a switch. -/
def isReadable (owner : String) : MemberText → Bool
  | field _ => true
  | method m => m.parts.all (BodyPart.isValid (m.declared owner).signature) &&
    m.parts.all BodyPart.avoidsSwitch

theorem reads_lines (p : Program) {member : MemberText} (h : member.isReadable c.name = true) :
    Reads (p.declare c) (.inClass c) member.lines (p.declare (addTo c member))
      (.inClass (addTo c member)) := by
  cases member with
  | field f =>
    have hread := f.reads (p.declare c) c
    have hname : (addTo c (field f)).name = c.name := rfl
    exact (p.declare_declare hname) ▸ hread
  | method m =>
    rw [isReadable, Bool.and_eq_true] at h
    exact MethodText.reads_lines p h.1 h.2

theorem reads_all (p : Program) {members : List MemberText}
    (h : members.all (isReadable c.name) = true) :
    Reads (p.declare c) (.inClass c) (members.flatMap lines) (p.declare (members.foldl addTo c))
      (.inClass (members.foldl addTo c)) := by
  induction members generalizing c with
  | nil => exact .nil
  | cons member members ih =>
    rw [List.all_cons, Bool.and_eq_true] at h
    exact (reads_lines p h.1).append (ih (by rw [name_addTo]; exact h.2))

/-- Members are put one after the other, fields by fields and methods by methods. -/
theorem foldl_addTo (c : Class) (members : List MemberText) :
    members.foldl addTo c =
      { c with
        fields := c.fields.putAll ((members.filterMap field?).map fun f => f.toField c.name)
        methods := c.methods.putAll
          ((members.filterMap method?).map fun m => m.toMethod c.name) } := by
  induction members generalizing c with
  | nil => rfl
  | cons member members ih =>
    rw [List.foldl_cons, ih]
    cases member <;> rfl

end MemberText

/-! ### Classes -/

namespace ClassText

variable (c : ClassText)

theorem foldl_addTo : c.members.foldl MemberText.addTo c.opened = c.toClass := by
  have hfields : (∅ : Roster Field.name).putAll c.fields = ⟨c.fields, c.nodup_fields⟩ :=
    Roster.ext (Roster.items_putAll c.nodup_fields (by simp))
  have hmethods :
      (∅ : Roster Method.subsignature).putAll c.methods = ⟨c.methods, c.nodup_methods⟩ :=
    Roster.ext (Roster.items_putAll c.nodup_methods (by simp))
  rw [MemberText.foldl_addTo, toClass, ← hfields, ← hmethods]
  rfl

theorem isReadable_of_mem (hswitch : c.avoidsSwitches = true) :
    c.members.all (MemberText.isReadable c.name.text) = true := by
  rw [List.all_eq_true]
  intro member hmember
  cases member with
  | field f => rfl
  | method m =>
    have hm : m ∈ c.members.filterMap MemberText.method? := List.mem_filterMap.2 ⟨_, hmember, rfl⟩
    rw [MemberText.isReadable, Bool.and_eq_true]
    exact ⟨List.all_eq_true.1 c.parts_valid m hm, List.all_eq_true.1 hswitch m hm⟩

/-- **A listed class is read as what it says**, and the reader is outside of it behind its last
line. -/
theorem reads_lines (p : Program) (hswitch : c.avoidsSwitches = true) :
    Reads p .outside c.lines (p.declare c.toClass) .outside := by
  have hmembers := MemberText.reads_all (c := c.opened) p (c.isReadable_of_mem hswitch)
  rw [c.foldl_addTo] at hmembers
  exact ((c.reads_header p).append hmembers).append (Reads.line (by simp) rfl)

theorem reads_all (p : Program) {classes : List ClassText}
    (hswitch : ∀ c ∈ classes, c.avoidsSwitches = true) :
    Reads p .outside (classes.flatMap lines)
      ((classes.map toClass).foldl Program.declare p) .outside := by
  induction classes generalizing p with
  | nil => exact .nil
  | cons c classes ih =>
    exact (c.reads_lines p (hswitch c List.mem_cons_self)).append
      (ih (p.declare c.toClass) fun c' hc' => hswitch c' (List.mem_cons_of_mem c hc'))

theorem classes_foldl_declare (p : Program) (classes : List Class) :
    (classes.foldl Program.declare p).classes = p.classes.putAll classes := by
  induction classes generalizing p with
  | nil => rfl
  | cons c classes ih => exact ih (p.declare c)

end ClassText

/-! ### Programs -/

/-- **A listing is read as the program that it lists.** Where the lines of a text without comments
are those of listed classes that have names of their own, the reader has no fault and ends with
exactly these classes in their order. A body has a statement for each statement and each switch
that it lists, with the number of its line. The text has no declared type and no label that begins
like a switch: the reader takes such a line for one and looks for the brace that closes it. -/
theorem read_listing (text : String) (classes : List ClassText)
    (hcomments : isUncommented text.toList = true)
    (hlines : linesOf text = classes.flatMap ClassText.lines)
    (hnames : (classes.map fun c => c.name.text).Nodup)
    (hswitch : ∀ c ∈ classes, c.avoidsSwitches = true) :
    (read ∅ text).2 = none ∧ (read ∅ text).1.classes.items = classes.map ClassText.toClass := by
  have hrun : read ∅ text = ((classes.map ClassText.toClass).foldl Program.declare ∅, none) := by
    rw [read, codeLines_of_uncommented hcomments]
    obtain ⟨q, raw, hprogram, hphase, hrest, hq⟩ := ClassText.reads_all ∅ hswitch
      { program := ∅ } ((splitLines text.toList).map trim) [] rfl rfl
      (hlines.trans (List.append_nil _).symm)
    rw [hq, Reader.run_end hphase hrest, hprogram]
  have hnodup : ((classes.map ClassText.toClass).map Class.name).Nodup := by
    rw [List.map_map]
    exact hnames
  rw [hrun]
  refine ⟨rfl, ?_⟩
  rw [ClassText.classes_foldl_declare]
  exact Roster.items_putAll hnodup fun _ _ => List.not_mem_nil

/-- A class and an interface with every kind of member and of line in a body. -/
def shapesLines : List String :=
  ["public class A extends B implements I, J \x7b", "", "private static int n;",
    "public abstract void f();", "", "public void run(int, A) throws E, F", "\x7b", "A r0, $r1;",
    "label1:", "r0 = $r1;", "lookupswitch(i)", "\x7b", "case 0: goto label1;", "\x7d;",
    "catch E from label1 to label1 with label1;", "return;", "\x7d", "\x7d", "",
    "interface I extends J, K", "\x7b", "\x7d"]

def shapes : List Char := shapesLines.flatMap fun line => line.toList ++ ['\n']

/-- The method with a body in `shapes`. -/
def shapesRun : MethodText where
  number := 6
  modifiers := [⟨"public".toList, by decide +kernel⟩]
  returnType := ⟨"void".toList, by decide +kernel⟩
  name := .plain ⟨"run".toList, by decide +kernel⟩
  params := [⟨"int".toList, by decide +kernel⟩, ⟨"A".toList, by decide +kernel⟩]
  throws := [⟨"E".toList, by decide +kernel⟩, ⟨"F".toList, by decide +kernel⟩]
  gap := ⟨[' '], by decide⟩
  ending := .body (.below 7)
    [.declaration 8 ⟨"A".toList, by decide +kernel⟩ ⟨[' '], by decide⟩
      ⟨"r0".toList, by decide +kernel⟩ [⟨"$r1".toList, by decide +kernel⟩],
     .label 9 ⟨"label1".toList, by decide +kernel⟩,
     .statement 10 "r0 = $r1".toList,
     .switch 11 "lookupswitch(i)".toList [⟨12, ['\x7b']⟩, ⟨13, "case 0: goto label1;".toList⟩] 14,
     .handler 15 ⟨"E".toList, by decide +kernel⟩ ⟨"label1".toList, by decide +kernel⟩
      ⟨"label1".toList, by decide +kernel⟩ ⟨"label1".toList, by decide +kernel⟩,
     .statement 16 "return".toList]
    17

/-- The class in `shapes`. -/
def shapesClass : ClassText where
  number := 1
  modifiers := [⟨"public".toList, by decide +kernel⟩]
  kind := .ofClass (some ⟨"B".toList, by decide +kernel⟩)
  name := ⟨"A".toList, by decide +kernel⟩
  interfaces := [⟨"I".toList, by decide +kernel⟩, ⟨"J".toList, by decide +kernel⟩]
  gap := ⟨[' '], by decide⟩
  brace := .behind ⟨[' '], by decide⟩
  members :=
    [.field ⟨3, [⟨"private".toList, by decide +kernel⟩, ⟨"static".toList, by decide +kernel⟩],
      ⟨"int".toList, by decide +kernel⟩, ⟨"n".toList, by decide +kernel⟩⟩,
     .method ⟨4, [⟨"public".toList, by decide +kernel⟩, ⟨"abstract".toList, by decide +kernel⟩],
      ⟨"void".toList, by decide +kernel⟩, .plain ⟨"f".toList, by decide +kernel⟩, [], [],
      ⟨[], by decide⟩, .semicolon⟩,
     .method shapesRun]
  closing := 18
  modifiers_valid := by decide +kernel
  names_valid := by decide +kernel
  fields_nodup := by decide +kernel
  methods_nodup := by decide +kernel
  parts_valid := by decide +kernel

/-- The interface in `shapes`. -/
def shapesInterface : ClassText where
  number := 20
  modifiers := []
  kind := .ofInterface
  name := ⟨"I".toList, by decide +kernel⟩
  interfaces := [⟨"J".toList, by decide +kernel⟩, ⟨"K".toList, by decide +kernel⟩]
  gap := ⟨[' '], by decide⟩
  brace := .below 21
  members := []
  closing := 22
  modifiers_valid := by decide +kernel
  names_valid := by decide +kernel
  fields_nodup := by decide +kernel
  methods_nodup := by decide +kernel
  parts_valid := by decide +kernel

/-- A listing with all shapes is read as its two classes. A local of a type that begins like a
switch is taken for one, and the text ends inside of the class. -/
theorem read_listing_shapes :
    isUncommented shapes = true ∧
      linesOf (String.ofList shapes) = [shapesClass, shapesInterface].flatMap ClassText.lines ∧
      (read ∅ (String.ofList shapes)).2 = none ∧
      (read ∅ (String.ofList shapes)).1.classes.items =
        [shapesClass.toClass, shapesInterface.toClass] ∧
      (shapesClass.methods.map fun m => m.body.map fun b => b.statements.map Statement.line) =
        [none, some [10, 11, 16]] ∧
      (read ∅ "class A\n\x7b\nvoid m()\n\x7b\ntableswitcher r;\nreturn;\n\x7d\n\x7d\n").2 =
        some (.atLine 8 .unexpectedEnd) := by
  have htext : (String.ofList shapes).toList = shapes := String.toList_ofList
  have hcomments : isUncommented shapes = true := by decide +kernel
  have hlines : linesOf (String.ofList shapes) =
      [shapesClass, shapesInterface].flatMap ClassText.lines := by
    rw [linesOf, htext]
    decide +kernel
  have hswitch : ∀ c ∈ [shapesClass, shapesInterface], c.avoidsSwitches = true := by decide +kernel
  obtain ⟨hfault, hclasses⟩ := read_listing (String.ofList shapes) [shapesClass, shapesInterface]
    (htext.symm ▸ hcomments) hlines (by decide +kernel) hswitch
  exact ⟨hcomments, hlines, hfault, hclasses, by decide +kernel, by decide +kernel⟩

end Jimple

end PointsTo
