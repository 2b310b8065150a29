import PointsTo.Files.Source
import PointsTo.Java.UnitName

/-!
Java programs. A Java source is compiled and the classes are turned into Jimple by two tools; which
tools those are is found from the environment. The tools themselves are run by whoever asks: here
stand the commands and what is made of their results.
-/
namespace PointsTo.Java

open PointsTo.Files PointsTo.Text

structure Environment where
  sootJavaHome : Option String := none
  javaHome : Option String := none
  sootJar : Option String := none
deriving DecidableEq, Repr

/-- The tools: the Java launcher, the compiler, and the archive with the converter. -/
structure Toolchain where
  java : String
  javac : String
  sootJar : String
deriving DecidableEq, Repr

inductive ToolchainFault where
  | noHome
  | homeNotAFolder (home : Path)
  | noCompiler (home : Path)
  | noJar
  | unreachable (fault : Fault)
deriving DecidableEq, Repr

def ToolchainFault.message : ToolchainFault → String
  | noHome => "set SOOT_JAVA_HOME or JAVA_HOME to a JDK to analyze Java sources"
  | homeNotAFolder home => "JDK home " ++ home.text ++ " is not a directory"
  | noCompiler home => "no javac in " ++ home.text ++ "; a JRE is not enough"
  | noJar => "SOOT_JAR must name soot-*-jar-with-dependencies.jar"
  | unreachable fault => fault.message

namespace Environment

/-- The home of the Java tools: the first of the two variables that is set to a text. -/
def home? (e : Environment) : Option String :=
  (e.sootJavaHome.filter (· ≠ "")).or (e.javaHome.filter (· ≠ ""))

def tool (home : Path) (name : String) : Path := (home.child "bin").child name

/-- The paths at which `Toolchain.find` looks. -/
def probes (e : Environment) : List Path :=
  let home := Path.ofText (e.home?.getD "")
  [home, tool home "javac", tool home "java", Path.ofText (e.sootJar.getD "")]

end Environment

/-- Finds the tools, where `kind?` looks up what stands at a path. -/
def Toolchain.find (e : Environment) (kind? : Path → Except Cause (Option Kind)) :
    Except ToolchainFault Toolchain := do
  let look := fun path =>
    (kind? path).mapError fun cause => ToolchainFault.unreachable ⟨path, cause⟩
  let some home := e.home?.map Path.ofText | throw .noHome
  let javac := Environment.tool home "javac"
  let java := Environment.tool home "java"
  if (← look home) ≠ some .folder then throw (.homeNotAFolder home)
  if (← look javac).isNone then throw (.noCompiler home)
  let some jar := e.sootJar.filter (· ≠ "") | throw .noJar
  if (← look (Path.ofText jar)) ≠ some .file then throw .noJar
  return {
    java := if (← look java).isSome then java.text else "java"
    javac := javac.text
    sootJar := jar }

abbrev Command := List String

/-- What a tool run leaves: its status, what it wrote to its two streams, and the files below its
output folder. -/
structure ToolRun where
  status : Int := 0
  stderr : String := ""
  stdout : String := ""
  outputs : Tree := ∅

inductive BuildFault where
  | noToolchain (fault : ToolchainFault)
  | unwritable (fault : Fault)
  | nothingToCompile
  | toolFailed (tool : String) (status : Int) (output : String)
  | noOutput (folder : Path)
  | badOutput (fault : ProgramFault)
deriving DecidableEq, Repr

def BuildFault.message : BuildFault → String
  | noToolchain fault => fault.message
  | unwritable fault => fault.message
  | nothingToCompile => "nothing to compile"
  | toolFailed tool status output =>
    tool ++ " exited with status " ++ toString status ++ "\n" ++ output
  | noOutput folder => "soot wrote no Jimple files to " ++ folder.text
  | badOutput fault => fault.message

namespace Toolchain

def compileCommand (t : Toolchain) (sources : List Path) (classes : Path) :
    Except BuildFault Command :=
  if sources.isEmpty then .error .nothingToCompile
  else .ok ([t.javac, "-g", "-d", classes.text] ++ sources.map Path.text)

def jimpleCommand (t : Toolchain) (classes output : Path) : Command :=
  [t.java, "-cp", t.sootJar, "soot.Main", "-pp", "-allow-phantom-refs", "-keep-line-number",
    "-p", "jb", "use-original-names:true", "-src-prec", "class", "-process-dir", classes.text,
    "-output-format", "jimple", "-output-dir", output.text]

end Toolchain

/-- What a tool wrote, as the fault of its run shows it. -/
def ToolRun.output (r : ToolRun) : String :=
  "\n".intercalate (([r.stderr, r.stdout].map fun s => String.ofList (trim s.toList)).filter
    fun s => !s.isEmpty)

/-- A run that has to end with status zero. -/
def ToolRun.check (r : ToolRun) (tool : String) : Except BuildFault ToolRun :=
  if r.status = 0 then .ok r else .error (.toolFailed tool r.status r.output)

/-- A build: the commands that were run, and the program or what went wrong. -/
structure Build where
  commands : List Command
  outcome : Except BuildFault Program

def readOutputs (outputs : Tree) (folder : Path) : Except BuildFault Program :=
  match outputs.withSuffix ".jimple" with
  | [] => .error (.noOutput folder)
  | paths =>
    let read := fun (p : Path) => outputs.read ⟨"", p.parts.drop folder.parts.length⟩
    match readProgram read (paths.map folder.join) with
    | .ok program => .ok program
    | .error fault => .error (.badOutput fault)

/-- Builds the program of a Java source in a work folder. A blank source is a program without
classes and needs no tools. -/
def build (t : Except ToolchainFault Toolchain) (source : String) (work : Path)
    (run : Command → ToolRun) : Build :=
  if source.toList.all isBlank then ⟨[], .ok ∅⟩
  else
    match t with
    | .error fault => ⟨[], .error (.noToolchain fault)⟩
    | .ok t =>
      let classes := work.child "classes"
      let output := work.child "jimple"
      let name := unitName source ++ ".java"
      let unit : Path := ⟨work.root, work.parts ++ ["src", name]⟩
      if name.utf8ByteSize > maxName then ⟨[], .error (.unwritable ⟨unit, .nameTooLong⟩)⟩
      else
        match t.compileCommand [unit] classes with
        | .error fault => ⟨[], .error fault⟩
        | .ok compile =>
          match (run compile).check "javac" with
          | .error fault => ⟨[compile], .error fault⟩
          | .ok _ =>
            let convert := t.jimpleCommand classes output
            let outcome := do
              let converted ← (run convert).check "soot"
              readOutputs converted.outputs output
            ⟨[compile, convert], outcome⟩

end PointsTo.Java
