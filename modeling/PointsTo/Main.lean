import PointsTo.CommandLine.Answer

/-!
The command line program. It looks at the files that a command line names, leaves the answer to
`CommandLine.answer`, and carries the answer out.
-/
namespace PointsTo.Shell

open PointsTo.CommandLine PointsTo.Files PointsTo.Java

/-- Why a file that is no folder could not be opened. -/
def causeOf : IO.Error → Cause
  | .permissionDenied .. => .denied
  | .inappropriateType .. => .notAFolder
  | _ => .notFound

def kindOf? (path : Path) : IO (Option Kind) := do
  let place := (← IO.currentDir) / path.text
  if ← place.isDir then return some .folder
  else if ← place.pathExists then return some .file
  else return none

def readFile (path : Path) : IO (Except Cause (List UInt8)) := do
  if (← kindOf? path) = some .folder then return .error .isAFolder
  try
    return .ok (← IO.FS.readBinFile path.text).toList
  catch e => return .error (causeOf e)

/-- The answer to a command line, with the files as they are now. No tools are run: to convert a
Java source is left to whoever has them. -/
def answerNow (words : List String) : IO Answer := do
  let environment : Environment := {
    sootJavaHome := ← IO.getEnv "SOOT_JAVA_HOME"
    javaHome := ← IO.getEnv "JAVA_HOME"
    sootJar := ← IO.getEnv "SOOT_JAR" }
  let content ← match Request.ofWords words with
    | .ok (.analyze (.text file) _) => readFile (Path.ofText file)
    | _ => pure (.error .notFound)
  let kinds ← environment.probes.mapM fun path => do return (path, ← kindOf? path)
  let host : Host := {
    environment
    read := fun _ => content
    kind? := fun path => .ok ((kinds.find? fun known => known.1 = path).bind Prod.snd)
    work := Path.ofText "."
    run := fun _ => { status := 127, stderr := "the tools of the Java front end are not run" } }
  return answer host words

def tell (crash : Crash) : IO UInt32 := do
  IO.eprintln <|
    match crash with
    | .noFile => "error: the source file is set to nothing"
    | .noLogLevel => "error: " ++ ConfigFault.noLogLevel.message
    | .undecodable => "error: the source is not in UTF-8"
    | .unclosedHeader => "error: " ++ Jimple.Fault.unclosedHeader.message
    | .badFile fault => "error: " ++ fault.message
  return 1

def carryOut (a : Answer) : IO UInt32 := do
  IO.eprint a.stderr
  IO.print a.stdout
  if let some (path, text) := a.report then
    try
      IO.FS.writeFile path.text text
    catch e => return ← tell (.badFile ⟨path, causeOf e⟩)
  match a.ending with
  | .exit code => return code.toUInt32
  | .crash crash => tell crash

end PointsTo.Shell

def main (words : List String) : IO UInt32 := do
  PointsTo.Shell.carryOut (← PointsTo.Shell.answerNow words)
