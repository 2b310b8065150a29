import PointsTo.CommandLine.Help
import PointsTo.CommandLine.Options
import PointsTo.Java.Toolchain
import PointsTo.Report.Data
import PointsTo.Report.Dot

/-!
What the program answers to a command line: the settings are checked, the source is read and
analyzed, and the report goes to the output or to a file.
-/
namespace PointsTo.CommandLine

open PointsTo.Files PointsTo.Java PointsTo.Solver

/-- What the program asks of the machine that it runs on. -/
structure Host where
  environment : Environment := {}
  read : Path → Except Cause (List UInt8)
  kind? : Path → Except Cause (Option Kind)
  work : Path
  run : Command → ToolRun

/-- A fault for which the program has no message of its own. -/
inductive Crash where
  | noFile
  | noLogLevel
  | undecodable
  | unclosedHeader
  | badFile (fault : Files.Fault)
deriving DecidableEq, Repr

inductive Ending where
  | exit (code : Nat)
  | crash (crash : Crash)
deriving DecidableEq, Repr

/-- The answer of the program; `report` is a file that is written last, with its text. -/
structure Answer where
  stdout : String := ""
  stderr : String := ""
  report : Option (Path × String) := none
  ending : Ending
deriving DecidableEq

/-- The lines of a log that a level shows. -/
def shownLog (level : LogLevel) (log : List Event) : String :=
  String.join ((log.filter fun e => level.severity ≤ e.severity.rank).map fun e => e.line ++ "\n")

/-! ### Loading -/

/-- Why there is no program to analyze: a fault with a message, or a crash. -/
inductive LoadFault where
  | told (message : String)
  | crashed (crash : Crash)
deriving DecidableEq, Repr

def LoadFault.ofFile (fault : Files.Fault) : LoadFault :=
  if fault.cause = .nullCharacter then .crashed (.badFile fault) else .told fault.message

def loadJimple (source : String) : Except LoadFault Program :=
  match Jimple.read ∅ source with
  | (program, none) => .ok program
  | (_, some .unclosedHeader) => .error (.crashed .unclosedHeader)
  | (_, some fault) => .error (.told fault.message)

def loadJava (host : Host) (source : String) : Except LoadFault Program :=
  match (build (Toolchain.find host.environment host.kind?) source host.work host.run).outcome with
  | .ok program => .ok program
  | .error (.badOutput .unclosedHeader) => .error (.crashed .unclosedHeader)
  | .error fault => .error (.told fault.message)

def load (host : Host) (file lang : Setting) : Except LoadFault Program :=
  match file with
  | .nothing => .error (.crashed .noFile)
  | .text file =>
    let path := Path.ofText file
    match host.read path with
    | .error cause => .error (.ofFile ⟨path, cause⟩)
    | .ok bytes =>
      match textOf? bytes with
      | none => .error (.crashed .undecodable)
      | some source => if lang.isText "java" then loadJava host source else loadJimple source

/-! ### Reports -/

/-- A report, or the message of a fault, with the log up to there. -/
structure Outcome where
  log : List Event
  report : Except String String

/-- The report of the class hierarchy analysis, which has no formats but two. -/
def reportClasses (p : Program) (entry : Option String) (format : Setting) : Outcome :=
  match p.resolveEntry entry with
  | .error fault => ⟨[], .error fault.message⟩
  | .ok m =>
    let g := hierarchyCallGraph p m
    ⟨[g.finished],
      if format.isText "dot" then .ok (Report.callGraphDot g)
      else if format.isText "text" then .ok (Report.callGraphText g ++ "\n")
      else .error ("format " ++ format.quoted ++ " needs the pointer analysis")⟩

/-- The report of the pointer analysis, readable text unless another format is asked for. -/
def reportPointers (p : Program) (entry : Option String) (format : Setting) : Outcome :=
  match analyzePointers p entry with
  | .stopped s fault => ⟨s.log.toList, .error fault.message⟩
  | .going s =>
    ⟨s.log.toList, .ok <|
      if format.isText "dot" then Report.callGraphDot s.calls
      else if format.isText "pfg-dot" then Report.flowGraphDot s
      else if format.isText "json" then Report.resultJson s
      else Report.resultText s⟩

def reportOf (config : Config) (p : Program) (format : Setting) : Outcome :=
  match config.algorithm with
  | .classes => reportClasses p config.entry format
  | .pointers => reportPointers p config.entry format

/-! ### Answers -/

/-- The answer to a fault, behind what the log shows. -/
def failure (config : Config) (log : List Event) (message : String) : Answer where
  stderr := shownLog config.logLevel (log ++ [.failed]) ++ "error: " ++ message ++ "\n"
  ending := .exit 1

def Arguments.reportPath? (a : Arguments) : Option Path :=
  match a.output with
  | none | some .nothing | some (.text "") => none
  | some (.text path) => some (Path.ofText path)

def analyze (host : Host) (file : Setting) (arguments : Arguments) : Answer :=
  match Config.ofSettings arguments.entry arguments.algorithm arguments.logLevel with
  | .error .noLogLevel => { ending := .crash .noLogLevel }
  | .error fault => { stderr := "error: " ++ fault.message ++ "\n", ending := .exit 2 }
  | .ok config =>
    match load host file arguments.lang with
    | .error (.crashed crash) => { ending := .crash crash }
    | .error (.told message) => failure config [] message
    | .ok program =>
      let outcome := reportOf config program arguments.format
      match outcome.report with
      | .error message => failure config outcome.log message
      | .ok report =>
        let stderr := shownLog config.logLevel outcome.log
        match arguments.reportPath? with
        | none => { stdout := report, stderr, ending := .exit 0 }
        | some path => { stderr, report := some (path, report), ending := .exit 0 }

def usageLine (fault : UsageFault) : String :=
  programName ++ ": error: " ++ fault.message ++ "\n"

def answer (host : Host) (words : List String) : Answer :=
  match Request.ofWords words with
  | .error fault => { stderr := usage ++ usageLine fault, ending := .exit 2 }
  | .ok .help => { stdout := help, ending := .exit 0 }
  | .ok (.analyze file arguments) => analyze host file arguments

end PointsTo.CommandLine
