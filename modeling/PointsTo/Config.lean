import PointsTo.Text.Quoted

/-!
The settings of a run: which analysis, from which method, and how much of the log is shown. They
are checked before anything is read.
-/
namespace PointsTo

inductive Algorithm where
  | pointers
  | classes
deriving DecidableEq, Repr

namespace Algorithm

def all : List Algorithm := [pointers, classes]

def name : Algorithm → String
  | pointers => "pta"
  | classes => "cha"

def ofName? (name : String) : Option Algorithm := all.find? fun a => a.name = name

end Algorithm

/-- The names of log levels with the least severity that each shows. -/
def logLevels : List (String × Nat) :=
  [("CRITICAL", 50), ("FATAL", 50), ("ERROR", 40), ("WARN", 30), ("WARNING", 30), ("INFO", 20),
   ("DEBUG", 10), ("NOTSET", 0)]

/-- A character in upper case, as far as the names of levels depend on it: they are ASCII, and two
letters beyond ASCII have capitals among their letters. -/
def levelCapital (c : Char) : Char :=
  if c = '\u0131' then 'I' else if c = '\u017f' then 'S' else c.toUpper

/-- What an option of the program is set to: a text, or nothing at all. -/
inductive Setting where
  | text (s : String)
  | nothing
deriving DecidableEq, Repr

namespace Setting

/-- A setting without quotes; nothing is written as an empty list. -/
def plain : Setting → String
  | text s => s
  | nothing => "[]"

/-- A setting as faults quote it. -/
def quoted : Setting → String
  | text s => Text.quoted s
  | nothing => "[]"

def isText (setting : Setting) (s : String) : Bool := setting = text s

end Setting

structure LogLevel where
  name : String
  severity : Nat
deriving DecidableEq, Repr

/-- The level of a name, in whatever case the name is written. -/
def LogLevel.ofName? (name : String) : Option LogLevel :=
  let capital := String.ofList (name.toList.map levelCapital)
  (logLevels.find? fun level => level.1 = capital).map fun level => ⟨level.1, level.2⟩

structure Config where
  entry : Option String
  algorithm : Algorithm
  logLevel : LogLevel
deriving DecidableEq, Repr

/-- A setting that has no such value. -/
inductive ConfigFault where
  | unknownAlgorithm (algorithm : Setting)
  | unknownLogLevel (name : String)
  | noLogLevel
deriving DecidableEq, Repr

def ConfigFault.message : ConfigFault → String
  | unknownAlgorithm algorithm =>
    "unknown algorithm " ++ algorithm.quoted ++ "; expected one of (" ++
      ", ".intercalate (Algorithm.all.map fun a => Text.quoted a.name) ++ ")"
  | unknownLogLevel name => "unknown log level " ++ Text.quoted name
  | noLogLevel => "no log level"

def Algorithm.ofSetting? : Setting → Option Algorithm
  | .text name => ofName? name
  | .nothing => none

/-- The settings of a run as they were given; of two wrong ones the analysis is reported. -/
def Config.ofSettings (entry : Option Setting) (algorithm logLevel : Setting) :
    Except ConfigFault Config :=
  match Algorithm.ofSetting? algorithm, logLevel with
  | none, _ => .error (.unknownAlgorithm algorithm)
  | some _, .nothing => .error .noLogLevel
  | some algorithm, .text name =>
    match LogLevel.ofName? name with
    | none => .error (.unknownLogLevel name)
    | some logLevel => .ok ⟨entry.map Setting.plain, algorithm, logLevel⟩

end PointsTo
