import PointsTo.Files.Tree
import PointsTo.Jimple.Reader
import PointsTo.Text.Utf8

/-!
Reading programs from files. All line ends count as line feeds.
-/
namespace PointsTo.Files

open PointsTo.Text

/-- The text of a file in UTF-8, if its bytes have no fault. -/
def textOf? (bytes : List UInt8) : Option String :=
  (Utf8.decode? bytes).map fun chars => String.ofList (plainNewlines chars)

/-- The text of a file in UTF-8, with a replacement character for each fault of its bytes. -/
def lossyText (bytes : List UInt8) : String :=
  String.ofList (plainNewlines (Utf8.decodeLossy bytes))

inductive ProgramFault where
  | unreadable (fault : Fault)
  | malformed (path : Path) (line : Nat) (fault : Jimple.LineFault)
  | unclosedHeader
deriving DecidableEq, Repr

def ProgramFault.message : ProgramFault → String
  | unreadable fault => fault.message
  | malformed path line fault => path.text ++ ": " ++ (Jimple.Fault.atLine line fault).message
  | unclosedHeader => Jimple.Fault.unclosedHeader.message

def readInOrder (read : Path → Except Cause (List UInt8)) (program : Program) :
    List Path → Except ProgramFault Program
  | [] => .ok program
  | path :: paths =>
    match read path with
    | .error cause => .error (.unreadable ⟨path, cause⟩)
    | .ok bytes =>
      match Jimple.read program (lossyText bytes) with
      | (program, none) => readInOrder read program paths
      | (_, some (.atLine line fault)) => .error (.malformed path line fault)
      | (_, some .unclosedHeader) => .error .unclosedHeader

/-- Reads the files of a program in the order of their paths. -/
def readProgram (read : Path → Except Cause (List UInt8)) (paths : List Path) :
    Except ProgramFault Program :=
  readInOrder read ∅ (Path.sorted paths)

end PointsTo.Files
