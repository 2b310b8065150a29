/-!
The help of the command line.
-/
namespace PointsTo.CommandLine

def programName : String := "ptanalyzer"

def usage : String :=
  "usage: " ++ programName ++ " [-h] --file FILE [--lang \x7bjimple,java\x7d]\n" ++
  "                  [--algorithm \x7bpta,cha\x7d] [--entry ENTRY]\n" ++
  "                  [--format \x7btext,dot,pfg-dot,json\x7d] [--output OUTPUT]\n" ++
  "                  [--log-level LOG_LEVEL]\n"

def help : String :=
  usage ++
  "\n" ++
  "Static Pointer Analyzer CLI\n" ++
  "\n" ++
  "options:\n" ++
  "  -h, --help            show this help message and exit\n" ++
  "  --file FILE           Path to the input program (Jimple text or Java source)\n" ++
  "  --lang \x7bjimple,java\x7d  Input language; Java goes through javac and Soot\n" ++
  "  --algorithm \x7bpta,cha\x7d\n" ++
  "                        pta: on-the-fly pointer analysis, cha: class hierarchy\n" ++
  "                        analysis\n" ++
  "  --entry ENTRY         Entry method signature or Class.method (default: main)\n" ++
  "  --format \x7btext,dot,pfg-dot,json\x7d\n" ++
  "                        Report format\n" ++
  "  --output OUTPUT       Write the report to this file instead of stdout\n" ++
  "  --log-level LOG_LEVEL\n" ++
  "                        Logging level (DEBUG, INFO, WARNING, ...)\n"

end PointsTo.CommandLine
