import SchemaLayout.CommandLine.Arguments
import SchemaLayout.Program

/-!
# The command line

Running the program from a command line: what it prints, how it ends, and what it reports on the
way, all as a value. The positions of the tables are printed as a list in RON; nothing is printed
if anything goes wrong.
-/

namespace SchemaLayout.CommandLine

/-- The text that explains the command line. -/
def helpText : String :=
  "Automatic tree layout for schema diagrams\n\n" ++
  "Usage: tablepen [OPTIONS] <DIAGRAM>\n\n" ++
  "Arguments:\n" ++
  "  <DIAGRAM>  Diagram to lay out, in RON\n\n" ++
  "Options:\n" ++
  "      --config <CONFIG>      Layout settings, in RON\n" ++
  "      --origin-x <ORIGIN_X>  [default: 0]\n" ++
  "      --origin-y <ORIGIN_Y>  [default: 0]\n" ++
  "      --frames <FRAMES>      Number of animation frames, overrides the settings file\n" ++
  "      --no-animation         Move the tables at once instead of animating them\n" ++
  "  -h, --help                 Print help\n" ++
  "  -V, --version              Print version\n"

/-- The text that tells the version. -/
def versionText : String := "tablepen 0.1.0\n"

/-- Why the program fails. -/
inductive Failure where
  /-- The command line is wrong. -/
  | usage
  | program (error : ProgramError)
deriving DecidableEq

/-- How a run of the program ends. -/
structure Ending where
  /-- What it has printed. -/
  output : String
  events : Array (Event TableId)
  failure : Option Failure

namespace Ending

/-- The exit status. -/
def status (ending : Ending) : UInt32 :=
  match ending.failure with
  | none => 0
  | some (.program _) => 1
  | some .usage => 2

/-- A run that only prints a text. -/
def printing (text : String) : Ending := ⟨text, #[], none⟩

end Ending

/-- Lays out a diagram as the arguments demand. -/
def Arguments.run (arguments : Arguments) (files : Files) : Ending :=
  match files.loadSettings arguments.config with
  | .error e => ⟨"", #[], some (.program e)⟩
  | .ok settings =>
    let settings := arguments.adjust settings
    let report := files.layOut arguments.diagram settings arguments.origin
    let events := #[.settingsChosen settings] ++ report.events
    match report.result with
    | .error e => ⟨"", events, some (.program e)⟩
    | .ok tables => ⟨TablePosition.printList tables, events, none⟩

/-- Runs the program. -/
def Invocation.perform (files : Files) : Invocation → Ending
  | .layOut arguments => arguments.run files
  | .help => .printing helpText
  | .version => .printing versionText
  | .misuse => ⟨"", #[], some .usage⟩

/-- Runs the program from its command line. -/
def run (files : Files) (arguments : List String) : Ending :=
  (Invocation.ofArguments arguments).perform files

/-- The levels that a word asks to be shown. -/
def shownLevels : String → List Level
  | "debug" => [.debug]
  | "trace" => [.debug, .trace]
  | _ => []

/-- The lines of a log, given the word that says how detailed it is. -/
def logLines (detail : String) (events : List (Event TableId)) : List String :=
  (events.filter fun event => event.level ∈ shownLevels detail).map (·.line TableId.label)

end SchemaLayout.CommandLine
