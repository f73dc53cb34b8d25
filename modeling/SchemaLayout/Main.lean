import SchemaLayout.CommandLine

/-!
# The executable

Reads the files that the command line names and does what the library says: what is printed goes to
the standard output, everything else to the standard error.
-/

namespace SchemaLayout.CommandLine

/-- What is found under a name on disk. -/
def findEntry (name : String) : IO (Option FileEntry) := do
  try
    return some (.content (← IO.FS.readBinFile name))
  catch
    | .noFileOrDirectory .. => return none
    | _ => return some .directory

/-- The files that a command line names. -/
def Invocation.namedFiles : Invocation → List String
  | .layOut arguments => arguments.config.toList ++ [arguments.diagram]
  | _ => []

/-- The text of a failure. -/
def Failure.message : Failure → String
  | .usage => "error: wrong usage, try --help"
  | .program error =>
    "Error: " ++ error.message ++ (error.cause?.map ("\n\nCaused by:\n    " ++ ·)).getD ""

/-- Runs the program on the files of the disk. -/
def perform (arguments : List String) : IO UInt32 := do
  let invocation := Invocation.ofArguments arguments
  let mut found := []
  for name in invocation.namedFiles do
    if let some entry ← findEntry name then
      found := (name, entry) :: found
  let entries := found
  let ending := invocation.perform fun name => entries.lookup name
  let detail := (← IO.getEnv "RUST_LOG").getD ""
  for line in logLines detail ending.events.toList do
    IO.eprintln line
  IO.print ending.output
  if let some failure := ending.failure then
    IO.eprintln failure.message
  return ending.status

end SchemaLayout.CommandLine

/-- Runs the program. -/
def main (arguments : List String) : IO UInt32 := SchemaLayout.CommandLine.perform arguments
