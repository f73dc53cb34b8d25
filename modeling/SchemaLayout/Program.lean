import SchemaLayout.Program.Files
import SchemaLayout.Schema.Description.Ron
import SchemaLayout.Schema.Position
import SchemaLayout.Session
import SchemaLayout.Settings.Ron

/-!
# The program

The program reads settings and the description of a schema from files, lays out all tables of the
schema, and tells where each of them is in the end. If tables are to be animated it plays all
frames, so the result is the same with and without an animation.

Files are read one after the other, settings first, and the first thing that goes wrong is what the
program reports.
-/

namespace SchemaLayout

/-! ## Errors -/

/-- Why the program gives up. -/
inductive ProgramError where
  | readSettings (file : String) (cause : ReadError)
  | parseSettings (file : String)
  | readDiagram (file : String) (cause : ReadError)
  | parseDiagram (file : String)
  | invalidDiagram (file : String) (cause : DescriptionError)
  | layout (cause : LayoutError TableId)
deriving DecidableEq

namespace ProgramError

/-- The text of an error. -/
def message : ProgramError → String
  | readSettings file _ => "Failed to read settings " ++ file
  | parseSettings file => "Failed to parse settings " ++ file
  | readDiagram file _ => "Failed to read diagram " ++ file
  | parseDiagram file => "Failed to parse diagram " ++ file
  | invalidDiagram file _ => "Invalid diagram " ++ file
  | layout _ => "Failed to lay out diagram"

/-- The text of what has caused an error, where there is more to be said. -/
def cause? : ProgramError → Option String
  | readSettings _ cause | readDiagram _ cause => some cause.message
  | parseSettings _ | parseDiagram _ => none
  | invalidDiagram _ cause => some cause.message
  | layout cause => some (cause.message TableId.label)

end ProgramError

/-! ## Reading files -/

/-- The settings of a file, or the standard ones if there is no file. -/
def Files.loadSettings (files : Files) : Option String → Except ProgramError Settings
  | none => .ok .standard
  | some file => do
    let text ← (files.readText file).mapError (.readSettings file)
    match Settings.parse text with
    | some settings => .ok settings
    | none => .error (.parseSettings file)

/-- The schema that a file describes. -/
def Files.loadSchema (files : Files) (file : String) : Except ProgramError Schema := do
  let text ← (files.readText file).mapError (.readDiagram file)
  match Description.parse text with
  | some description => (Schema.ofDescription description).mapError (.invalidDiagram file)
  | none => .error (.parseDiagram file)

/-! ## Laying out -/

namespace Session

variable {δ ι : Type} [Diagram δ ι]

/-- Plays one frame and reports how many tables it has moved. -/
def showFrame (session : Session ι) (diagram : δ) : Outcome δ ι Unit :=
  (session.nextFrame diagram).andThen fun moved session diagram =>
    ⟨session, diagram, #[.frameShown session.progress moved.length], .ok ()⟩

/-- Plays all frames that are left and reports each of them. -/
def showAll (session : Session ι) (diagram : δ) : Outcome δ ι Unit :=
  Nat.repeat (fun outcome => outcome.andThen fun _ session diagram => session.showFrame diagram)
    session.remaining (.unchanged session diagram ())

end Session

namespace Schema

/-- Where the tables of a schema are, in the order in which they were added. -/
def tablePositions (schema : Schema) : List TablePosition :=
  schema.tableIds.filterMap fun id =>
    (schema.table? id).map fun table => ⟨table.name, table.position.x, table.position.y⟩

/-- Lays out all tables of a schema and moves them to where they go. -/
def layOut (schema : Schema) (settings : Settings) (origin : Point) :
    Session.Outcome Schema TableId (List TablePosition) :=
  let session : Session TableId := .ofSettings settings
  let moved := (session.run schema schema.tableIds origin).andThen fun pending session schema =>
    if pending then session.showAll schema else .unchanged session schema ()
  moved.andThen fun _ session schema => .unchanged session schema schema.tablePositions

end Schema

/-- What the program has reported, and its result. -/
structure Report (α : Type) where
  events : Array (Event TableId)
  result : Except ProgramError α

/-- Reads a schema from a file and lays it out. -/
def Files.layOut (files : Files) (diagram : String) (settings : Settings) (origin : Point) :
    Report (List TablePosition) :=
  match files.loadSchema diagram with
  | .error e => ⟨#[], .error e⟩
  | .ok schema =>
    let outcome := schema.layOut settings origin
    ⟨outcome.events, outcome.result.mapError .layout⟩

end SchemaLayout
