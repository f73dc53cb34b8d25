import SchemaLayout.Geometry.Point
import SchemaLayout.Settings

/-!
# Arguments

The command line takes the file of a diagram and a few options. An option stands before its value or
is joined to it by an equals sign; a value that begins with a dash is taken only if it is a dash by
itself, if it is joined, or if it is a negative number and the option allows for those. After two
dashes there are no more options.

Arguments are read from left to right. The first that is wrong makes the whole command line wrong;
a wish for help or for the version is granted as soon as it is met.
-/

namespace SchemaLayout.CommandLine

/-- An option that has a value. -/
inductive Setting where
  | config
  | originX
  | originY
  | frames
deriving DecidableEq

/-- What the program is asked to do. -/
structure Arguments where
  diagram : String
  config : Option String
  origin : Point
  frames : Option UInt32
  animated : Bool
deriving DecidableEq

/-- What has been given so far. -/
structure Given where
  diagram : Option String
  config : Option String
  originX : Option Coord
  originY : Option Coord
  frames : Option UInt32
  noAnimation : Bool

namespace Given

/-- Nothing has been given. -/
def nothing : Given := ⟨none, none, none, none, none, false⟩

end Given

/-! ## Single arguments -/

/-- The kinds of arguments by themselves. -/
inductive Argument where
  /-- The end of the options. -/
  | separator
  | setting (setting : Setting) (joined : Option String)
  | noAnimation
  | help
  | version
  | unknown
  | plain (text : String)
deriving DecidableEq

/-- An option by its name and the value that is joined to it. -/
def Argument.ofOption (name : String) (joined : Option String) : Argument :=
  match name, joined with
  | "config", _ => .setting .config joined
  | "origin-x", _ => .setting .originX joined
  | "origin-y", _ => .setting .originY joined
  | "frames", _ => .setting .frames joined
  | "no-animation", none => .noAnimation
  | "help", none => .help
  | "version", none => .version
  | _, _ => .unknown

/-- The kind of an argument that does not stand for the value of an option. -/
def Argument.ofText (text : String) : Argument :=
  match text.toList with
  | ['-', '-'] => .separator
  | '-' :: '-' :: rest =>
    let name := rest.takeWhile (· ≠ '=')
    match rest.dropWhile (· ≠ '=') with
    | [] => .ofOption (.ofList name) none
    | _ :: value => .ofOption (.ofList name) (some (.ofList value))
  | '-' :: 'h' :: _ => .help
  | '-' :: 'V' :: _ => .version
  | '-' :: _ :: _ => .unknown
  | _ => .plain text

/-! ## Values -/

/-- The number that decimal digits stand for. -/
def natOfDigits? (digits : List Char) : Option Nat :=
  if digits.isEmpty || !digits.all Char.isDigit then none
  else some (digits.foldl (fun n c => 10 * n + (c.toNat - '0'.toNat)) 0)

/-- The integer that a text stands for: decimal digits, perhaps after a sign. -/
def intOfText? (text : String) : Option Int :=
  match text.toList with
  | '-' :: digits => (natOfDigits? digits).map fun n => -(n : Int)
  | '+' :: digits => (natOfDigits? digits).map fun n => (n : Int)
  | digits => (natOfDigits? digits).map fun n => (n : Int)

/-- The coordinate that a text stands for. -/
def coordOfText? (text : String) : Option Coord := (intOfText? text).bind Coord.ofInt?

/-- The word that a text stands for. -/
def wordOfText? (text : String) : Option UInt32 := do
  let n ← intOfText? text
  if 0 ≤ n ∧ n < UInt32.size then return .ofNat n.toNat else none

/-- The name of a file, which is not empty. -/
def fileOfText? (text : String) : Option String := if text.isEmpty then none else some text

/-- Whether an argument that follows an option is its value. -/
def Setting.takes (setting : Setting) (text : String) : Bool :=
  match text.toList with
  | '-' :: digit :: digits =>
    (setting = .originX || setting = .originY) && (digit :: digits).all Char.isDigit
  | _ => true

namespace Given

/-- Sets something that has not been given yet. -/
def once {α : Type} (old new : Option α) : Option α := if old.isSome then none else new

/-- Sets an option to a value, if the option is new and the value is right. -/
def set (given : Given) (setting : Setting) (value : String) : Option Given :=
  match setting with
  | .config => do return { given with config := some (← once given.config (fileOfText? value)) }
  | .originX => do return { given with originX := some (← once given.originX (coordOfText? value)) }
  | .originY => do return { given with originY := some (← once given.originY (coordOfText? value)) }
  | .frames => do return { given with frames := some (← once given.frames (wordOfText? value)) }

/-- Takes the file of the diagram, if it is new. -/
def setDiagram (given : Given) (value : String) : Option Given := do
  return { given with diagram := some (← once given.diagram (fileOfText? value)) }

/-- Switches the animation off, if it has not been switched off yet. -/
def switchOff (given : Given) : Option Given :=
  if given.noAnimation then none else some { given with noAnimation := true }

/-- The arguments that have been given, if the diagram is among them. -/
def complete? (given : Given) : Option Arguments := do
  return {
    diagram := ← given.diagram
    config := given.config
    origin := ⟨given.originX.getD 0, given.originY.getD 0⟩
    frames := given.frames
    animated := !given.noAnimation }

end Given

/-! ## Command lines -/

/-- What a command line asks for. -/
inductive Invocation where
  | layOut (arguments : Arguments)
  | help
  | version
  /-- The command line is wrong. -/
  | misuse
deriving DecidableEq

namespace Invocation

/-- The invocation of arguments that are complete. -/
def ofGiven (given : Option Given) : Invocation :=
  match given.bind Given.complete? with
  | some arguments => .layOut arguments
  | none => .misuse

/-- Reads arguments from left to right. -/
def read (given : Given) : List String → Invocation
  | [] => .ofGiven (some given)
  | text :: rest =>
    match Argument.ofText text with
    | .separator => .ofGiven (rest.foldlM Given.setDiagram given)
    | .setting setting (some value) =>
      match given.set setting value with
      | some given => read given rest
      | none => .misuse
    | .setting setting none =>
      match rest with
      | [] => .misuse
      | value :: rest =>
        match if setting.takes value then given.set setting value else none with
        | some given => read given rest
        | none => .misuse
    | .noAnimation =>
      match given.switchOff with
      | some given => read given rest
      | none => .misuse
    | .help => .help
    | .version => .version
    | .unknown => .misuse
    | .plain text =>
      match given.setDiagram text with
      | some given => read given rest
      | none => .misuse

/-- What a command line asks for. -/
def ofArguments (arguments : List String) : Invocation := read .nothing arguments

end Invocation

/-- Settings with the changes that the command line makes to them. -/
def Arguments.adjust (arguments : Arguments) (settings : Settings) : Settings :=
  { settings with
    frames := arguments.frames.getD settings.frames
    animated := settings.animated && arguments.animated }

end SchemaLayout.CommandLine
