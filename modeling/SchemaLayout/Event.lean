import SchemaLayout.Geometry.Point
import SchemaLayout.Number.Binary64
import SchemaLayout.Settings

/-!
# Events

What a program reports while it works, as data: each `Event` has a level of detail and a line of
text. Operations return their events beside their results, in the order in which they happened.
-/

namespace SchemaLayout

/-- How detailed a report is. -/
inductive Level where
  | debug
  | trace
deriving DecidableEq

namespace Level

/-- The word for a level. -/
def label : Level → String
  | debug => "DEBUG"
  | trace => "TRACE"

end Level

/-- Something that happened, with nodes of type `ι`. -/
inductive Event (ι : Type) where
  /-- The settings are known. -/
  | settingsChosen (settings : Settings)
  /-- A layout of so many nodes begins. -/
  | layoutStarted (count : Nat) (origin : Point)
  /-- All nodes have a place. -/
  | layoutFinished (finish : Point)
  /-- A node is to move. -/
  | nodePlaced (node : ι) (source target : Point)
  /-- So many nodes can be moved. -/
  | animationReady (count : Nat) (frames : UInt32)
  /-- A frame of an animation begins. -/
  | framePlayed (frame frames : UInt32) (progress : Binary64)
  /-- A frame of an animation has moved so many tables. -/
  | frameShown (progress : Binary64) (moved : Nat)

namespace Point

/-- The text of a point in a report. -/
def label (p : Point) : String :=
  "Point \x7b x: " ++ toString p.x.toInt ++ ", y: " ++ toString p.y.toInt ++ " \x7d"

end Point

namespace Settings

/-- The text of settings in a report. -/
def label (settings : Settings) : String :=
  "LayoutSettings \x7b animation_enabled: " ++ (if settings.animated then "true" else "false")
    ++ ", num_frames_in_anim: " ++ toString settings.frames.toNat
    ++ ", horizontal_gap: " ++ toString settings.gaps.horizontal.toInt
    ++ ", vertical_gap: " ++ toString settings.gaps.vertical.toInt ++ " \x7d"

end Settings

namespace Binary64

/-- The bits of a number as sixteen hexadecimal digits, which tell it exactly. -/
def label (x : Binary64) : String := .ofList ((Nat.toDigits 16 x.toBits.toNat).leftpad 16 '0')

/-- A hundred times a number without decimals; a half goes to the even neighbour. -/
def percent (x : Binary64) : String :=
  match x * .finite 100 with
  | .nan => "NaN"
  | .infinite negative => if negative then "-inf" else "inf"
  | .finite q => toString (roundHalfEven q)

end Binary64

namespace Event

variable {ι : Type}

/-- How detailed an event is. -/
def level : Event ι → Level
  | settingsChosen _ | layoutStarted _ _ | layoutFinished _ | animationReady _ _ | frameShown _ _ =>
    .debug
  | nodePlaced _ _ _ | framePlayed _ _ _ => .trace

/-- The text of an event, in which a node is shown by its label. -/
def message (label : ι → String) : Event ι → String
  | settingsChosen settings => "Settings: " ++ settings.label
  | layoutStarted count origin =>
    "Tree layout of " ++ toString count ++ " nodes from " ++ origin.label
  | layoutFinished finish => "Tree layout finished at " ++ finish.label
  | nodePlaced node source target =>
    "Node " ++ label node ++ ": old=" ++ source.label ++ " new=" ++ target.label
  | animationReady count frames =>
    "Layout ready for " ++ toString count ++ " nodes over " ++ toString frames.toNat ++ " frames"
  | framePlayed frame frames progress =>
    "Layout frame " ++ toString frame.toNat ++ "/" ++ toString frames.toNat
      ++ " (" ++ progress.label ++ ")"
  | frameShown progress moved =>
    "Frame " ++ progress.percent ++ "%: moved " ++ toString moved ++ " tables"

/-- The line of an event: its level and its text. -/
def line (label : ι → String) (event : Event ι) : String :=
  event.level.label ++ " " ++ event.message label

end Event

end SchemaLayout
