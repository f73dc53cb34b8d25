import SchemaLayout.Geometry.Ron
import SchemaLayout.Ron.Reader
import SchemaLayout.Settings

/-!
# Settings in files

Settings are stored as a record of four fields. Each of them may be missing and is then as in the
standard settings.
-/

namespace SchemaLayout.Settings

/-- Reads settings. -/
def ofValue? (value : Ron.Value) : Option Settings := do
  let fields ← value.toFields? "LayoutSettings"
  let animated ← Ron.readFieldOr fields "animation_enabled" Ron.Value.toBool? standard.animated
  let frames ← Ron.readFieldOr fields "num_frames_in_anim" Ron.Value.toWord? standard.frames
  let horizontal ←
    Ron.readFieldOr fields "horizontal_gap" Ron.Value.toCoord? standard.gaps.horizontal
  let vertical ← Ron.readFieldOr fields "vertical_gap" Ron.Value.toCoord? standard.gaps.vertical
  return ⟨animated, frames, ⟨horizontal, vertical⟩⟩

/-- Reads a file of settings. -/
def parse (file : String) : Option Settings := do ofValue? (← Ron.parse file)

/-- Settings in a file. -/
def toDocument (settings : Settings) : Ron.Document :=
  .record
    [("animation_enabled", .bool settings.animated),
      ("num_frames_in_anim", .int settings.frames.toNat),
      ("horizontal_gap", settings.gaps.horizontal.toDocument),
      ("vertical_gap", settings.gaps.vertical.toDocument)]

/-- A file of settings in compact form. -/
def toRon (settings : Settings) : String := .ofList settings.toDocument.compact

end SchemaLayout.Settings
