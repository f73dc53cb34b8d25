import SchemaLayout.Geometry.Point

/-!
# Settings

What a user may choose about a layout: whether tables move in steps or at once, in how many steps,
and the gaps between tables.
-/

namespace SchemaLayout

/-- The choices of a user. -/
structure Settings where
  /-- Tables move in steps instead of at once. -/
  animated : Bool
  /-- The number of steps of an animation. -/
  frames : UInt32
  gaps : Gaps
deriving DecidableEq

namespace Settings

/-- The settings that are used where none are chosen. -/
def standard : Settings := ⟨true, 50, .standard⟩

instance : Inhabited Settings := ⟨standard⟩

end Settings

end SchemaLayout
