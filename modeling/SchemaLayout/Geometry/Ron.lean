import SchemaLayout.Geometry.Point
import SchemaLayout.Ron.Decoding
import SchemaLayout.Ron.Document

/-!
# Points and sizes in files

A point is stored as `(x: 0, y: 0)` and a size as `(width: 0, height: 0)`, all fields required.
-/

namespace SchemaLayout

/-- A coordinate in a file. -/
def Coord.toDocument (c : Coord) : Ron.Document := .int c.toInt

/-- Reads a point. -/
def Point.ofValue? (value : Ron.Value) : Option Point := do
  let fields ← value.toFields? "Point"
  let x ← Ron.readField fields "x" Ron.Value.toCoord?
  let y ← Ron.readField fields "y" Ron.Value.toCoord?
  return ⟨x, y⟩

/-- A point in a file. -/
def Point.toDocument (p : Point) : Ron.Document :=
  .record [("x", p.x.toDocument), ("y", p.y.toDocument)]

/-- Reads a size. -/
def Size.ofValue? (value : Ron.Value) : Option Size := do
  let fields ← value.toFields? "Size"
  let width ← Ron.readField fields "width" Ron.Value.toCoord?
  let height ← Ron.readField fields "height" Ron.Value.toCoord?
  return ⟨width, height⟩

/-- A size in a file. -/
def Size.toDocument (s : Size) : Ron.Document :=
  .record [("width", s.width.toDocument), ("height", s.height.toDocument)]

end SchemaLayout
