import SchemaLayout.Geometry.Coord

/-!
# Points, sizes and gaps

The shapes that a layout works with. They take the number type as a parameter, which is `Coord`
unless another is named, so that the placing of tables can also be run over unbounded integers and
the two runs be compared.
-/

namespace SchemaLayout

/-- A position on the plane; `y` grows downwards. -/
@[ext]
structure Point (α : Type := Coord) where
  x : α
  y : α
deriving DecidableEq

/-- The extent of a table. -/
@[ext]
structure Size (α : Type := Coord) where
  width : α
  height : α
deriving DecidableEq

/-- The space that a layout leaves between tables. -/
@[ext]
structure Gaps (α : Type := Coord) where
  /-- Space between a table and the column of the tables related to it. -/
  horizontal : α
  /-- Space between two tables of one column. -/
  vertical : α
deriving DecidableEq

namespace Point

/-- The origin of the plane. -/
def zero : Point := ⟨0, 0⟩

instance : Inhabited Point := ⟨zero⟩

end Point

namespace Gaps

/-- The gaps that are used where none are asked for. -/
def standard : Gaps := ⟨60, 10⟩

instance : Inhabited Gaps := ⟨standard⟩

end Gaps

end SchemaLayout
