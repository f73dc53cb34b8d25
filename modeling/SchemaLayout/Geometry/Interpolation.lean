import SchemaLayout.Geometry.Point
import SchemaLayout.Number.Binary64

/-!
# Points on the way between two points

A table that is moved in steps is drawn on the straight line from where it was to where it goes.
`Point.towards` is the point of that line at a given progress, computed in double precision and cut
to whole coordinates towards zero.
-/

namespace SchemaLayout

/-- The coordinate that a number is cut to: its fraction is dropped, what lies beyond the plane is
moved to its edge, and what is no number becomes zero. -/
def Binary64.toCoord : Binary64 → Coord
  | .nan => 0
  | .infinite negative => if negative then .clamp (-2147483648) else .clamp 2147483647
  | .finite q => .clamp (truncate q)

/-- The number of a coordinate, which is exact. -/
def Coord.toBinary64 (c : Coord) : Binary64 := .ofInt c.toInt

/-- The coordinate between `a` and `b` at a given progress, `0` at `a` and `1` at `b`. -/
def Coord.towards (a b : Coord) (progress : Binary64) : Coord :=
  (a.toBinary64 + (b.toBinary64 - a.toBinary64) * progress).toCoord

/-- The point between `p` and `q` at a given progress, `0` at `p` and `1` at `q`. -/
def Point.towards (p q : Point) (progress : Binary64) : Point :=
  ⟨p.x.towards q.x progress, p.y.towards q.y progress⟩

end SchemaLayout
