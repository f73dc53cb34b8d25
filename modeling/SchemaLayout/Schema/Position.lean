import SchemaLayout.Geometry.Ron
import SchemaLayout.Ron.Reader

/-!
# Positions of tables

Where the tables of a schema are, as a list by name. The list is printed as RON in the pretty form,
and `parseList` reads what `printList` prints.
-/

namespace SchemaLayout

/-- Where a table is. -/
structure TablePosition where
  name : String
  x : Coord
  y : Coord
deriving DecidableEq

namespace TablePosition

/-- A position in a file. -/
def toDocument (table : TablePosition) : Ron.Document :=
  .record [("name", .text table.name), ("x", table.x.toDocument), ("y", table.y.toDocument)]

/-- Reads a position. -/
def ofValue? (value : Ron.Value) : Option TablePosition := do
  let fields ← value.toFields? "Placement"
  let name ← Ron.readField fields "name" Ron.Value.toText?
  let x ← Ron.readField fields "x" Ron.Value.toCoord?
  let y ← Ron.readField fields "y" Ron.Value.toCoord?
  return ⟨name, x, y⟩

/-- The text of a list of positions, with a line end after it. -/
def printList (tables : List TablePosition) : String :=
  .ofList ((Ron.Document.list (tables.map toDocument)).pretty 0 ++ ['\n'])

/-- Reads the text of a list of positions. -/
def parseList (text : String) : Option (List TablePosition) := do
  (← Ron.parse text).toList? ofValue?

end TablePosition

end SchemaLayout
