import SchemaLayout.Geometry.Ron
import SchemaLayout.Ron.Reader
import SchemaLayout.Schema.Description

/-!
# Descriptions in files

A description is stored as a record with the list of its tables and the list of its relationships,
of which the second may be missing. The position of a table may be missing, too; the table is then
at the origin.
-/

namespace SchemaLayout

/-- Reads a table. -/
def Table.ofValue? (value : Ron.Value) : Option Table := do
  let fields ← value.toFields? "TableSpec"
  let name ← Ron.readField fields "name" Ron.Value.toText?
  let position ← Ron.readFieldOr fields "position" Point.ofValue? .zero
  let size ← Ron.readField fields "size" Size.ofValue?
  return ⟨name, position, size⟩

/-- A table in a file. -/
def Table.toDocument (table : Table) : Ron.Document :=
  .record
    [("name", .text table.name), ("position", table.position.toDocument),
      ("size", table.size.toDocument)]

/-- Reads a relationship. -/
def Reference.ofValue? (value : Ron.Value) : Option Reference := do
  let fields ← value.toFields? "RelationshipSpec"
  let primary ← Ron.readField fields "pk_table" Ron.Value.toText?
  let foreign ← Ron.readField fields "fk_table" Ron.Value.toText?
  return ⟨primary, foreign⟩

/-- A relationship in a file. -/
def Reference.toDocument (reference : Reference) : Ron.Document :=
  .record [("pk_table", .text reference.primary), ("fk_table", .text reference.foreign)]

namespace Description

/-- Reads a description. -/
def ofValue? (value : Ron.Value) : Option Description := do
  let fields ← value.toFields? "DiagramSpec"
  let tables ← Ron.readField fields "tables" (Ron.Value.toList? Table.ofValue?)
  let references ←
    Ron.readFieldOr fields "relationships" (Ron.Value.toList? Reference.ofValue?) []
  return ⟨tables, references⟩

/-- Reads a file of a description. -/
def parse (file : String) : Option Description := do ofValue? (← Ron.parse file)

/-- A description in a file. -/
def toDocument (description : Description) : Ron.Document :=
  .record
    [("tables", .list (description.tables.map Table.toDocument)),
      ("relationships", .list (description.references.map Reference.toDocument))]

/-- A file of a description in compact form. -/
def toRon (description : Description) : String := .ofList description.toDocument.compact

end Description

end SchemaLayout
