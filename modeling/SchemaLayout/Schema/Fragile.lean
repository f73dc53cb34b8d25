import SchemaLayout.Schema

/-!
# Fragile schemas

A schema as it is seen through a store that may break: asking for the relationships of a table can
fail, for each table and for each of the two kinds of relationships on its own. The schema itself is
not touched by that.
-/

namespace SchemaLayout

/-- Which relationships of a table are asked for. -/
inductive Side where
  | exported
  | imported
deriving DecidableEq

/-- A schema some of whose relationships cannot be read. -/
structure FragileSchema where
  schema : Schema
  /-- The text of each failure by table and side; an earlier entry overrides a later one. -/
  failures : List ((TableId × Side) × String)

namespace FragileSchema

/-- A schema all of whose relationships can be read. -/
def ofSchema (schema : Schema) : FragileSchema := ⟨schema, []⟩

/-- From now on the relationships of a table on one side cannot be read. -/
def fail (fragile : FragileSchema) (id : TableId) (side : Side) (text : String) : FragileSchema :=
  { fragile with failures := ((id, side), text) :: fragile.failures }

/-- From now on all relationships can be read. -/
def heal (fragile : FragileSchema) : FragileSchema := { fragile with failures := [] }

/-- What the schema says about one side of a table, unless that cannot be read. -/
def read (fragile : FragileSchema) (id : TableId) (side : Side) (tables : List TableId) :
    Except String (List TableId) :=
  match fragile.failures.lookup (id, side) with
  | some text => .error text
  | none => .ok tables

instance : Diagram FragileSchema TableId where
  position? fragile id := Diagram.position? fragile.schema id
  size? fragile id := Diagram.size? fragile.schema id
  move? fragile id position :=
    (fragile.schema.move? id position).map fun schema => { fragile with schema := schema }
  exported fragile id := fragile.read id .exported (fragile.schema.exported id)
  imported fragile id := fragile.read id .imported (fragile.schema.imported id)

end FragileSchema

end SchemaLayout
