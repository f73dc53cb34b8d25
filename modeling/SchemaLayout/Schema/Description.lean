import SchemaLayout.Schema
import SchemaLayout.Text.Quoted

/-!
# Descriptions of schemas

A schema is described by its tables and by relationships between the names of tables. A description
makes sense if no two tables have one name and each relationship names tables of the description;
`Schema.ofDescription` builds the schema of such a description and says what is wrong with any
other.
-/

namespace SchemaLayout

/-- A relationship between tables that are given by name. -/
structure Reference where
  /-- The table whose primary key is referred to. -/
  primary : String
  /-- The table that refers to it. -/
  foreign : String
deriving DecidableEq

/-- What a schema consists of. -/
structure Description where
  tables : List Table
  references : List Reference
deriving DecidableEq

/-- Why a description makes no sense. -/
inductive DescriptionError where
  /-- A relationship names a table that is not described. -/
  | unknownTable (name : String)
  /-- Two tables have one name. -/
  | duplicateTable (name : String)
deriving DecidableEq

namespace DescriptionError

/-- The text of an error. -/
def message : DescriptionError → String
  | .unknownTable name => "relationship refers to unknown table " ++ Text.quote name
  | .duplicateTable name => "table " ++ Text.quote name ++ " is defined more than once"

end DescriptionError

namespace Schema

/-- Adds a table whose name is new. -/
def define (schema : Schema) (table : Table) : Except DescriptionError Schema :=
  match schema.findTable? table.name with
  | some _ => .error (.duplicateTable table.name)
  | none => .ok (schema.addTable table).1

/-- The table of a name. -/
def resolve (schema : Schema) (name : String) : Except DescriptionError TableId :=
  match schema.findTable? name with
  | some id => .ok id
  | none => .error (.unknownTable name)

/-- Adds a relationship between two tables that are given by name. -/
def relate (schema : Schema) (reference : Reference) : Except DescriptionError Schema := do
  let primary ← schema.resolve reference.primary
  let foreign ← schema.resolve reference.foreign
  return schema.addRelationship primary foreign

/-- The schema of a description: tables come first, then relationships, each in their order. -/
def ofDescription (description : Description) : Except DescriptionError Schema := do
  let schema ← description.tables.foldlM define empty
  description.references.foldlM relate schema

end Schema

end SchemaLayout
