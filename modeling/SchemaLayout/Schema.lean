import Std.Data.HashMap
import SchemaLayout.Diagram

/-!
# Schemas

A `Schema` is a diagram of database tables. Tables are numbered in the order in which they are
added and are never taken away. A relationship leads from a table whose primary key is referred to
to the table that refers to it: the first exports the relationship, the second imports it. Each
table lists the relationships of either kind in the order in which they were added.

Names need not be distinct; `findTable?` finds the table that was added last under a name.
-/

namespace SchemaLayout

/-- A table as it is drawn. -/
structure Table where
  name : String
  position : Point
  size : Size
deriving DecidableEq

/-- The number of a table in its schema. -/
structure TableId where
  index : Nat
deriving DecidableEq, Hashable

namespace TableId

/-- How a table is named in messages about it. -/
def label (id : TableId) : String := "NodeIndex(" ++ toString id.index ++ ")"

end TableId

/-- A table with the relationships that begin and end at it. -/
structure TableNode where
  table : Table
  /-- The tables that refer to this one. -/
  exported : Array TableId
  /-- The tables that this one refers to. -/
  imported : Array TableId

/-- A diagram of tables and their relationships. -/
structure Schema where
  nodes : Array TableNode
  /-- The table that was added last under each name. -/
  names : Std.HashMap String TableId

namespace Schema

/-- The schema without tables. -/
def empty : Schema := ⟨#[], ∅⟩

instance : Inhabited Schema := ⟨empty⟩

/-- Adds a table that has no relationships yet. -/
def addTable (schema : Schema) (table : Table) : Schema × TableId :=
  let id : TableId := ⟨schema.nodes.size⟩
  (⟨schema.nodes.push ⟨table, #[], #[]⟩, schema.names.insert table.name id⟩, id)

/-- The table that was added last under a name. -/
def findTable? (schema : Schema) (name : String) : Option TableId := schema.names[name]?

/-- A table by its number. -/
def table? (schema : Schema) (id : TableId) : Option Table :=
  schema.nodes[id.index]?.map (·.table)

/-- The numbers of all tables, in the order in which they were added. -/
def tableIds (schema : Schema) : List TableId :=
  (List.range schema.nodes.size).map TableId.mk

/-- The tables that refer to a table, in the order of the relationships. -/
def exported (schema : Schema) (id : TableId) : List TableId :=
  match schema.nodes[id.index]? with
  | some node => node.exported.toList
  | none => []

/-- The tables that a table refers to, in the order of the relationships. -/
def imported (schema : Schema) (id : TableId) : List TableId :=
  match schema.nodes[id.index]? with
  | some node => node.imported.toList
  | none => []

/-- Adds a relationship from a table to one that refers to it, both of which the schema holds. -/
def addRelationship (schema : Schema) (primary foreign : TableId) : Schema :=
  let nodes := schema.nodes.modify primary.index fun node =>
    { node with exported := node.exported.push foreign }
  let nodes := nodes.modify foreign.index fun node =>
    { node with imported := node.imported.push primary }
  ⟨nodes, schema.names⟩

/-- Adds a relationship, if the schema holds both tables. -/
def addRelationship? (schema : Schema) (primary foreign : TableId) : Option Schema :=
  if primary.index < schema.nodes.size ∧ foreign.index < schema.nodes.size then
    some (schema.addRelationship primary foreign)
  else none

/-- Moves a table, if the schema holds it. -/
def move? (schema : Schema) (id : TableId) (position : Point) : Option Schema :=
  if id.index < schema.nodes.size then
    let nodes := schema.nodes.modify id.index fun node =>
      { node with table := { node.table with position := position } }
    some ⟨nodes, schema.names⟩
  else none

instance : Diagram Schema TableId where
  position? schema id := (schema.table? id).map (·.position)
  size? schema id := (schema.table? id).map (·.size)
  move? := move?
  exported schema id := .ok (schema.exported id)
  imported schema id := .ok (schema.imported id)

end Schema

end SchemaLayout
