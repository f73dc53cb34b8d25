import Std.Data.HashMap
import SchemaLayout.Diagram

/-!
# Recorded diagrams

A diagram that is given by its answers: for each node its size, where it is, and what the diagram
says of its relationships, which may be a failure and need not be the same seen from the two ends.
-/

namespace SchemaLayout

/-- What is recorded of a node, with nodes of type `ι`. -/
structure NodeRecord (ι : Type) where
  size : Size
  position : Point
  exported : Except String (List ι)
  imported : Except String (List ι)

/-- A diagram that answers from a record. -/
structure RecordedDiagram (ι : Type) [BEq ι] [Hashable ι] where
  nodes : Std.HashMap ι (NodeRecord ι)

namespace RecordedDiagram

variable {ι : Type} [BEq ι] [Hashable ι]

/-- The diagram of a list of records, of which a later one overrides an earlier one of its node. -/
def ofList (records : List (ι × NodeRecord ι)) : RecordedDiagram ι := ⟨.ofList records⟩

/-- The answer about relationships of a node that is not recorded. -/
def unknownNode : Except String (List ι) := .error "unknown node"

instance : Diagram (RecordedDiagram ι) ι where
  position? diagram node := diagram.nodes[node]?.map (·.position)
  size? diagram node := diagram.nodes[node]?.map (·.size)
  move? diagram node position :=
    diagram.nodes[node]?.map fun record =>
      ⟨diagram.nodes.insert node { record with position := position }⟩
  exported diagram node := (diagram.nodes[node]?.map (·.exported)).getD unknownNode
  imported diagram node := (diagram.nodes[node]?.map (·.imported)).getD unknownNode

end RecordedDiagram

end SchemaLayout
