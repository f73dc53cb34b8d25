import SchemaLayout.Geometry.Point

/-!
# Diagrams

A diagram is whatever owns nodes that have a position, a size and relationships to other nodes. A
layout reads sizes and relationships, and writes positions; it knows nothing else about the
diagram. A node that the diagram does not hold has no position and no size.

`Placements` is what a layout computes, and `LayoutError` is why it may be refused.
-/

namespace SchemaLayout

/-- What a layout needs of diagrams of type `δ` with nodes of type `ι`. -/
class Diagram (δ : Type) (ι : outParam Type) where
  /-- Where a node is, if the diagram holds it. -/
  position? : δ → ι → Option Point
  /-- How large a node is, if the diagram holds it. -/
  size? : δ → ι → Option Size
  /-- Moves a node, if the diagram holds it. -/
  move? : δ → ι → Point → Option δ
  /-- The nodes that refer to a node, in the order of the relationships; may fail with a text. -/
  exported : δ → ι → Except String (List ι)
  /-- The nodes that a node refers to, in the order of the relationships; may fail with a text. -/
  imported : δ → ι → Except String (List ι)

/-! ## Placements -/

/-- Where nodes are to be: a list of nodes with their positions, which names no node twice. -/
abbrev Placements (ι : Type) : Type := List (ι × Point)

namespace Placements

variable {ι : Type} [BEq ι]

/-- The position given to a node. -/
def find? (placements : Placements ι) (node : ι) : Option Point := placements.lookup node

/-- The placements that a list of assignments leaves, of which a later one overrides an earlier. -/
def ofAssignments (assignments : List (ι × Point)) : Placements ι :=
  assignments.foldr
    (fun assignment later =>
      if (later.lookup assignment.1).isSome then later else assignment :: later) []

end Placements

/-! ## Errors -/

/-- Why a layout is refused. -/
inductive LayoutError (ι : Type) where
  /-- The diagram could not tell the relationships of a node. -/
  | modelAccess (node : ι) (cause : String)
  /-- A node is related to one that is not laid out with it. -/
  | foreignNode (node related : ι)
  /-- A node is listed twice. -/
  | duplicateNode (node : ι)
  /-- A node is listed that the diagram does not hold. -/
  | missingNode (node : ι)
deriving DecidableEq

namespace LayoutError

/-- The text of an error, in which a node is shown by its label. -/
def message {ι : Type} (label : ι → String) : LayoutError ι → String
  | .modelAccess node _ => "could not read the relationships of node " ++ label node
  | .foreignNode node related =>
    "node " ++ label node ++ " is related to " ++ label related
      ++ ", which is not part of the layout"
  | .duplicateNode node => "node " ++ label node ++ " appears more than once in the layout"
  | .missingNode node => "node " ++ label node ++ " is not part of the diagram"

end LayoutError

end SchemaLayout
