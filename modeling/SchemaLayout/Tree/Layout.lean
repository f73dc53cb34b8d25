import SchemaLayout.Tree.Columns

/-!
# Tree layout

The layout of a list of nodes of a diagram as a tree that grows to the right: all nodes are put in
one column that begins at the origin, and related nodes move to the columns on its right. Nodes are
visited in the order in which they are listed, so the result depends on that order.
-/

namespace SchemaLayout

/-- The outcome of a layout. -/
structure TreeLayout (ι : Type) where
  /-- The position of each node, in the order in which the nodes are listed. -/
  placements : Placements ι
  /-- The free slot below the outermost column. -/
  finish : Point
deriving DecidableEq

variable {δ ι : Type} [Diagram δ ι] [BEq ι] [Hashable ι]

/-- Lays out a list of nodes from an origin. -/
def treeLayout (gaps : Gaps) (diagram : δ) (nodes : List ι) (origin : Point) :
    Except (LayoutError ι) (TreeLayout ι) := do
  let listed : Vector ι nodes.length := ⟨nodes.toArray, by simp⟩
  let network ← Network.resolve diagram listed
  let columns := Columns.place network gaps (.replicate _ none) (List.finRange _) origin
  let placements := (nodes.zip columns.placed.toList).filterMap fun (node, position?) =>
    position?.map fun position => (node, position)
  return ⟨placements, columns.finish⟩

end SchemaLayout
