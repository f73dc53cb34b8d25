import Std.Data.HashMap
import SchemaLayout.Diagram

/-!
# Networks

A `Network` is what the placing of nodes works on: the nodes of one layout, known only by their
numbers, with the size of each and the numbers of the nodes related to it. Nodes are numbered in
the order in which they are listed, and the type of the numbers says that each of them is a node of
the network.

`Network.resolve` reads a network from a diagram. It is the only place where a layout can be
refused, and it refuses in a fixed order: a node that is listed twice comes before everything else,
then each node in turn is asked for its relationships, and sizes are read at the end.
-/

namespace SchemaLayout

/-- The nodes of one layout by number, with sizes in the number type `α`. -/
structure Network (α : Type) (n : Nat) where
  sizes : Vector (Size α) n
  /-- The nodes related to each node, those that refer to it before those that it refers to. -/
  related : Vector (List (Fin n)) n

namespace Network

variable {δ ι : Type} [Diagram δ ι] [BEq ι] [Hashable ι] {n : Nat}

/-- The number of each node of a list, or the first node that is listed a second time. -/
def numbering (nodes : Vector ι n) : Except (LayoutError ι) (Std.HashMap ι (Fin n)) :=
  (List.finRange n).foldlM
    (fun numbers i =>
      let node := nodes.get i
      if node ∈ numbers then .error (.duplicateNode node) else .ok (numbers.insert node i)) ∅

/-- The numbers of the nodes related to a node. -/
def relatedNumbers (diagram : δ) (numbers : Std.HashMap ι (Fin n)) (node : ι) :
    Except (LayoutError ι) (List (Fin n)) := do
  let exported ← (Diagram.exported diagram node).mapError (.modelAccess node)
  let imported ← (Diagram.imported diagram node).mapError (.modelAccess node)
  (exported ++ imported).mapM fun other =>
    match numbers[other]? with
    | some i => .ok i
    | none => .error (.foreignNode node other)

/-- The size of a node. -/
def sizeOf (diagram : δ) (node : ι) : Except (LayoutError ι) Size :=
  match Diagram.size? diagram node with
  | some size => .ok size
  | none => .error (.missingNode node)

/-- The network of a list of nodes. -/
def resolve (diagram : δ) (nodes : Vector ι n) : Except (LayoutError ι) (Network Coord n) := do
  let numbers ← numbering nodes
  let related ← nodes.mapM (relatedNumbers diagram numbers)
  let sizes ← nodes.mapM (sizeOf diagram)
  return ⟨sizes, related⟩

end Network

end SchemaLayout
