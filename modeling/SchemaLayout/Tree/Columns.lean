import SchemaLayout.Tree.Network

/-!
# Columns

Nodes are placed depth first, from left to right and from top to bottom. A column takes the nodes
of a list that have no place yet, one below the other; the nodes related to a node of the column
are placed in a new column to its right before the next node of its own column, which then goes
below all of them.

The columns that are not finished yet form a stack, so that a long chain of relationships needs no
recursion: `Columns.step` either places one node and opens the column of its related nodes, or
closes the topmost column and moves the cursor of the one below. Each step uses up a node without a
place or an open column, which is why `Columns.run` ends.

The number type is a parameter: all that is asked of it is addition and a maximum.
-/

namespace SchemaLayout

/-- A column in which nodes are being placed. -/
structure Column (α : Type) (n : Nat) where
  /-- The nodes that the column has still to look at. -/
  pending : List (Fin n)
  /-- Where the column begins. -/
  start : Point α
  /-- Where the next node of the column goes. -/
  cursor : Point α
  /-- The node whose related nodes are being placed in the column to the right. -/
  host : Option (Fin n)

/-- The state of a placement: the positions found so far and the open columns, topmost first. -/
structure Columns (α : Type) (n : Nat) where
  placed : Vector (Option (Point α)) n
  stack : List (Column α n)
  /-- The free slot below the column that was closed last. -/
  finish : Point α

namespace Columns

variable {α : Type} [Add α] [Max α] {n : Nat}

/-- A column that has not been looked at. -/
def openColumn (nodes : List (Fin n)) (start : Point α) : Column α n :=
  ⟨nodes, start, start, none⟩

/-- Where the column of the nodes related to a node begins, if the node is at `position`. -/
def rightOf (network : Network α n) (gaps : Gaps α) (i : Fin n) (position : Point α) : Point α :=
  ⟨position.x + (network.sizes.get i).width + gaps.horizontal, position.y⟩

/-- The slot below a node at `position` and below all of the column to its right, which ended at
`finish`. -/
def below (network : Network α n) (gaps : Gaps α) (i : Fin n) (position finish : Point α) : α :=
  max (position.y + (network.sizes.get i).height + gaps.vertical) finish.y

/-- Moves the cursor of the topmost column of a stack below its host, once the column to the right
has ended at `finish`. -/
def resume (network : Network α n) (gaps : Gaps α) (finish : Point α) :
    List (Column α n) → List (Column α n)
  | [] => []
  | column :: outer =>
    match column.host with
    | none => column :: outer
    | some i =>
      let cursor := ⟨column.start.x, below network gaps i column.cursor finish⟩
      { column with cursor := cursor, host := none } :: outer

/-- The nodes of a list from the first that has no place on. -/
def skipPlaced (placed : Vector (Option (Point α)) n) (nodes : List (Fin n)) : List (Fin n) :=
  nodes.dropWhile fun i => (placed.get i).isSome

/-- Works on the topmost column: places its next node and opens the column of the nodes related to
that, or closes the column if no node of it is left to place. -/
def advance (network : Network α n) (gaps : Gaps α) (placed : Vector (Option (Point α)) n)
    (column : Column α n) (outer : List (Column α n)) (finish : Point α) : Columns α n :=
  match skipPlaced placed column.pending with
  | i :: pending =>
    let placed := placed.set i (some column.cursor) i.isLt
    let related := (network.related.get i).filter fun j => (placed.get j).isNone
    let inner := openColumn related (rightOf network gaps i column.cursor)
    ⟨placed, inner :: { column with pending := pending, host := some i } :: outer, finish⟩
  | [] => ⟨placed, resume network gaps column.cursor outer, column.cursor⟩

/-- One step of the placement, or nothing when every column has been closed. -/
def step (network : Network α n) (gaps : Gaps α) : Columns α n → Option (Columns α n)
  | ⟨_, [], _⟩ => none
  | ⟨placed, column :: outer, finish⟩ => some (advance network gaps placed column outer finish)

/-! ## Termination -/

/-- How many nodes have no place. -/
def unplaced (placed : Vector (Option (Point α)) n) : Nat := placed.countP (·.isNone)

omit [Add α] [Max α] in
theorem unplaced_set_lt {placed : Vector (Option (Point α)) n} {i : Fin n} {position : Point α}
    (h : placed.get i = none) :
    unplaced (placed.set i (some position) i.isLt) < unplaced placed := by
  have hi : placed[i.val] = none := h
  have hpos : 0 < placed.countP (·.isNone) :=
    Vector.countP_pos_iff.mpr ⟨placed[i.val], Vector.getElem_mem i.isLt, by simp [hi]⟩
  simp only [unplaced, Vector.countP_set, hi, Option.isNone_none, Option.isNone_some, ite_true,
    Bool.false_eq_true, ite_false]
  omega

omit [Add α] [Max α] in
/-- The first node that is left after skipping has no place. -/
theorem get_of_skipPlaced {placed : Vector (Option (Point α)) n} {nodes pending : List (Fin n)}
    {i : Fin n} (h : skipPlaced placed nodes = i :: pending) : placed.get i = none := by
  have hne : skipPlaced placed nodes ≠ [] := by simp [h]
  have hhead := List.head_dropWhile_not (fun j : Fin n => (placed.get j).isSome) hne
  simp only [show nodes.dropWhile (fun j : Fin n => (placed.get j).isSome) = i :: pending from h,
    List.head_cons] at hhead
  simpa using hhead

theorem length_resume (network : Network α n) (gaps : Gaps α) (finish : Point α)
    (stack : List (Column α n)) : (resume network gaps finish stack).length = stack.length := by
  unfold resume
  repeat' split
  all_goals rfl

/-- Each step uses up a node without a place or, failing that, an open column. -/
theorem measure_advance_lt (network : Network α n) (gaps : Gaps α)
    (placed : Vector (Option (Point α)) n) (column : Column α n) (outer : List (Column α n))
    (finish : Point α) :
    let next := advance network gaps placed column outer finish
    Prod.Lex (· < ·) (· < ·) (unplaced next.placed, next.stack.length)
      (unplaced placed, (column :: outer).length) := by
  unfold advance
  split <;> rename_i hskip
  · exact .left _ _ (unplaced_set_lt (get_of_skipPlaced hskip))
  · refine .right _ ?_
    simp [length_resume]

/-- Steps until every column has been closed. -/
def run (network : Network α n) (gaps : Gaps α) : Columns α n → Columns α n
  | ⟨placed, [], finish⟩ => ⟨placed, [], finish⟩
  | ⟨placed, column :: outer, finish⟩ =>
    run network gaps (advance network gaps placed column outer finish)
termination_by s => (unplaced s.placed, s.stack.length)
decreasing_by exact measure_advance_lt ..

/-- A run goes on as long as there is a step to take. -/
theorem run_eq (network : Network α n) (gaps : Gaps α) (s : Columns α n) :
    run network gaps s = (step network gaps s).elim s (run network gaps) := by
  match s with
  | ⟨_, [], _⟩ => rw [run, step, Option.elim]
  | ⟨_, _ :: _, _⟩ => rw [run, step, Option.elim]

/-- Places a list of nodes in a column that begins at `start`, next to what is placed already. The
result holds the positions and the free slot below the column. -/
def place (network : Network α n) (gaps : Gaps α) (placed : Vector (Option (Point α)) n)
    (nodes : List (Fin n)) (start : Point α) : Columns α n :=
  run network gaps ⟨placed, [openColumn nodes start], start⟩

end Columns

end SchemaLayout
