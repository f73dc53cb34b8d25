import SchemaLayout.Tree.Columns

/-!
# Filling a column by recursion

`Columns.place` keeps the columns that it has not finished on a stack. This module holds the same
placement without a stack: `fill` goes down one column with a cursor and calls itself for the column
to the right of each node that it places. The stack of `Columns.run` then is nothing but the calls
that have not returned.

The calls of `fill` are spelled out as a relation, `Fills`, so that properties of a placement can be
proved by induction on its derivations: the column is at its end, its next node has a place already,
or the node is placed and both the column to its right and the rest of its own column are filled.

`run_of_fills` says that the topmost column runs to its end exactly as the recursion does, whatever
columns are open below it; `place_eq_fill` is the case in which there are none.
-/

namespace SchemaLayout

/-- What filling a column leaves: the positions found so far and the free slot below the column. -/
structure Filling (α : Type) (n : Nat) where
  placed : Vector (Option (Point α)) n
  finish : Point α

namespace Columns

variable {α : Type} {n : Nat}

/-- The positions after one more node has been placed. -/
def mark (placed : Vector (Option (Point α)) n) (i : Fin n) (position : Point α) :
    Vector (Option (Point α)) n :=
  placed.set i (some position) i.isLt

@[simp]
theorem get_mark_self (placed : Vector (Option (Point α)) n) (i : Fin n) (position : Point α) :
    (mark placed i position).get i = some position :=
  Vector.getElem_set_self i.isLt

theorem get_mark_of_ne {i j : Fin n} (h : i ≠ j) (placed : Vector (Option (Point α)) n)
    (position : Point α) : (mark placed i position).get j = placed.get j :=
  Vector.getElem_set_ne i.isLt j.isLt (fun hval => h (Fin.ext hval))

/-- Before anything is placed no node has a place. -/
@[simp]
theorem get_replicate_none (i : Fin n) :
    (Vector.replicate n (none : Option (Point α))).get i = none :=
  Vector.getElem_replicate i.isLt

/-- The nodes related to a node that have no place, in order and with repetitions. -/
def fresh (network : Network α n) (placed : Vector (Option (Point α)) n) (i : Fin n) :
    List (Fin n) :=
  (network.related.get i).filter fun j => (placed.get j).isNone

theorem mem_fresh {network : Network α n} {placed : Vector (Option (Point α)) n} {i j : Fin n} :
    j ∈ fresh network placed i ↔ j ∈ network.related.get i ∧ placed.get j = none := by
  simp [fresh, List.mem_filter]

/-- A node that has a place is passed over. -/
theorem skipPlaced_cons_of_placed {placed : Vector (Option (Point α)) n} {i : Fin n}
    (h : placed.get i ≠ none) (nodes : List (Fin n)) :
    skipPlaced placed (i :: nodes) = skipPlaced placed nodes :=
  List.dropWhile_cons_of_pos (Option.isSome_iff_ne_none.mpr h)

/-- A node that has no place is not passed over. -/
theorem skipPlaced_cons_of_unplaced {placed : Vector (Option (Point α)) n} {i : Fin n}
    (h : placed.get i = none) (nodes : List (Fin n)) :
    skipPlaced placed (i :: nodes) = i :: nodes :=
  List.dropWhile_cons_of_neg (by simp [h])

/-- What is listed after the first node that is not passed over ends the list. -/
theorem suffix_of_skipPlaced {placed : Vector (Option (Point α)) n} {nodes pending : List (Fin n)}
    {i : Fin n} (h : skipPlaced placed nodes = i :: pending) : pending <:+ nodes := by
  have hsuffix : skipPlaced placed nodes <:+ nodes := List.dropWhile_suffix _
  rw [h] at hsuffix
  exact (List.suffix_cons i pending).trans hsuffix

variable [Add α] [Max α]

/-! ## The recursion -/

/-- Fills a column that begins at `start` from `cursor` on. A node that has a place is passed over;
any other is placed at the cursor, the nodes related to it that have no place fill a column to its
right, and the cursor goes below the node and below that column. The result comes with the bound
that lets the recursion go on from it. -/
def fillWithin (network : Network α n) (gaps : Gaps α) (start : Point α)
    (placed : Vector (Option (Point α)) n) (nodes : List (Fin n)) (cursor : Point α) :
    { filling : Filling α n // unplaced filling.placed ≤ unplaced placed } :=
  match nodes with
  | [] => ⟨⟨placed, cursor⟩, Nat.le_refl _⟩
  | i :: nodes =>
    if h : placed.get i = none then
      let size := network.sizes.get i
      let right : Point α := ⟨cursor.x + size.width + gaps.horizontal, cursor.y⟩
      let marked := mark placed i cursor
      let inner := fillWithin network gaps right marked (fresh network marked i) right
      let y := max (cursor.y + size.height + gaps.vertical) inner.val.finish.y
      let outer := fillWithin network gaps start inner.val.placed nodes ⟨start.x, y⟩
      have hinner : unplaced inner.val.placed ≤ unplaced placed :=
        Nat.le_trans inner.property (Nat.le_of_lt (unplaced_set_lt h))
      ⟨outer.val, Nat.le_trans outer.property hinner⟩
    else fillWithin network gaps start placed nodes cursor
termination_by (unplaced placed, nodes.length)
decreasing_by
  · exact .left _ _ (unplaced_set_lt h)
  · exact .left _ _ (Nat.lt_of_le_of_lt inner.property (unplaced_set_lt h))
  · exact .right _ (Nat.lt_succ_self _)

/-- Fills a column that begins at `start` from `cursor` on. -/
def fill (network : Network α n) (gaps : Gaps α) (start : Point α)
    (placed : Vector (Option (Point α)) n) (nodes : List (Fin n)) (cursor : Point α) :
    Filling α n :=
  (fillWithin network gaps start placed nodes cursor).val

/-! ## The recursion as a relation -/

/-- `Fills network gaps start placed nodes cursor filling` says that filling the column that begins
at `start` with `nodes`, from `cursor` on and next to what is `placed`, leaves `filling`. -/
inductive Fills (network : Network α n) (gaps : Gaps α) :
    Point α → Vector (Option (Point α)) n → List (Fin n) → Point α → Filling α n → Prop
  /-- The column is at its end. -/
  | nil {start placed cursor} : Fills network gaps start placed [] cursor ⟨placed, cursor⟩
  /-- The next node has a place already. -/
  | skip {start placed i nodes cursor filling} (hplaced : placed.get i ≠ none)
      (rest : Fills network gaps start placed nodes cursor filling) :
      Fills network gaps start placed (i :: nodes) cursor filling
  /-- The next node is placed, then the column to its right, then the rest of its own column. -/
  | visit {start placed i nodes cursor inner outer} (hfree : placed.get i = none)
      (right : Fills network gaps (rightOf network gaps i cursor) (mark placed i cursor)
        (fresh network (mark placed i cursor) i) (rightOf network gaps i cursor) inner)
      (rest : Fills network gaps start inner.placed nodes
        ⟨start.x, below network gaps i cursor inner.finish⟩ outer) :
      Fills network gaps start placed (i :: nodes) cursor outer

variable {network : Network α n} {gaps : Gaps α} {start cursor : Point α}
  {placed : Vector (Option (Point α)) n} {i : Fin n} {nodes : List (Fin n)}
  {filling inner outer : Filling α n}

theorem fill_nil : fill network gaps start placed [] cursor = ⟨placed, cursor⟩ := by
  rw [fill, fillWithin]

theorem fill_cons_of_placed (h : placed.get i ≠ none) :
    fill network gaps start placed (i :: nodes) cursor =
      fill network gaps start placed nodes cursor := by
  rw [fill, fillWithin, dif_neg h, fill]

theorem fill_cons_of_unplaced (h : placed.get i = none) :
    fill network gaps start placed (i :: nodes) cursor =
      let right := rightOf network gaps i cursor
      let marked := mark placed i cursor
      let inner := fill network gaps right marked (fresh network marked i) right
      fill network gaps start inner.placed nodes
        ⟨start.x, below network gaps i cursor inner.finish⟩ := by
  rw [fill, fillWithin, dif_pos h]
  rfl

/-- The recursion takes one of the three steps at each node. -/
theorem fills_fill (network : Network α n) (gaps : Gaps α) (start : Point α)
    (placed : Vector (Option (Point α)) n) (nodes : List (Fin n)) (cursor : Point α) :
    Fills network gaps start placed nodes cursor
      (fill network gaps start placed nodes cursor) := by
  induction start, placed, nodes, cursor using fillWithin.induct network gaps with
  | case1 start placed cursor =>
    rw [fill_nil]
    exact .nil
  | case2 start placed cursor i nodes hfree _ right marked inner _ _ ihright _ ihrest =>
    rw [fill_cons_of_unplaced hfree]
    exact .visit hfree ihright ihrest
  | case3 start placed cursor i nodes hplaced ih =>
    rw [fill_cons_of_placed hplaced]
    exact .skip hplaced ih

/-- There is one filling only, which is what the recursion finds. -/
theorem Fills.eq_fill (h : Fills network gaps start placed nodes cursor filling) :
    filling = fill network gaps start placed nodes cursor := by
  induction h with
  | nil => exact fill_nil.symm
  | skip hplaced _ ih =>
    rw [fill_cons_of_placed hplaced]
    exact ih
  | visit hfree _ _ ihright ihrest =>
    rw [fill_cons_of_unplaced hfree]
    dsimp only
    rw [← ihright]
    exact ihrest

/-! ## The stack follows the recursion -/

/-- A column whose next node has a place goes on as if the node were not in it. -/
theorem advance_of_placed (h : placed.get i ≠ none) (outer : List (Column α n))
    (finish : Point α) :
    advance network gaps placed ⟨i :: nodes, start, cursor, none⟩ outer finish =
      advance network gaps placed ⟨nodes, start, cursor, none⟩ outer finish := by
  rw [advance, advance, skipPlaced_cons_of_placed h]

/-- A column whose next node has no place puts it at the cursor and opens the column to its
right. -/
theorem advance_of_unplaced (h : placed.get i = none) (outer : List (Column α n))
    (finish : Point α) :
    advance network gaps placed ⟨i :: nodes, start, cursor, none⟩ outer finish =
      let marked := mark placed i cursor
      ⟨marked, openColumn (fresh network marked i) (rightOf network gaps i cursor) ::
        ⟨nodes, start, cursor, some i⟩ :: outer, finish⟩ := by
  rw [advance, skipPlaced_cons_of_unplaced h]
  rfl

/-- The topmost column runs to its end as the recursion does, and then hands its free slot to the
column below it. -/
theorem run_of_fills (h : Fills network gaps start placed nodes cursor filling)
    (outer : List (Column α n)) (finish : Point α) :
    run network gaps ⟨placed, ⟨nodes, start, cursor, none⟩ :: outer, finish⟩ =
      run network gaps
        ⟨filling.placed, resume network gaps filling.finish outer, filling.finish⟩ := by
  induction h generalizing outer finish with
  | nil =>
    rw [run]
    rfl
  | skip hplaced rest ih =>
    rw [run, advance_of_placed hplaced, ← run]
    exact ih outer finish
  | @visit start placed i nodes cursor inner _ hfree right rest ihright ihrest =>
    -- the column to the right is closed while the one of `i` waits for it with `i` as its host
    rw [run, advance_of_unplaced hfree]
    refine (ihright (⟨nodes, start, cursor, some i⟩ :: outer) finish).trans ?_
    exact ihrest outer inner.finish

/-- A placement with a stack leaves what the recursion leaves, and no column open. -/
theorem place_of_fills (h : Fills network gaps start placed nodes start filling) :
    place network gaps placed nodes start = ⟨filling.placed, [], filling.finish⟩ := by
  refine (run_of_fills h [] start).trans ?_
  rw [resume, run]

/-- The positions and the free slot that a placement finds are those of the recursion. -/
theorem fills_place (network : Network α n) (gaps : Gaps α)
    (placed : Vector (Option (Point α)) n) (nodes : List (Fin n)) (start : Point α) :
    let columns := place network gaps placed nodes start
    Fills network gaps start placed nodes start ⟨columns.placed, columns.finish⟩ := by
  have h := fills_fill network gaps start placed nodes start
  rw [place_of_fills h]
  exact h

/-- Placing nodes with a stack of columns is filling one column by recursion: both find the same
positions and the same free slot, and no column is left open. -/
theorem place_eq_fill (network : Network α n) (gaps : Gaps α)
    (placed : Vector (Option (Point α)) n) (nodes : List (Fin n)) (start : Point α) :
    place network gaps placed nodes start =
      let filling := fill network gaps start placed nodes start
      ⟨filling.placed, [], filling.finish⟩ :=
  place_of_fills (fills_fill network gaps start placed nodes start)

end Columns

end SchemaLayout
