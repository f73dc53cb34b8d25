import Mathlib.Algebra.BigOperators.Group.Finset.Basic
import Mathlib.Algebra.Order.BigOperators.Group.Finset
import SchemaLayout.Proofs.Tree.Coverage

/-!
# Blocks

Where no extent and no gap is negative, the nodes that a filling places form a block: they lie to
the right of the column's start, below the cursor from which the column was filled, and above the
free slot that the filling returns. Blocks are what keeps nodes apart: the column to the right of a
node is a block beyond its right edge, and what comes later in its own column begins below both.

Coordinates saturate, so the inequalities between blocks are between saturated sums. `room` counts
how much extent is still to be placed; it bounds every block from above by sums that do not
saturate, and shows that none of them does as long as the whole layout fits.
-/

namespace SchemaLayout

variable {n : Nat}

/-- No node has a negative extent, and no gap is negative. -/
structure Network.Nonneg (network : Network Coord n) (gaps : Gaps) : Prop where
  width : ∀ i, 0 ≤ (network.sizes.get i).width.toInt
  height : ∀ i, 0 ≤ (network.sizes.get i).height.toInt
  horizontal : 0 ≤ gaps.horizontal.toInt
  vertical : 0 ≤ gaps.vertical.toInt

/-- How far to the right of a node the column of its related nodes begins. -/
def Network.stepRight (network : Network Coord n) (gaps : Gaps) (i : Fin n) : Int :=
  (network.sizes.get i).width.toInt + gaps.horizontal.toInt

/-- How far below a node the next node of its column may begin. -/
def Network.stepDown (network : Network Coord n) (gaps : Gaps) (i : Fin n) : Int :=
  (network.sizes.get i).height.toInt + gaps.vertical.toInt

variable {network : Network Coord n} {gaps : Gaps}

theorem Network.Nonneg.stepRight (hn : network.Nonneg gaps) (i : Fin n) :
    0 ≤ network.stepRight gaps i :=
  Int.add_nonneg (hn.width i) hn.horizontal

theorem Network.Nonneg.stepDown (hn : network.Nonneg gaps) (i : Fin n) :
    0 ≤ network.stepDown gaps i :=
  Int.add_nonneg (hn.height i) hn.vertical

namespace Columns

variable {start cursor : Point} {placed : Vector (Option Point) n} {i j : Fin n}
  {nodes : List (Fin n)} {filling inner outer : Filling Coord n} {p q : Point}

/-- The slot below a node at `position`. -/
def bottom (network : Network Coord n) (gaps : Gaps) (i : Fin n) (position : Point) : Coord :=
  position.y + (network.sizes.get i).height + gaps.vertical

@[simp]
theorem rightOf_y (network : Network Coord n) (gaps : Gaps) (i : Fin n) (p : Point) :
    (rightOf network gaps i p).y = p.y :=
  rfl

theorem toInt_rightOf (hn : network.Nonneg gaps) (i : Fin n) (p : Point) :
    (rightOf network gaps i p).x.toInt = min (p.x.toInt + network.stepRight gaps i) 2147483647 := by
  have hw := hn.width i
  have hg := hn.horizontal
  have hlo := p.x.lo_le
  simp only [rightOf, Coord.toInt_add, Network.stepRight]
  omega

theorem toInt_bottom (hn : network.Nonneg gaps) (i : Fin n) (p : Point) :
    (bottom network gaps i p).toInt = min (p.y.toInt + network.stepDown gaps i) 2147483647 := by
  have hh := hn.height i
  have hg := hn.vertical
  have hlo := p.y.lo_le
  simp only [bottom, Coord.toInt_add, Network.stepDown]
  omega

theorem toInt_below (network : Network Coord n) (gaps : Gaps) (i : Fin n) (p finish : Point) :
    (below network gaps i p finish).toInt =
      max (bottom network gaps i p).toInt finish.y.toInt :=
  Coord.toInt_max ..

/-- A node lies no further right than the column of its related nodes. -/
theorem le_rightOf (hn : network.Nonneg gaps) (i : Fin n) (p : Point) :
    p.x.toInt ≤ (rightOf network gaps i p).x.toInt := by
  have hstep := hn.stepRight i
  have hhi := p.x.le_hi
  rw [toInt_rightOf hn]
  omega

/-- A node of nonnegative height lies no further down than the slot below it. -/
theorem le_bottom_of_height (hheight : 0 ≤ (network.sizes.get i).height.toInt)
    (hvertical : 0 ≤ gaps.vertical.toInt) (p : Point) :
    p.y.toInt ≤ (bottom network gaps i p).toInt := by
  have hhi := p.y.le_hi
  simp only [bottom, Coord.toInt_add]
  omega

/-- A node lies no further down than the slot below it. -/
theorem le_bottom (hn : network.Nonneg gaps) (i : Fin n) (p : Point) :
    p.y.toInt ≤ (bottom network gaps i p).toInt :=
  le_bottom_of_height (hn.height i) hn.vertical p

/-! ## The block of a filling -/

/-- A column never ends above the place from which it was filled. -/
theorem Fills.cursor_le_finish (hn : network.Nonneg gaps)
    (h : Fills network gaps start placed nodes cursor filling) :
    cursor.y.toInt ≤ filling.finish.y.toInt := by
  induction h with
  | nil => exact Int.le_refl _
  | skip _ _ ih => exact ih
  | @visit _ _ i _ cursor inner _ _ _ _ _ ihrest =>
    have hbottom := le_bottom hn i cursor
    have hbelow := toInt_below network gaps i cursor inner.finish
    dsimp only at ihrest
    omega

/-- A node lies in the block that begins at `corner` and ends above `finish`. -/
structure InBlock (network : Network Coord n) (gaps : Gaps) (corner finish : Point) (i : Fin n)
    (position : Point) : Prop where
  left : corner.x.toInt ≤ position.x.toInt
  top : corner.y.toInt ≤ position.y.toInt
  bottom : (bottom network gaps i position).toInt ≤ finish.y.toInt

/-- A block lies in any block that surrounds it. -/
theorem InBlock.mono {corner corner' finish finish' : Point}
    (h : InBlock network gaps corner finish i p) (hleft : corner'.x.toInt ≤ corner.x.toInt)
    (htop : corner'.y.toInt ≤ corner.y.toInt) (hbottom : finish.y.toInt ≤ finish'.y.toInt) :
    InBlock network gaps corner' finish' i p :=
  ⟨Int.le_trans hleft h.left, Int.le_trans htop h.top, Int.le_trans h.bottom hbottom⟩

/-- The nodes that a filling places lie in one block. -/
theorem Fills.inBlock (hn : network.Nonneg gaps)
    (h : Fills network gaps start placed nodes cursor filling) (hx : start.x = cursor.x)
    (hi : Adds placed filling.placed i p) : InBlock network gaps cursor filling.finish i p := by
  induction h with
  | nil => exact absurd hi not_adds_self
  | skip _ _ ih => exact ih hx hi
  | @visit start _ k _ cursor inner outer _ right rest ihright ihrest =>
    have hbelow := toInt_below network gaps k cursor inner.finish
    have hbottom := le_bottom hn k cursor
    have hfinish := rest.cursor_le_finish hn
    dsimp only at hfinish
    rcases adds_visit right rest hi with ⟨rfl, rfl⟩ | hi | hi
    · -- the visited node is the corner of the block
      exact ⟨Int.le_refl _, Int.le_refl _, by omega⟩
    · -- the block of the column to the right lies inside
      exact (ihright rfl hi).mono (le_rightOf hn k cursor) (Int.le_refl _) (by omega)
    · -- so does the block of the rest of the column, which begins further down
      apply (ihrest rfl hi).mono ?_ ?_ (Int.le_refl _)
      · exact Int.le_of_eq (congrArg Coord.toInt hx.symm)
      · show cursor.y.toInt ≤ (Columns.below network gaps k cursor inner.finish).toInt
        omega

/-- One of two nodes lies to the right of the other or below it. -/
def Apart (network : Network Coord n) (gaps : Gaps) (i : Fin n) (p : Point) (j : Fin n)
    (q : Point) : Prop :=
  (rightOf network gaps i p).x.toInt ≤ q.x.toInt ∨
    (rightOf network gaps j q).x.toInt ≤ p.x.toInt ∨
    (bottom network gaps i p).toInt ≤ q.y.toInt ∨ (bottom network gaps j q).toInt ≤ p.y.toInt

theorem Apart.symm (h : Apart network gaps i p j q) : Apart network gaps j q i p := by
  rcases h with h | h | h | h
  · exact .inr (.inl h)
  · exact .inl h
  · exact .inr (.inr (.inr h))
  · exact .inr (.inr (.inl h))

/-- A filling sets any two nodes apart: the column to the right of a node begins at its right edge,
and what comes later in its own column begins below the node and below that column. -/
theorem Fills.apart (hn : network.Nonneg gaps)
    (h : Fills network gaps start placed nodes cursor filling) (hx : start.x = cursor.x)
    (hne : i ≠ j) (hi : Adds placed filling.placed i p) (hj : Adds placed filling.placed j q) :
    Apart network gaps i p j q := by
  refine Fills.pairwise (R := Apart network gaps) Apart.symm ?_ h hx hne hi hj
  intro start placed k nodes cursor inner outer _ right rest
  have hbelow := toInt_below network gaps k cursor inner.finish
  have htop {l : Fin n} {r : Point} (hl : Adds inner.placed outer.placed l r) :
      (Columns.below network gaps k cursor inner.finish).toInt ≤ r.y.toInt :=
    (rest.inBlock hn rfl hl).top
  refine ⟨?_, ?_, ?_⟩
  · -- the column to the right begins at the right edge of the node
    intro l r hl
    exact .inl (right.inBlock hn rfl hl).left
  · -- the rest of its own column begins below the node
    intro l r hl
    have hl := htop hl
    exact .inr (.inr (.inl (by omega)))
  · -- and below everything in the column to the right
    intro l r m t hl hm
    have hl := (right.inBlock hn rfl hl).bottom
    have hm := htop hm
    exact .inr (.inr (.inl (by omega)))

/-! ## Room -/

/-- The sum of the extents of the nodes that have no place. -/
def room {α : Type} (extent : Fin n → Int) (placed : Vector (Option (Point α)) n) : Int :=
  ∑ i, if (placed.get i).isNone then extent i else 0

/-- Before anything is placed the room is that of all nodes. -/
theorem room_replicate {α : Type} (extent : Fin n → Int) :
    room extent (.replicate n (none : Option (Point α))) = ∑ i, extent i := by
  apply Finset.sum_congr rfl
  intro i _
  rw [get_replicate_none]
  rfl

/-- Placing a node uses up its extent. -/
theorem room_mark (extent : Fin n → Int) (hfree : placed.get i = none) (p : Point) :
    room extent (mark placed i p) + extent i = room extent placed := by
  unfold room
  rw [← Finset.add_sum_erase Finset.univ _ (Finset.mem_univ i),
    ← Finset.add_sum_erase Finset.univ (fun j => if (placed.get j).isNone then extent j else 0)
      (Finset.mem_univ i)]
  have hrest : ∀ j ∈ Finset.univ.erase i,
      (if ((mark placed i p).get j).isNone then extent j else 0) =
        if (placed.get j).isNone then extent j else 0 := by
    intro j hj
    rw [get_mark_of_ne (Finset.ne_of_mem_erase hj).symm]
  rw [Finset.sum_congr rfl hrest, get_mark_self, hfree]
  simp only [Option.isNone_some, Option.isNone_none, Bool.false_eq_true, if_false, if_true]
  omega

/-- A node that has no place fits into the room. -/
theorem le_room {extent : Fin n → Int} (hextent : ∀ j, 0 ≤ extent j)
    (hfree : placed.get i = none) : extent i ≤ room extent placed := by
  have hsingle := Finset.single_le_sum
    (f := fun j => if (placed.get j).isNone then extent j else 0) (s := Finset.univ)
    (fun j _ => by split <;> simp [hextent j]) (Finset.mem_univ i)
  simpa [room, hfree] using hsingle

/-- A filling never makes room. -/
theorem Fills.room_le {extent : Fin n → Int} (hextent : ∀ j, 0 ≤ extent j)
    (h : Fills network gaps start placed nodes cursor filling) :
    room extent filling.placed ≤ room extent placed := by
  apply Finset.sum_le_sum
  intro j _
  cases hj : filling.placed.get j with
  | none => rw [h.get_eq_none hj]
  | some position =>
    have := hextent j
    show (0 : Int) ≤ _
    split <;> omega

/-- A column ends no further down than the room that it has used up. -/
theorem Fills.finish_le (hn : network.Nonneg gaps)
    (h : Fills network gaps start placed nodes cursor filling) :
    filling.finish.y.toInt + room (network.stepDown gaps) filling.placed ≤
      cursor.y.toInt + room (network.stepDown gaps) placed := by
  induction h with
  | nil => exact Int.le_refl _
  | skip _ _ ih => exact ih
  | @visit _ placed i _ cursor inner outer hfree right rest ihright ihrest =>
    have hmark := room_mark (network.stepDown gaps) hfree cursor
    have hroom := right.room_le hn.stepDown
    have hbelow := toInt_below network gaps i cursor inner.finish
    have hbottom := toInt_bottom hn i cursor
    have hstep := hn.stepDown i
    rw [rightOf_y] at ihright
    dsimp only at ihrest
    -- the node has used up its own step, and the column to its right at least what it went down
    omega

/-- The right edge of a node lies within the room to the right of the column. -/
theorem Fills.right_le (hn : network.Nonneg gaps)
    (h : Fills network gaps start placed nodes cursor filling) (hx : start.x = cursor.x)
    (hi : Adds placed filling.placed i p) :
    p.x.toInt + network.stepRight gaps i ≤
      cursor.x.toInt + room (network.stepRight gaps) placed := by
  induction h with
  | nil => exact absurd hi not_adds_self
  | skip _ _ ih => exact ih hx hi
  | @visit start placed k _ cursor inner outer hfree right rest ihright ihrest =>
    have hmark := room_mark (network.stepRight gaps) hfree cursor
    have hroom := right.room_le hn.stepRight
    have hfits := le_room hn.stepRight hfree
    have hstep := hn.stepRight k
    rcases adds_visit right rest hi with ⟨rfl, rfl⟩ | hi | hi
    · omega
    · have hright := ihright rfl hi
      rw [toInt_rightOf hn] at hright
      omega
    · -- the rest of the column begins as far left, with less room
      have hrest := ihrest rfl hi
      rw [hx] at hrest
      omega

/-- The slot below a node lies within the room below the cursor. -/
theorem Fills.bottom_le (hn : network.Nonneg gaps)
    (h : Fills network gaps start placed nodes cursor filling)
    (hi : Adds placed filling.placed i p) :
    p.y.toInt + network.stepDown gaps i ≤
      cursor.y.toInt + room (network.stepDown gaps) placed := by
  induction h with
  | nil => exact absurd hi not_adds_self
  | skip _ _ ih => exact ih hi
  | @visit _ placed k _ cursor inner outer hfree right rest ihright ihrest =>
    have hmark := room_mark (network.stepDown gaps) hfree cursor
    have hroom := right.room_le hn.stepDown
    have hfits := le_room hn.stepDown hfree
    have hstep := hn.stepDown k
    have hbelow := toInt_below network gaps k cursor inner.finish
    have hbottom := toInt_bottom hn k cursor
    have hfinish := right.finish_le hn
    rw [rightOf_y] at hfinish
    rcases adds_visit right rest hi with ⟨rfl, rfl⟩ | hi | hi
    · omega
    · have hright := ihright hi
      rw [rightOf_y] at hright
      omega
    · -- the rest of the column begins further down, but by no more than the room used up
      have hrest := ihrest hi
      dsimp only at hrest
      omega

end Columns

end SchemaLayout
