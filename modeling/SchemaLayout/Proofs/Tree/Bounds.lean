import Mathlib.Data.List.FinRange
import SchemaLayout.Tree.Columns

/-!
# Numbers in range

The numbers that a placement works with are in range by their type. Here it works with bare
numbers, each of which is looked up where it is used; one that is out of range ends the placement
without a result. Such a placement takes the same steps, and never meets a number that is out of
range.
-/

namespace SchemaLayout

namespace Bare

/-- A network that knows its nodes by bare numbers. -/
structure Network (α : Type) where
  sizes : Array (Size α)
  related : Array (List Nat)

/-- A column in which nodes are being placed. -/
structure Column (α : Type) where
  pending : List Nat
  start : Point α
  cursor : Point α
  host : Option Nat

/-- The state of a placement. -/
structure Columns (α : Type) where
  placed : Array (Option (Point α))
  stack : List (Column α)
  finish : Point α

variable {α : Type} [Add α] [Max α]

/-- The numbers of a list from the first that has no place on. -/
def skipPlaced? (placed : Array (Option (Point α))) : List Nat → Option (List Nat)
  | [] => some []
  | i :: pending => do
    if (← placed[i]?).isSome then skipPlaced? placed pending else return i :: pending

/-- The numbers of a list that have no place. -/
def unplaced? (placed : Array (Option (Point α))) : List Nat → Option (List Nat)
  | [] => some []
  | i :: nodes => do
    let position? ← placed[i]?
    let rest ← unplaced? placed nodes
    return if position?.isNone then i :: rest else rest

/-- Moves the cursor of the topmost column of a stack below its host. -/
def resume? (network : Network α) (gaps : Gaps α) (finish : Point α) :
    List (Column α) → Option (List (Column α))
  | [] => some []
  | column :: outer =>
    match column.host with
    | none => some (column :: outer)
    | some i => do
      let size ← network.sizes[i]?
      let y := max (column.cursor.y + size.height + gaps.vertical) finish.y
      return { column with cursor := ⟨column.start.x, y⟩, host := none } :: outer

/-- Works on the topmost column. -/
def advance? (network : Network α) (gaps : Gaps α) (placed : Array (Option (Point α)))
    (column : Column α) (outer : List (Column α)) (finish : Point α) : Option (Columns α) := do
  match ← skipPlaced? placed column.pending with
  | i :: pending =>
    let placed := placed.setIfInBounds i (some column.cursor)
    let related ← unplaced? placed (← network.related[i]?)
    let size ← network.sizes[i]?
    let start := ⟨column.cursor.x + size.width + gaps.horizontal, column.cursor.y⟩
    return ⟨placed, ⟨related, start, start, none⟩ ::
      { column with pending := pending, host := some i } :: outer, finish⟩
  | [] => return ⟨placed, ← resume? network gaps column.cursor outer, column.cursor⟩

/-- A number of steps; none is taken once every column has been closed. -/
def steps? (network : Network α) (gaps : Gaps α) : Nat → Columns α → Option (Columns α)
  | 0, s => some s
  | _ + 1, ⟨placed, [], finish⟩ => some ⟨placed, [], finish⟩
  | k + 1, ⟨placed, column :: outer, finish⟩ => do
    steps? network gaps k (← advance? network gaps placed column outer finish)

/-- The placement of all nodes of a network before its first step. -/
def opening (n : Nat) (start : Point α) : Columns α :=
  ⟨.replicate n none, [⟨List.range n, start, start, none⟩], start⟩

end Bare

variable {α : Type} {n : Nat}

/-- A network without what its numbers carry. -/
def Network.bare (network : Network α n) : Bare.Network α :=
  ⟨network.sizes.toArray, network.related.toArray.map (·.map Fin.val)⟩

def Column.bare (column : Column α n) : Bare.Column α :=
  ⟨column.pending.map Fin.val, column.start, column.cursor, column.host.map Fin.val⟩

def Columns.bare (s : Columns α n) : Bare.Columns α :=
  ⟨s.placed.toArray, s.stack.map Column.bare, s.finish⟩

namespace Bare

/-! ## Numbers that are looked up -/

theorem getElem?_toArray (values : Vector α n) (i : Fin n) :
    values.toArray[i.val]? = some (values.get i) := by
  rw [Vector.getElem?_toArray, Vector.getElem?_eq_getElem i.isLt]
  rfl

theorem sizes_bare (network : SchemaLayout.Network α n) (i : Fin n) :
    network.bare.sizes[i.val]? = some (network.sizes.get i) :=
  getElem?_toArray network.sizes i

theorem related_bare (network : SchemaLayout.Network α n) (i : Fin n) :
    network.bare.related[i.val]? = some ((network.related.get i).map Fin.val) := by
  show (network.related.toArray.map _)[i.val]? = _
  rw [Array.getElem?_map, getElem?_toArray]
  rfl

variable (placed : Vector (Option (Point α)) n)

theorem skipPlaced?_bare (nodes : List (Fin n)) :
    skipPlaced? placed.toArray (nodes.map Fin.val) =
      some ((SchemaLayout.Columns.skipPlaced placed nodes).map Fin.val) := by
  induction nodes with
  | nil => rfl
  | cons i nodes ih =>
    rw [List.map_cons, skipPlaced?, getElem?_toArray, SchemaLayout.Columns.skipPlaced,
      List.dropWhile_cons]
    show (if (placed.get i).isSome then _ else _) = _
    split
    · exact ih
    · rfl

theorem unplaced?_bare (nodes : List (Fin n)) :
    unplaced? placed.toArray (nodes.map Fin.val) =
      some ((nodes.filter fun i => (placed.get i).isNone).map Fin.val) := by
  induction nodes with
  | nil => rfl
  | cons i nodes ih =>
    rw [List.map_cons, unplaced?, getElem?_toArray, ih, List.filter_cons]
    show some (if (placed.get i).isNone then _ else _) = _
    split <;> rfl

theorem setIfInBounds_bare (i : Fin n) (position : Option (Point α)) :
    placed.toArray.setIfInBounds i.val position = (placed.set i position i.isLt).toArray := by
  rw [Vector.toArray_set, Array.setIfInBounds, dif_pos]

/-! ## Steps -/

variable [Add α] [Max α] (network : SchemaLayout.Network α n) (gaps : Gaps α)

theorem resume?_bare (finish : Point α) (stack : List (SchemaLayout.Column α n)) :
    resume? network.bare gaps finish (stack.map Column.bare) =
      some ((SchemaLayout.Columns.resume network gaps finish stack).map Column.bare) := by
  cases stack with
  | nil => rfl
  | cons column outer =>
    obtain ⟨pending, start, cursor, host⟩ := column
    cases host with
    | none => rfl
    | some i =>
      show (network.bare.sizes[i.val]?).bind _ = _
      rw [sizes_bare]
      rfl

/-- A step with bare numbers is the step with numbers in range. -/
theorem advance?_bare (column : SchemaLayout.Column α n)
    (outer : List (SchemaLayout.Column α n)) (finish : Point α) :
    advance? network.bare gaps placed.toArray column.bare (outer.map Column.bare) finish =
      some (SchemaLayout.Columns.advance network gaps placed column outer finish).bare := by
  unfold advance? SchemaLayout.Columns.advance
  rw [show column.bare.pending = column.pending.map Fin.val from rfl, skipPlaced?_bare]
  cases SchemaLayout.Columns.skipPlaced placed column.pending with
  | nil =>
    show (resume? network.bare gaps column.cursor (outer.map Column.bare)).bind _ = _
    rw [resume?_bare]
    rfl
  | cons i pending =>
    show (network.bare.related[i.val]?).bind _ = _
    rw [related_bare]
    show (unplaced? (placed.toArray.setIfInBounds i.val (some column.cursor)) _).bind _ = _
    rw [setIfInBounds_bare, unplaced?_bare]
    show (network.bare.sizes[i.val]?).bind _ = _
    rw [sizes_bare]
    show some (Columns.mk (placed.toArray.setIfInBounds i.val (some column.cursor)) _ _) = _
    rw [setIfInBounds_bare]
    rfl

/-- However many steps are taken, no number is out of range. -/
theorem exists_steps?_eq_some (k : Nat) (s : SchemaLayout.Columns α n) :
    ∃ t : SchemaLayout.Columns α n, steps? network.bare gaps k s.bare = some t.bare := by
  induction k generalizing s with
  | zero => exact ⟨s, rfl⟩
  | succ k ih =>
    obtain ⟨placed, stack, finish⟩ := s
    cases stack with
    | nil => exact ⟨_, rfl⟩
    | cons column outer =>
      show ∃ t, (advance? network.bare gaps placed.toArray column.bare
        (outer.map Column.bare) finish).bind _ = some (SchemaLayout.Columns.bare t)
      rw [advance?_bare]
      exact ih _

/-- After enough steps with bare numbers the placement is that with numbers in range. -/
theorem exists_steps?_eq_run (s : SchemaLayout.Columns α n) :
    ∃ k, steps? network.bare gaps k s.bare =
      some (SchemaLayout.Columns.run network gaps s).bare := by
  induction s using SchemaLayout.Columns.run.induct network gaps with
  | case1 placed finish =>
    rw [SchemaLayout.Columns.run]
    exact ⟨0, rfl⟩
  | case2 placed column outer finish ih =>
    obtain ⟨k, hk⟩ := ih
    refine ⟨k + 1, ?_⟩
    show (advance? network.bare gaps placed.toArray column.bare
      (outer.map Column.bare) finish).bind _ = _
    rw [advance?_bare, SchemaLayout.Columns.run]
    exact hk

omit [Add α] [Max α] in
theorem bare_opening (start : Point α) : SchemaLayout.Columns.bare (n := n)
    ⟨.replicate n none, [SchemaLayout.Columns.openColumn (List.finRange n) start], start⟩ =
      opening n start := by
  unfold opening
  rw [← List.map_coe_finRange_eq_range]
  rfl

/-- All nodes of a network can be placed by bare numbers: no number is out of range, however many
steps are taken, and the end is the placement with numbers in range. -/
structure Places (network : SchemaLayout.Network α n) (gaps : Gaps α) (origin : Point α) :
    Prop where
  steps : ∀ k, ∃ s, steps? network.bare gaps k (opening n origin) = some s
  ends : ∃ k, steps? network.bare gaps k (opening n origin) =
    some (SchemaLayout.Columns.place network gaps (.replicate n none) (List.finRange n)
      origin).bare

theorem places (origin : Point α) : Places network gaps origin := by
  refine ⟨fun k => ?_, ?_⟩ <;> rw [← bare_opening]
  · obtain ⟨t, ht⟩ := exists_steps?_eq_some network gaps k _
    exact ⟨t.bare, ht⟩
  · exact exists_steps?_eq_run network gaps _

/-- The placement of all nodes of a network by bare numbers looks up numbers of nodes only: those in
the lists of related nodes, and after any number of steps those in the open columns. -/
structure InRange (network : SchemaLayout.Network α n) (gaps : Gaps α) (origin : Point α) :
    Prop where
  related : ∀ related ∈ network.bare.related, ∀ i ∈ related, i < n
  columns : ∀ k, ∃ s, steps? network.bare gaps k (opening n origin) = some s ∧
    ∀ column ∈ s.stack, (∀ i ∈ column.pending, i < n) ∧ ∀ i ∈ column.host, i < n

theorem inRange (origin : Point α) : InRange network gaps origin := by
  refine ⟨fun related hrelated i hi => ?_, fun k => ?_⟩
  · obtain ⟨numbers, -, rfl⟩ := Array.mem_map.mp hrelated
    obtain ⟨j, -, rfl⟩ := List.mem_map.mp hi
    exact j.isLt
  · rw [← bare_opening]
    obtain ⟨t, ht⟩ := exists_steps?_eq_some network gaps k _
    refine ⟨t.bare, ht, fun column hcolumn => ?_⟩
    obtain ⟨column, -, rfl⟩ := List.mem_map.mp hcolumn
    constructor
    · intro i hi
      obtain ⟨j, -, rfl⟩ := List.mem_map.mp hi
      exact j.isLt
    · intro i hi
      obtain ⟨j, -, rfl⟩ := Option.map_eq_some_iff.mp hi
      exact j.isLt

end Bare

end SchemaLayout
