import Mathlib.Data.List.TakeWhile
import SchemaLayout.Proofs.Tree.Assignments
import SchemaLayout.Proofs.Tree.Reach

/-!
# Open columns

While a list of nodes is being placed, the open columns are the calls of `fill` that have not
returned. The topmost column has been filled with the nodes of its list that it has passed; each of
the others has passed the nodes up to its host, and waits for the column to the right of the host.

`Waiting` says this of the columns below the topmost, `Underway` of all of them, and
`Underway.step` shows that every step keeps it. So whenever the column with which a placement began
is the only one, what is placed is what a filling with the nodes that it has passed leaves.
-/

namespace SchemaLayout.Columns

variable {α : Type} {n : Nat}

/-- The state in which `nodes` wait in one column that begins at `start`, next to what is
`placed`. -/
def entry (placed : Vector (Option (Point α)) n) (nodes : List (Fin n)) (start : Point α) :
    Columns α n :=
  ⟨placed, [openColumn nodes start], start⟩

variable [Add α] [Max α] {network : Network α n} {gaps : Gaps α} {s t : Columns α n}
  {placed initial : Vector (Option (Point α)) n} {nodes whole rest : List (Fin n)}
  {start cursor origin : Point α} {log : List (Fin n × Point α)}

/-! ## Nodes that are passed over -/

/-- Nodes that have a place leave a column as it is. -/
theorem fills_of_placed (h : ∀ i ∈ nodes, placed.get i ≠ none) :
    Fills network gaps start placed nodes cursor ⟨placed, cursor⟩ := by
  induction nodes with
  | nil => exact .nil
  | cons i nodes ih =>
    rw [List.forall_mem_cons] at h
    exact .skip h.1 (ih h.2)

/-- A column passes over nodes until it finds one that has no place. -/
theorem exists_fills_of_skipPlaced (network : Network α n) (gaps : Gaps α) (start cursor : Point α)
    (h : skipPlaced placed nodes = rest) :
    ∃ skipped, nodes = skipped ++ rest ∧
      Fills network gaps start placed skipped cursor ⟨placed, cursor⟩ := by
  refine ⟨nodes.takeWhile fun i => (placed.get i).isSome, ?_, ?_⟩
  · rw [← h]
    exact List.takeWhile_append_dropWhile.symm
  · apply fills_of_placed
    intro i hi
    have hsome := List.mem_takeWhile_imp hi
    simpa [Option.isSome_iff_ne_none] using hsome

/-! ## Columns that wait -/

/-- Columns that wait, the topmost first, for a column with `nodes` that was opened at `start` when
`before` had been placed. The placement has begun with the list `whole` at `origin`, next to what
was placed initially. -/
inductive Waiting (network : Network α n) (gaps : Gaps α)
    (initial : Vector (Option (Point α)) n) (whole : List (Fin n)) (origin : Point α) :
    List (Column α n) → Vector (Option (Point α)) n → List (Fin n) → Point α → Prop
  /-- Nothing waits for the first column. -/
  | first : Waiting network gaps initial whole origin [] initial whole origin
  /-- A column has been filled up to its host, and waits for the column to the right of it. -/
  | right {outer before nodes column passed placed i}
      (waiting : Waiting network gaps initial whole origin outer before nodes column.start)
      (filled : Fills network gaps column.start before passed column.start
        ⟨placed, column.cursor⟩)
      (hnodes : nodes = passed ++ i :: column.pending) (hhost : column.host = some i)
      (hfree : placed.get i = none) :
      Waiting network gaps initial whole origin (column :: outer) (mark placed i column.cursor)
        (fresh network (mark placed i column.cursor) i) (rightOf network gaps i column.cursor)

/-- A placement on its way. -/
inductive Underway (network : Network α n) (gaps : Gaps α)
    (initial : Vector (Option (Point α)) n) (whole : List (Fin n)) (origin : Point α) :
    Columns α n → Prop
  /-- The topmost column has been filled with the nodes that it has passed. -/
  | working {outer before nodes column passed placed finish}
      (waiting : Waiting network gaps initial whole origin outer before nodes column.start)
      (filled : Fills network gaps column.start before passed column.start
        ⟨placed, column.cursor⟩)
      (hnodes : nodes = passed ++ column.pending) (hhost : column.host = none) :
      Underway network gaps initial whole origin ⟨placed, column :: outer, finish⟩
  /-- The whole list has been placed. -/
  | closed {placed finish}
      (filled : Fills network gaps origin initial whole origin ⟨placed, finish⟩) :
      Underway network gaps initial whole origin ⟨placed, [], finish⟩

theorem underway_entry :
    Underway network gaps initial whole origin (entry initial whole origin) :=
  .working .first .nil rfl rfl

/-- The column that waits goes on below its host when the column to the right has been closed. -/
theorem Waiting.resume {outer : List (Column α n)} {before : Vector (Option (Point α)) n}
    {finish : Point α} (h : Waiting network gaps initial whole origin outer before nodes start)
    (hfilled : Fills network gaps start before nodes start ⟨placed, finish⟩) :
    Underway network gaps initial whole origin
      ⟨placed, resume network gaps finish outer, finish⟩ := by
  cases h with
  | first => exact .closed hfilled
  | @right outer before nodes column passed placed i waiting filled hnodes hhost hfree =>
    have hbelow := filled.append (.visit hfree hfilled .nil)
    simp only [Columns.resume, hhost]
    refine .working waiting hbelow ?_ rfl
    rw [hnodes, List.append_assoc, List.singleton_append]

/-- Every step keeps the open columns filled. -/
theorem Underway.step (h : Underway network gaps initial whole origin s)
    (hstep : step network gaps s = some t) : Underway network gaps initial whole origin t := by
  cases h with
  | closed => cases hstep
  | @working outer before nodes column passed placed finish waiting filled hnodes hhost =>
    rw [Columns.step, Option.some.injEq] at hstep
    subst hstep
    unfold advance
    split <;> rename_i hskip <;> obtain ⟨skipped, hpending, hskipped⟩ :=
      exists_fills_of_skipPlaced network gaps column.start column.cursor hskip
    · -- the column has found its next node, and opens the column to the right of it
      have hfree := get_of_skipPlaced hskip
      refine .working (.right waiting (filled.append hskipped) ?_ rfl hfree) .nil rfl rfl
      rw [hnodes, hpending, List.append_assoc]
    · -- the column has passed its whole list
      rw [List.append_nil] at hpending
      have hfilled := filled.append hskipped
      rw [← hpending, ← hnodes] at hfilled
      exact waiting.resume hfilled

/-- A run: the open columns are filled at any time of a placement. -/
theorem Passes.underway (h : Passes network gaps (entry initial whole origin) s log) :
    Underway network gaps initial whole origin s := by
  induction h with
  | start => exact underway_entry
  | next _ hstep ih => exact ih.step hstep

/-! ## The first column -/

/-- A column that is open alone is the first one, and has been filled with the nodes that it has
passed. -/
theorem Underway.exists_fills {column : Column α n}
    (h : Underway network gaps initial whole origin s) (hstack : s.stack = [column]) :
    ∃ passed, whole = passed ++ column.pending ∧
      Fills network gaps origin initial passed origin ⟨s.placed, column.cursor⟩ := by
  cases h with
  | closed => cases hstack
  | @working outer before nodes _ passed placed finish waiting filled hnodes hhost =>
    cases hstack
    generalize column.start = begin at waiting filled
    cases waiting
    exact ⟨passed, hnodes, filled⟩

/-- The placement of `whole` puts node `i` into the column with which it begins, at `position`, when
`before` has been placed. -/
def PutsInFirst (network : Network α n) (gaps : Gaps α)
    (initial : Vector (Option (Point α)) n) (whole : List (Fin n)) (origin : Point α)
    (before : Vector (Option (Point α)) n) (i : Fin n) (position : Point α) : Prop :=
  ∃ s log, Passes network gaps (entry initial whole origin) s log ∧ s.placed = before ∧
    s.stack.length = 1 ∧ assignment? s = some (i, position)

variable {before : Vector (Option (Point α)) n} {i : Fin n} {position : Point α}

/-- What is placed before a node of the first column is what the nodes listed before it fill the
column with. -/
theorem PutsInFirst.exists_fills
    (h : PutsInFirst network gaps initial whole origin before i position) :
    ∃ passed pending, whole = passed ++ i :: pending ∧ before.get i = none ∧
      Fills network gaps origin initial passed origin ⟨before, position⟩ := by
  obtain ⟨s, log, hpasses, rfl, hlength, hassigns⟩ := h
  obtain ⟨column, hstack⟩ := List.length_eq_one_iff.mp hlength
  obtain ⟨passed, hwhole, hfills⟩ := hpasses.underway.exists_fills hstack
  cases hskip : skipPlaced s.placed column.pending with
  | nil =>
    simp only [assignment?, hstack, hskip] at hassigns
    cases hassigns
  | cons j pending =>
    simp only [assignment?, hstack, hskip, Option.some.injEq, Prod.mk.injEq] at hassigns
    obtain ⟨rfl, rfl⟩ := hassigns
    obtain ⟨skipped, hpending, hskipped⟩ := exists_fills_of_skipPlaced network gaps origin
      column.cursor hskip
    refine ⟨passed ++ skipped, pending, ?_, get_of_skipPlaced hskip, hfills.append hskipped⟩
    rw [hwhole, hpending, List.append_assoc]

/-- A node of the first column stays where it has been put. -/
theorem PutsInFirst.get_place
    (h : PutsInFirst network gaps initial whole origin before i position) :
    (place network gaps initial whole origin).placed.get i = some position := by
  obtain ⟨passed, pending, rfl, hfree, hfills⟩ := h.exists_fills
  have hrest := hfills.append (fills_fill network gaps origin before (i :: pending) position)
  rw [place_of_fills hrest, fill_cons_of_unplaced hfree]
  apply (fills_fill ..).get_eq_some
  apply (fills_fill ..).get_eq_some
  exact get_mark_self before i position

end SchemaLayout.Columns
