import Mathlib.Order.Bounds.Defs
import SchemaLayout.Proofs.Tree.OpenColumns
import SchemaLayout.Proofs.Tree.Roots

/-!
# Tightness

Where no height and no vertical gap is negative, nodes are stacked without waste: a node of the
first column goes exactly as low as the nodes placed before it ask for, wherever to the right these
are, and the free slot below the column is as low as all of them ask for.

The cursor of a column only ever takes the slot below its last node and the free slot of the last
column to the right into account. `Fills.isGreatest_finish` shows by induction that this is the
greatest of the slots below all nodes that the column and the columns to its right have placed.
Widths and horizontal gaps play no part in it.
-/

namespace SchemaLayout

theorem Coord.max_eq_or (a b : Coord) : max a b = a ∨ max a b = b := by
  show (if a ≤ b then b else a) = a ∨ (if a ≤ b then b else a) = b
  split
  · exact .inr rfl
  · exact .inl rfl

namespace Columns

variable {n : Nat} {network : Network Coord n} {gaps : Gaps} {start cursor : Point} {top : Coord}
  {before after placed : Vector (Option Point) n} {i : Fin n} {nodes : List (Fin n)}
  {filling inner outer : Filling Coord n}

/-! ## Slots -/

/-- A column goes on at the slot below its last node, or where the column to the right has ended. -/
theorem below_eq_or (network : Network Coord n) (gaps : Gaps) (i : Fin n) (p finish : Point) :
    below network gaps i p finish = bottom network gaps i p ∨
      below network gaps i p finish = finish.y :=
  Coord.max_eq_or ..

/-- What keeps the next node of a column down: the top of the column, and the slot below each node
that has been placed since. -/
def slots (network : Network Coord n) (gaps : Gaps) (top : Coord)
    (before after : Vector (Option Point) n) : Set Coord :=
  insert top {y | ∃ i p, Adds before after i p ∧ bottom network gaps i p = y}

/-- As long as nothing is placed the top of the column is all there is. -/
theorem isGreatest_slots_self : IsGreatest (slots network gaps top placed placed) top := by
  refine ⟨.inl rfl, ?_⟩
  rintro y (rfl | ⟨i, p, hadds, -⟩)
  · exact Int.le_refl _
  · exact absurd hadds not_adds_self

/-- The slot below a node that has been placed is one of the slots. -/
theorem mem_slots {p : Point} (h : Adds before after i p) :
    bottom network gaps i p ∈ slots network gaps top before after :=
  .inr ⟨i, p, h, rfl⟩

/-- A slot below a node stays a slot where more has been placed before or after. -/
theorem mem_slots_of_adds {before' after' : Vector (Option Point) n} {top' y : Coord}
    (hadds : ∀ i p, Adds before after i p → Adds before' after' i p)
    (hy : y ∈ slots network gaps top before after) :
    y = top ∨ y ∈ slots network gaps top' before' after' := by
  rcases hy with rfl | ⟨i, p, h, rfl⟩
  · exact .inl rfl
  · exact .inr (mem_slots (hadds i p h))

/-- The greatest slot at a visit is the greatest slot of the rest of the column, if the rest begins
below the visited node and at the greatest slot of the column to the right. -/
theorem isGreatest_slots_visit (hheight : 0 ≤ (network.sizes.get i).height.toInt)
    (hvertical : 0 ≤ gaps.vertical.toInt) (hfree : placed.get i = none)
    (right : Fills network gaps (rightOf network gaps i cursor) (mark placed i cursor)
      (fresh network (mark placed i cursor) i) (rightOf network gaps i cursor) inner)
    (rest : Fills network gaps start inner.placed nodes
      ⟨start.x, below network gaps i cursor inner.finish⟩ outer)
    (hright : IsGreatest (slots network gaps cursor.y (mark placed i cursor) inner.placed)
      inner.finish.y)
    (hrest : IsGreatest (slots network gaps (below network gaps i cursor inner.finish)
      inner.placed outer.placed) outer.finish.y) :
    IsGreatest (slots network gaps cursor.y placed outer.placed) outer.finish.y := by
  have hvisited : Adds placed outer.placed i cursor :=
    ⟨hfree, rest.get_eq_some (right.get_eq_some (get_mark_self placed i cursor))⟩
  have hinner (j : Fin n) (p : Point) (h : Adds (mark placed i cursor) inner.placed j p) :
      Adds placed outer.placed j p :=
    ⟨(get_eq_none_of_mark h.free).2, rest.get_eq_some h.place⟩
  have houter (j : Fin n) (p : Point) (h : Adds inner.placed outer.placed j p) :
      Adds placed outer.placed j p :=
    ⟨(get_eq_none_of_mark (right.get_eq_none h.free)).2, h.place⟩
  constructor
  · -- what the rest ends at is one of its slots, or where it began, which is again a slot
    rcases mem_slots_of_adds houter hrest.1 with hbegin | hmem
    · rw [hbegin]
      rcases below_eq_or network gaps i cursor inner.finish with heq | heq <;> rw [heq]
      · exact mem_slots hvisited
      · rcases mem_slots_of_adds hinner hright.1 with htop | hmem
        · exact .inl htop
        · exact hmem
    · exact hmem
  · have hbelow := toInt_below network gaps i cursor inner.finish
    have hbottom := le_bottom_of_height hheight hvertical cursor
    have hbegin : (below network gaps i cursor inner.finish).toInt ≤ outer.finish.y.toInt :=
      hrest.2 (.inl rfl)
    rintro y (rfl | ⟨j, p, hadds, rfl⟩) <;> rw [Coord.le_def]
    · omega
    · rcases adds_visit right rest hadds with ⟨rfl, rfl⟩ | hadds | hadds
      · omega
      · have hslot : (bottom network gaps j p).toInt ≤ inner.finish.y.toInt :=
          hright.2 (mem_slots hadds)
        omega
      · exact hrest.2 (mem_slots hadds)

/-- A column ends at the greatest of the slots that it and the columns to its right have to keep
clear of. -/
theorem Fills.isGreatest_finish (hheight : ∀ i, 0 ≤ (network.sizes.get i).height.toInt)
    (hvertical : 0 ≤ gaps.vertical.toInt)
    (h : Fills network gaps start placed nodes cursor filling) :
    IsGreatest (slots network gaps cursor.y placed filling.placed) filling.finish.y := by
  induction h with
  | nil => exact isGreatest_slots_self
  | skip _ _ ih => exact ih
  | visit hfree right rest ihright ihrest =>
    exact isGreatest_slots_visit (hheight _) hvertical hfree right rest ihright ihrest

end Columns

/-! ## Stacks without waste -/

/-- A placement returns the point straight below its start that is as low as the nodes it has placed
ask for, and puts each node of its first column straight below the start as low as the nodes placed
before it ask for. It takes heights and a vertical gap that are not negative, but widths, horizontal
gaps and relationships may be anything, and so may what has been placed initially. -/
theorem place_tight {n : Nat} {network : Network Coord n} {gaps : Gaps}
    (hheight : ∀ i, 0 ≤ (network.sizes.get i).height) (hvertical : 0 ≤ gaps.vertical)
    (placed : Vector (Option Point) n) (nodes : List (Fin n)) (start : Point) :
    let columns := Columns.place network gaps placed nodes start
    columns.finish.x = start.x ∧
      IsGreatest (Columns.slots network gaps start.y placed columns.placed) columns.finish.y ∧
      ∀ before i position, Columns.PutsInFirst network gaps placed nodes start before i position →
        columns.placed.get i = some position ∧ position.x = start.x ∧
          IsGreatest (Columns.slots network gaps start.y placed before) position.y := by
  have hfills := Columns.fills_place network gaps placed nodes start
  refine ⟨hfills.finish_x rfl, hfills.isGreatest_finish hheight hvertical, ?_⟩
  intro before i position hputs
  obtain ⟨passed, pending, -, -, hbefore⟩ := hputs.exists_fills
  exact ⟨hputs.get_place, hbefore.finish_x rfl, hbefore.isGreatest_finish hheight hvertical⟩

/-- The ring and the island, with a first table that is higher than the others. -/
def tallRingNetwork : Network Coord 4 :=
  { ringAndIslandNetwork with sizes := #v[⟨100, 200⟩, ⟨100, 50⟩, ⟨100, 50⟩, ⟨100, 50⟩] }

/-- The island goes below the high table in the column to the right, but not below the table that
had a place before. -/
theorem place_tight_tallRing :
    Columns.PutsInFirst tallRingNetwork .standard #v[none, none, some ⟨0, 900⟩, none] [3, 0, 1]
        ⟨5, 7⟩ #v[some ⟨165, 7⟩, none, some ⟨0, 900⟩, some ⟨5, 7⟩] 1 ⟨5, 217⟩ ∧
      IsGreatest (Columns.slots tallRingNetwork .standard 7 #v[none, none, some ⟨0, 900⟩, none]
        #v[some ⟨165, 7⟩, none, some ⟨0, 900⟩, some ⟨5, 7⟩]) 217 := by
  have hputs : Columns.PutsInFirst tallRingNetwork .standard #v[none, none, some ⟨0, 900⟩, none]
      [3, 0, 1] ⟨5, 7⟩ #v[some ⟨165, 7⟩, none, some ⟨0, 900⟩, some ⟨5, 7⟩] 1 ⟨5, 217⟩ :=
    ⟨_, _, .next (.next (.next (.next .start rfl) rfl) rfl) rfl, rfl, rfl, rfl⟩
  have hheight : ∀ i, 0 ≤ (tallRingNetwork.sizes.get i).height := by decide
  have htight := @place_tight 4 tallRingNetwork .standard hheight (by decide)
    #v[none, none, some ⟨0, 900⟩, none] [3, 0, 1] ⟨5, 7⟩
  exact ⟨hputs, (htight.2.2 _ _ _ hputs).2.2⟩

end SchemaLayout
