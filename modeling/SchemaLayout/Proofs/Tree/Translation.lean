import Mathlib.Algebra.Order.Group.Abs
import Mathlib.Algebra.Order.Group.Int
import SchemaLayout.Proofs.Tree.Monotonicity
import SchemaLayout.Proofs.Tree.Saturation
import SchemaLayout.Proofs.Tree.Separation

/-!
# Translation

A layout moves with its origin. Over unbounded integers this needs no condition, as sums and maxima
move with their arguments; on the plane it holds as long as no sum is stopped at the edge.

Sizes and gaps may be negative here, so a cursor can go in either direction. What bounds it is the
absolute value: the distance of a cursor from the zero point and the absolute values of all extents
and gaps that are still to be placed add up to no more than they did at the origin.
-/

namespace SchemaLayout

/-- How far the second point is from the first. -/
def Point.offset (p q : Point) : Point Int := ⟨q.x.toInt - p.x.toInt, q.y.toInt - p.y.toInt⟩

/-! ## Sums that stay on the plane -/

namespace Coord

/-- Stopping at the edge of the plane makes no sum larger. -/
theorem abs_toInt_add_le (a b : Coord) : |(a + b).toInt| ≤ |a.toInt| + |b.toInt| := by
  have ha := neg_abs_le a.toInt
  have ha' := le_abs_self a.toInt
  have hb := neg_abs_le b.toInt
  have hb' := le_abs_self b.toInt
  rw [abs_le, toInt_add]
  omega

theorem abs_toInt_add_add_le (a b c : Coord) :
    |(a + b + c).toInt| ≤ |a.toInt| + (|b.toInt| + |c.toInt|) := by
  have hab := abs_toInt_add_le a b
  have habc := abs_toInt_add_le (a + b) c
  omega

theorem toInt_add_of_abs_le {a b : Coord} (h : |a.toInt| + |b.toInt| ≤ 2147483647) :
    (a + b).toInt = a.toInt + b.toInt := by
  have hsum := abs_le.mp ((abs_add_le a.toInt b.toInt).trans h)
  rw [toInt_add]
  omega

theorem toInt_add_add_of_abs_le {a b c : Coord}
    (h : |a.toInt| + (|b.toInt| + |c.toInt|) ≤ 2147483647) :
    (a + b + c).toInt = a.toInt + b.toInt + c.toInt := by
  have hab := abs_toInt_add_le a b
  have hc := abs_nonneg c.toInt
  rw [toInt_add_of_abs_le (by omega), toInt_add_of_abs_le (by omega)]

end Coord

variable {n : Nat}

/-- How far, at most, a node and the gap beside it reach to either side. -/
def Network.spanRight (network : Network Coord n) (gaps : Gaps) (i : Fin n) : Int :=
  |(network.sizes.get i).width.toInt| + |gaps.horizontal.toInt|

/-- How far, at most, a node and the gap below it reach up or down. -/
def Network.spanDown (network : Network Coord n) (gaps : Gaps) (i : Fin n) : Int :=
  |(network.sizes.get i).height.toInt| + |gaps.vertical.toInt|

theorem Network.spanRight_nonneg (network : Network Coord n) (gaps : Gaps) (i : Fin n) :
    0 ≤ network.spanRight gaps i :=
  add_nonneg (abs_nonneg _) (abs_nonneg _)

theorem Network.spanDown_nonneg (network : Network Coord n) (gaps : Gaps) (i : Fin n) :
    0 ≤ network.spanDown gaps i :=
  add_nonneg (abs_nonneg _) (abs_nonneg _)

namespace Columns

variable {network : Network Coord n} {gaps : Gaps} {start cursor p : Point}
  {placed : Vector (Option Point) n} {i : Fin n} {nodes : List (Fin n)}
  {filling inner : Filling Coord n}

theorem abs_rightOf_le (network : Network Coord n) (gaps : Gaps) (i : Fin n) (p : Point) :
    |(rightOf network gaps i p).x.toInt| ≤ |p.x.toInt| + network.spanRight gaps i :=
  Coord.abs_toInt_add_add_le ..

theorem abs_below_le (network : Network Coord n) (gaps : Gaps) (i : Fin n) (p finish : Point) :
    |(below network gaps i p finish).toInt| ≤
      max (|p.y.toInt| + network.spanDown gaps i) |finish.y.toInt| := by
  have hbottom : |(bottom network gaps i p).toInt| ≤ |p.y.toInt| + network.spanDown gaps i :=
    Coord.abs_toInt_add_add_le ..
  rw [toInt_below]
  exact abs_max_le_max_abs_abs.trans (max_le_max_right _ hbottom)

theorem exact_rightOf (h : |p.x.toInt| + network.spanRight gaps i ≤ 2147483647) :
    rightOf network.exact gaps.exact i p.exact = (rightOf network gaps i p).exact := by
  rw [Network.spanRight] at h
  simp only [rightOf, Network.exact_sizes_get, Point.exact, Size.exact, Gaps.exact,
    Coord.toInt_add_add_of_abs_le h]

theorem exact_below (h : |p.y.toInt| + network.spanDown gaps i ≤ 2147483647) (finish : Point) :
    below network.exact gaps.exact i p.exact finish.exact =
      (below network gaps i p finish).toInt := by
  rw [Network.spanDown] at h
  simp only [below, Network.exact_sizes_get, Point.exact, Size.exact, Gaps.exact, Coord.toInt_max,
    Coord.toInt_add_add_of_abs_le h]

/-! ## Cursors that stay on the plane -/

/-- Wherever the nodes that have no place are put from a point on, they stay on the plane. -/
structure HasRoom (network : Network Coord n) (gaps : Gaps) (placed : Vector (Option Point) n)
    (p : Point) : Prop where
  x : |p.x.toInt| + room (network.spanRight gaps) placed ≤ 2147483647
  y : |p.y.toInt| + room (network.spanDown gaps) placed ≤ 2147483647

/-- The slot below a node and the column to its right is no further from the zero point than what
has been placed since allows, if this is so of the end of that column. -/
theorem abs_below_add_room_le (hfree : placed.get i = none)
    (hright : Fills network gaps (rightOf network gaps i cursor) (mark placed i cursor) nodes
      (rightOf network gaps i cursor) inner)
    (hfinish : |inner.finish.y.toInt| + room (network.spanDown gaps) inner.placed ≤
      |cursor.y.toInt| + room (network.spanDown gaps) (mark placed i cursor)) :
    |(below network gaps i cursor inner.finish).toInt| + room (network.spanDown gaps) inner.placed ≤
      |cursor.y.toInt| + room (network.spanDown gaps) placed := by
  have hmark := room_mark (network.spanDown gaps) hfree cursor
  have hroom := hright.room_le (network.spanDown_nonneg gaps)
  have hbelow := abs_below_le network gaps i cursor inner.finish
  have hspan := network.spanDown_nonneg gaps i
  omega

/-- A column ends no further from the zero point than what it has placed allows. -/
theorem Fills.abs_finish_le (h : Fills network gaps start placed nodes cursor filling) :
    |filling.finish.y.toInt| + room (network.spanDown gaps) filling.placed ≤
      |cursor.y.toInt| + room (network.spanDown gaps) placed := by
  induction h with
  | nil => exact Int.le_refl _
  | skip _ _ ih => exact ih
  | visit hfree right _ ihright ihrest =>
    exact ihrest.trans (abs_below_add_room_le hfree right ihright)

/-- The sums that are formed beside and below the next node stay on the plane. -/
theorem HasRoom.span_le (h : HasRoom network gaps placed p) (hfree : placed.get i = none) :
    |p.x.toInt| + network.spanRight gaps i ≤ 2147483647 ∧
      |p.y.toInt| + network.spanDown gaps i ≤ 2147483647 := by
  have hright := le_room (network.spanRight_nonneg gaps) hfree
  have hdown := le_room (network.spanDown_nonneg gaps) hfree
  have hx := h.x
  have hy := h.y
  omega

/-- There is room for the column to the right of a node. -/
theorem HasRoom.rightOf (h : HasRoom network gaps placed cursor) (hfree : placed.get i = none) :
    HasRoom network gaps (mark placed i cursor) (rightOf network gaps i cursor) := by
  have hmarkx := room_mark (network.spanRight gaps) hfree cursor
  have hmarky := room_mark (network.spanDown gaps) hfree cursor
  have hright := abs_rightOf_le network gaps i cursor
  have hspan := network.spanDown_nonneg gaps i
  have hx := h.x
  have hy := h.y
  refine ⟨by omega, ?_⟩
  rw [rightOf_y]
  omega

/-- There is room for the rest of the column of a node. -/
theorem HasRoom.below (h : HasRoom network gaps placed cursor) (hfree : placed.get i = none)
    (hright : Fills network gaps (Columns.rightOf network gaps i cursor) (mark placed i cursor)
      nodes (Columns.rightOf network gaps i cursor) inner) (hx : start.x = cursor.x) :
    HasRoom network gaps inner.placed ⟨start.x, below network gaps i cursor inner.finish⟩ := by
  refine ⟨?_, (abs_below_add_room_le hfree hright hright.abs_finish_le).trans h.y⟩
  have hmark := room_mark (network.spanRight gaps) hfree cursor
  have hroom := hright.room_le (network.spanRight_nonneg gaps)
  have hspan := network.spanRight_nonneg gaps i
  have hcursor := h.x
  rw [hx]
  omega

/-! ## Nothing is cut -/

theorem exactPlaces_mark (placed : Vector (Option Point) n) (i : Fin n) (p : Point) :
    exactPlaces (mark placed i p) = mark (exactPlaces placed) i p.exact :=
  Vector.map_set ..

theorem exactPlaces_replicate :
    exactPlaces (.replicate n (none : Option Point)) = .replicate n none :=
  Vector.map_replicate

theorem fresh_exactPlaces (placed : Vector (Option Point) n) (i : Fin n) :
    fresh network.exact (exactPlaces placed) i = fresh network placed i := by
  simp only [fresh, get_exactPlaces, Option.isNone_map]
  rfl

/-- A filling that has room finds the positions that are found over unbounded integers. -/
theorem Fills.exact (h : Fills network gaps start placed nodes cursor filling)
    (hx : start.x = cursor.x) (hroom : HasRoom network gaps placed cursor) :
    Fills network.exact gaps.exact start.exact (exactPlaces placed) nodes cursor.exact
      ⟨exactPlaces filling.placed, filling.finish.exact⟩ := by
  induction h with
  | nil => exact .nil
  | skip hplaced _ ih =>
    refine .skip ?_ (ih hx hroom)
    rw [get_exactPlaces]
    exact fun h => hplaced (Option.map_eq_none_iff.mp h)
  | @visit start placed i nodes cursor inner _ hfree right rest ihright ihrest =>
    obtain ⟨hspanx, hspany⟩ := hroom.span_le hfree
    have hright := ihright rfl (hroom.rightOf hfree)
    have hrest := ihrest rfl (hroom.below hfree right hx)
    rw [← exact_rightOf hspanx, exactPlaces_mark, ← fresh_exactPlaces, exactPlaces_mark] at hright
    refine .visit ?_ hright ?_
    · rw [get_exactPlaces, hfree]
      rfl
    · rw [exact_below hspany]
      exact hrest

end Columns

/-! ## Translation over unbounded integers -/

namespace Comparison

/-- The second placement is the first, moved by `d`. -/
def moved (d : Point Int) : Comparison Int Int where
  x a b := b - a = d.x
  y a b := b - a = d.y

theorem ofPoint_moved_exact_iff {d : Point Int} {p q : Point} :
    (moved d).OfPoint p.exact q.exact ↔ p.offset q = d := by
  rw [Point.ext_iff]
  exact ⟨fun h => ⟨h.x, h.y⟩, fun h => ⟨h.1, h.2⟩⟩

/-- Sums and maxima of integers move with their arguments. -/
theorem kept_moved (d : Point Int) (network : Network Int n) (gaps : Gaps Int) :
    (moved d).Kept network gaps network gaps := by
  refine ⟨rfl, fun i a b h => ?_, fun i a b h => ?_, fun {a b c e} h h' => ?_⟩ <;>
    simp only [moved] at * <;> omega

end Comparison

namespace Columns

variable {network : Network Coord n} {gaps : Gaps} {p q : Point} {nodes : List (Fin n)}
  {filling filling' : Filling Coord n}

/-- Two fillings from different points, both with room for all nodes, differ by the offset of the
points. -/
theorem Fills.offset (h : Fills network gaps p (.replicate n none) nodes p filling)
    (h' : Fills network gaps q (.replicate n none) nodes q filling')
    (hroom : HasRoom network gaps (.replicate n none) p)
    (hroom' : HasRoom network gaps (.replicate n none) q) :
    (∀ i r s, filling.placed.get i = some r → filling'.placed.get i = some s →
      r.offset s = p.offset q) ∧ filling.finish.offset filling'.finish = p.offset q := by
  have hexact := h.exact rfl hroom
  have hexact' := h'.exact rfl hroom'
  rw [exactPlaces_replicate] at hexact hexact'
  have hplace := (Comparison.kept_moved (p.offset q) network.exact gaps.exact).place
    (Comparison.ofPlaced_replicate _) nodes (Comparison.ofPoint_moved_exact_iff.mpr rfl)
  rw [place_of_fills hexact, place_of_fills hexact'] at hplace
  refine ⟨fun i r s hr hs => ?_, Comparison.ofPoint_moved_exact_iff.mp hplace.finish⟩
  have hi := hplace.placed i
  dsimp only at hi
  rw [get_exactPlaces, get_exactPlaces, hr, hs, Option.map_some, Option.map_some,
    Option.rel_some_some] at hi
  exact Comparison.ofPoint_moved_exact_iff.mp hi

end Columns

/-! ## Layouts -/

section

variable {δ ι : Type} [Diagram δ ι] {gaps : Gaps} {diagram : δ} {nodes : List ι}

/-- An origin from which the absolute values of all extents and gaps stay on the plane has room for
every node. -/
theorem Network.Resolves.hasRoom {network : Network Coord nodes.length} {size : ι → Size}
    (h : network.Resolves diagram (listed nodes))
    (hsize : ∀ node ∈ nodes, Diagram.size? diagram node = some (size node)) {origin : Point}
    (hx : |origin.x.toInt| + (nodes.map fun node =>
      |(size node).width.toInt| + |gaps.horizontal.toInt|).sum ≤ 2147483647)
    (hy : |origin.y.toInt| + (nodes.map fun node =>
      |(size node).height.toInt| + |gaps.vertical.toInt|).sum ≤ 2147483647) :
    Columns.HasRoom network gaps (.replicate _ none) origin := by
  have hright (i : Fin nodes.length) : network.spanRight gaps i =
      |(size ((listed nodes).get i)).width.toInt| + |gaps.horizontal.toInt| := by
    rw [Network.spanRight, h.sizes_get hsize]
  have hdown (i : Fin nodes.length) : network.spanDown gaps i =
      |(size ((listed nodes).get i)).height.toInt| + |gaps.vertical.toInt| := by
    rw [Network.spanDown, h.sizes_get hsize]
  rw [← room_listed, ← funext hright] at hx
  rw [← room_listed, ← funext hdown] at hy
  exact ⟨hx, hy⟩

variable [BEq ι] [LawfulBEq ι] [Hashable ι]

/-- A layout moves with its origin. If the absolute values of all extents and gaps stay on the
plane from either of two origins, then the nodes that are accepted from the one are accepted from
the other, and the two placements of every node are as far from each other as the origins are. -/
theorem treeLayout_translates {origin : Point} {layout : TreeLayout ι}
    (hlayout : treeLayout gaps diagram nodes origin = .ok layout) (origin' : Point)
    (size : ι → Size) (hsize : ∀ node ∈ nodes, Diagram.size? diagram node = some (size node))
    (hfits : ∀ o ∈ [origin, origin'],
      |o.x.toInt| + (nodes.map fun node =>
        |(size node).width.toInt| + |gaps.horizontal.toInt|).sum ≤ 2147483647 ∧
      |o.y.toInt| + (nodes.map fun node =>
        |(size node).height.toInt| + |gaps.vertical.toInt|).sum ≤ 2147483647) :
    ∃ layout', treeLayout gaps diagram nodes origin' = .ok layout' ∧
      (∀ node ∈ nodes, ∃ p q, layout.placements.find? node = some p ∧
        layout'.placements.find? node = some q ∧ p.offset q = origin.offset origin') ∧
      layout.finish.offset layout'.finish = origin.offset origin' := by
  obtain ⟨network, filling, haccepted, rfl⟩ := treeLayout_eq_ok_iff.mp hlayout
  have haccepted' : Accepted gaps diagram nodes origin' network _ :=
    ⟨haccepted.resolves, Columns.fills_place ..⟩
  have hroom (o : Point) (ho : o ∈ [origin, origin']) :
      Columns.HasRoom network gaps (.replicate _ none) o :=
    haccepted.resolves.hasRoom hsize (hfits o ho).1 (hfits o ho).2
  obtain ⟨hplaces, hfinish⟩ := haccepted.fills.offset haccepted'.fills
    (hroom origin (by simp)) (hroom origin' (by simp))
  refine ⟨_, treeLayout_eq_ok_iff.mpr ⟨network, _, haccepted', rfl⟩, ?_, hfinish⟩
  intro node hnode
  obtain ⟨i, rfl⟩ := exists_get_listed hnode
  obtain ⟨p, hp, hfind⟩ := haccepted.exists_find? i
  obtain ⟨q, hq, hfind'⟩ := haccepted'.exists_find? i
  exact ⟨p, q, hfind, hfind', hplaces i p q hp.place hq.place⟩

end

/-- The folded ring can be moved until nothing is left of the plane but the room that it is
promised. -/
theorem treeLayout_translates_foldedRing : ∃ layout layout',
    treeLayout ⟨60, .clamp (-5)⟩ foldedRing [⟨0⟩, ⟨1⟩, ⟨2⟩] ⟨.clamp (-10), 0⟩ = .ok layout ∧
      treeLayout ⟨60, .clamp (-5)⟩ foldedRing [⟨0⟩, ⟨1⟩, ⟨2⟩]
        ⟨.clamp 2147483067, .clamp (-2147483482)⟩ = .ok layout' ∧
      ∀ id ∈ [⟨0⟩, ⟨1⟩, ⟨2⟩], ∃ p q, layout.placements.find? id = some p ∧
        layout'.placements.find? id = some q ∧ p.offset q = ⟨2147483077, -2147483482⟩ := by
  have hlayout := treeLayout_eq_ok_iff.mpr ⟨_, _, accepted_foldedRing, rfl⟩
  let size (id : TableId) : Size := if id = ⟨0⟩ then ⟨.clamp (-200), 50⟩ else ⟨100, 50⟩
  obtain ⟨layout', hlayout', hplaces, -⟩ := treeLayout_translates hlayout
    ⟨.clamp 2147483067, .clamp (-2147483482)⟩ size (by decide) (by decide)
  exact ⟨_, layout', hlayout, hlayout', hplaces⟩

end SchemaLayout
