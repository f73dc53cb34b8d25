import Mathlib.Algebra.BigOperators.Fin
import SchemaLayout.Proofs.Schema.Reachable
import SchemaLayout.Proofs.Tree.Accepted
import SchemaLayout.Proofs.Tree.Blocks

/-!
# Separation

No two nodes of an accepted layout overlap, and between any two of them there is at least one of the
two gaps. `Columns.Fills.apart` says this of saturated sums; it remains to see that nothing has
saturated. A layout fits if the origin and all widths and horizontal gaps together stay on the
plane, and likewise all heights and vertical gaps, which bounds every sum that occurs.
-/

namespace SchemaLayout

variable {δ ι : Type} [Diagram δ ι] {gaps : Gaps} {diagram : δ} {nodes : List ι} {origin : Point}
  {network : Network Coord nodes.length} {filling : Filling Coord nodes.length}

/-- The sizes of a network are those of the nodes. -/
theorem Network.Resolves.sizes_get (h : network.Resolves diagram (listed nodes)) {size : ι → Size}
    (hsize : ∀ node ∈ nodes, Diagram.size? diagram node = some (size node))
    (i : Fin nodes.length) : network.sizes.get i = size ((listed nodes).get i) := by
  rw [← Option.some.injEq, ← h.sizes i]
  exact hsize _ (List.get_mem nodes i)

/-- Extents and gaps that are not negative in the diagram are not negative in the network. -/
theorem Network.Resolves.nonneg (h : network.Resolves diagram (listed nodes))
    (hextent : ∀ node ∈ nodes, ∀ size, Diagram.size? diagram node = some size →
      0 ≤ size.width ∧ 0 ≤ size.height)
    (hgaps : 0 ≤ gaps.horizontal ∧ 0 ≤ gaps.vertical) : network.Nonneg gaps := by
  have hsizes (i : Fin nodes.length) := hextent _ (List.get_mem nodes i) _ (h.sizes i)
  exact ⟨fun i => (hsizes i).1, fun i => (hsizes i).2, hgaps.1, hgaps.2⟩

/-- The room before a layout is the sum over the listed nodes. -/
theorem room_listed (f : ι → Int) :
    Columns.room (fun i => f ((listed nodes).get i))
        (.replicate nodes.length (none : Option Point)) =
      (nodes.map f).sum := by
  have hmap : nodes.map f = List.ofFn fun i : Fin nodes.length => f ((listed nodes).get i) := by
    conv_lhs => rw [← List.ofFn_get nodes]
    rw [List.map_ofFn]
    rfl
  rw [Columns.room_replicate, hmap, List.sum_ofFn]

variable [BEq ι] [LawfulBEq ι] [Hashable ι] {layout : TreeLayout ι}

/-- In a layout that fits on the plane any two nodes are apart by a gap: one of them ends a
horizontal gap to the left of the other, or a vertical gap above it. -/
theorem treeLayout_separates (hlayout : treeLayout gaps diagram nodes origin = .ok layout)
    (size : ι → Size) (hsize : ∀ node ∈ nodes, Diagram.size? diagram node = some (size node))
    (hextent : ∀ node ∈ nodes, 0 ≤ (size node).width ∧ 0 ≤ (size node).height)
    (hgaps : 0 ≤ gaps.horizontal ∧ 0 ≤ gaps.vertical)
    (hx : origin.x.toInt +
      (nodes.map fun node => (size node).width.toInt + gaps.horizontal.toInt).sum ≤ 2147483647)
    (hy : origin.y.toInt +
      (nodes.map fun node => (size node).height.toInt + gaps.vertical.toInt).sum ≤ 2147483647)
    {a b : ι} (ha : a ∈ nodes) (hb : b ∈ nodes) (hne : a ≠ b) :
    ∃ p q, layout.placements.find? a = some p ∧ layout.placements.find? b = some q ∧
      (p.x.toInt + (size a).width.toInt + gaps.horizontal.toInt ≤ q.x.toInt ∨
        q.x.toInt + (size b).width.toInt + gaps.horizontal.toInt ≤ p.x.toInt ∨
        p.y.toInt + (size a).height.toInt + gaps.vertical.toInt ≤ q.y.toInt ∨
        q.y.toInt + (size b).height.toInt + gaps.vertical.toInt ≤ p.y.toInt) := by
  obtain ⟨network, filling, haccepted, rfl⟩ := treeLayout_eq_ok_iff.mp hlayout
  obtain ⟨i, rfl⟩ := exists_get_listed ha
  obtain ⟨j, rfl⟩ := exists_get_listed hb
  have hn : network.Nonneg gaps := by
    refine haccepted.resolves.nonneg (fun node hnode found hfound => ?_) hgaps
    rw [hsize node hnode] at hfound
    cases hfound
    exact hextent node hnode
  have hright (k : Fin nodes.length) : network.stepRight gaps k =
      (size ((listed nodes).get k)).width.toInt + gaps.horizontal.toInt := by
    rw [Network.stepRight, haccepted.resolves.sizes_get hsize]
  have hdown (k : Fin nodes.length) : network.stepDown gaps k =
      (size ((listed nodes).get k)).height.toInt + gaps.vertical.toInt := by
    rw [Network.stepDown, haccepted.resolves.sizes_get hsize]
  rw [← room_listed, ← funext hright] at hx
  rw [← room_listed, ← funext hdown] at hy
  obtain ⟨p, hp, hfindp⟩ := haccepted.exists_find? i
  obtain ⟨q, hq, hfindq⟩ := haccepted.exists_find? j
  refine ⟨p, q, hfindp, hfindq, ?_⟩
  have hij : i ≠ j := fun h => hne (congrArg _ h)
  have hapart := haccepted.fills.apart hn rfl hij hp hq
  have hpx := haccepted.fills.right_le hn rfl hp
  have hqx := haccepted.fills.right_le hn rfl hq
  have hpy := haccepted.fills.bottom_le hn hp
  have hqy := haccepted.fills.bottom_le hn hq
  have hi := hright i
  have hj := hright j
  have hi' := hdown i
  have hj' := hdown j
  -- none of the four sums saturates, as each is within the room
  simp only [Columns.Apart, Columns.toInt_rightOf hn, Columns.toInt_bottom hn] at hapart
  omega

/-! ## An example -/

/-- The network of the ring. -/
def ringNetwork : Network Coord 3 :=
  ⟨.replicate 3 ⟨100, 50⟩, #v[[1, 0, 2, 0], [2, 0], [0, 1]]⟩

/-- The ring is laid out as a chain. -/
theorem accepted_ring :
    Accepted .standard Schema.ring [⟨0⟩, ⟨1⟩, ⟨2⟩] .zero ringNetwork
      ⟨#v[some ⟨0, 0⟩, some ⟨160, 0⟩, some ⟨320, 0⟩], ⟨0, 60⟩⟩ := by
  let tables : Vector TableId 3 := listed [⟨0⟩, ⟨1⟩, ⟨2⟩]
  have hrelated : ∀ i : Fin 3, (ringNetwork.related.get i).map tables.get =
      Schema.ring.exported (tables.get i) ++ Schema.ring.imported (tables.get i) := by decide
  have hrange : List.finRange 3 = [0, 1, 2] := by decide
  refine ⟨⟨by decide, fun i => ⟨_, _, rfl, rfl, hrelated i⟩, by decide⟩, ?_⟩
  show Columns.Fills _ _ _ (.replicate 3 none) (List.finRange 3) _ _
  rw [hrange]
  refine .visit rfl (.visit rfl (.visit rfl .nil .nil) (.skip ?_ .nil))
    (.skip ?_ (.skip ?_ .nil)) <;> decide

/-- The first and the last table of the ring are apart. -/
theorem treeLayout_separates_ring : ∃ layout,
    treeLayout .standard Schema.ring [⟨0⟩, ⟨1⟩, ⟨2⟩] .zero = .ok layout ∧
      ∃ p q, layout.placements.find? ⟨0⟩ = some p ∧ layout.placements.find? ⟨2⟩ = some q ∧
        (p.x.toInt + 100 + 60 ≤ q.x.toInt ∨ q.x.toInt + 100 + 60 ≤ p.x.toInt ∨
          p.y.toInt + 50 + 10 ≤ q.y.toInt ∨ q.y.toInt + 50 + 10 ≤ p.y.toInt) := by
  have hlayout := treeLayout_eq_ok_iff.mpr ⟨_, _, accepted_ring, rfl⟩
  refine ⟨_, hlayout, ?_⟩
  exact treeLayout_separates hlayout (fun _ => ⟨100, 50⟩) (by decide) (by decide) (by decide)
    (by decide) (by decide) (by decide) (by decide) (by decide)

end SchemaLayout
