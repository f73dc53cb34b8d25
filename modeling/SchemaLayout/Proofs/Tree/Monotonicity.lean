import SchemaLayout.Proofs.Tree.Alongside

/-!
# Monotonicity

Making a node larger, making a gap wider or moving the origin to the right or down moves no node of
a layout to the left or up. This is so for extents and gaps of either sign and at the edge of the
plane, as sums and maxima of coordinates keep their order.
-/

namespace SchemaLayout

/-! ## Coordinates -/

namespace Coord

variable {a b c d : Coord}

theorem add_le_add (hab : a ≤ b) (hcd : c ≤ d) : a + c ≤ b + d := by
  rw [le_def] at hab hcd ⊢
  rw [toInt_add, toInt_add]
  omega

theorem max_le_max (hab : a ≤ b) (hcd : c ≤ d) : max a c ≤ max b d := by
  rw [le_def] at hab hcd ⊢
  rw [toInt_max, toInt_max]
  omega

end Coord

/-! ## Networks -/

/-- No coordinate is larger than the other one. -/
def Comparison.le : Comparison Coord Coord where
  x a b := a ≤ b
  y a b := a ≤ b

/-- No extent is larger than the other one. -/
def Size.Fits (size size' : Size) : Prop :=
  size.width ≤ size'.width ∧ size.height ≤ size'.height

instance (size size' : Size) : Decidable (size.Fits size') := instDecidableAnd

/-- Larger sizes and wider gaps keep the order of coordinates. -/
theorem Comparison.kept_le {n : Nat} {network network' : Network Coord n} {gaps gaps' : Gaps}
    (hrelated : network.related = network'.related)
    (hsizes : ∀ i, (network.sizes.get i).Fits (network'.sizes.get i))
    (hgaps : gaps.horizontal ≤ gaps'.horizontal ∧ gaps.vertical ≤ gaps'.vertical) :
    Comparison.le.Kept network gaps network' gaps' where
  related := hrelated
  right i _ _ h := Coord.add_le_add (Coord.add_le_add h (hsizes i).1) hgaps.1
  down i _ _ h := Coord.add_le_add (Coord.add_le_add h (hsizes i).2) hgaps.2
  max := Coord.max_le_max

section

variable {δ δ' ι : Type} [Diagram δ ι] [Diagram δ' ι] {diagram : δ} {diagram' : δ'}
  {nodes : List ι}

/-- Nodes with the same relationships have the same related numbers. -/
theorem Network.Resolves.related_eq {network network' : Network Coord nodes.length}
    (h : network.Resolves diagram (listed nodes)) (h' : network'.Resolves diagram' (listed nodes))
    (hexported : ∀ node ∈ nodes, Diagram.exported diagram node = Diagram.exported diagram' node)
    (himported : ∀ node ∈ nodes, Diagram.imported diagram node = Diagram.imported diagram' node) :
    network.related = network'.related := by
  have hget (i : Fin nodes.length) : network.related.get i = network'.related.get i := by
    have hmem : (listed nodes).get i ∈ nodes := List.get_mem nodes i
    obtain ⟨exported, imported, hex, him, hmap⟩ := h.related i
    obtain ⟨exported', imported', hex', him', hmap'⟩ := h'.related i
    -- both lists of numbers stand for the same nodes, which have one number each
    rw [hexported _ hmem, hex'] at hex
    rw [himported _ hmem, him'] at him
    cases hex
    cases him
    exact List.map_injective_iff.mpr h.injective (hmap.trans hmap'.symm)
  exact Vector.ext fun i hi => hget ⟨i, hi⟩

variable [BEq ι] [LawfulBEq ι] [Hashable ι]

/-- A layout is monotone in all that it measures. If two diagrams have the same relationships
between the nodes that are laid out, and neither a size nor a gap nor the origin is larger for the
first than for the second, then no node lies further right or further down in the layout of the
first. -/
theorem treeLayout_mono {gaps gaps' : Gaps} {origin origin' : Point}
    {layout layout' : TreeLayout ι}
    (hlayout : treeLayout gaps diagram nodes origin = .ok layout)
    (hlayout' : treeLayout gaps' diagram' nodes origin' = .ok layout')
    (hexported : ∀ node ∈ nodes, Diagram.exported diagram node = Diagram.exported diagram' node)
    (himported : ∀ node ∈ nodes, Diagram.imported diagram node = Diagram.imported diagram' node)
    (hsize : ∀ node ∈ nodes, ∀ size size', Diagram.size? diagram node = some size →
      Diagram.size? diagram' node = some size' → size.Fits size')
    (hgaps : gaps.horizontal ≤ gaps'.horizontal ∧ gaps.vertical ≤ gaps'.vertical)
    (horigin : origin.x ≤ origin'.x ∧ origin.y ≤ origin'.y) :
    ∀ node ∈ nodes, ∃ p q, layout.placements.find? node = some p ∧
      layout'.placements.find? node = some q ∧ p.x ≤ q.x ∧ p.y ≤ q.y := by
  obtain ⟨network, filling, haccepted, rfl⟩ := treeLayout_eq_ok_iff.mp hlayout
  obtain ⟨network', filling', haccepted', rfl⟩ := treeLayout_eq_ok_iff.mp hlayout'
  have hresolves := haccepted.resolves
  have hresolves' := haccepted'.resolves
  have hkept : Comparison.le.Kept network gaps network' gaps' := by
    refine Comparison.kept_le (hresolves.related_eq hresolves' hexported himported) ?_ hgaps
    exact fun i => hsize _ (List.get_mem nodes i) _ _ (hresolves.sizes i) (hresolves'.sizes i)
  intro node hnode
  obtain ⟨p, q, hp, hq, hle⟩ :=
    hkept.exists_find? ⟨horigin.1, horigin.2⟩ haccepted haccepted' hnode
  exact ⟨p, q, hp, hq, hle.x, hle.y⟩

end

/-! ## An example -/

/-- The ring with a first table of negative width. -/
def foldedRing : Schema :=
  let table (name : String) (width : Coord) : Table := ⟨name, ⟨500, 500⟩, ⟨width, 50⟩⟩
  let tables := (((Schema.empty.addTable (table "a" (.clamp (-200)))).1.addTable
    (table "b" 100)).1.addTable (table "c" 100)).1
  let chain := (tables.addRelationship ⟨0⟩ ⟨1⟩).addRelationship ⟨1⟩ ⟨2⟩
  (chain.addRelationship ⟨2⟩ ⟨0⟩).addRelationship ⟨0⟩ ⟨0⟩

/-- The network of the folded ring. -/
def foldedRingNetwork : Network Coord 3 :=
  { ringNetwork with sizes := #v[⟨.clamp (-200), 50⟩, ⟨100, 50⟩, ⟨100, 50⟩] }

/-- The chain as which the folded ring is laid out turns back at its first table. -/
theorem accepted_foldedRing :
    Accepted ⟨60, .clamp (-5)⟩ foldedRing [⟨0⟩, ⟨1⟩, ⟨2⟩] ⟨.clamp (-10), 0⟩ foldedRingNetwork
      ⟨#v[some ⟨.clamp (-10), 0⟩, some ⟨.clamp (-150), 0⟩, some ⟨10, 0⟩],
        ⟨.clamp (-10), 45⟩⟩ := by
  let tables : Vector TableId 3 := listed [⟨0⟩, ⟨1⟩, ⟨2⟩]
  have hrelated : ∀ i : Fin 3, (foldedRingNetwork.related.get i).map tables.get =
      foldedRing.exported (tables.get i) ++ foldedRing.imported (tables.get i) := by decide
  have hrange : List.finRange 3 = [0, 1, 2] := by decide
  refine ⟨⟨by decide, fun i => ⟨_, _, rfl, rfl, hrelated i⟩, by decide⟩, ?_⟩
  show Columns.Fills _ _ _ (.replicate 3 none) (List.finRange 3) _ _
  rw [hrange]
  refine .visit rfl (.visit rfl (.visit rfl .nil .nil) (.skip ?_ .nil))
    (.skip ?_ (.skip ?_ .nil)) <;> decide

/-- Unfolding the ring, with wider gaps and from an origin further right, moves no table to the left
or up. -/
theorem treeLayout_mono_ring : ∃ layout layout',
    treeLayout ⟨60, .clamp (-5)⟩ foldedRing [⟨0⟩, ⟨1⟩, ⟨2⟩] ⟨.clamp (-10), 0⟩ = .ok layout ∧
      treeLayout .standard Schema.ring [⟨0⟩, ⟨1⟩, ⟨2⟩] .zero = .ok layout' ∧
      ∀ id ∈ [⟨0⟩, ⟨1⟩, ⟨2⟩], ∃ p q, layout.placements.find? id = some p ∧
        layout'.placements.find? id = some q ∧ p.x ≤ q.x ∧ p.y ≤ q.y := by
  have hlayout := treeLayout_eq_ok_iff.mpr ⟨_, _, accepted_foldedRing, rfl⟩
  have hlayout' := treeLayout_eq_ok_iff.mpr ⟨_, _, accepted_ring, rfl⟩
  have hsize : ∀ id ∈ [⟨0⟩, ⟨1⟩, ⟨2⟩], ∀ size size', Diagram.size? foldedRing id = some size →
      Diagram.size? Schema.ring id = some size' → size.Fits size' := by
    intro id hid size size' hfolded hring
    simp only [List.mem_cons, List.not_mem_nil, or_false] at hid
    rcases hid with rfl | rfl | rfl <;> cases Option.some.inj hfolded <;>
      cases Option.some.inj hring <;> decide
  refine ⟨_, _, hlayout, hlayout', ?_⟩
  exact treeLayout_mono hlayout hlayout' (by decide) (by decide) hsize (by decide) (by decide)

end SchemaLayout
