import SchemaLayout.Proofs.Schema.Reachable
import SchemaLayout.Proofs.Tree.Separation

/-!
# Related nodes from left to right

Two tables of a schema that are related never share a column: one of them lies to the right of the
other, and not above it. When the first of them is placed, the other has no place yet and so goes to
the right, either at once or because a node on the way to it does. It cannot be left for a later
column, since a filling leaves no node out that is related to a node it has placed; this is where it
matters that a relationship is listed at both of its ends.
-/

namespace SchemaLayout

/-- A node of a given size at `p` ends a gap to the left of `q`, which is not above it. -/
def IsLeftOf (gaps : Gaps) (size : Size) (p q : Point) : Prop :=
  p.x + size.width + gaps.horizontal ≤ q.x ∧ p.y ≤ q.y

/-- Every node is related to the nodes that are related to it. -/
def Network.Mirrored {n : Nat} (network : Network Coord n) : Prop :=
  ∀ {i j}, j ∈ network.related.get i → i ∈ network.related.get j

/-- Of two related nodes that a filling places, one goes to the right of the other. -/
theorem Columns.Fills.isLeftOf_of_related {n : Nat} {network : Network Coord n} {gaps : Gaps}
    {start cursor p q : Point} {placed : Vector (Option Point) n} {nodes : List (Fin n)}
    {filling : Filling Coord n} {i j : Fin n} (hn : network.Nonneg gaps)
    (hmirrored : network.Mirrored)
    (h : Fills network gaps start placed nodes cursor filling) (hx : start.x = cursor.x)
    (hne : i ≠ j) (hi : Adds placed filling.placed i p) (hj : Adds placed filling.placed j q)
    (hrelated : j ∈ network.related.get i) :
    IsLeftOf gaps (network.sizes.get i) p q ∨ IsLeftOf gaps (network.sizes.get j) q p := by
  let R (i : Fin n) (p : Point) (j : Fin n) (q : Point) : Prop :=
    j ∈ network.related.get i →
      IsLeftOf gaps (network.sizes.get i) p q ∨ IsLeftOf gaps (network.sizes.get j) q p
  refine Fills.pairwise (R := R) ?_ ?_ h hx hne hi hj hrelated
  · intro i p j q hR hji
    exact (hR (hmirrored hji)).symm
  · intro start placed k nodes cursor inner outer _ right rest
    refine ⟨?_, ?_, ?_⟩
    · intro l r hl _
      have hblock := right.inBlock hn rfl hl
      exact .inl ⟨hblock.left, hblock.top⟩
    · -- a node related to `k` that had no place was in the list of the column to its right
      intro l r hl hkl
      have hfresh : l ∈ fresh network (mark placed k cursor) k :=
        mem_fresh.mpr ⟨hkl, right.get_eq_none hl.free⟩
      exact absurd hl.free (right.ne_none_of_mem hfresh)
    · -- that column leaves out no node related to one of its own
      intro l r m t hl hm hlm
      have hplaced : inner.placed.get l ≠ none := by
        rw [hl.place]
        exact Option.some_ne_none r
      exact absurd hm.free (right.ne_none_of_related hl.free hplaced hlm)

/-! ## Schemas -/

section

variable {schema : Schema} {nodes : List TableId} {network : Network Coord nodes.length}

/-- The related nodes of a table are those at the other ends of its relationships. -/
theorem Network.Resolves.mem_related_iff (h : network.Resolves schema (listed nodes))
    {i j : Fin nodes.length} : j ∈ network.related.get i ↔
      (listed nodes).get j ∈ schema.exported ((listed nodes).get i) ∨
        (listed nodes).get j ∈ schema.imported ((listed nodes).get i) := by
  obtain ⟨exported, imported, hexported, himported, hmap⟩ := h.related i
  cases hexported
  cases himported
  rw [← List.mem_map_of_injective h.injective, hmap, List.mem_append]

/-- The network of a well-formed schema is mirrored. -/
theorem Network.Resolves.mirrored (h : network.Resolves schema (listed nodes))
    (hschema : schema.WellFormed) : network.Mirrored := by
  intro i j hj
  rw [h.mem_related_iff] at hj ⊢
  rcases hj with hj | hj
  · exact .inr (hschema.mem_exported_iff.mp hj)
  · exact .inl (hschema.mem_exported_iff.mpr hj)

end

/-- Of two listed tables with a relationship between them, one lies to the right of the other and
not above it. -/
theorem treeLayout_isLeftOf_of_related {schema : Schema} {gaps : Gaps} {nodes : List TableId}
    {origin : Point} {layout : TreeLayout TableId} (hschema : schema.Reachable)
    (hextent : ∀ id size, Diagram.size? schema id = some size → 0 ≤ size.width ∧ 0 ≤ size.height)
    (hgaps : 0 ≤ gaps.horizontal ∧ 0 ≤ gaps.vertical)
    (hlayout : treeLayout gaps schema nodes origin = .ok layout) {a b : TableId} (ha : a ∈ nodes)
    (hb : b ∈ nodes) (hne : a ≠ b) (hrelated : b ∈ schema.exported a ∨ b ∈ schema.imported a) :
    ∃ p q s t, layout.placements.find? a = some p ∧ layout.placements.find? b = some q ∧
      Diagram.size? schema a = some s ∧ Diagram.size? schema b = some t ∧
      (IsLeftOf gaps s p q ∨ IsLeftOf gaps t q p) := by
  obtain ⟨network, filling, haccepted, rfl⟩ := treeLayout_eq_ok_iff.mp hlayout
  obtain ⟨i, rfl⟩ := exists_get_listed ha
  obtain ⟨j, rfl⟩ := exists_get_listed hb
  have hresolves := haccepted.resolves
  have hn := hresolves.nonneg (fun node _ => hextent node) hgaps
  obtain ⟨p, hp, hfindp⟩ := haccepted.exists_find? i
  obtain ⟨q, hq, hfindq⟩ := haccepted.exists_find? j
  have hij : i ≠ j := fun h => hne (congrArg _ h)
  refine ⟨p, q, _, _, hfindp, hfindq, hresolves.sizes i, hresolves.sizes j, ?_⟩
  exact haccepted.fills.isLeftOf_of_related hn (hresolves.mirrored hschema.wellFormed) rfl hij
    hp hq (hresolves.mem_related_iff.mpr hrelated)

/-- All tables of the ring have the same size. -/
theorem size_ring {id : TableId} {size : Size} (h : Diagram.size? Schema.ring id = some size) :
    size = ⟨100, 50⟩ := by
  obtain ⟨index⟩ := id
  match index with
  | 0 | 1 | 2 => exact (Option.some.inj h).symm
  | _ + 3 => cases h

/-- The first and the last table of the ring do not share a column. -/
theorem treeLayout_isLeftOf_ring : ∃ layout,
    treeLayout .standard Schema.ring [⟨0⟩, ⟨1⟩, ⟨2⟩] .zero = .ok layout ∧
      ∃ p q s t, layout.placements.find? ⟨2⟩ = some p ∧ layout.placements.find? ⟨0⟩ = some q ∧
        Diagram.size? Schema.ring (⟨2⟩ : TableId) = some s ∧
        Diagram.size? Schema.ring (⟨0⟩ : TableId) = some t ∧
        (IsLeftOf .standard s p q ∨ IsLeftOf .standard t q p) := by
  have hlayout := treeLayout_eq_ok_iff.mpr ⟨_, _, accepted_ring, rfl⟩
  refine ⟨_, hlayout, ?_⟩
  refine treeLayout_isLeftOf_of_related Schema.reachable_ring ?_ (by decide) hlayout (by decide)
    (by decide) (by decide) (by decide)
  intro id size hsize
  rw [size_ring hsize]
  decide

end SchemaLayout
