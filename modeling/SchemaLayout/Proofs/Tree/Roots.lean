import SchemaLayout.Proofs.Tree.LeftToRight
import SchemaLayout.Proofs.Tree.Reach

/-!
# Roots

The outermost column of a layout holds one node for each part of the diagram that hangs together:
its root, the first listed node from which the part is reached. When the column arrives at a node,
everything that earlier nodes reach has a place and nothing else has, so the node is placed there
exactly if it is a root; and all that it reaches and that is still free goes into one block to its
right before the column goes on below.
-/

namespace SchemaLayout

/-! ## Numbered nodes -/

section

variable {n : Nat}

/-- No node with a smaller number reaches the node. -/
def IsRoot (reaches : Fin n → Fin n → Prop) (k : Fin n) : Prop :=
  ∀ i < k, ¬ reaches i k

/-- Of the nodes that reach `k`, the one with the smallest number is `r`. -/
structure IsFirstReaching (reaches : Fin n → Fin n → Prop) (r k : Fin n) : Prop where
  reach : reaches r k
  first : ∀ i < r, ¬ reaches i k

/-- How nodes lie whose roots are in the outermost column and whose other nodes are in the blocks of
the roots. -/
structure Rooted (gaps : Gaps) (size : Fin n → Size) (reaches : Fin n → Fin n → Prop)
    (origin : Point) (place : Fin n → Point) : Prop where
  /-- The roots and no other nodes are in the outermost column. -/
  column : ∀ k, (place k).x = origin.x ↔ IsRoot reaches k
  /-- The first node is at the origin. -/
  first : ∀ k, k.val = 0 → place k = origin
  /-- The roots go from top to bottom. -/
  order : ∀ r s, IsRoot reaches r → IsRoot reaches s → r < s → (place r).y ≤ (place s).y
  /-- A node lies no higher than the root that reaches it first, and ends above all later roots. -/
  block : ∀ k, ∃ r, IsFirstReaching reaches r k ∧ IsRoot reaches r ∧ (place r).y ≤ (place k).y ∧
    ∀ s, IsRoot reaches s → r < s → (place k).y + (size k).height + gaps.vertical ≤ (place s).y

/-- Every node is reached first by some node, as it reaches itself. -/
theorem exists_isFirstReaching {reaches : Fin n → Fin n → Prop} (hrefl : ∀ k, reaches k k)
    (k : Fin n) : ∃ r, IsFirstReaching reaches r k := by
  obtain ⟨r, hr, hmin⟩ := WellFounded.has_min (wellFounded_lt (α := Fin n))
    {i | reaches i k} ⟨k, hrefl k⟩
  exact ⟨r, hr, fun i hlt hi => hmin i hi hlt⟩

/-- What reaches a node first is a root. -/
theorem IsFirstReaching.isRoot {reaches : Fin n → Fin n → Prop}
    (htrans : ∀ {i j k}, reaches i j → reaches j k → reaches i k) {r k : Fin n}
    (h : IsFirstReaching reaches r k) : IsRoot reaches r :=
  fun i hlt hi => h.first i hlt (htrans hi h.reach)

/-- A root reaches itself first. -/
theorem IsRoot.isFirstReaching {reaches : Fin n → Fin n → Prop} (hrefl : ∀ k, reaches k k)
    {k : Fin n} (h : IsRoot reaches k) : IsFirstReaching reaches k k :=
  ⟨hrefl k, h⟩

end

/-! ## The outermost column -/

namespace Columns

variable {n : Nat} {network : Network Coord n} {gaps : Gaps} {origin : Point}

theorem mem_take_finRange {i : Fin n} {k : Nat} : i ∈ (List.finRange n).take k ↔ i.val < k := by
  rw [List.mem_take_iff_getElem]
  constructor
  · rintro ⟨m, hm, rfl⟩
    rw [List.getElem_finRange]
    exact (Nat.lt_min.mp hm).1
  · intro hi
    exact ⟨i, by simp [hi], by simp⟩

theorem drop_take_finRange (k : Fin n) :
    ((List.finRange n).take (k + 1)).drop k = [k] := by
  have hlength : k.val < (List.finRange n).length := by simp
  rw [List.drop_take, Nat.add_sub_cancel_left, List.drop_eq_getElem_cons hlength]
  simp

/-- What has been placed when the outermost column arrives at a node. -/
def arrival (network : Network Coord n) (gaps : Gaps) (origin : Point) (k : Nat) :
    Filling Coord n :=
  filledTo network gaps origin (.replicate n none) (List.finRange n) k

theorem arrival_zero : arrival network gaps origin 0 = ⟨.replicate n none, origin⟩ :=
  fill_nil

/-- Between two arrivals the column is filled with one node. -/
theorem fills_arrival (network : Network Coord n) (gaps : Gaps) (origin : Point) (k : Fin n) :
    Fills network gaps origin (arrival network gaps origin k).placed [k]
      (arrival network gaps origin k).finish (arrival network gaps origin (k + 1)) := by
  rw [← drop_take_finRange k]
  exact fills_filledTo (Nat.le_succ k)

theorem finish_arrival_x (network : Network Coord n) (gaps : Gaps) (origin : Point) (k : Nat) :
    (arrival network gaps origin k).finish.x = origin.x :=
  (fills_fill ..).finish_x rfl

/-- The column goes down. -/
theorem finish_arrival_le (hn : network.Nonneg gaps) {a b : Nat} (hab : a ≤ b) :
    (arrival network gaps origin a).finish.y ≤ (arrival network gaps origin b).finish.y :=
  (fills_filledTo hab).cursor_le_finish hn

/-- When the column arrives at a node, what earlier nodes reach has a place and nothing else has. -/
theorem arrival_ne_none_iff {k : Nat} {j : Fin n} :
    (arrival network gaps origin k).placed.get j ≠ none ↔
      ∃ i : Fin n, i.val < k ∧ network.Reaches i j := by
  rw [arrival, filledTo, (fills_fill ..).ne_none_iff]
  simp only [get_replicate_none, mem_take_finRange, Network.leads_replicate, ne_eq,
    not_true_eq_false, false_or, true_and]

variable {filling : Filling Coord n} {p : Point} {r s k : Fin n}

/-- A node is placed when the column passes the node that reaches it first. -/
theorem adds_arrival
    (h : Fills network gaps origin (.replicate n none) (List.finRange n) origin filling)
    (hfirst : IsFirstReaching network.Reaches r k) (hplace : filling.placed.get k = some p) :
    Adds (arrival network gaps origin r).placed (arrival network gaps origin (r + 1)).placed k
      p := by
  refine ⟨?_, ?_⟩
  · by_contra hplaced
    obtain ⟨i, hlt, hreach⟩ := arrival_ne_none_iff.mp hplaced
    exact hfirst.first i hlt hreach
  · have hplaced : (arrival network gaps origin (r + 1)).placed.get k ≠ none :=
      arrival_ne_none_iff.mpr ⟨r, Nat.lt_succ_self r, hfirst.reach⟩
    obtain ⟨q, hq⟩ := Option.ne_none_iff_exists'.mp hplaced
    -- what has a place keeps it until the column is at its end
    have hend : filling = arrival network gaps origin n := by
      rw [h.eq_filledTo, List.length_finRange]
      rfl
    have hlast : (arrival network gaps origin n).placed.get k = some q :=
      (fills_filledTo r.isLt).get_eq_some hq
    rw [hend, hlast] at hplace
    exact hq.trans hplace

/-- A filling with one node puts it at the cursor and everything else in the column to its right. -/
theorem Fills.adds_singleton {start cursor q : Point} {placed : Vector (Option Point) n}
    {i j : Fin n} (hn : network.Nonneg gaps)
    (h : Fills network gaps start placed [i] cursor filling)
    (hj : Adds placed filling.placed j q) :
    (j = i → q = cursor) ∧ (j ≠ i → (rightOf network gaps i cursor).x.toInt ≤ q.x.toInt) := by
  cases h with
  | skip _ rest =>
    cases rest
    exact absurd hj not_adds_self
  | visit _ right rest =>
    rcases adds_visit right rest hj with ⟨rfl, rfl⟩ | hj | hj
    · exact ⟨fun _ => rfl, fun hne => absurd rfl hne⟩
    · refine ⟨?_, fun _ => (right.inBlock hn rfl hj).left⟩
      rintro rfl
      exact absurd hj.free (by simp)
    · cases rest
      exact absurd hj not_adds_self

variable (hn : network.Nonneg gaps)
  (h : Fills network gaps origin (.replicate n none) (List.finRange n) origin filling)

include hn h

/-- A root is placed where the column has arrived. -/
theorem place_of_isRoot (hroot : IsRoot network.Reaches k)
    (hplace : filling.placed.get k = some p) : p = (arrival network gaps origin k).finish := by
  have hadds := adds_arrival h (hroot.isFirstReaching (Network.Reaches.refl network)) hplace
  exact ((fills_arrival network gaps origin k).adds_singleton hn hadds).1 rfl

/-- Any other node is placed further right. -/
theorem lt_place_of_not_isRoot (hstep : ∀ i, 0 < network.stepRight gaps i)
    (horigin : origin.x.toInt < 2147483647) (hroot : ¬ IsRoot network.Reaches k)
    (hplace : filling.placed.get k = some p) : origin.x.toInt < p.x.toInt := by
  obtain ⟨r, hfirst⟩ := exists_isFirstReaching (Network.Reaches.refl network) k
  have hne : k ≠ r := by
    rintro rfl
    exact hroot hfirst.first
  have hadds := adds_arrival h hfirst hplace
  have hright := ((fills_arrival network gaps origin r).adds_singleton hn hadds).2 hne
  have hpos := hstep r
  rw [toInt_rightOf hn, finish_arrival_x] at hright
  omega

/-- The roots are in the outermost column, and each of them begins a block that holds what it
reaches first. -/
theorem Fills.rooted (hstep : ∀ i, 0 < network.stepRight gaps i)
    (horigin : origin.x.toInt < 2147483647) {place : Fin n → Point}
    (hplace : ∀ k, filling.placed.get k = some (place k)) :
    Rooted gaps network.sizes.get network.Reaches origin place := by
  have hblock {r k : Fin n} (hfirst : IsFirstReaching network.Reaches r k) :
      InBlock network gaps (arrival network gaps origin r).finish
        (arrival network gaps origin (r + 1)).finish k (place k) :=
    (fills_arrival network gaps origin r).inBlock hn (finish_arrival_x ..).symm
      (adds_arrival h hfirst (hplace k))
  have hroot {k : Fin n} (hk : IsRoot network.Reaches k) := place_of_isRoot hn h hk (hplace k)
  have hnext {r s : Fin n} (hlt : r < s) : (arrival network gaps origin (r + 1)).finish.y ≤
      (arrival network gaps origin s).finish.y :=
    finish_arrival_le hn (Nat.succ_le_of_lt hlt)
  refine ⟨fun k => ⟨?_, ?_⟩, ?_, ?_, ?_⟩
  · intro hx
    by_contra hk
    have hlt := lt_place_of_not_isRoot hn h hstep horigin hk (hplace k)
    rw [hx] at hlt
    exact Int.lt_irrefl _ hlt
  · intro hk
    rw [hroot hk, finish_arrival_x]
  · -- nothing is listed before the first node
    intro k hzero
    have hk : IsRoot network.Reaches k := fun i hlt => by omega
    rw [hroot hk, hzero, arrival_zero]
  · intro r s hr hs hlt
    rw [hroot hr, hroot hs]
    exact finish_arrival_le hn (Nat.le_of_lt hlt)
  · intro k
    obtain ⟨r, hfirst⟩ := exists_isFirstReaching (Network.Reaches.refl network) k
    have hr := hfirst.isRoot Network.Reaches.trans
    refine ⟨r, hfirst, hr, ?_, fun s hs hlt => ?_⟩
    · rw [hroot hr]
      exact (hblock hfirst).top
    · rw [hroot hs]
      exact Int.le_trans (hblock hfirst).bottom (hnext hlt)

end Columns

/-! ## Reaching in a diagram -/

section

variable {δ ι : Type} [Diagram δ ι]

/-- A diagram names a node as related to another one, which refers to it or to which it refers. -/
def Diagram.Links (diagram : δ) (node other : ι) : Prop :=
  (∃ exported, Diagram.exported diagram node = .ok exported ∧ other ∈ exported) ∨
    ∃ imported, Diagram.imported diagram node = .ok imported ∧ other ∈ imported

/-- A path of related nodes leads from one node of a diagram to another. -/
def Diagram.Reaches (diagram : δ) : ι → ι → Prop :=
  Relation.ReflTransGen (Diagram.Links diagram)

variable {diagram : δ} {nodes : List ι} {network : Network Coord nodes.length}

/-- The related numbers of a listed node are those of the nodes that the diagram names. -/
theorem Network.Resolves.links_iff (h : network.Resolves diagram (listed nodes))
    {i : Fin nodes.length} {other : ι} :
    Diagram.Links diagram (nodes.get i) other ↔
      ∃ j ∈ network.related.get i, nodes.get j = other := by
  obtain ⟨exported, imported, hexported, himported, hmap⟩ := h.related i
  have hother : (∃ j ∈ network.related.get i, nodes.get j = other) ↔
      other ∈ exported ++ imported := by
    rw [← hmap, List.mem_map]
    rfl
  rw [hother, List.mem_append]
  unfold Diagram.Links
  constructor
  · rintro (⟨_, heq, hmem⟩ | ⟨_, heq, hmem⟩)
    · cases hexported.symm.trans heq
      exact .inl hmem
    · cases himported.symm.trans heq
      exact .inr hmem
  · rintro (hmem | hmem)
    · exact .inl ⟨exported, hexported, hmem⟩
    · exact .inr ⟨imported, himported, hmem⟩

/-- A path from a listed node never leaves the list. -/
theorem Network.Resolves.reaches_iff (h : network.Resolves diagram (listed nodes))
    {i k : Fin nodes.length} :
    network.Reaches i k ↔ Diagram.Reaches diagram (nodes.get i) (nodes.get k) := by
  constructor
  · exact Relation.ReflTransGen.lift nodes.get (fun _ j hj => h.links_iff.mpr ⟨j, hj, rfl⟩) i k
  · intro hreach
    have hlisted : ∀ {node}, Diagram.Reaches diagram (nodes.get i) node →
        ∃ j, network.Reaches i j ∧ nodes.get j = node := by
      intro node hnode
      induction hnode with
      | refl => exact ⟨i, .refl network i, rfl⟩
      | tail _ hlink ih =>
        obtain ⟨j, hj, rfl⟩ := ih
        obtain ⟨k, hk, hnode⟩ := h.links_iff.mp hlink
        exact ⟨k, hj.tail hk, hnode⟩
    obtain ⟨j, hj, hnode⟩ := hlisted hreach
    cases h.injective hnode
    exact hj

end

/-- Two tables of a schema hang together: relationships lead from one to the other, each of them
followed in either direction. -/
def Schema.Connected (schema : Schema) : TableId → TableId → Prop :=
  Relation.EqvGen fun u v => v ∈ schema.exported u

theorem Schema.links_iff {schema : Schema} {u v : TableId} :
    Diagram.Links schema u v ↔ v ∈ schema.exported u ∨ v ∈ schema.imported u := by
  constructor
  · rintro (⟨_, heq, hmem⟩ | ⟨_, heq, hmem⟩)
    · cases heq
      exact .inl hmem
    · cases heq
      exact .inr hmem
  · rintro (hmem | hmem)
    · exact .inl ⟨_, rfl, hmem⟩
    · exact .inr ⟨_, rfl, hmem⟩

/-- In a schema every path can be gone back, so what a table reaches is what it hangs together
with. -/
theorem Schema.WellFormed.reaches_eq_connected {schema : Schema} (h : schema.WellFormed) :
    Diagram.Reaches schema = schema.Connected := by
  have hlinks : Diagram.Links schema = Relation.SymmGen fun u v => v ∈ schema.exported u := by
    funext u v
    rw [eq_iff_iff, Schema.links_iff, ← h.mem_exported_iff]
    rfl
  rw [Diagram.Reaches, hlinks]
  exact Relation.EqvGen.reflTransGen_symmGen _

/-! ## Roots of a layout -/

/-- Listed nodes have the sizes that are told, no extent and no gap is negative, and the column to
the right of a node begins beyond the column of the node. -/
structure Spread {δ ι : Type} [Diagram δ ι] (gaps : Gaps) (diagram : δ) (nodes : List ι)
    (size : ι → Size) : Prop where
  size_eq : ∀ node ∈ nodes, Diagram.size? diagram node = some (size node)
  extent : ∀ node ∈ nodes, 0 ≤ (size node).width ∧ 0 ≤ (size node).height
  gap : 0 ≤ gaps.horizontal ∧ 0 ≤ gaps.vertical
  step : ∀ node ∈ nodes, 0 < (size node).width.toInt + gaps.horizontal.toInt

section

variable {δ ι : Type} [Diagram δ ι] [BEq ι] [LawfulBEq ι] {gaps : Gaps} {diagram : δ}
  {nodes : List ι} {origin : Point} {size : ι → Size} {network : Network Coord nodes.length}
  {filling : Filling Coord nodes.length}

/-- The outermost column of an accepted layout holds its roots. -/
theorem Accepted.exists_rooted [Hashable ι]
    (h : Accepted gaps diagram nodes origin network filling)
    (hspread : Spread gaps diagram nodes size) (horigin : origin.x.toInt < 2147483647) :
    ∃ place : Fin nodes.length → Point,
      (∀ k, (placementsOf nodes filling.placed.toList).find? (nodes.get k) = some (place k)) ∧
        Rooted gaps (fun k => size (nodes.get k))
          (fun i k => Diagram.Reaches diagram (nodes.get i) (nodes.get k)) origin place := by
  choose place hadds hfind using h.exists_find?
  refine ⟨place, hfind, ?_⟩
  have hsizes : (fun k => size (nodes.get k)) = network.sizes.get := by
    funext k
    exact (h.resolves.sizes_get hspread.size_eq k).symm
  have hreaches : (fun i k => Diagram.Reaches diagram (nodes.get i) (nodes.get k)) =
      network.Reaches := by
    funext i k
    exact propext h.resolves.reaches_iff.symm
  have hn : network.Nonneg gaps := by
    refine h.resolves.nonneg (fun node hnode found hfound => ?_) hspread.gap
    rw [hspread.size_eq node hnode] at hfound
    cases hfound
    exact hspread.extent node hnode
  have hstep (k : Fin nodes.length) : 0 < network.stepRight gaps k := by
    rw [Network.stepRight, ← hsizes]
    exact hspread.step _ (List.get_mem nodes k)
  rw [hsizes, hreaches]
  exact h.fills.rooted hn hstep horigin fun k => (hadds k).place

end

/-- The outermost column of a layout holds one node for each part of the diagram that hangs
together, and the other nodes of the part lie in the block of that node. In a schema these parts
are its connected components. -/
theorem treeLayout_rooted :
    (∀ {δ ι : Type} [Diagram δ ι] [BEq ι] [LawfulBEq ι] [Hashable ι] {gaps : Gaps} {diagram : δ}
        {nodes : List ι} {origin : Point} {layout : TreeLayout ι} {size : ι → Size},
      treeLayout gaps diagram nodes origin = .ok layout → Spread gaps diagram nodes size →
      origin.x.toInt < 2147483647 → ∃ place : Fin nodes.length → Point,
        (∀ k, layout.placements.find? (nodes.get k) = some (place k)) ∧
          Rooted gaps (fun k => size (nodes.get k))
            (fun i k => Diagram.Reaches diagram (nodes.get i) (nodes.get k)) origin place) ∧
    ∀ {schema : Schema} {gaps : Gaps} {nodes : List TableId} {origin : Point}
        {layout : TreeLayout TableId} {size : TableId → Size}, schema.Reachable →
      treeLayout gaps schema nodes origin = .ok layout → Spread gaps schema nodes size →
      origin.x.toInt < 2147483647 → ∃ place : Fin nodes.length → Point,
        (∀ k, layout.placements.find? (nodes.get k) = some (place k)) ∧
          Rooted gaps (fun k => size (nodes.get k))
            (fun i k => schema.Connected (nodes.get i) (nodes.get k)) origin place := by
  constructor
  · intro δ ι _ _ _ _ gaps diagram nodes origin layout size hlayout hspread horigin
    obtain ⟨network, filling, haccepted, rfl⟩ := treeLayout_eq_ok_iff.mp hlayout
    exact haccepted.exists_rooted hspread horigin
  · intro schema gaps nodes origin layout size hschema hlayout hspread horigin
    obtain ⟨network, filling, haccepted, rfl⟩ := treeLayout_eq_ok_iff.mp hlayout
    rw [← hschema.wellFormed.reaches_eq_connected]
    exact haccepted.exists_rooted hspread horigin

/-! ## An example -/

/-- The ring with a fourth table that has no relationships. -/
def ringAndIsland : Schema := (Schema.ring.addTable ⟨"d", ⟨7, 7⟩, ⟨100, 50⟩⟩).1

/-- The network of the ring and the island, with the island listed second. -/
def ringAndIslandNetwork : Network Coord 4 :=
  ⟨.replicate 4 ⟨100, 50⟩, #v[[2, 0, 3, 0], [], [3, 0], [0, 2]]⟩

/-- The island goes below the chain that the ring is laid out as. -/
theorem accepted_ringAndIsland :
    Accepted .standard ringAndIsland [⟨0⟩, ⟨3⟩, ⟨1⟩, ⟨2⟩] .zero ringAndIslandNetwork
      ⟨#v[some ⟨0, 0⟩, some ⟨0, 60⟩, some ⟨160, 0⟩, some ⟨320, 0⟩], ⟨0, 120⟩⟩ := by
  let tables : Vector TableId 4 := listed [⟨0⟩, ⟨3⟩, ⟨1⟩, ⟨2⟩]
  have hrelated : ∀ i : Fin 4, (ringAndIslandNetwork.related.get i).map tables.get =
      ringAndIsland.exported (tables.get i) ++ ringAndIsland.imported (tables.get i) := by
    decide
  have hrange : List.finRange 4 = [0, 1, 2, 3] := by decide
  refine ⟨⟨by decide, fun i => ⟨_, _, rfl, rfl, hrelated i⟩, by decide⟩, ?_⟩
  show Columns.Fills _ _ _ (.replicate 4 none) (List.finRange 4) _ _
  rw [hrange]
  refine .visit rfl (.visit rfl (.visit rfl .nil .nil) (.skip ?_ .nil))
    (.visit rfl .nil (.skip ?_ (.skip ?_ .nil))) <;> decide

/-- The ring and the island have a root each, be it said of reaching or of hanging together. -/
theorem treeLayout_rooted_ringAndIsland : ∃ layout,
    treeLayout .standard ringAndIsland [⟨0⟩, ⟨3⟩, ⟨1⟩, ⟨2⟩] .zero = .ok layout ∧
      (∃ place : Fin 4 → Point,
        (∀ k, layout.placements.find? ([⟨0⟩, ⟨3⟩, ⟨1⟩, ⟨2⟩].get k) = some (place k)) ∧
          Rooted .standard (fun _ => ⟨100, 50⟩)
            (fun i k => Diagram.Reaches ringAndIsland ([⟨0⟩, ⟨3⟩, ⟨1⟩, ⟨2⟩].get i)
              ([⟨0⟩, ⟨3⟩, ⟨1⟩, ⟨2⟩].get k)) .zero place) ∧
      ∃ place : Fin 4 → Point,
        (∀ k, layout.placements.find? ([⟨0⟩, ⟨3⟩, ⟨1⟩, ⟨2⟩].get k) = some (place k)) ∧
          Rooted .standard (fun _ => ⟨100, 50⟩)
            (fun i k => ringAndIsland.Connected ([⟨0⟩, ⟨3⟩, ⟨1⟩, ⟨2⟩].get i)
              ([⟨0⟩, ⟨3⟩, ⟨1⟩, ⟨2⟩].get k)) .zero place := by
  have hlayout := treeLayout_eq_ok_iff.mpr ⟨_, _, accepted_ringAndIsland, rfl⟩
  have hspread : Spread .standard ringAndIsland [⟨0⟩, ⟨3⟩, ⟨1⟩, ⟨2⟩] fun _ => ⟨100, 50⟩ :=
    ⟨by decide, by decide, by decide, by decide⟩
  refine ⟨_, hlayout, ?_, ?_⟩
  · exact treeLayout_rooted.1 hlayout hspread (by decide)
  · exact treeLayout_rooted.2 (Schema.reachable_ring.addTable _) hlayout hspread (by decide)

end SchemaLayout
