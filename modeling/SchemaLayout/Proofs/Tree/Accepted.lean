import Mathlib.Data.Set.List
import SchemaLayout.Proofs.Tree.Coverage
import SchemaLayout.Proofs.Tree.Resolution
import SchemaLayout.Tree.Layout

/-!
# Layouts that are accepted

`treeLayout_eq_ok_iff` describes an accepted layout without the steps by which it is found: some
network resolves the listed nodes, and the positions are those that a filling of the network from
the origin gives to their numbers. `Accepted` names these two, so that whatever holds of every
filling can be read off the placements of a layout.

Distinct nodes of a diagram are accepted if the nodes related to them are all among them, and the
layout then depends on nothing but relationships and sizes.
-/

namespace SchemaLayout

variable {ι : Type}

/-- The nodes of a list by number. -/
def listed (nodes : List ι) : Vector ι nodes.length := ⟨nodes.toArray, List.size_toArray ..⟩

theorem injective_get_listed {nodes : List ι} :
    Function.Injective (listed nodes).get ↔ nodes.Nodup :=
  List.nodup_iff_injective_get.symm

theorem exists_get_listed {nodes : List ι} {node : ι} (h : node ∈ nodes) :
    ∃ i, (listed nodes).get i = node :=
  List.mem_iff_get.mp h

/-! ## Placements -/

/-- The placements of those nodes of a list that have a position. -/
def placementsOf (nodes : List ι) (positions : List (Option Point)) : Placements ι :=
  (nodes.zip positions).filterMap fun (node, position?) =>
    position?.map fun position => (node, position)

section

variable {nodes : List ι} {positions : List (Option Point)} {head node : ι}

theorem placementsOf_cons_none :
    placementsOf (head :: nodes) (none :: positions) = placementsOf nodes positions :=
  rfl

theorem placementsOf_cons_some {position : Point} :
    placementsOf (head :: nodes) (some position :: positions) =
      (head, position) :: placementsOf nodes positions :=
  rfl

theorem mem_of_mem_placementsOf {position : Point}
    (h : (node, position) ∈ placementsOf nodes positions) : node ∈ nodes := by
  obtain ⟨⟨other, position?⟩, hmem, hpair⟩ := List.mem_filterMap.mp h
  obtain ⟨found, -, heq⟩ := Option.map_eq_some_iff.mp hpair
  cases heq
  exact (List.of_mem_zip hmem).1

/-- Nodes that all have a position are placed in the order in which they are listed. -/
theorem placementsOf_map_some (nodes : List ι) (positions : List Point) :
    placementsOf nodes (positions.map some) = nodes.zip positions := by
  unfold placementsOf
  rw [List.zip_map_right, List.filterMap_map]
  exact List.filterMap_some

theorem placementsOf_eq_map {placed : Vector (Option Point) nodes.length}
    {place : Fin nodes.length → Point} (hplace : ∀ i, placed.get i = some (place i)) :
    placementsOf nodes placed.toList =
      (List.finRange nodes.length).map fun i => (nodes.get i, place i) := by
  have hvector : placed = Vector.ofFn fun i => some (place i) :=
    Vector.ext fun k hk => by
      rw [Vector.getElem_ofFn hk]
      exact hplace ⟨k, hk⟩
  have hlist : placed.toList = ((List.finRange nodes.length).map place).map some := by
    rw [hvector, Vector.toList_ofFn, List.ofFn_eq_map, List.map_map]
    rfl
  calc placementsOf nodes placed.toList
      = nodes.zip ((List.finRange nodes.length).map place) := by
        rw [hlist, placementsOf_map_some]
    _ = ((List.finRange nodes.length).map nodes.get).zip
          ((List.finRange nodes.length).map place) := by rw [List.map_get_finRange]
    _ = (List.finRange nodes.length).map fun i => (nodes.get i, place i) := List.zip_map'

variable [BEq ι] [LawfulBEq ι]

theorem find?_placementsOf_of_notMem (h : node ∉ nodes) :
    (placementsOf nodes positions).find? node = none := by
  rw [Placements.find?, List.lookup_eq_none_iff]
  rintro ⟨other, position⟩ hmem
  rw [bne_iff_ne]
  rintro rfl
  exact h (mem_of_mem_placementsOf hmem)

/-- Each node of a list of distinct nodes has the position that stands in its place. -/
theorem find?_placementsOf (hnodup : nodes.Nodup) {k : Nat} {position? : Option Point}
    (hnode : nodes[k]? = some node) (hposition : positions[k]? = some position?) :
    (placementsOf nodes positions).find? node = position? := by
  induction nodes generalizing positions k with
  | nil => cases hnode
  | cons head nodes ih =>
    obtain ⟨hhead, hnodup⟩ := List.nodup_cons.mp hnodup
    cases positions with
    | nil => cases hposition
    | cons first positions =>
      cases k with
      | zero =>
        cases hnode
        cases hposition
        cases position? with
        | none =>
          -- the node has no position here, and none later on, as it is not listed twice
          rw [placementsOf_cons_none]
          exact find?_placementsOf_of_notMem hhead
        | some position => exact List.lookup_cons_self
      | succ k =>
        have hne : node ≠ head := by
          rintro rfl
          exact hhead (List.mem_of_getElem? hnode)
        have hrest := ih hnodup hnode hposition
        cases first with
        | none => exact hrest
        | some position =>
          rw [placementsOf_cons_some, Placements.find?, List.lookup_cons, beq_false_of_ne hne]
          exact hrest

end

/-! ## Layouts -/

variable {δ : Type} [Diagram δ ι] [BEq ι] [Hashable ι]

/-- What an accepted layout of a list of nodes rests on: the network of the nodes and the filling of
a column with all of them. -/
structure Accepted (gaps : Gaps) (diagram : δ) (nodes : List ι) (origin : Point)
    (network : Network Coord nodes.length) (filling : Filling Coord nodes.length) : Prop where
  resolves : network.Resolves diagram (listed nodes)
  fills : Columns.Fills network gaps origin (.replicate _ none) (List.finRange _) origin filling

variable [LawfulBEq ι] {gaps : Gaps} {diagram : δ} {nodes : List ι} {origin : Point}
  {network : Network Coord nodes.length} {filling : Filling Coord nodes.length}

/-- A layout is accepted exactly if a network resolves the nodes; it then holds the positions and
the free slot that the filling of the network leaves. -/
theorem treeLayout_eq_ok_iff {layout : TreeLayout ι} :
    treeLayout gaps diagram nodes origin = .ok layout ↔ ∃ network filling,
      Accepted gaps diagram nodes origin network filling ∧
        layout = ⟨placementsOf nodes filling.placed.toList, filling.finish⟩ := by
  unfold treeLayout
  rw [Traversal.bind_eq_ok_iff]
  constructor
  · rintro ⟨network, hresolve, hlayout⟩
    cases hlayout
    exact ⟨network, _, ⟨Network.resolve_eq_ok_iff.mp hresolve, Columns.fills_place ..⟩, rfl⟩
  · rintro ⟨network, filling, haccepted, rfl⟩
    refine ⟨network, Network.resolve_eq_ok_iff.mpr haccepted.resolves, ?_⟩
    dsimp only
    rw [Columns.place_of_fills haccepted.fills]
    rfl

omit [Hashable ι] in
/-- Every listed node has a place in an accepted layout, which is where the filling has put its
number. -/
theorem Accepted.exists_find? (h : Accepted gaps diagram nodes origin network filling)
    (i : Fin nodes.length) : ∃ position,
      Columns.Adds (.replicate _ none) filling.placed i position ∧
        (placementsOf nodes filling.placed.toList).find? ((listed nodes).get i) =
          some position := by
  have hnodup := injective_get_listed.mp h.resolves.injective
  cases hplace : filling.placed.get i with
  | none => exact absurd hplace (h.fills.ne_none_of_mem (List.mem_finRange i))
  | some position =>
    refine ⟨position, ⟨Columns.get_replicate_none i, hplace⟩, ?_⟩
    refine find?_placementsOf hnodup (k := i) ?_ ?_
    · exact List.getElem?_eq_getElem i.isLt
    · rw [List.getElem?_eq_getElem (by simp), Vector.getElem_toList]
      exact congrArg some hplace

omit [Hashable ι] in
/-- Every listed node has a place in an accepted layout. -/
theorem Accepted.exists_find?_of_mem (h : Accepted gaps diagram nodes origin network filling)
    {node : ι} (hnode : node ∈ nodes) :
    ∃ position, (placementsOf nodes filling.placed.toList).find? node = some position := by
  obtain ⟨i, rfl⟩ := exists_get_listed hnode
  obtain ⟨position, -, hfind⟩ := h.exists_find? i
  exact ⟨position, hfind⟩

/-! ## Which nodes can be laid out -/

omit [BEq ι] [LawfulBEq ι] [Hashable ι] in
/-- Distinct nodes of the diagram are resolved if all nodes related to them are among them. -/
theorem exists_resolves (hnodup : nodes.Nodup)
    (hrelated : ∀ node ∈ nodes, ∃ exported imported,
      Diagram.exported diagram node = .ok exported ∧ Diagram.imported diagram node = .ok imported ∧
        ∀ other ∈ exported ++ imported, other ∈ nodes)
    (hsize : ∀ node ∈ nodes, ∃ size, Diagram.size? diagram node = some size) :
    ∃ network : Network Coord nodes.length, network.Resolves diagram (listed nodes) := by
  have hnumbers (i : Fin nodes.length) : ∃ related : List (Fin _), ∃ exported imported,
      Diagram.exported diagram ((listed nodes).get i) = .ok exported ∧
        Diagram.imported diagram ((listed nodes).get i) = .ok imported ∧
        related.map (listed nodes).get = exported ++ imported := by
    obtain ⟨exported, imported, hexported, himported, hlisted⟩ := hrelated _ (List.get_mem nodes i)
    have hrange : exported ++ imported ∈ Set.range (List.map (listed nodes).get) := by
      rw [Set.range_list_map]
      exact fun other hother => exists_get_listed (hlisted other hother)
    obtain ⟨related, hmap⟩ := hrange
    exact ⟨related, exported, imported, hexported, himported, hmap⟩
  -- the network takes the numbers and the sizes that are known to exist, node by node
  choose related hrelated using hnumbers
  choose size hsize using fun i : Fin nodes.length => hsize _ (List.get_mem nodes i)
  have hget {α : Type} (f : Fin nodes.length → α) (i : Fin nodes.length) :
      (Vector.ofFn f).get i = f i :=
    Vector.getElem_ofFn i.isLt
  refine ⟨⟨.ofFn size, .ofFn related⟩, injective_get_listed.mpr hnodup, fun i => ?_, fun i => ?_⟩
  · rw [hget]
    exact hrelated i
  · rw [hget]
    exact hsize i

/-- Nodes that are resolved can be laid out, and each of them has a place. -/
theorem exists_treeLayout_eq_ok {network : Network Coord nodes.length}
    (h : network.Resolves diagram (listed nodes)) (gaps : Gaps) (origin : Point) :
    ∃ layout, treeLayout gaps diagram nodes origin = .ok layout ∧
      ∀ node ∈ nodes, ∃ position, layout.placements.find? node = some position := by
  have haccepted : Accepted gaps diagram nodes origin network _ := ⟨h, Columns.fills_place ..⟩
  refine ⟨_, treeLayout_eq_ok_iff.mpr ⟨network, _, haccepted, rfl⟩, ?_⟩
  exact fun node hnode => haccepted.exists_find?_of_mem hnode

omit [LawfulBEq ι] in
/-- A layout looks at nothing of a diagram but its relationships and sizes. -/
theorem treeLayout_congr {diagram' : δ}
    (hexported : ∀ node, Diagram.exported diagram node = Diagram.exported diagram' node)
    (himported : ∀ node, Diagram.imported diagram node = Diagram.imported diagram' node)
    (hsize : ∀ node, Diagram.size? diagram node = Diagram.size? diagram' node) :
    treeLayout gaps diagram nodes origin = treeLayout gaps diagram' nodes origin := by
  have hrelated (numbers : Std.HashMap ι (Fin nodes.length)) :
      Network.relatedNumbers diagram numbers = Network.relatedNumbers diagram' numbers := by
    funext node
    rw [Network.relatedNumbers, Network.relatedNumbers, hexported, himported]
  have hsizes : Network.sizeOf diagram = Network.sizeOf diagram' := by
    funext node
    rw [Network.sizeOf, Network.sizeOf, hsize]
  simp only [treeLayout, Network.resolve, hrelated, hsizes]

end SchemaLayout
