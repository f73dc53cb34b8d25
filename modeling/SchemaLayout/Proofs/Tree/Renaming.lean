import SchemaLayout.Proofs.Tree.Refusal

/-!
# Renaming

Nodes are told apart by what they are called, but nothing else is ever read from their names: a
layout of renamed nodes is the layout of the nodes, renamed. A renaming need not keep all nodes
apart for this, but only those of which the layout hears.

The names are used up when a list of nodes is turned into a network, and come back where positions
and errors are handed out. In between there are only numbers, and these are the same for both lists.
-/

namespace SchemaLayout

open Traversal

variable {δ δ' ι κ : Type} [Diagram δ ι] [Diagram δ' κ] {f : ι → κ} {diagram : δ} {diagram' : δ'}
  {n : Nat}

/-! ## Renamed nodes -/

/-- The nodes of which a layout of a list hears: those that are listed, and those that are reported
as related to them. -/
inductive Diagram.Mentions (diagram : δ) (nodes : List ι) : ι → Prop
  | listed {node} (hnode : node ∈ nodes) : Mentions diagram nodes node
  | exported {node others other} (hnode : node ∈ nodes)
      (hexported : Diagram.exported diagram node = .ok others) (hother : other ∈ others) :
      Mentions diagram nodes other
  | imported {node others other} (hnode : node ∈ nodes)
      (himported : Diagram.imported diagram node = .ok others) (hother : other ∈ others) :
      Mentions diagram nodes other

/-- The second diagram says of the listed nodes, renamed by `f`, what the first says of the nodes
themselves: the same sizes, the renamed relationships and the same failures. -/
structure Diagram.Renames (f : ι → κ) (diagram : δ) (diagram' : δ') (nodes : List ι) : Prop where
  injOn : Set.InjOn f {node | Diagram.Mentions diagram nodes node}
  size : ∀ node ∈ nodes, Diagram.size? diagram' (f node) = Diagram.size? diagram node
  exported : ∀ node ∈ nodes,
    Diagram.exported diagram' (f node) = (Diagram.exported diagram node).map (List.map f)
  imported : ∀ node ∈ nodes,
    Diagram.imported diagram' (f node) = (Diagram.imported diagram node).map (List.map f)

/-- An error about renamed nodes. -/
def LayoutError.rename (f : ι → κ) : LayoutError ι → LayoutError κ
  | .modelAccess node cause => .modelAccess (f node) cause
  | .foreignNode node related => .foreignNode (f node) (f related)
  | .duplicateNode node => .duplicateNode (f node)
  | .missingNode node => .missingNode (f node)

/-- A layout of renamed nodes. -/
def TreeLayout.rename (f : ι → κ) (layout : TreeLayout ι) : TreeLayout κ :=
  ⟨layout.placements.map fun (node, position) => (f node, position), layout.finish⟩

/-- The outcome of a layout of renamed nodes. -/
def TreeLayout.renameOutcome (f : ι → κ) :
    Except (LayoutError ι) (TreeLayout ι) → Except (LayoutError κ) (TreeLayout κ)
  | .ok layout => .ok (layout.rename f)
  | .error e => .error (e.rename f)

namespace Diagram.Renames

section

variable {nodes : List ι} (h : Diagram.Renames f diagram diagram' nodes)

include h

/-- A node of which the layout hears is listed exactly if it is listed after renaming. -/
theorem mem_map_iff {other : ι} (hother : Diagram.Mentions diagram nodes other) :
    f other ∈ nodes.map f ↔ other ∈ nodes := by
  constructor
  · intro hmem
    obtain ⟨node, hnode, heq⟩ := List.mem_map.mp hmem
    rwa [← h.injOn (.listed hnode) hother heq]
  · exact List.mem_map_of_mem

theorem nodup_map {part : List ι} (hpart : part ⊆ nodes) (hnodup : part.Nodup) :
    (part.map f).Nodup :=
  hnodup.map_on fun _ hx _ hy =>
    h.injOn (.listed (hpart hx)) (.listed (hpart hy))

/-- The first relationship that leads out of the list does so after renaming. -/
theorem isFirst_foreign_iff {node : ι} (hnode : node ∈ nodes) {exported imported : List ι}
    (hexported : Diagram.exported diagram node = .ok exported)
    (himported : Diagram.imported diagram node = .ok imported) {other' : κ} :
    IsFirst (· ∉ nodes.map f) (exported.map f ++ imported.map f) other' ↔
      ∃ other, IsFirst (· ∉ nodes) (exported ++ imported) other ∧ f other = other' := by
  have hlisted : ∀ other ∈ exported ++ imported, f other ∉ nodes.map f ↔ other ∉ nodes := by
    intro other hother
    refine not_congr (h.mem_map_iff ?_)
    rcases List.mem_append.mp hother with hother | hother
    · exact .exported hnode hexported hother
    · exact .imported hnode himported hother
  rw [← List.map_append, isFirst_map_iff]
  refine exists_congr fun other => and_congr_left fun _ => ?_
  exact ⟨fun hfirst => hfirst.congr hlisted,
    fun hfirst => hfirst.congr fun other hother => (hlisted other hother).symm⟩

/-! ## Errors -/

/-- What is wrong with the relationships of a node is wrong with them after renaming, and nothing
else is. -/
theorem objects_iff {node : ι} (hnode : node ∈ nodes) {e' : LayoutError κ} :
    Network.Objects diagram' (nodes.map f) (f node) e' ↔
      ∃ e, Network.Objects diagram nodes node e ∧ e.rename f = e' := by
  have hexport := h.exported node hnode
  have himport := h.imported node hnode
  constructor
  · intro hobjects
    cases hobjects with
    | exported htext =>
      rw [hexport, map_eq_error_iff] at htext
      exact ⟨_, .exported htext, rfl⟩
    | imported hexported htext =>
      rw [hexport, map_eq_ok_iff] at hexported
      rw [himport, map_eq_error_iff] at htext
      obtain ⟨exported, hexported, -⟩ := hexported
      exact ⟨_, .imported hexported htext, rfl⟩
    | foreign hexported himported hfirst =>
      rw [hexport, map_eq_ok_iff] at hexported
      rw [himport, map_eq_ok_iff] at himported
      obtain ⟨exported, hexported, rfl⟩ := hexported
      obtain ⟨imported, himported, rfl⟩ := himported
      obtain ⟨other, hother, rfl⟩ := (h.isFirst_foreign_iff hnode hexported himported).mp hfirst
      exact ⟨_, .foreign hexported himported hother, rfl⟩
  · rintro ⟨e, hobjects, rfl⟩
    cases hobjects with
    | exported htext => exact .exported (hexport.trans (map_eq_error_iff.mpr htext))
    | imported hexported htext =>
      exact .imported (hexport.trans (map_eq_ok_iff.mpr ⟨_, hexported, rfl⟩))
        (himport.trans (map_eq_error_iff.mpr htext))
    | foreign hexported himported hfirst =>
      exact .foreign (hexport.trans (map_eq_ok_iff.mpr ⟨_, hexported, rfl⟩))
        (himport.trans (map_eq_ok_iff.mpr ⟨_, himported, rfl⟩))
        ((h.isFirst_foreign_iff hnode hexported himported).mpr ⟨_, hfirst, rfl⟩)

/-- Nodes that are refused are refused after renaming, for the same reason. -/
theorem refuses {e : LayoutError ι} (hrefuses : Network.Refuses diagram nodes e) :
    Network.Refuses diagram' (nodes.map f) (e.rename f) := by
  have hobjects {node : ι} (hnode : node ∈ nodes) :
      (∃ e, Network.Objects diagram nodes node e) ↔
        ∃ e, Network.Objects diagram' (nodes.map f) (f node) e := by
    simp only [h.objects_iff hnode]
    exact ⟨fun ⟨e, he⟩ => ⟨_, e, he, rfl⟩, fun ⟨_, e, he, _⟩ => ⟨e, he⟩⟩
  cases hrefuses with
  | @duplicate before node after hnodes hnodup hmem =>
    refine .duplicate (?_ : _ = before.map f ++ f node :: after.map f) ?_
      (List.mem_map_of_mem hmem)
    · rw [hnodes, List.map_append, List.map_cons]
    · refine h.nodup_map ?_ hnodup
      rw [hnodes]
      exact List.subset_append_left before _
  | @related node _ hnodup hfirst he =>
    refine .related (h.nodup_map (List.Subset.refl _) hnodup) (isFirst_map_iff.mpr ⟨node, ?_, rfl⟩)
      ((h.objects_iff hfirst.mem).mpr ⟨_, he, rfl⟩)
    exact hfirst.congr fun node hnode => hobjects hnode
  | @missing node hnodup hrelated hfirst =>
    refine .missing (h.nodup_map (List.Subset.refl _) hnodup) ?_
      (isFirst_map_iff.mpr ⟨node, ?_, rfl⟩)
    · intro other' hother' e' he'
      obtain ⟨other, hother, rfl⟩ := List.mem_map.mp hother'
      obtain ⟨e, he⟩ := (hobjects hother).mpr ⟨e', he'⟩
      exact hrelated other hother e he
    · refine hfirst.congr fun node hnode => ?_
      rw [h.size node hnode]

end

/-! ## Networks -/

/-- The network of nodes is their network after renaming. -/
theorem resolves {nodes : Vector ι n} (h : Diagram.Renames f diagram diagram' nodes.toList)
    {network : Network Coord n} (hresolves : network.Resolves diagram nodes) :
    network.Resolves diagram' (nodes.map f) := by
  have hget (i : Fin n) : (nodes.map f).get i = f (nodes.get i) := Vector.getElem_map ..
  have hmem (i : Fin n) : nodes.get i ∈ nodes.toList :=
    Vector.mem_toList_iff.mpr (Vector.getElem_mem i.isLt)
  refine ⟨fun i j hij => hresolves.injective ?_, fun i => ?_, fun i => ?_⟩
  · rw [hget, hget] at hij
    exact h.injOn (.listed (hmem i)) (.listed (hmem j)) hij
  · obtain ⟨exported, imported, hexported, himported, hmap⟩ := hresolves.related i
    rw [hget]
    refine ⟨exported.map f, imported.map f, ?_, ?_, ?_⟩
    · exact (h.exported _ (hmem i)).trans (map_eq_ok_iff.mpr ⟨_, hexported, rfl⟩)
    · exact (h.imported _ (hmem i)).trans (map_eq_ok_iff.mpr ⟨_, himported, rfl⟩)
    · rw [← List.map_append, ← hmap, List.map_map]
      exact List.map_congr_left fun j _ => hget j
  · rw [hget, h.size _ (hmem i)]
    exact hresolves.sizes i

variable [BEq ι] [LawfulBEq ι] [Hashable ι] [BEq κ] [LawfulBEq κ] [Hashable κ]

/-- Renamed nodes have the network of the nodes, or are refused for the same reason. -/
theorem resolve_eq {nodes : Vector ι n} (h : Diagram.Renames f diagram diagram' nodes.toList) :
    Network.resolve diagram' (nodes.map f) =
      (Network.resolve diagram nodes).mapError (LayoutError.rename f) := by
  cases hresolve : Network.resolve diagram nodes with
  | ok network =>
    exact Network.resolve_eq_ok_iff.mpr (h.resolves (Network.resolve_eq_ok_iff.mp hresolve))
  | error e =>
    have hrefuses := h.refuses (Network.resolve_eq_error_iff.mp hresolve)
    rw [← Vector.toList_map] at hrefuses
    exact Network.resolve_eq_error_iff.mpr hrefuses

end Diagram.Renames

/-! ## Layouts -/

theorem placementsOf_map (f : ι → κ) (nodes : List ι) (positions : List (Option Point)) :
    placementsOf (nodes.map f) positions =
      (placementsOf nodes positions).map fun (node, position) => (f node, position) := by
  unfold placementsOf
  rw [List.zip_map_left, List.filterMap_map, List.map_filterMap]
  refine List.filterMap_congr fun ⟨node, position?⟩ _ => ?_
  cases position? <;> rfl

/-- The layout that a network stands for. -/
def TreeLayout.ofNetwork (gaps : Gaps) (nodes : Vector ι n) (origin : Point)
    (network : Network Coord n) : TreeLayout ι :=
  let columns := Columns.place network gaps (.replicate n none) (List.finRange n) origin
  ⟨placementsOf nodes.toList columns.placed.toList, columns.finish⟩

theorem TreeLayout.treeLayout_toList [BEq ι] [Hashable ι] (gaps : Gaps) (diagram : δ)
    (nodes : Vector ι n) (origin : Point) :
    treeLayout gaps diagram nodes.toList origin =
      (Network.resolve diagram nodes).map (ofNetwork gaps nodes origin) := by
  have hlisted (nodes : List ι) : treeLayout gaps diagram nodes origin =
      (Network.resolve diagram (listed nodes)).map (ofNetwork gaps (listed nodes) origin) := by
    show (Network.resolve diagram (listed nodes) >>= _) = _
    cases Network.resolve diagram (listed nodes) <;> rfl
  obtain ⟨⟨nodes⟩, rfl⟩ := nodes
  exact hlisted nodes

/-- Renamed nodes are laid out like the nodes. -/
theorem Diagram.Renames.treeLayout_eq [BEq ι] [LawfulBEq ι] [Hashable ι] [BEq κ] [LawfulBEq κ]
    [Hashable κ] {nodes : List ι} (h : Diagram.Renames f diagram diagram' nodes) (gaps : Gaps)
    (origin : Point) :
    treeLayout gaps diagram' (nodes.map f) origin =
      TreeLayout.renameOutcome f (treeLayout gaps diagram nodes origin) := by
  have hresolve : Network.resolve diagram' ((listed nodes).map f) = _ := h.resolve_eq
  show treeLayout gaps diagram' ((listed nodes).toList.map f) origin =
    TreeLayout.renameOutcome f (treeLayout gaps diagram (listed nodes).toList origin)
  rw [← Vector.toList_map, TreeLayout.treeLayout_toList, TreeLayout.treeLayout_toList, hresolve]
  cases Network.resolve diagram (listed nodes) with
  | error e => rfl
  | ok network =>
    refine congrArg Except.ok ?_
    rw [TreeLayout.ofNetwork, Vector.toList_map, placementsOf_map]
    rfl

end SchemaLayout
