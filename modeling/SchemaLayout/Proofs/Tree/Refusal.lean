import SchemaLayout.Proofs.Tree.Accepted

/-!
# Layouts that are refused

A layout is refused in a fixed order: first for a node that is listed twice, then for the first
node whose relationships cannot be read or lead out of the list, and at last for a node that the
diagram does not hold. `Network.Refuses` says which error a list of nodes meets, and
`treeLayout_eq_error_iff` that a layout ends with this error and no other.
-/

namespace SchemaLayout

open Traversal

variable {δ ι : Type} [Diagram δ ι] {n : Nat}

/-- What is wrong with the relationships of a listed node: they cannot be read, or they lead to a
node that is not listed. -/
inductive Network.Objects (diagram : δ) (nodes : List ι) (node : ι) : LayoutError ι → Prop
  | exported {text} (hexported : Diagram.exported diagram node = .error text) :
      Objects diagram nodes node (.modelAccess node text)
  | imported {exported text} (hexported : Diagram.exported diagram node = .ok exported)
      (himported : Diagram.imported diagram node = .error text) :
      Objects diagram nodes node (.modelAccess node text)
  | foreign {exported imported other} (hexported : Diagram.exported diagram node = .ok exported)
      (himported : Diagram.imported diagram node = .ok imported)
      (hfirst : IsFirst (· ∉ nodes) (exported ++ imported) other) :
      Objects diagram nodes node (.foreignNode node other)

/-- Why a list of nodes is refused. -/
inductive Network.Refuses (diagram : δ) (nodes : List ι) : LayoutError ι → Prop
  /-- The first node that is listed a second time. -/
  | duplicate {before node after} (hnodes : nodes = before ++ node :: after)
      (hnodup : before.Nodup) (hmem : node ∈ before) : Refuses diagram nodes (.duplicateNode node)
  /-- The first node with whose relationships something is wrong. -/
  | related {node e} (hnodup : nodes.Nodup)
      (hfirst : IsFirst (fun node => ∃ e, Network.Objects diagram nodes node e) nodes node)
      (hobjects : Network.Objects diagram nodes node e) : Refuses diagram nodes e
  /-- The first node that the diagram does not hold. -/
  | missing {node} (hnodup : nodes.Nodup)
      (hrelated : ∀ other ∈ nodes, ∀ e, ¬ Network.Objects diagram nodes other e)
      (hfirst : IsFirst (fun node => Diagram.size? diagram node = none) nodes node) :
      Refuses diagram nodes (.missingNode node)

/-- Nodes that the diagram holds are not refused because one of them is missing. -/
theorem Network.Refuses.ne_missingNode {diagram : δ} {nodes : List ι} {e : LayoutError ι}
    (h : Network.Refuses diagram nodes e)
    (hsizes : ∀ node ∈ nodes, (Diagram.size? diagram node).isSome) (node : ι) :
    e ≠ .missingNode node := by
  rintro rfl
  cases h with
  | related _ _ hobjects => cases hobjects
  | missing _ _ hfirst =>
    have hsize := hsizes node hfirst.mem
    rw [hfirst.holds] at hsize
    cases hsize

namespace Network

variable {nodes : Vector ι n} {counted : List (Fin n)} {diagram : δ} {node : ι}
  {e : LayoutError ι}

theorem map_get_finRange (nodes : Vector ι n) :
    (List.finRange n).map nodes.get = nodes.toList := by
  rw [← List.ofFn_eq_map]
  exact (Vector.toList_ofFn ..).symm.trans (congrArg Vector.toList (Vector.ofFn_getElem ..))

theorem nodup_toList_iff : nodes.toList.Nodup ↔ Function.Injective nodes.get := by
  rw [← map_get_finRange, ← List.ofFn_eq_map]
  exact List.nodup_ofFn

section

variable [BEq ι] [LawfulBEq ι] [Hashable ι] {numbers : Std.HashMap ι (Fin n)}

/-! ## Nodes that are listed twice -/

/-- Counting fails exactly on a node that has been counted before. -/
theorem Numbers.count_eq_error_iff (h : Numbers nodes counted numbers) {i : Fin n} :
    count nodes numbers i = .error e ↔
      nodes.get i ∈ counted.map nodes.get ∧ .duplicateNode (nodes.get i) = e := by
  have hmem : nodes.get i ∈ numbers ↔ nodes.get i ∈ counted.map nodes.get := by
    rw [h.mem_iff, List.mem_map]
  unfold count
  split <;> rename_i hcounted <;> rw [hmem] at hcounted
  · rw [Except.error.injEq, and_iff_right hcounted]
  · constructor
    · intro hok
      cases hok
    · rintro ⟨hmem, -⟩
      exact absurd hmem hcounted

/-- A run of counts fails on the first node that has been counted before. -/
theorem Numbers.foldlM_eq_error_iff (h : Numbers nodes counted numbers)
    (hnodup : (counted.map nodes.get).Nodup) {rest : List (Fin n)} :
    rest.foldlM (count nodes) numbers = .error e ↔ ∃ before i after,
      rest = before ++ i :: after ∧ ((counted ++ before).map nodes.get).Nodup ∧
        nodes.get i ∈ (counted ++ before).map nodes.get ∧ .duplicateNode (nodes.get i) = e := by
  rw [Traversal.foldlM_eq_error_iff]
  constructor
  · rintro ⟨before, i, after, numbers', hrest, hrun, hcount⟩
    obtain ⟨hbefore, hnumbers⟩ := h.of_foldlM_eq_ok hnodup hrun
    obtain ⟨hmem, he⟩ := hnumbers.count_eq_error_iff.mp hcount
    exact ⟨before, i, after, hrest, hbefore, hmem, he⟩
  · rintro ⟨before, i, after, hrest, hbefore, hmem, he⟩
    obtain ⟨numbers', hrun⟩ := h.exists_foldlM_eq_ok hbefore
    obtain ⟨-, hnumbers⟩ := h.of_foldlM_eq_ok hnodup hrun
    exact ⟨before, i, after, numbers', hrest, hrun, hnumbers.count_eq_error_iff.mpr ⟨hmem, he⟩⟩

/-- Numbering fails on the first node that is listed a second time. -/
theorem numbering_eq_error_iff : numbering nodes = .error e ↔ ∃ before node after,
    nodes.toList = before ++ node :: after ∧ before.Nodup ∧ node ∈ before ∧
      .duplicateNode node = e := by
  rw [numbering_eq_foldlM, (numbers_empty nodes).foldlM_eq_error_iff List.nodup_nil]
  simp only [List.nil_append]
  constructor
  · rintro ⟨before, i, after, hsplit, hnodup, hmem, he⟩
    refine ⟨before.map nodes.get, nodes.get i, after.map nodes.get, ?_, hnodup, hmem, he⟩
    rw [← map_get_finRange, hsplit, List.map_append, List.map_cons]
  · rintro ⟨before, node, after, hsplit, hnodup, hmem, he⟩
    rw [← map_get_finRange, List.map_eq_append_iff] at hsplit
    obtain ⟨before, rest, hrange, rfl, hrest⟩ := hsplit
    obtain ⟨i, after, rfl, rfl, rfl⟩ := List.map_eq_cons_iff.mp hrest
    exact ⟨before, i, after, hrange, hnodup, hmem, he⟩

/-! ## Relationships that cannot be followed -/

omit [LawfulBEq ι] in
/-- A node that is not listed has no number. -/
theorem NumbersAll.lookUp_eq_error_iff (h : NumbersAll nodes numbers) {other : ι} :
    lookUp numbers node other = .error e ↔
      other ∉ nodes.toList ∧ .foreignNode node other = e := by
  have hmem : other ∈ nodes.toList ↔ ∃ i, numbers[other]? = some i := by
    simp only [h other, ← map_get_finRange, List.mem_map, List.mem_finRange, true_and]
  unfold lookUp
  split <;> rename_i hlookup <;> rw [hlookup] at hmem
  · constructor
    · intro hok
      cases hok
    · rintro ⟨hnot, -⟩
      exact absurd (hmem.mpr ⟨_, rfl⟩) hnot
  · have hnot : other ∉ nodes.toList := by
      rw [hmem]
      rintro ⟨i, hi⟩
      cases hi
    rw [Except.error.injEq, and_iff_right hnot]

omit [LawfulBEq ι] in
/-- The numbers related to a node are not found exactly if something is wrong with its
relationships. -/
theorem NumbersAll.relatedNumbers_eq_error_iff (h : NumbersAll nodes numbers) :
    relatedNumbers diagram numbers node = .error e ↔ Objects diagram nodes.toList node e := by
  have hmap (others : List ι) : others.mapM (lookUp numbers node) = .error e ↔
      ∃ other, IsFirst (· ∉ nodes.toList) others other ∧ .foreignNode node other = e := by
    simp only [mapM_eq_error_iff, h.lookUp_eq_error_iff, exists_and_left, exists_eq', and_true]
    refine exists_congr fun other => ?_
    exact and_congr_right fun hfirst => and_iff_right hfirst.holds
  simp only [relatedNumbers_eq_mapM, bind_eq_error_iff, mapError_eq_error_iff,
    mapError_eq_ok_iff, hmap]
  constructor
  · rintro (⟨text, htext, rfl⟩ | ⟨exported, hexported, ⟨text, htext, rfl⟩ |
      ⟨imported, himported, other, hfirst, rfl⟩⟩)
    · exact .exported htext
    · exact .imported hexported htext
    · exact .foreign hexported himported hfirst
  · intro hobjects
    cases hobjects with
    | exported htext => exact .inl ⟨_, htext, rfl⟩
    | imported hexported htext => exact .inr ⟨_, hexported, .inl ⟨_, htext, rfl⟩⟩
    | foreign hexported himported hfirst =>
      exact .inr ⟨_, hexported, .inr ⟨_, himported, _, hfirst, rfl⟩⟩

omit [LawfulBEq ι] in
/-- The relationships of the nodes are not followed exactly if something is wrong with those of the
first node for which this is so. -/
theorem NumbersAll.mapM_relatedNumbers_eq_error_iff (h : NumbersAll nodes numbers) :
    nodes.mapM (relatedNumbers diagram numbers) = .error e ↔ ∃ node,
      IsFirst (fun node => ∃ e, Objects diagram nodes.toList node e) nodes.toList node ∧
        Objects diagram nodes.toList node e := by
  simp only [vectorMapM_eq_error_iff, mapM_eq_error_iff, h.relatedNumbers_eq_error_iff]

omit [LawfulBEq ι] in
/-- The relationships of the nodes are followed exactly if nothing is wrong with any of them. -/
theorem NumbersAll.exists_mapM_relatedNumbers_eq_ok_iff (h : NumbersAll nodes numbers) :
    (∃ related, nodes.mapM (relatedNumbers diagram numbers) = .ok related) ↔
      ∀ node ∈ nodes.toList, ∀ e, ¬ Objects diagram nodes.toList node e := by
  constructor
  · rintro ⟨related, hrelated⟩ node hnode e hobjects
    rw [← map_get_finRange] at hnode
    obtain ⟨i, -, rfl⟩ := List.mem_map.mp hnode
    have hok := vectorMapM_eq_ok_iff.mp hrelated i
    cases hok.symm.trans (h.relatedNumbers_eq_error_iff.mpr hobjects)
  · intro hall
    cases hrelated : nodes.mapM (relatedNumbers diagram numbers) with
    | error e =>
      obtain ⟨node, hfirst, hobjects⟩ := h.mapM_relatedNumbers_eq_error_iff.mp hrelated
      exact absurd hobjects (hall node hfirst.mem e)
    | ok related => exact ⟨related, rfl⟩

/-! ## Nodes that are missing -/

omit [BEq ι] [LawfulBEq ι] [Hashable ι] in
theorem sizeOf_eq_error_iff :
    sizeOf diagram node = .error e ↔
      Diagram.size? diagram node = none ∧ .missingNode node = e := by
  unfold sizeOf
  split <;> rename_i hsize <;> rw [hsize]
  · constructor
    · intro hok
      cases hok
    · rintro ⟨hnone, -⟩
      cases hnone
  · rw [Except.error.injEq, and_iff_right rfl]

omit [BEq ι] [LawfulBEq ι] [Hashable ι] in
/-- The sizes of the nodes are not found exactly if the diagram does not hold one of them. -/
theorem mapM_sizeOf_eq_error_iff : nodes.mapM (sizeOf diagram) = .error e ↔ ∃ node,
    IsFirst (fun node => Diagram.size? diagram node = none) nodes.toList node ∧
      .missingNode node = e := by
  simp only [vectorMapM_eq_error_iff, mapM_eq_error_iff, sizeOf_eq_error_iff, exists_and_left,
    exists_eq', and_true]
  refine exists_congr fun node => ?_
  exact and_congr_right fun hfirst => and_iff_right hfirst.holds

/-! ## The order of errors -/

/-- No network is found exactly if the nodes are refused, for the reason that comes first. -/
theorem resolve_eq_error_iff :
    resolve diagram nodes = .error e ↔ Refuses diagram nodes.toList e := by
  simp only [resolve, bind_eq_error_iff, numbering_eq_error_iff, mapM_sizeOf_eq_error_iff]
  constructor
  · rintro (⟨before, node, after, hnodes, hnodup, hmem, rfl⟩ | ⟨numbers, hnumbering, hrest⟩)
    · exact .duplicate hnodes hnodup hmem
    · obtain ⟨hinjective, hnumbers⟩ := of_numbering_eq_ok hnumbering
      have hnodup := nodup_toList_iff.mpr hinjective
      rw [hnumbers.mapM_relatedNumbers_eq_error_iff] at hrest
      rcases hrest with ⟨node, hfirst, hobjects⟩ |
        ⟨related, hrelated, ⟨node, hfirst, rfl⟩ | ⟨sizes, -, hreturn⟩⟩
      · exact .related hnodup hfirst hobjects
      · exact .missing hnodup
          (hnumbers.exists_mapM_relatedNumbers_eq_ok_iff.mp ⟨related, hrelated⟩) hfirst
      · cases hreturn
  · intro hrefuses
    cases hrefuses with
    | duplicate hnodes hnodup hmem => exact .inl ⟨_, _, _, hnodes, hnodup, hmem, rfl⟩
    | related hnodup hfirst hobjects =>
      obtain ⟨numbers, hnumbering⟩ := exists_numbering_eq_ok (nodup_toList_iff.mp hnodup)
      have hnumbers := (of_numbering_eq_ok hnumbering).2
      exact .inr ⟨numbers, hnumbering, .inl
        (hnumbers.mapM_relatedNumbers_eq_error_iff.mpr ⟨_, hfirst, hobjects⟩)⟩
    | missing hnodup hrelated hfirst =>
      obtain ⟨numbers, hnumbering⟩ := exists_numbering_eq_ok (nodup_toList_iff.mp hnodup)
      have hnumbers := (of_numbering_eq_ok hnumbering).2
      obtain ⟨related, hrelated⟩ :=
        hnumbers.exists_mapM_relatedNumbers_eq_ok_iff.mpr hrelated
      exact .inr ⟨numbers, hnumbering, .inr ⟨related, hrelated, .inl ⟨_, hfirst, rfl⟩⟩⟩

end

end Network

variable [BEq ι] [LawfulBEq ι] [Hashable ι] {gaps : Gaps} {diagram : δ} {nodes : List ι}
  {origin : Point} {e : LayoutError ι}

/-- A layout is refused exactly if its nodes are, for the reason that comes first. -/
theorem treeLayout_eq_error_iff :
    treeLayout gaps diagram nodes origin = .error e ↔ Network.Refuses diagram nodes e := by
  unfold treeLayout
  rw [bind_eq_error_iff, Network.resolve_eq_error_iff]
  constructor
  · rintro (hrefuses | ⟨network, -, hreturn⟩)
    · exact hrefuses
    · cases hreturn
  · exact .inl

end SchemaLayout
