import Mathlib.Data.List.FinRange
import Mathlib.Data.List.Nodup
import SchemaLayout.Proofs.Traversal
import SchemaLayout.Tree.Network

/-!
# The network of a list of nodes

A network resolves a list of nodes of a diagram if no node is listed twice, if the numbers related
to each node are those of the nodes that the diagram names, and if its sizes are those of the
diagram. `resolve_eq_ok_iff` says that `Network.resolve` finds a network exactly if it resolves the
nodes, so that nothing else need be known of the table of numbers by which it is found.
-/

namespace SchemaLayout

variable {δ ι : Type} [Diagram δ ι] [BEq ι] [Hashable ι] {n : Nat}

/-- The network of a list of nodes, said without looking at how it is found. -/
structure Network.Resolves (diagram : δ) (nodes : Vector ι n) (network : Network Coord n) :
    Prop where
  injective : Function.Injective nodes.get
  related : ∀ i, ∃ exported imported,
    Diagram.exported diagram (nodes.get i) = .ok exported ∧
      Diagram.imported diagram (nodes.get i) = .ok imported ∧
      (network.related.get i).map nodes.get = exported ++ imported
  sizes : ∀ i, Diagram.size? diagram (nodes.get i) = some (network.sizes.get i)

omit [BEq ι] [Hashable ι] in
/-- Of a diagram only the relationships and sizes of the listed nodes matter. -/
theorem Network.Resolves.congr {δ' : Type} [Diagram δ' ι] {diagram : δ} {diagram' : δ'}
    {nodes : Vector ι n} {network : Network Coord n} (h : network.Resolves diagram nodes)
    (hexported : ∀ i,
      Diagram.exported diagram' (nodes.get i) = Diagram.exported diagram (nodes.get i))
    (himported : ∀ i,
      Diagram.imported diagram' (nodes.get i) = Diagram.imported diagram (nodes.get i))
    (hsize : ∀ i, Diagram.size? diagram' (nodes.get i) = Diagram.size? diagram (nodes.get i)) :
    network.Resolves diagram' nodes := by
  refine ⟨h.injective, fun i => ?_, fun i => ?_⟩
  · rw [hexported, himported]
    exact h.related i
  · rw [hsize]
    exact h.sizes i

namespace Network

/-! ## Numbers of nodes -/

/-- A table holds the numbers of those nodes that have been counted. -/
def Numbers (nodes : Vector ι n) (counted : List (Fin n)) (numbers : Std.HashMap ι (Fin n)) :
    Prop :=
  ∀ node i, numbers[node]? = some i ↔ i ∈ counted ∧ nodes.get i = node

/-- Counts one more node, unless it has been counted before. -/
def count (nodes : Vector ι n) (numbers : Std.HashMap ι (Fin n)) (i : Fin n) :
    Except (LayoutError ι) (Std.HashMap ι (Fin n)) :=
  if nodes.get i ∈ numbers then .error (.duplicateNode (nodes.get i))
  else .ok (numbers.insert (nodes.get i) i)

theorem numbering_eq_foldlM (nodes : Vector ι n) :
    numbering nodes = (List.finRange n).foldlM (count nodes) ∅ :=
  rfl

variable [LawfulBEq ι] {nodes : Vector ι n} {counted : List (Fin n)}
  {numbers : Std.HashMap ι (Fin n)}

theorem Numbers.mem_iff (h : Numbers nodes counted numbers) {node : ι} :
    node ∈ numbers ↔ ∃ i ∈ counted, nodes.get i = node := by
  rw [← Std.HashMap.isSome_getElem?_iff_mem, Option.isSome_iff_exists]
  exact exists_congr fun i => h node i

/-- A node that is new gets its number. -/
theorem Numbers.insert (h : Numbers nodes counted numbers) {i : Fin n}
    (hnew : ∀ j ∈ counted, nodes.get j ≠ nodes.get i) :
    Numbers nodes (counted ++ [i]) (numbers.insert (nodes.get i) i) := by
  intro node j
  rw [Std.HashMap.getElem?_insert, List.mem_append, List.mem_singleton]
  by_cases hnode : nodes.get i = node
  · subst hnode
    rw [if_pos (beq_self_eq_true _), Option.some.injEq]
    constructor
    · rintro rfl
      exact ⟨.inr rfl, rfl⟩
    · rintro ⟨hj | rfl, heq⟩
      · exact absurd heq (hnew j hj)
      · rfl
  · rw [if_neg (by simpa using hnode), h node j]
    constructor
    · rintro ⟨hj, heq⟩
      exact ⟨.inl hj, heq⟩
    · rintro ⟨hj | rfl, heq⟩
      · exact ⟨hj, heq⟩
      · exact absurd heq hnode

/-- Counting succeeds exactly on a node that has not been counted. -/
theorem Numbers.count_eq_ok_iff (h : Numbers nodes counted numbers) {i : Fin n}
    {numbers' : Std.HashMap ι (Fin n)} :
    count nodes numbers i = .ok numbers' ↔
      (∀ j ∈ counted, nodes.get j ≠ nodes.get i) ∧
        numbers.insert (nodes.get i) i = numbers' := by
  unfold count
  split <;> rename_i hmem <;> rw [h.mem_iff] at hmem
  · constructor
    · intro herror
      cases herror
    · rintro ⟨hnew, -⟩
      obtain ⟨j, hj, heq⟩ := hmem
      exact absurd heq (hnew j hj)
  · rw [Except.ok.injEq]
    constructor
    · intro heq
      exact ⟨fun j hj hij => hmem ⟨j, hj, hij⟩, heq⟩
    · exact And.right

omit [BEq ι] [Hashable ι] [LawfulBEq ι] in
/-- What has been counted is distinct also after a node that is new. -/
theorem nodup_map_concat (hnodup : (counted.map nodes.get).Nodup) {i : Fin n}
    (hnew : ∀ j ∈ counted, nodes.get j ≠ nodes.get i) :
    ((counted ++ [i]).map nodes.get).Nodup := by
  rw [List.map_append]
  refine hnodup.append (List.nodup_singleton _) ?_
  intro node hnode hi
  obtain ⟨j, hj, rfl⟩ := List.mem_map.mp hnode
  exact hnew j hj (List.mem_singleton.mp hi)

/-- The nodes counted in a run that succeeds are distinct, and all have their numbers. -/
theorem Numbers.of_foldlM_eq_ok (h : Numbers nodes counted numbers)
    (hnodup : (counted.map nodes.get).Nodup) {rest : List (Fin n)}
    {numbers' : Std.HashMap ι (Fin n)} (hrun : rest.foldlM (count nodes) numbers = .ok numbers') :
    ((counted ++ rest).map nodes.get).Nodup ∧ Numbers nodes (counted ++ rest) numbers' := by
  induction rest generalizing counted numbers with
  | nil =>
    cases hrun
    rw [List.append_nil]
    exact ⟨hnodup, h⟩
  | cons i rest ih =>
    rw [List.foldlM_cons, Traversal.bind_eq_ok_iff] at hrun
    obtain ⟨_, hcount, hrun⟩ := hrun
    obtain ⟨hnew, rfl⟩ := h.count_eq_ok_iff.mp hcount
    rw [← List.singleton_append, ← List.append_assoc]
    exact ih (h.insert hnew) (nodup_map_concat hnodup hnew) hrun

/-- Counting distinct nodes succeeds. -/
theorem Numbers.exists_foldlM_eq_ok (h : Numbers nodes counted numbers) {rest : List (Fin n)}
    (hnodup : ((counted ++ rest).map nodes.get).Nodup) :
    ∃ numbers', rest.foldlM (count nodes) numbers = .ok numbers' := by
  induction rest generalizing counted numbers with
  | nil => exact ⟨numbers, rfl⟩
  | cons i rest ih =>
    have hnew : ∀ j ∈ counted, nodes.get j ≠ nodes.get i := by
      intro j hj heq
      rw [List.map_append] at hnodup
      exact List.disjoint_of_nodup_append hnodup (List.mem_map_of_mem hj)
        (heq ▸ List.mem_map_of_mem List.mem_cons_self)
    rw [← List.singleton_append, ← List.append_assoc] at hnodup
    obtain ⟨numbers', hrun⟩ := ih (h.insert hnew) hnodup
    refine ⟨numbers', ?_⟩
    rw [List.foldlM_cons, Traversal.bind_eq_ok_iff]
    exact ⟨_, h.count_eq_ok_iff.mpr ⟨hnew, rfl⟩, hrun⟩

theorem numbers_empty (nodes : Vector ι n) : Numbers nodes [] ∅ := by
  intro node i
  simp

/-- A table of numbers holds those of all nodes of a vector. -/
def NumbersAll (nodes : Vector ι n) (numbers : Std.HashMap ι (Fin n)) : Prop :=
  ∀ node i, numbers[node]? = some i ↔ nodes.get i = node

/-- What is numbered is distinct, and every node has its number. -/
theorem of_numbering_eq_ok (h : numbering nodes = .ok numbers) :
    Function.Injective nodes.get ∧ NumbersAll nodes numbers := by
  rw [numbering_eq_foldlM] at h
  obtain ⟨hnodup, hnumbers⟩ := (numbers_empty nodes).of_foldlM_eq_ok List.nodup_nil h
  rw [List.nil_append] at hnodup hnumbers
  rw [← List.ofFn_eq_map] at hnodup
  refine ⟨List.nodup_ofFn.mp hnodup, fun node i => ?_⟩
  rw [hnumbers node i]
  exact and_iff_right (List.mem_finRange i)

/-- Distinct nodes can be numbered. -/
theorem exists_numbering_eq_ok (h : Function.Injective nodes.get) :
    ∃ numbers, numbering nodes = .ok numbers := by
  rw [numbering_eq_foldlM]
  refine (numbers_empty nodes).exists_foldlM_eq_ok ?_
  rw [List.nil_append, ← List.ofFn_eq_map]
  exact List.nodup_ofFn.mpr h

/-! ## Relationships and sizes -/

/-- The number of a node that is related to `node`. -/
def lookUp (numbers : Std.HashMap ι (Fin n)) (node other : ι) :
    Except (LayoutError ι) (Fin n) :=
  match numbers[other]? with
  | some i => .ok i
  | none => .error (.foreignNode node other)

omit [LawfulBEq ι] in
theorem relatedNumbers_eq_mapM (diagram : δ) (numbers : Std.HashMap ι (Fin n)) (node : ι) :
    relatedNumbers diagram numbers node = (do
      let exported ← (Diagram.exported diagram node).mapError (.modelAccess node)
      let imported ← (Diagram.imported diagram node).mapError (.modelAccess node)
      (exported ++ imported).mapM (lookUp numbers node)) :=
  rfl

omit [LawfulBEq ι] in
theorem NumbersAll.lookUp_eq_ok_iff (h : NumbersAll nodes numbers) {node other : ι} {i : Fin n} :
    lookUp numbers node other = .ok i ↔ other = nodes.get i := by
  have hother := h other i
  unfold lookUp
  split <;> rename_i hlookup <;> rw [hlookup] at hother
  · rw [Except.ok.injEq, ← Option.some.injEq, hother]
    exact eq_comm
  · constructor
    · intro herror
      cases herror
    · rintro rfl
      cases hother.mpr rfl

omit [LawfulBEq ι] in
/-- The numbers related to a node are those of the nodes that the diagram names. -/
theorem NumbersAll.relatedNumbers_eq_ok_iff {diagram : δ} (h : NumbersAll nodes numbers)
    {node : ι} {related : List (Fin n)} :
    relatedNumbers diagram numbers node = .ok related ↔ ∃ exported imported,
      Diagram.exported diagram node = .ok exported ∧
        Diagram.imported diagram node = .ok imported ∧
        related.map nodes.get = exported ++ imported := by
  have hmap (others : List ι) :
      others.mapM (lookUp numbers node) = .ok related ↔ related.map nodes.get = others := by
    simp only [Traversal.mapM_eq_ok_iff, h.lookUp_eq_ok_iff]
    rw [← List.forall₂_map_right_iff (R := Eq), List.forall₂_eq_eq_eq]
    exact eq_comm
  simp only [relatedNumbers_eq_mapM, Traversal.bind_eq_ok_iff, Traversal.mapError_eq_ok_iff, hmap,
    exists_and_left]

omit [BEq ι] [Hashable ι] [LawfulBEq ι] in
/-- The size of a node is that of the diagram. -/
theorem sizeOf_eq_ok_iff {diagram : δ} {node : ι} {size : Size} :
    sizeOf diagram node = .ok size ↔ Diagram.size? diagram node = some size := by
  unfold sizeOf
  split <;> rename_i hsize <;> rw [hsize]
  · rw [Except.ok.injEq, Option.some.injEq]
  · constructor
    · intro h
      cases h
    · intro h
      cases h

/-- A network is found exactly if it resolves the nodes. -/
theorem resolve_eq_ok_iff {diagram : δ} {network : Network Coord n} :
    resolve diagram nodes = .ok network ↔ network.Resolves diagram nodes := by
  simp only [resolve, Traversal.bind_eq_ok_iff, Traversal.vectorMapM_eq_ok_iff]
  constructor
  · -- what has been found in a table of numbers does not depend on that table
    rintro ⟨numbers, hnumbering, related, hrelated, sizes, hsizes, hnetwork⟩
    cases hnetwork
    obtain ⟨hinjective, hnumbers⟩ := of_numbering_eq_ok hnumbering
    exact ⟨hinjective, fun i => hnumbers.relatedNumbers_eq_ok_iff.mp (hrelated i),
      fun i => sizeOf_eq_ok_iff.mp (hsizes i)⟩
  · intro h
    obtain ⟨numbers, hnumbering⟩ := exists_numbering_eq_ok h.injective
    obtain ⟨-, hnumbers⟩ := of_numbering_eq_ok hnumbering
    exact ⟨numbers, hnumbering, network.related,
      fun i => hnumbers.relatedNumbers_eq_ok_iff.mpr (h.related i), network.sizes,
      fun i => sizeOf_eq_ok_iff.mpr (h.sizes i), rfl⟩

end Network

end SchemaLayout
