import SchemaLayout.Proofs.Tree.Filling

/-!
# What a filling places

Filling a column moves no node that has a place, leaves no node of its list without one, and leaves
no node without a place that is related to a node it has placed itself. The last fact is what keeps
related nodes out of one column: when a column is closed, nothing that belongs to its right is left
for a later column to take.

`Fills.pairwise` is the induction that statements about two nodes rest on. Of two nodes that a
filling has placed, one has been visited first; the other is then in the column to its right, or
comes later in its own column, or the two are parted by a node of whose column to the right only the
first is a member.
-/

namespace SchemaLayout.Columns

variable {α : Type} {n : Nat}

/-- `Adds before after i position` says that node `i` has no place before and is at `position`
after. -/
structure Adds (before after : Vector (Option (Point α)) n) (i : Fin n) (position : Point α) :
    Prop where
  free : before.get i = none
  place : after.get i = some position

/-- What does not change adds no node. -/
theorem not_adds_self {placed : Vector (Option (Point α)) n} {i : Fin n} {position : Point α} :
    ¬ Adds placed placed i position := by
  intro h
  have hplace := h.place
  rw [h.free] at hplace
  cases hplace

variable [Add α] [Max α] {network : Network α n} {gaps : Gaps α} {start cursor : Point α}
  {placed : Vector (Option (Point α)) n} {i j : Fin n} {nodes : List (Fin n)}
  {filling inner outer : Filling α n}

/-! ## Nodes that have a place -/

/-- A filling moves no node. -/
theorem Fills.get_eq_some (h : Fills network gaps start placed nodes cursor filling)
    {position : Point α} (hj : placed.get j = some position) :
    filling.placed.get j = some position := by
  induction h with
  | nil => exact hj
  | skip _ _ ih => exact ih hj
  | @visit _ placed i _ cursor _ _ hfree _ _ ihright ihrest =>
    have hij : i ≠ j := by
      rintro rfl
      rw [hfree] at hj
      cases hj
    exact ihrest (ihright ((get_mark_of_ne hij placed cursor).trans hj))

/-- What has no place after a filling had none before. -/
theorem Fills.get_eq_none (h : Fills network gaps start placed nodes cursor filling)
    (hj : filling.placed.get j = none) : placed.get j = none := by
  cases hplaced : placed.get j with
  | none => rfl
  | some position =>
    rw [h.get_eq_some hplaced] at hj
    cases hj

omit [Add α] [Max α] in
/-- Marking a node takes a place from no node. -/
theorem get_eq_none_of_mark {position : Point α} (h : (mark placed i position).get j = none) :
    i ≠ j ∧ placed.get j = none := by
  have hij : i ≠ j := by
    rintro rfl
    rw [get_mark_self] at h
    cases h
  exact ⟨hij, (get_mark_of_ne hij placed position).symm.trans h⟩

/-- Every node of the list has a place in the end. -/
theorem Fills.ne_none_of_mem (h : Fills network gaps start placed nodes cursor filling)
    (hj : j ∈ nodes) : filling.placed.get j ≠ none := by
  induction h with
  | nil => cases hj
  | skip hplaced rest ih =>
    rcases List.mem_cons.mp hj with rfl | hmem
    · exact fun hnone => hplaced (rest.get_eq_none hnone)
    · exact ih hmem
  | visit _ right rest _ ihrest =>
    rcases List.mem_cons.mp hj with rfl | hmem
    · intro hnone
      have hmark := right.get_eq_none (rest.get_eq_none hnone)
      exact (get_eq_none_of_mark hmark).1 rfl
    · exact ihrest hmem

/-- Every node related to a node that the filling has placed has a place in the end. -/
theorem Fills.ne_none_of_related (h : Fills network gaps start placed nodes cursor filling)
    (hi : placed.get i = none) (hdone : filling.placed.get i ≠ none)
    (hj : j ∈ network.related.get i) : filling.placed.get j ≠ none := by
  induction h with
  | nil => exact absurd hi hdone
  | skip _ _ ih => exact ih hi hdone
  | @visit _ placed k _ cursor inner _ hfree right rest ihright ihrest =>
    intro hnone
    have hinner : inner.placed.get j = none := rest.get_eq_none hnone
    by_cases hinneri : inner.placed.get i = none
    · -- `i` is placed later in the column
      exact ihrest hinneri hdone hnone
    · by_cases hki : k = i
      · -- `i` is the node just placed, so `j` was in the list of the column to its right
        subst hki
        have hmem : j ∈ fresh network (mark placed k cursor) k :=
          mem_fresh.mpr ⟨hj, right.get_eq_none hinner⟩
        exact right.ne_none_of_mem hmem hinner
      · -- `i` is placed in the column to the right
        have hmark : (mark placed k cursor).get i = none :=
          (get_mark_of_ne hki placed cursor).trans hi
        exact ihright hmark hinneri hinner

/-! ## Nodes that get a place -/

/-- A node that a visit has placed is the visited node, is placed in the column to its right, or is
placed later in its own column. -/
theorem adds_visit {position : Point α}
    (right : Fills network gaps (rightOf network gaps i cursor) (mark placed i cursor)
      (fresh network (mark placed i cursor) i) (rightOf network gaps i cursor) inner)
    (rest : Fills network gaps start inner.placed nodes
      ⟨start.x, below network gaps i cursor inner.finish⟩ outer)
    (h : Adds placed outer.placed j position) :
    (j = i ∧ position = cursor) ∨ Adds (mark placed i cursor) inner.placed j position ∨
      Adds inner.placed outer.placed j position := by
  cases hinner : inner.placed.get j with
  | none => exact .inr (.inr ⟨hinner, h.place⟩)
  | some found =>
    have hfound : found = position := by
      rw [← Option.some.injEq, ← rest.get_eq_some hinner]
      exact h.place
    subst hfound
    by_cases hij : i = j
    · subst hij
      have hcursor := right.get_eq_some (get_mark_self placed i cursor)
      rw [hinner, Option.some.injEq] at hcursor
      exact .inl ⟨rfl, hcursor⟩
    · exact .inr (.inl ⟨(get_mark_of_ne hij placed cursor).trans h.free, hinner⟩)

/-- What a relation between placed nodes has to satisfy at one visit, for `Fills.pairwise`: it holds
between the visited node and all nodes placed after it, and between the nodes of the column to its
right and those placed later in its own column. -/
structure HoldsAtVisit (R : Fin n → Point α → Fin n → Point α → Prop)
    (marked : Vector (Option (Point α)) n) (inner outer : Filling α n) (i : Fin n)
    (cursor : Point α) : Prop where
  right : ∀ j p, Adds marked inner.placed j p → R i cursor j p
  later : ∀ k q, Adds inner.placed outer.placed k q → R i cursor k q
  across : ∀ j p k q, Adds marked inner.placed j p → Adds inner.placed outer.placed k q → R j p k q

/-- A symmetric relation holds between any two nodes that a filling has placed if it holds at each
visit. -/
theorem Fills.pairwise {R : Fin n → Point α → Fin n → Point α → Prop}
    (hsymm : ∀ {i p j q}, R i p j q → R j q i p)
    (hvisit : ∀ {start placed i nodes cursor inner outer}, start.x = cursor.x →
      Fills network gaps (rightOf network gaps i cursor) (mark placed i cursor)
        (fresh network (mark placed i cursor) i) (rightOf network gaps i cursor) inner →
      Fills network gaps start inner.placed nodes
        ⟨start.x, Columns.below network gaps i cursor inner.finish⟩ outer →
      HoldsAtVisit R (mark placed i cursor) inner outer i cursor)
    (h : Fills network gaps start placed nodes cursor filling) (hx : start.x = cursor.x)
    {p q : Point α} (hne : i ≠ j) (hi : Adds placed filling.placed i p)
    (hj : Adds placed filling.placed j q) : R i p j q := by
  induction h with
  | nil => exact absurd hi not_adds_self
  | skip _ _ ih => exact ih hx hi hj
  | visit _ right rest ihright ihrest =>
    have hat := hvisit hx right rest
    -- each of the two nodes is the visited one, is placed to its right, or later in its column
    rcases adds_visit right rest hi with ⟨rfl, rfl⟩ | hi | hi
    · rcases adds_visit right rest hj with ⟨rfl, -⟩ | hj | hj
      · exact absurd rfl hne
      · exact hat.right _ _ hj
      · exact hat.later _ _ hj
    · rcases adds_visit right rest hj with ⟨rfl, rfl⟩ | hj | hj
      · exact hsymm (hat.right _ _ hi)
      · exact ihright rfl hi hj
      · exact hat.across _ _ _ _ hi hj
    · rcases adds_visit right rest hj with ⟨rfl, rfl⟩ | hj | hj
      · exact hsymm (hat.later _ _ hi)
      · exact hsymm (hat.across _ _ _ _ hj hi)
      · exact ihrest rfl hi hj

end SchemaLayout.Columns
