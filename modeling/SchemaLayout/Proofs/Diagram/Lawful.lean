import SchemaLayout.Animation
import SchemaLayout.Proofs.Traversal

/-!
# Lawful diagrams

Whoever moves the nodes of a diagram relies on finding them where they have been moved, and all
others where they were. These are the laws of a `LawfulDiagram`. Nothing else has to be known of a
diagram to tell where nodes are after some of them have been moved one after the other.
-/

namespace SchemaLayout

/-- Diagrams that hold nodes where they have been moved. -/
class LawfulDiagram (δ : Type) {ι : outParam Type} [Diagram δ ι] : Prop where
  /-- The nodes that a diagram holds can be moved, and no others. -/
  isSome_move? : ∀ (diagram : δ) (node : ι) (position : Point),
    (Diagram.move? diagram node position).isSome = (Diagram.position? diagram node).isSome
  position?_self : ∀ {diagram next : δ} {node : ι} {position : Point},
    Diagram.move? diagram node position = some next → Diagram.position? next node = some position
  position?_of_ne : ∀ {diagram next : δ} {node other : ι} {position : Point},
    Diagram.move? diagram node position = some next → other ≠ node →
      Diagram.position? next other = Diagram.position? diagram other

namespace Animation

variable {δ ι : Type} [Diagram δ ι] {diagram next : δ} {node : ι} {position : Point}
  {assignments : List (ι × Point)}

/-- Nodes are moved one after the other. -/
theorem moveAll_cons (h : Diagram.move? diagram node position = some next)
    (rest : List (ι × Point)) :
    moveAll diagram ((node, position) :: rest) = moveAll next rest := by
  unfold moveAll
  rw [List.foldlM_cons]
  dsimp only
  rw [h]
  rfl

/-- What moving one node keeps is kept by moving many. -/
theorem moveAll_induction {P : δ → Prop}
    (hstep : ∀ {diagram next : δ} {node : ι} {position : Point}, P diagram →
      Diagram.move? diagram node position = some next → P next)
    (hdiagram : P diagram) (h : moveAll diagram assignments = .ok next) : P next := by
  refine Traversal.foldlM_induction (fun {_ _ _} hbefore hmove => ?_) hdiagram h
  dsimp only at hmove
  split at hmove <;> rename_i hmoved
  · cases hmove
    exact hstep hbefore hmoved
  · cases hmove

/-- A diagram after nodes have been moved as a list assigns them: these are there, and all others
where they were. -/
structure Rearranges (assignments : List (ι × Point)) (diagram next : δ) : Prop where
  placed : ∀ assignment ∈ assignments,
    Diagram.position? next assignment.1 = some assignment.2
  kept : ∀ node ∉ assignments.map Prod.fst,
    Diagram.position? next node = Diagram.position? diagram node

/-- Nodes that a lawful diagram holds can be moved one after the other, a node that is named twice
to the same position both times. -/
theorem exists_rearranges [LawfulDiagram δ]
    (hheld : ∀ assignment ∈ assignments, (Diagram.position? diagram assignment.1).isSome)
    (hsingle : ∀ first ∈ assignments, ∀ second ∈ assignments,
      first.1 = second.1 → first.2 = second.2) :
    ∃ next, moveAll diagram assignments = .ok next ∧ Rearranges assignments diagram next := by
  induction assignments generalizing diagram with
  | nil => exact ⟨diagram, rfl, fun _ h => absurd h List.not_mem_nil, fun _ _ => rfl⟩
  | cons assignment rest ih =>
    obtain ⟨node, position⟩ := assignment
    obtain ⟨mid, hmove⟩ := Option.isSome_iff_exists.mp
      ((LawfulDiagram.isSome_move? diagram node position).trans (hheld _ List.mem_cons_self))
    have hself := LawfulDiagram.position?_self hmove
    have hheld' : ∀ other ∈ rest, (Diagram.position? mid other.1).isSome := by
      intro other hother
      by_cases hnode : other.1 = node
      · rw [hnode, hself]
        rfl
      · rw [LawfulDiagram.position?_of_ne hmove hnode]
        exact hheld other (List.mem_cons_of_mem _ hother)
    obtain ⟨next, hrest, hplaced, hkept⟩ := ih hheld' fun first hfirst second hsecond =>
      hsingle first (List.mem_cons_of_mem _ hfirst) second (List.mem_cons_of_mem _ hsecond)
    refine ⟨next, (moveAll_cons hmove rest).trans hrest, ?_, fun other hother => ?_⟩
    · -- a node that is moved once more goes to the same place
      refine List.forall_mem_cons.mpr ⟨?_, hplaced⟩
      by_cases hmem : node ∈ rest.map Prod.fst
      · obtain ⟨again, hagain, rfl⟩ := List.mem_map.mp hmem
        rw [hplaced again hagain]
        exact congrArg some (hsingle again (List.mem_cons_of_mem _ hagain) _ List.mem_cons_self rfl)
      · exact (hkept node hmem).trans hself
    · obtain ⟨hne, hmem⟩ := List.ne_and_not_mem_of_not_mem_cons hother
      exact (hkept other hmem).trans (LawfulDiagram.position?_of_ne hmove hne)

section

variable {nodes : List ι} {place : ι → Point}

theorem exists_rearranges_map [LawfulDiagram δ]
    (hheld : ∀ node ∈ nodes, (Diagram.position? diagram node).isSome) (place : ι → Point) :
    ∃ next, moveAll diagram (nodes.map fun node => (node, place node)) = .ok next ∧
      Rearranges (nodes.map fun node => (node, place node)) diagram next := by
  refine exists_rearranges ?_ ?_
  · rw [List.forall_mem_map]
    exact hheld
  · simp only [List.forall_mem_map]
    rintro first - second - rfl
    rfl

theorem Rearranges.placed_of_mem
    (h : Rearranges (nodes.map fun node => (node, place node)) diagram next) :
    ∀ node ∈ nodes, Diagram.position? next node = some (place node) :=
  List.forall_mem_map.mp h.placed

theorem Rearranges.kept_of_notMem
    (h : Rearranges (nodes.map fun node => (node, place node)) diagram next) :
    ∀ node ∉ nodes, Diagram.position? next node = Diagram.position? diagram node := by
  have hkept := h.kept
  rw [List.map_map] at hkept
  simpa using hkept

end

end Animation

end SchemaLayout
