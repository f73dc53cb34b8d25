import SchemaLayout.Proofs.Tree.Separation
import SchemaLayout.Proofs.Tree.Turns

/-!
# Assignments

A node may wait in several columns at once, but it is assigned to a position once. `Passes` follows
a placement step by step and writes down its assignments: a step assigns the first node waiting in
the topmost column that has no place, or none, so that no place is ever overwritten. A placement
stops only when no column is open, and then no node has been left out.
-/

namespace SchemaLayout

namespace Columns

variable {α : Type} {n : Nat}

/-- The assignment that the next step makes, if it makes one. -/
def assignment? (s : Columns α n) : Option (Fin n × Point α) :=
  match s.stack with
  | [] => none
  | column :: _ =>
    match skipPlaced s.placed column.pending with
    | [] => none
    | i :: _ => some (i, column.cursor)

variable {column : Column α n} {outer : List (Column α n)} {placed : Vector (Option (Point α)) n}
  {finish : Point α} {i : Fin n} {pending : List (Fin n)}

/-- A column that has passed its whole list assigns nothing. -/
theorem assignment?_of_skipPlaced_nil (h : skipPlaced placed column.pending = []) :
    assignment? ⟨placed, column :: outer, finish⟩ = none := by
  simp only [assignment?, h]

/-- A column that has found its next node assigns it to its cursor. -/
theorem assignment?_of_skipPlaced_cons (h : skipPlaced placed column.pending = i :: pending) :
    assignment? ⟨placed, column :: outer, finish⟩ = some (i, column.cursor) := by
  simp only [assignment?, h]

/-- From `s` to `t` no place is changed, or one is: that of a node that had none. -/
inductive Assigns (s t : Columns α n) : Prop
  | nothing (hnone : assignment? s = none) (hplaced : t.placed = s.placed)
  | node {i : Fin n} {position : Point α} (hsome : assignment? s = some (i, position))
      (hfree : s.placed.get i = none) (hplaced : t.placed = mark s.placed i position)

variable [Add α] [Max α] {network : Network α n} {gaps : Gaps α} {s t u : Columns α n}
  {log log' : List (Fin n × Point α)}

/-- A step makes its assignment and no other. -/
theorem assigns_of_step (h : step network gaps s = some t) : Assigns s t := by
  obtain ⟨turn, -, htakes⟩ := takes_of_step h
  cases htakes with
  | opens hskip =>
    exact .node (assignment?_of_skipPlaced_cons hskip) (get_of_skipPlaced hskip) rfl
  | resumes hskip => exact .nothing (assignment?_of_skipPlaced_nil hskip) rfl
  | strays hskip => exact .nothing (assignment?_of_skipPlaced_nil hskip) rfl
  | ends hskip => exact .nothing (assignment?_of_skipPlaced_nil hskip) rfl

/-! ## Logs -/

/-- Steps lead from `s` to another state, and `log` tells the assignments that they have made, in
order. -/
inductive Passes (network : Network α n) (gaps : Gaps α) (s : Columns α n) :
    Columns α n → List (Fin n × Point α) → Prop
  | start : Passes network gaps s s []
  | next {t u : Columns α n} {log : List (Fin n × Point α)} (before : Passes network gaps s t log)
      (hstep : step network gaps t = some u) :
      Passes network gaps s u (log ++ (assignment? t).toList)

theorem Passes.trans (h : Passes network gaps s t log) (h' : Passes network gaps t u log') :
    Passes network gaps s u (log ++ log') := by
  induction h' with
  | start =>
    rw [List.append_nil]
    exact h
  | next _ hstep ih =>
    rw [← List.append_assoc]
    exact ih.next hstep

/-- A log tells exactly what has been placed, and names no node twice. -/
structure Logged (s t : Columns α n) (log : List (Fin n × Point α)) : Prop where
  placed_iff : ∀ i position, t.placed.get i = some position ↔
    s.placed.get i = some position ∨ (i, position) ∈ log
  free : ∀ i position, (i, position) ∈ log → s.placed.get i = none
  nodup : (log.map Prod.fst).Nodup

omit [Add α] [Max α] in
/-- One more assignment keeps a log exact, as its node has no place yet. -/
theorem Logged.assign (h : Logged s t log) {i : Fin n} {position : Point α}
    (hfree : t.placed.get i = none) (hplaced : u.placed = mark t.placed i position) :
    Logged s u (log ++ [(i, position)]) := by
  have hnew : ∀ q, ¬ (s.placed.get i = some q ∨ (i, q) ∈ log) := by
    intro q hq
    rw [← h.placed_iff, hfree] at hq
    cases hq
  refine ⟨fun j q => ?_, fun j q hmem => ?_, ?_⟩
  · rw [hplaced, List.mem_append, List.mem_singleton, ← or_assoc]
    by_cases hij : i = j
    · subst hij
      rw [get_mark_self, Option.some.injEq, or_iff_right (hnew q), Prod.mk.injEq, eq_comm]
      exact (and_iff_right rfl).symm
    · rw [get_mark_of_ne hij, h.placed_iff, Prod.mk.injEq]
      exact (or_iff_left fun heq => hij heq.1.symm).symm
  · rcases List.mem_append.mp hmem with hmem | hmem
    · exact h.free j q hmem
    · cases List.mem_singleton.mp hmem
      exact Option.eq_none_iff_forall_ne_some.mpr fun q hq => hnew q (.inl hq)
  · rw [List.map_append]
    refine h.nodup.append (List.nodup_singleton i) ?_
    intro j hj hi
    obtain ⟨⟨_, q⟩, hmem, rfl⟩ := List.mem_map.mp hj
    cases List.mem_singleton.mp hi
    exact hnew q (.inr hmem)

/-- The log of a placement is exact at any time. -/
theorem Passes.logged (h : Passes network gaps s t log) : Logged s t log := by
  induction h with
  | start => exact ⟨fun i p => by simp, fun _ _ hmem => absurd hmem List.not_mem_nil, .nil⟩
  | next _ hstep ih =>
    cases assigns_of_step hstep with
    | nothing hnone hplaced =>
      rw [hnone, Option.toList_none, List.append_nil]
      exact ⟨hplaced ▸ ih.placed_iff, ih.free, ih.nodup⟩
    | node hsome hfree hplaced =>
      rw [hsome]
      exact ih.assign hfree hplaced

/-! ## The whole placement -/

/-- The assignments that a placement makes, in order. -/
def assignments (network : Network α n) (gaps : Gaps α) (s : Columns α n) :
    List (Fin n × Point α) :=
  (states network gaps s).filterMap assignment?

theorem assignments_of_step (h : step network gaps s = some t) :
    assignments network gaps s = (assignment? s).toList ++ assignments network gaps t := by
  rw [assignments, states_of_step h]
  cases hassign : assignment? s <;> simp [assignments, hassign]

/-- A placement that has passed to its end has logged its assignments. -/
theorem passes_run (network : Network α n) (gaps : Gaps α) (s : Columns α n) :
    Passes network gaps s (run network gaps s) (assignments network gaps s) := by
  induction s using step_induction network gaps with
  | hend s h =>
    rw [assignments, states_of_step_eq_none h, run_of_step_eq_none h]
    exact .start
  | hstep s t h ih =>
    rw [run_of_step h, assignments_of_step h]
    exact (Passes.start.next h).trans ih

/-- A placement can be followed to its end. -/
theorem exists_passes_run (network : Network α n) (gaps : Gaps α) (s : Columns α n) :
    ∃ log, Passes network gaps s (run network gaps s) log :=
  ⟨_, passes_run network gaps s⟩

/-- A placement passes through each of its states. -/
theorem exists_passes_of_mem_states (h : t ∈ states network gaps s) :
    ∃ log, Passes network gaps s t log := by
  induction s using step_induction network gaps with
  | hend s hnone =>
    rw [states_of_step_eq_none hnone] at h
    exact absurd h List.not_mem_nil
  | hstep s u hstep ih =>
    rw [states_of_step hstep] at h
    rcases List.mem_cons.mp h with rfl | h
    · exact ⟨[], .start⟩
    · obtain ⟨log, hlog⟩ := ih h
      exact ⟨_, (Passes.start.next hstep).trans hlog⟩

/-- Where no step is left to take the placement is at its end. -/
theorem Passes.eq_run (h : Passes network gaps s t log) (hend : step network gaps t = none) :
    t = run network gaps s := by
  have hrun : run network gaps s = run network gaps t := by
    clear hend
    induction h with
    | start => rfl
    | next _ hstep ih => rw [ih, run_of_step hstep]
  rw [hrun, run_of_step_eq_none hend]

/-- The state in which all nodes wait in one column. -/
def opening (n : Nat) (origin : Point α) : Columns α n :=
  ⟨.replicate n none, [openColumn (List.finRange n) origin], origin⟩

/-- What has been logged of a whole placement is every node with its place. -/
theorem Passes.perm_of_opening {origin : Point α} {place : Fin n → Point α}
    (h : Passes network gaps (opening n origin) t log)
    (hplace : ∀ i, t.placed.get i = some (place i)) :
    log.Perm ((List.finRange n).map fun i => (i, place i)) := by
  have hlogged := h.logged
  have hmem (i : Fin n) (p : Point α) : (i, p) ∈ log ↔ place i = p := by
    have hempty : (opening n origin).placed.get i ≠ some p := by
      rw [opening, get_replicate_none]
      exact (Option.some_ne_none p).symm
    rw [← Option.some.injEq, ← hplace, hlogged.placed_iff]
    exact (or_iff_right hempty).symm
  refine (List.perm_ext_iff_of_nodup hlogged.nodup.of_map ?_).mpr ?_
  · exact (List.nodup_finRange n).map fun i j hij => congrArg Prod.fst hij
  · rintro ⟨i, p⟩
    rw [hmem, List.mem_map]
    constructor
    · rintro rfl
      exact ⟨i, List.mem_finRange i, rfl⟩
    · rintro ⟨j, -, heq⟩
      cases heq
      rfl

end Columns

/-! ## Layouts -/

variable {δ ι : Type} [Diagram δ ι] [BEq ι] [LawfulBEq ι] [Hashable ι] {gaps : Gaps} {diagram : δ}
  {nodes : List ι} {origin : Point}

/-- A layout that is accepted has a place for exactly the listed nodes, and no step on the way there
has overwritten a place: each node has been assigned to its place once. -/
theorem treeLayout_assigns_once {layout : TreeLayout ι}
    (hlayout : treeLayout gaps diagram nodes origin = .ok layout) :
    nodes.Nodup ∧ layout.placements.map Prod.fst = nodes ∧
      ∃ network, Network.resolve diagram (listed nodes) = .ok network ∧
        (∃ last log, Columns.Passes network gaps (Columns.opening _ origin) last log ∧
          Columns.step network gaps last = none) ∧
        ∀ s log, Columns.Passes network gaps (Columns.opening _ origin) s log →
          (log.map Prod.fst).Nodup ∧
          (∀ t, Columns.step network gaps s = some t → Columns.Assigns s t) ∧
          (Columns.step network gaps s = none →
            (log.map Prod.fst).Perm (List.finRange nodes.length) ∧
              layout.placements.Perm (log.map fun entry => (nodes.get entry.1, entry.2))) := by
  obtain ⟨network, filling, haccepted, rfl⟩ := treeLayout_eq_ok_iff.mp hlayout
  choose place hadds _ using haccepted.exists_find?
  have hplace (i : Fin nodes.length) : filling.placed.get i = some (place i) := (hadds i).place
  refine ⟨injective_get_listed.mp haccepted.resolves.injective, ?_, network,
    Network.resolve_eq_ok_iff.mpr haccepted.resolves, ?_, ?_⟩
  · rw [placementsOf_eq_map hplace, List.map_map]
    exact List.map_get_finRange nodes
  · obtain ⟨log, hlog⟩ := Columns.exists_passes_run network gaps (Columns.opening _ origin)
    exact ⟨_, log, hlog, Columns.step_run ..⟩
  · intro s log hpasses
    refine ⟨hpasses.logged.nodup, fun t => Columns.assigns_of_step, fun hend => ?_⟩
    have hs : s = ⟨filling.placed, [], filling.finish⟩ :=
      (hpasses.eq_run hend).trans (Columns.place_of_fills haccepted.fills)
    have hperm : log.Perm ((List.finRange nodes.length).map fun i => (i, place i)) :=
      hpasses.perm_of_opening (hs ▸ hplace)
    constructor
    · have hnodes := hperm.map Prod.fst
      rw [List.map_map] at hnodes
      exact hnodes.trans (.of_eq (List.map_id _))
    · have hplacements := hperm.map fun entry => (nodes.get entry.1, entry.2)
      rw [List.map_map] at hplacements
      rw [placementsOf_eq_map hplace]
      exact hplacements.symm

/-- Each table of the ring is assigned to its place once, although some wait in two columns. -/
theorem treeLayout_assigns_once_ring : ∃ layout : TreeLayout TableId,
    treeLayout .standard Schema.ring [⟨0⟩, ⟨1⟩, ⟨2⟩] .zero = .ok layout ∧
      layout.placements.map Prod.fst = [⟨0⟩, ⟨1⟩, ⟨2⟩] ∧ ∃ network : Network Coord 3,
        Network.resolve Schema.ring (listed [⟨0⟩, ⟨1⟩, ⟨2⟩]) = .ok network ∧
          (∃ last log, Columns.Passes network .standard (Columns.opening _ .zero) last log ∧
            Columns.step network .standard last = none) ∧
          ∀ s log, Columns.Passes network .standard (Columns.opening _ .zero) s log →
            (log.map Prod.fst).Nodup ∧
            (∀ t, Columns.step network .standard s = some t → Columns.Assigns s t) ∧
            (Columns.step network .standard s = none →
              (log.map Prod.fst).Perm (List.finRange 3) ∧ layout.placements.Perm
                (log.map fun entry => ([⟨0⟩, ⟨1⟩, ⟨2⟩].get entry.1, entry.2))) := by
  have hlayout := treeLayout_eq_ok_iff.mpr ⟨_, _, accepted_ring, rfl⟩
  exact ⟨_, hlayout, (treeLayout_assigns_once hlayout).2⟩

end SchemaLayout
