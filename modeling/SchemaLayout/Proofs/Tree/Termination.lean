import SchemaLayout.Proofs.Tree.OpenColumns

/-!
# Termination

A column is opened for every node that is placed, and besides these there is only the one with which
the placement begins. All of them are closed once, so that a placement of `m` nodes ends after
`2 * m + 1` steps, however often its nodes wait: nodes that have a place are passed over within a
step.

`counted` says this of any state on the way, where further columns may be open, by induction on the
steps that are left. `place_terminates` is the case in which one column is open, told in terms of the
nodes that get a place, `newcomers`.
-/

namespace SchemaLayout.Columns

variable {α : Type} [Add α] [Max α] {n : Nat} {network : Network α n} {gaps : Gaps α}
  {s t : Columns α n} {log : List (Fin n × Point α)} {turn : Turn}

/-! ## Counting turns -/

/-- A step makes one assignment for each column that it opens. -/
theorem Takes.length_assignment? (h : Takes network gaps s turn t) :
    (assignment? s).toList.length = turn.opened := by
  cases h with
  | opens hskip => rw [assignment?_of_skipPlaced_cons hskip]; rfl
  | resumes hskip => rw [assignment?_of_skipPlaced_nil hskip]; rfl
  | strays hskip => rw [assignment?_of_skipPlaced_nil hskip]; rfl
  | ends hskip => rw [assignment?_of_skipPlaced_nil hskip]; rfl

/-- What a placement does from a state on. It opens a column for each assignment, takes a step to
open it and a step to close it, and takes a step to close each column that is open already. -/
structure Counted (network : Network α n) (gaps : Gaps α) (s : Columns α n) : Prop where
  length_states : (states network gaps s).length = (turns network gaps s).length
  length_turns : (turns network gaps s).length =
    2 * (assignments network gaps s).length + s.stack.length
  count_opens : (turns network gaps s).count .opens = (assignments network gaps s).length
  length_stack_le : ∀ t ∈ states network gaps s,
    t.stack.length ≤ s.stack.length + (assignments network gaps s).length

theorem counted (network : Network α n) (gaps : Gaps α) (s : Columns α n) :
    Counted network gaps s := by
  induction s using step_induction network gaps with
  | hend s h =>
    have hstates := states_of_step_eq_none h
    refine ⟨?_, ?_, ?_, ?_⟩ <;>
      simp [turns, assignments, hstates, stack_eq_nil_of_step_eq_none h]
  | hstep s t h ih =>
    obtain ⟨turn, hturn, htakes⟩ := takes_of_step h
    have hone := turn.opened_add_closed
    have hstack := htakes.length_stack
    have hstates := states_of_step h
    have hturns := turns_of_step h hturn
    have hassigned : (assignments network gaps s).length =
        turn.opened + (assignments network gaps t).length := by
      rw [assignments_of_step h, List.length_append, htakes.length_assignment?]
    refine ⟨?_, ?_, ?_, ?_⟩
    · rw [hstates, hturns, List.length_cons, List.length_cons, ih.length_states]
    · rw [hturns, List.length_cons, ih.length_turns]
      omega
    · rw [hturns, List.count_cons, ih.count_opens, hassigned, turn.opened_eq]
      omega
    · rw [hstates, List.forall_mem_cons]
      refine ⟨by omega, fun u hu => ?_⟩
      have hu := ih.length_stack_le u hu
      omega

/-! ## Newcomers -/

/-- The nodes that have a place only afterwards. -/
def newcomers (before after : Vector (Option (Point α)) n) : List (Fin n) :=
  (List.finRange n).filter fun i => (before.get i).isNone && (after.get i).isSome

omit [Add α] [Max α] in
theorem mem_newcomers {before after : Vector (Option (Point α)) n} {i : Fin n} :
    i ∈ newcomers before after ↔ before.get i = none ∧ after.get i ≠ none := by
  simp [newcomers, Option.isSome_iff_ne_none]

omit [Add α] [Max α] in
theorem nodup_newcomers (before after : Vector (Option (Point α)) n) :
    (newcomers before after).Nodup :=
  (List.nodup_finRange n).filter _

omit [Add α] [Max α] in
/-- A log names the nodes that have got a place. -/
theorem Logged.perm_newcomers (h : Logged s t log) :
    (log.map Prod.fst).Perm (newcomers s.placed t.placed) := by
  refine (List.perm_ext_iff_of_nodup h.nodup (nodup_newcomers ..)).mpr fun i => ?_
  rw [mem_newcomers, List.mem_map]
  constructor
  · rintro ⟨⟨i, position⟩, hmem, rfl⟩
    refine ⟨h.free i position hmem, ?_⟩
    rw [(h.placed_iff i position).mpr (.inr hmem)]
    exact Option.some_ne_none position
  · rintro ⟨hfree, hplaced⟩
    obtain ⟨position, hposition⟩ := Option.ne_none_iff_exists'.mp hplaced
    rcases (h.placed_iff i position).mp hposition with hbefore | hmem
    · rw [hfree] at hbefore
      cases hbefore
    · exact ⟨(i, position), hmem, rfl⟩

/-- A placement makes one assignment for each node that it places. -/
theorem length_assignments (network : Network α n) (gaps : Gaps α) (s : Columns α n) :
    (assignments network gaps s).length =
      (newcomers s.placed (run network gaps s).placed).length := by
  rw [← (passes_run network gaps s).logged.perm_newcomers.length_eq, List.length_map]

/-- A placement ends, whatever the network is: if it places `m` nodes, it takes `2 * m + 1` steps,
`m` of which open a column and `m + 1` close one, and never has more than `m + 1` columns open. -/
theorem place_terminates (network : Network α n) (gaps : Gaps α)
    (placed : Vector (Option (Point α)) n) (nodes : List (Fin n)) (start : Point α) :
    let first := entry placed nodes start
    let last := place network gaps placed nodes start
    let m := (newcomers placed last.placed).length
    Traverses network gaps first last (states network gaps first) ∧
      (states network gaps first).length = 2 * m + 1 ∧
      (turns network gaps first).count .opens = m ∧
      (turns network gaps first).countP (· ≠ .opens) = m + 1 ∧
      ∀ s ∈ states network gaps first, s.stack.length ≤ m + 1 := by
  intro first last m
  have hcounted := counted network gaps first
  have hm : (assignments network gaps first).length = m := length_assignments network gaps first
  have hone : first.stack.length = 1 := rfl
  have hturns : (turns network gaps first).length = 2 * m + 1 := by
    rw [hcounted.length_turns, hm, hone]
  have hopens : (turns network gaps first).count .opens = m := by
    rw [hcounted.count_opens, hm]
  refine ⟨traverses_states network gaps first, ?_, hopens, ?_, fun s hs => ?_⟩
  · rw [hcounted.length_states, hturns]
  · have hsplit := List.length_eq_countP_add_countP (· == Turn.opens)
      (l := turns network gaps first)
    simp only [beq_iff_eq] at hsplit
    rw [List.count_eq_countP] at hopens
    simp only [ne_eq]
    omega
  · have hs := hcounted.length_stack_le s hs
    omega

end SchemaLayout.Columns
