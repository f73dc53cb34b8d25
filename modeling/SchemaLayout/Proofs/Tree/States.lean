import Mathlib.Data.List.Chain
import SchemaLayout.Tree.Columns

/-!
# The states of a placement

`Columns.run` takes steps until no column is open. `states` lists where it takes them, and
`traverses_states` says that each of these states leads to the next, and the last one to a state in
which no step is left to take.

`step_induction` goes from such a state back to the beginning, with a case for the end and a case for
a step. What is said of `run` and `states` in these two cases is all that proofs by it need.
-/

namespace SchemaLayout.Columns

variable {α : Type} [Add α] [Max α] {n : Nat} {network : Network α n} {gaps : Gaps α}
  {s t : Columns α n}

/-- What holds where no step is left to take, and before each step if it holds after it, holds
always. -/
theorem step_induction (network : Network α n) (gaps : Gaps α) {P : Columns α n → Prop}
    (hend : ∀ s, step network gaps s = none → P s)
    (hstep : ∀ s t, step network gaps s = some t → P t → P s) (s : Columns α n) : P s := by
  induction s using run.induct network gaps with
  | case1 placed finish => exact hend _ rfl
  | case2 placed column outer finish ih => exact hstep _ _ rfl ih

/-! ## Runs -/

theorem stack_eq_nil_of_step_eq_none (h : step network gaps s = none) : s.stack = [] := by
  obtain ⟨placed, stack, finish⟩ := s
  cases stack with
  | nil => rfl
  | cons column outer => cases h

theorem run_of_step_eq_none (h : step network gaps s = none) : run network gaps s = s := by
  rw [run_eq, h]
  rfl

theorem run_of_step (h : step network gaps s = some t) :
    run network gaps s = run network gaps t := by
  rw [run_eq, h]
  rfl

/-! ## States -/

/-- The states from which a placement takes a step, in order. -/
def states (network : Network α n) (gaps : Gaps α) : Columns α n → List (Columns α n)
  | ⟨_, [], _⟩ => []
  | ⟨placed, column :: outer, finish⟩ =>
    ⟨placed, column :: outer, finish⟩ ::
      states network gaps (advance network gaps placed column outer finish)
termination_by s => (unplaced s.placed, s.stack.length)
decreasing_by exact measure_advance_lt ..

theorem states_of_step_eq_none (h : step network gaps s = none) : states network gaps s = [] := by
  obtain ⟨placed, stack, finish⟩ := s
  cases stack with
  | nil => rw [states]
  | cons column outer => cases h

theorem states_of_step (h : step network gaps s = some t) :
    states network gaps s = s :: states network gaps t := by
  obtain ⟨placed, stack, finish⟩ := s
  cases stack with
  | nil => cases h
  | cons column outer =>
    rw [step, Option.some.injEq] at h
    rw [states, h]

/-- Steps lead from `first` through `before`, one state after the other, to `last`, where no step is
left to take. -/
structure Traverses (network : Network α n) (gaps : Gaps α) (first last : Columns α n)
    (before : List (Columns α n)) : Prop where
  head : (before ++ [last]).head? = some first
  chain : (before ++ [last]).IsChain fun s t => step network gaps s = some t
  stops : step network gaps last = none

/-- A run goes through the states of the placement, and then stops. -/
theorem traverses_states (network : Network α n) (gaps : Gaps α) (s : Columns α n) :
    Traverses network gaps s (run network gaps s) (states network gaps s) := by
  induction s using step_induction network gaps with
  | hend s h =>
    rw [states_of_step_eq_none h, run_of_step_eq_none h]
    exact ⟨rfl, .singleton s, h⟩
  | hstep s t h ih =>
    rw [states_of_step h, run_of_step h]
    have hchain := List.IsChain.cons ih.chain (x := s) (by
      intro u hu
      rw [ih.head, Option.mem_some_iff] at hu
      exact hu ▸ h)
    exact ⟨rfl, hchain, ih.stops⟩

theorem step_run (network : Network α n) (gaps : Gaps α) (s : Columns α n) :
    step network gaps (run network gaps s) = none :=
  (traverses_states network gaps s).stops

end SchemaLayout.Columns
