import SchemaLayout.Proofs.Tree.Filling
import SchemaLayout.Proofs.Tree.States

/-!
# Turns

Every step of a placement takes one of four turns: it places a node and opens a column to its right,
it closes a column and goes on with the one to the left, which waits with a host or without one, or
it closes the last column. `Takes` says what each turn does, and `takes_of_step` that a step does
nothing else.
-/

namespace SchemaLayout.Columns

variable {α : Type} {n : Nat}

/-- What a step does. -/
inductive Turn where
  /-- It places a node, and opens a column for the nodes related to it. -/
  | opens
  /-- It closes a column, and the one to the left of it goes on below its host. -/
  | resumes
  /-- It closes a column, and the one to the left of it has no host to go on below. -/
  | strays
  /-- It closes the last column. -/
  | ends
deriving DecidableEq

/-- The turn that the next step takes, if there is one. -/
def turn? (s : Columns α n) : Option Turn :=
  match s.stack with
  | [] => none
  | column :: outer =>
    match skipPlaced s.placed column.pending, outer with
    | _ :: _, _ => some .opens
    | [], left :: _ => some (if left.host.isSome then .resumes else .strays)
    | [], [] => some .ends

variable [Add α] [Max α] {network : Network α n} {gaps : Gaps α} {s t : Columns α n}
  {turn : Turn}

/-! ## What a step does -/

/-- `Takes network gaps s turn t` says that a step takes the turn, and leads from `s` to `t`. -/
inductive Takes (network : Network α n) (gaps : Gaps α) : Columns α n → Turn → Columns α n → Prop
  | opens {placed column outer finish i pending}
      (hskip : skipPlaced placed column.pending = i :: pending) :
      Takes network gaps ⟨placed, column :: outer, finish⟩ .opens
        ⟨mark placed i column.cursor,
          openColumn (fresh network (mark placed i column.cursor) i)
              (rightOf network gaps i column.cursor) ::
            { column with pending := pending, host := some i } :: outer,
          finish⟩
  | resumes {placed column left outer finish i} (hskip : skipPlaced placed column.pending = [])
      (hhost : left.host = some i) :
      Takes network gaps ⟨placed, column :: left :: outer, finish⟩ .resumes
        ⟨placed,
          ⟨left.pending, left.start,
              ⟨left.start.x, below network gaps i left.cursor column.cursor⟩, none⟩ :: outer,
          column.cursor⟩
  | strays {placed column left outer finish} (hskip : skipPlaced placed column.pending = [])
      (hhost : left.host = none) :
      Takes network gaps ⟨placed, column :: left :: outer, finish⟩ .strays
        ⟨placed, left :: outer, column.cursor⟩
  | ends {placed column finish} (hskip : skipPlaced placed column.pending = []) :
      Takes network gaps ⟨placed, [column], finish⟩ .ends ⟨placed, [], column.cursor⟩

/-- A step takes its turn and does nothing else. -/
theorem takes_of_step (h : step network gaps s = some t) :
    ∃ turn, turn? s = some turn ∧ Takes network gaps s turn t := by
  obtain ⟨placed, stack, finish⟩ := s
  cases stack with
  | nil => cases h
  | cons column outer =>
    rw [step, Option.some.injEq] at h
    subst h
    cases hskip : skipPlaced placed column.pending with
    | cons i pending =>
      refine ⟨.opens, by simp only [turn?, hskip], ?_⟩
      simp only [advance, hskip]
      exact .opens hskip
    | nil =>
      simp only [advance, turn?, hskip]
      cases outer with
      | nil => exact ⟨.ends, rfl, .ends hskip⟩
      | cons left outer =>
        cases hhost : left.host with
        | none =>
          refine ⟨.strays, by simp [hhost], ?_⟩
          simp only [resume, hhost]
          exact .strays hskip hhost
        | some i =>
          refine ⟨.resumes, by simp [hhost], ?_⟩
          simp only [resume, hhost]
          exact .resumes hskip hhost

/-- How many columns a turn opens. -/
def Turn.opened : Turn → Nat
  | .opens => 1
  | _ => 0

/-- How many columns a turn closes. -/
def Turn.closed : Turn → Nat
  | .opens => 0
  | _ => 1

theorem Turn.opened_eq (turn : Turn) : turn.opened = if turn == .opens then 1 else 0 := by
  cases turn <;> rfl

theorem Turn.opened_add_closed (turn : Turn) : turn.opened + turn.closed = 1 := by
  cases turn <;> rfl

/-- A step changes the number of open columns as its turn says. -/
theorem Takes.length_stack (h : Takes network gaps s turn t) :
    t.stack.length + turn.closed = s.stack.length + turn.opened := by
  cases h <;> rfl

/-! ## The turns of a placement -/

/-- The turns that a placement takes, in order. -/
def turns (network : Network α n) (gaps : Gaps α) (s : Columns α n) : List Turn :=
  (states network gaps s).filterMap turn?

theorem turns_of_step (h : step network gaps s = some t) (hturn : turn? s = some turn) :
    turns network gaps s = turn :: turns network gaps t := by
  rw [turns, states_of_step h, List.filterMap_cons_some hturn]
  rfl

end SchemaLayout.Columns
