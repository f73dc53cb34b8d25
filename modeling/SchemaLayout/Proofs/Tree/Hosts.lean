import SchemaLayout.Proofs.Tree.Bounds
import SchemaLayout.Proofs.Tree.OpenColumns

/-!
# Hosts

The host of a column is set when a column is opened to its right, and taken back when that column is
closed, which may be any number of steps later. In between the column does not change: its cursor
stays at the host, which is what it goes on below.

`Hosted` says how any two adjacent columns belong together, and `Hosted.step` that every step keeps
it. So a column that is closed never leaves a column without a host behind, and the cursor of the one
to the left of it always moves on. The only column that is closed with nothing to its left is the
last one.
-/

namespace SchemaLayout

namespace Columns

variable {α : Type} [Add α] [Max α] {n : Nat} {network : Network α n} {gaps : Gaps α}
  {first s t : Columns α n} {i : Fin n} {right right' left column : Column α n}
  {outer : List (Column α n)} {log : List (Fin n × Point α)} {turn : Turn}
  {placed : Vector (Option (Point α)) n} {nodes : List (Fin n)} {start : Point α}

/-! ## Adjacent columns -/

/-- Node `i` is the host of the column `left`, is placed at its cursor, and the column `right` begins
to the right of it. On the way from `first` to `s` the column `right` has been opened over the
columns to its left, as they still are, with the nodes related to `i` that had no place then. -/
structure Hosts (network : Network α n) (gaps : Gaps α) (first s : Columns α n) (i : Fin n)
    (right left : Column α n) (outer : List (Column α n)) : Prop where
  host : left.host = some i
  place : s.placed.get i = some left.cursor
  start : right.start = rightOf network gaps i left.cursor
  opened : ∃ t log log', Passes network gaps first t log ∧ Passes network gaps t s log' ∧
    t.stack = openColumn (fresh network t.placed i) right.start :: left :: outer ∧
    right.pending <:+ fresh network t.placed i

/-- How the open columns of a state belong together that has been reached from `first`. -/
structure Hosted (network : Network α n) (gaps : Gaps α) (first s : Columns α n) : Prop where
  /-- The topmost column has no host. -/
  top : ∀ column outer, s.stack = column :: outer → column.host = none
  /-- Every other column has one, for which the column to the right of it has been opened. -/
  left : ∀ inner right left outer, s.stack = inner ++ right :: left :: outer →
    ∃ i, Hosts network gaps first s i right left outer
  /-- No cursor leaves its column. -/
  upright : ∀ column ∈ s.stack, column.cursor.x = column.start.x

/-- A host remains one as long as the column to its right only passes over nodes. -/
theorem Hosts.step (h : Hosts network gaps first s i right left outer)
    (hstep : step network gaps s = some t) (hstart : right'.start = right.start)
    (hpending : right'.pending <:+ right.pending) :
    Hosts network gaps first t i right' left outer := by
  obtain ⟨u, log, log', hfirst, hlater, hstack, hsuffix⟩ := h.opened
  have hnext : Passes network gaps s t _ := Passes.start.next hstep
  refine ⟨h.host, ?_, hstart.trans h.start, u, log, _, hfirst, hlater.next hstep, ?_, ?_⟩
  · exact (hnext.logged.placed_iff i left.cursor).mpr (.inl h.place)
  · rw [hstart]
    exact hstack
  · exact hpending.trans hsuffix

/-- Where columns belong together, none is closed to the right of a column without a host. -/
theorem Hosted.ne_strays (h : Hosted network gaps first s) (htakes : Takes network gaps s turn t) :
    turn ≠ .strays := by
  rintro rfl
  cases htakes with
  | @strays placed column left outer finish hskip hhost =>
    obtain ⟨i, hi⟩ := h.left [] column left outer rfl
    rw [hi.host] at hhost
    cases hhost

/-- A column that opens another one belongs together with it. -/
theorem Hosted.opens (h : Hosted network gaps first s) (hpasses : Passes network gaps first s log)
    (hstep : step network gaps s = some t) (htakes : Takes network gaps s .opens t) :
    Hosted network gaps first t := by
  have hnext := hpasses.next hstep
  cases htakes with
  | @opens placed column outer finish i pending hskip =>
    refine ⟨fun _ _ hstack => ?_, fun inner right left outer hstack => ?_, ?_⟩
    · cases hstack
      rfl
    · rcases inner with _ | ⟨_, _ | ⟨_, inner⟩⟩ <;> cases hstack
      · -- the column to the right has been opened by this very step
        exact ⟨i, rfl, get_mark_self .., rfl, _, _, [], hnext, .start, rfl, List.suffix_rfl⟩
      · -- the column that has got a host belongs to the one on its left as it did before
        obtain ⟨k, hk⟩ := h.left [] column left outer rfl
        exact ⟨k, hk.step hstep rfl (suffix_of_skipPlaced hskip)⟩
      · obtain ⟨k, hk⟩ := h.left (column :: inner) right left outer rfl
        exact ⟨k, hk.step hstep rfl List.suffix_rfl⟩
    · have hupright := List.forall_mem_cons.mp h.upright
      exact List.forall_mem_cons.mpr ⟨rfl, List.forall_mem_cons.mpr hupright⟩

/-- A column that goes on below its host belongs to the one on its left as it did before. -/
theorem Hosted.resumes (h : Hosted network gaps first s) (hstep : step network gaps s = some t)
    (htakes : Takes network gaps s .resumes t) : Hosted network gaps first t := by
  cases htakes with
  | @resumes placed column resumed outer finish i hskip hhost =>
    refine ⟨fun _ _ hstack => ?_, fun inner right left outer hstack => ?_, ?_⟩
    · cases hstack
      rfl
    · rcases inner with _ | ⟨_, inner⟩ <;> cases hstack
      · obtain ⟨k, hk⟩ := h.left [column] resumed left outer rfl
        exact ⟨k, hk.step hstep rfl List.suffix_rfl⟩
      · obtain ⟨k, hk⟩ := h.left (column :: resumed :: inner) right left outer rfl
        exact ⟨k, hk.step hstep rfl List.suffix_rfl⟩
    · have hupright := List.forall_mem_cons.mp (List.forall_mem_cons.mp h.upright).2
      exact List.forall_mem_cons.mpr ⟨rfl, hupright.2⟩

/-- Where no column is open, nothing is left to belong together. -/
theorem hosted_of_stack_eq_nil (h : s.stack = []) : Hosted network gaps first s := by
  refine ⟨fun _ _ hstack => ?_, fun _ _ _ _ hstack => ?_, fun _ hmem => ?_⟩
  · exact absurd (h.symm.trans hstack) (List.cons_ne_nil _ _).symm
  · exact absurd (h.symm.trans hstack).symm (by simp)
  · rw [h] at hmem
    exact absurd hmem List.not_mem_nil

/-- Every step keeps the open columns together. -/
theorem Hosted.step (h : Hosted network gaps first s) (hpasses : Passes network gaps first s log)
    (hstep : step network gaps s = some t) : Hosted network gaps first t := by
  obtain ⟨turn, -, htakes⟩ := takes_of_step hstep
  cases turn with
  | opens => exact h.opens hpasses hstep htakes
  | resumes => exact h.resumes hstep htakes
  | strays => exact absurd rfl (h.ne_strays htakes)
  | ends =>
    cases htakes
    exact hosted_of_stack_eq_nil rfl

/-- One column belongs together. -/
theorem hosted_entry :
    Hosted network gaps (entry placed nodes start) (entry placed nodes start) := by
  refine ⟨fun _ _ hstack => ?_, fun inner _ _ _ hstack => ?_, fun _ hmem => ?_⟩
  · cases hstack
    rfl
  · rcases inner with _ | ⟨_, _ | ⟨_, inner⟩⟩ <;> cases hstack
  · cases List.mem_singleton.mp hmem
    rfl

/-- A run: the open columns belong together at any time of a placement. -/
theorem Passes.hosted (h : Passes network gaps (entry placed nodes start) s log) :
    Hosted network gaps (entry placed nodes start) s := by
  induction h with
  | start => exact hosted_entry
  | next hbefore hstep ih => exact ih.step hbefore hstep

/-! ## Turns that are never taken -/

/-- What is left to do after some steps of a placement ends with closing the last column, and until
then a column that is closed has one to its left, which goes on. -/
theorem Passes.exists_turns_eq (h : Passes network gaps (entry placed nodes start) s log)
    (hopen : s.stack ≠ []) :
    ∃ before, turns network gaps s = before ++ [.ends] ∧
      ∀ turn ∈ before, turn = .opens ∨ turn = .resumes := by
  induction s using step_induction network gaps generalizing log with
  | hend s hnone => exact absurd (stack_eq_nil_of_step_eq_none hnone) hopen
  | hstep s t hstep ih =>
    obtain ⟨turn, hturn, htakes⟩ := takes_of_step hstep
    have hne := h.hosted.ne_strays htakes
    have ih := ih (h.next hstep)
    rw [turns_of_step hstep hturn]
    cases htakes with
    | strays => exact absurd rfl hne
    | ends =>
      refine ⟨[], ?_, fun _ hmem => absurd hmem List.not_mem_nil⟩
      rw [turns, states_of_step_eq_none rfl]
      rfl
    | opens =>
      obtain ⟨before, hturns, hbefore⟩ := ih (List.cons_ne_nil _ _)
      exact ⟨.opens :: before, congrArg _ hturns, List.forall_mem_cons.mpr ⟨.inl rfl, hbefore⟩⟩
    | resumes =>
      obtain ⟨before, hturns, hbefore⟩ := ih (List.cons_ne_nil _ _)
      exact ⟨.resumes :: before, congrArg _ hturns, List.forall_mem_cons.mpr ⟨.inr rfl, hbefore⟩⟩

end Columns

/-! ## Layouts -/

variable {δ ι : Type} [Diagram δ ι] [BEq ι] [LawfulBEq ι] [Hashable ι] {gaps : Gaps} {diagram : δ}
  {nodes : List ι} {origin : Point}

/-- While nodes are laid out no number is out of range, and the open columns belong together: each
of them but the topmost has a host, at its cursor, for which the column to its right has been opened.
Closing a column never leaves one without a host behind, and the last column is closed once, at the
end. -/
theorem treeLayout_hosts {layout : TreeLayout ι}
    (hlayout : treeLayout gaps diagram nodes origin = .ok layout) :
    ∃ network, Network.resolve diagram (listed nodes) = .ok network ∧
      Bare.InRange network gaps origin ∧
      (∀ s log, Columns.Passes network gaps (Columns.opening _ origin) s log →
        Columns.Hosted network gaps (Columns.opening _ origin) s) ∧
      ∃ before, Columns.turns network gaps (Columns.opening _ origin) = before ++ [.ends] ∧
        ∀ turn ∈ before, turn = .opens ∨ turn = .resumes := by
  obtain ⟨network, filling, haccepted, -⟩ := treeLayout_eq_ok_iff.mp hlayout
  have hopening : Columns.opening nodes.length origin =
      Columns.entry (.replicate _ none) (List.finRange _) origin := rfl
  rw [hopening]
  refine ⟨network, Network.resolve_eq_ok_iff.mpr haccepted.resolves, Bare.inRange network gaps origin,
    fun s log hpasses => hpasses.hosted, ?_⟩
  exact Columns.Passes.start.exists_turns_eq (List.cons_ne_nil _ _)

/-- The columns of the ring belong together while it is laid out as a chain. -/
theorem treeLayout_hosts_ring : ∃ layout : TreeLayout TableId,
    treeLayout .standard Schema.ring [⟨0⟩, ⟨1⟩, ⟨2⟩] .zero = .ok layout ∧
      ∃ network : Network Coord 3,
        Network.resolve Schema.ring (listed [⟨0⟩, ⟨1⟩, ⟨2⟩]) = .ok network ∧
          Bare.InRange network .standard .zero ∧
          (∀ s log, Columns.Passes network .standard (Columns.opening _ .zero) s log →
            Columns.Hosted network .standard (Columns.opening _ .zero) s) ∧
          ∃ before, Columns.turns network .standard (Columns.opening _ .zero) = before ++ [.ends] ∧
            ∀ turn ∈ before, turn = .opens ∨ turn = .resumes := by
  have hlayout := treeLayout_eq_ok_iff.mpr ⟨_, _, accepted_ring, rfl⟩
  exact ⟨_, hlayout, treeLayout_hosts hlayout⟩

end SchemaLayout
