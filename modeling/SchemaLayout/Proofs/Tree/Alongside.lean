import SchemaLayout.Proofs.Tree.Assignments

/-!
# Placements side by side

Which node is placed next, and in which column, never depends on a coordinate. Two placements of the
same relationships therefore take the same steps, whatever the sizes, the gaps and even the number
types are. A `Comparison` relates the coordinates of the one to those of the other; if what a step
computes from related coordinates is related again, then all that the two placements ever hold is
related.
-/

namespace SchemaLayout

variable {α β : Type} {n : Nat}

/-- How the coordinates of one placement are to compare with those of another, on either axis. -/
structure Comparison (α β : Type) where
  x : α → β → Prop
  y : α → β → Prop

/-- For each open column, topmost first, the nodes that wait in it and its host. -/
def Columns.waiting (s : Columns α n) : List (List (Fin n) × Option (Fin n)) :=
  s.stack.map fun column => (column.pending, column.host)

namespace Comparison

/-- The coordinates of two points compare on both axes. -/
structure OfPoint (R : Comparison α β) (p : Point α) (q : Point β) : Prop where
  x : R.x p.x q.x
  y : R.y p.y q.y

/-- Two columns wait for the same nodes. -/
structure OfColumn (R : Comparison α β) (c : Column α n) (d : Column β n) : Prop where
  pending : c.pending = d.pending
  start : R.OfPoint c.start d.start
  cursor : R.OfPoint c.cursor d.cursor
  host : c.host = d.host

/-- The same nodes have places. -/
def OfPlaced (R : Comparison α β) (placed : Vector (Option (Point α)) n)
    (placed' : Vector (Option (Point β)) n) : Prop :=
  ∀ i, Option.Rel R.OfPoint (placed.get i) (placed'.get i)

/-- Two placements have come equally far. -/
structure OfColumns (R : Comparison α β) (s : Columns α n) (t : Columns β n) : Prop where
  placed : R.OfPlaced s.placed t.placed
  stack : List.Forall₂ R.OfColumn s.stack t.stack
  finish : R.OfPoint s.finish t.finish

/-- Two networks have the same relationships, and what is computed from coordinates that compare
compares as well. -/
structure Kept [Add α] [Max α] [Add β] [Max β] (R : Comparison α β) (network : Network α n)
    (gaps : Gaps α) (network' : Network β n) (gaps' : Gaps β) : Prop where
  related : network.related = network'.related
  right : ∀ i {a b}, R.x a b → R.x (a + (network.sizes.get i).width + gaps.horizontal)
    (b + (network'.sizes.get i).width + gaps'.horizontal)
  down : ∀ i {a b}, R.y a b → R.y (a + (network.sizes.get i).height + gaps.vertical)
    (b + (network'.sizes.get i).height + gaps'.vertical)
  max : ∀ {a b c d}, R.y a b → R.y c d → R.y (max a c) (max b d)

variable {R : Comparison α β} {placed : Vector (Option (Point α)) n}
  {placed' : Vector (Option (Point β)) n} {p : Point α} {q : Point β}

/-! ## The same nodes have places -/

theorem OfPlaced.isSome_eq (h : R.OfPlaced placed placed') (i : Fin n) :
    (placed.get i).isSome = (placed'.get i).isSome := by
  have hi := h i
  generalize placed.get i = a at hi
  generalize placed'.get i = b at hi
  cases hi <;> rfl

theorem OfPlaced.isNone_eq (h : R.OfPlaced placed placed') (i : Fin n) :
    (placed.get i).isNone = (placed'.get i).isNone := by
  rw [← Option.not_isSome, ← Option.not_isSome, h.isSome_eq]

theorem OfPlaced.skipPlaced_eq (h : R.OfPlaced placed placed') (nodes : List (Fin n)) :
    Columns.skipPlaced placed nodes = Columns.skipPlaced placed' nodes := by
  unfold Columns.skipPlaced
  rw [funext h.isSome_eq]

theorem OfPlaced.mark (h : R.OfPlaced placed placed') (hpoint : R.OfPoint p q) (i : Fin n) :
    R.OfPlaced (Columns.mark placed i p) (Columns.mark placed' i q) := by
  intro j
  by_cases hij : i = j
  · subst hij
    rw [Columns.get_mark_self, Columns.get_mark_self]
    exact .some hpoint
  · rw [Columns.get_mark_of_ne hij, Columns.get_mark_of_ne hij]
    exact h j

/-- Where nothing is placed, the same nodes have places. -/
theorem ofPlaced_replicate (R : Comparison α β) :
    R.OfPlaced (.replicate n none) (.replicate n none) := by
  intro i
  rw [Columns.get_replicate_none, Columns.get_replicate_none]
  exact .none

/-! ## Steps -/

variable [Add α] [Max α] [Add β] [Max β] {network : Network α n} {gaps : Gaps α}
  {network' : Network β n} {gaps' : Gaps β} {s t : Columns α n} {s' : Columns β n}

theorem Kept.rightOf (h : R.Kept network gaps network' gaps') (hpoint : R.OfPoint p q)
    (i : Fin n) :
    R.OfPoint (Columns.rightOf network gaps i p) (Columns.rightOf network' gaps' i q) :=
  ⟨h.right i hpoint.x, hpoint.y⟩

theorem Kept.below (h : R.Kept network gaps network' gaps') (hpoint : R.OfPoint p q)
    {finish : Point α} {finish' : Point β} (hfinish : R.OfPoint finish finish') (i : Fin n) :
    R.y (Columns.below network gaps i p finish) (Columns.below network' gaps' i q finish') :=
  h.max (h.down i hpoint.y) hfinish.y

/-- Both placements move the cursor of the column that takes over. -/
theorem Kept.resume (h : R.Kept network gaps network' gaps') {finish : Point α}
    {finish' : Point β} (hfinish : R.OfPoint finish finish') {stack : List (Column α n)}
    {stack' : List (Column β n)} (hstack : List.Forall₂ R.OfColumn stack stack') :
    List.Forall₂ R.OfColumn (Columns.resume network gaps finish stack)
      (Columns.resume network' gaps' finish' stack') := by
  cases hstack with
  | nil => exact .nil
  | @cons c d outer outer' hcolumn houter =>
    unfold Columns.resume
    dsimp only
    rw [← hcolumn.host]
    cases c.host with
    | none => exact .cons hcolumn houter
    | some i =>
      refine .cons ⟨hcolumn.pending, hcolumn.start, ⟨hcolumn.start.x, ?_⟩, rfl⟩ houter
      exact h.below hcolumn.cursor hfinish i

/-- Both placements place the same node or close a column. -/
theorem Kept.advance (h : R.Kept network gaps network' gaps') (hplaced : R.OfPlaced placed placed')
    {c : Column α n} {d : Column β n} (hcolumn : R.OfColumn c d) {outer : List (Column α n)}
    {outer' : List (Column β n)} (houter : List.Forall₂ R.OfColumn outer outer')
    {finish : Point α} {finish' : Point β} (hfinish : R.OfPoint finish finish') :
    R.OfColumns (Columns.advance network gaps placed c outer finish)
      (Columns.advance network' gaps' placed' d outer' finish') := by
  have hskip : Columns.skipPlaced placed c.pending = Columns.skipPlaced placed' d.pending := by
    rw [hplaced.skipPlaced_eq, hcolumn.pending]
  unfold Columns.advance
  rw [← hskip]
  cases Columns.skipPlaced placed c.pending with
  | nil => exact ⟨hplaced, h.resume hcolumn.cursor houter, hcolumn.cursor⟩
  | cons i pending =>
    have hmarked := hplaced.mark hcolumn.cursor i
    have hright := h.rightOf hcolumn.cursor i
    refine ⟨hmarked, .cons ⟨?_, hright, hright, rfl⟩ (.cons ?_ houter), hfinish⟩
    · -- the same related nodes have no place yet
      show Columns.fresh network (Columns.mark placed i c.cursor) i =
        Columns.fresh network' (Columns.mark placed' i d.cursor) i
      unfold Columns.fresh
      rw [h.related, funext hmarked.isNone_eq]
    · exact ⟨rfl, hcolumn.start, hcolumn.cursor, rfl⟩

/-- One step: if there is one to take in one of the placements, there is one in the other. -/
theorem Kept.step (h : R.Kept network gaps network' gaps') (hs : R.OfColumns s s') :
    Option.Rel R.OfColumns (Columns.step network gaps s) (Columns.step network' gaps' s') := by
  obtain ⟨placed, stack, finish⟩ := s
  obtain ⟨placed', stack', finish'⟩ := s'
  obtain ⟨hplaced, hstack, hfinish⟩ := hs
  cases hstack with
  | nil => exact .none
  | cons hcolumn houter => exact .some (h.advance hplaced hcolumn houter hfinish)

/-- All steps: both placements end with what compares. -/
theorem Kept.run (h : R.Kept network gaps network' gaps') (hs : R.OfColumns s s') :
    R.OfColumns (Columns.run network gaps s) (Columns.run network' gaps' s') := by
  induction s using Columns.run.induct network gaps generalizing s' with
  | case1 placed finish =>
    obtain ⟨placed', stack', finish'⟩ := s'
    cases hs.stack
    rw [Columns.run, Columns.run]
    exact hs
  | case2 placed column outer finish ih =>
    obtain ⟨placed', stack', finish'⟩ := s'
    cases hs.stack with
    | cons hcolumn houter =>
      rw [Columns.run, Columns.run]
      exact ih (h.advance hs.placed hcolumn houter hs.finish)

omit [Add α] [Max α] [Add β] [Max β] in
/-- Two placements of the same nodes begin alike. -/
theorem OfPlaced.ofColumns (hplaced : R.OfPlaced placed placed') (nodes : List (Fin n))
    (hstart : R.OfPoint p q) :
    R.OfColumns ⟨placed, [Columns.openColumn nodes p], p⟩
      ⟨placed', [Columns.openColumn nodes q], q⟩ :=
  ⟨hplaced, .cons ⟨rfl, hstart, hstart, rfl⟩ .nil, hstart⟩

/-- Columns that begin at points that compare are filled with what compares. -/
theorem Kept.place (h : R.Kept network gaps network' gaps') (hplaced : R.OfPlaced placed placed')
    (nodes : List (Fin n)) (hstart : R.OfPoint p q) :
    R.OfColumns (Columns.place network gaps placed nodes p)
      (Columns.place network' gaps' placed' nodes q) :=
  h.run (hplaced.ofColumns nodes hstart)

/-! ## Order -/

/-- Lists that compare look alike to what does not see the difference. -/
theorem map_eq_map_of_forall₂ {γ δ ε : Type} {r : γ → δ → Prop} {f : γ → ε} {g : δ → ε}
    (hfg : ∀ {a b}, r a b → f a = g b) {xs : List γ} {ys : List δ} (h : List.Forall₂ r xs ys) :
    xs.map f = ys.map g := by
  rw [← List.forall₂_eq_eq_eq, List.forall₂_map_left_iff, List.forall₂_map_right_iff]
  exact h.imp fun _ _ => hfg

omit [Add α] [Max α] [Add β] [Max β] in
/-- The same nodes wait in the same columns. -/
theorem OfColumns.waiting_eq (hs : R.OfColumns s s') :
    Columns.waiting s = Columns.waiting s' :=
  map_eq_map_of_forall₂ (fun h => Prod.ext h.pending h.host) hs.stack

/-- Two assignments place the same node. -/
def OfEntry (R : Comparison α β) (entry : Fin n × Point α) (entry' : Fin n × Point β) : Prop :=
  entry.1 = entry'.1 ∧ R.OfPoint entry.2 entry'.2

omit [Add α] [Max α] [Add β] [Max β] in
/-- The next step of both placements assigns the same node. -/
theorem OfColumns.assignment? (hs : R.OfColumns s s') :
    Option.Rel R.OfEntry (Columns.assignment? s) (Columns.assignment? s') := by
  obtain ⟨placed, stack, finish⟩ := s
  obtain ⟨placed', stack', finish'⟩ := s'
  obtain ⟨hplaced, hstack, -⟩ := hs
  cases hstack with
  | nil => exact .none
  | @cons c d outer outer' hcolumn houter =>
    unfold Columns.assignment?
    dsimp only
    rw [← hcolumn.pending, ← hplaced.skipPlaced_eq]
    cases Columns.skipPlaced placed c.pending with
    | nil => exact .none
    | cons i pending => exact .some ⟨rfl, hcolumn.cursor⟩

/-- Any number of steps: as far as one placement has come, the other comes by assigning the same
nodes in the same order. -/
theorem Kept.exists_passes (h : R.Kept network gaps network' gaps') (hs : R.OfColumns s s')
    {log : List (Fin n × Point α)} (hpasses : Columns.Passes network gaps s t log) :
    ∃ t' log', Columns.Passes network' gaps' s' t' log' ∧ R.OfColumns t t' ∧
      List.Forall₂ R.OfEntry log log' := by
  induction hpasses with
  | start => exact ⟨s', [], .start, hs, .nil⟩
  | @next t u log _ hstep ih =>
    obtain ⟨t', log', hbefore, ht, hlog⟩ := ih
    have hnext := h.step ht
    rw [hstep] at hnext
    cases hstep' : Columns.step network' gaps' t' with
    | none =>
      rw [hstep'] at hnext
      cases hnext
    | some u' =>
      rw [hstep', Option.rel_some_some] at hnext
      have hentry : List.Forall₂ R.OfEntry (Columns.assignment? t).toList
          (Columns.assignment? t').toList := by
        have hrel := ht.assignment?
        generalize Columns.assignment? t = entry at hrel ⊢
        generalize Columns.assignment? t' = entry' at hrel ⊢
        cases hrel with
        | none => exact .nil
        | some hentry => exact .cons hentry .nil
      exact ⟨u', _, hbefore.next hstep', hnext, List.rel_append hlog hentry⟩

/-! ## Layouts -/

/-- Two layouts of the same nodes compare, if their origins do. -/
theorem Kept.exists_find? {δ δ' ι : Type} [Diagram δ ι] [Diagram δ' ι] [BEq ι] [LawfulBEq ι]
    {R : Comparison Coord Coord} {gaps gaps' : Gaps} {diagram : δ} {diagram' : δ'}
    {nodes : List ι} {origin origin' : Point} {network network' : Network Coord nodes.length}
    {filling filling' : Filling Coord nodes.length} (h : R.Kept network gaps network' gaps')
    (horigin : R.OfPoint origin origin')
    (haccepted : Accepted gaps diagram nodes origin network filling)
    (haccepted' : Accepted gaps' diagram' nodes origin' network' filling') {node : ι}
    (hnode : node ∈ nodes) :
    ∃ p q, (placementsOf nodes filling.placed.toList).find? node = some p ∧
      (placementsOf nodes filling'.placed.toList).find? node = some q ∧ R.OfPoint p q := by
  have hplace := h.place (ofPlaced_replicate R) (List.finRange _) horigin
  rw [Columns.place_of_fills haccepted.fills, Columns.place_of_fills haccepted'.fills] at hplace
  obtain ⟨i, rfl⟩ := exists_get_listed hnode
  obtain ⟨p, hp, hfind⟩ := haccepted.exists_find? i
  obtain ⟨q, hq, hfind'⟩ := haccepted'.exists_find? i
  have hi : Option.Rel R.OfPoint (filling.placed.get i) (filling'.placed.get i) := hplace.placed i
  rw [hp.place, hq.place, Option.rel_some_some] at hi
  exact ⟨p, q, hfind, hfind', hi⟩

end Comparison

end SchemaLayout
