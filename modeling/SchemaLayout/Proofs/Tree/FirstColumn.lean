import SchemaLayout.Proofs.Tree.Termination
import SchemaLayout.Proofs.Tree.Tightness

/-!
# The first column

A placement takes the nodes to which an open path leads from its list, and puts each of them into
one column. A node of the list goes into the first column if no open path leads to it from a node
listed before it: then it is still free when the column arrives at it. Otherwise it has been taken
by then, into a column further right.

`puts` follows a placement column by column. `exists_puts_of_fills` cuts it where a filling ends, so
that the part before the cut is what the filling does, whatever columns are open and whatever is
listed after it.
-/

namespace SchemaLayout

namespace Columns

variable {α : Type} {n : Nat}

/-- The node that the next step places, if it places one, with the number of columns to the left of
the one into which it is put. -/
def put? (s : Columns α n) : Option (Nat × Fin n) :=
  (assignment? s).map fun assignment => (s.stack.tail.length, assignment.1)

variable [Add α] [Max α] {network : Network α n} {gaps : Gaps α} {s t : Columns α n}
  {placed : Vector (Option (Point α)) n} {nodes pending earlier later : List (Fin n)}
  {start cursor finish : Point α} {i j : Fin n} {depth : Nat} {filling : Filling α n}
  {outer : List (Column α n)}

/-- The nodes that a placement places, in order, each with the number of columns to the left of the
one into which it is put. -/
def puts (network : Network α n) (gaps : Gaps α) (s : Columns α n) : List (Nat × Fin n) :=
  (states network gaps s).filterMap put?

theorem puts_of_step (h : step network gaps s = some t) :
    puts network gaps s = (put? s).toList ++ puts network gaps t := by
  rw [puts, states_of_step h]
  cases hput : put? s <;> simp [puts, hput]

/-- A placement puts those nodes into columns to which it assigns a place. -/
theorem map_snd_puts (network : Network α n) (gaps : Gaps α) (s : Columns α n) :
    (puts network gaps s).map Prod.snd = (assignments network gaps s).map Prod.fst := by
  rw [puts, assignments, List.map_filterMap, List.map_filterMap]
  refine congrArg (List.filterMap · _) (funext fun t => ?_)
  rw [put?, Option.map_map]
  rfl

/-! ## What a placement takes -/

/-- Each node that a placement takes is put into one column. -/
theorem mem_newcomers_iff_existsUnique (network : Network α n) (gaps : Gaps α) (s : Columns α n) :
    j ∈ newcomers s.placed (run network gaps s).placed ↔
      ∃! depth, (depth, j) ∈ puts network gaps s := by
  have hlogged := (passes_run network gaps s).logged
  have hnodup : ((puts network gaps s).map Prod.snd).Nodup := by
    rw [map_snd_puts]
    exact hlogged.nodup
  rw [← hlogged.perm_newcomers.mem_iff, ← map_snd_puts, List.mem_map]
  constructor
  · rintro ⟨⟨depth, j⟩, hmem, rfl⟩
    refine ⟨depth, hmem, fun other hother => ?_⟩
    exact congrArg Prod.fst (List.inj_on_of_nodup_map hnodup hother hmem rfl)
  · rintro ⟨depth, hmem, -⟩
    exact ⟨(depth, j), hmem, rfl⟩

/-- A filling takes the nodes to which an open path leads from its list. -/
theorem Fills.mem_newcomers_iff (h : Fills network gaps start placed nodes cursor filling) :
    j ∈ newcomers placed filling.placed ↔
      ∃ i ∈ nodes, placed.get i = none ∧ network.Leads placed i j := by
  rw [mem_newcomers]
  constructor
  · rintro ⟨hfree, hplaced⟩
    obtain ⟨position, hposition⟩ := Option.ne_none_iff_exists'.mp hplaced
    exact h.exists_leads ⟨hfree, hposition⟩
  · rintro ⟨i, hi, hfree, hleads⟩
    exact ⟨Network.Leads.free hleads hfree, h.ne_none_of_leads hi hfree hleads⟩

/-! ## Cutting a placement -/

/-- A node that has a place could as well not be listed. -/
theorem puts_of_placed (h : placed.get i ≠ none) :
    puts network gaps ⟨placed, ⟨i :: pending, start, cursor, none⟩ :: outer, finish⟩ =
      puts network gaps ⟨placed, ⟨pending, start, cursor, none⟩ :: outer, finish⟩ := by
  have hput : put? ⟨placed, ⟨i :: pending, start, cursor, none⟩ :: outer, finish⟩ =
      put? ⟨placed, ⟨pending, start, cursor, none⟩ :: outer, finish⟩ := by
    simp only [put?, assignment?, skipPlaced_cons_of_placed h, List.tail_cons]
  rw [puts_of_step rfl, hput, advance_of_placed h]
  exact (puts_of_step rfl).symm

/-- A node without a place is put into the topmost column. -/
theorem puts_of_unplaced (h : placed.get i = none) :
    puts network gaps ⟨placed, ⟨i :: pending, start, cursor, none⟩ :: outer, finish⟩ =
      (outer.length, i) :: puts network gaps
        ⟨mark placed i cursor,
          openColumn (fresh network (mark placed i cursor) i) (rightOf network gaps i cursor) ::
            ⟨pending, start, cursor, some i⟩ :: outer, finish⟩ := by
  have hput : put? ⟨placed, ⟨i :: pending, start, cursor, none⟩ :: outer, finish⟩ =
      some (outer.length, i) := by
    simp only [put?, assignment?, skipPlaced_cons_of_unplaced h, Option.map_some, List.tail_cons]
  rw [puts_of_step rfl, hput, advance_of_unplaced h]
  rfl

/-- Nothing is put into a column that is at its end, and the column to the left of it goes on. -/
theorem puts_of_nil {begin finish' : Point α} :
    puts network gaps
        ⟨placed, ⟨[], begin, finish, none⟩ :: ⟨pending, start, cursor, some i⟩ :: outer, finish'⟩ =
      puts network gaps
        ⟨placed, ⟨pending, start, ⟨start.x, below network gaps i cursor finish⟩, none⟩ :: outer,
          finish⟩ := by
  rw [puts_of_step rfl]
  rfl

/-- What is put into columns by a filling comes before the rest of the placement, whatever is listed
after the filling and whatever columns are open to its left. -/
theorem exists_puts_of_fills (h : Fills network gaps start placed nodes cursor filling)
    (pending : List (Fin n)) (outer : List (Column α n)) (finish : Point α) :
    ∃ before finish',
      puts network gaps ⟨placed, ⟨nodes ++ pending, start, cursor, none⟩ :: outer, finish⟩ =
        before ++ puts network gaps
          ⟨filling.placed, ⟨pending, start, filling.finish, none⟩ :: outer, finish'⟩ := by
  induction h generalizing pending outer finish with
  | nil => exact ⟨[], finish, rfl⟩
  | skip hplaced _ ih =>
    obtain ⟨before, finish', hputs⟩ := ih pending outer finish
    exact ⟨before, finish', (puts_of_placed hplaced).trans hputs⟩
  | @visit start placed i nodes cursor inner _ hfree _ _ ihright ihrest =>
    -- the column to the right is at its end when its whole list has been passed
    obtain ⟨right, finish₁, hright⟩ :=
      ihright [] (⟨nodes ++ pending, start, cursor, some i⟩ :: outer) finish
    obtain ⟨rest, finish₂, hrest⟩ := ihrest pending outer inner.finish
    rw [List.append_nil] at hright
    refine ⟨(outer.length, i) :: (right ++ rest), finish₂, ?_⟩
    rw [List.cons_append, puts_of_unplaced hfree, openColumn, hright, puts_of_nil, hrest,
      List.cons_append, List.append_assoc]

/-! ## Nodes of the first column -/

/-- What is put where no column is open to the left is put into the first column. -/
theorem exists_putsInFirst_of_mem_puts
    (h : (0, i) ∈ puts network gaps (entry placed nodes start)) :
    ∃ before position, PutsInFirst network gaps placed nodes start before i position := by
  obtain ⟨s, hs, hput⟩ := List.mem_filterMap.mp h
  obtain ⟨⟨j, position⟩, hassigns, heq⟩ := Option.map_eq_some_iff.mp hput
  obtain ⟨htail, rfl⟩ := Prod.mk.inj heq
  obtain ⟨log, hpasses⟩ := exists_passes_of_mem_states hs
  refine ⟨s.placed, position, s, log, hpasses, rfl, ?_, hassigns⟩
  cases hstack : s.stack with
  | nil =>
    simp only [assignment?, hstack] at hassigns
    cases hassigns
  | cons column outer =>
    rw [hstack] at htail
    exact congrArg (· + 1) htail

/-- A node that is free when the first column arrives at it is put there. -/
theorem mem_puts_of_free (h : Fills network gaps start placed earlier start filling)
    (hfree : filling.placed.get i = none) :
    (0, i) ∈ puts network gaps (entry placed (earlier ++ i :: later) start) := by
  obtain ⟨before, finish, hputs⟩ := exists_puts_of_fills h (i :: later) [] start
  rw [puts_of_unplaced hfree] at hputs
  rw [entry, openColumn, hputs]
  exact List.mem_append_right before List.mem_cons_self

omit [Add α] [Max α] in
/-- What stands before the first occurrence of a node in a list is told by the list. -/
theorem eq_of_append_cons_eq {passed : List (Fin n)}
    (h : earlier ++ i :: later = passed ++ i :: pending) (hearlier : i ∉ earlier)
    (hpassed : i ∉ passed) : earlier = passed := by
  rcases List.append_eq_append_iff.mp h with ⟨_ | ⟨k, between⟩, rfl, hbetween⟩ |
    ⟨_ | ⟨k, between⟩, rfl, hbetween⟩
  · exact (List.append_nil earlier).symm
  · cases hbetween
    exact absurd (List.mem_append_right earlier List.mem_cons_self) hpassed
  · exact List.append_nil passed
  · cases hbetween
    exact absurd (List.mem_append_right passed List.mem_cons_self) hearlier

/-- A node of the list is put into the first column exactly if no open path leads to it from a node
that is listed before it. -/
theorem mem_puts_zero_iff (hi : i ∉ earlier) :
    (0, i) ∈ puts network gaps (entry placed (earlier ++ i :: later) start) ↔
      placed.get i = none ∧ ∀ j ∈ earlier, placed.get j = none → ¬ network.Leads placed j i := by
  constructor
  · intro h
    obtain ⟨before, position, hputs⟩ := exists_putsInFirst_of_mem_puts h
    obtain ⟨passed, pending, hwhole, hfree, hfills⟩ := hputs.exists_fills
    -- the column has arrived at `i` where it stands first, as it had no place until then
    have hpassed : i ∉ passed := fun hmem => hfills.ne_none_of_mem hmem hfree
    obtain rfl := eq_of_append_cons_eq hwhole hi hpassed
    refine ⟨hfills.get_eq_none hfree, fun j hj hj' hleads => ?_⟩
    exact hfills.ne_none_of_leads hj hj' hleads hfree
  · rintro ⟨hfree, hunreached⟩
    have hfills := fills_fill network gaps start placed earlier start
    refine mem_puts_of_free hfills ?_
    by_contra hplaced
    rcases hfills.ne_none_iff.mp hplaced with hbefore | ⟨j, hj, hj', hleads⟩
    · exact hbefore hfree
    · exact hunreached j hj hj' hleads

end Columns

/-- A placement takes exactly the nodes to which a path through nodes without a place leads from a
node of its list, and puts each of them into one column. A node of its list is put into the first
column exactly if no such path leads to it from a node listed before it. -/
theorem place_takes {α : Type} [Add α] [Max α] {n : Nat} (network : Network α n) (gaps : Gaps α)
    (placed : Vector (Option (Point α)) n) (nodes : List (Fin n)) (start : Point α) :
    let first := Columns.entry placed nodes start
    let last := Columns.place network gaps placed nodes start
    (∀ j, j ∈ Columns.newcomers placed last.placed ↔
        ∃ i ∈ nodes, placed.get i = none ∧ network.Leads placed i j) ∧
      (∀ j, j ∈ Columns.newcomers placed last.placed ↔
        ∃! depth, (depth, j) ∈ Columns.puts network gaps first) ∧
      ∀ earlier i later, nodes = earlier ++ i :: later → i ∉ earlier →
        ((0, i) ∈ Columns.puts network gaps first ↔
          placed.get i = none ∧ ∀ j ∈ earlier, placed.get j = none → ¬ network.Leads placed j i) := by
  intro first last
  refine ⟨fun j => ?_, fun j => ?_, ?_⟩
  · exact (Columns.fills_place network gaps placed nodes start).mem_newcomers_iff
  · exact Columns.mem_newcomers_iff_existsUnique network gaps first
  · rintro earlier i later rfl hi
    exact Columns.mem_puts_zero_iff hi

/-- Of the nodes that are listed, the third goes below the first, as nothing leads to the island. The
second does not, as the first leads to it. -/
theorem place_takes_tallRing :
    let first := Columns.entry #v[none, none, some ⟨0, 900⟩, none] [3, 0, 1] ⟨5, 7⟩
    (0, 1) ∈ Columns.puts tallRingNetwork .standard first ∧
      (0, 0) ∉ Columns.puts tallRingNetwork .standard first := by
  have htakes := (place_takes tallRingNetwork .standard
    #v[none, none, some ⟨0, 900⟩, none] [3, 0, 1] ⟨5, 7⟩).2.2
  have hisland : ∀ k, 1 ∉ tallRingNetwork.related.get k := by decide
  constructor
  · refine (htakes [3, 0] 1 [] rfl (by decide)).mpr ⟨rfl, fun j hj _ hleads => ?_⟩
    cases hleads with
    | refl => exact absurd hj (by decide)
    | tail _ hstep => exact hisland _ hstep.1
  · intro hput
    have hunreached := ((htakes [3] 0 [1] rfl (by decide)).mp hput).2
    exact hunreached 3 List.mem_cons_self rfl (.single ⟨by decide, rfl⟩)

end SchemaLayout
