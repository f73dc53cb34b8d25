import Mathlib.Logic.Relation
import SchemaLayout.Proofs.Tree.Coverage

/-!
# What a filling reaches

A filling places exactly the nodes to which a path leads from a node of its list, if none of the
nodes on that path had a place before: a node that has one shuts off what lies behind it, and
nothing else does.

A column can be cut between any two of its nodes. `filledTo` is what has been placed when the
column arrives at the cut, and the column goes on from there as a filling of its own.
-/

namespace SchemaLayout

section

variable {α : Type} {n : Nat} {network : Network α n} {placed placed' : Vector (Option (Point α)) n}
  {i j k : Fin n}

/-- A path of related nodes leads from one node to another, and none of the nodes after its first
has a place. -/
def Network.Leads (network : Network α n) (placed : Vector (Option (Point α)) n) :
    Fin n → Fin n → Prop :=
  Relation.ReflTransGen fun k l => l ∈ network.related.get k ∧ placed.get l = none

/-- A path of related nodes leads from one node to another. -/
def Network.Reaches (network : Network α n) : Fin n → Fin n → Prop :=
  Relation.ReflTransGen fun k l => l ∈ network.related.get k

theorem Network.Reaches.refl (network : Network α n) (i : Fin n) : network.Reaches i i :=
  Relation.ReflTransGen.refl

theorem Network.Reaches.trans (h : network.Reaches i j) (h' : network.Reaches j k) :
    network.Reaches i k :=
  Relation.ReflTransGen.trans h h'

/-- Where less is placed more paths are open. -/
theorem Network.Leads.mono (hfree : ∀ k, placed.get k = none → placed'.get k = none)
    (h : network.Leads placed i j) : network.Leads placed' i j :=
  Relation.ReflTransGen.mono (fun _ l hstep => ⟨hstep.1, hfree l hstep.2⟩) _ _ h

/-- Where nothing is placed all paths are open. -/
theorem Network.leads_replicate :
    network.Leads (.replicate n none) i j ↔ network.Reaches i j := by
  constructor
  · intro h
    exact Relation.ReflTransGen.mono (fun _ _ hstep => hstep.1) _ _ h
  · intro h
    exact Relation.ReflTransGen.mono (fun _ l hstep => ⟨hstep, Columns.get_replicate_none l⟩) _ _ h

/-- The end of an open path has no place, if its beginning has none. -/
theorem Network.Leads.free (h : network.Leads placed i j) (hi : placed.get i = none) :
    placed.get j = none := by
  cases h with
  | refl => exact hi
  | tail _ hstep => exact hstep.2

end

namespace Columns

variable {α : Type} [Add α] [Max α] {n : Nat} {network : Network α n} {gaps : Gaps α}
  {start cursor : Point α} {placed : Vector (Option (Point α)) n} {i j : Fin n}
  {nodes : List (Fin n)} {filling : Filling α n}

/-! ## Open paths -/

/-- An open path leads from some node of the list to each node that is placed. -/
theorem Fills.exists_leads (h : Fills network gaps start placed nodes cursor filling)
    {position : Point α} (hj : Adds placed filling.placed j position) :
    ∃ i ∈ nodes, placed.get i = none ∧ network.Leads placed i j := by
  induction h with
  | nil => exact absurd hj not_adds_self
  | skip _ _ ih =>
    obtain ⟨i, hi, hfree, hleads⟩ := ih hj
    exact ⟨i, List.mem_cons_of_mem _ hi, hfree, hleads⟩
  | @visit _ placed k _ cursor inner _ hfree right rest ihright ihrest =>
    rcases adds_visit right rest hj with ⟨rfl, -⟩ | hj | hj
    · exact ⟨j, List.mem_cons_self, hfree, .refl⟩
    · -- the path begins at a node related to `k`, so it can be begun at `k`
      obtain ⟨i, hi, hmark, hleads⟩ := ihright hj
      have hopen : ∀ l, (mark placed k cursor).get l = none → placed.get l = none := fun l hl =>
        (get_eq_none_of_mark hl).2
      refine ⟨k, List.mem_cons_self, hfree, ?_⟩
      exact .head ⟨(mem_fresh.mp hi).1, hopen i hmark⟩ (hleads.mono hopen)
    · -- what is open after the visit was open before
      obtain ⟨i, hi, hinner, hleads⟩ := ihrest hj
      have hopen : ∀ l, inner.placed.get l = none → placed.get l = none := fun l hl =>
        (get_eq_none_of_mark (right.get_eq_none hl)).2
      exact ⟨i, List.mem_cons_of_mem _ hi, hopen i hinner, hleads.mono hopen⟩

/-- Nothing is left out to which an open path leads from a node of the list. -/
theorem Fills.ne_none_of_leads (h : Fills network gaps start placed nodes cursor filling)
    (hi : i ∈ nodes) (hfree : placed.get i = none) (hleads : network.Leads placed i j) :
    filling.placed.get j ≠ none := by
  induction hleads with
  | refl => exact h.ne_none_of_mem hi
  | tail hprefix hstep ih =>
    exact h.ne_none_of_related (Network.Leads.free hprefix hfree) ih hstep.1

/-- What has a place after a filling had one before, or an open path leads there from a node of the
list. -/
theorem Fills.ne_none_iff (h : Fills network gaps start placed nodes cursor filling) :
    filling.placed.get j ≠ none ↔ placed.get j ≠ none ∨
      ∃ i ∈ nodes, placed.get i = none ∧ network.Leads placed i j := by
  constructor
  · intro hj
    by_cases hfree : placed.get j = none
    · obtain ⟨position, hposition⟩ := Option.ne_none_iff_exists'.mp hj
      exact .inr (h.exists_leads ⟨hfree, hposition⟩)
    · exact .inl hfree
  · rintro (hj | ⟨i, hi, hfree, hleads⟩)
    · exact fun hnone => hj (h.get_eq_none hnone)
    · exact h.ne_none_of_leads hi hfree hleads

/-! ## Cutting a column -/

/-- A column goes on with a second list where it has ended with a first one. -/
theorem Fills.append {nodes' : List (Fin n)} {filling' : Filling α n}
    (h : Fills network gaps start placed nodes cursor filling)
    (h' : Fills network gaps start filling.placed nodes' filling.finish filling') :
    Fills network gaps start placed (nodes ++ nodes') cursor filling' := by
  induction h with
  | nil => exact h'
  | skip hplaced _ ih => exact .skip hplaced (ih h')
  | visit hfree right _ _ ihrest => exact .visit hfree right (ihrest h')

/-- A column is filled with two lists one after the other. -/
theorem fill_append (start : Point α) (placed : Vector (Option (Point α)) n)
    (nodes nodes' : List (Fin n)) (cursor : Point α) :
    fill network gaps start placed (nodes ++ nodes') cursor =
      let first := fill network gaps start placed nodes cursor
      fill network gaps start first.placed nodes' first.finish :=
  ((fills_fill ..).append (fills_fill ..)).eq_fill.symm

/-- What is placed when a column has passed the first `k` nodes of its list. -/
def filledTo (network : Network α n) (gaps : Gaps α) (start : Point α)
    (placed : Vector (Option (Point α)) n) (nodes : List (Fin n)) (k : Nat) : Filling α n :=
  fill network gaps start placed (nodes.take k) start

/-- A column goes on from one cut to a later one. -/
theorem fills_filledTo {a b : Nat} (hab : a ≤ b) :
    Fills network gaps start (filledTo network gaps start placed nodes a).placed
      ((nodes.take b).drop a) (filledTo network gaps start placed nodes a).finish
      (filledTo network gaps start placed nodes b) := by
  have hcut : nodes.take a ++ (nodes.take b).drop a = nodes.take b := by
    have happend := List.take_append_drop a (nodes.take b)
    rwa [List.take_take, Nat.min_eq_left hab] at happend
  have hfill : filledTo network gaps start placed nodes b =
      fill network gaps start (filledTo network gaps start placed nodes a).placed
        ((nodes.take b).drop a) (filledTo network gaps start placed nodes a).finish :=
    (congrArg (fill network gaps start placed · start) hcut.symm).trans (fill_append ..)
  rw [hfill]
  exact fills_fill ..

/-- A filling has passed its whole list. -/
theorem Fills.eq_filledTo (h : Fills network gaps start placed nodes start filling) :
    filling = filledTo network gaps start placed nodes nodes.length := by
  rw [filledTo, List.take_length]
  exact h.eq_fill

/-- The cursor of a column stays above and below its start. -/
theorem Fills.finish_x (h : Fills network gaps start placed nodes cursor filling)
    (hx : start.x = cursor.x) : filling.finish.x = start.x := by
  induction h with
  | nil => exact hx.symm
  | skip _ _ ih => exact ih hx
  | visit _ _ _ _ ihrest => exact ihrest rfl

end Columns

end SchemaLayout
