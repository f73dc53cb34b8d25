import SchemaLayout.Proofs.Schema.Moving

/-!
# Schemas that grow

A schema grows if tables and relationships between the new tables are added to it. Tables may be
moved meanwhile, but no old table gets a relationship. `Extends` says what this comes to: the new
tables follow the old ones, of which nothing but where they are may have changed.
-/

namespace SchemaLayout.Schema

variable {s t t' : Schema} {id primary foreign : TableId} {added : List TableId}

/-! ## What the operations keep of a table -/

theorem tableIds_addTable (s : Schema) (table : Table) :
    (s.addTable table).1.tableIds = s.tableIds ++ [⟨s.nodes.size⟩] := by
  rw [tableIds, tableIds, size_addTable, List.range_succ, List.map_append]
  rfl

theorem table?_addTable_eq (s : Schema) (table : Table) (id : TableId) :
    (s.addTable table).1.table? id =
      if id.index = s.nodes.size then some table else s.table? id := by
  rw [table?_eq, table?_eq, node?_addTable]
  split <;> rfl

theorem table?_addTable (h : id ∈ s.tableIds) (table : Table) :
    (s.addTable table).1.table? id = s.table? id := by
  rw [table?_addTable_eq, if_neg (Nat.ne_of_lt (mem_tableIds.mp h))]

theorem tableIds_addRelationship (s : Schema) (primary foreign : TableId) :
    (s.addRelationship primary foreign).tableIds = s.tableIds := by
  rw [tableIds, tableIds, size_addRelationship]

theorem table?_addRelationship (s : Schema) (primary foreign id : TableId) :
    (s.addRelationship primary foreign).table? id = s.table? id := by
  rw [table?_eq, table?_eq, node?_addRelationship, Option.map_map]
  rfl

theorem exported_addRelationship_of_ne (h : primary ≠ id) :
    (s.addRelationship primary foreign).exported id = s.exported id := by
  rw [exported_eq, exported_eq]
  exact listOf_of_node? (node?_addRelationship ..) fun _ => if_neg h

theorem imported_addRelationship_of_ne (h : foreign ≠ id) :
    (s.addRelationship primary foreign).imported id = s.imported id := by
  rw [imported_eq, imported_eq]
  exact listOf_of_node? (node?_addRelationship ..) fun _ => if_neg h

/-! ## Growing -/

/-- A schema that comes from `s` by adding tables and relationships between added tables, and by
moving tables. -/
inductive Grows (s : Schema) : Schema → Prop
  | refl : Grows s s
  | addTable {t : Schema} (h : Grows s t) (table : Table) : Grows s (t.addTable table).1
  | addRelationship {t t' : Schema} (h : Grows s t) {primary foreign : TableId}
      (hprimary : primary ∉ s.tableIds) (hforeign : foreign ∉ s.tableIds)
      (hadd : t.addRelationship? primary foreign = some t') : Grows s t'
  | move {t t' : Schema} (h : Grows s t) {id : TableId} {position : Point}
      (hmove : t.move? id position = some t') : Grows s t'

theorem Grows.reachable (h : s.Grows t) (hs : s.Reachable) : t.Reachable := by
  induction h with
  | refl => exact hs
  | addTable _ table ih => exact ih.addTable table
  | addRelationship _ _ _ hadd ih => exact ih.addRelationship hadd
  | move _ hmove ih => exact ih.move hmove

/-- The tables of `t` are those of `s` and added ones, and those of `s` differ at most in their
positions. -/
structure Extends (s t : Schema) (added : List TableId) : Prop where
  tableIds : t.tableIds = s.tableIds ++ added
  name : ∀ id ∈ s.tableIds, (t.table? id).map (·.name) = (s.table? id).map (·.name)
  size : ∀ id ∈ s.tableIds, (t.table? id).map (·.size) = (s.table? id).map (·.size)
  exported : ∀ id ∈ s.tableIds, t.exported id = s.exported id
  imported : ∀ id ∈ s.tableIds, t.imported id = s.imported id

theorem Extends.refl (s : Schema) : Extends s s [] :=
  ⟨(List.append_nil _).symm, fun _ _ => rfl, fun _ _ => rfl, fun _ _ => rfl, fun _ _ => rfl⟩

theorem Extends.mem_tableIds (h : Extends s t added) (hid : id ∈ s.tableIds) :
    id ∈ t.tableIds := by
  rw [h.tableIds]
  exact List.mem_append_left added hid

/-- No added table is one of the old tables. -/
theorem Extends.disjoint (h : Extends s t added) : s.tableIds.Disjoint added := by
  have hnodup := t.nodup_tableIds
  rw [h.tableIds] at hnodup
  exact List.disjoint_of_nodup_append hnodup

theorem Extends.addTable (h : Extends s t added) (table : Table) :
    Extends s (t.addTable table).1 (added ++ [⟨t.nodes.size⟩]) := by
  refine ⟨?_, fun id hid => ?_, fun id hid => ?_, fun id hid => ?_, fun id hid => ?_⟩
  · rw [tableIds_addTable, h.tableIds, List.append_assoc]
  · rw [table?_addTable (h.mem_tableIds hid)]
    exact h.name id hid
  · rw [table?_addTable (h.mem_tableIds hid)]
    exact h.size id hid
  · rw [exported_addTable]
    exact h.exported id hid
  · rw [imported_addTable]
    exact h.imported id hid

theorem Extends.addRelationship (h : Extends s t added) (hprimary : primary ∉ s.tableIds)
    (hforeign : foreign ∉ s.tableIds) : Extends s (t.addRelationship primary foreign) added := by
  refine ⟨?_, fun id hid => ?_, fun id hid => ?_, fun id hid => ?_, fun id hid => ?_⟩
  · rw [tableIds_addRelationship]
    exact h.tableIds
  · rw [table?_addRelationship]
    exact h.name id hid
  · rw [table?_addRelationship]
    exact h.size id hid
  · rw [exported_addRelationship_of_ne (ne_of_mem_of_not_mem hid hprimary).symm]
    exact h.exported id hid
  · rw [imported_addRelationship_of_ne (ne_of_mem_of_not_mem hid hforeign).symm]
    exact h.imported id hid

theorem Extends.alike (h : Extends s t added) (halike : t.Alike t') : Extends s t' added :=
  ⟨halike.tableIds.symm.trans h.tableIds,
    fun id hid => (halike.name id).symm.trans (h.name id hid),
    fun id hid => (halike.size id).symm.trans (h.size id hid),
    fun id hid => (halike.exported id).symm.trans (h.exported id hid),
    fun id hid => (halike.imported id).symm.trans (h.imported id hid)⟩

/-- A schema that has grown extends the one from which it comes. -/
theorem Grows.exists_extends (h : s.Grows t) : ∃ added, Extends s t added := by
  induction h with
  | refl => exact ⟨[], .refl s⟩
  | addTable _ table ih =>
    obtain ⟨added, hextends⟩ := ih
    exact ⟨_, hextends.addTable table⟩
  | addRelationship _ hprimary hforeign hadd ih =>
    obtain ⟨added, hextends⟩ := ih
    obtain ⟨-, rfl⟩ := addRelationship?_eq_some_iff.mp hadd
    exact ⟨added, hextends.addRelationship hprimary hforeign⟩
  | move _ hmove ih =>
    obtain ⟨added, hextends⟩ := ih
    exact ⟨added, hextends.alike (alike_of_move? hmove)⟩

end SchemaLayout.Schema
