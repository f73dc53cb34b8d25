import Mathlib.Data.List.Nodup
import SchemaLayout.Proofs.Diagram.Lawful
import SchemaLayout.Proofs.Schema.Reachable
import SchemaLayout.Schema.Fragile

/-!
# Moving tables

Moving a table changes where this table is and nothing else. `Alike` relates schemas that differ at
most in the positions of their tables, which is all that an animation may change, and `Moved` says
where the tables are after some of them have been moved, each to a position of its own.
-/

namespace SchemaLayout

namespace Schema

variable {schema s t u : Schema} {id other : TableId} {ids : List TableId} {position : Point}
  {place : TableId → Point}

theorem mem_tableIds : id ∈ schema.tableIds ↔ id.index < schema.nodes.size := by
  rw [tableIds, List.mem_map]
  constructor
  · rintro ⟨index, hindex, rfl⟩
    exact List.mem_range.mp hindex
  · intro h
    exact ⟨id.index, List.mem_range.mpr h, rfl⟩

theorem nodup_tableIds (schema : Schema) : schema.tableIds.Nodup := by
  refine List.Nodup.map ?_ List.nodup_range
  intro i j h
  exact congrArg TableId.index h

theorem table?_eq (schema : Schema) (id : TableId) :
    schema.table? id = (schema.node? id).map (·.table) :=
  rfl

theorem position?_eq (schema : Schema) (id : TableId) :
    Diagram.position? schema id = (schema.table? id).map (·.position) :=
  rfl

theorem size?_eq (schema : Schema) (id : TableId) :
    Diagram.size? schema id = (schema.table? id).map (·.size) :=
  rfl

/-- The tables of a schema are those that are listed. -/
theorem exists_table?_of_mem (h : id ∈ schema.tableIds) :
    ∃ table, schema.table? id = some table := by
  have hsome := node?_isSome_iff.mpr (mem_tableIds.mp h)
  obtain ⟨node, hnode⟩ := Option.isSome_iff_exists.mp hsome
  exact ⟨node.table, by rw [table?_eq, hnode]; rfl⟩

theorem exists_position?_of_mem (h : id ∈ schema.tableIds) :
    ∃ position, Diagram.position? schema id = some position := by
  obtain ⟨table, htable⟩ := exists_table?_of_mem h
  exact ⟨table.position, by rw [position?_eq, htable]; rfl⟩

theorem exists_size?_of_mem (h : id ∈ schema.tableIds) :
    ∃ size, Diagram.size? schema id = some size := by
  obtain ⟨table, htable⟩ := exists_table?_of_mem h
  exact ⟨table.size, by rw [size?_eq, htable]; rfl⟩

/-- What has a size is a table of the schema. -/
theorem mem_tableIds_of_size? {size : Size} (h : Diagram.size? schema id = some size) :
    id ∈ schema.tableIds := by
  rw [size?_eq] at h
  obtain ⟨table, htable, -⟩ := Option.map_eq_some_iff.mp h
  obtain ⟨node, hnode, -⟩ := Option.map_eq_some_iff.mp htable
  exact mem_tableIds.mpr (node?_isSome_iff.mp (Option.isSome_of_eq_some hnode))

/-! ## Schemas that differ in positions -/

/-- Two schemas that differ at most in the positions of their tables. -/
structure Alike (s t : Schema) : Prop where
  tableIds : s.tableIds = t.tableIds
  name : ∀ id, (s.table? id).map (·.name) = (t.table? id).map (·.name)
  size : ∀ id, (s.table? id).map (·.size) = (t.table? id).map (·.size)
  exported : ∀ id, s.exported id = t.exported id
  imported : ∀ id, s.imported id = t.imported id

theorem Alike.refl (s : Schema) : Alike s s :=
  ⟨rfl, fun _ => rfl, fun _ => rfl, fun _ => rfl, fun _ => rfl⟩

theorem Alike.trans (h : Alike s t) (h' : Alike t u) : Alike s u :=
  ⟨h.tableIds.trans h'.tableIds, fun id => (h.name id).trans (h'.name id),
    fun id => (h.size id).trans (h'.size id), fun id => (h.exported id).trans (h'.exported id),
    fun id => (h.imported id).trans (h'.imported id)⟩

/-! ## Moving one table -/

theorem isSome_move?_iff : (schema.move? id position).isSome ↔ id ∈ schema.tableIds := by
  rw [mem_tableIds, move?]
  split <;> simp [*]

/-- Every listed table can be moved. -/
theorem exists_move? (h : id ∈ schema.tableIds) (position : Point) :
    ∃ t, schema.move? id position = some t :=
  Option.isSome_iff_exists.mp (isSome_move?_iff.mpr h)

theorem table?_of_move? (h : schema.move? id position = some t) (other : TableId) :
    t.table? other = (schema.table? other).map fun table =>
      if id = other then { table with position := position } else table := by
  rw [table?_eq, table?_eq, node?_of_move? h]
  cases schema.node? other with
  | none => rfl
  | some node => by_cases ho : id = other <;> simp [ho]

/-- What does not depend on the position of a table is kept. -/
theorem map_table?_of_move? {β : Type} {f : Table → β}
    (hf : ∀ table : Table, f { table with position := position } = f table)
    (h : schema.move? id position = some t) (other : TableId) :
    (t.table? other).map f = (schema.table? other).map f := by
  rw [table?_of_move? h, Option.map_map]
  refine Option.map_congr fun table _ => ?_
  by_cases ho : id = other
  · rw [Function.comp_apply, if_pos ho, hf]
  · rw [Function.comp_apply, if_neg ho]

theorem alike_of_move? (h : schema.move? id position = some t) : Alike schema t := by
  refine ⟨?_, fun other => ?_, fun other => ?_, fun other => ?_, fun other => ?_⟩
  · rw [tableIds, tableIds, size_of_move? h]
  · exact (map_table?_of_move? (fun _ => rfl) h other).symm
  · exact (map_table?_of_move? (fun _ => rfl) h other).symm
  · exact (exported_of_move? h other).symm
  · exact (imported_of_move? h other).symm

theorem position?_of_move?_self (h : schema.move? id position = some t) :
    Diagram.position? t id = some position := by
  have hid : id ∈ schema.tableIds := isSome_move?_iff.mp (by rw [h]; rfl)
  obtain ⟨table, htable⟩ := exists_table?_of_mem hid
  rw [position?_eq, table?_of_move? h, htable, Option.map_some, if_pos rfl]
  rfl

theorem position?_of_move?_of_ne (h : schema.move? id position = some t) (hne : other ≠ id) :
    Diagram.position? t other = Diagram.position? schema other := by
  rw [position?_eq, position?_eq, table?_of_move? h]
  simp only [if_neg hne.symm, Option.map_id']

instance : LawfulDiagram Schema where
  isSome_move? schema id position := by
    rw [Bool.eq_iff_iff, position?_eq, table?_eq, Option.isSome_map, Option.isSome_map,
      node?_isSome_iff, ← mem_tableIds]
    exact isSome_move?_iff
  position?_self h := position?_of_move?_self h
  position?_of_ne h hne := position?_of_move?_of_ne h hne

/-- A table is moved to where it is by doing nothing. -/
theorem move?_self (h : Diagram.position? schema id = some position) :
    schema.move? id position = some schema := by
  obtain ⟨nodes, names⟩ := schema
  rw [position?_eq, table?_eq, Option.map_map] at h
  obtain ⟨node, hnode, rfl⟩ := Option.map_eq_some_iff.mp h
  have hindex : id.index < nodes.size := node?_isSome_iff.mp (Option.isSome_of_eq_some hnode)
  unfold move?
  rw [if_pos hindex]
  refine congrArg (fun nodes => some (Schema.mk nodes names)) (Array.ext_getElem? fun i => ?_)
  rw [Array.getElem?_modify]
  by_cases hi : id.index = i
  · subst hi
    rw [if_pos rfl, show nodes[id.index]? = some node from hnode]
    rfl
  · rw [if_neg hi]

/-! ## Moving many tables -/

/-- A schema after some of its tables have been moved. -/
structure Moved (place : TableId → Point) (ids : List TableId) (s t : Schema) : Prop where
  alike : Alike s t
  placed : ∀ id ∈ ids, Diagram.position? t id = some (place id)
  kept : ∀ id ∉ ids, Diagram.position? t id = Diagram.position? s id

/-- Moving the same tables once more overrides where they have been moved. -/
theorem Moved.trans {place' : TableId → Point} (h : Moved place ids s t)
    (h' : Moved place' ids t u) : Moved place' ids s u :=
  ⟨h.alike.trans h'.alike, h'.placed, fun id hid => (h'.kept id hid).trans (h.kept id hid)⟩

/-- Listed tables can be moved one after the other, a table that is named twice to the same
position both times. -/
theorem exists_moveAll (hids : ∀ id ∈ ids, id ∈ s.tableIds) (place : TableId → Point) :
    ∃ t, Animation.moveAll s (ids.map fun id => (id, place id)) = .ok t ∧ Moved place ids s t := by
  obtain ⟨t, hmove, hrearranges⟩ := Animation.exists_rearranges_map (fun id hid =>
    Option.isSome_iff_exists.mpr (exists_position?_of_mem (hids id hid))) place
  refine ⟨t, hmove, ?_, hrearranges.placed_of_mem, hrearranges.kept_of_notMem⟩
  exact Animation.moveAll_induction (fun halike hmove => halike.trans (alike_of_move? hmove))
    (.refl s) hmove

/-- Tables that are where they are to go are moved by doing nothing. -/
theorem moveAll_self {assignments : List (TableId × Point)}
    (h : ∀ assignment ∈ assignments, Diagram.position? s assignment.1 = some assignment.2) :
    Animation.moveAll s assignments = .ok s := by
  induction assignments with
  | nil => rfl
  | cons assignment rest ih =>
    rw [Animation.moveAll_cons (move?_self (h assignment List.mem_cons_self))]
    exact ih fun other hother => h other (List.mem_cons_of_mem _ hother)

end Schema

/-! ## Moving tables of a fragile schema -/

namespace FragileSchema

variable {fragile : FragileSchema}

theorem move?_eq_some_iff {next : FragileSchema} {id : TableId} {position : Point} :
    Diagram.move? fragile id position = some next ↔
      ∃ t, fragile.schema.move? id position = some t ∧ { fragile with schema := t } = next :=
  Option.map_eq_some_iff

instance : LawfulDiagram FragileSchema where
  isSome_move? fragile id position := by
    refine Eq.trans ?_ (LawfulDiagram.isSome_move? fragile.schema id position)
    exact Option.isSome_map
  position?_self h := by
    obtain ⟨t, ht, rfl⟩ := move?_eq_some_iff.mp h
    exact Schema.position?_of_move?_self ht
  position?_of_ne h hne := by
    obtain ⟨t, ht, rfl⟩ := move?_eq_some_iff.mp h
    exact Schema.position?_of_move?_of_ne ht hne

/-- Listed tables can be moved one after the other, whatever cannot be read of them. -/
theorem exists_moveAll {ids : List TableId} (hids : ∀ id ∈ ids, id ∈ fragile.schema.tableIds)
    (place : TableId → Point) :
    ∃ t, Animation.moveAll fragile (ids.map fun id => (id, place id)) =
        .ok { fragile with schema := t } ∧ fragile.schema.Moved place ids t := by
  have hheld : ∀ id ∈ ids, (Diagram.position? fragile id).isSome := fun id hid =>
    Option.isSome_iff_exists.mpr (Schema.exists_position?_of_mem (hids id hid))
  obtain ⟨next, hmove, hrearranges⟩ := Animation.exists_rearranges_map hheld place
  -- what cannot be read is not touched, and the schema changes in positions only
  obtain ⟨halike, hfailures⟩ := Animation.moveAll_induction
    (P := fun later => fragile.schema.Alike later.schema ∧ later.failures = fragile.failures)
    (fun hbefore hmove => by
      obtain ⟨t, ht, rfl⟩ := move?_eq_some_iff.mp hmove
      exact ⟨hbefore.1.trans (Schema.alike_of_move? ht), hbefore.2⟩)
    ⟨.refl _, rfl⟩ hmove
  obtain ⟨t, failures⟩ := next
  obtain rfl : failures = fragile.failures := hfailures
  exact ⟨t, hmove, halike, hrearranges.placed_of_mem, hrearranges.kept_of_notMem⟩

end FragileSchema

end SchemaLayout
