import Mathlib.Data.List.Induction
import SchemaLayout.Proofs.Schema.Growth

/-!
# Histories

A schema knows nothing of the edits by which it was made, but everything that it says can be told
from them: which tables there are, where they have been put last, which of them has been added last
under a name, and which relationships begin and end at each of them. `Records` states this law, and
`records_of_ofEdits?` shows that it holds after any edits, since every single edit keeps it.

An edit may name only tables that have been added before; histories all of whose edits do so are
proper, and these are the ones that lead to a schema. Every schema that can be reached has a
history (`reachable_iff_exists_edits`), so the law is one about all of them.
-/

namespace SchemaLayout.Schema

/-! ## Edits -/

/-- A relationship, from a table to one that refers to it. -/
structure Relationship where
  primary : TableId
  foreign : TableId
deriving DecidableEq

/-- What can be done to a schema. -/
inductive Edit where
  | addTable (table : Table)
  | relate (relationship : Relationship)
  | move (id : TableId) (position : Point)

/-- A schema after an edit, if it holds the tables that the edit names. -/
def edit? (schema : Schema) : Edit → Option Schema
  | .addTable table => some (schema.addTable table).1
  | .relate ⟨primary, foreign⟩ => schema.addRelationship? primary foreign
  | .move id position => schema.move? id position

/-- The schema that edits make of the empty one, if each of them can be carried out. -/
def ofEdits? (edits : List Edit) : Option Schema := edits.foldlM edit? empty

/-- The tables that an edit names. -/
def Edit.names : Edit → List TableId
  | .addTable _ => []
  | .relate ⟨primary, foreign⟩ => [primary, foreign]
  | .move id _ => [id]

/-- The table that an edit adds. -/
def Edit.table? : Edit → Option Table
  | .addTable table => some table
  | _ => none

/-- The relationship that an edit adds. -/
def Edit.relationship? : Edit → Option Relationship
  | .relate relationship => some relationship
  | _ => none

/-- The position to which an edit moves a table. -/
def Edit.position? (id : TableId) : Edit → Option Point
  | .move other position => if other = id then some position else none
  | _ => none

/-! ## What a history tells -/

/-- The tables that have been added, in order. -/
def tablesOf (edits : List Edit) : List Table := edits.filterMap Edit.table?

/-- The relationships that have been added, in order. -/
def relationshipsOf (edits : List Edit) : List Relationship := edits.filterMap Edit.relationship?

/-- The positions to which a table has been moved, in order. -/
def positionsOf (edits : List Edit) (id : TableId) : List Point :=
  edits.filterMap (Edit.position? id)

/-- A table with the name and size with which it has been added, where it has been put last. -/
def tableOf? (edits : List Edit) (id : TableId) : Option Table :=
  (tablesOf edits)[id.index]?.map fun table =>
    { table with position := (positionsOf edits id).getLastD table.position }

/-- Of the tables that have been added under a name, `id` is the last. -/
structure IsLastNamed (tables : List Table) (name : String) (id : TableId) : Prop where
  named : ∃ table, tables[id.index]? = some table ∧ table.name = name
  last : ∀ index table, id.index < index → tables[index]? = some table → table.name ≠ name

/-- Each edit names only tables that have been added before. -/
def Proper (edits : List Edit) : Prop :=
  ∀ k, ∀ h : k < edits.length, ∀ id ∈ edits[k].names,
    id.index < (tablesOf (edits.take k)).length

instance (edits : List Edit) : Decidable (Proper edits) := Nat.decidableBallLT ..

/-- A schema says what a history tells. -/
structure Records (edits : List Edit) (schema : Schema) : Prop where
  size : schema.nodes.size = (tablesOf edits).length
  table?_eq : ∀ id, schema.table? id = tableOf? edits id
  findTable?_eq_some_iff : ∀ name id,
    schema.findTable? name = some id ↔ IsLastNamed (tablesOf edits) name id
  exported_eq : ∀ id,
    schema.exported id = ((relationshipsOf edits).filter (·.primary = id)).map (·.foreign)
  imported_eq : ∀ id,
    schema.imported id = ((relationshipsOf edits).filter (·.foreign = id)).map (·.primary)
  /-- Nothing has been moved that is not a table. -/
  unmoved : ∀ id, (tablesOf edits).length ≤ id.index → positionsOf edits id = []

section

variable {edits : List Edit} {edit : Edit} {schema next : Schema} {tables : List Table}
  {table : Table} {name : String} {id : TableId} {position : Point} {relationship : Relationship}

/-! ### One more edit -/

theorem tablesOf_concat (edits : List Edit) (edit : Edit) :
    tablesOf (edits ++ [edit]) = tablesOf edits ++ edit.table?.toList := by
  cases edit <;> exact List.filterMap_append

theorem relationshipsOf_concat (edits : List Edit) (edit : Edit) :
    relationshipsOf (edits ++ [edit]) = relationshipsOf edits ++ edit.relationship?.toList := by
  cases edit <;> exact List.filterMap_append

theorem positionsOf_concat (edits : List Edit) (edit : Edit) (id : TableId) :
    positionsOf (edits ++ [edit]) id = positionsOf edits id ++ (edit.position? id).toList := by
  cases h : edit.position? id <;> simp [positionsOf, h]

theorem getElem?_concat {α : Type} (xs : List α) (x : α) (k : Nat) :
    (xs ++ [x])[k]? = if k = xs.length then some x else xs[k]? := by
  grind

/-- A table that is added is the last under its name, and changes nothing for other names. -/
theorem isLastNamed_concat : IsLastNamed (tables ++ [table]) name id ↔
    if table.name = name then id.index = tables.length else IsLastNamed tables name id := by
  have hadded : (tables ++ [table])[tables.length]? = some table := List.getElem?_concat_length
  constructor
  · rintro ⟨⟨found, hfound, hname⟩, hlast⟩
    have hlt : id.index < tables.length + 1 := by
      simpa using (List.getElem?_eq_some_iff.mp hfound).1
    split <;> rename_i hnew
    · by_contra hne
      exact hlast tables.length table (by omega) hadded hnew
    · have hne : id.index ≠ tables.length := by
        intro heq
        rw [heq, hadded] at hfound
        cases hfound
        exact hnew hname
      rw [getElem?_concat, if_neg hne] at hfound
      refine ⟨⟨found, hfound, hname⟩, fun index other hindex hother => ?_⟩
      refine hlast index other hindex ?_
      rwa [List.getElem?_append_left (List.getElem?_eq_some_iff.mp hother).1]
  · intro h
    split at h <;> rename_i hnew
    · refine ⟨⟨table, h ▸ hadded, hnew⟩, fun index other hindex hother => ?_⟩
      have hlt := (List.getElem?_eq_some_iff.mp hother).1
      rw [List.length_append, List.length_singleton] at hlt
      omega
    · obtain ⟨⟨found, hfound, hname⟩, hlast⟩ := h
      refine ⟨⟨found, ?_, hname⟩, fun index other hindex hother => ?_⟩
      · rwa [List.getElem?_append_left (List.getElem?_eq_some_iff.mp hfound).1]
      · rw [getElem?_concat] at hother
        split at hother
        · cases hother
          exact hnew
        · exact hlast index other hindex hother

/-- Under every name under which tables have been added, one of them is the last. -/
theorem exists_isLastNamed (hmem : table ∈ tables) : ∃ id, IsLastNamed tables table.name id := by
  induction tables using List.reverseRecOn with
  | nil => exact absurd hmem List.not_mem_nil
  | append_singleton tables added ih =>
    by_cases hname : added.name = table.name
    · exact ⟨⟨tables.length⟩, isLastNamed_concat.mpr (by rw [if_pos hname])⟩
    · have hold : table ∈ tables := by
        refine (List.mem_append.mp hmem).resolve_right fun hadded => hname ?_
        rw [List.mem_singleton.mp hadded]
      obtain ⟨id, hid⟩ := ih hold
      exact ⟨id, isLastNamed_concat.mpr (by rwa [if_neg hname])⟩

/-! ## Which edits can be carried out -/

theorem exists_edit?_eq_some_iff :
    (∃ next, schema.edit? edit = some next) ↔ ∀ id ∈ edit.names, id.index < schema.nodes.size := by
  cases edit <;> simp [edit?, Edit.names, addRelationship?, move?]

theorem proper_concat :
    Proper (edits ++ [edit]) ↔
      Proper edits ∧ ∀ id ∈ edit.names, id.index < (tablesOf edits).length := by
  constructor
  · intro h
    constructor
    · intro k hk id hid
      have hconcat := h k (by simp; omega) id
      rw [List.getElem_append_left hk, List.take_append_of_le_length (by omega)] at hconcat
      exact hconcat hid
    · have hlast := h edits.length (by simp)
      simpa using hlast
  · rintro ⟨h, hedit⟩ k hk id hid
    rcases Nat.lt_succ_iff_lt_or_eq.mp (by simpa using hk) with hlt | rfl
    · rw [List.getElem_append_left hlt] at hid
      rw [List.take_append_of_le_length (by omega)]
      exact h k hlt id hid
    · simpa using hedit id (by simpa using hid)

/-! ## One edit keeps the law -/

theorem records_empty : Records [] empty := by
  refine ⟨rfl, fun id => rfl, fun name id => ?_, fun id => rfl, fun id => rfl, fun id _ => rfl⟩
  constructor
  · intro h
    exact absurd h (by simp [findTable?, empty])
  · rintro ⟨⟨table, htable, -⟩, -⟩
    exact absurd htable (by simp [tablesOf])

theorem Records.addTable (h : Records edits schema) (table : Table) :
    Records (edits ++ [.addTable table]) (schema.addTable table).1 := by
  have htables : tablesOf (edits ++ [.addTable table]) = tablesOf edits ++ [table] :=
    tablesOf_concat ..
  have hrelationships : relationshipsOf (edits ++ [.addTable table]) = relationshipsOf edits := by
    simp [relationshipsOf_concat, Edit.relationship?]
  have hpositions (id) : positionsOf (edits ++ [.addTable table]) id = positionsOf edits id := by
    simp [positionsOf_concat, Edit.position?]
  refine ⟨?_, fun id => ?_, fun name id => ?_, fun id => ?_, fun id => ?_, fun id hid => ?_⟩
  · rw [size_addTable, htables, h.size]
    simp
  · rw [table?_addTable_eq, tableOf?, htables, hpositions, getElem?_concat, h.size, h.table?_eq]
    split <;> rename_i hid
    · -- a table that has just been added is where it has been added
      rw [h.unmoved id (Nat.le_of_eq hid.symm)]
      rfl
    · rfl
  · rw [findTable?_addTable, htables, isLastNamed_concat, h.size]
    split
    · rw [Option.some.injEq, ← index_inj, eq_comm]
    · exact h.findTable?_eq_some_iff name id
  · rw [exported_addTable, hrelationships]
    exact h.exported_eq id
  · rw [imported_addTable, hrelationships]
    exact h.imported_eq id
  · rw [htables, List.length_append] at hid
    rw [hpositions]
    exact h.unmoved id (by omega)

theorem Records.relate (h : Records edits schema) {primary foreign : TableId}
    (hprimary : primary.index < schema.nodes.size) (hforeign : foreign.index < schema.nodes.size) :
    Records (edits ++ [.relate ⟨primary, foreign⟩]) (schema.addRelationship primary foreign) := by
  have htables : tablesOf (edits ++ [.relate ⟨primary, foreign⟩]) = tablesOf edits := by
    simp [tablesOf_concat, Edit.table?]
  have hrelationships : relationshipsOf (edits ++ [.relate ⟨primary, foreign⟩]) =
      relationshipsOf edits ++ [⟨primary, foreign⟩] := relationshipsOf_concat ..
  have hpositions (id) :
      positionsOf (edits ++ [.relate ⟨primary, foreign⟩]) id = positionsOf edits id := by
    simp [positionsOf_concat, Edit.position?]
  refine ⟨?_, fun id => ?_, fun name id => ?_, fun id => ?_, fun id => ?_, fun id hid => ?_⟩
  · rw [size_addRelationship, htables, h.size]
  · rw [table?_addRelationship, h.table?_eq, tableOf?, tableOf?, htables, hpositions]
  · rw [htables]
    exact h.findTable?_eq_some_iff name id
  · rw [exported_addRelationship hprimary, h.exported_eq, hrelationships, List.filter_append,
      List.map_append]
    by_cases hid : primary = id <;> simp [hid]
  · rw [imported_addRelationship hforeign, h.imported_eq, hrelationships, List.filter_append,
      List.map_append]
    by_cases hid : foreign = id <;> simp [hid]
  · rw [htables] at hid
    rw [hpositions]
    exact h.unmoved id hid

theorem Records.move (h : Records edits schema) (hid : id.index < schema.nodes.size)
    (hmove : schema.move? id position = some next) :
    Records (edits ++ [.move id position]) next := by
  have htables : tablesOf (edits ++ [.move id position]) = tablesOf edits := by
    simp [tablesOf_concat, Edit.table?]
  have hrelationships : relationshipsOf (edits ++ [.move id position]) = relationshipsOf edits := by
    simp [relationshipsOf_concat, Edit.relationship?]
  have hpositions (other) : positionsOf (edits ++ [.move id position]) other =
      positionsOf edits other ++ if id = other then [position] else [] := by
    by_cases hother : id = other <;> simp [positionsOf_concat, Edit.position?, hother]
  refine ⟨?_, fun other => ?_, fun name other => ?_, fun other => ?_, fun other => ?_,
    fun other hother => ?_⟩
  · rw [size_of_move? hmove, htables, h.size]
  · rw [table?_of_move? hmove, h.table?_eq, tableOf?, tableOf?, htables, hpositions,
      Option.map_map]
    refine Option.map_congr fun table _ => ?_
    by_cases hother : id = other <;> simp [hother]
  · rw [findTable?_of_move? hmove, htables]
    exact h.findTable?_eq_some_iff name other
  · rw [exported_of_move? hmove, hrelationships]
    exact h.exported_eq other
  · rw [imported_of_move? hmove, hrelationships]
    exact h.imported_eq other
  · rw [htables, ← h.size] at hother
    have hne : id ≠ other := by
      rintro rfl
      omega
    rw [hpositions, if_neg hne, List.append_nil]
    exact h.unmoved other (h.size ▸ hother)

/-- Whatever is done next, the schema says what the longer history tells. -/
theorem Records.step (h : Records edits schema) (hedit : schema.edit? edit = some next) :
    Records (edits ++ [edit]) next := by
  cases edit with
  | addTable table =>
    cases hedit
    exact h.addTable table
  | relate relationship =>
    obtain ⟨⟨hprimary, hforeign⟩, rfl⟩ := addRelationship?_eq_some_iff.mp hedit
    exact h.relate hprimary hforeign
  | move id position =>
    have hid := exists_edit?_eq_some_iff.mp ⟨next, hedit⟩ id List.mem_cons_self
    exact h.move hid hedit

/-! ## All edits keep the law -/

theorem ofEdits?_concat :
    ofEdits? (edits ++ [edit]) = some next ↔
      ∃ schema, ofEdits? edits = some schema ∧ schema.edit? edit = some next := by
  simp [ofEdits?, List.foldlM_append, Option.bind_eq_some_iff]

/-- A schema says what its history tells. -/
theorem records_of_ofEdits? (h : ofEdits? edits = some schema) : Records edits schema := by
  induction edits using List.reverseRecOn generalizing schema with
  | nil =>
    cases h
    exact records_empty
  | append_singleton edits edit ih =>
    obtain ⟨before, hbefore, hedit⟩ := ofEdits?_concat.mp h
    exact (ih hbefore).step hedit

/-- Exactly the proper histories lead to a schema. -/
theorem exists_ofEdits?_eq_some_iff : (∃ schema, ofEdits? edits = some schema) ↔ Proper edits := by
  induction edits using List.reverseRecOn with
  | nil => exact ⟨fun _ k hk => absurd hk (Nat.not_lt_zero k), fun _ => ⟨empty, rfl⟩⟩
  | append_singleton edits edit ih =>
    rw [proper_concat, ← ih]
    simp only [ofEdits?_concat]
    constructor
    · rintro ⟨next, schema, hschema, hedit⟩
      refine ⟨⟨schema, hschema⟩, ?_⟩
      rw [← (records_of_ofEdits? hschema).size]
      exact exists_edit?_eq_some_iff.mp ⟨next, hedit⟩
    · rintro ⟨⟨schema, hschema⟩, hnames⟩
      rw [← (records_of_ofEdits? hschema).size] at hnames
      obtain ⟨next, hnext⟩ := exists_edit?_eq_some_iff.mpr hnames
      exact ⟨next, schema, hschema, hnext⟩

/-! ## What follows from the law -/

theorem Records.tableIds_eq (h : Records edits schema) :
    schema.tableIds = (List.range (tablesOf edits).length).map TableId.mk := by
  rw [tableIds, h.size]

/-- A name of which there is no table is one under which none has been added. -/
theorem Records.findTable?_eq_none_iff (h : Records edits schema) :
    schema.findTable? name = none ↔ ∀ table ∈ tablesOf edits, table.name ≠ name := by
  constructor
  · rintro hnone table hmem rfl
    obtain ⟨id, hid⟩ := exists_isLastNamed hmem
    cases hnone.symm.trans ((h.findTable?_eq_some_iff table.name id).mpr hid)
  · intro hnames
    rw [Option.eq_none_iff_forall_ne_some]
    intro id hid
    obtain ⟨⟨table, htable, hname⟩, -⟩ := (h.findTable?_eq_some_iff name id).mp hid
    exact hnames table (List.mem_of_getElem? htable) hname

/-- A table exports to another as often as a relationship between the two has been added. -/
theorem Records.count_exported (h : Records edits schema) (u v : TableId) :
    (schema.exported u).count v = (relationshipsOf edits).count ⟨u, v⟩ := by
  rw [h.exported_eq, List.count, List.countP_map, List.countP_filter]
  refine List.countP_congr fun ⟨primary, foreign⟩ _ => ?_
  simp [and_comm]

/-- A table imports from another as often as a relationship between the two has been added. -/
theorem Records.count_imported (h : Records edits schema) (u v : TableId) :
    (schema.imported v).count u = (relationshipsOf edits).count ⟨u, v⟩ := by
  rw [h.imported_eq, List.count, List.countP_map, List.countP_filter]
  refine List.countP_congr fun ⟨primary, foreign⟩ _ => ?_
  simp

/-- No relationship is touched by an edit that adds none. -/
theorem related_of_edit? (hnone : edit.relationship? = none)
    (hedit : schema.edit? edit = some next) (id : TableId) :
    next.exported id = schema.exported id ∧ next.imported id = schema.imported id := by
  cases edit with
  | addTable table =>
    cases hedit
    exact ⟨exported_addTable schema table id, imported_addTable schema table id⟩
  | relate relationship => cases hnone
  | move other position =>
    exact ⟨exported_of_move? hedit id, imported_of_move? hedit id⟩

theorem Reachable.of_edit? (h : schema.Reachable) (hedit : schema.edit? edit = some next) :
    next.Reachable := by
  cases edit with
  | addTable table =>
    cases hedit
    exact h.addTable table
  | relate relationship => exact h.addRelationship hedit
  | move id position => exact h.move hedit

/-- The schemas that can be reached are those that have a history. -/
theorem reachable_iff_exists_edits : schema.Reachable ↔ ∃ edits, ofEdits? edits = some schema := by
  constructor
  · intro h
    have hstep {before after : Schema} (edit : Edit) (hedit : before.edit? edit = some after) :
        (∃ edits, ofEdits? edits = some before) → ∃ edits, ofEdits? edits = some after := by
      rintro ⟨edits, hedits⟩
      exact ⟨edits ++ [edit], ofEdits?_concat.mpr ⟨before, hedits, hedit⟩⟩
    induction h with
    | empty => exact ⟨[], rfl⟩
    | addTable _ table ih => exact hstep (.addTable table) rfl ih
    | @addRelationship _ _ _ primary foreign hadd ih =>
      exact hstep (.relate ⟨primary, foreign⟩) hadd ih
    | @move _ _ _ id position hmove ih => exact hstep (.move id position) hmove ih
  · rintro ⟨edits, hedits⟩
    induction edits using List.reverseRecOn generalizing schema with
    | nil =>
      cases hedits
      exact .empty
    | append_singleton edits edit ih =>
      obtain ⟨before, hbefore, hedit⟩ := ofEdits?_concat.mp hedits
      exact (ih hbefore).of_edit? hedit

end

end SchemaLayout.Schema
