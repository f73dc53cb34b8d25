import SchemaLayout.Proofs.Schema.History

/-!
# Schemas of descriptions

A description leads to a schema if no two of its tables have one name and its relationships name
nothing but its tables. Of any other description it is said what is wrong: two tables of one name
before all else, and then the first name that is unknown.

Building the schema of a description is a history like any other (`Description.edits`), so the
schema says what the description says: `Represents` spells it out in names, which in a description
take the place of numbers.
-/

namespace SchemaLayout

open Schema Traversal

/-! ## Descriptions as histories -/

/-- The names of the two ends of a relationship. -/
def Reference.ends (reference : Reference) : List String := [reference.primary, reference.foreign]

namespace Description

/-- The names of the tables. -/
def names (description : Description) : List String := description.tables.map (·.name)

/-- The names by which relationships refer to tables, in order. -/
def ends (description : Description) : List String := description.references.flatMap Reference.ends

/-- The number of the first table of a name. -/
def numberOf (description : Description) (name : String) : TableId :=
  ⟨description.names.idxOf name⟩

/-- The relationship that is meant by names. -/
def relationship (description : Description) (reference : Reference) : Relationship :=
  ⟨description.numberOf reference.primary, description.numberOf reference.foreign⟩

/-- What is done to build the schema of a description. -/
def edits (description : Description) : List Edit :=
  description.tables.map .addTable ++
    description.references.map fun reference => .relate (description.relationship reference)

end Description

/-- The name of a table. -/
def Schema.name? (schema : Schema) (id : TableId) : Option String :=
  (schema.table? id).map (·.name)

/-- A schema says what a description says: it has the same tables in the same order, finds them
under their names, and lists their relationships in the same order. -/
structure Description.Represents (description : Description) (schema : Schema) : Prop where
  tables_eq : schema.tableIds.map schema.table? = description.tables.map some
  findTable?_eq : ∀ index table, description.tables[index]? = some table →
    schema.findTable? table.name = some ⟨index⟩
  findTable?_eq_none : ∀ name ∉ description.names, schema.findTable? name = none
  exported_eq : ∀ index table, description.tables[index]? = some table →
    (schema.exported ⟨index⟩).map schema.name? =
      (description.references.filter (·.primary = table.name)).map fun reference =>
        some reference.foreign
  imported_eq : ∀ index table, description.tables[index]? = some table →
    (schema.imported ⟨index⟩).map schema.name? =
      (description.references.filter (·.foreign = table.name)).map fun reference =>
        some reference.primary

namespace Schema

variable {schema next : Schema} {table : Table} {tables : List Table} {reference : Reference}
  {references : List Reference} {name : String} {id : TableId} {error : DescriptionError}
  {edits : List Edit} {description : Description}

/-! ## Tables -/

theorem define_eq_ok_iff : schema.define table = .ok next ↔
    schema.findTable? table.name = none ∧ (schema.addTable table).1 = next := by
  unfold define
  split <;> rename_i hfind <;> simp [hfind]

theorem define_eq_error_iff : schema.define table = .error error ↔
    schema.findTable? table.name ≠ none ∧ error = .duplicateTable table.name := by
  unfold define
  split <;> rename_i hfind <;> simp [hfind, eq_comm]

theorem tablesOf_map_addTable (tables : List Table) :
    tablesOf (tables.map .addTable) = tables := by
  rw [tablesOf, List.filterMap_map]
  exact List.filterMap_some

/-- A name is free as long as no table has it. -/
theorem findTable?_eq_none_iff_of_ofEdits?
    (h : ofEdits? (tables.map .addTable) = some schema) :
    schema.findTable? name = none ↔ name ∉ tables.map (·.name) := by
  rw [(records_of_ofEdits? h).findTable?_eq_none_iff, tablesOf_map_addTable, List.mem_map]
  simp

/-- Tables are added one after the other if their names differ. -/
theorem foldlM_define_eq_ok_iff : tables.foldlM define empty = .ok schema ↔
    (tables.map (·.name)).Nodup ∧ ofEdits? (tables.map .addTable) = some schema := by
  induction tables using List.reverseRecOn generalizing schema with
  | nil =>
    constructor
    · intro h
      cases h
      exact ⟨List.nodup_nil, rfl⟩
    · rintro ⟨-, h⟩
      cases h
      rfl
  | append_singleton tables table ih =>
    rw [foldlM_concat_eq_ok_iff, List.map_append, List.map_append, List.map_singleton,
      List.map_singleton, ofEdits?_concat, List.nodup_append_comm, List.singleton_append,
      List.nodup_cons]
    constructor
    · rintro ⟨before, hbefore, hdefine⟩
      obtain ⟨hnodup, hedits⟩ := ih.mp hbefore
      obtain ⟨hnone, rfl⟩ := define_eq_ok_iff.mp hdefine
      exact ⟨⟨(findTable?_eq_none_iff_of_ofEdits? hedits).mp hnone, hnodup⟩, before, hedits, rfl⟩
    · rintro ⟨⟨hname, hnodup⟩, before, hedits, hadd⟩
      refine ⟨before, ih.mpr ⟨hnodup, hedits⟩, define_eq_ok_iff.mpr ⟨?_, ?_⟩⟩
      · exact (findTable?_eq_none_iff_of_ofEdits? hedits).mpr hname
      · exact Option.some.inj hadd

/-- Tables can always be added to a schema. -/
theorem proper_map_addTable (tables : List Table) : Proper (tables.map .addTable) := by
  intro k hk id hid
  rw [List.getElem_map] at hid
  exact absurd hid List.not_mem_nil

/-- The first table whose name has been given before is the one that is reported. -/
theorem foldlM_define_eq_error_iff : tables.foldlM define empty = .error error ↔
    ∃ before table after, tables = before ++ table :: after ∧ (before.map (·.name)).Nodup ∧
      table.name ∈ before.map (·.name) ∧ error = .duplicateTable table.name := by
  rw [foldlM_eq_error_iff]
  refine exists_congr fun before => exists_congr fun table => exists_congr fun after => ?_
  constructor
  · rintro ⟨schema, htables, hdefine, herror⟩
    obtain ⟨hnodup, hedits⟩ := foldlM_define_eq_ok_iff.mp hdefine
    obtain ⟨hsome, rfl⟩ := define_eq_error_iff.mp herror
    rw [Ne, findTable?_eq_none_iff_of_ofEdits? hedits, not_not] at hsome
    exact ⟨htables, hnodup, hsome, rfl⟩
  · rintro ⟨htables, hnodup, hname, rfl⟩
    obtain ⟨schema, hedits⟩ := exists_ofEdits?_eq_some_iff.mpr (proper_map_addTable before)
    refine ⟨schema, htables, foldlM_define_eq_ok_iff.mpr ⟨hnodup, hedits⟩,
      define_eq_error_iff.mpr ⟨?_, rfl⟩⟩
    rw [Ne, findTable?_eq_none_iff_of_ofEdits? hedits, not_not]
    exact hname

/-! ## Names that stand for tables -/

theorem IsLastNamed.lt_length (h : IsLastNamed tables name id) : id.index < tables.length := by
  obtain ⟨table, htable, -⟩ := h.named
  exact (List.getElem?_eq_some_iff.mp htable).1

/-- If no two tables have one name, a name belongs to the table at which it is found. -/
theorem numberOf_name (hnodup : description.names.Nodup) {index : Nat}
    (htable : description.tables[index]? = some table) :
    description.numberOf table.name = ⟨index⟩ := by
  obtain ⟨hindex, rfl⟩ := List.getElem?_eq_some_iff.mp htable
  have hindex' : index < description.names.length := by rwa [Description.names, List.length_map]
  have hget := hnodup.idxOf_getElem index hindex'
  exact congrArg TableId.mk (by simpa [Description.names] using hget)

theorem IsLastNamed.eq_numberOf (hnodup : description.names.Nodup)
    (h : IsLastNamed description.tables name id) : id = description.numberOf name := by
  obtain ⟨table, htable, rfl⟩ := h.named
  exact (numberOf_name hnodup htable).symm

/-! ## Relationships -/

theorem resolve_eq_ok_iff : schema.resolve name = .ok id ↔ schema.findTable? name = some id := by
  unfold resolve
  split <;> rename_i hfind <;> simp [hfind]

theorem resolve_eq_error_iff : schema.resolve name = .error error ↔
    schema.findTable? name = none ∧ error = .unknownTable name := by
  unfold resolve
  split <;> rename_i hfind <;> simp [hfind, eq_comm]

theorem relate_eq_ok_iff : schema.relate reference = .ok next ↔
    ∃ primary foreign, schema.findTable? reference.primary = some primary ∧
      schema.findTable? reference.foreign = some foreign ∧
      schema.addRelationship primary foreign = next := by
  simp only [relate, bind_eq_ok_iff, resolve_eq_ok_iff]
  constructor
  · rintro ⟨primary, hprimary, foreign, hforeign, hadd⟩
    cases hadd
    exact ⟨primary, foreign, hprimary, hforeign, rfl⟩
  · rintro ⟨primary, foreign, hprimary, hforeign, rfl⟩
    exact ⟨primary, hprimary, foreign, hforeign, rfl⟩

/-- The first end of a relationship that is unknown is the one that is reported. -/
theorem relate_eq_error_iff : schema.relate reference = .error error ↔
    ∃ name, IsFirst (schema.findTable? · = none) reference.ends name ∧
      error = .unknownTable name := by
  simp only [relate, bind_eq_error_iff, resolve_eq_error_iff, resolve_eq_ok_iff, Reference.ends,
    isFirst_cons_iff, not_isFirst_nil]
  cases hprimary : schema.findTable? reference.primary <;>
    cases hforeign : schema.findTable? reference.foreign <;> simp [pure, Except.pure]

/-- The first unknown name of all relationships is the one that is reported. -/
theorem foldlM_relate_eq_error_iff : references.foldlM relate schema = .error error ↔
    ∃ name, IsFirst (schema.findTable? · = none) (references.flatMap Reference.ends) name ∧
      error = .unknownTable name := by
  induction references generalizing schema with
  | nil =>
    constructor
    · intro h
      cases h
    · rintro ⟨name, hfirst, -⟩
      exact absurd hfirst not_isFirst_nil
  | cons reference references ih =>
    -- a relationship does not change which names are known
    have hnames {primary foreign : TableId} (name : String) :
        (schema.addRelationship primary foreign).findTable? name = schema.findTable? name := rfl
    simp only [List.foldlM_cons, bind_eq_error_iff, List.flatMap_cons, isFirst_append_iff, ih,
      relate_eq_error_iff, relate_eq_ok_iff]
    constructor
    · rintro (⟨name, hfirst, rfl⟩ | ⟨next, ⟨primary, foreign, hprimary, hforeign, rfl⟩, hrest⟩)
      · exact ⟨name, .inl hfirst, rfl⟩
      · obtain ⟨name, hfirst, rfl⟩ := hrest
        refine ⟨name, .inr ⟨?_, hfirst⟩, rfl⟩
        simp [Reference.ends, hprimary, hforeign]
    · rintro ⟨name, hfirst | ⟨hknown, hfirst⟩, rfl⟩
      · exact .inl ⟨name, hfirst, rfl⟩
      · simp only [Reference.ends, List.forall_mem_cons, ← Ne.eq_def, Option.ne_none_iff_exists']
          at hknown
        obtain ⟨⟨primary, hprimary⟩, ⟨foreign, hforeign⟩, -⟩ := hknown
        exact .inr ⟨_, ⟨primary, foreign, hprimary, hforeign, rfl⟩, name, hfirst, rfl⟩

/-- A relationship between known names is one between the tables that are meant. -/
theorem ofEdits?_of_foldlM_relate (hnodup : description.names.Nodup)
    (htables : tablesOf edits = description.tables) (hedits : ofEdits? edits = some schema)
    (h : references.foldlM relate schema = .ok next) :
    ofEdits? (edits ++ references.map fun reference =>
      .relate (description.relationship reference)) = some next := by
  induction references generalizing edits schema with
  | nil =>
    cases h
    rwa [List.map_nil, List.append_nil]
  | cons reference references ih =>
    rw [List.foldlM_cons, bind_eq_ok_iff] at h
    obtain ⟨mid, hrelate, hrest⟩ := h
    obtain ⟨primary, foreign, hprimary, hforeign, hadd⟩ := relate_eq_ok_iff.mp hrelate
    have hrecords := records_of_ofEdits? hedits
    have hknown {name : String} {id : TableId} (hid : schema.findTable? name = some id) :
        id = description.numberOf name ∧ id.index < schema.nodes.size := by
      rw [hrecords.findTable?_eq_some_iff, htables] at hid
      rw [hrecords.size, htables]
      exact ⟨hid.eq_numberOf hnodup, hid.lt_length⟩
    obtain ⟨rfl, hprimary⟩ := hknown hprimary
    obtain ⟨rfl, hforeign⟩ := hknown hforeign
    have hedit : schema.edit? (.relate (description.relationship reference)) = some mid :=
      addRelationship?_eq_some_iff.mpr ⟨⟨hprimary, hforeign⟩, hadd⟩
    rw [List.map_cons, List.append_cons]
    refine ih ?_ (ofEdits?_concat.mpr ⟨schema, hedits, hedit⟩) hrest
    rw [tablesOf_concat, htables]
    exact List.append_nil _

/-! ## What is said of a description -/

theorem exists_foldlM_relate_eq_ok_iff :
    (∃ next, references.foldlM relate schema = .ok next) ↔
      ∀ name ∈ references.flatMap Reference.ends, schema.findTable? name ≠ none := by
  constructor
  · rintro ⟨next, hnext⟩ name hname hnone
    obtain ⟨first, hfirst⟩ :=
      exists_isFirst (P := (schema.findTable? · = none)) hname hnone
    cases hnext.symm.trans (foldlM_relate_eq_error_iff.mpr ⟨first, hfirst, rfl⟩)
  · intro hknown
    cases hresult : references.foldlM relate schema with
    | ok next => exact ⟨next, rfl⟩
    | error e =>
      obtain ⟨name, hfirst, -⟩ := foldlM_relate_eq_error_iff.mp hresult
      exact absurd hfirst.holds (hknown name hfirst.mem)

/-- All tables are added if their names differ, and these names are then the known ones. -/
theorem exists_foldlM_define (hnodup : description.names.Nodup) :
    ∃ schema, description.tables.foldlM define empty = .ok schema ∧
      ∀ name, schema.findTable? name = none ↔ name ∉ description.names := by
  obtain ⟨schema, hedits⟩ :=
    exists_ofEdits?_eq_some_iff.mpr (proper_map_addTable description.tables)
  exact ⟨schema, foldlM_define_eq_ok_iff.mpr ⟨hnodup, hedits⟩, fun name =>
    findTable?_eq_none_iff_of_ofEdits? hedits⟩

theorem exists_ofDescription_eq_ok_iff :
    (∃ schema, ofDescription description = .ok schema) ↔
      description.names.Nodup ∧ ∀ name ∈ description.ends, name ∈ description.names := by
  simp only [ofDescription, bind_eq_ok_iff]
  constructor
  · rintro ⟨schema, defined, hdefine, hrelate⟩
    obtain ⟨hnodup, hedits⟩ := foldlM_define_eq_ok_iff.mp hdefine
    refine ⟨hnodup, fun name hname => ?_⟩
    have hknown := exists_foldlM_relate_eq_ok_iff.mp ⟨schema, hrelate⟩ name hname
    rwa [Ne, findTable?_eq_none_iff_of_ofEdits? hedits, not_not] at hknown
  · rintro ⟨hnodup, hends⟩
    obtain ⟨defined, hdefine, hnone⟩ := exists_foldlM_define hnodup
    obtain ⟨schema, hrelate⟩ := exists_foldlM_relate_eq_ok_iff.mpr fun name hname =>
      (hnone name).not_left.mpr (hends name hname)
    exact ⟨schema, defined, hdefine, hrelate⟩

theorem ofDescription_eq_duplicateTable_iff :
    ofDescription description = .error (.duplicateTable name) ↔
      ∃ before table after, description.tables = before ++ table :: after ∧
        (before.map (·.name)).Nodup ∧ table.name ∈ before.map (·.name) ∧ table.name = name := by
  rw [ofDescription, bind_eq_error_iff, foldlM_define_eq_error_iff]
  constructor
  · rintro (⟨before, table, after, htables, hnodup, hname, herror⟩ | ⟨defined, -, hrelate⟩)
    · cases herror
      exact ⟨before, table, after, htables, hnodup, hname, rfl⟩
    · obtain ⟨unknown, -, herror⟩ := foldlM_relate_eq_error_iff.mp hrelate
      cases herror
  · rintro ⟨before, table, after, htables, hnodup, hname, rfl⟩
    exact .inl ⟨before, table, after, htables, hnodup, hname, rfl⟩

theorem ofDescription_eq_unknownTable_iff :
    ofDescription description = .error (.unknownTable name) ↔
      description.names.Nodup ∧ IsFirst (· ∉ description.names) description.ends name := by
  rw [ofDescription, bind_eq_error_iff, foldlM_define_eq_error_iff]
  constructor
  · rintro (⟨before, table, after, -, -, -, herror⟩ | ⟨defined, hdefine, hrelate⟩)
    · cases herror
    · obtain ⟨hnodup, hedits⟩ := foldlM_define_eq_ok_iff.mp hdefine
      obtain ⟨unknown, hfirst, herror⟩ := foldlM_relate_eq_error_iff.mp hrelate
      cases herror
      exact ⟨hnodup, hfirst.congr fun _ _ => findTable?_eq_none_iff_of_ofEdits? hedits⟩
  · rintro ⟨hnodup, hfirst⟩
    obtain ⟨defined, hdefine, hnone⟩ := exists_foldlM_define hnodup
    refine .inr ⟨defined, hdefine, foldlM_relate_eq_error_iff.mpr ⟨name, ?_, rfl⟩⟩
    exact hfirst.congr fun other _ => (hnone other).symm

/-- A description that leads to a schema does so by its edits. -/
theorem ofEdits?_of_ofDescription (h : ofDescription description = .ok schema) :
    ofEdits? description.edits = some schema := by
  obtain ⟨defined, hdefine, hrelate⟩ := bind_eq_ok_iff.mp h
  obtain ⟨hnodup, hedits⟩ := foldlM_define_eq_ok_iff.mp hdefine
  exact ofEdits?_of_foldlM_relate hnodup (tablesOf_map_addTable _) hedits hrelate

theorem tablesOf_edits (description : Description) :
    tablesOf description.edits = description.tables := by
  simp [tablesOf, Description.edits, Function.comp_def, Edit.table?]

theorem relationshipsOf_edits (description : Description) :
    relationshipsOf description.edits = description.references.map description.relationship := by
  simp [relationshipsOf, Description.edits, Function.comp_def, Edit.relationship?]

theorem positionsOf_edits (description : Description) (id : TableId) :
    positionsOf description.edits id = [] := by
  simp [positionsOf, Description.edits, Function.comp_def, Edit.position?]

theorem Records.table?_of_edits (h : Records description.edits schema) (id : TableId) :
    schema.table? id = description.tables[id.index]? := by
  rw [h.table?_eq, tableOf?, tablesOf_edits, positionsOf_edits]
  exact Option.map_id' ..

/-- A name of the description is the name of the table that is meant by it. -/
theorem Records.name?_numberOf (h : Records description.edits schema)
    (hname : name ∈ description.names) : schema.name? (description.numberOf name) = some name := by
  rw [name?, h.table?_of_edits, ← List.getElem?_map]
  exact List.getElem?_idxOf hname

/-- Among the names of the description, only one stands for a table. -/
theorem numberOf_eq_iff (hnodup : description.names.Nodup) {index : Nat}
    (htable : description.tables[index]? = some table) (hname : name ∈ description.names) :
    description.numberOf name = ⟨index⟩ ↔ name = table.name := by
  rw [← numberOf_name hnodup htable, ← index_inj]
  exact List.idxOf_inj hname

/-- The relationships of a table on one side, read as names. -/
theorem Records.map_name?_filter (h : Records description.edits schema)
    (hnodup : description.names.Nodup) {index : Nat}
    (htable : description.tables[index]? = some table) {near far : Reference → String}
    (hnear : ∀ reference ∈ description.references, near reference ∈ description.names)
    (hfar : ∀ reference ∈ description.references, far reference ∈ description.names) :
    ((description.references.filter fun reference =>
      description.numberOf (near reference) = ⟨index⟩).map fun reference =>
        schema.name? (description.numberOf (far reference))) =
      (description.references.filter (near · = table.name)).map fun reference =>
        some (far reference) := by
  have hfilter : (description.references.filter fun reference =>
      description.numberOf (near reference) = ⟨index⟩) =
        description.references.filter (near · = table.name) := by
    refine List.filter_congr fun reference hmem => ?_
    exact decide_eq_decide.mpr (numberOf_eq_iff hnodup htable (hnear reference hmem))
  rw [hfilter]
  refine List.map_congr_left fun reference hmem => ?_
  exact h.name?_numberOf (hfar reference (List.mem_of_mem_filter hmem))

/-- A schema that comes from the edits of a description says what the description says. -/
theorem Records.represents (h : Records description.edits schema)
    (hnodup : description.names.Nodup)
    (hends : ∀ name ∈ description.ends, name ∈ description.names) :
    description.Represents schema := by
  have hprimary : ∀ reference ∈ description.references, reference.primary ∈ description.names :=
    fun reference hmem =>
      hends _ (List.mem_flatMap.mpr ⟨reference, hmem, by simp [Reference.ends]⟩)
  have hforeign : ∀ reference ∈ description.references, reference.foreign ∈ description.names :=
    fun reference hmem =>
      hends _ (List.mem_flatMap.mpr ⟨reference, hmem, by simp [Reference.ends]⟩)
  refine ⟨?_, fun index table htable => ?_, fun name hname => ?_, fun index table htable => ?_,
    fun index table htable => ?_⟩
  · rw [h.tableIds_eq, tablesOf_edits]
    refine List.ext_getElem (by simp) fun index hindex hindex' => ?_
    simp [h.table?_of_edits]
  · obtain ⟨id, hid⟩ := exists_isLastNamed (List.mem_of_getElem? htable)
    rw [h.findTable?_eq_some_iff, tablesOf_edits]
    rwa [hid.eq_numberOf hnodup, numberOf_name hnodup htable] at hid
  · rw [h.findTable?_eq_none_iff, tablesOf_edits]
    rintro table hmem rfl
    exact hname (List.mem_map_of_mem hmem)
  · rw [h.exported_eq, relationshipsOf_edits, List.filter_map, List.map_map, List.map_map]
    exact h.map_name?_filter hnodup htable hprimary hforeign
  · rw [h.imported_eq, relationshipsOf_edits, List.filter_map, List.map_map, List.map_map]
    exact h.map_name?_filter hnodup htable hforeign hprimary

/-! ## Which descriptions are accepted -/

/-- A description leads to a schema exactly if its tables have different names and its relationships
name only them. If two tables have one name, the first whose name has been given before is reported,
whatever the relationships say; else the first name that is unknown. A schema to which a description
leads says what the description says. -/
theorem ofDescription_faithful (description : Description) :
    ((∃ schema, ofDescription description = .ok schema) ↔
      description.names.Nodup ∧ ∀ name ∈ description.ends, name ∈ description.names) ∧
    (∀ name, ofDescription description = .error (.duplicateTable name) ↔
      ∃ before table after, description.tables = before ++ table :: after ∧
        (before.map (·.name)).Nodup ∧ table.name ∈ before.map (·.name) ∧ table.name = name) ∧
    (∀ name, ofDescription description = .error (.unknownTable name) ↔
      description.names.Nodup ∧ IsFirst (· ∉ description.names) description.ends name) ∧
    ∀ schema, ofDescription description = .ok schema → description.Represents schema := by
  refine ⟨exists_ofDescription_eq_ok_iff, fun name => ofDescription_eq_duplicateTable_iff,
    fun name => ofDescription_eq_unknownTable_iff, fun schema h => ?_⟩
  obtain ⟨hnodup, hends⟩ := exists_ofDescription_eq_ok_iff.mp ⟨schema, h⟩
  exact (records_of_ofEdits? (ofEdits?_of_ofDescription h)).represents hnodup hends

/-- Orders and their lines, where a line may follow another one. -/
def orders : Description where
  tables := [⟨"order", ⟨0, 0⟩, ⟨9, 4⟩⟩, ⟨"line", ⟨3, 1⟩, ⟨7, 3⟩⟩]
  references := [⟨"line", "line"⟩, ⟨"order", "line"⟩, ⟨"order", "line"⟩]

/-- Orders have a schema. With one more table of the first name this name is reported, although
there is an unknown one, and without that table the first of two unknown names. -/
theorem ofDescription_faithful_orders :
    (∃ schema, ofDescription orders = .ok schema ∧
      schema.findTable? "line" = some ⟨1⟩ ∧
      (schema.exported ⟨0⟩).map schema.name? = [some "line", some "line"] ∧
      (schema.imported ⟨1⟩).map schema.name? = [some "line", some "order", some "order"]) ∧
    ofDescription ⟨orders.tables ++ [⟨"order", ⟨0, 0⟩, ⟨1, 1⟩⟩], [⟨"item", "line"⟩]⟩ =
      .error (.duplicateTable "order") ∧
    ofDescription ⟨orders.tables, [⟨"line", "item"⟩, ⟨"shop", "line"⟩]⟩ =
      .error (.unknownTable "item") := by
  refine ⟨?_, ?_, ?_⟩
  · obtain ⟨hok, -, -, hrepresents⟩ := ofDescription_faithful orders
    obtain ⟨schema, hschema⟩ := hok.mpr (by decide)
    have h := hrepresents schema hschema
    exact ⟨schema, hschema, h.findTable?_eq 1 _ rfl, h.exported_eq 0 _ rfl, h.imported_eq 1 _ rfl⟩
  · apply ((ofDescription_faithful _).2.1 "order").mpr
    exact ⟨orders.tables, _, [], rfl, by decide, by decide, rfl⟩
  · apply ((ofDescription_faithful _).2.2.1 "item").mpr
    exact ⟨by decide, ⟨["line"], ["shop", "line"], rfl, by decide⟩, by decide⟩

end Schema

end SchemaLayout
