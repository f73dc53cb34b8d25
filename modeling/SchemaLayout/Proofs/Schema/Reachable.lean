import SchemaLayout.Schema.Description
import SchemaLayout.Proofs.Traversal

/-!
# Reachable schemas

A schema is reachable if it is built from the empty one by adding tables, adding relationships
between tables that it holds, and moving tables. Every relationship is then listed at both of its
ends, equally often: this is all that makes a schema well formed, since a table that is listed as
the end of a relationship lists something itself and therefore is a table of the schema.

Descriptions are turned into reachable schemas.
-/

namespace SchemaLayout.Schema

variable {schema schema' : Schema} {id primary foreign u v : TableId} {table : Table}
  {position : Point}

/-! ## What the operations do to the relationships of a table -/

theorem index_inj : u.index = v.index ↔ u = v :=
  ⟨fun h => congrArg TableId.mk h, congrArg TableId.index⟩

/-- The node of a table. -/
def node? (schema : Schema) (id : TableId) : Option TableNode := schema.nodes[id.index]?

/-- One of the two lists of a table, which is empty where there is no table. -/
def listOf (schema : Schema) (list : TableNode → Array TableId) (id : TableId) : List TableId :=
  ((schema.node? id).map fun node => (list node).toList).getD []

theorem exported_eq (schema : Schema) (id : TableId) :
    schema.exported id = schema.listOf (·.exported) id := by
  unfold exported listOf node?
  split <;> rename_i hnode <;> rw [hnode] <;> rfl

theorem imported_eq (schema : Schema) (id : TableId) :
    schema.imported id = schema.listOf (·.imported) id := by
  unfold imported listOf node?
  split <;> rename_i hnode <;> rw [hnode] <;> rfl

theorem node?_isSome_iff : (schema.node? id).isSome ↔ id.index < schema.nodes.size := by
  unfold node?
  simp

theorem node?_addTable (schema : Schema) (table : Table) (id : TableId) :
    (schema.addTable table).1.node? id =
      if id.index = schema.nodes.size then some ⟨table, #[], #[]⟩ else schema.node? id :=
  Array.getElem?_push

theorem node?_addRelationship (schema : Schema) (primary foreign id : TableId) :
    (schema.addRelationship primary foreign).node? id = (schema.node? id).map fun node =>
      ⟨node.table, if primary = id then node.exported.push foreign else node.exported,
        if foreign = id then node.imported.push primary else node.imported⟩ := by
  unfold addRelationship node?
  rw [Array.getElem?_modify, Array.getElem?_modify]
  simp only [index_inj]
  cases schema.nodes[id.index]? <;> by_cases hp : primary = id <;> by_cases hf : foreign = id <;>
    simp [hp, hf]

theorem node?_of_move? (h : schema.move? id position = some schema') (other : TableId) :
    schema'.node? other = (schema.node? other).map fun node =>
      if id = other then { node with table := { node.table with position := position } }
      else node := by
  unfold move? at h
  split at h
  · cases h
    unfold node?
    rw [Array.getElem?_modify]
    simp only [index_inj]
    cases schema.nodes[other.index]? <;> by_cases ho : id = other <;> simp [ho]
  · cases h

section

variable {list : TableNode → Array TableId}

theorem lt_size_of_mem_listOf (h : v ∈ schema.listOf list u) : u.index < schema.nodes.size := by
  rw [← node?_isSome_iff]
  unfold listOf at h
  cases hnode : schema.node? u with
  | none =>
    rw [hnode] at h
    cases h
  | some node => rfl

/-- A new table has no relationships. -/
theorem listOf_addTable (hlist : ∀ table, list ⟨table, #[], #[]⟩ = #[]) (schema : Schema)
    (table : Table) (id : TableId) :
    (schema.addTable table).1.listOf list id = schema.listOf list id := by
  unfold listOf
  rw [node?_addTable]
  split <;> rename_i hindex
  · have hnone : schema.node? id = none := Array.getElem?_eq_none (Nat.le_of_eq hindex.symm)
    rw [hnone, Option.map_some, hlist]
    rfl
  · rfl

/-- A list is kept where what happens to the node of its table leaves it as it is. -/
theorem listOf_of_node? {change : TableNode → TableNode}
    (hnode : schema'.node? id = (schema.node? id).map change)
    (hlist : ∀ node, list (change node) = list node) :
    schema'.listOf list id = schema.listOf list id := by
  unfold listOf
  rw [hnode, Option.map_map]
  congr 1
  refine Option.map_congr fun node _ => ?_
  rw [Function.comp_apply, hlist]

theorem listOf_of_move? (hlist : ∀ node table, list { node with table := table } = list node)
    (h : schema.move? id position = some schema') (other : TableId) :
    schema'.listOf list other = schema.listOf list other := by
  refine listOf_of_node? (node?_of_move? h other) fun node => ?_
  by_cases ho : id = other
  · rw [if_pos ho, hlist]
  · rw [if_neg ho]

/-- What is added at the end of the list of one table is listed there after all else. -/
theorem listOf_of_push {change : TableNode → TableNode} (hu : u.index < schema.nodes.size)
    (hnode : schema'.node? id = (schema.node? id).map change)
    (hlist : ∀ node, list (change node) = if u = id then (list node).push v else list node) :
    schema'.listOf list id = schema.listOf list id ++ if u = id then [v] else [] := by
  unfold listOf
  rw [hnode]
  cases hid : schema.node? id with
  | none =>
    -- the table at which something is added is one of the schema
    have hne : u ≠ id := by
      rintro rfl
      have hsome := node?_isSome_iff.mpr hu
      rw [hid] at hsome
      cases hsome
    rw [if_neg hne]
    rfl
  | some node => by_cases hend : u = id <;> simp [hlist, hend]

end

/-- A new relationship is listed last at the table that exports it. -/
theorem exported_addRelationship (h : primary.index < schema.nodes.size) (id : TableId) :
    (schema.addRelationship primary foreign).exported id =
      schema.exported id ++ if primary = id then [foreign] else [] := by
  rw [exported_eq, exported_eq]
  exact listOf_of_push h (node?_addRelationship ..) fun _ => rfl

/-- A new relationship is listed last at the table that imports it. -/
theorem imported_addRelationship (h : foreign.index < schema.nodes.size) (id : TableId) :
    (schema.addRelationship primary foreign).imported id =
      schema.imported id ++ if foreign = id then [primary] else [] := by
  rw [imported_eq, imported_eq]
  exact listOf_of_push h (node?_addRelationship ..) fun _ => rfl

/-- A new relationship is counted once more at the table that exports it. -/
theorem count_exported_addRelationship (h : primary.index < schema.nodes.size) :
    ((schema.addRelationship primary foreign).exported u).count v =
      (schema.exported u).count v + if primary = u ∧ foreign = v then 1 else 0 := by
  rw [exported_addRelationship h, List.count_append]
  by_cases hu : primary = u <;> by_cases hv : foreign = v <;> simp [hu, hv]

/-- A new relationship is counted once more at the table that imports it. -/
theorem count_imported_addRelationship (h : foreign.index < schema.nodes.size) :
    ((schema.addRelationship primary foreign).imported v).count u =
      (schema.imported v).count u + if foreign = v ∧ primary = u then 1 else 0 := by
  rw [imported_addRelationship h, List.count_append]
  by_cases hv : foreign = v <;> by_cases hu : primary = u <;> simp [hu, hv]

theorem exported_addTable (schema : Schema) (table : Table) (id : TableId) :
    (schema.addTable table).1.exported id = schema.exported id := by
  rw [exported_eq, exported_eq]
  exact listOf_addTable (fun _ => rfl) schema table id

theorem imported_addTable (schema : Schema) (table : Table) (id : TableId) :
    (schema.addTable table).1.imported id = schema.imported id := by
  rw [imported_eq, imported_eq]
  exact listOf_addTable (fun _ => rfl) schema table id

theorem exported_of_move? (h : schema.move? id position = some schema') (other : TableId) :
    schema'.exported other = schema.exported other := by
  rw [exported_eq, exported_eq]
  exact listOf_of_move? (fun _ _ => rfl) h other

theorem imported_of_move? (h : schema.move? id position = some schema') (other : TableId) :
    schema'.imported other = schema.imported other := by
  rw [imported_eq, imported_eq]
  exact listOf_of_move? (fun _ _ => rfl) h other

theorem lt_size_of_mem_exported (h : v ∈ schema.exported u) : u.index < schema.nodes.size := by
  rw [exported_eq] at h
  exact lt_size_of_mem_listOf h

theorem lt_size_of_mem_imported (h : v ∈ schema.imported u) : u.index < schema.nodes.size := by
  rw [imported_eq] at h
  exact lt_size_of_mem_listOf h

/-- A new table is the one that is found under its name. -/
theorem findTable?_addTable (schema : Schema) (table : Table) (name : String) :
    (schema.addTable table).1.findTable? name =
      if table.name = name then some ⟨schema.nodes.size⟩ else schema.findTable? name := by
  have hinsert := @Std.HashMap.getElem?_insert _ _ _ _ schema.names _ _ table.name name
    (⟨schema.nodes.size⟩ : TableId)
  simpa [findTable?, addTable] using hinsert

theorem findTable?_of_move? (h : schema.move? id position = some schema') (name : String) :
    schema'.findTable? name = schema.findTable? name := by
  unfold move? at h
  split at h
  · cases h
    rfl
  · cases h

theorem size_addTable (schema : Schema) (table : Table) :
    (schema.addTable table).1.nodes.size = schema.nodes.size + 1 :=
  Array.size_push _

theorem size_addRelationship (schema : Schema) (primary foreign : TableId) :
    (schema.addRelationship primary foreign).nodes.size = schema.nodes.size := by
  simp [addRelationship]

theorem size_of_move? (h : schema.move? id position = some schema') :
    schema'.nodes.size = schema.nodes.size := by
  unfold move? at h
  split at h
  · cases h
    exact Array.size_modify
  · cases h

/-! ## Well-formed schemas -/

/-- Every relationship is listed equally often at both of its ends, and names are names of
tables. -/
structure WellFormed (schema : Schema) : Prop where
  mirrored : ∀ u v, (schema.exported u).count v = (schema.imported v).count u
  named : ∀ {name id}, schema.findTable? name = some id → id.index < schema.nodes.size

theorem wellFormed_empty : WellFormed empty := by
  refine ⟨fun u v => rfl, fun h => ?_⟩
  rw [findTable?, empty, Std.HashMap.getElem?_empty] at h
  cases h

theorem WellFormed.addTable (h : WellFormed schema) (table : Table) :
    WellFormed (schema.addTable table).1 := by
  refine ⟨fun u v => ?_, fun {name id} hname => ?_⟩
  · rw [exported_addTable, imported_addTable]
    exact h.mirrored u v
  · rw [size_addTable]
    rw [findTable?_addTable] at hname
    split at hname
    · cases hname
      exact Nat.lt_succ_self _
    · exact Nat.lt_succ_of_lt (h.named hname)

theorem WellFormed.addRelationship (h : WellFormed schema)
    (hprimary : primary.index < schema.nodes.size) (hforeign : foreign.index < schema.nodes.size) :
    WellFormed (schema.addRelationship primary foreign) := by
  refine ⟨fun u v => ?_, fun hname => ?_⟩
  · rw [count_exported_addRelationship hprimary, count_imported_addRelationship hforeign,
      h.mirrored u v]
    simp only [and_comm]
  · rw [size_addRelationship]
    exact h.named hname

theorem WellFormed.move (h : WellFormed schema) (hmove : schema.move? id position = some schema') :
    WellFormed schema' := by
  refine ⟨fun u v => ?_, fun hname => ?_⟩
  · rw [exported_of_move? hmove, imported_of_move? hmove]
    exact h.mirrored u v
  · rw [size_of_move? hmove]
    rw [findTable?_of_move? hmove] at hname
    exact h.named hname

/-- Relationships are listed at both of their ends. -/
theorem WellFormed.mem_exported_iff (h : WellFormed schema) :
    v ∈ schema.exported u ↔ u ∈ schema.imported v := by
  rw [← List.count_pos_iff, ← List.count_pos_iff, h.mirrored]

/-! ## Reachable schemas -/

/-- A schema that is built by the operations on schemas. -/
inductive Reachable : Schema → Prop
  | empty : Reachable empty
  | addTable {schema : Schema} (h : Reachable schema) (table : Table) :
      Reachable (schema.addTable table).1
  | addRelationship {schema schema' : Schema} (h : Reachable schema) {primary foreign : TableId}
      (hadd : schema.addRelationship? primary foreign = some schema') : Reachable schema'
  | move {schema schema' : Schema} (h : Reachable schema) {id : TableId} {position : Point}
      (hmove : schema.move? id position = some schema') : Reachable schema'

/-- A relationship is only ever added between tables of the schema. -/
theorem addRelationship?_eq_some_iff :
    schema.addRelationship? primary foreign = some schema' ↔
      (primary.index < schema.nodes.size ∧ foreign.index < schema.nodes.size) ∧
        schema.addRelationship primary foreign = schema' := by
  unfold addRelationship?
  split <;> rename_i hboth
  · rw [Option.some.injEq]
    exact (and_iff_right hboth).symm
  · constructor
    · intro h
      cases h
    · rintro ⟨hboth', -⟩
      exact absurd hboth' hboth

theorem Reachable.relate (h : Reachable schema) (primary foreign : TableId)
    (hprimary : primary.index < schema.nodes.size) (hforeign : foreign.index < schema.nodes.size) :
    Reachable (schema.addRelationship primary foreign) :=
  h.addRelationship (addRelationship?_eq_some_iff.mpr ⟨⟨hprimary, hforeign⟩, rfl⟩)

/-- Every reachable schema is well formed. -/
theorem Reachable.wellFormed (h : Reachable schema) : WellFormed schema := by
  induction h with
  | empty => exact wellFormed_empty
  | addTable _ table ih => exact ih.addTable table
  | addRelationship _ hadd ih =>
    obtain ⟨⟨hprimary, hforeign⟩, rfl⟩ := addRelationship?_eq_some_iff.mp hadd
    exact ih.addRelationship hprimary hforeign
  | move _ hmove ih => exact ih.move hmove

/-- Adding the tables and relationships of a description leads to a reachable schema. -/
theorem reachable_of_ofDescription {description : Description}
    (h : ofDescription description = .ok schema) : Reachable schema := by
  unfold ofDescription at h
  obtain ⟨defined, hdefine, hrelate⟩ := Traversal.bind_eq_ok_iff.mp h
  -- the tables are added to the empty schema, and the relationships to the schema of all tables
  have hdefined : Reachable defined := by
    refine Traversal.foldlM_induction (P := Reachable) ?_ .empty hdefine
    intro before table after hbefore hstep
    unfold define at hstep
    split at hstep
    · cases hstep
    · cases hstep
      exact hbefore.addTable table
  refine Traversal.foldlM_induction (P := Reachable) ?_ hdefined hrelate
  intro before reference after hbefore hstep
  unfold relate at hstep
  obtain ⟨primary, hprimary, hstep⟩ := Traversal.bind_eq_ok_iff.mp hstep
  obtain ⟨foreign, hforeign, hstep⟩ := Traversal.bind_eq_ok_iff.mp hstep
  cases hstep
  have hresolve {name : String} {id : TableId} (hid : before.resolve name = .ok id) :
      id.index < before.nodes.size := by
    unfold resolve at hid
    split at hid <;> rename_i hname
    · cases hid
      exact hbefore.wellFormed.named hname
    · cases hid
  exact hbefore.relate primary foreign (hresolve hprimary) (hresolve hforeign)

/-- Three tables in a ring of relationships, of which the first also refers to itself. -/
def ring : Schema :=
  let table (name : String) : Table := ⟨name, ⟨500, 500⟩, ⟨100, 50⟩⟩
  let tables := (((empty.addTable (table "a")).1.addTable (table "b")).1.addTable (table "c")).1
  let chain := (tables.addRelationship ⟨0⟩ ⟨1⟩).addRelationship ⟨1⟩ ⟨2⟩
  (chain.addRelationship ⟨2⟩ ⟨0⟩).addRelationship ⟨0⟩ ⟨0⟩

theorem reachable_ring : Reachable ring := by
  have tables := ((Reachable.empty.addTable ⟨"a", ⟨500, 500⟩, ⟨100, 50⟩⟩).addTable
    ⟨"b", ⟨500, 500⟩, ⟨100, 50⟩⟩).addTable ⟨"c", ⟨500, 500⟩, ⟨100, 50⟩⟩
  have chain := (tables.relate ⟨0⟩ ⟨1⟩ (by decide) (by decide)).relate ⟨1⟩ ⟨2⟩ (by decide)
    (by decide)
  exact (chain.relate ⟨2⟩ ⟨0⟩ (by decide) (by decide)).relate ⟨0⟩ ⟨0⟩ (by decide) (by decide)

end SchemaLayout.Schema
