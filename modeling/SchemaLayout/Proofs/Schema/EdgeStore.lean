import SchemaLayout.Proofs.Schema.History

/-!
# Schemas in a graph

The relationships of a schema may be kept as the edges of a directed graph, all of them together. A
graph that lists the neighbours of a vertex along its edges, the latest edge first, then says of the
relationships of a table what the schema says, read backwards; so a schema can be read off such a
graph, however the graph keeps its edges.
-/

namespace SchemaLayout.Schema

/-! ## Graphs -/

/-- Directed graphs whose vertices are numbered in the order in which they are added, and which
list the neighbours of a vertex along its edges, the edge that was added last first. An edge that
leads back to its vertex counts in both directions. -/
structure EdgeStore (γ : Type) where
  empty : γ
  addVertex : γ → γ
  addEdge : γ → TableId → TableId → γ
  /-- The number of vertices. -/
  size : γ → Nat
  /-- The vertices to which edges lead from a vertex. -/
  outgoing : γ → TableId → List TableId
  /-- The vertices from which edges lead to a vertex. -/
  incoming : γ → TableId → List TableId
  size_empty : size empty = 0
  size_addVertex : ∀ graph, size (addVertex graph) = size graph + 1
  size_addEdge : ∀ {graph u v}, u.index < size graph → v.index < size graph →
    size (addEdge graph u v) = size graph
  outgoing_empty : ∀ id, outgoing empty id = []
  incoming_empty : ∀ id, incoming empty id = []
  outgoing_addVertex : ∀ graph id, outgoing (addVertex graph) id = outgoing graph id
  incoming_addVertex : ∀ graph id, incoming (addVertex graph) id = incoming graph id
  outgoing_addEdge : ∀ {graph u v}, u.index < size graph → v.index < size graph → ∀ id,
    outgoing (addEdge graph u v) id =
      if u = id then v :: outgoing graph id else outgoing graph id
  incoming_addEdge : ∀ {graph u v}, u.index < size graph → v.index < size graph → ∀ id,
    incoming (addEdge graph u v) id =
      if v = id then u :: incoming graph id else incoming graph id

/-- Graphs that are a number of vertices and the list of all edges, the latest first. -/
def edgeList : EdgeStore (Nat × List Relationship) where
  empty := (0, [])
  addVertex graph := (graph.1 + 1, graph.2)
  addEdge graph u v := (graph.1, ⟨u, v⟩ :: graph.2)
  size graph := graph.1
  outgoing graph id := (graph.2.filter (·.primary = id)).map (·.foreign)
  incoming graph id := (graph.2.filter (·.foreign = id)).map (·.primary)
  size_empty := rfl
  size_addVertex _ := rfl
  size_addEdge _ _ := rfl
  outgoing_empty _ := rfl
  incoming_empty _ := rfl
  outgoing_addVertex _ _ := rfl
  incoming_addVertex _ _ := rfl
  outgoing_addEdge {_ u _} _ _ id := by by_cases h : u = id <;> simp [h]
  incoming_addEdge {_ _ v} _ _ id := by by_cases h : v = id <;> simp [h]

namespace EdgeStore

variable {γ : Type} {store : EdgeStore γ} {graph : γ} {edits : List Edit} {edit : Edit}
  {schema next : Schema}

/-- A graph after an edit: it has no use for what is moved. -/
def follow (store : EdgeStore γ) (graph : γ) : Edit → γ
  | .addTable _ => store.addVertex graph
  | .relate ⟨primary, foreign⟩ => store.addEdge graph primary foreign
  | .move _ _ => graph

/-- The graph that edits make of the empty one. -/
def ofEdits (store : EdgeStore γ) (edits : List Edit) : γ := edits.foldl store.follow store.empty

/-- A graph keeps the relationships of a schema, each list with the latest first. -/
structure Keeps (store : EdgeStore γ) (graph : γ) (schema : Schema) : Prop where
  size_eq : store.size graph = schema.nodes.size
  exported_eq : ∀ id, schema.exported id = (store.outgoing graph id).reverse
  imported_eq : ∀ id, schema.imported id = (store.incoming graph id).reverse

theorem keeps_empty (store : EdgeStore γ) : store.Keeps store.empty Schema.empty := by
  refine ⟨store.size_empty, fun id => ?_, fun id => ?_⟩
  · rw [store.outgoing_empty]
    rfl
  · rw [store.incoming_empty]
    rfl

/-- A graph that is edited like a schema keeps its relationships. -/
theorem Keeps.step (h : store.Keeps graph schema) (hedit : schema.edit? edit = some next) :
    store.Keeps (store.follow graph edit) next := by
  cases edit with
  | addTable table =>
    cases hedit
    refine ⟨?_, fun id => ?_, fun id => ?_⟩
    · rw [size_addTable, ← h.size_eq]
      exact store.size_addVertex graph
    · rw [exported_addTable, h.exported_eq]
      exact congrArg _ (store.outgoing_addVertex graph id).symm
    · rw [imported_addTable, h.imported_eq]
      exact congrArg _ (store.incoming_addVertex graph id).symm
  | relate relationship =>
    obtain ⟨⟨hprimary, hforeign⟩, rfl⟩ := addRelationship?_eq_some_iff.mp hedit
    have hprimary' := h.size_eq ▸ hprimary
    have hforeign' := h.size_eq ▸ hforeign
    refine ⟨?_, fun id => ?_, fun id => ?_⟩
    · rw [size_addRelationship, ← h.size_eq]
      exact store.size_addEdge hprimary' hforeign'
    · rw [exported_addRelationship hprimary, h.exported_eq, follow,
        store.outgoing_addEdge hprimary' hforeign']
      split <;> simp
    · rw [imported_addRelationship hforeign, h.imported_eq, follow,
        store.incoming_addEdge hprimary' hforeign']
      split <;> simp
  | move id position =>
    refine ⟨?_, fun other => ?_, fun other => ?_⟩
    · exact h.size_eq.trans (size_of_move? hedit).symm
    · exact (exported_of_move? hedit other).trans (h.exported_eq other)
    · exact (imported_of_move? hedit other).trans (h.imported_eq other)

/-- A graph and a schema that have been edited alike agree on the relationships. -/
theorem keeps_of_ofEdits? (store : EdgeStore γ) (h : ofEdits? edits = some schema) :
    store.Keeps (store.ofEdits edits) schema := by
  induction edits using List.reverseRecOn generalizing schema with
  | nil =>
    cases h
    exact store.keeps_empty
  | append_singleton edits edit ih =>
    obtain ⟨before, hbefore, hedit⟩ := ofEdits?_concat.mp h
    rw [ofEdits, List.foldl_append]
    exact (ih hbefore).step hedit

end EdgeStore

/-! ## The law of the store -/

/-- Exactly the proper histories lead to a schema, and this schema says what the history tells: the
tables as they have been added and where they have been put last, the last table under each name,
and the relationships of each table in their order, repeated ones repeatedly. Relationships are
therefore listed equally often at both ends, adding or moving tables touches none of them, and any
graph that has been edited like the schema lists them too, backwards. -/
theorem ofEdits?_tells (edits : List Edit) :
    ((∃ schema, ofEdits? edits = some schema) ↔ Proper edits) ∧
      ∀ schema, ofEdits? edits = some schema →
        Records edits schema ∧
        schema.tableIds = (List.range (tablesOf edits).length).map TableId.mk ∧
        (∀ table, (schema.addTable table).2 = ⟨(tablesOf edits).length⟩) ∧
        (∀ name, schema.findTable? name = none ↔
          ∀ table ∈ tablesOf edits, table.name ≠ name) ∧
        (∀ u v, (schema.exported u).count v = (schema.imported v).count u ∧
          (schema.imported v).count u = (relationshipsOf edits).count ⟨u, v⟩) ∧
        (∀ edit next, edit.relationship? = none → schema.edit? edit = some next → ∀ id,
          next.exported id = schema.exported id ∧ next.imported id = schema.imported id) ∧
        ∀ {γ : Type} (store : EdgeStore γ) (id : TableId),
          schema.exported id = (store.outgoing (store.ofEdits edits) id).reverse ∧
          schema.imported id = (store.incoming (store.ofEdits edits) id).reverse := by
  refine ⟨exists_ofEdits?_eq_some_iff, fun schema hedits => ?_⟩
  have hrecords := records_of_ofEdits? hedits
  refine ⟨hrecords, hrecords.tableIds_eq, fun table => ?_, fun name => ?_, fun u v => ?_,
    fun edit next hnone hedit id => ?_, fun store id => ?_⟩
  · exact congrArg TableId.mk hrecords.size
  · exact hrecords.findTable?_eq_none_iff
  · have himported := hrecords.count_imported u v
    exact ⟨(hrecords.count_exported u v).trans himported.symm, himported⟩
  · exact related_of_edit? hnone hedit id
  · have hkeeps := store.keeps_of_ofEdits? hedits
    exact ⟨hkeeps.exported_eq id, hkeeps.imported_eq id⟩

/-- A history in which a name is given twice, a relationship is added twice, another leads from a
table to itself, and a table is moved twice. -/
def twins : List Edit :=
  [.addTable ⟨"a", ⟨0, 0⟩, ⟨9, 4⟩⟩, .addTable ⟨"b", ⟨0, 0⟩, ⟨9, 4⟩⟩, .relate ⟨⟨0⟩, ⟨1⟩⟩,
    .move ⟨1⟩ ⟨5, 5⟩, .addTable ⟨"a", ⟨1, 1⟩, ⟨7, 3⟩⟩, .relate ⟨⟨0⟩, ⟨2⟩⟩, .relate ⟨⟨2⟩, ⟨2⟩⟩,
    .relate ⟨⟨0⟩, ⟨1⟩⟩, .move ⟨1⟩ ⟨7, 8⟩]

theorem ofEdits?_tells_twins : Proper twins ∧ ∃ schema, ofEdits? twins = some schema ∧
    schema.tableIds = [⟨0⟩, ⟨1⟩, ⟨2⟩] ∧
    schema.table? ⟨1⟩ = some ⟨"b", ⟨7, 8⟩, ⟨9, 4⟩⟩ ∧
    schema.findTable? "a" = some ⟨2⟩ ∧
    schema.findTable? "c" = none ∧
    schema.exported ⟨0⟩ = [⟨1⟩, ⟨2⟩, ⟨1⟩] ∧
    schema.imported ⟨2⟩ = [⟨0⟩, ⟨2⟩] ∧
    (edgeList.incoming (edgeList.ofEdits twins) ⟨2⟩).reverse = [⟨0⟩, ⟨2⟩] := by
  have hproper : Proper twins := by decide
  obtain ⟨schema, hedits⟩ := (ofEdits?_tells twins).1.mpr hproper
  obtain ⟨hrecords, htableIds, -, hnone, -, -, hstore⟩ := (ofEdits?_tells twins).2 schema hedits
  have hlast : IsLastNamed (tablesOf twins) "a" ⟨2⟩ := by
    refine ⟨⟨_, rfl, rfl⟩, fun index table hindex htable => ?_⟩
    have hlt : index < 3 := (List.getElem?_eq_some_iff.mp htable).1
    exact absurd hlt (Nat.not_lt.mpr hindex)
  have himported : schema.imported ⟨2⟩ = [⟨0⟩, ⟨2⟩] := hrecords.imported_eq ⟨2⟩
  refine ⟨hproper, schema, hedits, htableIds, hrecords.table?_eq ⟨1⟩, ?_, ?_, ?_, himported, ?_⟩
  · exact (hrecords.findTable?_eq_some_iff "a" ⟨2⟩).mpr hlast
  · exact (hnone "c").mpr (by decide)
  · exact hrecords.exported_eq ⟨0⟩
  · rw [← (hstore edgeList ⟨2⟩).2]
    exact himported

end SchemaLayout.Schema
