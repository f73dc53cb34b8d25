import SchemaLayout.Proofs.Program.LayOut
import SchemaLayout.Proofs.Tree.Embedding
import SchemaLayout.Proofs.Tree.Refusal

/-!
# Which tables can be laid out

The relationships of a schema can always be read, and they lead from tables to tables. So a list of
tables can be laid out exactly if it names none twice and if no relationship leads out of it. What
is no table at all has no relationships and passes both checks; it is only found out when its size
is asked for, which is where the program panics.

A list of all tables, in whatever order, is none of the lists that are refused. This is why laying
out a whole schema never fails.
-/

namespace SchemaLayout

namespace Schema

variable {schema : Schema} {gaps : Gaps} {ids : List TableId} {origin : Point}

/-- Every relationship that touches a listed table has both of its ends listed. -/
def Closed (schema : Schema) (ids : List TableId) : Prop :=
  ∀ primary foreign, foreign ∈ schema.exported primary → primary ∈ ids ∨ foreign ∈ ids →
    primary ∈ ids ∧ foreign ∈ ids

/-- All tables related to a listed table of the schema are listed. -/
def ListsRelated (schema : Schema) (ids : List TableId) : Prop :=
  ∀ id ∈ ids, id ∈ schema.tableIds → ∀ other ∈ schema.exported id ++ schema.imported id,
    other ∈ ids

theorem mem_tableIds_of_mem_related {id other : TableId}
    (h : other ∈ schema.exported id ++ schema.imported id) : id ∈ schema.tableIds := by
  rw [mem_tableIds]
  rcases List.mem_append.mp h with h | h
  · exact lt_size_of_mem_exported h
  · exact lt_size_of_mem_imported h

/-- Each relationship can be seen from both of its ends. -/
theorem WellFormed.closed_iff (h : schema.WellFormed) :
    schema.Closed ids ↔ schema.ListsRelated ids := by
  constructor
  · intro hclosed id hid _ other hother
    rcases List.mem_append.mp hother with hexported | himported
    · exact (hclosed id other hexported (.inl hid)).2
    · exact (hclosed other id (h.mem_exported_iff.mpr himported) (.inr hid)).1
  · intro hlists primary foreign hexported htouched
    have hforeign : foreign ∈ schema.exported primary ++ schema.imported primary :=
      List.mem_append_left _ hexported
    have hprimary : primary ∈ schema.exported foreign ++ schema.imported foreign :=
      List.mem_append_right _ (h.mem_exported_iff.mp hexported)
    rcases htouched with hid | hid
    · exact ⟨hid, hlists primary hid (mem_tableIds_of_mem_related hforeign) foreign hforeign⟩
    · exact ⟨hlists foreign hid (mem_tableIds_of_mem_related hprimary) primary hprimary, hid⟩

/-- All that can be wrong with the relationships of a table is that they lead out of the list. -/
theorem objects_iff {id : TableId} {e : LayoutError TableId} :
    Network.Objects schema ids id e ↔ ∃ other,
      Traversal.IsFirst (· ∉ ids) (schema.exported id ++ schema.imported id) other ∧
        .foreignNode id other = e := by
  constructor
  · intro hobjects
    cases hobjects with
    | exported htext => cases htext
    | imported _ htext => cases htext
    | foreign hexported himported hfirst =>
      cases hexported
      cases himported
      exact ⟨_, hfirst, rfl⟩
  · rintro ⟨other, hfirst, rfl⟩
    exact .foreign rfl rfl hfirst

/-! ## What becomes of a list of tables -/

/-- The results that a layout of a list of tables can have, each with its condition. -/
inductive Verdict (schema : Schema) (ids : List TableId) :
    Except (LayoutError TableId) (TreeLayout TableId) → Prop
  | accepted {layout} (hnodup : ids.Nodup) (hmem : ∀ id ∈ ids, id ∈ schema.tableIds)
      (hlists : schema.ListsRelated ids) : Verdict schema ids (.ok layout)
  | repeated {id} (hrepeated : ¬ ids.Nodup) : Verdict schema ids (.error (.duplicateNode id))
  | outside {id other} (hnodup : ids.Nodup) (hleads : ¬ schema.ListsRelated ids) :
      Verdict schema ids (.error (.foreignNode id other))
  | missing {id} (hnodup : ids.Nodup) (hlists : schema.ListsRelated ids) (hid : id ∈ ids)
      (hmissing : id ∉ schema.tableIds) : Verdict schema ids (.error (.missingNode id))

/-- A layout of a list of tables has one of these results. -/
theorem verdict_treeLayout (schema : Schema) (gaps : Gaps) (ids : List TableId) (origin : Point) :
    Verdict schema ids (treeLayout gaps schema ids origin) := by
  cases hlayout : treeLayout gaps schema ids origin with
  | ok layout =>
    obtain ⟨network, filling, haccepted, -⟩ := treeLayout_eq_ok_iff.mp hlayout
    have hresolves := haccepted.resolves
    refine .accepted (injective_get_listed.mp hresolves.injective) (fun id hid => ?_) ?_
    · obtain ⟨size, hsize⟩ := hresolves.exists_size hid
      exact mem_tableIds_of_size? hsize
    · intro id hid _ other hother
      obtain ⟨_, _, hexported, himported, hlisted⟩ := hresolves.exists_related hid
      cases hexported
      cases himported
      exact hlisted other hother
  | error e =>
    have hrefuses := treeLayout_eq_error_iff.mp hlayout
    cases hrefuses with
    | duplicate hnodes hnodup hmem =>
      refine .repeated fun hids => ?_
      rw [hnodes] at hids
      exact List.disjoint_of_nodup_append hids hmem List.mem_cons_self
    | related hnodup hfirst hobjects =>
      obtain ⟨other, hother, rfl⟩ := objects_iff.mp hobjects
      refine .outside hnodup fun hlists => hother.holds ?_
      exact hlists _ hfirst.mem (mem_tableIds_of_mem_related hother.mem) other hother.mem
    | missing hnodup hrelated hfirst =>
      refine .missing hnodup (fun id hid _ other hother => ?_) hfirst.mem fun hmem => ?_
      · by_contra hnot
        obtain ⟨first, hfirst⟩ := Traversal.exists_isFirst (P := (· ∉ ids)) hother hnot
        exact hrelated id hid _ (objects_iff.mpr ⟨first, hfirst, rfl⟩)
      · obtain ⟨size, hsize⟩ := exists_size?_of_mem hmem
        cases hfirst.holds.symm.trans hsize

/-- Any list of all tables can be laid out. -/
theorem WellFormed.exists_treeLayout_of_perm (h : schema.WellFormed)
    (hperm : ids.Perm schema.tableIds) (gaps : Gaps) (origin : Point) :
    ∃ layout, treeLayout gaps schema ids origin = .ok layout := by
  have hverdict := verdict_treeLayout schema gaps ids origin
  generalize treeLayout gaps schema ids origin = result at hverdict ⊢
  have hlists : schema.ListsRelated ids := fun id _ _ other hother =>
    hperm.mem_iff.mpr (h.mem_tableIds_of_related hother)
  cases hverdict with
  | accepted => exact ⟨_, rfl⟩
  | repeated hrepeated => exact absurd (hperm.nodup_iff.mpr schema.nodup_tableIds) hrepeated
  | outside _ hleads => exact absurd hlists hleads
  | missing _ _ hid hmissing => exact absurd (hperm.mem_iff.mp hid) hmissing

end Schema

/-! ## Programs -/

/-- No schema is found to be impossible to lay out while it is read. -/
theorem Files.loadSchema_ne_layout {files : Files} {file : String} {cause : LayoutError TableId} :
    files.loadSchema file ≠ .error (.layout cause) := by
  intro h
  unfold loadSchema at h
  rcases Traversal.bind_eq_error_iff.mp h with hread | ⟨text, -, hparse⟩
  · obtain ⟨_, -, he⟩ := Traversal.mapError_eq_error_iff.mp hread
    cases he
  · split at hparse
    · obtain ⟨_, -, he⟩ := Traversal.mapError_eq_error_iff.mp hparse
      cases he
    · cases hparse

/-- The layout of a schema that has been read does not fail. -/
theorem Files.layOut_ne_layout (files : Files) (file : String) (settings : Settings)
    (origin : Point) (cause : LayoutError TableId) :
    (files.layOut file settings origin).result ≠ .error (.layout cause) := by
  unfold layOut
  cases hload : files.loadSchema file with
  | error e =>
    rintro ⟨⟩
    exact loadSchema_ne_layout hload
  | ok schema =>
    obtain ⟨layout, tables, -, -, hlaidOut, -⟩ :=
      (reachable_of_loadSchema hload).exists_laidOut (.refl schema) rfl origin
    dsimp only
    rw [hlaidOut.result_eq]
    rintro ⟨⟩

/-! ## The four cases -/

/-- A list of tables of a schema can be laid out exactly if it names no table twice, if all that it
names are tables, and if every relationship that touches one of them has both of its ends listed.
If only the second condition is not met, the layout panics; otherwise it is refused for a table that
is listed twice or for a relationship that leads out of the list, and never because relationships
could not be read. So all tables can be laid out in any order, and no program fails to lay out the
schema that it has read. -/
theorem treeLayout_schema_iff :
    (∀ {schema : Schema}, schema.Reachable →
      (∀ (gaps : Gaps) (ids : List TableId) (origin : Point),
        ((∃ layout, treeLayout gaps schema ids origin = .ok layout) ↔
          ids.Nodup ∧ (∀ id ∈ ids, id ∈ schema.tableIds) ∧ schema.Closed ids) ∧
        ((∃ id, treeLayout gaps schema ids origin = .error (.missingNode id)) ↔
          ids.Nodup ∧ schema.ListsRelated ids ∧ ∃ id ∈ ids, id ∉ schema.tableIds) ∧
        ((∃ id, treeLayout gaps schema ids origin = .error (.duplicateNode id)) ↔ ¬ ids.Nodup) ∧
        ((∃ id other, treeLayout gaps schema ids origin = .error (.foreignNode id other)) ↔
          ids.Nodup ∧ ¬ schema.ListsRelated ids) ∧
        ∀ id text, treeLayout gaps schema ids origin ≠ .error (.modelAccess id text)) ∧
      (∀ (gaps : Gaps) (ids : List TableId) (origin : Point), ids.Perm schema.tableIds →
        ∃ layout, treeLayout gaps schema ids origin = .ok layout) ∧
      ∀ (settings : Settings) (origin : Point),
        ∃ tables, (schema.layOut settings origin).result = .ok tables) ∧
    ∀ (files : Files) (file : String) (settings : Settings) (origin : Point)
      (cause : LayoutError TableId),
      (files.layOut file settings origin).result ≠ .error (.layout cause) := by
  refine ⟨fun {schema} h => ⟨fun gaps ids origin => ?_, fun gaps ids origin hperm => ?_,
    fun settings origin => ?_⟩, Files.layOut_ne_layout⟩
  · rw [h.wellFormed.closed_iff]
    have hverdict := Schema.verdict_treeLayout schema gaps ids origin
    generalize treeLayout gaps schema ids origin = result at hverdict ⊢
    cases hverdict with
    | accepted hnodup hmem hlists => simpa [hnodup, hlists] using hmem
    | repeated hrepeated => simp [hrepeated]
    | outside hnodup hleads => simp [hnodup, hleads]
    | missing hnodup hlists hid hmissing => simpa [hnodup, hlists] using ⟨_, hid, hmissing⟩
  · exact h.wellFormed.exists_treeLayout_of_perm hperm gaps origin
  · obtain ⟨layout, tables, -, -, hlaidOut, -⟩ := h.exists_laidOut (.refl schema) rfl origin
    exact ⟨tables, hlaidOut.result_eq⟩

/-- The ring can be laid out from its last table on; with a number that is no table it panics, and
without one of its tables it is refused. -/
theorem treeLayout_schema_iff_ring :
    (∃ layout, treeLayout .standard Schema.ring [⟨2⟩, ⟨0⟩, ⟨1⟩] .zero = .ok layout) ∧
      (∃ id, treeLayout .standard Schema.ring [⟨0⟩, ⟨7⟩, ⟨1⟩, ⟨2⟩] .zero =
        .error (.missingNode id)) ∧
      (∃ id other, treeLayout .standard Schema.ring [⟨0⟩, ⟨1⟩] .zero =
        .error (.foreignNode id other)) ∧
      ∃ id, treeLayout .standard Schema.ring [⟨0⟩, ⟨0⟩] .zero = .error (.duplicateNode id) := by
  obtain ⟨hverdicts, hperm, -⟩ := treeLayout_schema_iff.1 Schema.reachable_ring
  refine ⟨hperm .standard _ .zero (by decide), ?_, ?_, ?_⟩
  · refine (hverdicts .standard [⟨0⟩, ⟨7⟩, ⟨1⟩, ⟨2⟩] .zero).2.1.mpr ⟨by decide, ?_, by decide⟩
    unfold Schema.ListsRelated
    decide
  · refine (hverdicts .standard [⟨0⟩, ⟨1⟩] .zero).2.2.2.1.mpr ⟨by decide, ?_⟩
    unfold Schema.ListsRelated
    decide
  · exact (hverdicts .standard [⟨0⟩, ⟨0⟩] .zero).2.2.1.mpr (by decide)

end SchemaLayout
