import SchemaLayout.Proofs.Geometry.Stored
import SchemaLayout.Schema.Description.Ron
import SchemaLayout.Schema.Position

/-!
# Descriptions and positions in files

In which values tables, relationships, descriptions and positions of tables are stored. The position
of a table that is at the origin may be left out, and so may the relationships of a description that
has none; everything else is required.
-/

namespace SchemaLayout

open Ron (Document FaultyItem IsRecord Lists Value WrittenOnce WrittenOr)

/-- Things that are stored one by one are stored as a list. -/
theorem Ron.lists_toValue {α : Type} {content : α → Value → Prop} {toDocument : α → Document}
    (h : ∀ a, content a (toDocument a).toValue) (as : List α) :
    Lists content as (Document.list (as.map toDocument)).toValue := by
  refine ⟨_, rfl, ?_⟩
  induction as with
  | nil => exact .nil
  | cons a as ih => exact .cons (h a) ih

/-! ## Tables -/

namespace Table

/-- A value in which a table is stored. -/
def Stored (table : Table) : Value → Prop :=
  IsRecord "TableSpec" fun fields =>
    WrittenOnce "name" (· = .text table.name) fields ∧
      WrittenOr "position" table.position.Stored (.zero = table.position) fields ∧
      WrittenOnce "size" table.size.Stored fields

/-- A record that lacks what a table requires, has a field of it twice, or has faulty content. -/
def Faulty : Value → Prop :=
  Ron.Faulty ["name", "size"] ["position"] fun key v =>
    key = "position" ∧ Point.Faulty v ∨ key = "size" ∧ Size.Faulty v

theorem ofValue?_eq_some_iff {v : Value} {table : Table} :
    ofValue? v = some table ↔ table.Stored v := by
  simp only [ofValue?, Option.bind_eq_bind, Option.bind_eq_some_iff, Option.pure_def,
    Option.some.injEq, Ron.toFields?_eq_some_iff, Ron.readField_eq_some_iff,
    Ron.readFieldOr_eq_some_iff, Ron.toText?_eq_some_iff, Point.ofValue?_eq_some_iff,
    Size.ofValue?_eq_some_iff]
  constructor
  · rintro ⟨fields, hv, name, hname, position, hposition, size, hsize, rfl⟩
    exact ⟨fields, hv, hname, hposition, hsize⟩
  · rintro ⟨fields, hv, hname, hposition, hsize⟩
    exact ⟨fields, hv, _, hname, _, hposition, _, hsize, rfl⟩

theorem Stored.not_faulty {table : Table} {v : Value} (h : table.Stored v) : ¬ Faulty v := by
  refine Ron.not_faulty h ?_ ?_ ?_
  · rintro fields ⟨hname, -, hsize⟩
    simp [hname.not_leftOut, hsize.not_leftOut]
  · rintro fields ⟨hname, hposition, hsize⟩
    simp [hname.not_repeated, hposition.not_repeated, hsize.not_repeated]
  · rintro fields key v ⟨-, hposition, hsize⟩ hmem (⟨rfl, hfaulty⟩ | ⟨rfl, hfaulty⟩)
    · exact (hposition.of_mem hmem).not_faulty hfaulty
    · exact (hsize.of_mem hmem).not_faulty hfaulty

theorem stored_toValue (table : Table) : table.Stored table.toDocument.toValue := by
  refine ⟨_, .inl rfl, ?_, .inl ?_, ?_⟩ <;>
    simp [Ron.writtenOnce_iff, Document.toFields, Document.toValue, table.position.stored_toValue,
      table.size.stored_toValue]

@[simp]
theorem fits_toDocument (table : Table) (budget : Nat) : table.toDocument.Fits (budget + 4) := by
  simp +decide [toDocument]

end Table

/-! ## Relationships -/

namespace Reference

/-- A value in which a relationship is stored. -/
def Stored (reference : Reference) : Value → Prop :=
  IsRecord "RelationshipSpec" fun fields =>
    WrittenOnce "pk_table" (· = .text reference.primary) fields ∧
      WrittenOnce "fk_table" (· = .text reference.foreign) fields

/-- A record that lacks a table of a relationship or has one twice. -/
def Faulty : Value → Prop := Ron.Faulty ["pk_table", "fk_table"] [] fun _ _ => False

theorem ofValue?_eq_some_iff {v : Value} {reference : Reference} :
    ofValue? v = some reference ↔ reference.Stored v := by
  simp only [ofValue?, Option.bind_eq_bind, Option.bind_eq_some_iff, Option.pure_def,
    Option.some.injEq, Ron.toFields?_eq_some_iff, Ron.readField_eq_some_iff,
    Ron.toText?_eq_some_iff]
  constructor
  · rintro ⟨fields, hv, primary, hprimary, foreign, hforeign, rfl⟩
    exact ⟨fields, hv, hprimary, hforeign⟩
  · rintro ⟨fields, hv, hprimary, hforeign⟩
    exact ⟨fields, hv, _, hprimary, _, hforeign, rfl⟩

theorem Stored.not_faulty {reference : Reference} {v : Value} (h : reference.Stored v) :
    ¬ Faulty v :=
  Ron.not_faulty h (fun hfields => by simp [hfields.1.not_leftOut, hfields.2.not_leftOut])
    (fun hfields => by simp [hfields.1.not_repeated, hfields.2.not_repeated]) fun _ _ => id

theorem stored_toValue (reference : Reference) : reference.Stored reference.toDocument.toValue := by
  refine ⟨_, .inl rfl, ?_, ?_⟩ <;>
    simp [Ron.writtenOnce_iff, Document.toFields, Document.toValue]

@[simp]
theorem fits_toDocument (reference : Reference) (budget : Nat) :
    reference.toDocument.Fits (budget + 2) := by
  simp +decide [toDocument]

end Reference

/-! ## Descriptions -/

namespace Description

/-- A value in which a description is stored. -/
def Stored (description : Description) : Value → Prop :=
  IsRecord "DiagramSpec" fun fields =>
    WrittenOnce "tables" (Lists Table.Stored description.tables) fields ∧
      WrittenOr "relationships" (Lists Reference.Stored description.references)
        ([] = description.references) fields

/-- A record that lacks the tables of a description, has a field of it twice, or has a faulty table
or relationship. -/
def Faulty : Value → Prop :=
  Ron.Faulty ["tables"] ["relationships"] fun key v =>
    key = "tables" ∧ FaultyItem Table.Faulty v ∨
      key = "relationships" ∧ FaultyItem Reference.Faulty v

theorem ofValue?_eq_some_iff {v : Value} {description : Description} :
    ofValue? v = some description ↔ description.Stored v := by
  have htables (v : Value) (tables : List Table) :
      v.toList? Table.ofValue? = some tables ↔ Lists Table.Stored tables v :=
    Ron.toList?_eq_some_iff fun _ _ => Table.ofValue?_eq_some_iff
  have hreferences (v : Value) (references : List Reference) :
      v.toList? Reference.ofValue? = some references ↔ Lists Reference.Stored references v :=
    Ron.toList?_eq_some_iff fun _ _ => Reference.ofValue?_eq_some_iff
  simp only [ofValue?, Option.bind_eq_bind, Option.bind_eq_some_iff, Option.pure_def,
    Option.some.injEq, Ron.toFields?_eq_some_iff, Ron.readField_eq_some_iff,
    Ron.readFieldOr_eq_some_iff, htables, hreferences]
  constructor
  · rintro ⟨fields, hv, tables, htables, references, hreferences, rfl⟩
    exact ⟨fields, hv, htables, hreferences⟩
  · rintro ⟨fields, hv, htables, hreferences⟩
    exact ⟨fields, hv, _, htables, _, hreferences, rfl⟩

theorem Stored.not_faulty {description : Description} {v : Value} (h : description.Stored v) :
    ¬ Faulty v := by
  refine Ron.not_faulty h ?_ ?_ ?_
  · rintro fields ⟨htables, -⟩
    simp [htables.not_leftOut]
  · rintro fields ⟨htables, hreferences⟩
    simp [htables.not_repeated, hreferences.not_repeated]
  · rintro fields key v ⟨htables, hreferences⟩ hmem (⟨rfl, hfaulty⟩ | ⟨rfl, hfaulty⟩)
    · exact (htables.of_mem hmem).false_of_faultyItem hfaulty fun _ _ => Table.Stored.not_faulty
    · exact (hreferences.of_mem hmem).false_of_faultyItem hfaulty fun _ _ =>
        Reference.Stored.not_faulty

theorem stored_toValue (description : Description) :
    description.Stored description.toDocument.toValue := by
  have htables := Ron.lists_toValue Table.stored_toValue description.tables
  have hreferences := Ron.lists_toValue Reference.stored_toValue description.references
  refine ⟨_, .inl rfl, ?_, .inl ?_⟩ <;>
    simp [Ron.writtenOnce_iff, Document.toFields, htables, hreferences]

theorem fits_toDocument (description : Description) :
    description.toDocument.Fits Ron.depthBudget := by
  simp +decide [toDocument, Ron.depthBudget]

end Description

/-! ## Positions of tables -/

namespace TablePosition

/-- A value in which the position of a table is stored. -/
def Stored (table : TablePosition) : Value → Prop :=
  IsRecord "Placement" fun fields =>
    WrittenOnce "name" (· = .text table.name) fields ∧
      WrittenOnce "x" table.x.Stored fields ∧ WrittenOnce "y" table.y.Stored fields

theorem ofValue?_eq_some_iff {v : Value} {table : TablePosition} :
    ofValue? v = some table ↔ table.Stored v := by
  simp only [ofValue?, Option.bind_eq_bind, Option.bind_eq_some_iff, Option.pure_def,
    Option.some.injEq, Ron.toFields?_eq_some_iff, Ron.readField_eq_some_iff,
    Ron.toText?_eq_some_iff, Coord.toCoord?_eq_some_iff]
  constructor
  · rintro ⟨fields, hv, name, hname, x, hx, y, hy, rfl⟩
    exact ⟨fields, hv, hname, hx, hy⟩
  · rintro ⟨fields, hv, hname, hx, hy⟩
    exact ⟨fields, hv, _, hname, _, hx, _, hy, rfl⟩

theorem stored_toValue (table : TablePosition) : table.Stored table.toDocument.toValue := by
  refine ⟨_, .inl rfl, ?_, ?_, ?_⟩ <;>
    simp [Ron.writtenOnce_iff, Document.toFields, Document.toValue, table.x.stored_toValue,
      table.y.stored_toValue]

@[simp]
theorem fits_toDocument (table : TablePosition) (budget : Nat) :
    table.toDocument.Fits (budget + 2) := by
  simp +decide [toDocument]

end TablePosition

end SchemaLayout
