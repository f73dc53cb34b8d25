import Mathlib.Logic.Equiv.Basic
import SchemaLayout.Proofs.Program.LayOut
import SchemaLayout.Proofs.Schema.History
import SchemaLayout.Proofs.Tree.Renaming
import SchemaLayout.Proofs.Tree.Separation

/-!
# Renumbering

The numbers of tables tell in which order the tables have been added to a schema. As a layout reads
nothing from the names of its nodes, it does not read this order either: where a table is put
depends on the order in which tables are listed, on their sizes, and on the order in which each
table has been given its own relationships.
-/

namespace SchemaLayout

namespace Schema

/-- The tables that refer to a table, in the order in which the relationships have been added. -/
def exportedOf (edits : List Edit) (id : TableId) : List TableId :=
  ((relationshipsOf edits).filter (·.primary = id)).map (·.foreign)

/-- The tables that a table refers to, in the order in which the relationships have been added. -/
def importedOf (edits : List Edit) (id : TableId) : List TableId :=
  ((relationshipsOf edits).filter (·.foreign = id)).map (·.primary)

/-- Each table of the first history is added in the second one too, with the number to which `f`
takes its own: with the same size, and with relationships that come in the same order. In which
order the tables are added, how they are called, where they are moved, and how the relationships of
different tables alternate may differ. -/
structure Renumbers (f : TableId → TableId) (edits edits' : List Edit) : Prop where
  injOn : Set.InjOn f {id | id.index < (tablesOf edits).length}
  size : ∀ id, id.index < (tablesOf edits).length →
    (tablesOf edits')[(f id).index]?.map (·.size) = (tablesOf edits)[id.index]?.map (·.size)
  exported : ∀ id, id.index < (tablesOf edits).length →
    exportedOf edits' (f id) = (exportedOf edits id).map f
  imported : ∀ id, id.index < (tablesOf edits).length →
    importedOf edits' (f id) = (importedOf edits id).map f

variable {f : TableId → TableId} {edits edits' : List Edit} {schema schema' : Schema}

/-- The size of a table is the one with which it has been added, wherever it has been moved. -/
theorem Records.size?_eq (h : Records edits schema) (id : TableId) :
    Diagram.size? schema id = (tablesOf edits)[id.index]?.map (·.size) := by
  show (schema.table? id).map (·.size) = _
  rw [h.table?_eq, tableOf?, Option.map_map]
  rfl

/-- Tables that have been renumbered in the history are renamed nodes of the schema. -/
theorem Renumbers.renames (h : Renumbers f edits edits') (hedits : ofEdits? edits = some schema)
    (hedits' : ofEdits? edits' = some schema') {ids : List TableId} (hids : ids ⊆ schema.tableIds) :
    Diagram.Renames f schema schema' ids := by
  have hrecords := records_of_ofEdits? hedits
  have hrecords' := records_of_ofEdits? hedits'
  have hwell := (reachable_iff_exists_edits.mpr ⟨edits, hedits⟩).wellFormed
  have hlt {id : TableId} (hid : id ∈ schema.tableIds) : id.index < (tablesOf edits).length := by
    rw [← hrecords.size]
    exact mem_tableIds.mp hid
  have hmentions {id : TableId} (hid : Diagram.Mentions schema ids id) : id ∈ schema.tableIds := by
    cases hid with
    | listed hid => exact hids hid
    | exported _ hexported hid =>
      cases hexported
      exact hwell.mem_tableIds_of_related (List.mem_append_left _ hid)
    | imported _ himported hid =>
      cases himported
      exact hwell.mem_tableIds_of_related (List.mem_append_right _ hid)
  refine ⟨h.injOn.mono fun id hid => hlt (hmentions hid), fun id hid => ?_, fun id hid => ?_,
    fun id hid => ?_⟩
  · rw [hrecords.size?_eq, hrecords'.size?_eq]
    exact h.size id (hlt (hids hid))
  · refine congrArg Except.ok ?_
    rw [hrecords.exported_eq, hrecords'.exported_eq]
    exact h.exported id (hlt (hids hid))
  · refine congrArg Except.ok ?_
    rw [hrecords.imported_eq, hrecords'.imported_eq]
    exact h.imported id (hlt (hids hid))

end Schema

/-- What nodes are called has no influence on where they are put. If a second diagram says of
renamed nodes what the first says of the nodes, and the renaming keeps apart all nodes of which the
layout hears, then the renamed list has the renamed layout, or is refused with the renamed error.
Schemas that have been made by histories which give each table the same size and the same order of
its own relationships are therefore laid out alike, in whatever order the tables have been added. -/
theorem treeLayout_renamed (gaps : Gaps) (origin : Point) :
    (∀ {δ δ' ι κ : Type} [Diagram δ ι] [Diagram δ' κ] [BEq ι] [LawfulBEq ι] [Hashable ι] [BEq κ]
        [LawfulBEq κ] [Hashable κ] (f : ι → κ) (diagram : δ) (diagram' : δ') (nodes : List ι),
      Diagram.Renames f diagram diagram' nodes →
        treeLayout gaps diagram' (nodes.map f) origin =
          TreeLayout.renameOutcome f (treeLayout gaps diagram nodes origin)) ∧
    ∀ (f : TableId → TableId) (edits edits' : List Schema.Edit) (schema schema' : Schema)
        (ids : List TableId),
      Schema.Renumbers f edits edits' → Schema.ofEdits? edits = some schema →
        Schema.ofEdits? edits' = some schema' → ids ⊆ schema.tableIds →
        treeLayout gaps schema' (ids.map f) origin =
          TreeLayout.renameOutcome f (treeLayout gaps schema ids origin) := by
  constructor
  · intro δ δ' ι κ _ _ _ _ _ _ _ _ f diagram diagram' nodes hrenames
    exact hrenames.treeLayout_eq gaps origin
  · intro f edits edits' schema schema' ids hrenumbers hedits hedits' hids
    exact (hrenumbers.renames hedits hedits' hids).treeLayout_eq gaps origin

/-! ## An example -/

namespace Schema

/-- A history of the ring. -/
def ringEdits : List Edit :=
  [.addTable ⟨"a", ⟨500, 500⟩, ⟨100, 50⟩⟩, .addTable ⟨"b", ⟨500, 500⟩, ⟨100, 50⟩⟩,
    .addTable ⟨"c", ⟨500, 500⟩, ⟨100, 50⟩⟩, .relate ⟨⟨0⟩, ⟨1⟩⟩, .relate ⟨⟨1⟩, ⟨2⟩⟩,
    .relate ⟨⟨2⟩, ⟨0⟩⟩, .relate ⟨⟨0⟩, ⟨0⟩⟩]

/-- A history of the ring in which the last table is added first, and two tables are related before
there is a third. -/
def reversedRingEdits : List Edit :=
  [.addTable ⟨"z", ⟨0, 0⟩, ⟨100, 50⟩⟩, .addTable ⟨"y", ⟨0, 0⟩, ⟨100, 50⟩⟩, .relate ⟨⟨1⟩, ⟨0⟩⟩,
    .move ⟨0⟩ ⟨7, 7⟩, .addTable ⟨"x", ⟨0, 0⟩, ⟨100, 50⟩⟩, .relate ⟨⟨0⟩, ⟨2⟩⟩,
    .relate ⟨⟨2⟩, ⟨1⟩⟩, .relate ⟨⟨2⟩, ⟨2⟩⟩]

/-- The schema of that history. -/
def reversedRing : Schema := (ofEdits? reversedRingEdits).getD empty

theorem ofEdits?_ringEdits : ofEdits? ringEdits = some ring := rfl

theorem ofEdits?_reversedRingEdits : ofEdits? reversedRingEdits = some reversedRing := rfl

/-- The first and the last number change places. -/
def reversal : TableId → TableId := Equiv.swap ⟨0⟩ ⟨2⟩

theorem renumbers_reversal : Renumbers reversal ringEdits reversedRingEdits := by
  have hids {P : TableId → Prop} (h : ∀ index < 3, P ⟨index⟩) :
      ∀ id, id.index < (tablesOf ringEdits).length → P id := fun id hid => h id.index hid
  refine ⟨(Equiv.injective _).injOn, hids ?_, hids ?_, hids ?_⟩ <;> decide

end Schema

/-- The ring whose last table cannot tell to which tables it refers. -/
def lostRing : FragileSchema := (FragileSchema.ofSchema Schema.ring).fail ⟨2⟩ .imported "lost"

/-- The reversed ring whose first table cannot tell to which tables it refers. -/
def reversedLostRing : FragileSchema :=
  (FragileSchema.ofSchema Schema.reversedRing).fail ⟨0⟩ .imported "lost"

/-- Reversing the ring reverses what its layout says. -/
theorem treeLayout_renamed_reversedRing :
    treeLayout .standard reversedLostRing [⟨0⟩, ⟨1⟩] .zero = .error (.modelAccess ⟨0⟩ "lost") ∧
      treeLayout .standard Schema.reversedRing [⟨2⟩, ⟨1⟩, ⟨0⟩] .zero =
        .ok ⟨[(⟨2⟩, ⟨0, 0⟩), (⟨1⟩, ⟨160, 0⟩), (⟨0⟩, ⟨320, 0⟩)], ⟨0, 60⟩⟩ := by
  have hlost : treeLayout .standard lostRing [⟨2⟩, ⟨1⟩] .zero =
      .error (.modelAccess ⟨2⟩ "lost") := by
    have hobjects : Network.Objects lostRing [⟨2⟩, ⟨1⟩] ⟨2⟩ (.modelAccess ⟨2⟩ "lost") :=
      .imported rfl rfl
    refine treeLayout_eq_error_iff.mpr (.related (by decide) ⟨⟨[], [⟨1⟩], rfl, ?_⟩, ?_⟩ hobjects)
    · exact fun id hid => absurd hid List.not_mem_nil
    · exact ⟨_, hobjects⟩
  have hring := treeLayout_eq_ok_iff.mpr ⟨_, _, accepted_ring, rfl⟩
  have hrenames : Diagram.Renames Schema.reversal lostRing reversedLostRing [⟨2⟩, ⟨1⟩] :=
    ⟨(Equiv.injective _).injOn, by decide, by decide, by decide⟩
  obtain ⟨hnodes, hschemas⟩ := treeLayout_renamed .standard .zero
  have herror := hnodes Schema.reversal lostRing reversedLostRing [⟨2⟩, ⟨1⟩] hrenames
  have hplaced := hschemas Schema.reversal _ _ _ _ [⟨0⟩, ⟨1⟩, ⟨2⟩] Schema.renumbers_reversal
    Schema.ofEdits?_ringEdits Schema.ofEdits?_reversedRingEdits (by decide)
  rw [hlost] at herror
  rw [hring] at hplaced
  exact ⟨herror, hplaced⟩

end SchemaLayout
