import SchemaLayout.Diagram.Recorded
import SchemaLayout.Proofs.Diagram.Lawful
import SchemaLayout.Proofs.Tree.Renaming

/-!
# Records of diagrams

Whatever a diagram is made of, a layout of some of its nodes reads no more of it than a record of
these nodes holds: `treeLayout_ofDiagram` says that the record is laid out like the diagram, or is
refused for the same reason. The nodes of a record can be moved like those of any lawful diagram.
-/

namespace SchemaLayout

variable {δ ι : Type} [Diagram δ ι]

/-- What a diagram says of a node that it holds. -/
def Diagram.record? (diagram : δ) (node : ι) : Option (NodeRecord ι) := do
  let size ← Diagram.size? diagram node
  let position ← Diagram.position? diagram node
  return ⟨size, position, Diagram.exported diagram node, Diagram.imported diagram node⟩

theorem Diagram.record?_eq_some_iff {diagram : δ} {node : ι} {record : NodeRecord ι} :
    Diagram.record? diagram node = some record ↔
      Diagram.size? diagram node = some record.size ∧
      Diagram.position? diagram node = some record.position ∧
      Diagram.exported diagram node = record.exported ∧
      Diagram.imported diagram node = record.imported := by
  obtain ⟨size, position, exported, imported⟩ := record
  unfold Diagram.record?
  cases Diagram.size? diagram node <;> cases Diagram.position? diagram node <;> simp

namespace RecordedDiagram

variable [BEq ι] [Hashable ι]

/-- The record of some nodes of a diagram. -/
def ofDiagram (diagram : δ) (nodes : List ι) : RecordedDiagram ι :=
  .ofList (nodes.filterMap fun node =>
    (Diagram.record? diagram node).map fun record => (node, record))

/-- A recorded diagram says of a node what is recorded. -/
theorem record?_eq (diagram : RecordedDiagram ι) (node : ι) :
    Diagram.record? diagram node = diagram.nodes[node]? := by
  show (diagram.nodes[node]?.map (·.size)).bind (fun size =>
    (diagram.nodes[node]?.map (·.position)).bind fun position =>
      some (NodeRecord.mk size position
        ((diagram.nodes[node]?.map (·.exported)).getD unknownNode)
        ((diagram.nodes[node]?.map (·.imported)).getD unknownNode))) = _
  cases diagram.nodes[node]? <;> rfl

variable [LawfulBEq ι]

/-- A node that is moved is recorded at its new position, and no other record changes. -/
instance : LawfulDiagram (RecordedDiagram ι) where
  isSome_move? diagram node position := by
    show (diagram.nodes[node]?.map _).isSome = (diagram.nodes[node]?.map _).isSome
    rw [Option.isSome_map, Option.isSome_map]
  position?_self {diagram next node position} h := by
    obtain ⟨record, -, rfl⟩ := Option.map_eq_some_iff.mp h
    show Option.map _ (diagram.nodes.insert node _)[node]? = _
    rw [Std.HashMap.getElem?_insert_self]
    rfl
  position?_of_ne {diagram next node other position} h hne := by
    obtain ⟨record, -, rfl⟩ := Option.map_eq_some_iff.mp h
    show Option.map _ (diagram.nodes.insert node _)[other]? = Option.map _ diagram.nodes[other]?
    rw [Std.HashMap.getElem?_insert, if_neg (by simpa using hne.symm)]

/-- A node that is listed more than once is recorded alike each time, so it does not matter which
of its records is the last. -/
theorem getElem?_insertMany {diagram : δ} {nodes : List ι} {node : ι} {record : NodeRecord ι}
    {records : Std.HashMap ι (NodeRecord ι)} (hrecord : Diagram.record? diagram node = some record)
    (h : node ∈ nodes ∨ records[node]? = some record) :
    (records.insertMany (nodes.filterMap fun node =>
      (Diagram.record? diagram node).map fun record => (node, record)))[node]? = some record := by
  induction nodes generalizing records with
  | nil => exact h.resolve_left List.not_mem_nil
  | cons other nodes ih =>
    by_cases hother : other = node
    · subst hother
      rw [List.filterMap_cons_some (by rw [hrecord]; rfl), Std.HashMap.insertMany_cons]
      exact ih (.inr Std.HashMap.getElem?_insert_self)
    · have hrest : node ∈ nodes ∨ records[node]? = some record :=
        h.imp_left fun hmem => (List.mem_cons.mp hmem).resolve_left (Ne.symm hother)
      cases hrecord' : Diagram.record? diagram other with
      | none =>
        rw [List.filterMap_cons_none (by rw [hrecord']; rfl)]
        exact ih hrest
      | some record' =>
        rw [List.filterMap_cons_some (by rw [hrecord']; rfl), Std.HashMap.insertMany_cons]
        refine ih (hrest.imp_right fun hnode => ?_)
        rw [Std.HashMap.getElem?_insert, if_neg (by simpa using hother), hnode]

/-- The record of some nodes of a diagram says of them what the diagram says. -/
theorem record?_ofDiagram {diagram : δ} {nodes : List ι} {node : ι} {record : NodeRecord ι}
    (hrecord : Diagram.record? diagram node = some record) (hnode : node ∈ nodes) :
    Diagram.record? (ofDiagram diagram nodes) node = some record := by
  rw [record?_eq, ofDiagram, ofList, Std.HashMap.ofList_eq_insertMany_empty]
  exact getElem?_insertMany hrecord (.inl hnode)

end RecordedDiagram

/-! ## Layouts -/

theorem TreeLayout.renameOutcome_id (outcome : Except (LayoutError ι) (TreeLayout ι)) :
    renameOutcome id outcome = outcome := by
  cases outcome with
  | ok layout =>
    show Except.ok (TreeLayout.mk (layout.placements.map id) layout.finish) = _
    rw [List.map_id]
  | error e => cases e <;> rfl

/-- Diagrams that say the same of the listed nodes are laid out alike. -/
theorem treeLayout_eq_of_record? {δ' : Type} [Diagram δ' ι] [BEq ι] [LawfulBEq ι] [Hashable ι]
    {diagram : δ} {diagram' : δ'} {nodes : List ι}
    (h : ∀ node ∈ nodes, ∃ record, Diagram.record? diagram node = some record ∧
      Diagram.record? diagram' node = some record) (gaps : Gaps) (origin : Point) :
    treeLayout gaps diagram' nodes origin = treeLayout gaps diagram nodes origin := by
  have hrenames : Diagram.Renames id diagram diagram' nodes := by
    refine ⟨Set.injOn_id _, fun node hnode => ?_, fun node hnode => ?_, fun node hnode => ?_⟩ <;>
      obtain ⟨record, hrecord, hrecord'⟩ := h node hnode <;>
      obtain ⟨hsize, -, hexported, himported⟩ := Diagram.record?_eq_some_iff.mp hrecord <;>
      obtain ⟨hsize', -, hexported', himported'⟩ := Diagram.record?_eq_some_iff.mp hrecord'
    · exact hsize'.trans hsize.symm
    · rw [id, hexported, hexported', List.map_id_fun, Except.map_id]
      rfl
    · rw [id, himported, himported', List.map_id_fun, Except.map_id]
      rfl
  have heq := hrenames.treeLayout_eq gaps origin
  rwa [List.map_id, TreeLayout.renameOutcome_id] at heq

/-- Nodes that a diagram holds are laid out from their records as from the diagram. -/
theorem treeLayout_ofDiagram [BEq ι] [LawfulBEq ι] [Hashable ι] {diagram : δ} {nodes : List ι}
    (hheld : ∀ node ∈ nodes, ∃ record, Diagram.record? diagram node = some record) (gaps : Gaps)
    (origin : Point) :
    treeLayout gaps (RecordedDiagram.ofDiagram diagram nodes) nodes origin =
      treeLayout gaps diagram nodes origin := by
  refine treeLayout_eq_of_record? (fun node hnode => ?_) gaps origin
  obtain ⟨record, hrecord⟩ := hheld node hnode
  exact ⟨record, hrecord, RecordedDiagram.record?_ofDiagram hrecord hnode⟩

end SchemaLayout
