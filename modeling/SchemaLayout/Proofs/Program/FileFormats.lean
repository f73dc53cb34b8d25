import SchemaLayout.Proofs.Schema.Stored
import SchemaLayout.Proofs.Settings.Stored

/-!
# The formats of files

A file holds one value. Settings and descriptions are read from the values in which they are stored,
however these are written, and from no others. So nothing is lost when they are written and read
again.
-/

namespace SchemaLayout

open Ron (Document File Value)

variable {text : String} {v : Value}

theorem Settings.parse_eq_some_iff (hfile : File v text) {settings : Settings} :
    parse text = some settings ↔ settings.Stored v := by
  simp [parse, hfile.parse_eq, ofValue?_eq_some_iff]

theorem Description.parse_eq_some_iff (hfile : File v text) {description : Description} :
    parse text = some description ↔ description.Stored v := by
  simp [parse, hfile.parse_eq, ofValue?_eq_some_iff]

/-- Settings and descriptions are read from their compact form as they were, whatever the names of
tables and however large or small their positions and sizes. -/
theorem parse_toRon :
    (∀ description : Description, Description.parse description.toRon = some description) ∧
      ∀ settings : Settings, Settings.parse settings.toRon = some settings := by
  constructor
  · intro description
    exact (Description.parse_eq_some_iff (description.fits_toDocument.file_compact rfl)).mpr
      description.stored_toValue
  · intro settings
    exact (Settings.parse_eq_some_iff (settings.fits_toDocument.file_compact rfl)).mpr
      settings.stored_toValue

/-- Files are read by their fields, in whatever order these are written and whatever other fields
are among them. Settings of which some fields are written are read as they are in these fields and
as the standard ones in the others. A description is read exactly from the files in which it is
stored, where there may be no relationships if it has none and no position of a table that is at the
origin. A file in which something else is missing, or a field stands twice, cannot be read. -/
theorem parse_eq_of_file (hfile : File v text) :
    (∀ (settings : Settings) (written : Settings.Field → Bool), settings.StoredPartly written v →
      Settings.parse text = some (settings.keepOnly written)) ∧
    (∀ description : Description, description.Stored v ↔
      Description.parse text = some description) ∧
    (Settings.Faulty v → Settings.parse text = none) ∧
    (Description.Faulty v → Description.parse text = none) := by
  refine ⟨fun settings written h => ?_, fun description => ?_, fun h => ?_, fun h => ?_⟩
  · exact (Settings.parse_eq_some_iff hfile).mpr h.stored_keepOnly
  · exact (Description.parse_eq_some_iff hfile).symm
  · refine Option.eq_none_iff_forall_ne_some.mpr fun settings hsettings => ?_
    exact ((Settings.parse_eq_some_iff hfile).mp hsettings).not_faulty h
  · refine Option.eq_none_iff_forall_ne_some.mpr fun description hdescription => ?_
    exact ((Description.parse_eq_some_iff hfile).mp hdescription).not_faulty h

/-- A gap, and a field that settings do not have. -/
def gapAndTheme : Document :=
  .record [("horizontal_gap", .int (-5)), ("theme", .record [("horizontal_gap", .list [])])]

/-- One table, whose fields stand from the last to the first, with an owner among them. -/
def ownedTable : Document :=
  .record [("tables", .list [.record [
    ("size", .record [("height", .int 2), ("width", .int 1)]),
    ("owner", .record [("name", .text "b")]), ("name", .text "a")]])]

/-- One table with two names. -/
def twiceNamed : Document :=
  .record [("tables", .list [.record [("name", .text "a"), ("name", .text "b"),
    ("size", .record [("width", .int 1), ("height", .int 2)])]])]

/-- The size of a table may be written before its name, and from its height on. -/
theorem stored_ownedTable :
    (⟨[⟨"a", .zero, ⟨1, 2⟩⟩], []⟩ : Description).Stored ownedTable.toValue := by
  let size : Value := .record none [("height", .int none 2), ("width", .int none 1)]
  let owner : Value := .record none [("name", .text "b")]
  have hsize : (⟨1, 2⟩ : Size).Stored size :=
    ⟨_, .inl rfl, Ron.writtenOnce_iff.mpr ⟨_, .positive (by decide) rfl, rfl⟩,
      Ron.writtenOnce_iff.mpr ⟨_, .positive (by decide) rfl, rfl⟩⟩
  have htable : (⟨"a", .zero, ⟨1, 2⟩⟩ : Table).Stored
      (.record none [("size", size), ("owner", owner), ("name", .text "a")]) :=
    ⟨_, .inl rfl, Ron.writtenOnce_iff.mpr ⟨_, rfl, rfl⟩, .inr ⟨by simp [Ron.LeftOut], rfl⟩,
      Ron.writtenOnce_iff.mpr ⟨_, hsize, rfl⟩⟩
  exact ⟨_, .inl rfl, Ron.writtenOnce_iff.mpr ⟨_, ⟨_, rfl, .cons htable .nil⟩, rfl⟩,
    .inr ⟨by decide, rfl⟩⟩

/-- Of the gap and the theme the gap is read, and the table is read without its owner; a table with
two names is not read. -/
theorem parse_eq_of_file_ownedTable :
    Settings.parse "(horizontal_gap:-5,theme:(horizontal_gap:[]))" =
      some ⟨true, 50, ⟨.clamp (-5), 10⟩⟩ ∧
    Description.parse "(tables:[(size:(height:2,width:1),owner:(name:\"b\"),name:\"a\")])" =
      some ⟨[⟨"a", .zero, ⟨1, 2⟩⟩], []⟩ ∧
    Description.parse "(tables:[(name:\"a\",name:\"b\",size:(width:1,height:2))])" = none := by
  have hgap : gapAndTheme.Fits Ron.depthBudget := by simp +decide [gapAndTheme, Ron.depthBudget]
  have howned : ownedTable.Fits Ron.depthBudget := by simp +decide [ownedTable, Ron.depthBudget]
  have htwice : twiceNamed.Fits Ron.depthBudget := by simp +decide [twiceNamed, Ron.depthBudget]
  have hstored : (⟨false, 3, ⟨.clamp (-5), 7⟩⟩ : Settings).StoredPartly (· = .horizontalGap)
      gapAndTheme.toValue := by
    refine ⟨_, .inl rfl, fun field => ?_⟩
    cases field with
    | horizontalGap => exact Ron.writtenOnce_iff.mpr ⟨_, .negative rfl, rfl⟩
    | animated | frames | verticalGap => simp [Ron.LeftOut, Settings.Field.key, Document.toFields]
  have hfaulty : Description.Faulty twiceNamed.toValue := by
    refine .content List.mem_cons_self (.inl ⟨rfl, _, rfl, _, List.mem_cons_self, ?_⟩)
    exact .repeated List.mem_cons_self (.mk [] [] _ _ _)
  refine ⟨?_, ?_, ?_⟩
  · exact (parse_eq_of_file (hgap.file_compact (by decide +kernel))).1 _ _ hstored
  · exact ((parse_eq_of_file (howned.file_compact (by decide +kernel))).2.1 _).mp stored_ownedTable
  · exact (parse_eq_of_file (htwice.file_compact (by decide +kernel))).2.2.2 hfaulty

end SchemaLayout
