import SchemaLayout.Proofs.Program.FileFormats
import SchemaLayout.Proofs.Program.LayOut
import SchemaLayout.Proofs.Schema.Describing

/-!
# How the program ends

The program reads its settings and then the description of a schema, and it ends at the first thing
that is wrong with either. After that nothing can go wrong: the tables of the description are laid
out, and the list of their positions is printed.

`TablePosition.Printed` says what a printed text is without looking at how it is printed: a file of
the format that holds the list, so that nobody who reads such files finds anything else in it.
-/

namespace SchemaLayout

open Traversal

/-! ## What is printed of a list of positions -/

namespace TablePosition

variable {text : String} {v : Ron.Value} {tables : List TablePosition}

/-- Positions are read from the files that hold the list of them, however it is written. -/
theorem parseList_eq_some_iff (hfile : Ron.File v text) :
    parseList text = some tables ↔ Ron.Lists Stored tables v := by
  rw [parseList, hfile.parse_eq]
  exact Ron.toList?_eq_some_iff fun _ _ => ofValue?_eq_some_iff

/-- A text is what is printed of some positions: a file that holds the list of them, in which they
are read. -/
structure Printed (tables : List TablePosition) (text : String) : Prop where
  text_eq : text = printList tables
  file : ∃ v, Ron.File v text ∧ Ron.Lists Stored tables v
  parseList_eq : parseList text = some tables

theorem printed_printList (tables : List TablePosition) : Printed tables (printList tables) := by
  have hfits : (Ron.Document.list (tables.map toDocument)).Fits Ron.depthBudget := by
    simp [Ron.depthBudget]
  have hlists := Ron.lists_toValue stored_toValue tables
  exact ⟨rfl, ⟨_, hfits.file_pretty, hlists⟩, (parseList_eq_some_iff hfits.file_pretty).mpr hlists⟩

end TablePosition

/-! ## What is told of a description -/

/-- The numbers of the tables of a description, in their order. -/
def Description.tableIds (description : Description) : List TableId :=
  (List.range description.tables.length).map TableId.mk

/-- A list of positions has an entry for each table of a description, in their order: its name, and
where it is placed. -/
structure Description.Tells (description : Description) (placements : Placements TableId)
    (entries : List TablePosition) : Prop where
  names_eq : entries.map (·.name) = description.names
  find?_eq : ∀ index entry, entries[index]? = some entry →
    placements.find? ⟨index⟩ = some ⟨entry.x, entry.y⟩

section

variable {description : Description} {schema : Schema} {placements : Placements TableId}
  {entries entries' : List TablePosition}

/-- What is told of the tables of a schema is told of those of its description. -/
theorem Description.Tells.of_told (h : Schema.Records description.edits schema)
    (htold : List.Forall₂ (schema.Tells placements) schema.tableIds entries) :
    description.Tells placements entries := by
  rw [h.tableIds_eq, Schema.tablesOf_edits] at htold
  obtain ⟨hlength, hget⟩ := List.forall₂_iff_get.mp htold
  rw [List.length_map, List.length_range] at hlength
  have htells : ∀ index entry, entries[index]? = some entry →
      schema.Tells placements ⟨index⟩ entry := by
    intro index entry hentry
    obtain ⟨hindex, rfl⟩ := List.getElem?_eq_some_iff.mp hentry
    simpa using hget index (by simpa [hlength] using hindex) hindex
  refine ⟨List.ext_getElem (by simp [names, hlength]) fun index hindex hindex' => ?_,
    fun index entry hentry => (htells index entry hentry).2⟩
  rw [List.length_map] at hindex
  have hname := (htells index _ (List.getElem?_eq_getElem hindex)).1
  rw [h.table?_of_edits, List.getElem?_eq_getElem (by simpa [hlength])] at hname
  simpa [names] using (Option.some.inj hname).symm

/-- A description, together with where its tables are placed, determines what is told of it. -/
theorem Description.Tells.unique (h : description.Tells placements entries)
    (h' : description.Tells placements entries') : entries = entries' := by
  have hnames := h.names_eq.trans h'.names_eq.symm
  have hlength : entries.length = entries'.length := by simpa using congrArg List.length hnames
  refine List.ext_getElem hlength fun index hindex hindex' => ?_
  have hname : entries[index].name = entries'[index].name := by
    have hmap := List.getElem_of_eq hnames (i := index) (by simpa)
    rwa [List.getElem_map, List.getElem_map] at hmap
  have hplace := h.find?_eq index _ (List.getElem?_eq_getElem hindex)
  rw [h'.find?_eq index _ (List.getElem?_eq_getElem hindex'), Option.some.injEq,
    Point.mk.injEq] at hplace
  generalize entries[index] = entry at *
  generalize entries'[index] = entry' at *
  cases entry
  cases entry'
  simp_all

end

/-- A file that holds a text is read as this text. -/
theorem Files.readText_of_content {files : Files} {file text : String}
    (h : files file = some (.content text.toUTF8)) : files.readText file = .ok text := by
  have htext : String.fromUTF8? text.toUTF8 = some text := dif_pos text.isValidUTF8
  simp only [readText, h, htext]

/-! ## The stages of a run -/

namespace CommandLine

/-- The settings of a run: those of the settings file, or the standard ones if there is none. -/
inductive Chosen (files : Files) : Option String → Settings → Prop
  | standard : Chosen files none .standard
  | file {file text : String} {settings : Settings} (hread : files.readText file = .ok text)
      (hparse : Settings.parse text = some settings) : Chosen files (some file) settings

/-- What a run prints and why it fails, if it does. At each stage everything before it has gone
well. -/
inductive Arguments.Concludes (arguments : Arguments) (files : Files) :
    String → Option ProgramError → Prop
  | readSettings {file : String} {cause : ReadError} (hconfig : arguments.config = some file)
      (hread : files.readText file = .error cause) :
      Concludes arguments files "" (some (.readSettings file cause))
  | parseSettings {file text : String} (hconfig : arguments.config = some file)
      (hread : files.readText file = .ok text) (hparse : Settings.parse text = none) :
      Concludes arguments files "" (some (.parseSettings file))
  | readDiagram {settings : Settings} {cause : ReadError}
      (hsettings : Chosen files arguments.config settings)
      (hread : files.readText arguments.diagram = .error cause) :
      Concludes arguments files "" (some (.readDiagram arguments.diagram cause))
  | parseDiagram {settings : Settings} {text : String}
      (hsettings : Chosen files arguments.config settings)
      (hread : files.readText arguments.diagram = .ok text)
      (hparse : Description.parse text = none) :
      Concludes arguments files "" (some (.parseDiagram arguments.diagram))
  | invalidDiagram {settings : Settings} {text : String} {description : Description}
      {cause : DescriptionError} (hsettings : Chosen files arguments.config settings)
      (hread : files.readText arguments.diagram = .ok text)
      (hparse : Description.parse text = some description)
      (hschema : Schema.ofDescription description = .error cause) :
      Concludes arguments files "" (some (.invalidDiagram arguments.diagram cause))
  | success {settings : Settings} {text : String} {description : Description} {schema : Schema}
      {layout : TreeLayout TableId} {entries : List TablePosition} {output : String}
      (hsettings : Chosen files arguments.config settings)
      (hread : files.readText arguments.diagram = .ok text)
      (hparse : Description.parse text = some description)
      (hschema : Schema.ofDescription description = .ok schema)
      (hlayout : treeLayout settings.gaps schema description.tableIds arguments.origin = .ok layout)
      (htells : description.Tells layout.placements entries)
      (hprinted : TablePosition.Printed entries output) :
      Concludes arguments files output none

section

variable {files : Files} {arguments : Arguments} {settings : Settings} {text : String}
  {description : Description} {schema : Schema} {error : ProgramError}

theorem run_of_layOut {line : List String}
    (hline : Invocation.ofArguments line = .layOut arguments) :
    run files line = arguments.run files := by
  rw [run, hline, Invocation.perform]

theorem Chosen.loadSettings_eq {config : Option String} (h : Chosen files config settings) :
    files.loadSettings config = .ok settings := by
  cases h with
  | standard => rfl
  | file hread hparse =>
    simp [Files.loadSettings, hread, hparse, Except.mapError, bind, Except.bind]

/-- A run that cannot choose its settings ends there. -/
theorem Arguments.run_of_loadSettings (h : files.loadSettings arguments.config = .error error) :
    (arguments.run files).output = "" ∧ (arguments.run files).failure = some (.program error) := by
  simp [run, h]

/-- A run that cannot load the schema ends there, if it has come so far. -/
theorem Arguments.run_of_loadSchema (hsettings : Chosen files arguments.config settings)
    (h : files.loadSchema arguments.diagram = .error error) :
    (arguments.run files).output = "" ∧ (arguments.run files).failure = some (.program error) := by
  simp [run, hsettings.loadSettings_eq, Files.layOut, h]

/-- The tables of a description can be laid out, and the run tells of them. -/
theorem Arguments.exists_tells (arguments : Arguments)
    (hsettings : Chosen files arguments.config settings)
    (hread : files.readText arguments.diagram = .ok text)
    (hparse : Description.parse text = some description)
    (hschema : Schema.ofDescription description = .ok schema) : ∃ layout entries,
    treeLayout settings.gaps schema description.tableIds arguments.origin = .ok layout ∧
      description.Tells layout.placements entries ∧
      TablePosition.Printed entries (arguments.run files).output ∧
      (arguments.run files).failure = none := by
  have hload : files.loadSchema arguments.diagram = .ok schema := by
    simp [Files.loadSchema, hread, hparse, hschema, Except.mapError, bind, Except.bind]
  have hrecords := Schema.records_of_ofEdits? (Schema.ofEdits?_of_ofDescription hschema)
  have hids : schema.tableIds = description.tableIds := by
    rw [hrecords.tableIds_eq, Schema.tablesOf_edits, Description.tableIds]
  obtain ⟨layout, entries, hlayout, -, hlaidOut, -⟩ :=
    (Schema.reachable_of_ofDescription hschema).exists_laidOut (.refl schema)
      (show (arguments.adjust settings).gaps = (arguments.adjust settings).gaps from rfl)
      arguments.origin
  rw [hids] at hlayout
  have hrun : (arguments.run files).output = TablePosition.printList entries ∧
      (arguments.run files).failure = none := by
    simp [run, hsettings.loadSettings_eq, Files.layOut, hload, hlaidOut.result_eq, Except.mapError]
  refine ⟨layout, entries, hlayout, .of_told hrecords hlaidOut.told, ?_, hrun.2⟩
  rw [hrun.1]
  exact TablePosition.printed_printList entries

/-- A run prints and fails as its stages say. -/
theorem Arguments.Concludes.run_eq {output : String} {error? : Option ProgramError}
    (h : arguments.Concludes files output error?) :
    (arguments.run files).output = output ∧
      (arguments.run files).failure = error?.map .program := by
  cases h with
  | readSettings hconfig hread =>
    refine run_of_loadSettings ?_
    simp [Files.loadSettings, hconfig, hread, Except.mapError, bind, Except.bind]
  | parseSettings hconfig hread hparse =>
    refine run_of_loadSettings ?_
    simp [Files.loadSettings, hconfig, hread, hparse, Except.mapError, bind, Except.bind]
  | readDiagram hsettings hread =>
    refine run_of_loadSchema hsettings ?_
    simp [Files.loadSchema, hread, Except.mapError, bind, Except.bind]
  | parseDiagram hsettings hread hparse =>
    refine run_of_loadSchema hsettings ?_
    simp [Files.loadSchema, hread, hparse, Except.mapError, bind, Except.bind]
  | invalidDiagram hsettings hread hparse hschema =>
    refine run_of_loadSchema hsettings ?_
    simp [Files.loadSchema, hread, hparse, hschema, Except.mapError, bind, Except.bind]
  | success hsettings hread hparse hschema hlayout htells hprinted =>
    obtain ⟨layout, entries, hlayout', htells', hprinted', hfailure⟩ :=
      arguments.exists_tells hsettings hread hparse hschema
    cases hlayout.symm.trans hlayout'
    rw [hprinted.text_eq, hprinted'.text_eq, htells.unique htells']
    exact ⟨rfl, hfailure⟩

/-- Every run comes to one of its stages. -/
theorem Arguments.exists_concludes (arguments : Arguments) (files : Files) :
    ∃ output error?, arguments.Concludes files output error? := by
  have hdiagram {settings : Settings} (hsettings : Chosen files arguments.config settings) :
      ∃ output error?, arguments.Concludes files output error? := by
    cases hread : files.readText arguments.diagram with
    | error cause => exact ⟨_, _, .readDiagram hsettings hread⟩
    | ok text =>
      cases hparse : Description.parse text with
      | none => exact ⟨_, _, .parseDiagram hsettings hread hparse⟩
      | some description =>
        cases hschema : Schema.ofDescription description with
        | error cause => exact ⟨_, _, .invalidDiagram hsettings hread hparse hschema⟩
        | ok schema =>
          obtain ⟨layout, entries, hlayout, htells, hprinted, -⟩ :=
            arguments.exists_tells hsettings hread hparse hschema
          exact ⟨_, _, .success hsettings hread hparse hschema hlayout htells hprinted⟩
  cases hconfig : arguments.config with
  | none => exact hdiagram (hconfig.symm ▸ Chosen.standard)
  | some file =>
    cases hread : files.readText file with
    | error cause => exact ⟨_, _, .readSettings hconfig hread⟩
    | ok text =>
      cases hparse : Settings.parse text with
      | none => exact ⟨_, _, .parseSettings hconfig hread hparse⟩
      | some settings => exact hdiagram (hconfig.symm ▸ Chosen.file hread hparse)

end

/-! ## The outcome -/

/-- The program fails with the error of the first stage that fails, and then it prints nothing; and
if the settings and the description can be read, it does not fail any more, and prints the list of
the positions of the tables, which is read as such. -/
theorem run_concludes {files : Files} {line : List String} {arguments : Arguments}
    (hline : Invocation.ofArguments line = .layOut arguments) (output : String)
    (error? : Option ProgramError) :
    arguments.Concludes files output error? ↔
      (run files line).output = output ∧ (run files line).failure = error?.map .program := by
  rw [run_of_layOut hline]
  constructor
  · exact fun h => h.run_eq
  · rintro ⟨rfl, hfailure⟩
    obtain ⟨output, error?', h⟩ := arguments.exists_concludes files
    obtain ⟨houtput, hfailure'⟩ := h.run_eq
    have herror : error?.map Failure.program = error?'.map .program := hfailure.symm.trans hfailure'
    rw [houtput, Option.map_injective (fun _ _ => Failure.program.inj) herror]
    exact h

/-! ### Two tables whose names are not plain -/

/-- The second of two tables refers to the first. There are quotation marks in the name of one, and
a line break in that of the other. -/
def quotedTables : Description where
  tables := [⟨"a \"b\"", .zero, ⟨100, 50⟩⟩, ⟨"c\nd", ⟨3, 4⟩, ⟨30, 20⟩⟩]
  references := [⟨"a \"b\"", "c\nd"⟩]

/-- The text that describes the two tables. -/
def quotedTablesText : String :=
  "(tables: [(name: \"a \\\"b\\\"\", size: (width: 100, height: 50)), " ++
    "(size: (height: 20, width: 30), position: (x: 3, y: 4), name: \"c\\nd\")], " ++
    "relationships: [(pk_table: \"a \\\"b\\\"\", fk_table: \"c\\nd\")])"

/-- The text of settings with a wider gap between columns. -/
def wideSettingsText : String := "(horizontal_gap: 100, animation_enabled: false)"

/-- The files with these texts. -/
def quotedFiles : Files
  | "tables.ron" => some (.content quotedTablesText.toUTF8)
  | "settings.ron" => some (.content wideSettingsText.toUTF8)
  | _ => none

/-- What is asked for by the line on which both files are named. -/
def quotedArguments : Arguments := ⟨"tables.ron", some "settings.ron", ⟨7, 0⟩, none, true⟩

/-- The two tables, the second to the right of the first. -/
def quotedPositions : List TablePosition := [⟨"a \"b\"", 7, 0⟩, ⟨"c\nd", 207, 0⟩]

/-- The network of the two tables. -/
def quotedNetwork : Network Coord 2 := ⟨#v[⟨100, 50⟩, ⟨30, 20⟩], .ofFn fun i => [i.rev]⟩

theorem parse_quoted : Settings.parse wideSettingsText = some ⟨false, 50, ⟨100, 10⟩⟩ ∧
    Description.parse quotedTablesText = some quotedTables := by
  constructor <;> decide +kernel

theorem ofArguments_quoted : Invocation.ofArguments
      ["tables.ron", "--config", "settings.ron", "--origin-x", "7"] = .layOut quotedArguments := by
  decide

theorem accepted_quoted {schema : Schema} (h : Schema.Records quotedTables.edits schema) :
    Accepted ⟨100, 10⟩ schema [⟨0⟩, ⟨1⟩] ⟨7, 0⟩ quotedNetwork
      ⟨#v[some ⟨7, 0⟩, some ⟨207, 0⟩], ⟨7, 60⟩⟩ := by
  let tables : Vector TableId 2 := listed [⟨0⟩, ⟨1⟩]
  have hrelated : ∀ i : Fin 2, (quotedNetwork.related.get i).map tables.get =
      schema.exported (tables.get i) ++ schema.imported (tables.get i) := by
    simp only [h.exported_eq, h.imported_eq]
    decide
  have hsize : ∀ i : Fin 2, Diagram.size? schema (tables.get i) =
      some (quotedNetwork.sizes.get i) := by
    simp only [Schema.size?_eq, h.table?_of_edits]
    decide
  have hrange : List.finRange 2 = [0, 1] := by decide
  refine ⟨⟨injective_get_listed.mpr (by decide), fun i => ⟨_, _, rfl, rfl, hrelated i⟩, hsize⟩, ?_⟩
  show Columns.Fills _ _ _ (.replicate 2 none) (List.finRange 2) _ _
  rw [hrange]
  refine .visit rfl (.visit rfl .nil .nil) (.skip ?_ .nil)
  decide

/-- The two tables are laid out with the gaps of the settings file. -/
theorem concludes_quoted :
    quotedArguments.Concludes quotedFiles (TablePosition.printList quotedPositions) none := by
  obtain ⟨hsettings, htables⟩ := parse_quoted
  have hsound : ∃ schema, Schema.ofDescription quotedTables = .ok schema :=
    Schema.exists_ofDescription_eq_ok_iff.mpr ⟨by decide, by decide⟩
  obtain ⟨schema, hschema⟩ := hsound
  have hrecords := Schema.records_of_ofEdits? (Schema.ofEdits?_of_ofDescription hschema)
  have hlayout := treeLayout_eq_ok_iff.mpr ⟨_, _, accepted_quoted hrecords, rfl⟩
  refine .success (.file (Files.readText_of_content rfl) hsettings)
    (Files.readText_of_content rfl) htables hschema hlayout ⟨rfl, fun index entry hentry => ?_⟩
    (TablePosition.printed_printList quotedPositions)
  match index with
  | 0 | 1 =>
    cases hentry
    rfl
  | _ + 2 => cases hentry

/-- If neither the settings nor the diagram can be found, the settings are missed first; if both are
there, the positions of the two tables can be read from what is printed. -/
theorem run_concludes_quoted :
    ((run quotedFiles ["diagram.ron", "--config", "missing.ron"]).output = "" ∧
      (run quotedFiles ["diagram.ron", "--config", "missing.ron"]).failure =
        some (.program (.readSettings "missing.ron" .notFound))) ∧
    ∃ ending, run quotedFiles ["tables.ron", "--config", "settings.ron", "--origin-x", "7"] =
        ending ∧
      ending.failure = none ∧ TablePosition.parseList ending.output =
        some [⟨"a \"b\"", 7, 0⟩, ⟨"c\nd", 207, 0⟩] := by
  have hmissing : Invocation.ofArguments ["diagram.ron", "--config", "missing.ron"] =
      .layOut ⟨"diagram.ron", some "missing.ron", ⟨0, 0⟩, none, true⟩ := by decide
  refine ⟨(run_concludes hmissing _ _).mp (.readSettings rfl rfl), _, rfl, ?_⟩
  obtain ⟨houtput, hfailure⟩ := (run_concludes ofArguments_quoted _ _).mp concludes_quoted
  rw [houtput]
  exact ⟨hfailure, (TablePosition.printed_printList quotedPositions).parseList_eq⟩

/-! ## Reading what is printed -/

/-- What is printed is read as it was: any list of positions, whatever the names of the tables; so
where a run succeeds, what it has printed is read as one position for each table of the description,
with the names of the tables in their order. -/
theorem parseList_output :
    (∀ tables : List TablePosition,
      TablePosition.parseList (TablePosition.printList tables) = some tables) ∧
    ∀ {files : Files} {line : List String} {arguments : Arguments},
      Invocation.ofArguments line = .layOut arguments → (run files line).failure = none →
      ∃ text description tables, files.readText arguments.diagram = .ok text ∧
        Description.parse text = some description ∧
        (run files line).output = TablePosition.printList tables ∧
        TablePosition.parseList (run files line).output = some tables ∧
        tables.map (·.name) = description.names := by
  refine ⟨fun tables => (TablePosition.printed_printList tables).parseList_eq,
    fun {files line arguments} hline hfailure => ?_⟩
  obtain ⟨output, error?, h⟩ := arguments.exists_concludes files
  obtain ⟨rfl, hfailure'⟩ := h.run_eq
  rw [run_of_layOut hline] at hfailure ⊢
  cases error? with
  | some error => cases hfailure.symm.trans hfailure'
  | none =>
    generalize (arguments.run files).output = output at h ⊢
    cases h with
    | success _ hread hparse _ _ htells hprinted =>
      exact ⟨_, _, _, hread, hparse, hprinted.text_eq, hprinted.parseList_eq, htells.names_eq⟩

/-- Positions under names that look like the end of an entry, or are nothing at all. -/
def awkwardPositions : List TablePosition := [⟨"\"), (name: \"", 5, 0⟩, ⟨"", 0, 0⟩, ⟨"]\n", 0, 9⟩]

/-- Awkward names are read from what is printed, and so are those of the two tables. -/
theorem parseList_output_quoted :
    TablePosition.parseList (TablePosition.printList awkwardPositions) = some awkwardPositions ∧
    ∃ tables, TablePosition.parseList
        (run quotedFiles ["tables.ron", "--config", "settings.ron", "--origin-x", "7"]).output =
          some tables ∧
      tables.map (·.name) = ["a \"b\"", "c\nd"] := by
  have hfailure : (run quotedFiles
      ["tables.ron", "--config", "settings.ron", "--origin-x", "7"]).failure = none := by
    rw [run_of_layOut ofArguments_quoted]
    exact concludes_quoted.run_eq.2
  obtain ⟨text, description, tables, hread, hparse, -, hlist, hnames⟩ :=
    parseList_output.2 ofArguments_quoted hfailure
  cases hread.symm.trans (Files.readText_of_content rfl)
  cases hparse.symm.trans parse_quoted.2
  exact ⟨parseList_output.1 awkwardPositions, tables, hlist, hnames⟩

end CommandLine

end SchemaLayout
