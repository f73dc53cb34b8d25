import SchemaLayout.CommandLine
import SchemaLayout.Proofs.Session.Playing
import SchemaLayout.Proofs.Tree.Accepted

/-!
# Laying out all tables

All tables of a schema can be laid out, and they end where the layout has put them: it makes no
difference whether they get there at once or in some number of frames, nor where they were before.
What the program prints is therefore determined by the relationships and sizes of the tables, by
the gaps and by the origin.
-/

namespace SchemaLayout

namespace Schema

variable {s t : Schema} {gaps : Gaps} {settings : Settings} {origin : Point}
  {layout : TreeLayout TableId} {placements : Placements TableId} {place : TableId → Point}

/-! ## The layout of all tables -/

/-- Relationships only lead to tables of the schema. -/
theorem WellFormed.mem_tableIds_of_related (h : s.WellFormed) {u v : TableId}
    (hv : v ∈ s.exported u ++ s.imported u) : v ∈ s.tableIds := by
  rw [mem_tableIds]
  rcases List.mem_append.mp hv with hv | hv
  · exact lt_size_of_mem_imported (h.mem_exported_iff.mp hv)
  · exact lt_size_of_mem_exported (h.mem_exported_iff.mpr hv)

/-- All tables of a schema can be laid out together. -/
theorem WellFormed.exists_treeLayout (h : s.WellFormed) (gaps : Gaps) (origin : Point) :
    ∃ layout, treeLayout gaps s s.tableIds origin = .ok layout ∧
      ∀ id ∈ s.tableIds, ∃ position, layout.placements.find? id = some position := by
  obtain ⟨network, hresolves⟩ := exists_resolves s.nodup_tableIds
    (fun id _ => ⟨s.exported id, s.imported id, rfl, rfl, fun _ => h.mem_tableIds_of_related⟩)
    fun _ => exists_size?_of_mem
  exact exists_treeLayout_eq_ok hresolves gaps origin

/-- The positions of the tables do not influence their layout. -/
theorem Alike.treeLayout_eq (h : s.Alike t) :
    treeLayout gaps t t.tableIds origin = treeLayout gaps s s.tableIds origin := by
  rw [h.tableIds]
  exact treeLayout_congr (fun id => congrArg _ (h.exported id).symm)
    (fun id => congrArg _ (h.imported id).symm) fun id => (h.size id).symm

/-! ## Where the tables end -/

/-- An entry tells the name of a table and the position that it has been given. -/
def Tells (schema : Schema) (placements : Placements TableId) (id : TableId)
    (entry : TablePosition) : Prop :=
  (schema.table? id).map (·.name) = some entry.name ∧
    placements.find? id = some ⟨entry.x, entry.y⟩

/-- What is told of a table is determined by its name and its position. -/
theorem rightUnique_tells (schema : Schema) (placements : Placements TableId) :
    Relator.RightUnique (schema.Tells placements) := by
  rintro id ⟨name, x, y⟩ ⟨name', x', y'⟩ ⟨hname, hfind⟩ ⟨hname', hfind'⟩
  cases hname.symm.trans hname'
  cases hfind.symm.trans hfind'
  rfl

/-- An outcome in which all tables of a schema are where a layout has put them, and which tells so
in the order of the tables. -/
structure LaidOut (schema : Schema) (layout : TreeLayout TableId) (tables : List TablePosition)
    (outcome : Session.Outcome Schema TableId (List TablePosition)) : Prop where
  result_eq : outcome.result = .ok tables
  told : List.Forall₂ (schema.Tells layout.placements) schema.tableIds tables
  alike : schema.Alike outcome.diagram
  placed : ∀ id ∈ schema.tableIds,
    Diagram.position? outcome.diagram id = layout.placements.find? id

/-- A layout tells the same of all tables in all outcomes. -/
theorem LaidOut.unique {tables tables' : List TablePosition}
    {outcome outcome' : Session.Outcome Schema TableId (List TablePosition)}
    (h : s.LaidOut layout tables outcome) (h' : s.LaidOut layout tables' outcome') :
    tables = tables' :=
  (rightUnique_tells s layout.placements).forall₂ h.told h'.told

/-- The positions of tables that have been moved tell where they have been moved. -/
theorem Alike.told (h : s.Alike t)
    (hplaced : ∀ id ∈ s.tableIds, Diagram.position? t id = some (place id))
    (hplace : ∀ id ∈ s.tableIds, placements.find? id = some (place id)) :
    List.Forall₂ (s.Tells placements) s.tableIds t.tablePositions := by
  rw [tablePositions, ← h.tableIds]
  refine Traversal.forall₂_filterMap fun id hid => ?_
  obtain ⟨table, htable⟩ := exists_table?_of_mem (h.tableIds ▸ hid)
  refine ⟨⟨table.name, table.position.x, table.position.y⟩, ?_, ?_, ?_⟩
  · rw [htable]
    rfl
  · rw [h.name, htable]
    rfl
  · have hposition := hplaced id hid
    rw [position?_eq, htable] at hposition
    rw [hplace id hid, ← hposition]
    rfl

/-! ## How they get there -/

/-- What is left after a run is to play its frames and to read the positions. -/
theorem layOut_yields {session session' : Session TableId} {pending : Bool} {t u : Schema}
    (hrun : ((Session.ofSettings settings).run s s.tableIds origin).Yields session t pending)
    (hrest : Session.Outcome.Yields
      (if pending then session.showAll t else .unchanged session t ()) session' u ()) :
    (s.layOut settings origin).Yields session' u u.tablePositions := by
  unfold layOut
  exact (hrun.andThen hrest).andThen (Session.Outcome.yields_unchanged ..)

/-- Laying out all tables moves them to their places, be it at once or frame by frame. -/
theorem exists_layOut_yields (hlayout : treeLayout settings.gaps s s.tableIds origin = .ok layout)
    (hplace : ∀ id ∈ s.tableIds, layout.placements.find? id = some (place id)) :
    ∃ session t, (s.layOut settings origin).Yields session t t.tablePositions ∧
      s.Moved place s.tableIds t := by
  obtain ⟨animation, source, hcarries, -, -, -, hsetup⟩ := Session.exists_setup_yields
    (.ofSettings settings) hlayout (fun _ => exists_position?_of_mem) hplace
  have hids : ∀ id ∈ s.tableIds, id ∈ s.tableIds := fun _ hid => hid
  cases hpending : settings.animated && !animation.isDone with
  | true =>
    -- there are frames to play
    have hleft : animation.isDone = false := by
      simpa using (Bool.and_eq_true_iff.mp hpending).2
    obtain ⟨t, hshow, hmoved⟩ := Session.exists_showAll_yields settings hcarries hids hleft
    exact ⟨_, t, layOut_yields (Session.run_yields_true hsetup hpending) hshow, hmoved⟩
  | false =>
    -- no animation is wanted, or it has no frames
    obtain ⟨t, hfinish, hmoved⟩ := Session.exists_finish_yields settings hcarries hids
    exact ⟨_, t, layOut_yields (Session.run_yields_false hsetup hpending hfinish)
      (Session.Outcome.yields_unchanged ..), hmoved⟩

/-- However the tables of a schema get to their places, and wherever they were before, they end
where the layout has put them. -/
theorem Alike.exists_laidOut (hst : s.Alike t)
    (hlayout : treeLayout settings.gaps s s.tableIds origin = .ok layout)
    (hfind : ∀ id ∈ s.tableIds, ∃ position, layout.placements.find? id = some position) :
    ∃ tables, s.LaidOut layout tables (t.layOut settings origin) := by
  choose! place hplace using hfind
  obtain ⟨session, u, hyields, hmoved⟩ := exists_layOut_yields (s := t)
    (hst.treeLayout_eq.trans hlayout) fun id hid => hplace id (hst.tableIds ▸ hid)
  -- the tables of `t` have been moved, which for their places is the same as those of `s`
  have halike := hst.trans hmoved.alike
  have hplaced : ∀ id ∈ s.tableIds, Diagram.position? u id = some (place id) := fun id hid =>
    hmoved.placed id (hst.tableIds ▸ hid)
  refine ⟨u.tablePositions, hyields.result_eq, ?_, ?_, ?_⟩
  · exact halike.told hplaced hplace
  · rw [hyields.diagram_eq]
    exact halike
  · intro id hid
    rw [hyields.diagram_eq, hplaced id hid, hplace id hid]

/-- Two schemas that are alike end alike under settings with the same gaps, and a schema that has
been laid out stays as it is when it is laid out again. -/
theorem Reachable.exists_laidOut (h : s.Reachable) (hst : s.Alike t) {settings' : Settings}
    (hgaps : settings.gaps = settings'.gaps) (origin : Point) : ∃ layout tables,
    treeLayout settings.gaps s s.tableIds origin = .ok layout ∧
      treeLayout settings'.gaps t t.tableIds origin = .ok layout ∧
      s.LaidOut layout tables (s.layOut settings origin) ∧
      s.LaidOut layout tables (t.layOut settings' origin) ∧
      s.LaidOut layout tables ((s.layOut settings origin).diagram.layOut settings' origin) := by
  obtain ⟨layout, hlayout, hfind⟩ := h.wellFormed.exists_treeLayout settings.gaps origin
  have hlayout' : treeLayout settings'.gaps s s.tableIds origin = .ok layout := hgaps ▸ hlayout
  -- one layout serves all three, so what they tell is the same
  obtain ⟨tables, hfirst⟩ := (Alike.refl s).exists_laidOut hlayout hfind
  obtain ⟨tables', hother⟩ := hst.exists_laidOut hlayout' hfind
  obtain ⟨tables'', hagain⟩ := hfirst.alike.exists_laidOut hlayout' hfind
  obtain rfl := hfirst.unique hother
  obtain rfl := hfirst.unique hagain
  exact ⟨layout, tables, hlayout, hst.treeLayout_eq.trans hlayout', hfirst, hother, hagain⟩

end Schema

/-! ## The command line -/

/-- What a file describes is built by the operations on schemas. -/
theorem Files.reachable_of_loadSchema {files : Files} {file : String} {schema : Schema}
    (h : files.loadSchema file = .ok schema) : schema.Reachable := by
  unfold loadSchema at h
  obtain ⟨text, -, h⟩ := Traversal.bind_eq_ok_iff.mp h
  split at h
  · exact Schema.reachable_of_ofDescription (Traversal.mapError_eq_ok_iff.mp h)
  · cases h

namespace CommandLine

variable {files : Files} {arguments : Arguments} {settings : Settings} {schema : Schema}
  {tables : List TablePosition}

/-- Nothing is printed where a file is wrong. -/
theorem Arguments.output_run_eq_empty
    (h : (files.loadSettings arguments.config).toOption = none ∨
      (files.loadSchema arguments.diagram).toOption = none) :
    (arguments.run files).output = "" := by
  unfold run
  split <;> rename_i hsettings
  · rfl
  · rw [hsettings] at h
    have hnone := h.resolve_left (Option.some_ne_none _)
    cases hschema : files.loadSchema arguments.diagram with
    | error e => simp only [Files.layOut, hschema]
    | ok schema =>
      rw [hschema] at hnone
      cases hnone

/-- The positions of the tables are printed where nothing goes wrong. -/
theorem Arguments.output_run (hsettings : files.loadSettings arguments.config = .ok settings)
    (hschema : files.loadSchema arguments.diagram = .ok schema)
    (hresult : (schema.layOut (arguments.adjust settings) arguments.origin).result = .ok tables) :
    (arguments.run files).output = TablePosition.printList tables := by
  have hmap : Except.mapError ProgramError.layout (.ok tables : Except (LayoutError TableId) _) =
      .ok tables := rfl
  simp only [run, hsettings, Files.layOut, hschema, hresult, hmap]

/-- What is printed depends on nothing but the schema apart from its positions, the gaps and the
origin. -/
theorem Arguments.output_run_congr {files' : Files} {arguments' : Arguments}
    (horigin : arguments.origin = arguments'.origin)
    (hschema : Option.Rel Schema.Alike (files.loadSchema arguments.diagram).toOption
      (files'.loadSchema arguments'.diagram).toOption)
    (hgaps : (files.loadSettings arguments.config).toOption.map (·.gaps) =
      (files'.loadSettings arguments'.config).toOption.map (·.gaps)) :
    (arguments.run files).output = (arguments'.run files').output := by
  cases hsettings : (files.loadSettings arguments.config).toOption with
  | none =>
    rw [hsettings] at hgaps
    have hsettings' := Option.map_eq_none_iff.mp hgaps.symm
    rw [output_run_eq_empty (.inl hsettings), output_run_eq_empty (.inl hsettings')]
  | some settings =>
    rw [hsettings] at hgaps
    obtain ⟨settings', hsettings', hgaps⟩ := Option.map_eq_some_iff.mp hgaps.symm
    generalize hload : (files.loadSchema arguments.diagram).toOption = schema? at hschema
    generalize hload' : (files'.loadSchema arguments'.diagram).toOption = schema?' at hschema
    cases hschema with
    | none => rw [output_run_eq_empty (.inr hload), output_run_eq_empty (.inr hload')]
    | some halike =>
      rw [Traversal.toOption_eq_some_iff] at hsettings hsettings' hload hload'
      obtain ⟨layout, tables, -, -, hfirst, hother, -⟩ :=
        (Files.reachable_of_loadSchema hload).exists_laidOut halike
          (show (arguments.adjust settings).gaps = (arguments'.adjust settings').gaps from
            hgaps.symm) arguments.origin
      rw [output_run hsettings hload hfirst.result_eq,
        output_run hsettings' hload' (horigin ▸ hother.result_eq)]

end CommandLine

/-! ## Independence of the way -/

/-- Laying out all tables of a schema succeeds. Neither what is told of the tables nor where they
end depends on the frames in which they get there or on where they were before; so a schema that
has been laid out stays as it is when it is laid out again, and no option of an animation changes
what is printed. -/
theorem layOut_independent :
    (∀ {s t : Schema}, s.Reachable → s.Alike t → ∀ {settings settings' : Settings},
      settings.gaps = settings'.gaps → ∀ origin : Point, ∃ layout tables,
        treeLayout settings.gaps s s.tableIds origin = .ok layout ∧
          treeLayout settings'.gaps t t.tableIds origin = .ok layout ∧
          s.LaidOut layout tables (s.layOut settings origin) ∧
          s.LaidOut layout tables (t.layOut settings' origin) ∧
          s.LaidOut layout tables
            ((s.layOut settings origin).diagram.layOut settings' origin)) ∧
    ∀ {files files' : Files} {line line' : List String}
      {arguments arguments' : CommandLine.Arguments},
      CommandLine.Invocation.ofArguments line = .layOut arguments →
      CommandLine.Invocation.ofArguments line' = .layOut arguments' →
      arguments.origin = arguments'.origin →
      Option.Rel Schema.Alike (files.loadSchema arguments.diagram).toOption
        (files'.loadSchema arguments'.diagram).toOption →
      (files.loadSettings arguments.config).toOption.map (·.gaps) =
        (files'.loadSettings arguments'.config).toOption.map (·.gaps) →
      (CommandLine.run files line).output = (CommandLine.run files' line').output := by
  refine ⟨fun hs hst => hs.exists_laidOut hst, ?_⟩
  intro files files' line line' arguments arguments' hline hline' horigin hschema hgaps
  rw [CommandLine.run, CommandLine.run, hline, hline']
  exact CommandLine.Arguments.output_run_congr horigin hschema hgaps

/-- One file, which describes one table. -/
def oneTable : Files
  | "one.ron" => some (.content "(tables: [(name: \"a\", size: (width: 9, height: 4))])".toUTF8)
  | _ => none

/-- The ring ends alike with and without an animation, also if one of its tables was elsewhere; and
what is printed of one table is the same for three frames and for none. -/
theorem layOut_independent_ring : ∃ t, Schema.ring.move? ⟨1⟩ ⟨7, 8⟩ = some t ∧
    (∃ layout tables,
      treeLayout .standard Schema.ring Schema.ring.tableIds .zero = .ok layout ∧
        treeLayout .standard t t.tableIds .zero = .ok layout ∧
        Schema.ring.LaidOut layout tables (Schema.ring.layOut ⟨true, 3, .standard⟩ .zero) ∧
        Schema.ring.LaidOut layout tables (t.layOut ⟨false, 0, .standard⟩ .zero) ∧
        Schema.ring.LaidOut layout tables
          ((Schema.ring.layOut ⟨true, 3, .standard⟩ .zero).diagram.layOut ⟨false, 0, .standard⟩
            .zero)) ∧
    (CommandLine.run oneTable ["one.ron", "--frames", "3"]).output =
      (CommandLine.run oneTable ["one.ron", "--no-animation"]).output := by
  have hring : (⟨1⟩ : TableId) ∈ Schema.ring.tableIds := by decide
  obtain ⟨t, hmove⟩ := Schema.exists_move? hring ⟨7, 8⟩
  have hgaps : (⟨true, 3, .standard⟩ : Settings).gaps = (⟨false, 0, .standard⟩ : Settings).gaps :=
    rfl
  have hline : CommandLine.Invocation.ofArguments ["one.ron", "--frames", "3"] =
      .layOut ⟨"one.ron", none, ⟨0, 0⟩, some 3, true⟩ := by decide
  have hline' : CommandLine.Invocation.ofArguments ["one.ron", "--no-animation"] =
      .layOut ⟨"one.ron", none, ⟨0, 0⟩, none, false⟩ := by decide
  have hschema : Option.Rel Schema.Alike (oneTable.loadSchema "one.ron").toOption
      (oneTable.loadSchema "one.ron").toOption := by
    cases (oneTable.loadSchema "one.ron").toOption with
    | none => exact .none
    | some schema => exact .some (.refl schema)
  refine ⟨t, hmove, ?_, ?_⟩
  · exact layOut_independent.1 Schema.reachable_ring (Schema.alike_of_move? hmove) hgaps .zero
  · exact layOut_independent.2 hline hline' rfl hschema rfl

end SchemaLayout
