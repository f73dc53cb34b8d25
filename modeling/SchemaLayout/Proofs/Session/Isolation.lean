import SchemaLayout.Proofs.Session.Calls

/-!
# Isolation

While an animation is played, the settings may be changed and the diagram may grow. Neither shows:
every frame is as it would be without such edits, and so are the positions of all tables that were
there when the animation was set up. What has been edited counts for the next layout only, and of
each setting only the last value that has been chosen.

`Follows` relates a session that is edited to one that is not; a call that plays leads both of them
on, and an edit only the first.
-/

namespace SchemaLayout

namespace Session

/-! ## Settings that are chosen -/

/-- Whether tables are to be animated, if a call chooses this. -/
def Call.animated? : Call → Option Bool
  | .setAnimated animated => some animated
  | _ => none

/-- The number of frames that a call chooses. -/
def Call.frames? : Call → Option UInt32
  | .setFrames frames => some frames
  | _ => none

/-- The gaps that a call chooses. -/
def Call.gaps? : Call → Option Gaps
  | .setGaps gaps => some gaps
  | _ => none

/-- The settings after some calls: of each the last value that has been chosen, if one has. -/
def chosen (settings : Settings) (calls : List Call) : Settings where
  animated := (calls.filterMap Call.animated?).getLastD settings.animated
  frames := (calls.filterMap Call.frames?).getLastD settings.frames
  gaps := (calls.filterMap Call.gaps?).getLastD settings.gaps

/-- The settings after one more call. -/
def Call.choose (settings : Settings) (call : Call) : Settings where
  animated := call.animated?.getD settings.animated
  frames := call.frames?.getD settings.frames
  gaps := call.gaps?.getD settings.gaps

/-- The last value of a list is the last of the rest, and the first if there is no other. -/
theorem getLastD_filterMap_cons {α β : Type} (f : α → Option β) (head : α) (rest : List α)
    (default : β) : ((head :: rest).filterMap f).getLastD default =
      (rest.filterMap f).getLastD ((f head).getD default) := by
  rw [List.filterMap_cons]
  cases f head with
  | none => rfl
  | some value => exact List.getLastD_cons ..

theorem chosen_cons (settings : Settings) (call : Call) (calls : List Call) :
    chosen settings (call :: calls) = chosen (call.choose settings) calls := by
  simp only [chosen, getLastD_filterMap_cons, Call.choose]

theorem Call.choose_of_isPlayback {call : Call} (hcall : call.isPlayback = true)
    (settings : Settings) : call.choose settings = settings := by
  cases call with
  | nextFrame => rfl
  | finish => rfl
  | _ => cases hcall

variable {state next edited plain : Session TableId × FragileSchema} {base : List TableId}
  {call : Call} {calls : List Call}

/-- An edit chooses the settings that it says. -/
theorem settings_of_edit (hcall : call.isEdit = true) (h : perform state call = some next) :
    next.1.settings = call.choose state.1.settings := by
  cases call with
  | setAnimated animated | setFrames frames | setGaps gaps | addTable table =>
    cases h
    rfl
  | addRelationship primary foreign =>
    obtain ⟨_, -, rfl⟩ := Option.map_eq_some_iff.mp h
    rfl
  | _ => cases hcall

theorem isPlayback_of_isEdit (h : call.isEdit = true) : call.isPlayback = false := by
  cases call with
  | nextFrame | finish => cases h
  | _ => rfl

/-! ## Two sessions side by side -/

/-- Two sessions play the same animation, and tables that both diagrams hold are where they are in
the other. The first may have other settings, more tables and more relationships. -/
structure Follows (base : List TableId) (edited plain : Session TableId × FragileSchema) :
    Prop where
  animation_eq : edited.1.animation = plain.1.animation
  sound : Sound plain
  plain_tables : plain.2.schema.tableIds = base
  edited_tables : ∀ id ∈ base, id ∈ edited.2.schema.tableIds
  position_eq : ∀ id ∈ base,
    Diagram.position? edited.2.schema id = Diagram.position? plain.2.schema id

theorem Follows.refl (h : Sound state) : Follows state.2.schema.tableIds state state :=
  ⟨rfl, h, rfl, fun _ hid => hid, fun _ _ => rfl⟩

/-- A step that both take: a call that plays does the same to both. -/
theorem Follows.play (h : Follows base edited plain) (hcall : call.isPlayback = true) :
    ∃ edited' plain', perform edited call = some edited' ∧ perform plain call = some plain' ∧
      edited'.1.settings = edited.1.settings ∧ Follows base edited' plain' := by
  obtain ⟨⟨settings, animation⟩, diagram⟩ := edited
  obtain ⟨⟨settings', animation'⟩, diagram'⟩ := plain
  obtain rfl : animation = animation' := h.animation_eq
  cases animation with
  | none =>
    exact ⟨_, _, perform_of_animation_eq_none rfl hcall, perform_of_animation_eq_none rfl hcall,
      rfl, h⟩
  | some animation =>
    have hcharted := sound_some_iff.mp h.sound
    obtain ⟨next, ids, place, hplays⟩ := exists_plays hcharted hcall
    have hbase : ∀ id ∈ animation.nodes, id ∈ base := fun id hid =>
      h.plain_tables ▸ hcharted.tables id hid
    obtain ⟨t, hedited, hmoved⟩ := hplays.perform_eq settings diagram fun id hid =>
      h.edited_tables id (hbase id hid)
    obtain ⟨t', hplain, hmoved'⟩ := hplays.perform_eq settings' diagram' hcharted.tables
    have hnext := hcharted.moved hplays.moves_eq hplays.placements_eq hmoved'
    refine ⟨_, _, hedited, hplain, rfl, rfl, sound_some_iff.mpr hnext, ?_, fun id hid => ?_,
      fun id hid => ?_⟩
    · exact hmoved'.alike.tableIds ▸ h.plain_tables
    · exact hmoved.alike.tableIds ▸ h.edited_tables id hid
    · -- a table that is moved goes to the same place in both diagrams, and all others stay
      show Diagram.position? t id = Diagram.position? t' id
      by_cases hmem : id ∈ ids
      · rw [hmoved.placed id hmem, hmoved'.placed id hmem]
      · rw [hmoved.kept id hmem, hmoved'.kept id hmem]
        exact h.position_eq id hid

/-- A step that only one takes: an edit changes nothing that the other has. -/
theorem Follows.edit {edited' : Session TableId × FragileSchema} (h : Follows base edited plain)
    (hedits : Edits edited edited') : Follows base edited' plain := by
  refine ⟨hedits.animation_eq.trans h.animation_eq, h.sound, h.plain_tables, fun id hid => ?_,
    fun id hid => ?_⟩
  · exact hedits.tables id (h.edited_tables id hid)
  · rw [← h.position_eq id hid, Schema.position?_eq, Schema.position?_eq,
      hedits.table?_eq id (h.edited_tables id hid)]

/-- A run: the session that is edited and the one that is not play the same. -/
theorem Follows.run (h : Follows base edited plain)
    (hcalls : ∀ call ∈ calls, call.isPlayback = true ∨ call.isEdit = true)
    (hproper : Proper edited calls) :
    ∃ edited' plain', performAll edited calls = some edited' ∧
      performAll plain (calls.filter Call.isPlayback) = some plain' ∧
      edited'.1.settings = chosen edited.1.settings calls ∧ Follows base edited' plain' := by
  induction calls generalizing edited plain with
  | nil => exact ⟨edited, plain, rfl, rfl, rfl, h⟩
  | cons call calls ih =>
    have hrest : ∀ other ∈ calls, other.isPlayback = true ∨ other.isEdit = true :=
      fun other hother => hcalls other (List.mem_cons_of_mem _ hother)
    rcases hcalls call List.mem_cons_self with hplayback | hedit
    · obtain ⟨next, next', hperform, hperform', hsettings, hnext⟩ := h.play hplayback
      obtain ⟨edited', plain', hedited, hplain, hchosen, hlast⟩ :=
        ih hnext hrest (hproper.2 next hperform)
      refine ⟨edited', plain', ?_, ?_, ?_, hlast⟩
      · rw [performAll, List.foldlM_cons, hperform]
        exact hedited
      · rw [List.filter_cons_of_pos hplayback, performAll, List.foldlM_cons, hperform']
        exact hplain
      · rw [hchosen, hsettings, chosen_cons, Call.choose_of_isPlayback hplayback]
    · obtain ⟨next, hperform, hedits⟩ := exists_edits hedit hproper.1
      obtain ⟨edited', plain', hedited, hplain, hchosen, hlast⟩ :=
        ih (h.edit hedits) hrest (hproper.2 next hperform)
      refine ⟨edited', plain', ?_, ?_, ?_, hlast⟩
      · rw [performAll, List.foldlM_cons, hperform]
        exact hedited
      · rw [List.filter_cons_of_neg (Bool.eq_false_iff.mp (isPlayback_of_isEdit hedit))]
        exact hplain
      · rw [hchosen, settings_of_edit hedit hperform, chosen_cons]

/-! ## What is seen -/

/-- Two sessions cannot be told apart by what they play, nor by where some tables are. -/
structure LooksLike (tables : List TableId) (edited plain : Session TableId × FragileSchema) :
    Prop where
  isDone : edited.1.isDone = plain.1.isDone
  progress : edited.1.progress = plain.1.progress
  placements : edited.1.placements = plain.1.placements
  nextFrame : (edited.1.nextFrame edited.2).result = (plain.1.nextFrame plain.2).result
  finish : (edited.1.finish edited.2).result = (plain.1.finish plain.2).result
  position : ∀ id ∈ tables, Diagram.position? edited.2 id = Diagram.position? plain.2 id

theorem Follows.looksLike (h : Follows base edited plain) : LooksLike base edited plain := by
  obtain ⟨⟨settings, animation⟩, diagram⟩ := edited
  obtain ⟨⟨settings', animation'⟩, diagram'⟩ := plain
  obtain rfl : animation = animation' := h.animation_eq
  cases animation with
  | none => exact ⟨rfl, rfl, rfl, rfl, rfl, h.position_eq⟩
  | some animation =>
    have hcharted := sound_some_iff.mp h.sound
    have htables : ∀ id ∈ animation.nodes, id ∈ diagram.schema.tableIds := fun id hid =>
      h.edited_tables id (h.plain_tables ▸ hcharted.tables id hid)
    obtain ⟨ids, place, hframe⟩ := exists_nextFrame_yields hcharted
    obtain ⟨target, hfinish⟩ := exists_finish_yields_of_charted hcharted
    obtain ⟨_, hyields, -⟩ := hframe settings diagram htables
    obtain ⟨_, hyields', -⟩ := hframe settings' diagram' hcharted.tables
    obtain ⟨_, hends, -⟩ := hfinish settings diagram htables
    obtain ⟨_, hends', -⟩ := hfinish settings' diagram' hcharted.tables
    exact ⟨rfl, rfl, rfl, hyields.result_eq.trans hyields'.result_eq.symm,
      hends.result_eq.trans hends'.result_eq.symm, h.position_eq⟩

/-- A layout that has been set up leaves its diagram and the settings as they were. -/
theorem exists_state_of_setup {session : Session TableId} {diagram : FragileSchema}
    {nodes : List TableId} {origin : Point}
    (h : (session.setup diagram nodes origin).result = .ok ()) :
    ∃ animation, (session.setup diagram nodes origin).state =
        (⟨session.settings, some animation⟩, diagram) ∧
      animation.Charted diagram.schema := by
  cases hlayout : treeLayout session.settings.gaps diagram nodes origin with
  | error e =>
    rw [(setup_fails hlayout).result_eq] at h
    cases h
  | ok layout =>
    obtain ⟨animation, hcharted, hsetup⟩ := exists_charted_of_treeLayout hlayout
    refine ⟨animation, ?_, hcharted⟩
    rw [Outcome.state, hsetup.session_eq, hsetup.diagram_eq]

end Session

/-- After a layout has been set up, its animation is played, the settings are changed and the
diagram grows, in any order. Without the changes the animation looks the same, which holds at any
time, since it does after any such calls; and the tables that were there are at the same positions.
The settings are then the last values that have been chosen, and the next layout is that of the
session without the changes, but for these settings. -/
theorem playback_isolated {session : Session TableId} {diagram : FragileSchema}
    {nodes : List TableId} {origin : Point}
    (hsetup : (session.setup diagram nodes origin).result = .ok ()) {calls : List Session.Call}
    (hcalls : ∀ call ∈ calls, call.isPlayback = true ∨ call.isEdit = true)
    (hproper : Session.Proper (session.setup diagram nodes origin).state calls) :
    ∃ edited plain,
      Session.performAll (session.setup diagram nodes origin).state calls = some edited ∧
      Session.performAll (session.setup diagram nodes origin).state
        (calls.filter Session.Call.isPlayback) = some plain ∧
      Session.LooksLike diagram.schema.tableIds edited plain ∧
      edited.1.settings = Session.chosen session.settings calls ∧
      ∀ (nodes : List TableId) (origin : Point),
        edited.1.setup edited.2 nodes origin =
          Session.setup { plain.1 with settings := Session.chosen session.settings calls }
            edited.2 nodes origin ∧
        edited.1.run edited.2 nodes origin =
          Session.run { plain.1 with settings := Session.chosen session.settings calls }
            edited.2 nodes origin := by
  obtain ⟨animation, hstate, hcharted⟩ := Session.exists_state_of_setup hsetup
  rw [hstate] at hproper ⊢
  obtain ⟨edited, plain, hedited, hplain, hchosen, hfollows⟩ :=
    (Session.Follows.refl (Session.sound_some_iff.mpr hcharted)).run hcalls hproper
  have hsession :
      edited.1 = { plain.1 with settings := Session.chosen session.settings calls } := by
    obtain ⟨⟨settings, animation⟩, diagram⟩ := edited
    obtain rfl : settings = Session.chosen _ _ := hchosen
    obtain rfl : animation = plain.1.animation := hfollows.animation_eq
    rfl
  refine ⟨edited, plain, hedited, hplain, hfollows.looksLike, hchosen, fun nodes origin => ?_⟩
  rw [hsession]
  exact ⟨rfl, rfl⟩

/-- A store that does not break changes nothing about a layout. -/
theorem treeLayout_ofSchema (gaps : Gaps) (schema : Schema) (nodes : List TableId)
    (origin : Point) : treeLayout gaps (FragileSchema.ofSchema schema) nodes origin =
      treeLayout gaps schema nodes origin :=
  rfl

/-- Two frames and the end of an animation, with edits in between. -/
def ringEdits : List Session.Call :=
  [.setFrames 7, .nextFrame, .addTable ⟨"d", ⟨0, 0⟩, ⟨100, 50⟩⟩, .setAnimated false,
    .addRelationship ⟨0⟩ ⟨2⟩, .nextFrame, .setFrames 9, .finish]

/-- The ring on its way in three frames is not disturbed by these edits, and is to be laid out at
once after them. -/
theorem playback_isolated_ring : ∃ start edited plain,
    ((Session.ofSettings ⟨true, 3, .standard⟩).setup (FragileSchema.ofSchema Schema.ring)
        [⟨0⟩, ⟨1⟩, ⟨2⟩] .zero).state = start ∧
      Session.performAll start ringEdits = some edited ∧
      Session.performAll start [.nextFrame, .nextFrame, .finish] = some plain ∧
      Session.LooksLike [⟨0⟩, ⟨1⟩, ⟨2⟩] edited plain ∧
      edited.1.settings = ⟨false, 9, .standard⟩ ∧
      ∀ (nodes : List TableId) (origin : Point),
        edited.1.setup edited.2 nodes origin =
          Session.setup { plain.1 with settings := ⟨false, 9, .standard⟩ } edited.2 nodes origin ∧
        edited.1.run edited.2 nodes origin =
          Session.run { plain.1 with settings := ⟨false, 9, .standard⟩ } edited.2 nodes
            origin := by
  have hlayout := treeLayout_eq_ok_iff.mpr ⟨_, _, accepted_ring, rfl⟩
  rw [← treeLayout_ofSchema] at hlayout
  have hsetup := (@Session.setup_prepares (.ofSettings ⟨true, 3, .standard⟩) _ _ _ _
    hlayout).result_eq
  obtain ⟨animation, hstate, hcharted⟩ := Session.exists_state_of_setup hsetup
  have hcalls : ∀ call ∈ ringEdits, call.isPlayback = true ∨ call.isEdit = true := by decide
  have hnames : ∀ call ∈ ringEdits, ∀ id ∈ call.names, id ∈ Schema.ring.tableIds := by decide
  have hproper : Session.Proper ((Session.ofSettings ⟨true, 3, .standard⟩).setup
      (FragileSchema.ofSchema Schema.ring) [⟨0⟩, ⟨1⟩, ⟨2⟩] .zero).state ringEdits := by
    rw [hstate]
    exact (Session.sound_some_iff.mpr hcharted).proper hnames
  obtain ⟨edited, plain, hedited, hplain, hlooks, hsettings, hnext⟩ :=
    playback_isolated hsetup hcalls hproper
  exact ⟨_, edited, plain, rfl, hedited, hplain, hlooks, hsettings, hnext⟩

end SchemaLayout
