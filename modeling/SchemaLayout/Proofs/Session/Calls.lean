import SchemaLayout.Proofs.Schema.Growth
import SchemaLayout.Proofs.Session.Interference
import SchemaLayout.Proofs.Session.Operations
import SchemaLayout.Proofs.Tree.Bounds
import SchemaLayout.Proofs.Tree.Refusal

/-!
# Calls

A session and its diagram are used by calls, some of which name tables. A call that asks the diagram
for a table that it does not hold does not return, and nothing does after it. Calls are proper if
the tables that they name are tables of the diagram when they are named; proper calls always return,
in whatever order they come, while the diagram grows and while it can be read or not. Unlike an
`Operation`, which may put any diagram in the place of another, a call says what it does to the
diagram, so that it can be told whether it returns.

What makes them return is that an animation stays charted: it finds where each of its nodes has
started and where it goes, and its nodes stay tables of the diagram.
-/

namespace SchemaLayout

/-! ## Animations that are charted -/

namespace Animation

/-- Each node of an animation is a table, and its ways are those that are looked up under it. -/
structure Charted (animation : Animation TableId) (schema : Schema) : Prop where
  originals : ∀ move ∈ animation.moves,
    animation.originals.find? move.node = some move.source
  placements : ∀ move ∈ animation.moves,
    animation.placements.find? move.node = some move.target
  tables : ∀ id ∈ animation.nodes, id ∈ schema.tableIds

variable {animation next : Animation TableId} {s t : Schema} {nodes : List TableId}
  {source target : TableId → Point}

theorem Carries.charted (h : animation.Carries nodes source target)
    (htarget : ∀ id ∈ nodes, animation.placements.find? id = some (target id))
    (htables : ∀ id ∈ nodes, id ∈ s.tableIds) : animation.Charted s := by
  have hmoves : ∀ move ∈ animation.moves, ∃ id ∈ nodes, move = ⟨id, source id, target id⟩ := by
    intro move hmove
    rw [h, List.mem_map] at hmove
    obtain ⟨id, hid, rfl⟩ := hmove
    exact ⟨id, hid, rfl⟩
  refine ⟨fun move hmove => ?_, fun move hmove => ?_, ?_⟩
  · obtain ⟨id, hid, rfl⟩ := hmoves move hmove
    rw [h.find?_originals, if_pos hid]
  · obtain ⟨id, hid, rfl⟩ := hmoves move hmove
    exact htarget id hid
  · rw [h.nodes_eq]
    exact htables

/-- Where the nodes of a charted animation have started and where they go depends on them alone. -/
theorem Charted.exists_carries (h : animation.Charted s) :
    ∃ source target, animation.Carries animation.nodes source target := by
  refine ⟨fun id => (animation.originals.find? id).getD .zero,
    fun id => (animation.placements.find? id).getD .zero, ?_⟩
  rw [Carries, nodes, List.map_map]
  refine (List.map_id animation.moves).symm.trans (List.map_congr_left fun move hmove => ?_)
  rw [Function.comp_apply, h.originals move hmove, h.placements move hmove]
  rfl

/-- An animation stays charted where it keeps its ways and no table is taken away. -/
theorem Charted.congr (h : animation.Charted s) (hmoves : next.moves = animation.moves)
    (hplacements : next.placements = animation.placements)
    (htables : ∀ id ∈ s.tableIds, id ∈ t.tableIds) : next.Charted t := by
  have horiginals : next.originals = animation.originals := by
    rw [Animation.originals, Animation.originals, hmoves]
  refine ⟨?_, ?_, ?_⟩
  · rw [hmoves, horiginals]
    exact h.originals
  · rw [hmoves, hplacements]
    exact h.placements
  · rw [nodes, hmoves]
    exact fun id hid => htables id (h.tables id hid)

/-- An animation stays charted where tables have only been moved. -/
theorem Charted.moved {place : TableId → Point} {ids : List TableId} (h : animation.Charted s)
    (hmoves : next.moves = animation.moves) (hplacements : next.placements = animation.placements)
    (hmoved : s.Moved place ids t) : next.Charted t :=
  h.congr hmoves hplacements fun _ hid => hmoved.alike.tableIds ▸ hid

/-- The counter of an animation that has frames left does not wrap when one of them is played. -/
theorem toNat_frame_add_one (h : animation.isDone = false) :
    (animation.frame + 1).toNat = animation.frame.toNat + 1 := by
  have hlt : animation.frame.toNat < animation.frames.toNat := by
    rw [isDone, decide_eq_false_iff_not, UInt32.not_le] at h
    exact UInt32.lt_iff_toNat_lt.mp h
  have hsize := animation.frames.toNat_lt
  rw [UInt32.toNat_add, UInt32.toNat_one]
  omega

end Animation

namespace Session

/-! ## Calls -/

/-- What can be done with a session of tables and its diagram. -/
inductive Call where
  | setup (nodes : List TableId) (origin : Point)
  | run (nodes : List TableId) (origin : Point)
  | nextFrame
  | finish
  | setAnimated (animated : Bool)
  | setFrames (frames : UInt32)
  | setGaps (gaps : Gaps)
  | addTable (table : Table)
  | addRelationship (primary foreign : TableId)
  | move (id : TableId) (position : Point)
  /-- From now on one side of a table cannot be read. -/
  | fail (id : TableId) (side : Side) (text : String)
  /-- From now on everything can be read. -/
  | heal

/-- The tables that a call looks up. -/
def Call.names : Call → List TableId
  | .setup nodes _ | .run nodes _ => nodes
  | .addRelationship primary foreign => [primary, foreign]
  | .move id _ => [id]
  | _ => []

/-- What an operation leaves, unless it has looked for a node where there is none and does not
return. -/
def Outcome.returned? {δ ι β : Type} (outcome : Outcome δ ι β) : Option (Session ι × δ) :=
  match outcome.result with
  | .error (.missingNode _) => none
  | _ => some outcome.state

/-- A session and its diagram after a call, if this returns. -/
def perform (state : Session TableId × FragileSchema) :
    Call → Option (Session TableId × FragileSchema)
  | .setup nodes origin => (state.1.setup state.2 nodes origin).returned?
  | .run nodes origin => (state.1.run state.2 nodes origin).returned?
  | .nextFrame => (state.1.nextFrame state.2).returned?
  | .finish => (state.1.finish state.2).returned?
  | .setAnimated animated =>
    some (state.1.configure { state.1.settings with animated := animated }, state.2)
  | .setFrames frames =>
    some (state.1.configure { state.1.settings with frames := frames }, state.2)
  | .setGaps gaps => some (state.1.configure { state.1.settings with gaps := gaps }, state.2)
  | .addTable table => some (state.1, { state.2 with schema := (state.2.schema.addTable table).1 })
  | .addRelationship primary foreign =>
    (state.2.schema.addRelationship? primary foreign).map fun schema =>
      (state.1, { state.2 with schema := schema })
  | .move id position => (Diagram.move? state.2 id position).map fun diagram => (state.1, diagram)
  | .fail id side text => some (state.1, state.2.fail id side text)
  | .heal => some (state.1, state.2.heal)

/-- A session and its diagram after some calls, if all of them return. -/
def performAll (state : Session TableId × FragileSchema) (calls : List Call) :
    Option (Session TableId × FragileSchema) :=
  calls.foldlM perform state

/-- Calls that name only tables that the diagram holds when they are named. -/
def Proper (state : Session TableId × FragileSchema) : List Call → Prop
  | [] => True
  | call :: calls => (∀ id ∈ call.names, id ∈ state.2.schema.tableIds) ∧
    ∀ next, perform state call = some next → Proper next calls

variable {β : Type} {session : Session TableId} {diagram : FragileSchema}
  {state next : Session TableId × FragileSchema} {nodes : List TableId} {origin : Point}
  {call : Call} {calls : List Call} {result : β} {e : LayoutError TableId}
  {animation : Animation TableId} {s : Schema}

/-! ## Operations that return -/

theorem Outcome.Yields.returned?_eq {outcome : Outcome FragileSchema TableId β}
    (h : outcome.Yields session diagram result) :
    outcome.returned? = some (session, diagram) := by
  obtain ⟨rfl, rfl, hresult⟩ := h
  unfold returned?
  rw [hresult]
  rfl

/-- An operation that fails for another reason than a missing table returns as well. -/
theorem Outcome.Fails.returned?_eq {outcome : Outcome FragileSchema TableId β}
    (h : outcome.Fails session diagram e) (he : ∀ id, e ≠ .missingNode id) :
    outcome.returned? = some (session, diagram) := by
  obtain ⟨rfl, rfl, hresult⟩ := h
  unfold returned?
  rw [hresult]
  cases e with
  | missingNode id => exact absurd rfl (he id)
  | modelAccess node cause => rfl
  | foreignNode node related => rfl
  | duplicateNode node => rfl

/-- A layout of tables of the diagram is not refused for a missing table. -/
theorem ne_missingNode_of_treeLayout {gaps : Gaps}
    (hnodes : ∀ id ∈ nodes, id ∈ diagram.schema.tableIds)
    (h : treeLayout gaps diagram nodes origin = .error e) (id : TableId) : e ≠ .missingNode id := by
  refine (treeLayout_eq_error_iff.mp h).ne_missingNode (fun id hid => ?_) id
  exact Option.isSome_iff_exists.mpr (Schema.exists_size?_of_mem (hnodes id hid))

/-! ## Playing -/

/-- Calls that play the animation of a session. -/
def Call.isPlayback : Call → Bool
  | .nextFrame | .finish => true
  | _ => false

/-- A call makes `next` of an animation and moves the tables `ids` to `place`, whatever the settings
and the diagram are, as long as the diagram holds the tables of the animation. -/
structure Plays (call : Call) (animation next : Animation TableId) (ids : List TableId)
    (place : TableId → Point) : Prop where
  moves_eq : next.moves = animation.moves
  placements_eq : next.placements = animation.placements
  perform_eq : ∀ settings diagram, (∀ id ∈ animation.nodes, id ∈ diagram.schema.tableIds) →
    ∃ t, perform (⟨settings, some animation⟩, diagram) call =
        some (⟨settings, some next⟩, { diagram with schema := t }) ∧
      diagram.schema.Moved place ids t

/-- What a frame does is decided by the animation: it moves its nodes on their way, or none if it is
done. -/
theorem exists_nextFrame_yields (h : animation.Charted s) :
    ∃ ids place, ∀ (settings : Settings) (diagram : FragileSchema),
      (∀ id ∈ animation.nodes, id ∈ diagram.schema.tableIds) →
      ∃ t, (nextFrame ⟨settings, some animation⟩ diagram).Yields
          ⟨settings, some animation.advance⟩ { diagram with schema := t } ids ∧
        diagram.schema.Moved place ids t := by
  obtain ⟨source, target, hcarries⟩ := h.exists_carries
  cases hdone : animation.isDone with
  | true =>
    refine ⟨[], fun _ => .zero, fun settings diagram _ => ⟨diagram.schema, ?_, .refl _, ?_, ?_⟩⟩
    · rw [Animation.advance_of_isDone hdone]
      exact nextFrame_yields (Animation.nextFrame_of_isDone hdone diagram)
    · exact fun id hid => absurd hid List.not_mem_nil
    · exact fun _ _ => rfl
  | false =>
    refine ⟨animation.nodes,
      fun id => (source id).towards (target id) animation.advance.progress, ?_⟩
    intro settings diagram hnodes
    obtain ⟨t, hmove, hmoved⟩ := FragileSchema.exists_moveAll hnodes _
    exact ⟨t, nextFrame_yields (hcarries.nextFrame_eq_ok hdone hmove), hmoved⟩

/-- What finishing does is decided by the animation. -/
theorem exists_finish_yields_of_charted (h : animation.Charted s) :
    ∃ place, ∀ (settings : Settings) (diagram : FragileSchema),
      (∀ id ∈ animation.nodes, id ∈ diagram.schema.tableIds) →
      ∃ t, (finish ⟨settings, some animation⟩ diagram).Yields
          ⟨settings, some animation.complete⟩ { diagram with schema := t } () ∧
        diagram.schema.Moved place animation.nodes t := by
  obtain ⟨source, target, hcarries⟩ := h.exists_carries
  refine ⟨target, fun settings diagram hnodes => ?_⟩
  obtain ⟨t, hmove, hmoved⟩ := FragileSchema.exists_moveAll hnodes target
  exact ⟨t, finish_yields (hcarries.finish_eq_ok hmove), hmoved⟩

theorem exists_plays (h : animation.Charted s) (hcall : call.isPlayback = true) :
    ∃ next ids place, Plays call animation next ids place := by
  cases call with
  | nextFrame =>
    obtain ⟨ids, place, hframe⟩ := exists_nextFrame_yields h
    refine ⟨animation.advance, ids, place, animation.moves_advance,
      animation.placements_advance, fun settings diagram hnodes => ?_⟩
    obtain ⟨t, hyields, hmoved⟩ := hframe settings diagram hnodes
    exact ⟨t, hyields.returned?_eq, hmoved⟩
  | finish =>
    obtain ⟨place, hfinish⟩ := exists_finish_yields_of_charted h
    refine ⟨animation.complete, animation.nodes, place, rfl, rfl, fun settings diagram hnodes => ?_⟩
    obtain ⟨t, hyields, hmoved⟩ := hfinish settings diagram hnodes
    exact ⟨t, hyields.returned?_eq, hmoved⟩
  | _ => cases hcall

/-! ## Editing -/

/-- Calls that change the settings or add to the diagram. -/
def Call.isEdit : Call → Bool
  | .setAnimated _ | .setFrames _ | .setGaps _ | .addTable _ | .addRelationship _ _ => true
  | _ => false

/-- An edit has touched neither the animation nor the tables that were there before. -/
structure Edits (state next : Session TableId × FragileSchema) : Prop where
  animation_eq : next.1.animation = state.1.animation
  tables : ∀ id ∈ state.2.schema.tableIds, id ∈ next.2.schema.tableIds
  table?_eq : ∀ id ∈ state.2.schema.tableIds,
    next.2.schema.table? id = state.2.schema.table? id

theorem edits_configure (session : Session TableId) (diagram : FragileSchema)
    (settings : Settings) : Edits (session, diagram) (session.configure settings, diagram) :=
  ⟨rfl, fun _ hid => hid, fun _ _ => rfl⟩

theorem exists_edits (hcall : call.isEdit = true)
    (hnames : ∀ id ∈ call.names, id ∈ state.2.schema.tableIds) :
    ∃ next, perform state call = some next ∧ Edits state next := by
  obtain ⟨session, diagram⟩ := state
  cases call with
  | setAnimated animated => exact ⟨_, rfl, edits_configure ..⟩
  | setFrames frames => exact ⟨_, rfl, edits_configure ..⟩
  | setGaps gaps => exact ⟨_, rfl, edits_configure ..⟩
  | addTable table =>
    refine ⟨_, rfl, rfl, fun id hid => ?_, fun id hid => Schema.table?_addTable hid table⟩
    show id ∈ (diagram.schema.addTable table).1.tableIds
    rw [Schema.tableIds_addTable]
    exact List.mem_append_left _ hid
  | addRelationship primary foreign =>
    have hboth := And.intro
      (Schema.mem_tableIds.mp (hnames primary List.mem_cons_self))
      (Schema.mem_tableIds.mp (hnames foreign (List.mem_cons_of_mem _ List.mem_cons_self)))
    have hadd := Schema.addRelationship?_eq_some_iff.mpr ⟨hboth, rfl⟩
    refine ⟨(session, { diagram with schema := diagram.schema.addRelationship primary foreign }),
      ?_, rfl, fun id hid => ?_, fun id _ => Schema.table?_addRelationship ..⟩
    · rw [perform, hadd]
      rfl
    · show id ∈ (diagram.schema.addRelationship primary foreign).tableIds
      rw [Schema.tableIds_addRelationship]
      exact hid
  | _ => cases hcall

/-! ## What calls keep -/

/-- The animation of a session, if there is one, is charted. -/
def Sound (state : Session TableId × FragileSchema) : Prop :=
  ∀ animation, state.1.animation = some animation → animation.Charted state.2.schema

theorem sound_of_animation_eq_none (h : state.1.animation = none) : Sound state := by
  intro animation hanimation
  cases h.symm.trans hanimation

theorem sound_some_iff {settings : Settings} :
    Sound (⟨settings, some animation⟩, diagram) ↔ animation.Charted diagram.schema := by
  constructor
  · intro h
    exact h animation rfl
  · rintro h _ ⟨⟩
    exact h

theorem Sound.congr (h : Sound state) (hanimation : next.1.animation = state.1.animation)
    (htables : ∀ id ∈ state.2.schema.tableIds, id ∈ next.2.schema.tableIds) : Sound next :=
  fun animation heq => (h animation (hanimation.symm.trans heq)).congr rfl rfl htables

/-- A call has returned with a state that is sound, and no table has been taken away. -/
structure Returns (state : Session TableId × FragileSchema) (call : Call)
    (next : Session TableId × FragileSchema) : Prop where
  perform_eq : perform state call = some next
  sound : Sound next
  tables : ∀ id ∈ state.2.schema.tableIds, id ∈ next.2.schema.tableIds

/-- A call that leaves the animation as it is. -/
theorem Sound.returns (h : Sound state) (hperform : perform state call = some next)
    (hanimation : next.1.animation = state.1.animation)
    (htables : ∀ id ∈ state.2.schema.tableIds, id ∈ next.2.schema.tableIds) :
    Returns state call next :=
  ⟨hperform, h.congr hanimation htables, htables⟩

/-- A layout that is accepted is set up as an animation that is charted. -/
theorem exists_charted_of_treeLayout {layout : TreeLayout TableId}
    (h : treeLayout session.settings.gaps diagram nodes origin = .ok layout) :
    ∃ animation, animation.Charted diagram.schema ∧
      (session.setup diagram nodes origin).Yields ⟨session.settings, some animation⟩ diagram
        () := by
  obtain ⟨animation, source, target, hready, hsetup⟩ := exists_ready h
  refine ⟨animation, hready.carries.charted (fun id hid => ?_) hready.nodes_mem, hsetup⟩
  rw [hready.placements_eq]
  exact hready.target_eq id hid

theorem exists_returns_setup (session : Session TableId) (origin : Point)
    (hnodes : ∀ id ∈ nodes, id ∈ diagram.schema.tableIds) :
    ∃ next, Returns (session, diagram) (.setup nodes origin) next := by
  cases hlayout : treeLayout session.settings.gaps diagram nodes origin with
  | error e =>
    have hother := ne_missingNode_of_treeLayout hnodes hlayout
    exact ⟨_, (setup_fails hlayout).returned?_eq hother, sound_of_animation_eq_none rfl,
      fun _ hid => hid⟩
  | ok layout =>
    obtain ⟨animation, hcharted, hsetup⟩ := exists_charted_of_treeLayout hlayout
    exact ⟨_, hsetup.returned?_eq, sound_some_iff.mpr hcharted, fun _ hid => hid⟩

theorem exists_returns_run (session : Session TableId) (origin : Point)
    (hnodes : ∀ id ∈ nodes, id ∈ diagram.schema.tableIds) :
    ∃ next, Returns (session, diagram) (.run nodes origin) next := by
  cases hlayout : treeLayout session.settings.gaps diagram nodes origin with
  | error e =>
    have hother := ne_missingNode_of_treeLayout hnodes hlayout
    exact ⟨_, (run_fails hlayout).returned?_eq hother, sound_of_animation_eq_none rfl,
      fun _ hid => hid⟩
  | ok layout =>
    obtain ⟨animation, hcharted, hsetup⟩ := exists_charted_of_treeLayout hlayout
    cases hpending : session.settings.animated && !animation.isDone with
    | true =>
      exact ⟨_, (run_yields_true hsetup hpending).returned?_eq, sound_some_iff.mpr hcharted,
        fun _ hid => hid⟩
    | false =>
      obtain ⟨place, hfinish⟩ := exists_finish_yields_of_charted hcharted
      obtain ⟨t, hyields, hmoved⟩ := hfinish session.settings diagram hcharted.tables
      exact ⟨_, (run_yields_false hsetup hpending hyields).returned?_eq,
        sound_some_iff.mpr (hcharted.moved rfl rfl hmoved),
        fun _ hid => hmoved.alike.tableIds ▸ hid⟩

/-- A session without an animation plays nothing. -/
theorem perform_of_animation_eq_none (h : state.1.animation = none)
    (hcall : call.isPlayback = true) : perform state call = some state := by
  obtain ⟨session, diagram⟩ := state
  have hidle := idle_of_animation_eq_none h
  cases call with
  | nextFrame => exact (hidle.nextFrame diagram).returned?_eq
  | finish => exact (hidle.finish diagram).returned?_eq
  | _ => cases hcall

theorem Sound.exists_returns_playback (h : Sound state) (hcall : call.isPlayback = true) :
    ∃ next, Returns state call next := by
  obtain ⟨⟨settings, animation⟩, diagram⟩ := state
  cases animation with
  | none => exact ⟨_, perform_of_animation_eq_none rfl hcall, h, fun _ hid => hid⟩
  | some animation =>
    have hcharted := sound_some_iff.mp h
    obtain ⟨next, ids, place, hplays⟩ := exists_plays hcharted hcall
    obtain ⟨t, hperform, hmoved⟩ := hplays.perform_eq settings diagram hcharted.tables
    have hnext := hcharted.moved hplays.moves_eq hplays.placements_eq hmoved
    exact ⟨_, hperform, sound_some_iff.mpr hnext, fun _ hid => hmoved.alike.tableIds ▸ hid⟩

/-- A step: a call that names tables of the diagram returns. -/
theorem Sound.exists_returns (h : Sound state)
    (hnames : ∀ id ∈ call.names, id ∈ state.2.schema.tableIds) :
    ∃ next, Returns state call next := by
  obtain ⟨session, diagram⟩ := state
  cases call with
  | setup nodes origin => exact exists_returns_setup session origin hnames
  | run nodes origin => exact exists_returns_run session origin hnames
  | nextFrame => exact h.exists_returns_playback rfl
  | finish => exact h.exists_returns_playback rfl
  | move id position =>
    obtain ⟨t, hmove⟩ := Schema.exists_move? (hnames id List.mem_cons_self) position
    refine ⟨(session, { diagram with schema := t }), h.returns ?_ rfl fun other hother => ?_⟩
    · rw [perform, FragileSchema.move?_eq_some_iff.mpr ⟨_, hmove, rfl⟩]
      rfl
    · exact (Schema.alike_of_move? hmove).tableIds ▸ hother
  | fail id side text => exact ⟨_, h.returns rfl rfl fun _ hid => hid⟩
  | heal => exact ⟨_, h.returns rfl rfl fun _ hid => hid⟩
  | _ =>
    -- all other calls are edits
    obtain ⟨next, hperform, hedits⟩ := exists_edits rfl hnames
    exact ⟨next, h.returns hperform hedits.animation_eq hedits.tables⟩

/-- A run: proper calls return one after the other. -/
theorem Sound.exists_performAll (h : Sound state) (hproper : Proper state calls) :
    ∃ last, performAll state calls = some last ∧ Sound last := by
  induction calls generalizing state with
  | nil => exact ⟨state, rfl, h⟩
  | cons call calls ih =>
    obtain ⟨next, hnext⟩ := h.exists_returns hproper.1
    obtain ⟨last, hlast, hsound⟩ := ih hnext.sound (hproper.2 next hnext.perform_eq)
    refine ⟨last, ?_, hsound⟩
    rw [performAll, List.foldlM_cons, hnext.perform_eq]
    exact hlast

/-- Calls that name tables that are there from the beginning are proper. -/
theorem Sound.proper (h : Sound state)
    (hnames : ∀ call ∈ calls, ∀ id ∈ call.names, id ∈ state.2.schema.tableIds) :
    Proper state calls := by
  induction calls generalizing state with
  | nil => trivial
  | cons call calls ih =>
    have hfirst := hnames call List.mem_cons_self
    refine ⟨hfirst, fun next hperform => ?_⟩
    obtain ⟨next', hnext⟩ := h.exists_returns hfirst
    cases hnext.perform_eq.symm.trans hperform
    exact ih hnext.sound fun other hother id hid =>
      hnext.tables id (hnames other (List.mem_cons_of_mem _ hother) id hid)

end Session

/-- Proper calls on a new session and any schema always return. Wherever they have led, each node
of the animation is a table of the diagram, and where it has started and where it goes is found
under it; a frame that is left to play does not make the counter wrap; and the placement of whatever
nodes the diagram can resolve looks up no number that is out of range. -/
theorem calls_return (settings : Settings) (diagram : FragileSchema) (calls : List Session.Call)
    (hproper : Session.Proper (.ofSettings settings, diagram) calls) :
    ∃ session later, Session.performAll (.ofSettings settings, diagram) calls =
        some (session, later) ∧
      (∀ animation, session.animation = some animation → animation.Charted later.schema ∧
        (animation.isDone = false →
          (animation.frame + 1).toNat = animation.frame.toNat + 1)) ∧
      ∀ (nodes : List TableId) (origin : Point) (network : Network Coord nodes.length),
        Network.resolve later (listed nodes) = .ok network →
          Bare.Places network session.settings.gaps origin := by
  obtain ⟨⟨session, later⟩, hlast, hsound⟩ :=
    (Session.sound_of_animation_eq_none rfl).exists_performAll hproper
  refine ⟨session, later, hlast, fun animation hanimation => ?_, fun nodes origin network _ => ?_⟩
  · exact ⟨hsound animation hanimation, Animation.toNat_frame_add_one⟩
  · exact Bare.places network session.settings.gaps origin

/-- A table is added to the ring and laid out with it; when the ring cannot be read any more, a
second layout is refused; and when it can be read again, a third is carried out at once. -/
def ringCalls : List Session.Call :=
  [.addTable ⟨"d", ⟨0, 0⟩, ⟨100, 50⟩⟩, .addRelationship ⟨3⟩ ⟨0⟩,
    .setup [⟨0⟩, ⟨1⟩, ⟨2⟩, ⟨3⟩] .zero, .nextFrame, .fail ⟨1⟩ .imported "gone",
    .setup [⟨0⟩, ⟨1⟩, ⟨2⟩, ⟨3⟩] .zero, .nextFrame, .heal, .setAnimated false,
    .run [⟨3⟩, ⟨2⟩, ⟨1⟩, ⟨0⟩] .zero, .move ⟨3⟩ ⟨7, 7⟩, .finish]

/-- These calls are proper, and return. -/
theorem calls_return_ring : ∃ session later,
    Session.performAll (.ofSettings ⟨true, 3, .standard⟩, FragileSchema.ofSchema Schema.ring)
        ringCalls = some (session, later) ∧
      ∀ animation, session.animation = some animation → animation.Charted later.schema := by
  have hproper : Session.Proper
      (.ofSettings ⟨true, 3, .standard⟩, FragileSchema.ofSchema Schema.ring) ringCalls := by
    -- the new table is named only after it has been added
    refine ⟨nofun, ?_⟩
    rintro _ ⟨⟩
    exact (Session.sound_of_animation_eq_none rfl).proper (by decide)
  obtain ⟨session, later, hcalls, hsession, -⟩ := calls_return _ _ _ hproper
  exact ⟨session, later, hcalls, fun animation hanimation => (hsession animation hanimation).1⟩

end SchemaLayout
