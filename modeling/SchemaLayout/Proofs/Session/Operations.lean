import SchemaLayout.Proofs.Session.Playing
import SchemaLayout.Proofs.Tree.Separation

/-!
# Operations

What becomes of a session that lays out a schema, some of whose relationships may not be readable,
is decided by the layout. If that is refused, nothing is moved and no animation is left, not even
one that was on its way; and so it stays until a layout is accepted, whatever is done meanwhile. If
it is accepted, the tables are on their way or where they go, as the settings at that moment ask.

A sequence of operations may change the settings and the diagram at any time: `after` follows the
session and the diagram together.
-/

namespace SchemaLayout

namespace Session

/-- What an operation leaves of a session and its diagram. -/
def Outcome.state {δ ι β : Type} (outcome : Outcome δ ι β) : Session ι × δ :=
  (outcome.session, outcome.diagram)

/-- What is done to a session of tables, or by others to its diagram. -/
inductive Operation where
  | setup (nodes : List TableId) (origin : Point)
  | run (nodes : List TableId) (origin : Point)
  | nextFrame
  | finish
  | configure (settings : Settings)
  /-- Others move tables, add some or change what can be read of them. -/
  | revise (diagram : FragileSchema)

/-- Whether an operation asks for a frame. -/
def Operation.isFrame : Operation → Bool
  | .nextFrame => true
  | _ => false

/-- A session and its diagram after an operation. -/
def after (state : Session TableId × FragileSchema) :
    Operation → Session TableId × FragileSchema
  | .setup nodes origin => (state.1.setup state.2 nodes origin).state
  | .run nodes origin => (state.1.run state.2 nodes origin).state
  | .nextFrame => (state.1.nextFrame state.2).state
  | .finish => (state.1.finish state.2).state
  | .configure settings => (state.1.configure settings, state.2)
  | .revise diagram => (state.1, diagram)

/-- A session and its diagram after some operations. -/
def afterAll (state : Session TableId × FragileSchema) (operations : List Operation) :
    Session TableId × FragileSchema :=
  operations.foldl after state

/-- An operation that sets up a layout, and does so with success. -/
def LaysOut (state : Session TableId × FragileSchema) : Operation → Prop
  | .setup nodes origin => (state.1.setup state.2 nodes origin).result = .ok ()
  | .run nodes origin => ∃ pending, (state.1.run state.2 nodes origin).result = .ok pending
  | _ => False

/-- Operations of which none sets up a layout with success. -/
def LaysNothingOut (state : Session TableId × FragileSchema) : List Operation → Prop
  | [] => True
  | operation :: operations =>
    ¬ LaysOut state operation ∧ LaysNothingOut (after state operation) operations

/-- An operation that leaves an animation on its way: tables are not taken away from the diagram. -/
def Operation.Calm (diagram : FragileSchema) : Operation → Prop
  | .nextFrame => True
  | .configure _ => True
  | .revise diagram' => ∀ id ∈ diagram.schema.tableIds, id ∈ diagram'.schema.tableIds
  | _ => False

variable {β : Type} {session : Session TableId} {diagram : FragileSchema} {nodes : List TableId}
  {origin : Point} {layout : TreeLayout TableId} {state : Session TableId × FragileSchema}
  {operations : List Operation}

/-! ## Outcomes of a layout -/

/-- A session without an animation: no frame is left, and no table is moved. -/
structure Idle (session : Session TableId) : Prop where
  isDone : session.isDone = true
  progress : session.progress = .finite 1
  placements : session.placements = none
  nextFrame : ∀ diagram : FragileSchema, (session.nextFrame diagram).Yields session diagram []
  finish : ∀ diagram : FragileSchema, (session.finish diagram).Yields session diagram ()

/-- A layout has been refused: diagram and settings are kept, and the session is idle until a layout
is accepted. -/
structure Refuses (session : Session TableId) (diagram : FragileSchema)
    (outcome : Outcome FragileSchema TableId β) : Prop where
  diagram_eq : outcome.diagram = diagram
  settings_eq : outcome.session.settings = session.settings
  idle : ∀ operations, LaysNothingOut outcome.state operations →
    Idle (afterAll outcome.state operations).1

/-- A layout has been set up: nothing has been moved yet, and the session is done after the frames
that the settings ask for, and not before. -/
structure Prepares (session : Session TableId) (diagram : FragileSchema)
    (layout : TreeLayout TableId) (result : β) (outcome : Outcome FragileSchema TableId β) :
    Prop where
  result_eq : outcome.result = .ok result
  diagram_eq : outcome.diagram = diagram
  settings_eq : outcome.session.settings = session.settings
  placements_eq : outcome.session.placements = some layout.placements
  isDone_iff : ∀ operations, (∀ operation ∈ operations, operation.Calm diagram) →
    ((afterAll outcome.state operations).1.isDone = true ↔
      session.settings.frames.toNat ≤ operations.countP Operation.isFrame)

/-- A layout has been carried out: its tables are where it has put them. -/
structure Completes (session : Session TableId) (diagram : FragileSchema) (nodes : List TableId)
    (layout : TreeLayout TableId) (outcome : Outcome FragileSchema TableId Bool) : Prop where
  result_eq : outcome.result = .ok false
  settings_eq : outcome.session.settings = session.settings
  placements_eq : outcome.session.placements = some layout.placements
  isDone : outcome.session.isDone = true
  moved : ∃ place t, outcome.diagram = { diagram with schema := t } ∧
    (∀ id ∈ nodes, layout.placements.find? id = some (place id)) ∧
    diagram.schema.Moved place nodes t

/-! ## Layouts that are refused -/

section

variable {δ ι : Type} [Diagram δ ι] [BEq ι] [Hashable ι] {session : Session ι} {diagram : δ}
  {nodes : List ι} {e : LayoutError ι}

/-- A layout that is refused leaves no animation behind. -/
theorem setup_fails (h : treeLayout session.settings.gaps diagram nodes origin = .error e) :
    (session.setup diagram nodes origin).Fails ⟨session.settings, none⟩ diagram e := by
  unfold setup
  simp only [h]
  exact ⟨rfl, rfl, rfl⟩

theorem run_fails (h : treeLayout session.settings.gaps diagram nodes origin = .error e) :
    (session.run diagram nodes origin).Fails ⟨session.settings, none⟩ diagram e :=
  (setup_fails h).andThen _

end

theorem idle_of_animation_eq_none (h : session.animation = none) : Idle session := by
  obtain ⟨settings, animation⟩ := session
  cases h
  exact ⟨rfl, rfl, rfl, fun _ => Outcome.yields_unchanged .., fun _ => Outcome.yields_unchanged ..⟩

/-! ## Layouts that are accepted -/

/-- Nodes that have been laid out are tables of the schema, and each has a place. -/
theorem mem_tableIds_of_treeLayout {gaps : Gaps}
    (h : treeLayout gaps diagram nodes origin = .ok layout) {id : TableId} (hid : id ∈ nodes) :
    id ∈ diagram.schema.tableIds ∧ ∃ place, layout.placements.find? id = some place := by
  obtain ⟨network, filling, haccepted, rfl⟩ := treeLayout_eq_ok_iff.mp h
  refine ⟨?_, haccepted.exists_find?_of_mem hid⟩
  obtain ⟨i, rfl⟩ := exists_get_listed hid
  exact Schema.mem_tableIds_of_size? (haccepted.resolves.sizes i)

/-- An animation that is about to carry out a layout of tables. -/
structure Ready (session : Session TableId) (diagram : FragileSchema) (nodes : List TableId)
    (layout : TreeLayout TableId) (source target : TableId → Point)
    (animation : Animation TableId) : Prop where
  carries : animation.Carries nodes source target
  placements_eq : animation.placements = layout.placements
  frames_eq : animation.frames = session.settings.frames
  frame_eq : animation.frame = 0
  nodes_mem : ∀ id ∈ nodes, id ∈ diagram.schema.tableIds
  target_eq : ∀ id ∈ nodes, layout.placements.find? id = some (target id)

/-- A layout that is accepted is set up. -/
theorem exists_ready (h : treeLayout session.settings.gaps diagram nodes origin = .ok layout) :
    ∃ animation source target, Ready session diagram nodes layout source target animation ∧
      (session.setup diagram nodes origin).Yields ⟨session.settings, some animation⟩ diagram
        () := by
  have hnodes : ∀ id ∈ nodes, id ∈ diagram.schema.tableIds := fun id hid =>
    (mem_tableIds_of_treeLayout h hid).1
  choose! target htarget using fun (id : TableId) (hid : id ∈ nodes) =>
    (mem_tableIds_of_treeLayout h hid).2
  obtain ⟨animation, source, hcarries, hplacements, hframes, hframe, hsetup⟩ :=
    exists_setup_yields session h (fun id hid => Schema.exists_position?_of_mem (hnodes id hid))
      htarget
  exact ⟨animation, source, target, ⟨hcarries, hplacements, hframes, hframe, hnodes, htarget⟩,
    hsetup⟩

variable {animation : Animation TableId} {source target : TableId → Point}

/-! ## Animations on their way -/

/-- An animation after a number of frames, with a diagram that has lost no table. -/
structure Going (diagram : FragileSchema) (animation : Animation TableId) (k : Nat)
    (state : Session TableId × FragileSchema) : Prop where
  animation_eq : state.1.animation = some (animation.played k)
  tables : ∀ id ∈ diagram.schema.tableIds, id ∈ state.2.schema.tableIds

/-- A step: an operation that leaves an animation on its way plays a frame, if this is asked for. -/
theorem Going.step {k : Nat} (h : Going diagram animation k state)
    (hcarries : animation.Carries nodes source target)
    (hnodes : ∀ id ∈ nodes, id ∈ diagram.schema.tableIds) {operation : Operation}
    (hcalm : operation.Calm diagram) :
    Going diagram animation (k + [operation].countP Operation.isFrame) (after state operation) := by
  obtain ⟨⟨settings, _⟩, diagram'⟩ := state
  obtain ⟨rfl, htables⟩ := h
  cases operation with
  | setup nodes origin => exact hcalm.elim
  | run nodes origin => exact hcalm.elim
  | nextFrame =>
    have hnodes' : ∀ id ∈ nodes, id ∈ diagram'.schema.tableIds := fun id hid =>
      htables id (hnodes id hid)
    have hmove (place : TableId → Point) : ∃ next : FragileSchema,
        Animation.moveAll diagram' (nodes.map fun id => (id, place id)) = .ok next ∧
          diagram'.schema.tableIds = next.schema.tableIds := by
      obtain ⟨t, hmove, hmoved⟩ := FragileSchema.exists_moveAll hnodes' place
      exact ⟨_, hmove, hmoved.alike.tableIds⟩
    obtain ⟨next, moved, hnext, hkept⟩ := (hcarries.played k).exists_advance hmove rfl
    have hyields : (nextFrame ⟨settings, _⟩ diagram').Yields _ _ _ := nextFrame_yields hnext
    obtain ⟨hsession, hdiagram, -⟩ := hyields
    refine ⟨congrArg Session.animation hsession, fun id hid => ?_⟩
    show id ∈ (nextFrame _ diagram').diagram.schema.tableIds
    rw [hdiagram]
    exact hkept ▸ htables id hid
  | finish => exact hcalm.elim
  | configure settings => exact ⟨rfl, htables⟩
  | revise diagram' => exact ⟨rfl, hcalm⟩

/-- A run: operations that leave an animation on its way play the frames that they ask for. -/
theorem Going.run {k : Nat} (h : Going diagram animation k state)
    (hcarries : animation.Carries nodes source target)
    (hnodes : ∀ id ∈ nodes, id ∈ diagram.schema.tableIds)
    (hcalm : ∀ operation ∈ operations, operation.Calm diagram) :
    Going diagram animation (k + operations.countP Operation.isFrame)
      (afterAll state operations) := by
  induction operations generalizing k state with
  | nil => exact h
  | cons operation operations ih =>
    have hnext := h.step hcarries hnodes (hcalm operation List.mem_cons_self)
    have hrest := ih hnext fun other hother => hcalm other (List.mem_cons_of_mem _ hother)
    rw [Nat.add_assoc, ← List.countP_append] at hrest
    exact hrest

/-! ## What an accepted layout leaves behind -/

theorem Ready.isDone_iff (h : Ready session diagram nodes layout source target animation)
    {k : Nat} : (animation.played k).isDone = true ↔ session.settings.frames.toNat ≤ k := by
  rw [Animation.isDone_played_iff, Animation.remaining, h.frames_eq, h.frame_eq]
  exact Iff.rfl

/-- Frames are left to play exactly if the settings ask for an animation that has some. -/
theorem Ready.pending_iff (h : Ready session diagram nodes layout source target animation) :
    (session.settings.animated && !animation.isDone) = true ↔
      session.settings.animated = true ∧ 0 < session.settings.frames := by
  have hdone := h.isDone_iff (k := 0)
  rw [Nat.le_zero] at hdone
  rw [Bool.and_eq_true_iff, Bool.not_eq_true', Bool.eq_false_iff, ne_eq,
    UInt32.lt_iff_toNat_lt, UInt32.toNat_zero, Nat.pos_iff_ne_zero]
  exact and_congr_right fun _ => not_congr hdone

/-- Where a layout has been set up and nothing has been moved, frames are left to play. -/
theorem Ready.prepares (h : Ready session diagram nodes layout source target animation)
    {outcome : Outcome FragileSchema TableId β} {result : β}
    (hyields : outcome.Yields ⟨session.settings, some animation⟩ diagram result) :
    Prepares session diagram layout result outcome := by
  obtain ⟨hsession, hdiagram, hresult⟩ := hyields
  refine ⟨hresult, hdiagram, ?_, ?_, fun operations hcalm => ?_⟩
  · rw [hsession]
  · rw [hsession]
    exact congrArg some h.placements_eq
  · have hstate : outcome.state = (⟨session.settings, some animation⟩, diagram) := by
      rw [Outcome.state, hsession, hdiagram]
    have hgoing : Going diagram animation 0 outcome.state := by
      rw [hstate]
      exact ⟨rfl, fun _ hid => hid⟩
    have hend := (hgoing.run h.carries h.nodes_mem hcalm).animation_eq
    rw [Nat.zero_add] at hend
    rw [isDone, hend]
    exact h.isDone_iff

/-- Where a layout has been finished, its tables are where it has put them. -/
theorem Ready.exists_completes (h : Ready session diagram nodes layout source target animation)
    (hsetup : (session.setup diagram nodes origin).Yields ⟨session.settings, some animation⟩
      diagram ())
    (hpending : (session.settings.animated && !animation.isDone) = false) :
    Completes session diagram nodes layout (session.run diagram nodes origin) := by
  obtain ⟨t, hmove, hmoved⟩ := FragileSchema.exists_moveAll h.nodes_mem target
  obtain ⟨hsession, hdiagram, hresult⟩ := run_yields_false hsetup hpending
    (finish_yields (h.carries.finish_eq_ok hmove))
  refine ⟨hresult, ?_, ?_, ?_, target, t, hdiagram, h.target_eq, hmoved⟩
  · rw [hsession]
  · rw [hsession]
    exact congrArg some h.placements_eq
  · rw [hsession]
    exact Animation.isDone_iff.mpr rfl

theorem setup_prepares (h : treeLayout session.settings.gaps diagram nodes origin = .ok layout) :
    Prepares session diagram layout () (session.setup diagram nodes origin) := by
  obtain ⟨animation, source, target, hready, hsetup⟩ := exists_ready h
  exact hready.prepares hsetup

/-- A layout that is accepted is carried out, unless it is to be animated. -/
theorem run_prepares_or_completes
    (h : treeLayout session.settings.gaps diagram nodes origin = .ok layout) :
    if session.settings.animated = true ∧ 0 < session.settings.frames then
      Prepares session diagram layout true (session.run diagram nodes origin)
    else Completes session diagram nodes layout (session.run diagram nodes origin) := by
  obtain ⟨animation, source, target, hready, hsetup⟩ := exists_ready h
  have hiff := hready.pending_iff
  split <;> rename_i hpending <;> rw [← hiff] at hpending
  · exact hready.prepares (run_yields_true hsetup hpending)
  · exact hready.exists_completes hsetup (Bool.eq_false_iff.mpr hpending)

theorem exists_run_eq_ok (h : treeLayout session.settings.gaps diagram nodes origin = .ok layout) :
    ∃ pending, (session.run diagram nodes origin).result = .ok pending := by
  have hrun := run_prepares_or_completes h
  split at hrun
  · exact ⟨true, hrun.result_eq⟩
  · exact ⟨false, hrun.result_eq⟩

/-! ## What a refused layout leaves behind -/

/-- A step: a session without an animation gets none, unless a layout is accepted. -/
theorem animation_after_eq_none (h : state.1.animation = none) {operation : Operation}
    (hnot : ¬ LaysOut state operation) : (after state operation).1.animation = none := by
  obtain ⟨session, diagram⟩ := state
  have hidle := idle_of_animation_eq_none h
  cases operation with
  | setup nodes origin =>
    cases hlayout : treeLayout session.settings.gaps diagram nodes origin with
    | error e => exact congrArg animation (setup_fails hlayout).session_eq
    | ok layout => exact absurd (setup_prepares hlayout).result_eq hnot
  | run nodes origin =>
    cases hlayout : treeLayout session.settings.gaps diagram nodes origin with
    | error e => exact congrArg animation (run_fails hlayout).session_eq
    | ok layout => exact absurd (exists_run_eq_ok hlayout) hnot
  | nextFrame => exact (congrArg animation (hidle.nextFrame diagram).session_eq).trans h
  | finish => exact (congrArg animation (hidle.finish diagram).session_eq).trans h
  | configure settings => exact h
  | revise diagram => exact h

/-- A run: a session without an animation is idle as long as no layout is accepted. -/
theorem idle_afterAll (h : state.1.animation = none)
    (hnothing : LaysNothingOut state operations) : Idle (afterAll state operations).1 := by
  induction operations generalizing state with
  | nil => exact idle_of_animation_eq_none h
  | cons operation operations ih =>
    exact ih (animation_after_eq_none h hnothing.1) hnothing.2

theorem refuses_of_fails {outcome : Outcome FragileSchema TableId β} {e : LayoutError TableId}
    (h : outcome.Fails ⟨session.settings, none⟩ diagram e) :
    Refuses session diagram outcome := by
  obtain ⟨hsession, hdiagram, -⟩ := h
  refine ⟨hdiagram, ?_, fun operations => idle_afterAll ?_⟩
  · rw [hsession]
  · exact congrArg Session.animation hsession

end Session

/-- Setting up and running a layout fail exactly if it is refused, for the same reason; nothing is
left of it then, nor of the layout before. If it is accepted, setting it up moves nothing, and
running it either leaves all its frames to play or moves its tables to their places at once, as the
settings ask. This is so in every state that a session can be in. -/
theorem session_follows_layout (session : Session TableId) (diagram : FragileSchema)
    (nodes : List TableId) (origin : Point) :
    (∀ e, (session.setup diagram nodes origin).result = .error e ↔
      treeLayout session.settings.gaps diagram nodes origin = .error e) ∧
    (∀ e, (session.run diagram nodes origin).result = .error e ↔
      treeLayout session.settings.gaps diagram nodes origin = .error e) ∧
    (∀ e, treeLayout session.settings.gaps diagram nodes origin = .error e →
      Session.Refuses session diagram (session.setup diagram nodes origin) ∧
        Session.Refuses session diagram (session.run diagram nodes origin)) ∧
    ∀ layout, treeLayout session.settings.gaps diagram nodes origin = .ok layout →
      Session.Prepares session diagram layout () (session.setup diagram nodes origin) ∧
        if session.settings.animated = true ∧ 0 < session.settings.frames then
          Session.Prepares session diagram layout true (session.run diagram nodes origin)
        else Session.Completes session diagram nodes layout (session.run diagram nodes origin) := by
  cases hlayout : treeLayout session.settings.gaps diagram nodes origin with
  | error e =>
    have hsetup := Session.setup_fails hlayout
    have hrun := Session.run_fails hlayout
    refine ⟨fun e' => ?_, fun e' => ?_, fun e' _ => ?_, fun layout h => ?_⟩
    · rw [hsetup.result_eq, Except.error.injEq, Except.error.injEq]
    · rw [hrun.result_eq, Except.error.injEq, Except.error.injEq]
    · exact ⟨Session.refuses_of_fails hsetup, Session.refuses_of_fails hrun⟩
    · cases h
  | ok layout =>
    have hsetup := Session.setup_prepares hlayout
    obtain ⟨pending, hrun⟩ := Session.exists_run_eq_ok hlayout
    refine ⟨fun e => ?_, fun e => ?_, fun e h => ?_, fun layout' h => ?_⟩
    · rw [hsetup.result_eq]
      exact iff_of_false nofun nofun
    · rw [hrun]
      exact iff_of_false nofun nofun
    · cases h
    · cases h
      exact ⟨hsetup, Session.run_prepares_or_completes hlayout⟩

/-- The ring, of which it cannot be read any more which tables the second one refers to. -/
def brokenRing : FragileSchema := (FragileSchema.ofSchema Schema.ring).fail ⟨1⟩ .imported "gone"

/-- The ring is set up to be animated; when it cannot be read any more, the next layout is refused,
and the animation is given up. -/
theorem session_follows_layout_ring : ∃ layout e session,
    treeLayout .standard (FragileSchema.ofSchema Schema.ring) [⟨0⟩, ⟨1⟩, ⟨2⟩] .zero = .ok layout ∧
      treeLayout .standard brokenRing [⟨0⟩, ⟨1⟩, ⟨2⟩] .zero = .error e ∧
      Session.Prepares (.ofSettings ⟨true, 3, .standard⟩) (FragileSchema.ofSchema Schema.ring)
        layout true ((Session.ofSettings ⟨true, 3, .standard⟩).run
          (FragileSchema.ofSchema Schema.ring) [⟨0⟩, ⟨1⟩, ⟨2⟩] .zero) ∧
      session.placements = some layout.placements ∧
      (session.run brokenRing [⟨0⟩, ⟨1⟩, ⟨2⟩] .zero).result = .error e ∧
      Session.Refuses session brokenRing (session.run brokenRing [⟨0⟩, ⟨1⟩, ⟨2⟩] .zero) := by
  have haccepted : Accepted .standard (FragileSchema.ofSchema Schema.ring) [⟨0⟩, ⟨1⟩, ⟨2⟩] .zero
      ringNetwork ⟨#v[some ⟨0, 0⟩, some ⟨160, 0⟩, some ⟨320, 0⟩], ⟨0, 60⟩⟩ :=
    ⟨⟨accepted_ring.resolves.injective, accepted_ring.resolves.related,
      accepted_ring.resolves.sizes⟩, accepted_ring.fills⟩
  have hlayout := treeLayout_eq_ok_iff.mpr ⟨_, _, haccepted, rfl⟩
  cases hbroken : treeLayout .standard brokenRing [⟨0⟩, ⟨1⟩, ⟨2⟩] .zero with
  | ok layout =>
    -- an accepted layout has read what the second table refers to
    obtain ⟨network, filling, hbroken, -⟩ := treeLayout_eq_ok_iff.mp hbroken
    obtain ⟨exported, imported, -, himported, -⟩ := hbroken.resolves.related 1
    cases himported
  | error e =>
    have hfirst := session_follows_layout (.ofSettings ⟨true, 3, .standard⟩)
      (FragileSchema.ofSchema Schema.ring) [⟨0⟩, ⟨1⟩, ⟨2⟩] .zero
    have hrun := (hfirst.2.2.2 _ hlayout).2
    rw [if_pos (by decide)] at hrun
    have hsecond := session_follows_layout ((Session.ofSettings ⟨true, 3, .standard⟩).run
      (FragileSchema.ofSchema Schema.ring) [⟨0⟩, ⟨1⟩, ⟨2⟩] .zero).session brokenRing
      [⟨0⟩, ⟨1⟩, ⟨2⟩] .zero
    rw [hrun.settings_eq] at hsecond
    refine ⟨_, e, _, hlayout, rfl, hrun, hrun.placements_eq, ?_, ?_⟩
    · exact (hsecond.2.1 e).mpr hbroken
    · exact (hsecond.2.2.1 e hbroken).2

end SchemaLayout
