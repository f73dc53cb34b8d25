import Mathlib.Data.List.Induction
import SchemaLayout.Proofs.Session.Frames

/-!
# Interference

While an animation is on its way, anybody may move the tables of its schema, and it may be finished
before its last frame. Neither leaves a trace: the counter of frames tells how often a frame has
been asked for and whether the animation has been finished, and nothing else; and the next frame
draws its tables anew, from where they were when the animation was started.

`Since` is what any sequence of acts keeps, and `Draws` is what may be done next, wherever such a
sequence has led.
-/

namespace SchemaLayout

namespace Placements

variable {ι : Type} [DecidableEq ι]

/-- An assignment counts for its own node, unless a later one overrides it. -/
theorem find?_ofAssignments_cons (node other : ι) (position : Point)
    (later : List (ι × Point)) :
    (ofAssignments ((other, position) :: later)).find? node =
      ((ofAssignments later).find? node).or (if node = other then some position else none) := by
  show find? (if ((ofAssignments later).find? other).isSome then ofAssignments later
    else (other, position) :: ofAssignments later) node = _
  by_cases hnode : node = other
  · subst hnode
    rw [if_pos rfl]
    cases hlater : (ofAssignments later).find? node with
    | none =>
      rw [if_neg (by simp)]
      exact List.lookup_cons_self
    | some position =>
      rw [if_pos (by simp), hlater]
      rfl
  · rw [if_neg hnode, Option.or_none]
    split
    · rfl
    · rw [find?, List.lookup_cons, beq_false_of_ne hnode]
      rfl

/-- Where each node of a list is assigned a position of its own, it has this position, also if the
list repeats it. -/
theorem find?_ofAssignments_map (nodes : List ι) (place : ι → Point) (node : ι) :
    (ofAssignments (nodes.map fun node => (node, place node))).find? node =
      if node ∈ nodes then some (place node) else none := by
  induction nodes with
  | nil => rfl
  | cons head nodes ih =>
    rw [List.map_cons, find?_ofAssignments_cons, ih]
    by_cases hhead : node = head
    · subst hhead
      rw [if_pos rfl, if_pos List.mem_cons_self]
      split <;> rfl
    · rw [if_neg hhead, Option.or_none]
      exact if_congr (by rw [List.mem_cons, or_iff_right hhead]) rfl rfl

end Placements

namespace Animation

/-- An animation remembers where the nodes that it moves have started, and no other node. -/
theorem Carries.find?_originals {ι : Type} [DecidableEq ι] {animation : Animation ι}
    {nodes : List ι} {source target : ι → Point} (h : animation.Carries nodes source target)
    (node : ι) :
    animation.originals.find? node = if node ∈ nodes then some (source node) else none := by
  rw [originals, h, List.map_map]
  exact Placements.find?_ofAssignments_map nodes source node

/-! ## Acts -/

/-- What is done to an animation of tables, or by others to its schema. -/
inductive Act where
  | nextFrame
  | finish
  | move (id : TableId) (position : Point)
deriving DecidableEq

/-- An animation and its schema after an act. -/
def act (state : Animation TableId × Schema) :
    Act → Except (LayoutError TableId) (Animation TableId × Schema)
  | .nextFrame => do
    let (animation, schema, _) ← state.1.nextFrame state.2
    return (animation, schema)
  | .finish => state.1.finish state.2
  | .move id position =>
    match state.2.move? id position with
    | some schema => .ok (state.1, schema)
    | none => .error (.missingNode id)

/-- An animation and its schema after some acts. -/
def actAll (state : Animation TableId × Schema) (acts : List Act) :
    Except (LayoutError TableId) (Animation TableId × Schema) :=
  acts.foldlM act state

/-- Others only move tables of the schema. -/
def Allowed (schema : Schema) (acts : List Act) : Prop :=
  ∀ id position, Act.move id position ∈ acts → id ∈ schema.tableIds

/-- How many of a number of frames have been played after some acts. -/
def framesAfter (frames : Nat) (acts : List Act) : Nat :=
  if .finish ∈ acts then frames else min frames (acts.count .nextFrame)

variable {s t u : Schema} {started animation next : Animation TableId} {nodes : List TableId}
  {source target : TableId → Point} {acts : List Act}

/-- What some acts have kept of an animation and its schema, and what they have made of its
counter. -/
structure Since (started : Animation TableId) (s : Schema) (acts : List Act)
    (animation : Animation TableId) (t : Schema) : Prop where
  moves_eq : animation.moves = started.moves
  placements_eq : animation.placements = started.placements
  frames_eq : animation.frames = started.frames
  counter : animation.frame.toNat = framesAfter started.frames.toNat acts
  alike : s.Alike t

/-- What can be done next: as long as a frame is left, to play it, which draws the nodes on their
way; after that, nothing; and at any time, to move them to where they go. -/
structure Draws (nodes : List TableId) (source target : TableId → Point)
    (animation : Animation TableId) (t : Schema) : Prop where
  plays : animation.frame < animation.frames → ∃ next u,
    animation.nextFrame t = .ok (next, u, nodes) ∧
      next.frame.toNat = animation.frame.toNat + 1 ∧
      t.Moved (fun id => (source id).towards (target id)
        (.ofRat (next.frame.toNat / animation.frames.toNat))) nodes u
  rests : animation.frame = animation.frames → animation.nextFrame t = .ok (animation, t, [])
  finishes : ∃ u, animation.finish t = .ok (animation.complete, u) ∧ t.Moved target nodes u ∧
    animation.complete.finish u = .ok (animation.complete, u)

/-! ## What can be done next -/

theorem Carries.draws (h : animation.Carries nodes source target)
    (hnodes : ∀ id ∈ nodes, id ∈ t.tableIds) : Draws nodes source target animation t := by
  refine ⟨fun hlt => ?_, fun heq => nextFrame_of_isDone (isDone_iff.mpr heq) t, ?_⟩
  · rw [UInt32.lt_iff_toNat_lt] at hlt
    have hleft : animation.isDone = false := by
      rw [Bool.eq_false_iff, ne_eq, isDone_iff, ← UInt32.toNat_inj]
      exact hlt.ne
    have hframes : animation.advance.frames ≠ 0 := by
      rw [frames_advance, ne_eq, ← UInt32.toNat_inj, UInt32.toNat_zero]
      omega
    obtain ⟨u, hnext, hmoved⟩ := h.exists_nextFrame hnodes hleft
    rw [progress_eq_ofRat hframes, frames_advance] at hmoved
    refine ⟨animation.advance, u, hnext, ?_, hmoved⟩
    rw [toNat_frame_advance]
    omega
  · obtain ⟨u, hfinish, hmoved⟩ := h.exists_finish hnodes
    exact ⟨u, hfinish, hmoved, Carries.finish_of_placed h hmoved.placed⟩

/-! ## What acts keep -/

theorem framesAfter_nextFrame (frames : Nat) (acts : List Act) :
    framesAfter frames (acts ++ [.nextFrame]) = min (framesAfter frames acts + 1) frames := by
  simp only [framesAfter, List.mem_append, List.mem_singleton, reduceCtorEq, or_false,
    List.count_append, List.count_singleton_self]
  split <;> omega

theorem framesAfter_finish (frames : Nat) (acts : List Act) :
    framesAfter frames (acts ++ [.finish]) = frames :=
  if_pos (List.mem_append_right _ (List.mem_singleton_self _))

theorem framesAfter_move (frames : Nat) (acts : List Act) (id : TableId) (position : Point) :
    framesAfter frames (acts ++ [.move id position]) = framesAfter frames acts := by
  simp [framesAfter, List.count_append]

/-- A step: whatever is done, it can be done, and everything but the positions is kept. -/
theorem Since.step (h : Since started s acts animation t)
    (hcarries : started.Carries nodes source target) (hnodes : ∀ id ∈ nodes, id ∈ s.tableIds)
    {a : Act} (ha : Allowed s [a]) :
    ∃ next u, act (animation, t) a = .ok (next, u) ∧ Since started s (acts ++ [a]) next u := by
  have hcarries : animation.Carries nodes source target := h.moves_eq.trans hcarries
  have hnodes : ∀ id ∈ nodes, id ∈ t.tableIds := fun id hid => h.alike.tableIds ▸ hnodes id hid
  cases a with
  | nextFrame =>
    obtain ⟨u, moved, hnext, halike⟩ := hcarries.exists_advance (fun place =>
      (Schema.exists_moveAll hnodes place).imp fun _ hu => ⟨hu.1, hu.2.alike⟩) (.refl t)
    refine ⟨animation.advance, u, ?_, (moves_advance animation).trans h.moves_eq,
      (placements_advance animation).trans h.placements_eq,
      (frames_advance animation).trans h.frames_eq, ?_, h.alike.trans halike⟩
    · rw [act, hnext]
      rfl
    · rw [framesAfter_nextFrame, toNat_frame_advance, h.counter, h.frames_eq]
  | finish =>
    obtain ⟨u, hfinish, hmoved⟩ := hcarries.exists_finish hnodes
    refine ⟨_, u, hfinish, h.moves_eq, h.placements_eq, h.frames_eq, ?_, h.alike.trans hmoved.alike⟩
    rw [framesAfter_finish, ← h.frames_eq]
    rfl
  | move id position =>
    have hid : id ∈ t.tableIds := h.alike.tableIds ▸ ha id position (List.mem_singleton_self _)
    obtain ⟨u, hmove⟩ := Schema.exists_move? hid position
    refine ⟨animation, u, ?_, h.moves_eq, h.placements_eq, h.frames_eq, ?_,
      h.alike.trans (Schema.alike_of_move? hmove)⟩
    · simp only [act, hmove]
    · rw [framesAfter_move, h.counter]

/-- A run: whatever is done in turn, it can be done, and everything but the positions is kept. -/
theorem Since.run (hstarted : started.frame = 0)
    (hcarries : started.Carries nodes source target) (hnodes : ∀ id ∈ nodes, id ∈ s.tableIds)
    (hacts : Allowed s acts) :
    ∃ animation t, actAll (started, s) acts = .ok (animation, t) ∧
      Since started s acts animation t := by
  induction acts using List.reverseRecOn with
  | nil =>
    refine ⟨started, s, rfl, rfl, rfl, rfl, ?_, .refl s⟩
    rw [hstarted]
    exact (Nat.min_zero _).symm
  | append_singleton acts a ih =>
    obtain ⟨animation, t, hacts', hsince⟩ := ih fun id position hmem =>
      hacts id position (List.mem_append_left _ hmem)
    obtain ⟨next, u, hact, hnext⟩ := hsince.step hcarries hnodes (a := a) fun id position hmem =>
      hacts id position (List.mem_append_right _ hmem)
    refine ⟨next, u, ?_, hnext⟩
    unfold actAll at hacts' ⊢
    rw [List.foldlM_append, hacts']
    show [a].foldlM act (animation, t) = _
    rw [List.foldlM_cons, hact]
    rfl

/-- No act takes a frame back. -/
theorem frame_le_of_act {state state' : Animation TableId × Schema} {a : Act}
    (h : act state a = .ok state') : state.1.frame ≤ state'.1.frame := by
  obtain ⟨animation, t⟩ := state
  cases a with
  | nextFrame =>
    obtain ⟨⟨next, u, moved⟩, hnext, hreturn⟩ := Traversal.bind_eq_ok_iff.mp h
    cases hreturn
    have hadvance : next = animation.advance := eq_advance_of_nextFrame hnext
    show animation.frame ≤ next.frame
    rw [hadvance, UInt32.le_iff_toNat_le, toNat_frame_advance]
    have hle := UInt32.le_iff_toNat_le.mp animation.frame_le_frames
    omega
  | finish =>
    rw [eq_complete_of_finish h]
    exact animation.frame_le_frames
  | move id position =>
    simp only [act] at h
    split at h
    · cases h
      exact UInt32.le_refl _
    · cases h

theorem frame_le_of_actAll {state state' : Animation TableId × Schema}
    (h : actAll state acts = .ok state') : state.1.frame ≤ state'.1.frame :=
  Traversal.foldlM_induction (P := fun later => state.1.frame ≤ later.1.frame)
    (fun hle hact => UInt32.le_trans hle (frame_le_of_act hact)) (UInt32.le_refl _) h

end Animation

/-! ## The whole run -/

/-- An animation of tables can be started towards any placements. Whatever is done to it after that,
in whatever order, and wherever its tables are moved meanwhile: its counter never goes back and
tells how many frames have been played, it keeps its number of frames, its placements and the
positions from which its tables have started, and nothing but the positions of tables changes; the
next frame and the end are drawn as if nothing had happened before. -/
theorem animation_interleaved {s : Schema} {nodes : List TableId}
    (hnodes : ∀ id ∈ nodes, id ∈ s.tableIds) (placements : Placements TableId) (frames : UInt32) :
    ∃ started source target, Animation.start s placements nodes frames = .ok started ∧
      Animation.Starts s placements nodes frames source target started ∧
      (∀ id, started.originals.find? id =
        if id ∈ Animation.moving placements nodes then some (source id) else none) ∧
      ∀ acts, Animation.Allowed s acts → ∃ animation t,
        Animation.actAll (started, s) acts = .ok (animation, t) ∧
          Animation.Since started s acts animation t ∧
          animation.originals = started.originals ∧
          Animation.Draws (Animation.moving placements nodes) source target animation t ∧
          animation.frame ≤ frames ∧
          ∀ more later u, Animation.actAll (animation, t) more = .ok (later, u) →
            animation.frame ≤ later.frame := by
  choose! source hsource using fun id hid => Schema.exists_position?_of_mem (hnodes id hid)
  choose! target htarget using fun id (hid : id ∈ Animation.moving placements nodes) =>
    Animation.exists_find?_of_mem_moving hid
  obtain ⟨started, hstart, hstarts⟩ := Animation.exists_start hsource htarget frames
  have hmoving : ∀ id ∈ Animation.moving placements nodes, id ∈ s.tableIds := fun id hid =>
    hnodes id (List.mem_of_mem_filter hid)
  refine ⟨started, source, target, hstart, hstarts, hstarts.carries.find?_originals, ?_⟩
  intro acts hacts
  obtain ⟨animation, t, hrun, hsince⟩ :=
    Animation.Since.run hstarts.frame_eq hstarts.carries hmoving hacts
  have hcarries := hsince.moves_eq.trans hstarts.carries
  have hdraws := Animation.Carries.draws hcarries (t := t) fun id hid =>
    hsince.alike.tableIds ▸ hmoving id hid
  refine ⟨animation, t, hrun, hsince, ?_, hdraws, ?_, ?_⟩
  · rw [Animation.originals, Animation.originals, hsince.moves_eq]
  · rw [← hstarts.frames_eq, ← hsince.frames_eq]
    exact animation.frame_le_frames
  · exact fun more later u => Animation.frame_le_of_actAll

/-- Two tables of the ring on their way in three frames, one of them listed twice and the third
without a place to go to: two frames have been played, although a table was moved in between. -/
theorem animation_interleaved_ring : ∃ started source target,
    Animation.start Schema.ring [(⟨0⟩, ⟨3, 4⟩), (⟨2⟩, ⟨0, 9⟩)] [⟨0⟩, ⟨2⟩, ⟨1⟩, ⟨0⟩] 3 =
        .ok started ∧
      (∀ id, started.originals.find? id =
        if id ∈ [⟨0⟩, ⟨2⟩, ⟨0⟩] then some (source id) else none) ∧
      ∃ animation t,
        Animation.actAll (started, Schema.ring) [.nextFrame, .move ⟨2⟩ ⟨7, 7⟩, .nextFrame] =
            .ok (animation, t) ∧
          animation.frame = 2 ∧ Schema.ring.Alike t ∧
          Animation.Draws [⟨0⟩, ⟨2⟩, ⟨0⟩] source target animation t := by
  have hnodes : ∀ id ∈ [⟨0⟩, ⟨2⟩, ⟨1⟩, ⟨0⟩], id ∈ Schema.ring.tableIds := by decide
  obtain ⟨started, source, target, hstart, hstarts, horiginals, hall⟩ :=
    animation_interleaved hnodes [(⟨0⟩, ⟨3, 4⟩), (⟨2⟩, ⟨0, 9⟩)] 3
  have hallowed : Animation.Allowed Schema.ring [.nextFrame, .move ⟨2⟩ ⟨7, 7⟩, .nextFrame] := by
    intro id position hmem
    simp only [List.mem_cons, reduceCtorEq, List.not_mem_nil, false_or, or_false,
      Animation.Act.move.injEq] at hmem
    obtain ⟨rfl, -⟩ := hmem
    decide
  obtain ⟨animation, t, hrun, hsince, -, hdraws, -, -⟩ := hall _ hallowed
  have hframe : animation.frame.toNat = 2 := by
    rw [hsince.counter, hstarts.frames_eq]
    decide
  exact ⟨started, source, target, hstart, horiginals, animation, t, hrun,
    UInt32.toNat_inj.mp hframe, hsince.alike, hdraws⟩

end SchemaLayout
