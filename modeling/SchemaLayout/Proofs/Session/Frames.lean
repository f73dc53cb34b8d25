import SchemaLayout.Animation
import SchemaLayout.Proofs.Geometry.Interpolation
import SchemaLayout.Proofs.Schema.Moving
import SchemaLayout.Proofs.Traversal

/-!
# Frames

An animation starts at frame zero with a way for each node that has a place to go to, and playing
frames changes nothing but its counter, which goes up by one and stops at the number of frames.
There the progress is exactly one, also for an animation without frames.
-/

namespace SchemaLayout.Animation

variable {δ ι : Type} [Diagram δ ι] {animation : Animation ι}

/-- An animation moves nodes from their sources to their targets. -/
def Carries (animation : Animation ι) (nodes : List ι) (source target : ι → Point) : Prop :=
  animation.moves = nodes.map fun node => ⟨node, source node, target node⟩

/-! ## Starting -/

/-- The nodes of a diagram that have a place to go to start from where they are. -/
theorem start_eq_ok [BEq ι] {diagram : δ} {nodes : List ι} {source : ι → Point}
    (hsource : ∀ node ∈ nodes, Diagram.position? diagram node = some (source node))
    (placements : Placements ι) (frames : UInt32) :
    start diagram placements nodes frames =
      .ok ⟨nodes.filterMap fun node =>
          (placements.find? node).map fun target => ⟨node, source node, target⟩,
        placements, frames, 0, UInt32.zero_le⟩ := by
  unfold start
  rw [Traversal.bind_eq_ok_iff]
  refine ⟨_, ?_, rfl⟩
  have hmap : (nodes.filterMap fun node =>
        (placements.find? node).map fun target => (⟨node, source node, target⟩ : Move ι)) =
      (nodes.filterMap fun node => (placements.find? node).map fun target => (node, target)).map
        fun way => ⟨way.1, source way.1, way.2⟩ := by
    rw [List.map_filterMap]
    simp only [Option.map_map, Function.comp_def]
  -- every node that is asked for its position is one of the list
  rw [hmap, Traversal.mapM_eq_ok_iff, List.forall₂_map_right_iff, List.forall₂_same]
  rintro ⟨node, target⟩ hway
  obtain ⟨other, hmem, hother⟩ := List.mem_filterMap.mp hway
  obtain ⟨_, -, heq⟩ := Option.map_eq_some_iff.mp hother
  cases heq
  simp only [moveFrom, hsource node hmem]

/-- The nodes of a list that have a place to go to, in the order of the list. -/
def moving [BEq ι] (placements : Placements ι) (nodes : List ι) : List ι :=
  nodes.filter fun node => (placements.find? node).isSome

/-- What an animation is like when it starts. -/
structure Starts [BEq ι] (diagram : δ) (placements : Placements ι) (nodes : List ι)
    (frames : UInt32) (source target : ι → Point) (animation : Animation ι) : Prop where
  carries : animation.Carries (moving placements nodes) source target
  placements_eq : animation.placements = placements
  frames_eq : animation.frames = frames
  frame_eq : animation.frame = 0
  source_eq : ∀ node ∈ nodes, Diagram.position? diagram node = some (source node)
  target_eq : ∀ node ∈ moving placements nodes, placements.find? node = some (target node)

/-- Nodes of a diagram can be animated towards any places, be they given to all nodes or not. -/
theorem exists_start [BEq ι] {diagram : δ} {placements : Placements ι} {nodes : List ι}
    {source target : ι → Point}
    (hsource : ∀ node ∈ nodes, Diagram.position? diagram node = some (source node))
    (htarget : ∀ node ∈ moving placements nodes, placements.find? node = some (target node))
    (frames : UInt32) :
    ∃ animation, start diagram placements nodes frames = .ok animation ∧
      Starts diagram placements nodes frames source target animation := by
  refine ⟨_, start_eq_ok hsource .., ?_, rfl, rfl, rfl, hsource, htarget⟩
  have hmap : ((moving placements nodes).map fun node => Move.mk node (source node) (target node)) =
      (moving placements nodes).filterMap fun node =>
        (placements.find? node).map fun target => ⟨node, source node, target⟩ := by
    rw [← List.filterMap_eq_map]
    refine List.filterMap_congr fun node hnode => ?_
    rw [htarget node hnode]
    rfl
  rw [Carries, hmap, moving, List.filterMap_filter]
  refine List.filterMap_congr fun node _ => ?_
  cases placements.find? node <;> rfl

theorem exists_find?_of_mem_moving [BEq ι] {placements : Placements ι} {nodes : List ι} {node : ι}
    (h : node ∈ moving placements nodes) : ∃ place, placements.find? node = some place :=
  Option.isSome_iff_exists.mp (List.mem_filter.mp h).2

/-- If every node has a place to go to, all are moved. -/
theorem moving_eq_self [BEq ι] {placements : Placements ι} {nodes : List ι}
    (h : ∀ node ∈ nodes, ∃ place, placements.find? node = some place) :
    moving placements nodes = nodes :=
  List.filter_eq_self.mpr fun node hnode => Option.isSome_iff_exists.mpr (h node hnode)

/-! ## Playing -/

theorem isDone_iff : animation.isDone = true ↔ animation.frame = animation.frames := by
  unfold isDone
  rw [decide_eq_true_iff]
  constructor
  · exact UInt32.le_antisymm animation.frame_le_frames
  · intro h
    rw [h]
    exact UInt32.le_refl _

theorem moves_advance (animation : Animation ι) : animation.advance.moves = animation.moves := by
  unfold advance
  split <;> rfl

theorem frames_advance (animation : Animation ι) : animation.advance.frames = animation.frames := by
  unfold advance
  split <;> rfl

theorem placements_advance (animation : Animation ι) :
    animation.advance.placements = animation.placements := by
  unfold advance
  split <;> rfl

theorem advance_of_isDone (h : animation.isDone = true) : animation.advance = animation := by
  rw [isDone_iff] at h
  unfold advance
  rw [dif_neg (h ▸ UInt32.lt_irrefl _)]

/-- The counter goes up by one and stops at the number of frames. -/
theorem toNat_frame_advance (animation : Animation ι) :
    animation.advance.frame.toNat = min (animation.frame.toNat + 1) animation.frames.toNat := by
  have hle := UInt32.le_iff_toNat_le.mp animation.frame_le_frames
  have hsize := animation.frames.toNat_lt
  unfold advance
  split <;> rename_i h <;> rw [UInt32.lt_iff_toNat_lt] at h
  · -- the counter is below the number of frames and does not wrap
    show (animation.frame + 1).toNat = _
    rw [UInt32.toNat_add, UInt32.toNat_one]
    omega
  · omega

/-- The animation after a number of frames. -/
def played (animation : Animation ι) (k : Nat) : Animation ι := Nat.repeat advance k animation

theorem played_succ (animation : Animation ι) (k : Nat) :
    animation.played (k + 1) = (animation.played k).advance :=
  rfl

theorem frames_played (animation : Animation ι) (k : Nat) :
    (animation.played k).frames = animation.frames := by
  induction k with
  | zero => rfl
  | succ k ih => rw [played_succ, frames_advance, ih]

theorem toNat_frame_played (animation : Animation ι) (k : Nat) :
    (animation.played k).frame.toNat = min (animation.frame.toNat + k) animation.frames.toNat := by
  induction k with
  | zero =>
    have hle := UInt32.le_iff_toNat_le.mp animation.frame_le_frames
    show animation.frame.toNat = _
    omega
  | succ k ih =>
    rw [played_succ, toNat_frame_advance, ih, frames_played]
    omega

/-- An animation is done after the frames that were left, and not before. -/
theorem isDone_played_iff {k : Nat} :
    (animation.played k).isDone = true ↔ animation.remaining ≤ k := by
  have hle := UInt32.le_iff_toNat_le.mp animation.frame_le_frames
  rw [isDone_iff, ← UInt32.toNat_inj, toNat_frame_played, frames_played, remaining]
  omega

/-- All of an animation that is done has been played. -/
theorem progress_of_isDone (h : animation.isDone = true) : animation.progress = .finite 1 := by
  rw [isDone_iff] at h
  unfold progress
  split <;> rename_i hframes
  · rfl
  · have hne : (animation.frames.toNat : Rat) ≠ 0 := by
      rw [Nat.cast_ne_zero, ← UInt32.toNat_zero, ne_eq, UInt32.toNat_inj]
      exact hframes
    rw [h, div_self hne, ← Int.cast_one, Binary64.ofRat_intCast (by norm_num)]

/-- Of an animation that has frames, the part that has been played is rounded once. -/
theorem progress_eq_ofRat (h : animation.frames ≠ 0) :
    animation.progress = .ofRat (animation.frame.toNat / animation.frames.toNat) := by
  rw [progress, if_neg h]

/-- An animation that is done plays nothing. -/
theorem nextFrame_of_isDone (h : animation.isDone = true) (diagram : δ) :
    animation.nextFrame diagram = .ok (animation, diagram, []) := by
  rw [nextFrame, if_pos h]

/-- Asking for a frame, if it can be drawn, leads to the animation after one more frame. -/
theorem eq_advance_of_nextFrame {diagram diagram' : δ} {next : Animation ι} {moved : List ι}
    (h : animation.nextFrame diagram = .ok (next, diagram', moved)) : next = animation.advance := by
  cases hdone : animation.isDone with
  | true =>
    rw [nextFrame_of_isDone hdone] at h
    cases h
    exact (advance_of_isDone hdone).symm
  | false =>
    rw [nextFrame, hdone, if_neg Bool.false_ne_true] at h
    obtain ⟨_, -, hreturn⟩ := Traversal.bind_eq_ok_iff.mp h
    cases hreturn
    rfl

theorem eq_complete_of_finish {diagram diagram' : δ} {next : Animation ι}
    (h : animation.finish diagram = .ok (next, diagram')) : next = animation.complete := by
  obtain ⟨_, -, hreturn⟩ := Traversal.bind_eq_ok_iff.mp h
  cases hreturn
  rfl

/-! ## What is moved -/

variable {nodes : List ι} {source target : ι → Point} {diagram diagram' : δ}

theorem Carries.advance (h : animation.Carries nodes source target) :
    animation.advance.Carries nodes source target :=
  (moves_advance animation).trans h

theorem Carries.played (h : animation.Carries nodes source target) (k : Nat) :
    (animation.played k).Carries nodes source target := by
  induction k with
  | zero => exact h
  | succ k ih => exact ih.advance

theorem Carries.nodes_eq (h : animation.Carries nodes source target) :
    animation.nodes = nodes := by
  rw [Animation.nodes, h, List.map_map]
  exact List.map_id' _

/-- If a frame is left, it draws the nodes on their way. -/
theorem Carries.nextFrame_eq_ok (h : animation.Carries nodes source target)
    (hleft : animation.isDone = false)
    (hmove : moveAll diagram (nodes.map fun node =>
      (node, (source node).towards (target node) animation.advance.progress)) = .ok diagram') :
    animation.nextFrame diagram = .ok (animation.advance, diagram', nodes) := by
  have hpositions : animation.advance.positions = nodes.map fun node =>
      (node, (source node).towards (target node) animation.advance.progress) := by
    rw [positions, h.advance, List.map_map]
    rfl
  rw [nextFrame, hleft, if_neg Bool.false_ne_true, hpositions, hmove, h.nodes_eq]
  rfl

/-- If the nodes can be moved anywhere, a frame can be asked for at any time; what moving them keeps
of the diagram is then kept. -/
theorem Carries.exists_advance (h : animation.Carries nodes source target) {P : δ → Prop}
    (hmove : ∀ place : ι → Point, ∃ diagram',
      moveAll diagram (nodes.map fun node => (node, place node)) = .ok diagram' ∧ P diagram')
    (hdiagram : P diagram) :
    ∃ diagram' moved, animation.nextFrame diagram = .ok (animation.advance, diagram', moved) ∧
      P diagram' := by
  cases hdone : animation.isDone with
  | true =>
    refine ⟨diagram, [], ?_, hdiagram⟩
    rw [advance_of_isDone hdone, nextFrame_of_isDone hdone]
  | false =>
    obtain ⟨diagram', hmoved, hkept⟩ := hmove fun node =>
      (source node).towards (target node) animation.advance.progress
    exact ⟨diagram', nodes, h.nextFrame_eq_ok hdone hmoved, hkept⟩

/-- In the end the nodes are where they go. -/
theorem Carries.finish_eq_ok (h : animation.Carries nodes source target)
    (hmove : moveAll diagram (nodes.map fun node => (node, target node)) = .ok diagram') :
    animation.finish diagram = .ok (animation.complete, diagram') := by
  have htargets : animation.targets = nodes.map fun node => (node, target node) := by
    rw [targets, h, List.map_map]
    rfl
  rw [finish, htargets, hmove]
  rfl

/-! ## Tables on their way -/

section

variable {s : Schema} {animation : Animation TableId} {nodes : List TableId}
  {source target : TableId → Point}

/-- A frame draws each table on its way, wherever it has been drawn before. -/
theorem Carries.exists_nextFrame (h : animation.Carries nodes source target)
    (hnodes : ∀ id ∈ nodes, id ∈ s.tableIds) (hleft : animation.isDone = false) :
    ∃ t, animation.nextFrame s = .ok (animation.advance, t, nodes) ∧
      s.Moved (fun id => (source id).towards (target id) animation.advance.progress) nodes t := by
  obtain ⟨t, hmove, hmoved⟩ := Schema.exists_moveAll hnodes
    fun id => (source id).towards (target id) animation.advance.progress
  exact ⟨t, h.nextFrame_eq_ok hleft hmove, hmoved⟩

/-- Finishing moves the tables to where they go at once. -/
theorem Carries.exists_finish (h : animation.Carries nodes source target)
    (hnodes : ∀ id ∈ nodes, id ∈ s.tableIds) :
    ∃ t, animation.finish s = .ok (animation.complete, t) ∧ s.Moved target nodes t := by
  obtain ⟨t, hmove, hmoved⟩ := Schema.exists_moveAll hnodes target
  exact ⟨t, h.finish_eq_ok hmove, hmoved⟩

/-- Tables that are where they go stay there. -/
theorem Carries.finish_of_placed (h : animation.Carries nodes source target)
    (hplaced : ∀ id ∈ nodes, Diagram.position? s id = some (target id)) :
    animation.finish s = .ok (animation.complete, s) := by
  refine h.finish_eq_ok (Schema.moveAll_self fun assignment hmem => ?_)
  obtain ⟨id, hid, rfl⟩ := List.mem_map.mp hmem
  exact hplaced id hid

end

end SchemaLayout.Animation
