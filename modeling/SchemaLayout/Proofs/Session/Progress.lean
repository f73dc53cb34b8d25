import SchemaLayout.Proofs.Geometry.Accuracy
import SchemaLayout.Proofs.Session.Paths
import SchemaLayout.Session

/-!
# Progress

The progress of an animation is a rounded quotient of two counters, yet it tells as much as the
counters do. Quotients of a denominator below `2 ^ 32` are at least `2 ^ (-32)` apart, and rounding
moves none of them by more than `2 ^ (-54)`; so no two frames have the same progress, and only the
last one has a progress of one.
-/

namespace SchemaLayout

/-- Rounding tells apart what has been done after different numbers of steps. -/
theorem Coord.done_lt_done {n j k : Nat} (hsize : n ≤ 2 ^ 32) (hjk : j < k) (hk : k ≤ n) :
    done n j < done n k := by
  have hn : 0 < n := by omega
  have hpos : (0 : Rat) < n := Nat.cast_pos.mpr hn
  have hgap : (2 : Rat) ^ (-32 : Int) ≤ 1 / n := by
    have hsize' : (n : Rat) ≤ 2 ^ 32 := by exact_mod_cast hsize
    rw [zpow_neg, ← one_div]
    exact one_div_le_one_div_of_le hpos hsize'
  have hstep : (j / n : Rat) + 1 / n ≤ k / n := by
    rw [← add_div]
    exact div_le_div_of_nonneg_right (by exact_mod_cast hjk) hpos.le
  have hround : (2 : Rat) ^ (-54 : Int) + 2 ^ (-54 : Int) < 2 ^ (-32 : Int) := by norm_num
  have hj := (abs_le.mp (abs_sub_done_le hn (hjk.le.trans hk))).1
  have hk := (abs_le.mp (abs_sub_done_le hn hk)).2
  linarith

namespace Animation

variable {δ ι : Type} [Diagram δ ι] {started animation next other : Animation ι}

/-! ## The part of the frames that has been played -/

/-- The number that the progress of an animation is. -/
def playedPart (animation : Animation ι) : Rat :=
  if animation.frames = 0 then 1 else Coord.done animation.frames.toNat animation.frame.toNat

theorem playedPart_of_frames_ne (h : animation.frames ≠ 0) :
    animation.playedPart = Coord.done animation.frames.toNat animation.frame.toNat :=
  if_neg h

theorem toNat_frames_pos (h : animation.frames ≠ 0) : 0 < animation.frames.toNat := by
  rw [Nat.pos_iff_ne_zero, ne_eq, ← UInt32.toNat_zero, UInt32.toNat_inj]
  exact h

theorem progress_eq_finite (animation : Animation ι) :
    animation.progress = .finite animation.playedPart := by
  have hle := UInt32.le_iff_toNat_le.mp animation.frame_le_frames
  rcases eq_or_ne animation.frames 0 with hframes | hframes
  · rw [progress, playedPart, if_pos hframes, if_pos hframes]
  · rw [progress_eq_ofRat hframes, playedPart_of_frames_ne hframes,
      Coord.ofRat_div_eq (toNat_frames_pos hframes) hle]

theorem playedPart_mem (animation : Animation ι) :
    0 ≤ animation.playedPart ∧ animation.playedPart ≤ 1 := by
  have hle := UInt32.le_iff_toNat_le.mp animation.frame_le_frames
  rcases eq_or_ne animation.frames 0 with hframes | hframes
  · rw [playedPart, if_pos hframes]
    exact ⟨zero_le_one, le_rfl⟩
  · rw [playedPart_of_frames_ne hframes]
    exact Coord.done_mem (toNat_frames_pos hframes) hle

/-- More frames are a larger part. -/
theorem playedPart_lt (hframes : animation.frames = other.frames)
    (hframe : animation.frame < other.frame) : animation.playedPart < other.playedPart := by
  rw [UInt32.lt_iff_toNat_lt] at hframe
  have hle := UInt32.le_iff_toNat_le.mp other.frame_le_frames
  have hother : other.frames ≠ 0 := by
    rw [ne_eq, ← UInt32.toNat_inj, UInt32.toNat_zero]
    omega
  rw [playedPart_of_frames_ne hother, playedPart_of_frames_ne (hframes ▸ hother), hframes]
  exact Coord.done_lt_done other.frames.toNat_lt.le hframe hle

/-- Different frames are different parts. -/
theorem playedPart_eq_iff (hframes : animation.frames = other.frames) :
    animation.playedPart = other.playedPart ↔ animation.frame = other.frame := by
  constructor
  · intro heq
    rcases lt_trichotomy animation.frame.toNat other.frame.toNat with hlt | hsame | hlt
    · exact absurd heq (playedPart_lt hframes (UInt32.lt_iff_toNat_lt.mpr hlt)).ne
    · exact UInt32.toNat_inj.mp hsame
    · exact absurd heq (playedPart_lt hframes.symm (UInt32.lt_iff_toNat_lt.mpr hlt)).ne'
  · intro hframe
    rw [playedPart, playedPart, hframes, hframe]

theorem playedPart_complete (animation : Animation ι) : animation.complete.playedPart = 1 := by
  have hdone : animation.complete.isDone = true := isDone_iff.mpr rfl
  have hprogress := progress_of_isDone hdone
  rw [progress_eq_finite, Binary64.finite.injEq] at hprogress
  exact hprogress

/-- The whole has been played exactly when the animation is done. -/
theorem playedPart_eq_one_iff : animation.playedPart = 1 ↔ animation.isDone = true := by
  have hframes : animation.frames = animation.complete.frames := rfl
  rw [← playedPart_complete animation, playedPart_eq_iff hframes, isDone_iff]
  rfl

/-! ## All that an animation can become -/

/-- What an animation can become by playing frames of it and finishing it, on any diagrams. -/
inductive Reached (δ : Type) {ι : Type} [Diagram δ ι] (started : Animation ι) :
    Animation ι → Prop
  | start : Reached δ started started
  | nextFrame {animation next : Animation ι} {diagram diagram' : δ} {moved : List ι}
      (h : Reached δ started animation)
      (hnext : animation.nextFrame diagram = .ok (next, diagram', moved)) : Reached δ started next
  | finish {animation next : Animation ι} {diagram diagram' : δ} (h : Reached δ started animation)
      (hfinish : animation.finish diagram = .ok (next, diagram')) : Reached δ started next

theorem Reached.frames_eq (h : Reached δ started animation) :
    animation.frames = started.frames := by
  induction h with
  | start => rfl
  | nextFrame _ hnext ih => rw [eq_advance_of_nextFrame hnext, frames_advance, ih]
  | finish _ hfinish ih =>
    rw [eq_complete_of_finish hfinish]
    exact ih

/-- A frame that is played makes the part larger, and no other does. -/
theorem playedPart_nextFrame {diagram diagram' : δ} {moved : List ι}
    (hnext : animation.nextFrame diagram = .ok (next, diagram', moved)) :
    if animation.isDone then next.playedPart = animation.playedPart
    else animation.playedPart < next.playedPart := by
  rw [eq_advance_of_nextFrame hnext]
  split <;> rename_i hdone
  · rw [advance_of_isDone hdone]
  · refine playedPart_lt (frames_advance animation).symm (UInt32.lt_iff_toNat_lt.mpr ?_)
    have hle := UInt32.le_iff_toNat_le.mp animation.frame_le_frames
    rw [isDone_iff, ← UInt32.toNat_inj] at hdone
    rw [toNat_frame_advance]
    omega

end Animation

/-! ## Progress and completion -/

/-- Progress agrees with completion. Whatever an animation is started from and with any number of
frames, after any frames that have been played and however often it has been finished: its progress
is a number from zero to one and is one exactly when the animation is done; it becomes larger with
every frame that is played; and it is the same for no two frames. A session that plays the
animation, or none, says the same. -/
theorem progress_tells_completion {δ ι : Type} [Diagram δ ι] [BEq ι] {diagram : δ}
    {placements : Placements ι} {nodes : List ι} {frames : UInt32} {started animation : Animation ι}
    (hstart : Animation.start diagram placements nodes frames = .ok started)
    (h : Animation.Reached δ started animation) :
    animation.frames = frames ∧ ∃ part : Rat, animation.progress = .finite part ∧
      0 ≤ part ∧ part ≤ 1 ∧ (animation.progress = .finite 1 ↔ animation.isDone = true) ∧
      (∀ (before after : δ) next moved, animation.nextFrame before = .ok (next, after, moved) →
        ∃ part', next.progress = .finite part' ∧
          if animation.isDone then part' = part else part < part') ∧
      (∀ other, Animation.Reached δ started other →
        (other.progress = animation.progress ↔ other.frame = animation.frame)) ∧
      ∀ session : Session ι, session.animation = none ∨ session.animation = some animation →
        (session.progress = .finite 1 ↔ session.isDone = true) := by
  have hwhole : animation.progress = .finite 1 ↔ animation.isDone = true := by
    rw [animation.progress_eq_finite, Binary64.finite.injEq, Animation.playedPart_eq_one_iff]
  obtain ⟨hframes, -⟩ := Animation.frames_of_start hstart
  obtain ⟨h0, h1⟩ := animation.playedPart_mem
  refine ⟨h.frames_eq.trans hframes, _, animation.progress_eq_finite, h0, h1, hwhole, ?_, ?_, ?_⟩
  · intro before after next moved hnext
    exact ⟨_, next.progress_eq_finite, Animation.playedPart_nextFrame hnext⟩
  · intro other hother
    rw [other.progress_eq_finite, animation.progress_eq_finite, Binary64.finite.injEq]
    exact Animation.playedPart_eq_iff (hother.frames_eq.trans h.frames_eq.symm)
  · rintro ⟨settings, _⟩ (rfl | rfl)
    · exact iff_of_true rfl rfl
    · exact hwhole

/-- A table of the ring goes to the origin in as many frames as there can be: the first of them
leaves a progress that is more than none and less than all. -/
theorem progress_tells_completion_longest : ∃ started next : Animation TableId, ∃ t,
    Animation.start Schema.ring [(⟨1⟩, .zero)] [⟨1⟩] 4294967295 = .ok started ∧
      started.nextFrame Schema.ring = .ok (next, t, [⟨1⟩]) ∧ ∃ part part' : Rat,
        started.progress = .finite part ∧ next.progress = .finite part' ∧
          0 ≤ part ∧ part < part' ∧ part' ≤ 1 ∧ next.progress ≠ .finite 1 := by
  let started : Animation TableId :=
    ⟨[⟨⟨1⟩, ⟨500, 500⟩, .zero⟩], [(⟨1⟩, .zero)], 4294967295, 0, by decide⟩
  have hstart : Animation.start Schema.ring [(⟨1⟩, .zero)] [⟨1⟩] 4294967295 = .ok started := rfl
  have hcarries : started.Carries [⟨1⟩] (fun _ => ⟨500, 500⟩) fun _ => .zero := rfl
  obtain ⟨t, hnext, -⟩ := hcarries.exists_nextFrame (s := Schema.ring) (by decide) (by decide)
  obtain ⟨-, part, hpart, h0, -, -, hplays, -⟩ := progress_tells_completion hstart .start
  obtain ⟨part', hpart', hlt⟩ := hplays _ _ _ _ hnext
  obtain ⟨-, _, hsame, -, h1, hdone, -⟩ :=
    progress_tells_completion hstart (.nextFrame .start hnext)
  cases hpart'.symm.trans hsame
  exact ⟨started, _, t, hstart, hnext, part, part', hpart, hpart', h0, hlt, h1,
    fun hone => absurd (hdone.mp hone) (by decide)⟩

end SchemaLayout
