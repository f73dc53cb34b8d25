import SchemaLayout.Program
import SchemaLayout.Proofs.Session.Frames
import SchemaLayout.Proofs.Session.Outcome

/-!
# Playing

A session that has set up a layout of tables moves them to where they go, be it at once or frame by
frame. Each frame draws all tables anew from where they started, so the frames before it leave no
trace; and the last frame, at progress one, draws them exactly where an immediate layout puts them.

Playing all frames counts them beforehand; `showAll_eq` says that this is the loop that looks after
each frame whether another one is left. `play_silences_showAll` says that it makes no difference
whether each frame is reported.
-/

namespace SchemaLayout.Session

/-! ## Single operations -/

section

variable {δ ι : Type} [Diagram δ ι] {diagram diagram' : δ} {settings : Settings}
  {animation next : Animation ι}

/-- A layout that is accepted is set up, and moves nothing yet. -/
theorem setup_yields [BEq ι] [Hashable ι] {session : Session ι} {nodes : List ι} {origin : Point}
    {layout : TreeLayout ι}
    (hlayout : treeLayout session.settings.gaps diagram nodes origin = .ok layout)
    (hstart : Animation.start diagram layout.placements nodes session.settings.frames =
      .ok animation) :
    (session.setup diagram nodes origin).Yields ⟨session.settings, some animation⟩ diagram () := by
  unfold setup
  simp only [hlayout, hstart]
  exact ⟨rfl, rfl, rfl⟩

/-- A layout that has a place for each of its nodes is set up as an animation of these nodes. -/
theorem exists_setup_yields [BEq ι] [Hashable ι] (session : Session ι) {nodes : List ι}
    {origin : Point} {layout : TreeLayout ι} {target : ι → Point}
    (hlayout : treeLayout session.settings.gaps diagram nodes origin = .ok layout)
    (hnodes : ∀ node ∈ nodes, ∃ position, Diagram.position? diagram node = some position)
    (htarget : ∀ node ∈ nodes, layout.placements.find? node = some (target node)) :
    ∃ animation source, animation.Carries nodes source target ∧
      animation.placements = layout.placements ∧ animation.frames = session.settings.frames ∧
      animation.frame = 0 ∧
      (session.setup diagram nodes origin).Yields ⟨session.settings, some animation⟩ diagram
        () := by
  choose! source hsource using hnodes
  obtain ⟨animation, hstart, hstarts⟩ := Animation.exists_start hsource
    (fun node hnode => htarget node (List.mem_of_mem_filter hnode)) session.settings.frames
  obtain ⟨hcarries, hplacements, hframes, hframe, -, -⟩ := hstarts
  rw [Animation.moving_eq_self fun node hnode => ⟨target node, htarget node hnode⟩] at hcarries
  exact ⟨animation, source, hcarries, hplacements, hframes, hframe, setup_yields hlayout hstart⟩

/-- A session plays a frame as its animation does. -/
theorem nextFrame_yields {moved : List ι}
    (h : animation.nextFrame diagram = .ok (next, diagram', moved)) :
    (nextFrame ⟨settings, some animation⟩ diagram).Yields ⟨settings, some next⟩ diagram' moved := by
  unfold nextFrame
  cases hdone : animation.isDone with
  | true =>
    rw [Animation.nextFrame_of_isDone hdone] at h
    cases h
    simp only [hdone]
    exact ⟨rfl, rfl, rfl⟩
  | false =>
    simp only [hdone, h]
    exact ⟨rfl, rfl, rfl⟩

theorem showFrame_yields {moved : List ι}
    (h : animation.nextFrame diagram = .ok (next, diagram', moved)) :
    (showFrame ⟨settings, some animation⟩ diagram).Yields ⟨settings, some next⟩ diagram' () :=
  (nextFrame_yields h).andThen ⟨rfl, rfl, rfl⟩

/-- A session moves its nodes to where they go as its animation does. -/
theorem finish_yields (h : animation.finish diagram = .ok (next, diagram')) :
    (finish ⟨settings, some animation⟩ diagram).Yields ⟨settings, some next⟩ diagram' () := by
  unfold finish
  simp only [h]
  exact ⟨rfl, rfl, rfl⟩

/-- A layout that is to be animated leaves its frames to play. -/
theorem run_yields_true [BEq ι] [Hashable ι] {session : Session ι} {nodes : List ι}
    {origin : Point}
    (hsetup : (session.setup diagram nodes origin).Yields ⟨settings, some animation⟩ diagram ())
    (hpending : (settings.animated && !animation.isDone) = true) :
    (session.run diagram nodes origin).Yields ⟨settings, some animation⟩ diagram true := by
  unfold run
  refine hsetup.andThen ?_
  show (if (settings.animated && !animation.isDone) = true then _ else _ : Outcome _ _ _).Yields ..
  rw [if_pos hpending]
  exact Outcome.yields_unchanged ..

/-- A layout without frames to play is finished at once. -/
theorem run_yields_false [BEq ι] [Hashable ι] {session session' : Session ι} {nodes : List ι}
    {origin : Point}
    (hsetup : (session.setup diagram nodes origin).Yields ⟨settings, some animation⟩ diagram ())
    (hpending : (settings.animated && !animation.isDone) = false)
    (hfinish : (finish ⟨settings, some animation⟩ diagram).Yields session' diagram' ()) :
    (session.run diagram nodes origin).Yields session' diagram' false := by
  unfold run
  refine hsetup.andThen ?_
  show (if (settings.animated && !animation.isDone) = true then _ else _ : Outcome _ _ _).Yields ..
  rw [if_neg (Bool.eq_false_iff.mp hpending)]
  exact hfinish.andThen (Outcome.yields_unchanged ..)

end

/-! ## The loop over the frames -/

section

variable {δ ι : Type} [Diagram δ ι]

/-- Plays a number of frames and reports each of them. -/
def showFrames (session : Session ι) (diagram : δ) (times : Nat) : Outcome δ ι Unit :=
  Nat.repeat (fun outcome => outcome.andThen fun _ session diagram => session.showFrame diagram)
    times (.unchanged session diagram ())

/-- Some frames and one more are one frame and some more. -/
theorem showFrames_succ (session : Session ι) (diagram : δ) (times : Nat) :
    session.showFrames diagram (times + 1) =
      (session.showFrame diagram).andThen fun _ session diagram =>
        session.showFrames diagram times := by
  induction times with
  | zero =>
    show (Outcome.unchanged session diagram ()).andThen
      (fun _ session diagram => session.showFrame diagram) = _
    rw [Outcome.unchanged_andThen]
    exact (Outcome.andThen_unchanged _).symm
  | succ times ih =>
    show (session.showFrames diagram (times + 1)).andThen _ = _
    rw [ih, Outcome.andThen_assoc]
    rfl

theorem isDone_iff_remaining (session : Session ι) :
    session.isDone = true ↔ session.remaining = 0 := by
  obtain ⟨settings, animation⟩ := session
  cases animation with
  | none => exact iff_of_true rfl rfl
  | some animation =>
    rw [← Nat.le_zero]
    exact animation.isDone_played_iff (k := 0)

/-- A frame that is played is one less to play. -/
theorem remaining_nextFrame {session : Session ι} {diagram : δ} {moved : List ι}
    (h : (session.nextFrame diagram).result = .ok moved) :
    (session.nextFrame diagram).session.remaining = session.remaining - 1 := by
  obtain ⟨settings, animation⟩ := session
  cases animation with
  | none => rfl
  | some animation =>
    unfold nextFrame at h ⊢
    dsimp only at h ⊢
    by_cases hdone : animation.isDone = true
    · -- nothing is played, and nothing was left
      have hzero := (isDone_iff_remaining ⟨settings, some animation⟩).mp hdone
      rw [if_pos hdone, hzero]
      exact hzero
    · rw [if_neg hdone] at h ⊢
      cases hnext : animation.nextFrame diagram with
      | error e =>
        rw [hnext] at h
        cases h
      | ok next =>
        obtain ⟨next, diagram', moved'⟩ := next
        obtain rfl := Animation.eq_advance_of_nextFrame hnext
        show animation.advance.remaining = animation.remaining - 1
        unfold Animation.remaining
        rw [Animation.toNat_frame_advance, Animation.frames_advance]
        omega

theorem remaining_showFrame {session : Session ι} {diagram : δ}
    (h : (session.showFrame diagram).result = .ok ()) :
    (session.showFrame diagram).session.remaining = session.remaining - 1 := by
  unfold showFrame Outcome.andThen at h ⊢
  cases hresult : (session.nextFrame diagram).result with
  | error e =>
    rw [hresult] at h
    cases h
  | ok moved => exact remaining_nextFrame hresult

/-- Playing all frames is the loop that plays one frame as long as one is left. -/
theorem showAll_eq (session : Session ι) (diagram : δ) :
    session.showAll diagram =
      if session.isDone then .unchanged session diagram ()
      else (session.showFrame diagram).andThen fun _ session diagram =>
        session.showAll diagram := by
  split <;> rename_i hdone <;> rw [isDone_iff_remaining] at hdone
  · show session.showFrames diagram session.remaining = _
    rw [hdone]
    rfl
  · obtain ⟨k, hk⟩ := Nat.exists_eq_succ_of_ne_zero hdone
    show session.showFrames diagram session.remaining = _
    rw [hk, Nat.succ_eq_add_one, showFrames_succ]
    apply Outcome.andThen_congr
    intro _ hresult
    have hremaining := remaining_showFrame hresult
    rw [hk] at hremaining
    show _ = (session.showFrame diagram).session.showFrames (session.showFrame diagram).diagram
      (session.showFrame diagram).session.remaining
    rw [hremaining]
    rfl

/-! ## Playing without reports -/

/-- A frame that is played does not report what it has moved. -/
theorem nextFrame_silences_self (session : Session ι) (diagram : δ) :
    (session.nextFrame diagram).Silences (session.nextFrame diagram) := by
  refine ⟨rfl, rfl, ?_, rfl⟩
  obtain ⟨settings, animation⟩ := session
  cases animation with
  | none => rfl
  | some animation =>
    unfold nextFrame
    by_cases hdone : animation.isDone = true
    · simp only [hdone]
      rfl
    · simp only [hdone]
      cases animation.nextFrame diagram <;> rfl

theorem nextFrame_silences_showFrame (session : Session ι) (diagram : δ) :
    (session.nextFrame diagram).Silences (session.showFrame diagram) := by
  have h : ((session.nextFrame diagram).andThen fun moved session diagram =>
      .unchanged session diagram moved).Silences (session.showFrame diagram) :=
    (nextFrame_silences_self session diagram).andThen fun _ _ _ _ => ⟨rfl, rfl, rfl, rfl⟩
  rwa [Outcome.andThen_unchanged] at h

/-- Frames are played alike, whether each of them is reported or not. -/
theorem nextFrames_silences_showFrames (session : Session ι) (diagram : δ) (times : Nat) :
    (session.nextFrames diagram times).Silences (session.showFrames diagram times) := by
  induction times with
  | zero => exact Outcome.silences_unchanged ..
  | succ times ih => exact ih.andThen fun _ _ => nextFrame_silences_showFrame

/-- Playing all frames that are left does what the loop does that reports each of them. -/
theorem play_silences_showAll (session : Session ι) (diagram : δ) :
    (session.play diagram).Silences (session.showAll diagram) := by
  have h : (session.play diagram).Silences ((session.showAll diagram).andThen
      fun _ session diagram => .unchanged session diagram ()) :=
    (nextFrames_silences_showFrames session diagram session.remaining).andThen
      fun _ _ _ _ => Outcome.silences_unchanged ..
  rwa [Outcome.andThen_unchanged] at h

/-- What is told by playing all frames is how many were left. -/
theorem result_play (session : Session ι) (diagram : δ) :
    (session.play diagram).result =
      (session.showAll diagram).result.map fun _ => session.remaining := by
  have hresult := (nextFrames_silences_showFrames session diagram session.remaining).result_eq
  show (Outcome.andThen _ _).result = (session.showFrames diagram session.remaining).result.map _
  unfold Outcome.andThen
  cases hquiet : (session.nextFrames diagram session.remaining).result <;>
    cases hloud : (session.showFrames diagram session.remaining).result <;>
    rw [hquiet, hloud] at hresult <;> cases hresult <;> rfl

end

/-! ## Tables on their way -/

variable {s : Schema} (settings : Settings) {animation : Animation TableId}
  {nodes : List TableId} {source target : TableId → Point}

/-- A frame draws each table on its way, wherever it has been drawn before. -/
theorem exists_showFrame_yields (hcarries : animation.Carries nodes source target)
    (hnodes : ∀ id ∈ nodes, id ∈ s.tableIds) (hleft : animation.isDone = false) :
    ∃ t, (showFrame ⟨settings, some animation⟩ s).Yields ⟨settings, some animation.advance⟩ t () ∧
      s.Moved (fun id => (source id).towards (target id) animation.advance.progress) nodes t := by
  obtain ⟨t, hnext, hmoved⟩ := hcarries.exists_nextFrame hnodes hleft
  exact ⟨t, showFrame_yields hnext, hmoved⟩

/-- After some frames the tables are where the last of these frames has drawn them. -/
theorem exists_showFrames_yields (hcarries : animation.Carries nodes source target)
    (hnodes : ∀ id ∈ nodes, id ∈ s.tableIds) {k : Nat} (hk : k < animation.remaining) :
    ∃ t, (showFrames ⟨settings, some animation⟩ s (k + 1)).Yields
        ⟨settings, some (animation.played (k + 1))⟩ t () ∧
      s.Moved (fun id => (source id).towards (target id) (animation.played (k + 1)).progress)
        nodes t := by
  have hleft : (animation.played k).isDone = false := by
    rw [Bool.eq_false_iff, ne_eq, Animation.isDone_played_iff]
    exact Nat.not_le_of_lt hk
  cases k with
  | zero =>
    obtain ⟨t, hyields, hmoved⟩ := exists_showFrame_yields settings hcarries hnodes hleft
    exact ⟨t, (Outcome.yields_unchanged ..).andThen hyields, hmoved⟩
  | succ k =>
    obtain ⟨t, hyields, hmoved⟩ := exists_showFrames_yields hcarries hnodes
      (Nat.lt_of_succ_lt hk)
    -- wherever the frames before have drawn the tables, the next draws them anew
    have hnodes' : ∀ id ∈ nodes, id ∈ t.tableIds := fun id hid =>
      hmoved.alike.tableIds ▸ hnodes id hid
    obtain ⟨u, hyields', hmoved'⟩ := exists_showFrame_yields settings (hcarries.played _) hnodes'
      hleft
    exact ⟨u, hyields.andThen hyields', hmoved.trans hmoved'⟩

/-- Playing all frames that are left moves the tables to where they go. -/
theorem exists_showAll_yields (hcarries : animation.Carries nodes source target)
    (hnodes : ∀ id ∈ nodes, id ∈ s.tableIds) (hleft : animation.isDone = false) :
    ∃ t, (showAll ⟨settings, some animation⟩ s).Yields
        ⟨settings, some (animation.played animation.remaining)⟩ t () ∧
      s.Moved target nodes t := by
  have hpos : animation.remaining ≠ 0 := by
    intro hzero
    have hdone := (isDone_iff_remaining ⟨settings, some animation⟩).mpr hzero
    exact Bool.false_ne_true (hleft.symm.trans hdone)
  -- at least one frame is played, and the last of them is the one at progress one
  obtain ⟨k, hk⟩ := Nat.exists_eq_succ_of_ne_zero hpos
  have hprogress := Animation.progress_of_isDone
    (Animation.isDone_played_iff.mpr (Nat.le_refl animation.remaining))
  obtain ⟨t, hyields, hmoved⟩ := exists_showFrames_yields settings hcarries hnodes
    (hk ▸ Nat.lt_succ_self k)
  rw [← Nat.succ_eq_add_one, ← hk] at hyields hmoved
  simp only [hprogress, Point.towards_one] at hmoved
  exact ⟨t, hyields, hmoved⟩

/-- So does playing them without reports, which tells how many they were. -/
theorem exists_play_yields (hcarries : animation.Carries nodes source target)
    (hnodes : ∀ id ∈ nodes, id ∈ s.tableIds) (hleft : animation.isDone = false) :
    ∃ t, (play ⟨settings, some animation⟩ s).Yields
        ⟨settings, some (animation.played animation.remaining)⟩ t animation.remaining ∧
      s.Moved target nodes t := by
  obtain ⟨t, hyields, hmoved⟩ := exists_showAll_yields settings hcarries hnodes hleft
  have hsilences := play_silences_showAll ⟨settings, some animation⟩ s
  refine ⟨t, ⟨?_, ?_, ?_⟩, hmoved⟩
  · exact hsilences.session_eq.trans hyields.session_eq
  · exact hsilences.diagram_eq.trans hyields.diagram_eq
  · rw [result_play, hyields.result_eq]
    rfl

/-- Finishing moves the tables to where they go at once. -/
theorem exists_finish_yields (hcarries : animation.Carries nodes source target)
    (hnodes : ∀ id ∈ nodes, id ∈ s.tableIds) :
    ∃ t, (finish ⟨settings, some animation⟩ s).Yields ⟨settings, some animation.complete⟩ t () ∧
      s.Moved target nodes t := by
  obtain ⟨t, hfinish, hmoved⟩ := hcarries.exists_finish hnodes
  exact ⟨t, finish_yields hfinish, hmoved⟩

end SchemaLayout.Session
