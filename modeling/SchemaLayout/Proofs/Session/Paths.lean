import SchemaLayout.Proofs.Geometry.Monotone
import SchemaLayout.Proofs.Session.Frames

/-!
# Paths

The frames of an animation draw each of its nodes on a path of its own. Which point of the path a
frame draws depends on the number of the frame alone, and not on the diagram: from where the node
has been when the animation was started, each of its two coordinates goes one way to where the node
has been placed, and is there with the last frame.
-/

namespace SchemaLayout

variable {δ ι : Type} [Diagram δ ι]

/-- Where a node is drawn by frame `k` of `n`. -/
def Move.drawn (move : Move ι) (n k : Nat) : Point :=
  move.source.towards move.target (.ofRat (k / n))

theorem Move.drawn_x (move : Move ι) (n k : Nat) :
    (move.drawn n k).x = move.source.x.towards move.target.x (.ofRat (k / n)) := by
  rw [drawn, Point.towards]

theorem Move.drawn_y (move : Move ι) (n k : Nat) :
    (move.drawn n k).y = move.source.y.towards move.target.y (.ofRat (k / n)) := by
  rw [drawn, Point.towards]

namespace Animation

variable {animation : Animation ι} {move : Move ι}

/-! ## The frames of an animation -/

theorem moves_played (animation : Animation ι) (k : Nat) :
    (animation.played k).moves = animation.moves := by
  induction k with
  | zero => rfl
  | succ k ih => rw [played_succ, moves_advance, ih]

/-- The counter tells which frame is drawn. -/
theorem positions_played (hframe : animation.frame = 0) {k : Nat} (hpos : 0 < k)
    (hk : k ≤ animation.frames.toNat) :
    (animation.played k).positions =
      animation.moves.map fun move => (move.node, move.drawn animation.frames.toNat k) := by
  have hcounter : (animation.played k).frame.toNat = k := by
    rw [toNat_frame_played, hframe, UInt32.toNat_zero]
    omega
  have hframes : (animation.played k).frames ≠ 0 := by
    rw [frames_played, ne_eq, ← UInt32.toNat_inj, UInt32.toNat_zero]
    omega
  rw [positions, moves_played, progress_eq_ofRat hframes, hcounter, frames_played]
  rfl

/-- Each frame draws all nodes on their paths, whatever the diagram. -/
theorem nextFrame_played (hframe : animation.frame = 0) {k : Nat}
    (hk : k < animation.frames.toNat) (diagram : δ) :
    (animation.played k).nextFrame diagram = (do
      let diagram ← moveAll diagram (animation.moves.map fun move =>
        (move.node, move.drawn animation.frames.toNat (k + 1)))
      return (animation.played (k + 1), diagram, animation.nodes)) := by
  have hleft : (animation.played k).isDone = false := by
    rw [Bool.eq_false_iff, ne_eq, isDone_played_iff, remaining, hframe, UInt32.toNat_zero]
    omega
  have hnodes : (animation.played k).nodes = animation.nodes := by
    rw [nodes, nodes, moves_played]
  rw [nextFrame, hleft, if_neg Bool.false_ne_true, ← played_succ, hnodes,
    positions_played hframe k.succ_pos hk]

/-! ## The ends of a path -/

variable [BEq ι] {diagram : δ} {placements : Placements ι} {nodes : List ι} {frames : UInt32}

/-- Nodes go from where they are to where they have been placed. -/
theorem ends_of_start (h : start diagram placements nodes frames = .ok animation)
    (hmove : move ∈ animation.moves) :
    Diagram.position? diagram move.node = some move.source ∧
      placements.find? move.node = some move.target := by
  obtain ⟨moves, hmoves, hreturn⟩ := Traversal.bind_eq_ok_iff.mp h
  cases hreturn
  obtain ⟨⟨node, target⟩, hway, hfrom⟩ := Traversal.exists_of_mem_mapM hmoves hmove
  obtain ⟨other, -, hother⟩ := List.mem_filterMap.mp hway
  obtain ⟨_, htarget, heq⟩ := Option.map_eq_some_iff.mp hother
  cases heq
  dsimp only [moveFrom] at hfrom
  split at hfrom <;> rename_i hsource
  · cases hfrom
    exact ⟨hsource, htarget⟩
  · cases hfrom

/-- A node is on one way only, however often it is listed. -/
theorem eq_of_node_eq (h : start diagram placements nodes frames = .ok animation)
    {other : Move ι} (hmove : move ∈ animation.moves) (hother : other ∈ animation.moves)
    (hnode : move.node = other.node) : move = other := by
  obtain ⟨hsource, htarget⟩ := ends_of_start h hmove
  obtain ⟨hsource', htarget'⟩ := ends_of_start h hother
  rw [hnode] at hsource htarget
  obtain ⟨node, source, target⟩ := move
  obtain rfl := hnode
  cases hsource.symm.trans hsource'
  cases htarget.symm.trans htarget'
  rfl

theorem frames_of_start (h : start diagram placements nodes frames = .ok animation) :
    animation.frames = frames ∧ animation.frame = 0 := by
  obtain ⟨moves, -, hreturn⟩ := Traversal.bind_eq_ok_iff.mp h
  cases hreturn
  exact ⟨rfl, rfl⟩

/-- Where nodes are found where they have been moved, each frame leaves the nodes at the points of
their paths that it draws. -/
theorem exists_nextFrame_played [LawfulDiagram δ] {held : δ}
    (h : start diagram placements nodes frames = .ok animation) {k : Nat}
    (hk : k < animation.frames.toNat)
    (hheld : ∀ node ∈ animation.nodes, (Diagram.position? held node).isSome) :
    ∃ next, (animation.played k).nextFrame held =
        .ok (animation.played (k + 1), next, animation.nodes) ∧
      ∀ move ∈ animation.moves, Diagram.position? next move.node =
        some (move.drawn animation.frames.toNat (k + 1)) := by
  let drawn := animation.moves.map fun move =>
    (move.node, move.drawn animation.frames.toNat (k + 1))
  have hdrawn : ∀ assignment ∈ drawn, (Diagram.position? held assignment.1).isSome :=
    List.forall_mem_map.mpr fun move hmove => hheld _ (List.mem_map_of_mem hmove)
  have hsingle : ∀ first ∈ drawn, ∀ second ∈ drawn, first.1 = second.1 → first.2 = second.2 := by
    simp only [drawn, List.forall_mem_map]
    intro move hmove other hother hnode
    rw [eq_of_node_eq h hmove hother hnode]
  obtain ⟨next, hmoved, hrearranges⟩ := exists_rearranges hdrawn hsingle
  refine ⟨next, ?_, List.forall_mem_map.mp hrearranges.placed⟩
  rw [nextFrame_played (frames_of_start h).2 hk, hmoved]
  rfl

end Animation

/-! ## The whole path -/

/-- Whatever an animation is started from, its frames draw each node on a path from where the node
was to where it has been placed. On this path neither coordinate ever turns back or goes beyond its
end, and the last frame draws the end itself. No number that is computed on the way is subnormal,
infinite or no number, and none of them lies beyond the plane. In a diagram that holds nodes where
they have been moved, each node is then where the frame has drawn it. -/
theorem animation_goesTo [BEq ι] {diagram : δ} {placements : Placements ι} {nodes : List ι}
    {frames : UInt32} {started : Animation ι}
    (hstart : Animation.start diagram placements nodes frames = .ok started)
    (hframes : 0 < frames) :
    (∀ k < frames.toNat, ∀ diagram : δ, (started.played k).nextFrame diagram = (do
      let diagram ← Animation.moveAll diagram (started.moves.map fun move =>
        (move.node, move.drawn frames.toNat (k + 1)))
      return (started.played (k + 1), diagram, started.nodes))) ∧
    (∀ [LawfulDiagram δ], ∀ k < frames.toNat, ∀ diagram : δ,
      (∀ node ∈ started.nodes, (Diagram.position? diagram node).isSome) → ∃ next,
        (started.played k).nextFrame diagram = .ok (started.played (k + 1), next, started.nodes) ∧
          ∀ move ∈ started.moves,
            Diagram.position? next move.node = some (move.drawn frames.toNat (k + 1))) ∧
    ∀ move ∈ started.moves,
      Diagram.position? diagram move.node = some move.source ∧
      placements.find? move.node = some move.target ∧
      Coord.GoesTo move.source.x move.target.x frames.toNat
        (fun k => (move.drawn frames.toNat k).x) ∧
      Coord.GoesTo move.source.y move.target.y frames.toNat
        (fun k => (move.drawn frames.toNat k).y) ∧
      ∀ k ≤ frames.toNat,
        Coord.Computed move.source.x move.target.x (.ofRat (k / frames.toNat)) ∧
        Coord.Computed move.source.y move.target.y (.ofRat (k / frames.toNat)) := by
  obtain ⟨rfl, hframe⟩ := Animation.frames_of_start hstart
  have hpos : 0 < started.frames.toNat := UInt32.lt_iff_toNat_lt.mp hframes
  have hsize : started.frames.toNat ≤ 2 ^ 32 := started.frames.toNat_lt.le
  refine ⟨fun k hk diagram => Animation.nextFrame_played hframe hk diagram,
    fun k hk diagram hheld => Animation.exists_nextFrame_played hstart hk hheld, ?_⟩
  intro move hmove
  obtain ⟨hsource, htarget⟩ := Animation.ends_of_start hstart hmove
  refine ⟨hsource, htarget, ?_, ?_, fun k hk => ⟨?_, ?_⟩⟩
  · simp only [Move.drawn_x]
    exact Coord.goesTo_towards _ _ hpos
  · simp only [Move.drawn_y]
    exact Coord.goesTo_towards _ _ hpos
  · exact Coord.computed_towards _ _ hpos hsize hk
  · exact Coord.computed_towards _ _ hpos hsize hk

/-- A table of the ring goes to a corner of the plane in three frames, which is further away than a
coordinate can tell, and is there after the last of them. -/
theorem animation_goesTo_corner : ∃ started : Animation TableId,
    Animation.start Schema.ring [(⟨1⟩, ⟨.clamp 2147483647, .clamp (-2147483648)⟩)] [⟨0⟩, ⟨1⟩] 3 =
        .ok started ∧
      (∃ move ∈ started.moves, move.node = ⟨1⟩ ∧ move.source = ⟨500, 500⟩ ∧
        Coord.GoesTo 500 (.clamp 2147483647) 3 (fun k => (move.drawn 3 k).x) ∧
        Coord.GoesTo 500 (.clamp (-2147483648)) 3 (fun k => (move.drawn 3 k).y) ∧
        Coord.Computed 500 (.clamp (-2147483648)) (.ofRat ((2 : Nat) / (3 : Nat)))) ∧
      ∃ t : Schema, (started.played 2).nextFrame Schema.ring =
          .ok (started.played 3, t, [⟨1⟩]) ∧
        Diagram.position? t ⟨1⟩ = some ⟨.clamp 2147483647, .clamp (-2147483648)⟩ := by
  let move : Move TableId := ⟨⟨1⟩, ⟨500, 500⟩, ⟨.clamp 2147483647, .clamp (-2147483648)⟩⟩
  let started : Animation TableId := ⟨[move], [(move.node, move.target)], 3, 0, by decide⟩
  have hstart : Animation.start Schema.ring [(⟨1⟩, ⟨.clamp 2147483647, .clamp (-2147483648)⟩)]
      [⟨0⟩, ⟨1⟩] 3 = .ok started := rfl
  have hmove : move ∈ started.moves := List.mem_singleton_self move
  obtain ⟨-, hplayed, hpath⟩ := animation_goesTo hstart (by decide)
  obtain ⟨-, -, hx, hy, hcomputed⟩ := hpath move hmove
  obtain ⟨t, hframe, hdrawn⟩ := hplayed 2 (by decide) Schema.ring (by decide)
  have hlast : move.drawn 3 3 = move.target := Point.ext hx.last hy.last
  exact ⟨started, hstart, ⟨move, hmove, rfl, rfl, hx, hy, (hcomputed 2 (by decide)).2⟩, t,
    hframe, (hdrawn move hmove).trans (congrArg some hlast)⟩

end SchemaLayout
