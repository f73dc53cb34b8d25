import SchemaLayout.Diagram
import SchemaLayout.Geometry.Interpolation

/-!
# Animations

An `Animation` moves nodes from where they were to where a layout has put them, in a fixed number of
frames. Where a node is drawn depends on the frame alone and not on where it was drawn before, so a
diagram that is disturbed between two frames is set right by the next one. The counter of frames
never passes their number. An animation without frames is over from the start, and moves its nodes
only when it is finished.
-/

namespace SchemaLayout

/-- The way of one node. -/
structure Move (ι : Type) where
  node : ι
  source : Point
  target : Point
deriving DecidableEq

/-- Nodes on their way. -/
structure Animation (ι : Type) where
  /-- The ways of the nodes, in the order in which the nodes are listed. -/
  moves : List (Move ι)
  /-- The positions that a layout has computed. -/
  placements : Placements ι
  /-- The number of frames. -/
  frames : UInt32
  /-- The number of frames that have been played. -/
  frame : UInt32
  frame_le_frames : frame ≤ frames

namespace Animation

variable {δ ι : Type} [Diagram δ ι]

/-- The way of a node from where it is. -/
def moveFrom (diagram : δ) (node : ι) (target : Point) : Except (LayoutError ι) (Move ι) :=
  match Diagram.position? diagram node with
  | some source => .ok ⟨node, source, target⟩
  | none => .error (.missingNode node)

/-- The animation of those nodes of a list that have been placed, from where they are now. -/
def start [BEq ι] (diagram : δ) (placements : Placements ι) (nodes : List ι) (frames : UInt32) :
    Except (LayoutError ι) (Animation ι) := do
  let placed := nodes.filterMap fun node => (placements.find? node).map fun target => (node, target)
  let moves ← placed.mapM fun (node, target) => moveFrom diagram node target
  return ⟨moves, placements, frames, 0, UInt32.zero_le⟩

/-- Where each node was when the animation was started. -/
def originals [BEq ι] (animation : Animation ι) : Placements ι :=
  .ofAssignments (animation.moves.map fun move => (move.node, move.source))

/-- Whether all frames have been played. -/
def isDone (animation : Animation ι) : Bool := animation.frames ≤ animation.frame

/-- How many frames are left to play. -/
def remaining (animation : Animation ι) : Nat :=
  animation.frames.toNat - animation.frame.toNat

/-- The part of the frames that has been played, between 0 and 1. -/
def progress (animation : Animation ι) : Binary64 :=
  if animation.frames = 0 then .finite 1
  else .ofRat (animation.frame.toNat / animation.frames.toNat)

/-- The animation after one more frame, or itself if it is done. -/
def advance (animation : Animation ι) : Animation ι :=
  if h : animation.frame < animation.frames then
    { animation with
      frame := animation.frame + 1
      frame_le_frames := by
        rw [UInt32.le_iff_toNat_le, UInt32.toNat_add]
        rw [UInt32.lt_iff_toNat_lt] at h
        have := animation.frames.toNat_lt
        simp only [UInt32.toNat_one]
        omega }
  else animation

/-- The animation after all its frames. -/
def complete (animation : Animation ι) : Animation ι :=
  { animation with frame := animation.frames, frame_le_frames := UInt32.le_refl _ }

/-- Moves nodes to the positions assigned to them. -/
def moveAll (diagram : δ) (assignments : List (ι × Point)) : Except (LayoutError ι) δ :=
  assignments.foldlM
    (fun diagram (node, position) =>
      match Diagram.move? diagram node position with
      | some diagram => .ok diagram
      | none => .error (.missingNode node)) diagram

/-- Where the nodes are drawn at the current frame. -/
def positions (animation : Animation ι) : List (ι × Point) :=
  animation.moves.map fun move =>
    (move.node, move.source.towards move.target animation.progress)

/-- Where the nodes are in the end. -/
def targets (animation : Animation ι) : List (ι × Point) :=
  animation.moves.map fun move => (move.node, move.target)

/-- The nodes that the animation moves. -/
def nodes (animation : Animation ι) : List ι := animation.moves.map (·.node)

/-- Plays one frame, which moves all nodes; an animation that is done moves none. -/
def nextFrame (animation : Animation ι) (diagram : δ) :
    Except (LayoutError ι) (Animation ι × δ × List ι) :=
  if animation.isDone then .ok (animation, diagram, [])
  else do
    let diagram ← moveAll diagram animation.advance.positions
    return (animation.advance, diagram, animation.nodes)

/-- Moves all nodes to where they go and ends the animation. -/
def finish (animation : Animation ι) (diagram : δ) : Except (LayoutError ι) (Animation ι × δ) := do
  let diagram ← moveAll diagram animation.targets
  return (animation.complete, diagram)

end Animation

end SchemaLayout
