import SchemaLayout.Animation
import SchemaLayout.Event
import SchemaLayout.Tree.Layout

/-!
# Sessions

A `Session` lays out a diagram and moves its nodes: at once, or frame by frame as its user asks for
frames. It holds the settings, which take effect at the next layout, and the animation of the last
layout, unless that was refused.

Each operation leaves an `Outcome`: the session and the diagram after it, what it reported, and its
result. A refused layout, too, leaves a session behind, namely one without an animation.
-/

namespace SchemaLayout

/-- The layout of one diagram as its user sees it. -/
structure Session (ι : Type) where
  settings : Settings
  /-- The animation of the last layout. -/
  animation : Option (Animation ι)

namespace Session

variable {δ ι β γ : Type}

/-- A session in which nothing has been laid out. -/
def ofSettings (settings : Settings) : Session ι := ⟨settings, none⟩

/-- Chooses other settings; an animation that has been set up keeps its own. -/
def configure (session : Session ι) (settings : Settings) : Session ι :=
  { session with settings := settings }

/-- Whether no frame is left to play. -/
def isDone (session : Session ι) : Bool := session.animation.all (·.isDone)

/-- How many frames are left to play. -/
def remaining (session : Session ι) : Nat :=
  match session.animation with
  | some animation => animation.remaining
  | none => 0

/-- The part of the frames that has been played. -/
def progress (session : Session ι) : Binary64 :=
  match session.animation with
  | some animation => animation.progress
  | none => .finite 1

/-- The positions computed by the last layout, unless it was refused. -/
def placements (session : Session ι) : Option (Placements ι) :=
  session.animation.map (·.placements)

/-- What an operation leaves behind. -/
structure Outcome (δ ι β : Type) where
  session : Session ι
  diagram : δ
  /-- What the operation reported, in order. -/
  events : Array (Event ι)
  result : Except (LayoutError ι) β

namespace Outcome

/-- The outcome of doing nothing. -/
def unchanged (session : Session ι) (diagram : δ) (result : β) : Outcome δ ι β :=
  ⟨session, diagram, #[], .ok result⟩

/-- Goes on after an operation that has succeeded. -/
def andThen (first : Outcome δ ι β) (next : β → Session ι → δ → Outcome δ ι γ) : Outcome δ ι γ :=
  match first.result with
  | .error e => ⟨first.session, first.diagram, first.events, .error e⟩
  | .ok result =>
    let second := next result first.session first.diagram
    { second with events := first.events ++ second.events }

end Outcome

variable [Diagram δ ι]

/-- What a layout of a list of nodes reports. -/
def layoutEvents (diagram : δ) (nodes : List ι) (origin : Point)
    (layout : Except (LayoutError ι) (TreeLayout ι)) : List (Event ι) :=
  .layoutStarted nodes.length origin ::
    match layout with
    | .error _ => []
    | .ok layout =>
      .layoutFinished layout.finish ::
        layout.placements.filterMap fun (node, target) =>
          (Diagram.position? diagram node).map fun source => .nodePlaced node source target

/-- Lays out a list of nodes, without moving them yet. -/
def setup [BEq ι] [Hashable ι] (session : Session ι) (diagram : δ) (nodes : List ι)
    (origin : Point) : Outcome δ ι Unit :=
  let idle : Session ι := { session with animation := none }
  let frames := session.settings.frames
  let layout := treeLayout session.settings.gaps diagram nodes origin
  let events := (layoutEvents diagram nodes origin layout).toArray
  match layout with
  | .error e => ⟨idle, diagram, events, .error e⟩
  | .ok layout =>
    let events := events.push (.animationReady layout.placements.length frames)
    match Animation.start diagram layout.placements nodes frames with
    | .error e => ⟨idle, diagram, events, .error e⟩
    | .ok animation => ⟨{ idle with animation := some animation }, diagram, events, .ok ()⟩

/-- Moves all nodes of the last layout to where they go. -/
def finish (session : Session ι) (diagram : δ) : Outcome δ ι Unit :=
  match session.animation with
  | none => .unchanged session diagram ()
  | some animation =>
    match animation.finish diagram with
    | .error e => ⟨session, diagram, #[], .error e⟩
    | .ok (animation, diagram) =>
      .unchanged { session with animation := some animation } diagram ()

/-- Lays out a list of nodes and, unless it is to be animated, moves them. Tells whether frames are
left to play. -/
def run [BEq ι] [Hashable ι] (session : Session ι) (diagram : δ) (nodes : List ι)
    (origin : Point) : Outcome δ ι Bool :=
  (session.setup diagram nodes origin).andThen fun _ session diagram =>
    if session.settings.animated && !session.isDone then .unchanged session diagram true
    else (session.finish diagram).andThen fun _ session diagram => .unchanged session diagram false

/-- Plays one frame and tells which nodes have been moved. -/
def nextFrame (session : Session ι) (diagram : δ) : Outcome δ ι (List ι) :=
  match session.animation with
  | none => .unchanged session diagram []
  | some animation =>
    if animation.isDone then .unchanged session diagram []
    else
      let next := animation.advance
      let events := #[.framePlayed next.frame next.frames next.progress]
      match animation.nextFrame diagram with
      | .error e => ⟨session, diagram, events, .error e⟩
      | .ok (animation, diagram, moved) =>
        ⟨{ session with animation := some animation }, diagram, events, .ok moved⟩

/-- Plays a number of frames and tells which nodes the last of them has moved. -/
def nextFrames (session : Session ι) (diagram : δ) (times : Nat) : Outcome δ ι (List ι) :=
  Nat.repeat (fun outcome => outcome.andThen fun _ session diagram => session.nextFrame diagram)
    times (.unchanged session diagram [])

/-- Plays all frames that are left and tells how many they were. -/
def play (session : Session ι) (diagram : δ) : Outcome δ ι Nat :=
  (session.nextFrames diagram session.remaining).andThen fun _ after diagram =>
    .unchanged after diagram session.remaining

end Session

end SchemaLayout
