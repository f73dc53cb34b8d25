import SchemaLayout.Session

/-!
# Outcomes

Operations on a session are put together by `andThen`, which obeys the laws of a sequence: doing
nothing before or after an operation changes nothing, and three operations may be grouped either
way.

`Yields` says what an operation that succeeds leaves behind, apart from its reports, and `Fails`
says so of one that fails. `Silences` compares two operations of which one also reports the frames
that it shows.
-/

namespace SchemaLayout.Session.Outcome

variable {δ ι β γ ε : Type} {session session' : Session ι} {diagram diagram' : δ} {result : β}
  {result' : γ}

/-! ## Sequences -/

theorem unchanged_andThen (session : Session ι) (diagram : δ) (result : β)
    (next : β → Session ι → δ → Outcome δ ι γ) :
    (unchanged session diagram result).andThen next = next result session diagram := by
  unfold andThen unchanged
  dsimp only
  rw [Array.empty_append]

theorem andThen_unchanged (first : Outcome δ ι β) :
    (first.andThen fun result session diagram => unchanged session diagram result) = first := by
  obtain ⟨session, diagram, events, result⟩ := first
  cases result with
  | error e => rfl
  | ok result =>
    unfold andThen unchanged
    dsimp only
    rw [Array.append_empty]

theorem andThen_assoc (first : Outcome δ ι β) (next : β → Session ι → δ → Outcome δ ι γ)
    (last : γ → Session ι → δ → Outcome δ ι ε) :
    (first.andThen next).andThen last =
      first.andThen fun result session diagram => (next result session diagram).andThen last := by
  obtain ⟨session, diagram, events, result⟩ := first
  cases result with
  | error e => rfl
  | ok result =>
    unfold andThen
    dsimp only
    cases (next result session diagram).result with
    | error e => rfl
    | ok result =>
      dsimp only
      rw [Array.append_assoc]

/-- What comes next matters only for the result that there is. -/
theorem andThen_congr {first : Outcome δ ι β} {next next' : β → Session ι → δ → Outcome δ ι γ}
    (h : ∀ result, first.result = .ok result →
      next result first.session first.diagram = next' result first.session first.diagram) :
    first.andThen next = first.andThen next' := by
  unfold andThen
  cases hresult : first.result with
  | error e => rfl
  | ok result =>
    dsimp only
    rw [h result hresult]

/-! ## Operations that succeed -/

/-- An operation has succeeded and leaves a session, a diagram and a result. -/
structure Yields (outcome : Outcome δ ι β) (session : Session ι) (diagram : δ)
    (result : β) : Prop where
  session_eq : outcome.session = session
  diagram_eq : outcome.diagram = diagram
  result_eq : outcome.result = .ok result

theorem yields_unchanged (session : Session ι) (diagram : δ) (result : β) :
    (unchanged session diagram result).Yields session diagram result :=
  ⟨rfl, rfl, rfl⟩

/-- What two operations yield one after the other. -/
theorem Yields.andThen {first : Outcome δ ι β}
    {next : β → Session ι → δ → Outcome δ ι γ} (h : first.Yields session diagram result)
    (h' : (next result session diagram).Yields session' diagram' result') :
    (first.andThen next).Yields session' diagram' result' := by
  obtain ⟨rfl, rfl, hresult⟩ := h
  unfold Outcome.andThen
  rw [hresult]
  exact ⟨h'.session_eq, h'.diagram_eq, h'.result_eq⟩

/-! ## Operations that fail -/

/-- An operation has failed and leaves a session and a diagram. -/
structure Fails (outcome : Outcome δ ι β) (session : Session ι) (diagram : δ)
    (error : LayoutError ι) : Prop where
  session_eq : outcome.session = session
  diagram_eq : outcome.diagram = diagram
  result_eq : outcome.result = .error error

/-- Nothing is done after an operation that has failed. -/
theorem Fails.andThen {first : Outcome δ ι β} {error : LayoutError ι}
    (h : first.Fails session diagram error) (next : β → Session ι → δ → Outcome δ ι γ) :
    (first.andThen next).Fails session diagram error := by
  obtain ⟨rfl, rfl, hresult⟩ := h
  unfold Outcome.andThen
  rw [hresult]
  exact ⟨rfl, rfl, rfl⟩

/-! ## Operations that report less -/

/-- Whether an event reports what a frame has moved. -/
def isShown : Event ι → Bool
  | .frameShown _ _ => true
  | _ => false

/-- The first operation does what the second does and reports the same, but for the frames that are
shown. What the two tell in the end may differ. -/
structure Silences (quiet : Outcome δ ι β) (loud : Outcome δ ι γ) : Prop where
  session_eq : quiet.session = loud.session
  diagram_eq : quiet.diagram = loud.diagram
  events_eq : quiet.events = loud.events.filter fun event => !isShown event
  result_eq : quiet.result.map (fun _ => ()) = loud.result.map fun _ => ()

theorem silences_unchanged (session : Session ι) (diagram : δ) (result : β) (result' : γ) :
    (unchanged session diagram result).Silences (unchanged session diagram result') :=
  ⟨rfl, rfl, rfl, rfl⟩

/-- Operations that are silenced one after the other. -/
theorem Silences.andThen {β' γ' : Type} {quiet : Outcome δ ι β} {loud : Outcome δ ι γ}
    {next : β → Session ι → δ → Outcome δ ι β'} {next' : γ → Session ι → δ → Outcome δ ι γ'}
    (h : quiet.Silences loud)
    (hnext : ∀ result result' session diagram,
      (next result session diagram).Silences (next' result' session diagram)) :
    (quiet.andThen next).Silences (loud.andThen next') := by
  obtain ⟨session, diagram, events, result⟩ := quiet
  obtain ⟨session', diagram', events', result'⟩ := loud
  obtain ⟨hsession, hdiagram, hevents, hresult⟩ := h
  obtain rfl : session = session' := hsession
  obtain rfl : diagram = diagram' := hdiagram
  cases result with
  | error e =>
    cases result' with
    | error e' =>
      obtain rfl : e = e' := Except.error.inj hresult
      exact ⟨rfl, rfl, hevents, rfl⟩
    | ok result' => cases hresult
  | ok result =>
    cases result' with
    | error e' => cases hresult
    | ok result' =>
      have hrest := hnext result result' session diagram
      refine ⟨hrest.session_eq, hrest.diagram_eq, ?_, hrest.result_eq⟩
      show events ++ _ = (events' ++ _).filter _
      rw [Array.filter_append Array.size_append, ← hrest.events_eq, ← hevents]

end SchemaLayout.Session.Outcome
