import MeetixOS.Userspace.ZipNET.CursorPointers

/-! # The mouse events of a run

The events that `EventProcessor::processMouseState` dispatches, with the component each one starts from.
What `getComponentAt` finds is an input of each step, since the components change in between; it is
never null. The focus is left out. -/

namespace MeetixOS.ZipNET.PointerEvents

/-! ## The code -/

/-- What a step reads: the next position, the buttons that are pressed, and the component that is hit. -/
structure PointerState where
  position : Point
  pressedButtons : BitVec 8
  hitComponent : Nat

/-- The button is pressed. -/
def down (buttons b : BitVec 8) : Bool := buttons &&& b ≠ 0

/-- Some button goes down. -/
def presses (previous next : BitVec 8) : Bool :=
  mouseButtons.any fun b => !down previous b && down next b

/-- Some button goes up. -/
def releases (previous next : BitVec 8) : Bool :=
  mouseButtons.any fun b => down previous b && !down next b

/-- The events for entering and leaving. -/
def hover (cursor : Cursor) (hovered : Nat) : Cursor × List (MouseEventType × Nat) :=
  if some hovered ≠ cursor.hoveredComponent ∧ cursor.draggedComponent ≠ none ∧
      cursor.draggedComponent ≠ cursor.hoveredComponent then
    match cursor.hoveredComponent with
    | some left => ({ cursor with hoveredComponent := none }, [(.leave, left)])
    | none => ({ cursor with hoveredComponent := some hovered }, [(.enter, hovered)])
  else (cursor, [])

/-- `processMouseState`: the cursor, and the events in the order in which they are dispatched. -/
def processMouseState (screen : Nat) (cursor : Cursor) (state : PointerState) :
    Cursor × List (MouseEventType × Nat) :=
  let previousPosition := cursor.position
  let previousPressedButtons := cursor.pressedButtons
  let cursor := { cursor with
    position := state.position
    pressedButtons := state.pressedButtons }
  if presses previousPressedButtons state.pressedButtons then
    let cursor := if state.hitComponent ≠ screen then
        { cursor with draggedComponent := some state.hitComponent }
      else cursor
    (cursor, [(.press, screen)])
  else if releases previousPressedButtons state.pressedButtons then
    let dragged := cursor.draggedComponent.toList.map fun dragged => (.dragRelease, dragged)
    ({ cursor with draggedComponent := none }, dragged ++ [(.release, screen)])
  else if state.position ≠ previousPosition then
    let hovering := hover cursor state.hitComponent
    let moved := match cursor.draggedComponent with
      | some dragged => (.drag, dragged)
      | none => (.move, screen)
    (hovering.1, hovering.2 ++ [moved])
  else (cursor, [])

/-! ## Drags -/

/-- The components that get a `DRAG_RELEASE`. -/
def dragReleases (events : List (MouseEventType × Nat)) : List Nat :=
  (events.filter fun event => event.1 = .dragRelease).map Prod.snd

/-- The drag that is not ended behind a step: the one from before or a new one. -/
def openDrag (before : Option Nat) (events : List (MouseEventType × Nat)) (cursor : Cursor) : Option Nat :=
  if dragReleases events = [] then before <|> cursor.draggedComponent else cursor.draggedComponent

/-- What a step from `cursor` to `cursor'` has to keep when the drag `before` is open. -/
structure StepCorrect (screen : Nat) (before : Option Nat) (cursor cursor' : Cursor)
    (events : List (MouseEventType × Nat)) : Prop where
  /-- The open drag is ended once, and no other one is. -/
  ends : dragReleases events = [] ∨ ∃ dragged, before = some dragged ∧ dragReleases events = [dragged]
  /-- No other component is dragged before it is ended. -/
  replaces : ∀ dragged dragged', before = some dragged → dragReleases events = [] →
    cursor'.draggedComponent = some dragged' → dragged' = dragged
  /-- It is ended when all buttons are up. -/
  allUp : (∀ b ∈ mouseButtons, down cursor'.pressedButtons b = false) →
    openDrag before events cursor' = none
  /-- A button that goes up gives a `RELEASE`. -/
  release : ∀ b ∈ mouseButtons, down cursor.pressedButtons b = true →
    down cursor'.pressedButtons b = false → (.release, screen) ∈ events

/-- Every step of a run is correct; `before` is the drag that is open. -/
def RunCorrect (screen : Nat) (before : Option Nat) (cursor : Cursor) : List PointerState → Prop
  | [] => True
  | state :: states =>
    let r := processMouseState screen cursor state
    StepCorrect screen before cursor r.1 r.2 ∧
      RunCorrect screen (openDrag before r.2 r.1) r.1 states

/-- No button goes down while another one goes up, nor on another component than the dragged one or
the screen. -/
def Separate (screen : Nat) (cursor : Cursor) (state : PointerState) : Prop :=
  presses cursor.pressedButtons state.pressedButtons = true →
    releases cursor.pressedButtons state.pressedButtons = false ∧
      (state.hitComponent = screen ∨
        ∀ dragged, cursor.draggedComponent = some dragged → state.hitComponent = dragged)

/-- All steps of a run are `Separate`. -/
def RunSeparate (screen : Nat) (cursor : Cursor) : List PointerState → Prop
  | [] => True
  | state :: states =>
    Separate screen cursor state ∧ RunSeparate screen (processMouseState screen cursor state).1 states

/-! ## One step -/

variable {screen : Nat} {cursor : Cursor} {state : PointerState}

theorem releases_eq_false_iff {previous next : BitVec 8} : releases previous next = false ↔
    ∀ b ∈ mouseButtons, down previous b = true → down next b = true := by
  simp [releases]

theorem exists_down_of_presses {previous next : BitVec 8} (h : presses previous next = true) :
    ∃ b ∈ mouseButtons, down next b = true := by
  obtain ⟨b, hb, hpress⟩ := List.any_eq_true.1 h
  exact ⟨b, hb, (Bool.and_eq_true_iff.1 hpress).2⟩

theorem dragReleases_append (events events' : List (MouseEventType × Nat)) :
    dragReleases (events ++ events') = dragReleases events ++ dragReleases events' := by
  simp [dragReleases]

theorem hover_eq (cursor : Cursor) (hovered : Nat) :
    (hover cursor hovered).1.draggedComponent = cursor.draggedComponent ∧
      (hover cursor hovered).1.pressedButtons = cursor.pressedButtons ∧
      dragReleases (hover cursor hovered).2 = [] := by
  unfold hover
  split
  · split <;> exact ⟨rfl, rfl, rfl⟩
  · exact ⟨rfl, rfl, rfl⟩

theorem processMouseState_pressedButtons :
    (processMouseState screen cursor state).1.pressedButtons = state.pressedButtons := by
  unfold processMouseState
  dsimp only
  split
  · split <;> rfl
  · split
    · rfl
    · split
      · exact (hover_eq _ _).2.1
      · rfl

theorem processMouseState_press (h : presses cursor.pressedButtons state.pressedButtons = true) :
    (processMouseState screen cursor state).2 = [(.press, screen)] ∧
      (processMouseState screen cursor state).1.draggedComponent =
        if state.hitComponent ≠ screen then some state.hitComponent else cursor.draggedComponent := by
  rw [processMouseState, if_pos h]
  refine ⟨rfl, ?_⟩
  split <;> rfl

theorem processMouseState_release (hp : presses cursor.pressedButtons state.pressedButtons = false)
    (h : releases cursor.pressedButtons state.pressedButtons = true) :
    dragReleases (processMouseState screen cursor state).2 = cursor.draggedComponent.toList ∧
      (.release, screen) ∈ (processMouseState screen cursor state).2 ∧
      (processMouseState screen cursor state).1.draggedComponent = none := by
  rw [processMouseState, if_neg (Bool.eq_false_iff.1 hp), if_pos h]
  refine ⟨?_, List.mem_append_right _ List.mem_cons_self, rfl⟩
  cases cursor.draggedComponent <;> rfl

theorem processMouseState_still (hp : presses cursor.pressedButtons state.pressedButtons = false)
    (h : releases cursor.pressedButtons state.pressedButtons = false) :
    dragReleases (processMouseState screen cursor state).2 = [] ∧
      (processMouseState screen cursor state).1.draggedComponent = cursor.draggedComponent := by
  rw [processMouseState, if_neg (Bool.eq_false_iff.1 hp), if_neg (Bool.eq_false_iff.1 h)]
  split
  next =>
    refine ⟨?_, (hover_eq _ _).1⟩
    rw [dragReleases_append, (hover_eq _ _).2.2]
    split <;> rfl
  next => exact ⟨rfl, rfl⟩

/-- Something is dragged only while a button is pressed. -/
def DragsPressed (cursor : Cursor) : Prop :=
  cursor.draggedComponent ≠ none → ∃ b ∈ mouseButtons, down cursor.pressedButtons b = true

theorem DragsPressed.step (h : DragsPressed cursor) :
    DragsPressed (processMouseState screen cursor state).1 := by
  unfold DragsPressed
  rw [processMouseState_pressedButtons]
  rcases hp : presses cursor.pressedButtons state.pressedButtons with - | -
  · rcases hr : releases cursor.pressedButtons state.pressedButtons with - | -
    · rw [(processMouseState_still hp hr).2]
      intro hdragged
      obtain ⟨b, hb, hdown⟩ := h hdragged
      exact ⟨b, hb, releases_eq_false_iff.1 hr b hb hdown⟩
    · exact fun hdragged => absurd (processMouseState_release hp hr).2.2 hdragged
  · exact fun _ => exists_down_of_presses hp

theorem openDrag_eq (h : Separate screen cursor state) :
    openDrag cursor.draggedComponent (processMouseState screen cursor state).2
        (processMouseState screen cursor state).1 =
      (processMouseState screen cursor state).1.draggedComponent := by
  unfold openDrag
  split
  next hnone =>
    rcases hp : presses cursor.pressedButtons state.pressedButtons with - | -
    · rcases hr : releases cursor.pressedButtons state.pressedButtons with - | -
      · rw [(processMouseState_still hp hr).2]
        cases cursor.draggedComponent <;> rfl
      · rw [(processMouseState_release hp hr).1, Option.toList_eq_nil_iff] at hnone
        rw [hnone]
        rfl
    · rw [(processMouseState_press hp).2]
      rcases hdragged : cursor.draggedComponent with - | dragged
      · rfl
      · rcases (h hp).2 with hscreen | hsame
        · simp [hscreen]
        · simp [hsame dragged hdragged]
  next => rfl

theorem stepCorrect_iff (h : DragsPressed cursor) :
    StepCorrect screen cursor.draggedComponent cursor (processMouseState screen cursor state).1
        (processMouseState screen cursor state).2 ↔ Separate screen cursor state := by
  constructor
  · intro hstep hp
    obtain ⟨hevents, hdragged⟩ := processMouseState_press hp
    refine ⟨releases_eq_false_iff.2 fun b hb hdown => ?_,
      or_iff_not_imp_left.2 fun hhit dragged hbefore => ?_⟩
    · by_contra hup
      have hrelease := hstep.release b hb hdown
        (by rw [processMouseState_pressedButtons]; exact Bool.eq_false_iff.2 hup)
      rw [hevents] at hrelease
      simp at hrelease
    · rw [if_pos hhit] at hdragged
      exact hstep.replaces dragged _ hbefore (by rw [hevents]; rfl) hdragged
  · intro hsep
    have hallUp : (∀ b ∈ mouseButtons,
        down (processMouseState screen cursor state).1.pressedButtons b = false) →
        openDrag cursor.draggedComponent (processMouseState screen cursor state).2
          (processMouseState screen cursor state).1 = none := by
      intro hup
      rw [openDrag_eq hsep]
      by_contra hne
      obtain ⟨b, hb, hdown⟩ := h.step hne
      rw [hup b hb] at hdown
      cases hdown
    have hstays (hr : releases cursor.pressedButtons state.pressedButtons = false) (b : BitVec 8)
        (hb : b ∈ mouseButtons) (hdown : down cursor.pressedButtons b = true)
        (hup : down (processMouseState screen cursor state).1.pressedButtons b = false) : False := by
      rw [processMouseState_pressedButtons, releases_eq_false_iff.1 hr b hb hdown] at hup
      cases hup
    rcases hp : presses cursor.pressedButtons state.pressedButtons with - | -
    · rcases hr : releases cursor.pressedButtons state.pressedButtons with - | -
      · obtain ⟨hevents, hdragged⟩ := processMouseState_still hp hr
        refine ⟨.inl hevents, fun dragged dragged' hbefore _ hafter => ?_, hallUp,
          fun b hb hdown hup => (hstays hr b hb hdown hup).elim⟩
        rw [hdragged, hbefore] at hafter
        exact (Option.some.inj hafter).symm
      · obtain ⟨hevents, hmem, hdragged⟩ := processMouseState_release hp hr
        refine ⟨?_, fun dragged dragged' _ _ hafter => ?_, hallUp, fun _ _ _ _ => hmem⟩
        · rw [hevents]
          cases cursor.draggedComponent with
          | none => exact .inl rfl
          | some dragged => exact .inr ⟨dragged, rfl, rfl⟩
        · rw [hdragged] at hafter
          cases hafter
    · obtain ⟨hevents, hdragged⟩ := processMouseState_press hp
      obtain ⟨hr, hhit⟩ := hsep hp
      refine ⟨.inl (by rw [hevents]; rfl), fun dragged dragged' hbefore _ hafter => ?_, hallUp,
        fun b hb hdown hup => (hstays hr b hb hdown hup).elim⟩
      rw [hdragged] at hafter
      split at hafter
      next hne => rw [← Option.some.inj hafter, hhit.resolve_left hne dragged hbefore]
      next => exact Option.mem_unique hafter hbefore

/-! ## Runs -/

theorem runCorrect_iff (h : DragsPressed cursor) (states : List PointerState) :
    RunCorrect screen cursor.draggedComponent cursor states ↔ RunSeparate screen cursor states := by
  induction states generalizing cursor with
  | nil => exact Iff.rfl
  | cons state states ih =>
    rw [RunCorrect, RunSeparate, stepCorrect_iff h]
    refine and_congr_right fun hsep => ?_
    rw [openDrag_eq hsep]
    exact ih h.step

/-- The drags and releases of a run are right exactly when all its steps are separate. -/
theorem processMouseState_correct_iff (screen : Nat) (states : List PointerState) :
    RunCorrect screen none {} states ↔ RunSeparate screen {} states :=
  runCorrect_iff (fun h : ({} : Cursor).draggedComponent ≠ none => absurd rfl h) states

/-- The second button goes down in the step in which the first one goes up: there is no `RELEASE`. -/
theorem processMouseState_press_with_release :
    ¬RunCorrect 0 none {} [⟨⟨0, 0⟩, 1, 5⟩, ⟨⟨0, 0⟩, 2, 5⟩] := by
  rintro ⟨-, hstep, -⟩
  exact absurd (hstep.release 1 (by decide) (by decide) (by decide)) (by decide)

end MeetixOS.ZipNET.PointerEvents
