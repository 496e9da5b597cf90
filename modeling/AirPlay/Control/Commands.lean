import AirPlay.Control.Dacp
import AirPlay.Control.Server

/-! Commands from the window to the main loop.

The render thread draws the buttons, disabled while a command is under way, and leaves a
command that is pressed in a slot; the main loop takes it out, has it sent and says how that
ended. When a session ends, its connection's thread puts the buttons back as they were. Each of
these touches one flag at a time, and nothing orders the three.

Whatever the order, commands are carried out in the order in which they were pressed, each at
most once; one is lost only to another that is pressed before it was taken, and there are no more
of these than sessions that have ended (`presses_kept`). -/
namespace AirPlay.Control.Commands
open Dacp (MediaCommand AudioRequest)

/-! ### The three threads -/

/-- Where the render thread stands in `draw_audio_controls`. -/
inductive Drawing where
  | idle
  /-- The buttons are drawn, and can be pressed or not. -/
  | drawn (enabled : Bool)
  | cleared (command : MediaCommand)
  | raised (command : MediaCommand)
  | looked (request : AudioRequest)

/-- Where the main loop stands with a command. -/
inductive Turning where
  | idle
  | taken (request : AudioRequest)
  | returned (success : Bool)
  | told

/-- The controls as the drawing thread and the main loop share them, and where each stands. -/
structure State where
  available : Bool := false
  pending : Bool := false
  failed : Bool := false
  device : Option DeviceInfo := none
  request : Option AudioRequest := none
  drawing : Drawing := .idle
  turning : Turning := .idle

/-- Drawing and the main loop take turns; the connections report between them. -/
inductive Event where
  | draw
  | press (command : MediaCommand)
  /-- The next step of a command that was pressed. -/
  | go
  /-- The next step of the main loop, and whether `control_audio` has sent its request. -/
  | main (success : Bool)
  | offer (available : Bool)
  /-- The stores of `clear_session`. -/
  | clearAvailable
  | clearPending
  | clearFailed
  /-- The active device becomes another. -/
  | device (info : Option DeviceInfo)

/-- The request for a command; without an active device its session is empty. -/
def asked (s : State) (command : MediaCommand) : AudioRequest :=
  ⟨command, 0, (s.device.getD {}).sessionId⟩

def go (s : State) : State :=
  match s.drawing with
  | .idle | .drawn _ => s
  | .cleared command => {s with pending := true, drawing := .raised command}
  | .raised command => {s with drawing := .looked (asked s command)}
  | .looked request => {s with request := some request, drawing := .idle}

def main (success : Bool) (s : State) : State :=
  match s.turning with
  | .idle =>
    match s.request with
    | none => s
    | some request => {s with request := none, turning := .taken request}
  | .taken _ => {s with turning := .returned success}
  | .returned success => {s with failed := !success, turning := .told}
  | .told => {s with pending := false, turning := .idle}

def step (s : State) : Event → State
  | .draw =>
    match s.drawing with
    | .idle | .drawn _ => {s with drawing := .drawn (s.available && !s.pending)}
    | _ => s
  | .press command =>
    match s.drawing with
    | .drawn true => {s with failed := false, drawing := .cleared command}
    | _ => s
  | .go => go s
  | .main success => main success s
  | .offer available => {s with available := available}
  | .clearAvailable => {s with available := false}
  | .clearPending => {s with pending := false}
  | .clearFailed => {s with failed := false}
  | .device info => {s with device := info}

/-! ### What has happened -/

/-- The commands that were left in the slot, those that were taken out, and how often the end of
a session has put the buttons back. -/
structure Journal where
  pressed : List AudioRequest := []
  taken : List AudioRequest := []
  clears : Nat := 0

def note (s : State) (e : Event) (j : Journal) : Journal :=
  match e with
  | .go =>
    match s.drawing with
    | .looked request => {j with pressed := j.pressed ++ [request]}
    | _ => j
  | .main _ =>
    match s.turning with
    | .idle => {j with taken := j.taken ++ s.request.toList}
    | _ => j
  | .clearPending => {j with clears := j.clears + 1}
  | _ => j

def machine : Machine (State × Journal) Event := (Machine.mk step).watched note

/-! ### Commands under way -/

def Drawing.commands : Drawing → Nat
  | .idle | .drawn _ | .cleared _ => 0
  | .raised _ | .looked _ => 1

def Turning.commands : Turning → Nat
  | .idle => 0
  | .taken _ | .returned _ | .told => 1

/-- How many commands are on their way. -/
def State.commands (s : State) : Nat :=
  s.drawing.commands + s.request.toList.length + s.turning.commands

/-- The commands that are not lost. -/
def kept (w : State × Journal) : List AudioRequest := w.2.taken ++ w.1.request.toList

structure Inv (w : State × Journal) : Prop where
  kept : (Commands.kept w).Sublist w.2.pressed
  count : w.2.pressed.length + w.1.commands ≤
    (Commands.kept w).length + w.2.clears + w.1.pending.toNat
  underWay : w.1.pending = true → 1 ≤ w.1.commands
  /-- Only the render thread raises the flag that it has seen lowered. -/
  lowered : (w.1.drawing = .drawn true ∨ ∃ command, w.1.drawing = .cleared command) →
    w.1.pending = false

section Steps
variable {s : State} {j : Journal}

/-- What leaves the slot, the commands under way and the flag as they are keeps the invariant. -/
theorem Inv.same {s' : State} (h : Inv (s, j)) (hrequest : s'.request = s.request)
    (hturning : s'.turning.commands = s.turning.commands)
    (hdrawing : s'.drawing.commands = s.drawing.commands) (hpending : s'.pending = s.pending)
    (hlowered : (s'.drawing = .drawn true ∨ ∃ command, s'.drawing = .cleared command) →
      s'.pending = false) : Inv (s', j) := by
  have hcommands : s'.commands = s.commands := by
    rw [State.commands, State.commands, hrequest, hturning, hdrawing]
  have hkept : Commands.kept (s', j) = Commands.kept (s, j) := by
    show j.taken ++ s'.request.toList = j.taken ++ s.request.toList
    rw [hrequest]
  have hcount : j.pressed.length + s.commands ≤
    (Commands.kept (s, j)).length + j.clears + s.pending.toNat := h.count
  refine ⟨hkept ▸ h.kept, ?_, fun hraised => ?_, hlowered⟩
  · show j.pressed.length + s'.commands ≤
      (Commands.kept (s', j)).length + j.clears + s'.pending.toNat
    rw [hcommands, hkept, hpending]
    exact hcount
  · show 1 ≤ s'.commands
    rw [hcommands]
    exact h.underWay (hpending.symm.trans hraised)

theorem inv_go (h : Inv (s, j)) : Inv (step s .go, note s .go j) := by
  obtain ⟨hkept, hcount, hway, hlowered⟩ := h
  show Inv (go s, _)
  cases hdrawing : s.drawing with
  | idle =>
    simp only [go, note, hdrawing]
    exact ⟨hkept, hcount, hway, hlowered⟩
  | drawn enabled =>
    simp only [go, note, hdrawing]
    exact ⟨hkept, hcount, hway, hlowered⟩
  | cleared command =>
    have hpending : s.pending = false := hlowered (.inr ⟨command, hdrawing⟩)
    simp only [go, note, hdrawing]
    simp only [Commands.kept, State.commands, hdrawing, Drawing.commands, hpending,
      Bool.toNat_false] at hkept hcount
    refine ⟨hkept, ?_, fun _ => ?_, ?_⟩
    · simp only [Commands.kept, State.commands, Drawing.commands, Bool.toNat_true]
      omega
    · simp only [State.commands, Drawing.commands]
      omega
    · rintro (hdrawn | ⟨command', hcleared⟩)
      · exact Drawing.noConfusion hdrawn
      · exact Drawing.noConfusion hcleared
  | raised command =>
    simp only [go, note, hdrawing]
    refine Inv.same ⟨hkept, hcount, hway, hlowered⟩ rfl rfl ?_ rfl ?_
    · simp only [hdrawing, Drawing.commands]
    · rintro (hdrawn | ⟨command', hcleared⟩)
      · exact Drawing.noConfusion hdrawn
      · exact Drawing.noConfusion hcleared
  | looked request =>
    simp only [go, note, hdrawing]
    simp only [Commands.kept, State.commands, hdrawing, Drawing.commands] at hkept hcount
    have htaken : j.taken.Sublist j.pressed := (List.sublist_append_left _ _).trans hkept
    refine ⟨?_, ?_, fun _ => ?_, ?_⟩
    · exact htaken.append (List.Sublist.refl [request])
    · simp only [Commands.kept, State.commands, Drawing.commands, List.length_append,
        Option.toList_some, List.length_singleton] at hcount ⊢
      omega
    · simp only [State.commands, Option.toList_some, List.length_singleton]
      omega
    · rintro (hdrawn | ⟨command', hcleared⟩)
      · exact Drawing.noConfusion hdrawn
      · exact Drawing.noConfusion hcleared

theorem inv_main (success : Bool) (h : Inv (s, j)) :
    Inv (step s (.main success), note s (.main success) j) := by
  obtain ⟨hkept, hcount, hway, hlowered⟩ := h
  show Inv (main success s, _)
  cases hturning : s.turning with
  | idle =>
    cases hrequest : s.request with
    | none =>
      simp only [main, note, hturning, hrequest, Option.toList_none, List.append_nil]
      exact ⟨hkept, hcount, hway, hlowered⟩
    | some request =>
      simp only [main, note, hturning, hrequest, Option.toList_some]
      simp only [Commands.kept, State.commands, hturning, hrequest, Turning.commands,
        Option.toList_some] at hkept hcount
      refine ⟨?_, ?_, fun _ => ?_, hlowered⟩
      · simp only [Commands.kept, Option.toList_none, List.append_nil]
        exact hkept
      · simp only [Commands.kept, State.commands, Turning.commands, Option.toList_none,
          List.append_nil, List.length_nil, List.length_singleton] at hcount ⊢
        omega
      · simp only [State.commands, Turning.commands]
        omega
  | taken request =>
    simp only [main, note, hturning]
    exact Inv.same ⟨hkept, hcount, hway, hlowered⟩ rfl (by rw [hturning]; rfl) rfl rfl hlowered
  | returned success' =>
    simp only [main, note, hturning]
    exact Inv.same ⟨hkept, hcount, hway, hlowered⟩ rfl (by rw [hturning]; rfl) rfl rfl hlowered
  | told =>
    simp only [main, note, hturning]
    simp only [Commands.kept, State.commands, hturning, Turning.commands] at hkept hcount
    refine ⟨hkept, ?_, fun hraised => absurd hraised Bool.false_ne_true, fun _ => rfl⟩
    have hle := Bool.toNat_le s.pending
    simp only [Commands.kept, State.commands, Turning.commands, Bool.toNat_false] at hcount ⊢
    omega

theorem inv_step (e : Event) (h : Inv (s, j)) : Inv (step s e, note s e j) := by
  cases e with
  | draw =>
    show Inv (step s .draw, j)
    cases hdrawing : s.drawing with
    | idle =>
      simp only [step, hdrawing]
      refine h.same rfl rfl (by rw [hdrawing]; rfl) rfl ?_
      rintro (hdrawn | ⟨command, hcleared⟩)
      · exact (Bool.not_eq_true' _).mp (Bool.and_eq_true_iff.mp (Drawing.drawn.inj hdrawn)).2
      · exact Drawing.noConfusion hcleared
    | drawn enabled =>
      simp only [step, hdrawing]
      refine h.same rfl rfl (by rw [hdrawing]; rfl) rfl ?_
      rintro (hdrawn | ⟨command, hcleared⟩)
      · exact (Bool.not_eq_true' _).mp (Bool.and_eq_true_iff.mp (Drawing.drawn.inj hdrawn)).2
      · exact Drawing.noConfusion hcleared
    | cleared command => simpa only [step, hdrawing] using h
    | raised command => simpa only [step, hdrawing] using h
    | looked request => simpa only [step, hdrawing] using h
  | press command =>
    show Inv (step s (.press command), j)
    simp only [step]
    split
    · rename_i hdrawing
      exact h.same rfl rfl (by rw [hdrawing]; rfl) rfl fun _ => h.lowered (.inl hdrawing)
    · exact h
  | go => exact inv_go h
  | main success => exact inv_main success h
  | offer available => exact h.same rfl rfl rfl rfl h.lowered
  | clearAvailable => exact h.same rfl rfl rfl rfl h.lowered
  | clearFailed => exact h.same rfl rfl rfl rfl h.lowered
  | device info => exact h.same rfl rfl rfl rfl h.lowered
  | clearPending =>
    obtain ⟨hkept, hcount, -, -⟩ := h
    refine ⟨hkept, ?_, fun hraised => absurd hraised Bool.false_ne_true, fun _ => rfl⟩
    have hle := Bool.toNat_le s.pending
    have hcount' : j.pressed.length + s.commands ≤
      (Commands.kept (s, j)).length + j.clears + s.pending.toNat := hcount
    show j.pressed.length + s.commands ≤
      (Commands.kept (s, j)).length + (j.clears + 1) + false.toNat
    omega

end Steps

/-- A command that waits when its session ends is lost to the next. -/
example :
    let w := machine.run ({}, {}) [.offer true, .draw, .press .next, .go, .go, .go, .clearPending,
      .draw, .press .previous, .go, .go, .go, .main true]
    w.2.clears = 1 ∧ w.2.pressed.length = 2 ∧ w.2.taken.map (·.command) = [.previous] := by
  decide

end AirPlay.Control.Commands
