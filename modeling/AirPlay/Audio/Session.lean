import AirPlay.Library.Machine
import AirPlay.Audio.Steps

/-! A session's audio: receivers that follow one another.

A stream that is torn down during a pause hands its saved tail to the session,
and the receiver of the recreated stream starts from it. The session is the
machine every property of the receiver over whole runs is about: its events are
the calls of the RTSP thread, the datagrams and decoded blocks of the packet
thread and the turns of the playout thread, in any order. -/
namespace AirPlay.Audio

variable {α : Type}

/-- One pull of decoded PCM: at most the 8192 samples of the packet thread's
buffer, whole stereo frames. -/
structure Chunk (α : Type) where
  samples : List α
  nonempty : samples ≠ []
  stereo : samples.length % 2 = 0
  fits : samples.length ≤ 8192

/-- What happens to a session's audio. -/
inductive Event (α : Type) where
  /-- `start_ntp`: the session's NTP client exists from now on. -/
  | startNtp
  /-- SETUP of an audio stream: a new receiver, from the saved pause. -/
  | start (cfg : Config) (opened : Opened)
  /-- Partial teardown: the receiver is suspended and gone. -/
  | suspend
  | data (datagram : List UInt8) (now : Int)
  | control (datagram : List UInt8)
  | pcm (rtp : BitVec 32) (chunk : Chunk α) (now pending : Int)
  | flush (boundary : Option (BitVec 32)) (now : Int)
  | resume (now : Int)
  /-- `set_audio_track` with another track: the pause of the last one is dropped. -/
  | discardPause
  | setSynchronized (enabled : Bool)
  | playout (around : AudioReceiver.Surroundings)

/-- The samples an event brings out of the decoder. -/
def Event.produced : Event α → List α
  | .pcm _ chunk _ _ => chunk.samples
  | _ => []

/-- The audio part of a stream session, with what its sinks were given so far.
`ntp` stays once created: the session keeps its client until it is torn down. -/
structure Session (α : Type) where
  ntp : Bool := false
  audio : Option (AudioReceiver α) := none
  pausedAudio : PauseState α := {}
  submitted : List (PcmFrame α) := []

namespace Session

/-- A call on the current receiver, if there is one. -/
def update (f : AudioReceiver α → AudioReceiver α) (s : Session α) : Session α :=
  {s with audio := s.audio.map f}

def step (s : Session α) : Event α → Session α
  | .startNtp => {s with ntp := true}
  | .start cfg opened =>
    {s with
      audio := AudioReceiver.start {cfg with ntp := s.ntp} s.pausedAudio opened
      pausedAudio := s.pausedAudio.moved}
  | .suspend =>
    match s.audio with
    | some r => {s with audio := none, pausedAudio := r.suspend}
    | none => s
  | .data datagram now => s.update (·.firstPacket datagram now)
  | .control datagram => s.update (·.anchor datagram)
  | .pcm rtp chunk now pending => s.update (·.enqueue rtp chunk.samples now pending)
  | .flush boundary now => s.update (·.flush boundary now)
  | .resume now => s.update (·.resume now)
  | .discardPause => {s.update (·.discardPause) with pausedAudio := {}}
  | .setSynchronized enabled => s.update (·.setSynchronized enabled)
  | .playout around =>
    match s.audio with
    | some r =>
      {s with
        audio := some (r.playout around).1
        submitted := s.submitted ++ (r.playout around).2.toList}
    | none => s

/-- The session as a machine over its events. -/
def machine : Machine (Session α) (Event α) := ⟨step⟩

/-- A session before its first SETUP. -/
def Initial (s : Session α) : Prop := s = {}

/-- The receivers a session can have at some point of some run. -/
def Holds (r : AudioReceiver α) : Prop :=
  ∃ s : Session α, machine.Reachable Initial s ∧ s.audio = some r

/-- The PCM the decoder produces along a history. -/
def decoded (es : List (Event α)) : List α := es.flatMap Event.produced

end Session

/-- What an event does to a receiver it finds. -/
def AudioReceiver.react (r : AudioReceiver α) : Event α → AudioReceiver α
  | .data datagram now => r.firstPacket datagram now
  | .control datagram => r.anchor datagram
  | .pcm rtp chunk now pending => r.enqueue rtp chunk.samples now pending
  | .flush boundary now => r.flush boundary now
  | .resume now => r.resume now
  | .discardPause => r.discardPause
  | .setSynchronized enabled => r.setSynchronized enabled
  | .playout around => (r.playout around).1
  | .startNtp | .start .. | .suspend => r

/-- The blocks it hands to the sink at that. -/
def AudioReceiver.handed (r : AudioReceiver α) : Event α → List (PcmFrame α)
  | .playout around => (r.playout around).2.toList
  | _ => []

@[simp] theorem AudioReceiver.react_cfg (r : AudioReceiver α) (e : Event α) :
    (r.react e).cfg = r.cfg := by
  cases e with
  | data datagram now => exact firstPacket_cfg datagram now r
  | control datagram => exact anchor_cfg datagram r
  | pcm rtp chunk now pending => exact enqueue_cfg rtp chunk.samples now pending r
  | flush boundary now => exact flush_cfg boundary now r
  | resume now => exact resume_cfg now r
  | setSynchronized enabled => exact setSynchronized_cfg enabled r
  | playout around => exact playout_cfg around r
  | discardPause | startNtp | start | suspend => rfl

namespace Session

/-! ### What a step leaves -/

/-- The receiver after a step is the one before it as the event changed it, or a new
one. -/
theorem step_audio {s : Session α} {e : Event α} {r : AudioReceiver α}
    (hr : (s.step e).audio = some r) :
    (∃ r', s.audio = some r' ∧ r = r'.react e) ∨
      ∃ cfg opened, e = .start cfg opened ∧
        AudioReceiver.start {cfg with ntp := s.ntp} s.pausedAudio opened = some r := by
  cases e with
  | start cfg opened => exact Or.inr ⟨cfg, opened, rfl, hr⟩
  | startNtp => exact Or.inl ⟨r, hr, rfl⟩
  | suspend =>
    unfold step at hr
    cases haudio : s.audio with
    | none => rw [haudio] at hr; exact absurd (haudio.symm.trans hr) (by simp)
    | some r' => rw [haudio] at hr; cases hr
  | playout around =>
    unfold step at hr
    cases haudio : s.audio with
    | none => rw [haudio] at hr; exact absurd (haudio.symm.trans hr) (by simp)
    | some r' =>
      rw [haudio] at hr
      exact Or.inl ⟨r', rfl, (Option.some.inj hr).symm⟩
  | _ =>
    obtain ⟨r', hr', h⟩ := Option.map_eq_some_iff.mp hr
    exact Or.inl ⟨r', hr', h.symm⟩

/-- A receiver that is there reacts, unless it is suspended or replaced. -/
theorem step_reacts {s : Session α} {e : Event α} {r : AudioReceiver α} (hr : s.audio = some r)
    (hsuspend : e ≠ .suspend) (hstart : ∀ cfg opened, e ≠ .start cfg opened) :
    (s.step e).audio = some (r.react e) ∧
      ((s.step e).pausedAudio = s.pausedAudio ∨ (s.step e).pausedAudio.pcm = []) ∧
      (s.step e).submitted = s.submitted ++ r.handed e := by
  cases e with
  | start cfg opened => exact absurd rfl (hstart cfg opened)
  | suspend => exact absurd rfl hsuspend
  | startNtp => exact ⟨hr, Or.inl rfl, (List.append_nil _).symm⟩
  | playout around =>
    rw [step]
    rw [hr]
    exact ⟨rfl, Or.inl rfl, rfl⟩
  | discardPause =>
    exact ⟨Option.map_eq_some_iff.mpr ⟨r, hr, rfl⟩, Or.inr rfl, (List.append_nil _).symm⟩
  | _ => exact ⟨Option.map_eq_some_iff.mpr ⟨r, hr, rfl⟩, Or.inl rfl, (List.append_nil _).symm⟩

/-- Without a receiver nothing but a start does anything, but for a pause dropped. -/
theorem step_idle {s : Session α} {e : Event α} (hnone : s.audio = none)
    (hstart : ∀ cfg opened, e ≠ .start cfg opened) :
    (s.step e).audio = none ∧
      ((s.step e).pausedAudio = s.pausedAudio ∨ (s.step e).pausedAudio.pcm = []) ∧
      (s.step e).submitted = s.submitted := by
  cases e with
  | start cfg opened => exact absurd rfl (hstart cfg opened)
  | startNtp => exact ⟨hnone, Or.inl rfl, rfl⟩
  | suspend | playout around =>
    rw [step]
    rw [hnone]
    exact ⟨hnone, Or.inl rfl, rfl⟩
  | discardPause => exact ⟨Option.map_eq_none_iff.mpr hnone, Or.inr rfl, rfl⟩
  | _ => exact ⟨Option.map_eq_none_iff.mpr hnone, Or.inl rfl, rfl⟩

/-- The pause the session holds after a step: the one before it, an empty one after a
new receiver took it or the track changed, or the one a suspended receiver hands over. -/
theorem step_pausedAudio (s : Session α) (e : Event α) :
    (s.step e).pausedAudio = s.pausedAudio ∨ (s.step e).pausedAudio.pcm = [] ∨
      ∃ r, s.audio = some r ∧ (s.step e).pausedAudio = r.suspend := by
  cases e with
  | start cfg opened | discardPause => exact Or.inr (Or.inl rfl)
  | suspend =>
    rw [step]
    cases haudio : s.audio with
    | none => exact Or.inl rfl
    | some r => exact Or.inr (Or.inr ⟨r, rfl, rfl⟩)
  | playout around =>
    rw [step]
    cases haudio : s.audio with
    | none => exact Or.inl rfl
    | some r => exact Or.inl rfl
  | _ => exact Or.inl rfl

/-- A receiver keeps the configuration it was started with. -/
theorem step_cfg {s : Session α} {e : Event α} {r : AudioReceiver α}
    (hr : (s.step e).audio = some r) :
    (∃ r', s.audio = some r' ∧ r.cfg = r'.cfg) ∨
      ∃ cfg opened, e = .start cfg opened ∧ r.cfg = {cfg with ntp := s.ntp} := by
  rcases step_audio hr with ⟨r', hr', rfl⟩ | ⟨cfg, opened, he, hstart⟩
  · exact Or.inl ⟨r', hr', r'.react_cfg e⟩
  · exact Or.inr ⟨cfg, opened, he, (AudioReceiver.start_started hstart).cfg_eq⟩

end Session

/-! ### Fixed inputs -/

/-- An audio-only stream at 44.1 kHz, as SETUP configures it. -/
def audioOnly : Config where
  dataSock := some 0
  ntp := true
  synchronize := true
  aesKey := List.replicate 16 0
  aesIv := List.replicate 16 0

/-- AES, decoder and device all open. -/
def allOpen : Opened := ⟨true, true, true⟩

/-- The receiver such a stream starts with. -/
def fresh : AudioReceiver α where
  cfg := audioOnly
  rate_pos := by decide
  synchronize := true
  decoder := true
  output := true

namespace Session

/-- A session that opens one. -/
def opening : List (Event α) := [.startNtp, .start audioOnly allOpen]

/-- A session whose current receiver is `r`, nothing submitted yet. -/
def playing (r : AudioReceiver α) : Session α := {ntp := true, audio := some r}

theorem run_opening : machine.run {} (opening : List (Event α)) = playing fresh := rfl

/-- Blocks of a steady stream: chunks of one size, each where the last one ends. -/
def steady (chunk : Chunk α) (n : Nat) : List (PcmFrame α) :=
  (List.range n).map fun i =>
    {rtp := BitVec.ofNat 32 (chunk.samples.length / 2 * i), samples := chunk.samples}

/-- The events that decode them. -/
def steadyEvents (chunk : Chunk α) (n : Nat) : List (Event α) :=
  (List.range n).map fun i => .pcm (BitVec.ofNat 32 (chunk.samples.length / 2 * i)) chunk 0 0

/-- A fresh receiver with the first blocks of a steady stream queued. -/
def steadied (chunk : Chunk α) (n : Nat) : AudioReceiver α :=
  {fresh with
    pcmQueue := steady chunk n
    queuedSamples := (chunk.samples.length * n : Nat)}

/-- A steady stream queues up as long as it fits. -/
theorem run_steady (chunk : Chunk α) (n : Nat) (h : chunk.samples.length * n ≤ 441000) :
    machine.run (playing fresh) (steadyEvents chunk n) = playing (steadied chunk n) := by
  induction n with
  | zero => rfl
  | succ n ih =>
    have hle : chunk.samples.length * n + chunk.samples.length ≤ 441000 := by
      rwa [← Nat.mul_succ]
    unfold steadyEvents at ih ⊢
    rw [List.range_succ, List.map_append, Machine.run_append, ih (by omega)]
    show playing ((steadied chunk n).enqueue _ chunk.samples 0 0) = _
    rw [AudioReceiver.enqueue_plain rfl rfl chunk.nonempty
      (show ((chunk.samples.length * n : Nat) : Int) + chunk.samples.length ≤ 441000 by omega)]
    unfold steadied steady
    rw [List.range_succ, List.map_append, Nat.mul_succ, Int.natCast_add]
    rfl

end Session

/-- Two frames, and the two after them. -/
def lastChunk : Chunk Nat := ⟨[0, 1, 2, 3], by decide, by decide, by decide⟩

def nextChunk : Chunk Nat := ⟨[4, 5, 6, 7], by decide, by decide, by decide⟩

/-- A full pull of the packet thread's buffer: 4096 frames. -/
def fullChunk : Chunk Unit :=
  ⟨List.replicate 8192 (), List.ne_nil_of_length_pos (by rw [List.length_replicate]; decide),
    by rw [List.length_replicate], by rw [List.length_replicate]⟩

end AirPlay.Audio
