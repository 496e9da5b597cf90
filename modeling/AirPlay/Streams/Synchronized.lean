import AirPlay.Streams.Session

/-! Audio next to a mirror.

The audio of a mirrored video plays as it comes; audio alone is synchronized. A session
tells its receiver whenever a mirror starts or stops. -/
namespace AirPlay.Streams

/-- A SETUP of a stream or the end of one. -/
def Event.ofStreams : Event → Bool
  | .setupStream .. => true
  | .stopStream _ => true
  | _ => false

namespace StreamSession

/-- A live receiver is synchronized exactly when no mirror is live. -/
def Coupled (s : StreamSession) : Prop :=
  ∀ r, s.audio = some r → (r.synchronize = true ↔ s.mirror = false)

/-- A mirror whose listener does not start takes the place of none, or there is no audio. -/
def ReplacesNone (s : StreamSession) : Event → Prop
  | .setupStream type _ listener _ _ _ =>
    type = 110 → listener = none → s.mirror = true → s.audio = none
  | _ => True

/-- The NTP client is there, and the receiver has it. -/
structure Timed (s : StreamSession) : Prop where
  ntp : s.ntp = true
  receiver : ∀ r, s.audio = some r → r.ntp = true

section Streams
variable {s : StreamSession}

theorem setupMirror_timed (listener : Option UInt16) (h : s.Timed) :
    (s.setupMirror listener).2.Timed := by
  cases listener with
  | none => exact ⟨h.ntp, h.receiver⟩
  | some port =>
    refine ⟨h.ntp, fun r hr => ?_⟩
    obtain ⟨r₀, hr₀, rfl⟩ := Option.map_eq_some_iff.mp hr
    exact h.receiver r₀ hr₀

/-- A listener that does not start leaves no mirror, and the audio as it was. -/
theorem setupMirror_coupled (listener : Option UInt16) (h : s.Coupled) :
    (s.setupMirror listener).2.Coupled ↔ (listener = none → s.mirror = true → s.audio = none) := by
  cases listener with
  | some port =>
    refine iff_of_true (fun r hr => ?_) fun hnone => nomatch hnone
    obtain ⟨r₀, -, rfl⟩ := Option.map_eq_some_iff.mp hr
    exact iff_of_false (fun hsync => nomatch hsync) fun hmirror => nomatch hmirror
  | none =>
    constructor
    · intro hafter _ hmirror
      cases hr : s.audio with
      | none => rfl
      | some r =>
        have hsync : r.synchronize = true := (hafter r hr).mpr rfl
        have hfalse := (h r hr).mp hsync
        exact nomatch hmirror.symm.trans hfalse
    · intro hreplaces r hr
      refine iff_of_true ((h r hr).mpr ?_) rfl
      cases hmirror : s.mirror with
      | false => rfl
      | true => exact nomatch (hreplaces rfl hmirror).symm.trans hr

theorem startAudio_timed (dSock : Nat) (opts : StreamOpts) (aes : Bool) (h : s.Timed) :
    (s.startAudio dSock opts aes).Timed := by
  rw [startAudio]
  split
  · exact ⟨h.ntp, fun r hr => nomatch hr⟩
  · rename_i r hstart
    refine ⟨h.ntp, fun r' hr' => ?_⟩
    obtain rfl := Option.some.inj hr'
    exact (Receiver.start_some hstart).2.1.trans h.ntp

/-- A receiver that has been started knows whether there is a mirror. -/
theorem startAudio_coupled (dSock : Nat) (opts : StreamOpts) (aes : Bool) (h : s.Timed) :
    (s.startAudio dSock opts aes).Coupled := by
  rw [startAudio]
  split
  · exact fun r hr => nomatch hr
  · rename_i r hstart
    intro r' hr'
    obtain rfl := Option.some.inj hr'
    have hntp : s.dropAudio.ntp = true := h.ntp
    rw [(Receiver.start_some hstart).2.2, hntp, Bool.and_true, Bool.not_eq_true']

/-- A stream of UDP sockets leaves the audio alone or starts it anew. -/
theorem setupUdp_audio (type : Int) (opts : StreamOpts) (data control : Option UInt16)
    (aes : Bool) (s : StreamSession) :
    let s' := (s.setupUdp type opts data control aes).2
    (s'.audio = s.audio ∧ s'.mirror = s.mirror ∧ s'.ntp = s.ntp) ∨
      ∃ dSock sockets,
        let started := ({s with sockets} : StreamSession).startAudio dSock opts aes
        s'.audio = started.audio ∧ s'.mirror = started.mirror ∧ s'.ntp = started.ntp := by
  rw [setupUdp]
  cases data with
  | none => exact .inl ⟨rfl, rfl, rfl⟩
  | some dPort =>
    cases control with
    | none => exact .inl ⟨rfl, rfl, rfl⟩
    | some cPort =>
      simp only [bindUdp_some]
      split
      · exact .inr ⟨s.sockets.issued, s.sockets.issue.issue, rfl, rfl, rfl⟩
      · exact .inl ⟨rfl, rfl, rfl⟩

theorem Timed.of_eq {s' : StreamSession} (h : s.Timed) (haudio : s'.audio = s.audio)
    (hntp : s'.ntp = s.ntp) : s'.Timed :=
  ⟨hntp.trans h.ntp, haudio ▸ h.receiver⟩

theorem Coupled.of_eq {s' : StreamSession} (h : s.Coupled) (haudio : s'.audio = s.audio)
    (hmirror : s'.mirror = s.mirror) : s'.Coupled := by
  rw [Coupled, haudio, hmirror]
  exact h

theorem setupUdp_timed (type : Int) (opts : StreamOpts) (data control : Option UInt16)
    (aes : Bool) (h : s.Timed) : (s.setupUdp type opts data control aes).2.Timed := by
  rcases setupUdp_audio type opts data control aes s with
    ⟨haudio, -, hntp⟩ | ⟨dSock, sockets, haudio, -, hntp⟩
  · exact h.of_eq haudio hntp
  · have hstarted := @startAudio_timed {s with sockets} dSock opts aes ⟨h.ntp, h.receiver⟩
    exact hstarted.of_eq haudio hntp

theorem setupUdp_coupled (type : Int) (opts : StreamOpts) (data control : Option UInt16)
    (aes : Bool) (ht : s.Timed) (h : s.Coupled) :
    (s.setupUdp type opts data control aes).2.Coupled := by
  rcases setupUdp_audio type opts data control aes s with
    ⟨haudio, hmirror, -⟩ | ⟨dSock, sockets, haudio, hmirror, -⟩
  · exact h.of_eq haudio hmirror
  · have hstarted := @startAudio_coupled {s with sockets} dSock opts aes ⟨ht.ntp, ht.receiver⟩
    exact hstarted.of_eq haudio hmirror

/-- A stream that ends: the receiver is told of a mirror's end, or it is gone, or neither. -/
theorem stopStream_audio (type : Int) (s : StreamSession) :
    let s' := s.stopStream type
    s'.ntp = s.ntp ∧
      (s'.audio = none ∨ (s'.audio = s.audio ∧ s'.mirror = s.mirror) ∨
        (s'.audio = s.audio.map (Receiver.setSynchronized true) ∧ s'.mirror = false)) := by
  rw [stopStream]
  by_cases haudio : type = 96
  · subst haudio
    exact ⟨rfl, .inl rfl⟩
  rw [if_neg haudio]
  split
  · exact ⟨rfl, .inr (.inr ⟨rfl, rfl⟩)⟩
  · exact ⟨rfl, .inr (.inl ⟨rfl, rfl⟩)⟩

theorem stopStream_timed (type : Int) (h : s.Timed) : (s.stopStream type).Timed := by
  obtain ⟨hntp, hgone | ⟨haudio, -⟩ | ⟨haudio, -⟩⟩ := stopStream_audio type s
  · exact ⟨hntp.trans h.ntp, fun r hr => nomatch hgone.symm.trans hr⟩
  · exact h.of_eq haudio hntp
  · refine ⟨hntp.trans h.ntp, fun r hr => ?_⟩
    obtain ⟨r₀, hr₀, rfl⟩ := Option.map_eq_some_iff.mp (haudio.symm.trans hr)
    exact h.receiver r₀ hr₀

theorem stopStream_coupled (type : Int) (ht : s.Timed) (h : s.Coupled) :
    (s.stopStream type).Coupled := by
  obtain ⟨-, hgone | ⟨haudio, hmirror⟩ | ⟨haudio, hmirror⟩⟩ := stopStream_audio type s
  · exact fun r hr => nomatch hgone.symm.trans hr
  · exact h.of_eq haudio hmirror
  · intro r hr
    obtain ⟨r₀, hr₀, rfl⟩ := Option.map_eq_some_iff.mp (haudio.symm.trans hr)
    have hsync : (r₀.setSynchronized true).synchronize = true := ht.receiver r₀ hr₀
    exact iff_of_true hsync hmirror

end Streams

theorem timed_step (s : StreamSession) (e : Event) (h : s.Timed) (he : e.ofStreams = true) :
    (machine.step s e).Timed := by
  cases e with
  | setupStream type opts listener data control aes =>
    show (s.setupStream type opts listener data control aes).2.Timed
    rw [setupStream]
    split
    · exact setupMirror_timed listener h
    · exact setupUdp_timed type opts data control aes h
  | stopStream type => exact stopStream_timed type h
  | _ => exact nomatch he

theorem coupled_step (s : StreamSession) (e : Event) (ht : s.Timed) (he : e.ofStreams = true)
    (h : s.Coupled) : (machine.step s e).Coupled ↔ s.ReplacesNone e := by
  cases e with
  | setupStream type opts listener data control aes =>
    show (s.setupStream type opts listener data control aes).2.Coupled ↔ (type = 110 → _)
    rw [setupStream]
    split
    · rename_i htype
      rw [setupMirror_coupled listener h]
      exact ⟨fun hr _ => hr, fun hr => hr htype⟩
    · rename_i htype
      exact iff_of_true (setupUdp_coupled type opts data control aes ht h) fun h110 =>
        absurd h110 htype
  | stopStream type => exact iff_of_true (stopStream_coupled type ht h) trivial
  | _ => exact nomatch he

/-- A session with an NTP client and no audio yet: through any streams that are set up and
stopped, its audio is synchronized exactly when no mirror is live, exactly when no
mirror that is replaced while audio plays is replaced by one that does not start. -/
theorem coupled_iff {s : StreamSession} (hntp : s.ntp = true) (haudio : s.audio = none)
    (es : List Event) (hes : ∀ e ∈ es, e.ofStreams = true) :
    machine.Always Coupled s es ↔ machine.Meets ReplacesNone s es := by
  have hnone : ∀ r, s.audio ≠ some r := fun r hr => nomatch haudio.symm.trans hr
  exact Machine.always_iff_meets timed_step coupled_step
    ⟨hntp, fun r hr => absurd hr (hnone r)⟩ (fun r hr => absurd hr (hnone r))
    (Machine.meets_forall.mpr hes)

/-- The first SETUP of a session, and its NTP client. -/
def timedSession : StreamSession :=
  machine.run {} [.setupSession (some 7010) (some 7011), .startNtp true]

/-- Audio, then a mirror, set up. -/
def audioAndMirror : List Event :=
  [.setupStream 96 {} none (some 7012) (some 7013) true,
    .setupStream 110 {} (some 7014) none none true]

/-- Nothing is replaced: the mirror is set up next to the audio, and stopped. -/
theorem coupled_iff_stops :
    machine.Always Coupled timedSession (audioAndMirror ++ [.stopStream 110]) :=
  (coupled_iff rfl rfl _ (by decide)).mpr ⟨fun h => absurd h (by decide),
    fun _ hnone => absurd hnone (Option.some_ne_none _), trivial, trivial⟩

/-- The mirror is set up again and its listener does not start: the audio stays
unsynchronized without a mirror. -/
theorem replaced_mirror_uncouples :
    let replaced := audioAndMirror ++ [.setupStream 110 {} none none none true]
    ¬ machine.Always Coupled timedSession replaced ∧
      (machine.run timedSession replaced).audio.map (·.synchronize) = some false ∧
      (machine.run timedSession replaced).mirror = false := by
  refine ⟨fun h => ?_, rfl, rfl⟩
  have hlast := Machine.always_iff_prefix.mp h _ (List.prefix_refl _)
  exact nomatch (hlast ⟨2, true, false⟩ rfl).mpr rfl

end StreamSession

end AirPlay.Streams
