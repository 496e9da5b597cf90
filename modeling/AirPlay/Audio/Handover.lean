import AirPlay.Audio.Accounting

/-! A pause carried over to a recreated stream.

The saved tail leaves a suspended receiver in its `PauseState`, waits in the receiver
that is started from it — whatever timestamped FLUSH or resume comes first — and goes
to its queue in front of the first decoded block, once. -/
namespace AirPlay.Audio

variable {α : Type}

/-! ### Who holds a tail -/

namespace AudioReceiver

/-- A saved tail is held by a receiver that preserves and synchronizes, and that has
an NTP client to synchronize with. -/
structure Saving (s : AudioReceiver α) : Prop where
  client : s.synchronize = true → s.cfg.ntp = true
  tail : s.pausedPcm ≠ [] → s.cfg.preservePausedAudio = true ∧ s.synchronize = true

namespace Saving
variable {s : AudioReceiver α}

theorem flush (h : s.Saving) (boundary : Option (BitVec 32)) (now : Int) :
    (s.flush boundary now).Saving := by
  cases boundary with
  | none =>
    rw [flush_none]
    exact ⟨h.client, fun hne => absurd rfl hne⟩
  | some b =>
    rw [flush_some]
    refine ⟨h.client, fun hne => ?_⟩
    simp only at hne
    split at hne
    · exact h.tail hne
    · split at hne
      · rename_i hsaves
        simp only [saves, Bool.and_eq_true] at hsaves
        exact ⟨hsaves.1.1.2, hsaves.1.2⟩
      · exact absurd rfl hne

theorem resume (h : s.Saving) (now : Int) : (s.resume now).Saving := by
  by_cases hr : ∃ back, s.Restores now back
  · obtain ⟨back, hr⟩ := hr
    rw [resume_restores hr]
    exact ⟨h.client, fun hne => absurd rfl hne⟩
  · rw [resume_other (not_exists.mp hr)]
    split
    · exact h
    · exact ⟨h.client, fun hne => absurd rfl hne⟩

theorem setSynchronized (h : s.Saving) (enabled : Bool) : (s.setSynchronized enabled).Saving := by
  unfold AudioReceiver.setSynchronized
  simp only
  split
  · rw [flush_none]
    exact ⟨fun hsync => (Bool.and_eq_true_iff.mp hsync).2, fun hne => absurd rfl hne⟩
  · exact h

/-- What drains follows a saved tail. -/
theorem drains_nil {frame : PcmFrame α} (hnil : s.pausedPcm = []) : s.drains frame = [] := by
  rw [drains]
  split
  · rfl
  · rw [hnil]
    cases s.flushBoundary <;> rfl

theorem enqueue (h : s.Saving) (rtp : BitVec 32) (pcm : List α) (now pending : Int) :
    (s.enqueue rtp pcm now pending).Saving := by
  rw [AudioReceiver.enqueue]
  cases himp : (s.evicted pcm.length).importedPause
  · rw [insert_live _ _ _ _ _ himp]
    refine ⟨h.client, fun hne => h.tail fun hnil => hne ?_⟩
    show s.pausedPcm ++ (s.evicted pcm.length).drains _ = []
    rw [drains_nil (s := s.evicted pcm.length) hnil, hnil]
    rfl
  · rw [insert_imported _ _ _ _ _ himp]
    exact ⟨h.client, fun hne => absurd rfl hne⟩

theorem react (h : s.Saving) (e : Event α) : (s.react e).Saving := by
  cases e with
  | data datagram now =>
    obtain ⟨_, _, _, hframe⟩ := firstPacket_frame datagram now s
    exact (congrArg Saving hframe).mpr ⟨h.client, h.tail⟩
  | control datagram =>
    obtain ⟨_, _, _, _, hframe⟩ := anchor_frame datagram s
    exact (congrArg Saving hframe).mpr ⟨h.client, h.tail⟩
  | pcm rtp chunk now pending => exact h.enqueue rtp chunk.samples now pending
  | flush boundary now => exact h.flush boundary now
  | resume now => exact h.resume now
  | discardPause => exact ⟨h.client, fun hne => absurd rfl hne⟩
  | setSynchronized enabled => exact h.setSynchronized enabled
  | playout around =>
    rcases playout_cases around s with hwait | ⟨front, rest, -, hpop, -⟩
    · exact (congrArg (fun t => Saving t.1) hwait).mpr ⟨h.client, h.tail⟩
    · exact (congrArg Saving hpop).mpr ⟨h.client, h.tail⟩
  | startNtp | start | suspend => exact h

/-- What is left of a tail at a suspend is handed over. -/
theorem suspend (h : s.Saving) (htail : s.pausedPcm ≠ []) :
    s.suspend =
      { pcm := s.pausedPcm
        output := s.output
        sampleRate := s.cfg.sampleRate
        pausedAtNs := s.pausedAtNs
        sourceLeadFrames := s.sourceLeadFrames } := by
  obtain ⟨hpreserve, hsync⟩ := h.tail htail
  exact if_pos (by simp [hpreserve, hsync, htail])

end Saving

end AudioReceiver

namespace Session

/-- Every receiver and every suspended pause has a client behind it. -/
structure Saving (s : Session α) : Prop where
  audio : ∀ r, s.audio = some r → r.Saving ∧ (r.cfg.ntp = true → s.ntp = true)
  paused : s.pausedAudio.pcm ≠ [] → s.ntp = true

theorem step_ntp (s : Session α) (e : Event α) (h : s.ntp = true) : (s.step e).ntp = true := by
  cases e with
  | startNtp => rfl
  | suspend =>
    rw [step]
    cases s.audio <;> exact h
  | playout around =>
    rw [step]
    cases s.audio <;> exact h
  | _ => exact h

theorem saving_step (s : Session α) (e : Event α) (h : s.Saving) : (s.step e).Saving := by
  refine ⟨fun r hr => ?_, fun hne => step_ntp s e ?_⟩
  · rcases step_audio hr with ⟨r', hr', rfl⟩ | ⟨cfg, opened, rfl, hstart⟩
    · obtain ⟨hsaving, hntp⟩ := h.audio r' hr'
      rw [AudioReceiver.react_cfg]
      exact ⟨hsaving.react e, fun hc => step_ntp s e (hntp hc)⟩
    · have hs := AudioReceiver.start_started hstart
      have hcfg : r.cfg.ntp = s.ntp := congrArg Config.ntp hs.cfg_eq
      refine ⟨⟨fun hsync => ?_, fun hne => ?_⟩, fun hc => hcfg ▸ hc⟩
      · rw [hs.synchronize, Bool.and_eq_true] at hsync
        exact hcfg.trans hsync.2
      · rw [hs.pausedPcm] at hne
        split at hne
        · rename_i himports
          simp only [AudioReceiver.takesPause, Bool.and_eq_true] at himports
          rw [hs.cfg_eq, hs.synchronize, Bool.and_eq_true]
          exact ⟨himports.1.1, himports.1.2, h.paused hne⟩
        · exact absurd rfl hne
  · rcases step_pausedAudio s e with hsame | hnone | ⟨r, hr, hsuspend⟩
    · exact h.paused (hsame ▸ hne)
    · rw [hnone] at hne
      exact absurd rfl hne
    · obtain ⟨hsaving, hntp⟩ := h.audio r hr
      rw [hsuspend] at hne
      unfold AudioReceiver.suspend at hne
      split at hne
      · rename_i hcond
        simp only [Bool.and_eq_true] at hcond
        exact hntp (hsaving.client hcond.1.2)
      · exact absurd rfl hne

theorem reachable_saving {s : Session α} (h : machine.Reachable Initial s) : s.Saving := by
  refine h.invariant (fun s hs => ?_) saving_step
  subst hs
  exact ⟨by simp, by simp⟩

end Session

/-! ### The tail that waits -/

/-- What may happen between the start of the recreated stream and its first decoded
block without giving the tail up: FLUSH with a boundary, resume, packets, and turns
of the playout loop. -/
def Event.Waits : Event α → Prop
  | .flush boundary _ => boundary.isSome
  | .resume _ | .data .. | .control _ | .playout _ | .startNtp => True
  | .start .. | .suspend | .pcm .. | .discardPause | .setSynchronized _ => False

namespace AudioReceiver

/-- A receiver that has taken over a tail and has nothing live yet. -/
structure Waiting (tail : List (PcmFrame α)) (pausedAt rate : Int) (s : AudioReceiver α) :
    Prop where
  imported : s.importedPause = true
  tail : s.pausedPcm = tail
  pausedAt : s.pausedAtNs = pausedAt
  queue : s.pcmQueue = []
  counter : s.queuedSamples = 0
  rate : s.cfg.sampleRate = rate

theorem waiting_start {r s : AudioReceiver α} {cfg : Config} {opened : Opened} (h : r.Saving)
    (htail : r.pausedPcm ≠ []) (hrate : cfg.sampleRate = r.cfg.sampleRate)
    (hpreserve : cfg.preservePausedAudio = true) (hsync : cfg.synchronize = true)
    (hstart : start cfg r.suspend opened = some s) :
    Waiting r.pausedPcm r.pausedAtNs cfg.sampleRate s := by
  have hs := start_started hstart
  rw [h.suspend htail] at hs
  have htakes : takesPause cfg
      ({ pcm := r.pausedPcm
         output := r.output
         sampleRate := r.cfg.sampleRate
         pausedAtNs := r.pausedAtNs
         sourceLeadFrames := r.sourceLeadFrames } : PauseState α) = true := by
    simp [takesPause, hpreserve, hsync, hrate]
  refine ⟨?_, ?_, ?_, hs.pcmQueue, hs.queuedSamples, by rw [hs.cfg_eq]⟩
  · rw [hs.importedPause, htakes]
    simpa using htail
  · rw [hs.pausedPcm, htakes]
    rfl
  · rw [hs.pausedAtNs, htakes]
    rfl

namespace Waiting
variable {tail : List (PcmFrame α)} {pausedAt rate : Int} {s : AudioReceiver α}

/-- A FLUSH with a boundary finds nothing live to save and keeps what waits; a resume
leaves the decision to the first block. -/
theorem react (h : Waiting tail pausedAt rate s) {e : Event α} (he : e.Waits) :
    Waiting tail pausedAt rate (s.react e) := by
  cases e with
  | startNtp => exact h
  | flush boundary now =>
    obtain ⟨b, rfl⟩ := Option.isSome_iff_exists.mp he
    unfold AudioReceiver.react
    simp only
    rw [flush_some, h.imported, h.queue, h.counter]
    exact ⟨rfl, h.tail, h.pausedAt, rfl, rfl, h.rate⟩
  | resume now =>
    unfold AudioReceiver.react
    simp only
    rw [resume_other fun back hr => absurd hr.1 (by simp [h.imported]), if_pos h.imported]
    exact h
  | data datagram now =>
    obtain ⟨_, _, _, hframe⟩ := firstPacket_frame datagram now s
    exact (congrArg (Waiting tail pausedAt rate) hframe).mpr
      ⟨h.imported, h.tail, h.pausedAt, h.queue, h.counter, h.rate⟩
  | control datagram =>
    obtain ⟨_, _, _, _, hframe⟩ := anchor_frame datagram s
    exact (congrArg (Waiting tail pausedAt rate) hframe).mpr
      ⟨h.imported, h.tail, h.pausedAt, h.queue, h.counter, h.rate⟩
  | playout around =>
    rcases playout_cases around s with hwait | ⟨front, rest, hq, -, -⟩
    · exact (congrArg (fun t => Waiting tail pausedAt rate t.1) hwait).mpr
        ⟨h.imported, h.tail, h.pausedAt, h.queue, h.counter, h.rate⟩
    · exact absurd (h.queue.symm.trans hq) (by simp)
  | start | suspend | pcm | discardPause | setSynchronized => exact absurd he id

end Waiting

/-! ### The tail that is put back -/

theorem retained_blocks (rate : Int) (shift : BitVec 32) (target : Int)
    (tail : List (PcmFrame α)) :
    (retained rate shift target tail).map (fun f => (f.rtp, f.samples)) =
      tail.map fun f => (f.rtp + shift, f.samples) := by
  induction tail generalizing target with
  | nil => rfl
  | cons f rest ih => simp only [retained, List.map_cons, ih]

theorem retained_head {rate : Int} {shift : BitVec 32} {target : Int}
    {tail : List (PcmFrame α)} {first : PcmFrame α}
    (h : (retained rate shift target tail).head? = some first) : first.localTargetNs = target := by
  cases tail with
  | nil => cases h
  | cons f rest => exact (congrArg PcmFrame.localTargetNs (Option.some.inj h)).symm

/-- Each block is due when the one before it has been played, to the nanosecond below. -/
def Follows (rate : Int) (a b : PcmFrame α) : Prop :=
  b.localTargetNs = a.localTargetNs + (a.samples.length / 2 : Nat) * 1000000000 / rate

theorem retained_follows {rate : Int} (shift : BitVec 32) (target : Int)
    (tail : List (PcmFrame α)) : (retained rate shift target tail).IsChain (Follows rate) := by
  induction tail generalizing target with
  | nil => exact List.IsChain.nil
  | cons f rest ih =>
    cases rest with
    | nil => exact List.IsChain.singleton _
    | cons g rest =>
      refine List.IsChain.cons_cons ?_ (ih _)
      rw [Follows, ← Int.tdiv_eq_ediv_of_nonneg (by omega)]

/-- What the first block puts back of a tail that waits, for `back` its last block. -/
theorem Waiting.imports_eq {tail : List (PcmFrame α)} {pausedAt rate now pending : Int}
    {s : AudioReceiver α} (h : Waiting tail pausedAt rate s) {back : PcmFrame α}
    (hback : tail.getLast? = some back) (hsoon : now - pausedAt < 120000000000)
    (frame : PcmFrame α) :
    s.imports frame now pending =
      retained rate (frame.rtp - back.endRtp) (s.retainedTarget frame now pending) tail := by
  simp only [imports, h.tail, hback, h.pausedAt, h.rate, if_pos hsoon]

/-- The first block: the tail, then what the boundary leaves of the block. -/
theorem Waiting.enqueue_eq {tail : List (PcmFrame α)} {pausedAt rate : Int}
    {s : AudioReceiver α} (h : Waiting tail pausedAt rate s) (rtp : BitVec 32) (pcm : List α)
    (now pending : Int) :
    s.enqueue rtp pcm now pending =
      {s with
        pausedPcm := []
        importedPause := false
        flushBoundary :=
          if (s.fenced {rtp, samples := pcm}).samples.isEmpty then s.flushBoundary else none
        pcmQueue :=
          s.imports {rtp, samples := pcm} now pending ++ s.live {rtp, samples := pcm}
        queuedSamples :=
          total (s.imports {rtp, samples := pcm} now pending) +
            total (s.live {rtp, samples := pcm})} := by
  rw [enqueue, evicted_nil h.queue, insert_imported _ _ _ _ _ h.imported, h.queue, h.counter,
    List.nil_append, Int.zero_add]

/-- A tail put back ends where the block that puts it back starts. -/
theorem retained_end {rate : Int} {rtp : BitVec 32} {target : Int} {tail : List (PcmFrame α)}
    {back : PcmFrame α} (hback : tail.getLast? = some back) :
    ∃ f, (retained rate (rtp - back.endRtp) target tail).getLast? = some f ∧ f.endRtp = rtp := by
  have hlast := congrArg List.getLast? (retained_blocks rate (rtp - back.endRtp) target tail)
  rw [List.getLast?_map, List.getLast?_map, hback] at hlast
  obtain ⟨f, hf, heq⟩ := Option.map_eq_some_iff.mp hlast
  obtain ⟨hrtp, hsamples⟩ := Prod.mk.inj heq
  refine ⟨f, hf, ?_⟩
  rw [PcmFrame.endRtp, hrtp, hsamples, PcmFrame.endRtp]
  bv_omega

/-- A receiver that imports nothing stays one. -/
theorem react_importedPause {s : AudioReceiver α} (h : s.importedPause = false) (e : Event α) :
    (s.react e).importedPause = false := by
  cases e with
  | data datagram now =>
    obtain ⟨_, _, _, hframe⟩ := firstPacket_frame datagram now s
    exact (congrArg importedPause hframe).trans h
  | control datagram =>
    obtain ⟨_, _, _, _, hframe⟩ := anchor_frame datagram s
    exact (congrArg importedPause hframe).trans h
  | pcm rtp chunk now pending =>
    exact (congrArg importedPause
      (insert_live rtp chunk.samples now pending (s.evicted chunk.samples.length) h)).trans h
  | flush boundary now =>
    cases boundary with
    | none => exact congrArg importedPause (flush_none now s)
    | some b => exact (congrArg importedPause (flush_some b now s)).trans h
  | resume now =>
    by_cases hr : ∃ back, s.Restores now back
    · obtain ⟨back, hr⟩ := hr
      exact (congrArg importedPause (resume_restores hr)).trans h
    · refine (congrArg importedPause (resume_other (not_exists.mp hr))).trans ?_
      rw [if_neg (by simp [h])]
      exact h
  | setSynchronized enabled =>
    show (s.setSynchronized enabled).importedPause = false
    unfold setSynchronized
    simp only
    split
    · rw [flush_none]
    · exact h
  | playout around =>
    rcases playout_cases around s with hwait | ⟨front, rest, -, hpop, -⟩
    · exact (congrArg (fun t => t.1.importedPause) hwait).trans h
    · exact (congrArg importedPause hpop).trans h
  | discardPause => rfl
  | startNtp | start | suspend => exact h

end AudioReceiver

namespace Session

/-- Until a receiver is started, none imports again. -/
theorem run_importedPause {es : List (Event α)} {s : Session α}
    (hes : ∀ cfg opened, Event.start cfg opened ∉ es)
    (h : ∀ r, s.audio = some r → r.importedPause = false) :
    ∀ r, (machine.run s es).audio = some r → r.importedPause = false := by
  induction es generalizing s with
  | nil => exact h
  | cons e rest ih =>
    refine ih (fun cfg opened hmem => hes cfg opened (List.mem_cons_of_mem e hmem)) fun r hr => ?_
    rcases step_audio hr with ⟨r', hr', rfl⟩ | ⟨cfg, opened, rfl, -⟩
    · exact AudioReceiver.react_importedPause (h r' hr') e
    · exact absurd List.mem_cons_self (hes cfg opened)

/-- What waits keeps waiting. -/
theorem run_waiting {tail : List (PcmFrame α)} {pausedAt rate : Int} {es : List (Event α)}
    {s : Session α} {t : AudioReceiver α} (hes : ∀ e ∈ es, e.Waits) (ht : s.audio = some t)
    (hw : t.Waiting tail pausedAt rate) :
    ∃ t', (machine.run s es).audio = some t' ∧ t'.Waiting tail pausedAt rate := by
  induction es generalizing s t with
  | nil => exact ⟨t, ht, hw⟩
  | cons e rest ih =>
    have he := hes e List.mem_cons_self
    refine ih (fun e' h => hes e' (List.mem_cons_of_mem e h)) (step_reacts ht ?_ ?_).1 (hw.react he)
    · rintro rfl
      exact he
    · rintro cfg opened rfl
      exact he

/-- A receiver that holds a tail is suspended, and the one that replaces it waits with
that tail. -/
theorem run_recreated_waits {s : Session α} (hs : machine.Reachable Initial s)
    {r : AudioReceiver α} (hr : s.audio = some r) (htail : r.pausedPcm ≠ []) {cfg : Config}
    {opened : Opened} (hrate : cfg.sampleRate = r.cfg.sampleRate)
    (hpreserve : cfg.preservePausedAudio = true) (hsync : cfg.synchronize = true)
    (hstart : (machine.run s [.suspend, .start cfg opened]).audio ≠ none)
    {waiting : List (Event α)} (hwaiting : ∀ e ∈ waiting, e.Waits) :
    ∃ t, (machine.run s ([.suspend, .start cfg opened] ++ waiting)).audio = some t ∧
      t.Waiting r.pausedPcm r.pausedAtNs cfg.sampleRate := by
  obtain ⟨t, ht⟩ := Option.ne_none_iff_exists'.mp hstart
  have hsuspend : s.step .suspend = {s with audio := none, pausedAudio := r.suspend} := by
    rw [step]
    rw [hr]
  have hstarted : AudioReceiver.start {cfg with ntp := s.ntp} r.suspend opened = some t := by
    rw [← ht]
    show _ = ((s.step .suspend).step (.start cfg opened)).audio
    rw [hsuspend]
    rfl
  rw [Machine.run_append]
  exact run_waiting hwaiting ht (@AudioReceiver.waiting_start α r t {cfg with ntp := s.ntp} opened
    ((reachable_saving hs).audio r hr).1 htail hrate hpreserve hsync hstarted)

end Session

/-- **A pause survives the recreation of its stream, once.** A receiver of any run that
holds a tail is suspended and replaced by one of the same rate that preserves and
synchronizes; FLUSH with a boundary, resume, packets and playout turns may follow.
The first decoded block, less than 120 s after the pause, then finds the whole tail
put in front of it: the samples as they were, the stamps moved by one shift so that
the last block ends where the first decoded one starts, due from no earlier than now
and each when the one before it has been played; and no later block imports again. -/
theorem pause_handed_over (s : Session α) (hs : Session.machine.Reachable Session.Initial s)
    (r : AudioReceiver α) (hr : s.audio = some r) (htail : r.pausedPcm ≠ [])
    (cfg : Config) (opened : Opened) (hrate : cfg.sampleRate = r.cfg.sampleRate)
    (hpreserve : cfg.preservePausedAudio = true) (hsync : cfg.synchronize = true)
    (hstart : (Session.machine.run s [.suspend, .start cfg opened]).audio ≠ none)
    (waiting : List (Event α)) (hwaiting : ∀ e ∈ waiting, e.Waits)
    (rtp : BitVec 32) (chunk : Chunk α) (now pending : Int)
    (hsoon : now - r.pausedAtNs < 120000000000) :
    ∃ t u restored shift,
      let before := Session.machine.run s ([.suspend, .start cfg opened] ++ waiting)
      let after := Session.machine.run before [.pcm rtp chunk now pending]
      before.audio = some t ∧ after.audio = some u ∧
      u.pcmQueue = restored ++ t.live {rtp, samples := chunk.samples} ∧
      restored.map (fun f => (f.rtp, f.samples)) =
        r.pausedPcm.map (fun f => (f.rtp + shift, f.samples)) ∧
      (∃ back, restored.getLast? = some back ∧ back.endRtp = rtp) ∧
      (∀ first, restored.head? = some first → now ≤ first.localTargetNs) ∧
      restored.IsChain (AudioReceiver.Follows cfg.sampleRate) ∧
      u.queuedSamples = total restored + total (t.live {rtp, samples := chunk.samples}) ∧
      ∀ later : List (Event α), (∀ cfg opened, Event.start cfg opened ∉ later) →
        ∀ v, (Session.machine.run after later).audio = some v →
          ∀ frame now pending, v.importPause frame now pending = v := by
  obtain ⟨t, ht, hw⟩ :=
    Session.run_recreated_waits hs hr htail hrate hpreserve hsync hstart hwaiting
  obtain ⟨back, hback⟩ : ∃ back, r.pausedPcm.getLast? = some back :=
    ⟨_, List.getLast?_eq_some_getLast htail⟩
  have himports : t.imports {rtp, samples := chunk.samples} now pending = _ :=
    hw.imports_eq hback hsoon _
  have henqueue := hw.enqueue_eq rtp chunk.samples now pending
  have hafter : (Session.machine.run
      (Session.machine.run s ([.suspend, .start cfg opened] ++ waiting))
      [.pcm rtp chunk now pending]).audio = some (t.enqueue rtp chunk.samples now pending) :=
    (Session.step_reacts (e := .pcm rtp chunk now pending) ht (by simp) (by simp)).1
  refine ⟨t, _, _, rtp - back.endRtp, ht, hafter, by rw [henqueue], ?_, ?_, ?_, ?_,
    by rw [henqueue], ?_⟩
  · rw [himports]
    exact AudioReceiver.retained_blocks _ _ _ _
  · rw [himports]
    exact AudioReceiver.retained_end hback
  · intro first hfirst
    rw [himports] at hfirst
    exact AudioReceiver.retained_head hfirst ▸ Int.le_max_left _ _
  · rw [himports]
    exact AudioReceiver.retained_follows _ _ _
  · intro later hlater v hv frame' now' pending'
    have hnone := Session.run_importedPause hlater (fun u hu => ?_) v hv
    · exact if_pos (by simp [hnone])
    · obtain rfl := Option.some.inj (hafter.symm.trans hu)
      rw [henqueue]

/-! ### Fixed inputs -/

/-- A stream is paused with its last two frames queued. -/
def paused : List (Event Nat) :=
  Session.opening ++ [.pcm 0xffffffff lastChunk 0 0, .flush (some 1) 7]

/-- The recreated stream, with a FLUSH and a resume before its first block. -/
theorem pause_handed_over_paused :
    ∃ t u restored shift,
      let before := Session.machine.run (Session.machine.run {} paused)
        ([.suspend, .start audioOnly allOpen] ++ [.flush (some 9) 8, .resume 9])
      let after := Session.machine.run before [.pcm 100 nextChunk 10 0]
      before.audio = some t ∧ after.audio = some u ∧
      u.pcmQueue = restored ++ t.live {rtp := 100, samples := nextChunk.samples} ∧
      restored.map (fun f => (f.rtp, f.samples)) =
        [(0xffffffff, [0, 1, 2, 3])].map (fun f => (f.1 + shift, f.2)) ∧
      (∃ back, restored.getLast? = some back ∧ back.endRtp = 100) ∧
      (∀ first, restored.head? = some first → 10 ≤ first.localTargetNs) ∧
      restored.IsChain (AudioReceiver.Follows 44100) ∧
      u.queuedSamples = total restored +
        total (t.live {rtp := 100, samples := nextChunk.samples}) ∧
      ∀ later : List (Event Nat), (∀ cfg opened, Event.start cfg opened ∉ later) →
        ∀ v, (Session.machine.run after later).audio = some v →
          ∀ frame now pending, v.importPause frame now pending = v :=
  pause_handed_over _ ⟨{}, paused, rfl, rfl⟩ _ rfl (by decide) audioOnly allOpen rfl rfl rfl
    (by decide) [.flush (some 9) 8, .resume 9] (by simp [Event.Waits]) 100 nextChunk 10 0
    (by decide)

end AirPlay.Audio
