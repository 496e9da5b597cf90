import AirPlay.Audio.Session

/-! Queue accounting and the five-second bound.

`queued_samples_` is kept beside the queue by every function that changes it. It
always equals what the queue holds, so no subtraction from the unsigned counter
wraps, and no block of the queue or of the saved tail is empty or cuts a stereo
frame in two (`queue_accounted`).

The same counter is what the five-second cap compares with. The cap evicts before
a block is appended and nowhere else: a resume splices the saved tail in and a
recreated stream's first block follows the imported one, and neither evicts.
`always_bounded_iff` says exactly which steps carry a queue past the cap. -/
namespace AirPlay.Audio

variable {α : Type}

/-! ### Blocks that keep their samples -/

theorem total_of_samples {a b : List (PcmFrame α)}
    (h : a.map PcmFrame.samples = b.map PcmFrame.samples) : total a = total b := by
  have hlen : ∀ q : List (PcmFrame α), total q = ((q.map PcmFrame.samples).map List.length).sum :=
    fun q => by rw [total, List.map_map]; rfl
  rw [hlen, hlen, h]

theorem stereo_of_samples {a b : List (PcmFrame α)}
    (h : a.map PcmFrame.samples = b.map PcmFrame.samples) (hb : ∀ f ∈ b, f.Stereo) :
    ∀ f ∈ a, f.Stereo := by
  intro f hf
  have hmem : f.samples ∈ b.map PcmFrame.samples := h ▸ List.mem_map_of_mem hf
  obtain ⟨g, hg, hfg⟩ := List.mem_map.mp hmem
  have hstereo := hb g hg
  unfold PcmFrame.Stereo at hstereo ⊢
  rw [← hfg]
  exact hstereo

theorem removed_le (b : BitVec 32) (queue : List (PcmFrame α)) :
    (queue.map (PcmFrame.removed b)).sum ≤ total queue := by
  induction queue with
  | nil => exact Nat.le_refl _
  | cons f rest ih =>
    have := trim_length b f
    simp only [List.map_cons, List.sum_cons, total_cons]
    omega

theorem total_prefix_le {pre queue : List (PcmFrame α)} (h : pre <+: queue) :
    total pre ≤ total queue := by
  obtain ⟨rest, rfl⟩ := h
  rw [total_append]
  omega

namespace AudioReceiver

theorem retained_samples (rate : Int) (shift : BitVec 32) (target : Int)
    (tail : List (PcmFrame α)) :
    (retained rate shift target tail).map PcmFrame.samples = tail.map PcmFrame.samples := by
  induction tail generalizing target with
  | nil => rfl
  | cons f rest ih => simp only [retained, List.map_cons, ih]

theorem shifted_samples (shift : BitVec 32) (tail : List (PcmFrame α)) :
    (tail.map (shifted shift)).map PcmFrame.samples = tail.map PcmFrame.samples := by
  rw [List.map_map]
  rfl

theorem imports_samples (frame : PcmFrame α) (now pending : Int) (s : AudioReceiver α) :
    s.imports frame now pending = [] ∨
      (s.imports frame now pending).map PcmFrame.samples = s.pausedPcm.map PcmFrame.samples := by
  rw [imports]
  split
  · split
    · exact Or.inr (retained_samples _ _ _ _)
    · exact Or.inl rfl
  · exact Or.inl rfl

/-- Nothing is put back two minutes after the pause. -/
theorem imports_late {frame : PcmFrame α} {now pending : Int} {s : AudioReceiver α}
    (h : ¬ now - s.pausedAtNs < 120000000000) : s.imports frame now pending = [] := by
  rw [imports]
  split
  · exact if_neg h
  · rfl

/-! ### Accounting -/

/-- The counter is what the queue holds; queue and tail hold stereo blocks. -/
structure Accounted (s : AudioReceiver α) : Prop where
  counter : s.queuedSamples = total s.pcmQueue
  queue : ∀ f ∈ s.pcmQueue, f.Stereo
  tail : ∀ f ∈ s.pausedPcm, f.Stereo
  /-- Nothing is live yet while an imported tail waits for the first block. -/
  imported : s.importedPause = true → s.pcmQueue = []

namespace Accounted
variable {s : AudioReceiver α}

theorem flush (h : s.Accounted) (boundary : Option (BitVec 32)) (now : Int) :
    (s.flush boundary now).Accounted := by
  cases boundary with
  | none =>
    rw [flush_none]
    exact ⟨rfl, by simp, by simp, fun _ => rfl⟩
  | some b =>
    rw [flush_some]
    refine ⟨?_, trimQueue_stereo b _ h.queue, ?_, fun himp => ?_⟩
    · show s.queuedSamples - (total s.pcmQueue - total (trimQueue b s.pcmQueue) : Int) =
        total (trimQueue b s.pcmQueue)
      rw [h.counter]
      omega
    · show ∀ f ∈ (if s.importedPause then s.pausedPcm else if s.saves then s.pcmQueue else []),
        f.Stereo
      split
      · exact h.tail
      · split
        · exact h.queue
        · simp
    · show trimQueue b s.pcmQueue = []
      rw [h.imported himp]
      rfl

theorem resume (h : s.Accounted) (now : Int) : (s.resume now).Accounted := by
  by_cases hr : ∃ back, s.Restores now back
  · obtain ⟨back, hr⟩ := hr
    rw [resume_restores hr]
    refine ⟨rfl, ?_, by simp, fun himp => absurd himp (by simp [hr.1])⟩
    intro f hf
    rcases List.mem_append.mp hf with hf | hf
    · exact stereo_of_samples (shifted_samples _ _) h.tail f hf
    · exact trimQueue_stereo _ _ h.queue f hf
  · rw [resume_other (not_exists.mp hr)]
    split
    · exact h
    · exact ⟨h.counter, h.queue, by simp, h.imported⟩

theorem discardPause (h : s.Accounted) : s.discardPause.Accounted :=
  ⟨h.counter, h.queue, by simp [AudioReceiver.discardPause], fun himp => nomatch himp⟩

theorem setSynchronized (h : s.Accounted) (enabled : Bool) :
    (s.setSynchronized enabled).Accounted := by
  unfold AudioReceiver.setSynchronized
  simp only
  split
  · exact flush (s := {s with synchronize := enabled && s.cfg.ntp})
      ⟨h.counter, h.queue, h.tail, h.imported⟩ _ _
  · exact h

theorem anchor (h : s.Accounted) (datagram : List UInt8) : (s.anchor datagram).Accounted := by
  obtain ⟨_, _, _, _, hframe⟩ := anchor_frame datagram s
  rw [hframe]
  exact ⟨h.counter, h.queue, h.tail, h.imported⟩

theorem firstPacket (h : s.Accounted) (datagram : List UInt8) (now : Int) :
    (s.firstPacket datagram now).Accounted := by
  obtain ⟨_, _, _, hframe⟩ := firstPacket_frame datagram now s
  rw [hframe]
  exact ⟨h.counter, h.queue, h.tail, h.imported⟩

theorem evicted (h : s.Accounted) (size : Nat) : (s.evicted size).Accounted := by
  obtain ⟨dropped, hq, hn, -⟩ := evict_cases s.limit size s.pcmQueue s.queuedSamples
  refine ⟨?_, fun f hf => h.queue f ?_, h.tail, fun himp => ?_⟩
  · show (evict s.limit size s.pcmQueue s.queuedSamples).2 =
      total (evict s.limit size s.pcmQueue s.queuedSamples).1
    have htotal := congrArg total hq
    have hcounter := h.counter
    rw [total_append] at htotal
    omega
  · rw [hq]
    exact List.mem_append_right _ hf
  · show (evict s.limit size s.pcmQueue s.queuedSamples).1 = []
    rw [h.imported himp]
    rfl

theorem live_stereo (chunk : Chunk α) (rtp : BitVec 32) :
    ∀ f ∈ s.live {rtp, samples := chunk.samples}, f.Stereo := by
  intro f hf
  unfold AudioReceiver.live at hf
  split at hf
  · cases hf
  · rename_i hne
    obtain rfl := List.mem_singleton.mp hf
    exact ⟨by simpa using hne, fenced_even _ s chunk.stereo⟩

theorem drains_stereo (chunk : Chunk α) (rtp : BitVec 32) :
    ∀ f ∈ s.drains {rtp, samples := chunk.samples}, f.Stereo := by
  intro f hf
  unfold AudioReceiver.drains at hf
  split at hf
  · cases hf
  · split at hf
    · rename_i boundary back _ _
      rcases drained_cases s.cfg.sampleRate boundary back.endRtp
        {rtp, samples := chunk.samples} chunk.stereo with hnone | ⟨k, hk, -, -, hne, hsome⟩
      · rw [hnone] at hf
        cases hf
      · rw [hsome] at hf
        obtain rfl := List.mem_singleton.mp hf
        have heven := chunk.stereo
        refine ⟨hne, ?_⟩
        simp only [List.length_take, List.length_drop]
        omega
    · cases hf

theorem insert (h : s.Accounted) (rtp : BitVec 32) (chunk : Chunk α) (now pending : Int) :
    (s.insert rtp chunk.samples now pending).Accounted := by
  cases himp : s.importedPause
  · rw [insert_live _ _ _ _ _ himp]
    refine ⟨?_, ?_, ?_, fun h' => absurd h' (by simp [himp])⟩
    · show s.queuedSamples + _ = _
      rw [h.counter, total_append]
      omega
    · exact List.forall_mem_append.mpr ⟨h.queue, live_stereo chunk rtp⟩
    · exact List.forall_mem_append.mpr ⟨h.tail, drains_stereo chunk rtp⟩
  · rw [insert_imported _ _ _ _ _ himp]
    have himports : ∀ f ∈ s.imports {rtp, samples := chunk.samples} now pending, f.Stereo := by
      rcases imports_samples {rtp, samples := chunk.samples} now pending s with hnone | hsame
      · rw [hnone]
        simp
      · exact stereo_of_samples hsame h.tail
    refine ⟨?_, ?_, by simp, fun h' => nomatch h'⟩
    · show s.queuedSamples + _ + _ = _
      rw [h.counter, total_append, total_append]
      omega
    · exact List.forall_mem_append.mpr
        ⟨List.forall_mem_append.mpr ⟨h.queue, himports⟩, live_stereo chunk rtp⟩

theorem enqueue (h : s.Accounted) (rtp : BitVec 32) (chunk : Chunk α) (now pending : Int) :
    (s.enqueue rtp chunk.samples now pending).Accounted :=
  (h.evicted _).insert rtp chunk now pending

theorem playout (h : s.Accounted) (around : Surroundings) : (s.playout around).1.Accounted := by
  rcases playout_cases around s with hwait | ⟨front, rest, hq, hpop, -⟩
  · rw [hwait]
    exact ⟨h.counter, h.queue, h.tail, h.imported⟩
  · rw [hpop]
    have hcounter := h.counter
    rw [hq, total_cons] at hcounter
    refine ⟨?_, fun f hf => h.queue f ?_, h.tail, fun himp => ?_⟩
    · show s.queuedSamples - front.samples.length = (total rest : Int)
      omega
    · rw [hq]
      exact List.mem_cons_of_mem _ hf
    · exact absurd (h.imported himp) (by simp [hq])

theorem start {cfg : Config} {state : PauseState α} {opened : Opened}
    (hstate : ∀ f ∈ state.pcm, f.Stereo) (h : AudioReceiver.start cfg state opened = some s) :
    s.Accounted := by
  have hs := start_started h
  refine ⟨?_, ?_, ?_, fun _ => hs.pcmQueue⟩
  · rw [hs.queuedSamples, hs.pcmQueue]
    rfl
  · rw [hs.pcmQueue]
    simp
  · rw [hs.pausedPcm]
    split
    · exact hstate
    · simp

theorem suspend (h : s.Accounted) : ∀ f ∈ s.suspend.pcm, f.Stereo := by
  rw [AudioReceiver.suspend]
  split
  · exact h.tail
  · simp

theorem react (h : s.Accounted) (e : Event α) : (s.react e).Accounted := by
  cases e with
  | data datagram now => exact h.firstPacket datagram now
  | control datagram => exact h.anchor datagram
  | pcm rtp chunk now pending => exact h.enqueue rtp chunk now pending
  | flush boundary now => exact h.flush boundary now
  | resume now => exact h.resume now
  | discardPause => exact h.discardPause
  | setSynchronized enabled => exact h.setSynchronized enabled
  | playout around => exact h.playout around
  | startNtp | start | suspend => exact h

end Accounted

end AudioReceiver

/-! ### Every run of a session -/

namespace Session

/-- Every receiver of the session is accounted, and what it hands over is stereo. -/
structure Accounted (s : Session α) : Prop where
  audio : ∀ r, s.audio = some r → r.Accounted
  paused : ∀ f ∈ s.pausedAudio.pcm, f.Stereo

theorem accounted_step (s : Session α) (e : Event α) (h : s.Accounted) : (s.step e).Accounted := by
  refine ⟨fun r hr => ?_, fun f hf => ?_⟩
  · rcases step_audio hr with ⟨r', hr', rfl⟩ | ⟨cfg, opened, -, hstart⟩
    · exact (h.audio r' hr').react e
    · exact AudioReceiver.Accounted.start h.paused hstart
  · rcases step_pausedAudio s e with hsame | hnone | ⟨r, hr, hsuspend⟩
    · exact h.paused f (hsame ▸ hf)
    · rw [hnone] at hf
      cases hf
    · exact (h.audio r hr).suspend f (hsuspend ▸ hf)

theorem accounted_initial (s : Session α) (h : Initial s) : s.Accounted := by
  subst h
  exact ⟨by simp, by simp⟩

theorem reachable_accounted {s : Session α} (h : machine.Reachable Initial s) : s.Accounted :=
  h.invariant accounted_initial accounted_step

end Session

/-- In every receiver a session can have, the counter is the sum of the queued
blocks' sizes, and every block of the queue and of the saved tail is non-empty and
even. No subtraction goes below zero: eviction and playout take off the sizes of a
front part of the queue, a FLUSH what it trims from one. -/
theorem queue_accounted (r : AudioReceiver α) (h : Session.Holds r) :
    r.queuedSamples = total r.pcmQueue ∧
      (∀ pre, pre <+: r.pcmQueue → (total pre : Int) ≤ r.queuedSamples ∧
        ∀ b, ((pre.map (PcmFrame.removed b)).sum : Int) ≤ r.queuedSamples) ∧
      (∀ f ∈ r.pcmQueue, f.samples ≠ [] ∧ f.samples.length % 2 = 0) ∧
      ∀ f ∈ r.pausedPcm, f.samples ≠ [] ∧ f.samples.length % 2 = 0 := by
  obtain ⟨s, hs, hr⟩ := h
  have hacc := (Session.reachable_accounted hs).audio r hr
  refine ⟨hacc.counter, fun pre hpre => ?_, hacc.queue, hacc.tail⟩
  have htotal := total_prefix_le hpre
  rw [hacc.counter]
  refine ⟨Int.ofNat_le.mpr htotal, fun b => ?_⟩
  exact Int.ofNat_le.mpr (Nat.le_trans (removed_le b pre) htotal)

namespace Session

/-- A stream at 8 Hz, of which 80 samples are five seconds. -/
def slow : Config where
  dataSock := some 0
  ntp := true
  synchronize := true
  aesKey := List.replicate 16 0
  aesIv := List.replicate 16 0
  sampleRate := 8

/-- Two seconds of it. -/
def slowChunk : Chunk Unit := ⟨List.replicate 32 (), by decide, by decide, by decide⟩

/-- The third block evicts the first, a FLUSH cuts the third, a resume puts the second and the
third back a second later, and the next block evicts the second. -/
def interrupted : List (Event Unit) :=
  [.startNtp, .start slow allOpen, .pcm 0 slowChunk 0 0, .pcm 16 slowChunk 0 0,
    .pcm 32 slowChunk 0 0, .flush (some 40) 1, .resume 1000000001, .pcm 56 slowChunk 1000000002 0]

end Session

theorem queue_accounted_first :
    ∃ r, (Session.machine.run {} Session.interrupted).audio = some r ∧
      r.pcmQueue.map PcmFrame.rtp = [40, 56] ∧ r.queuedSamples = total r.pcmQueue ∧
      (∀ pre, pre <+: r.pcmQueue → (total pre : Int) ≤ r.queuedSamples ∧
        ∀ b, ((pre.map (PcmFrame.removed b)).sum : Int) ≤ r.queuedSamples) ∧
      (∀ f ∈ r.pcmQueue, f.samples ≠ [] ∧ f.samples.length % 2 = 0) ∧
      ∀ f ∈ r.pausedPcm, f.samples ≠ [] ∧ f.samples.length % 2 = 0 := by
  obtain ⟨r, hr, hqueue⟩ : ∃ r, (Session.machine.run {} Session.interrupted).audio = some r ∧
      r.pcmQueue.map PcmFrame.rtp = [40, 56] := ⟨_, rfl, by decide⟩
  exact ⟨r, hr, hqueue, queue_accounted r ⟨_, ⟨{}, Session.interrupted, rfl, rfl⟩, hr⟩⟩

/-! ### The five-second cap -/

namespace Session

/-- The current receiver holds at most five seconds. -/
def Bounded (s : Session α) : Prop := ∀ r, s.audio = some r → r.queuedSamples ≤ r.limit

/-- A decoded chunk is no larger than the cap itself. -/
def ChunkWithin (s : Session α) : Event α → Prop
  | .pcm _ chunk _ _ => ∀ r, s.audio = some r → (chunk.samples.length : Int) ≤ r.limit
  | _ => True

/-- What a step puts into the queue without evicting fits: the saved tail with the
live samples past its end on a resume, the imported tail with what the boundary
leaves of the first block. -/
def Fits (s : Session α) : Event α → Prop
  | .resume now => ∀ r back, s.audio = some r → r.Restores now back →
      (total r.pausedPcm : Int) +
        total (trimQueue (r.resumedEnd (now - r.pausedAtNs) back) r.pcmQueue) ≤ r.limit
  | .pcm rtp chunk now _ => ∀ r, s.audio = some r → r.importedPause = true →
      now - r.pausedAtNs < 120000000000 →
      (total r.pausedPcm : Int) + (r.fenced {rtp, samples := chunk.samples}).samples.length ≤
        r.limit
  | _ => True

end Session

namespace AudioReceiver

theorem limit_nonneg (s : AudioReceiver α) : 0 ≤ s.limit := by
  have := s.rate_pos
  rw [limit]
  omega

theorem splice_total (elapsed : Int) (back : PcmFrame α) (s : AudioReceiver α) :
    total (s.splice elapsed back) =
      total s.pausedPcm + total (trimQueue (s.resumedEnd elapsed back) s.pcmQueue) := by
  rw [splice, total_append, total_of_samples (shifted_samples _ _)]

theorem imports_total (frame : PcmFrame α) (now pending : Int) (s : AudioReceiver α) :
    total (s.imports frame now pending) =
      if now - s.pausedAtNs < 120000000000 then total s.pausedPcm else 0 := by
  rw [imports]
  split
  · split
    · exact total_of_samples (retained_samples _ _ _ _)
    · rfl
  · rename_i hnone
    rw [List.getLast?_eq_none_iff.mp hnone]
    simp

/-- Eviction makes room for a chunk that fits by itself. -/
theorem evicted_room {s : AudioReceiver α} (h : s.Accounted) (size : Nat)
    (hsize : (size : Int) ≤ s.limit) : (s.evicted size).queuedSamples + size ≤ s.limit := by
  obtain ⟨-, -, -, hempty | hfit⟩ := evict_cases s.limit size s.pcmQueue s.queuedSamples
  · have hcounter := (h.evicted size).counter
    have hnil : (s.evicted size).pcmQueue = [] := hempty
    rw [hnil] at hcounter
    rw [hcounter]
    simpa using hsize
  · exact hfit

/-- Outside an import, a block leaves the queue within the cap. -/
theorem enqueue_bounded {s : AudioReceiver α} (h : s.Accounted) (himp : s.importedPause = false)
    (rtp : BitVec 32) (chunk : Chunk α) (now pending : Int)
    (hsize : (chunk.samples.length : Int) ≤ s.limit) :
    (s.enqueue rtp chunk.samples now pending).queuedSamples ≤ s.limit := by
  have hroom := evicted_room h _ hsize
  have hlive := fenced_length_le {rtp, samples := chunk.samples} (s.evicted chunk.samples.length)
  rw [enqueue]
  rw [insert_live _ _ _ _ _ (show (s.evicted _).importedPause = false from himp)]
  show (s.evicted _).queuedSamples + total _ ≤ _
  rw [total_live]
  simp only at hlive
  omega

/-- On an import nothing is queued, so nothing is evicted. -/
theorem enqueue_imported {s : AudioReceiver α} (h : s.Accounted) (himp : s.importedPause = true)
    (rtp : BitVec 32) (pcm : List α) (now pending : Int) :
    s.enqueue rtp pcm now pending = s.insert rtp pcm now pending := by
  rw [enqueue, evicted_nil (h.imported himp)]

theorem enqueue_imported_total {s : AudioReceiver α} (h : s.Accounted)
    (himp : s.importedPause = true) (rtp : BitVec 32) (pcm : List α) (now pending : Int) :
    (s.enqueue rtp pcm now pending).queuedSamples =
      (if now - s.pausedAtNs < 120000000000 then total s.pausedPcm else 0 : Nat) +
        (s.fenced {rtp, samples := pcm}).samples.length := by
  rw [enqueue_imported h himp, insert_imported _ _ _ _ _ himp]
  show s.queuedSamples + total _ + total _ = _
  rw [h.counter, h.imported himp, imports_total, total_live]
  simp

end AudioReceiver

namespace Session

theorem update_bounded {s : Session α} {f : AudioReceiver α → AudioReceiver α}
    (hcfg : ∀ r : AudioReceiver α, (f r).cfg = r.cfg) :
    (s.update f).Bounded ↔ ∀ r, s.audio = some r → (f r).queuedSamples ≤ r.limit := by
  constructor
  · intro h r hr
    rw [← AudioReceiver.limit_of_cfg (hcfg r)]
    exact h (f r) (by simp [update, hr])
  · intro h r hr
    obtain ⟨r', hr', rfl⟩ := Option.map_eq_some_iff.mp hr
    rw [AudioReceiver.limit_of_cfg (hcfg r')]
    exact h r' hr'

/-- A call that takes nothing into the queue keeps the bound. -/
theorem update_keeps_bounded {s : Session α} {f : AudioReceiver α → AudioReceiver α}
    (hcfg : ∀ r : AudioReceiver α, (f r).cfg = r.cfg)
    (hle : ∀ r : AudioReceiver α, r.Accounted → (f r).queuedSamples ≤ r.queuedSamples)
    (hacc : s.Accounted) (hb : s.Bounded) : (s.update f).Bounded :=
  (update_bounded hcfg).mpr fun r hr => (hle r (hacc.audio r hr)).trans (hb r hr)

theorem flush_queued_le (boundary : Option (BitVec 32)) (now : Int) (r : AudioReceiver α)
    (h : r.Accounted) : (r.flush boundary now).queuedSamples ≤ r.queuedSamples := by
  have hcounter := h.counter
  cases boundary with
  | none =>
    rw [AudioReceiver.flush_none]
    show 0 ≤ r.queuedSamples
    omega
  | some b =>
    have hle := trimQueue_total_le b r.pcmQueue
    rw [AudioReceiver.flush_some]
    show r.queuedSamples - (total r.pcmQueue - total (trimQueue b r.pcmQueue) : Int) ≤ _
    omega

theorem setSynchronized_queued_le (enabled : Bool) (r : AudioReceiver α) (h : r.Accounted) :
    (r.setSynchronized enabled).queuedSamples ≤ r.queuedSamples := by
  unfold AudioReceiver.setSynchronized
  simp only
  split
  · exact flush_queued_le none 0 {r with synchronize := enabled && r.cfg.ntp}
      ⟨h.counter, h.queue, h.tail, h.imported⟩
  · exact Int.le_refl _

theorem firstPacket_queued (datagram : List UInt8) (now : Int) (r : AudioReceiver α) :
    (r.firstPacket datagram now).queuedSamples = r.queuedSamples := by
  obtain ⟨_, _, _, h⟩ := AudioReceiver.firstPacket_frame datagram now r
  rw [h]

theorem anchor_queued (datagram : List UInt8) (r : AudioReceiver α) :
    (r.anchor datagram).queuedSamples = r.queuedSamples := by
  obtain ⟨_, _, _, _, h⟩ := AudioReceiver.anchor_frame datagram r
  rw [h]

theorem playout_queued_le (around : AudioReceiver.Surroundings) (r : AudioReceiver α) :
    (r.playout around).1.queuedSamples ≤ r.queuedSamples := by
  rcases AudioReceiver.playout_cases around r with hwait | ⟨front, rest, -, hpop, -⟩
  · rw [hwait]
  · rw [hpop]
    show r.queuedSamples - front.samples.length ≤ _
    omega

/-- A resume keeps the bound exactly when the spliced queue is within it. -/
theorem resume_bounded (now : Int) (r : AudioReceiver α) (hb : r.queuedSamples ≤ r.limit) :
    (r.resume now).queuedSamples ≤ r.limit ↔ ∀ back, r.Restores now back →
      (total r.pausedPcm : Int) +
        total (trimQueue (r.resumedEnd (now - r.pausedAtNs) back) r.pcmQueue) ≤ r.limit := by
  by_cases hr : ∃ back, r.Restores now back
  · obtain ⟨back, hr⟩ := hr
    have hsplice : ((r.resume now).queuedSamples : Int) = total r.pausedPcm +
        total (trimQueue (r.resumedEnd (now - r.pausedAtNs) back) r.pcmQueue) := by
      rw [AudioReceiver.resume_restores hr]
      exact congrArg Int.ofNat (AudioReceiver.splice_total _ _ _)
    rw [hsplice]
    constructor
    · intro h back' hr'
      obtain rfl := Option.some.inj (hr.2.1.symm.trans hr'.2.1)
      exact h
    · exact fun h => h back hr
  · refine ⟨fun _ back h => absurd ⟨back, h⟩ hr, fun _ => ?_⟩
    rw [AudioReceiver.resume_other (not_exists.mp hr)]
    split <;> exact hb

/-- A block keeps the bound exactly when it imports nothing or what it imports
fits in front of it. -/
theorem enqueue_bounded_iff (rtp : BitVec 32) (chunk : Chunk α) (now pending : Int)
    (r : AudioReceiver α) (hacc : r.Accounted) (hsize : (chunk.samples.length : Int) ≤ r.limit) :
    (r.enqueue rtp chunk.samples now pending).queuedSamples ≤ r.limit ↔
      (r.importedPause = true → now - r.pausedAtNs < 120000000000 →
        (total r.pausedPcm : Int) + (r.fenced {rtp, samples := chunk.samples}).samples.length ≤
          r.limit) := by
  cases himp : r.importedPause
  · have hle := AudioReceiver.enqueue_bounded hacc himp rtp chunk now pending hsize
    exact ⟨fun _ h => absurd h Bool.false_ne_true, fun _ => hle⟩
  · rw [AudioReceiver.enqueue_imported_total hacc himp]
    by_cases hsoon : now - r.pausedAtNs < 120000000000
    · simp [hsoon]
    · have hle := AudioReceiver.fenced_length_le {rtp, samples := chunk.samples} r
      simp only [hsoon, if_false, Nat.cast_zero, Int.zero_add, IsEmpty.forall_iff, implies_true,
        iff_true]
      simp only at hle
      omega

/-- A step keeps the bound exactly when what it puts in without evicting fits. -/
theorem bounded_step (s : Session α) (e : Event α) (hacc : s.Accounted) (hchunk : s.ChunkWithin e)
    (hb : s.Bounded) : (s.step e).Bounded ↔ s.Fits e := by
  cases e with
  | startNtp => exact ⟨fun _ => trivial, fun _ => hb⟩
  | start cfg opened =>
    refine ⟨fun _ => trivial, fun _ r hr => ?_⟩
    rw [(AudioReceiver.start_started hr).queuedSamples]
    exact r.limit_nonneg
  | suspend =>
    refine ⟨fun _ => trivial, fun _ => ?_⟩
    rw [step]
    cases haudio : s.audio with
    | none => exact hb
    | some r => intro r' hr'; cases hr'
  | data datagram now =>
    exact ⟨fun _ => trivial, fun _ => update_keeps_bounded (AudioReceiver.firstPacket_cfg _ _)
      (fun r _ => (firstPacket_queued datagram now r).le) hacc hb⟩
  | control datagram =>
    exact ⟨fun _ => trivial, fun _ => update_keeps_bounded (AudioReceiver.anchor_cfg _)
      (fun r _ => (anchor_queued datagram r).le) hacc hb⟩
  | pcm rtp chunk now pending =>
    exact (update_bounded (AudioReceiver.enqueue_cfg _ _ _ _)).trans (forall₂_congr fun r hr =>
      enqueue_bounded_iff rtp chunk now pending r (hacc.audio r hr) (hchunk r hr))
  | flush boundary now =>
    exact ⟨fun _ => trivial, fun _ => update_keeps_bounded (AudioReceiver.flush_cfg _ _)
      (flush_queued_le boundary now) hacc hb⟩
  | resume now =>
    refine (update_bounded (AudioReceiver.resume_cfg _)).trans ?_
    constructor
    · exact fun h r back hr => (resume_bounded now r (hb r hr)).mp (h r hr) back
    · exact fun h r hr => (resume_bounded now r (hb r hr)).mpr fun back => h r back hr
  | discardPause =>
    exact ⟨fun _ => trivial, fun _ => update_keeps_bounded (f := (·.discardPause))
      (fun _ => rfl) (fun _ _ => Int.le_refl _) hacc hb⟩
  | setSynchronized enabled =>
    exact ⟨fun _ => trivial, fun _ => update_keeps_bounded (AudioReceiver.setSynchronized_cfg _)
      (setSynchronized_queued_le enabled) hacc hb⟩
  | playout around =>
    refine ⟨fun _ => trivial, fun _ => ?_⟩
    rw [step]
    cases haudio : s.audio with
    | none => exact hb
    | some r =>
      intro r' hr'
      obtain rfl := Option.some.inj hr'
      rw [AudioReceiver.limit_of_cfg (AudioReceiver.playout_cfg around r)]
      exact (playout_queued_le around r).trans (hb r haudio)

/-- **The five-second cap, exactly.** Along any history of chunks no larger than the
cap, every receiver stays within it throughout if and only if every resume and every
first block of a recreated stream finds room for the tail it puts back. -/
theorem always_bounded_iff (es : List (Event α)) (hchunks : machine.Meets ChunkWithin {} es) :
    machine.Always Bounded {} es ↔ machine.Meets Fits {} es :=
  Machine.always_iff_meets (fun s e h _ => accounted_step s e h)
    (fun s e hacc hchunk hb => bounded_step s e hacc hchunk hb)
    (accounted_initial {} rfl) (fun r hr => by cases hr) hchunks

/-- At 44.1 kHz every chunk of the packet thread's buffer is within the cap. -/
theorem chunks_within {s : Session α} {es : List (Event α)}
    (hs : ∀ r, s.audio = some r → r.cfg.sampleRate = 44100)
    (hes : ∀ cfg opened, .start cfg opened ∈ es → cfg.sampleRate = 44100) :
    machine.Meets ChunkWithin s es := by
  induction es generalizing s with
  | nil => trivial
  | cons e rest ih =>
    refine ⟨?_, ih (fun r hr => ?_) fun cfg opened h => hes cfg opened (List.mem_cons_of_mem e h)⟩
    · cases e with
      | pcm rtp chunk now pending =>
        intro r hr
        have hfits := chunk.fits
        rw [AudioReceiver.limit]
        rw [hs r hr]
        omega
      | _ => trivial
    · rcases step_cfg hr with ⟨r', hr', hcfg⟩ | ⟨cfg, opened, rfl, hcfg⟩
      · rw [hcfg]
        exact hs r' hr'
      · rw [hcfg]
        exact hes cfg opened List.mem_cons_self

/-- A steady stream is paused, torn down and recreated. -/
def recreated (chunk : Chunk α) (n : Nat) : List (Event α) :=
  opening ++ steadyEvents chunk n ++ [.flush (some 0) 1, .suspend, .start audioOnly allOpen]

theorem steady_total (chunk : Chunk α) (n : Nat) :
    total (steady chunk n) = chunk.samples.length * n := by
  simp [total, steady, Function.comp_def, Nat.mul_comm]

theorem steady_ne_nil (chunk : Chunk α) {n : Nat} (hn : 0 < n) : steady chunk n ≠ [] := by
  simpa [steady] using Nat.ne_of_gt hn

/-- The recreated stream holds all that was queued as an imported tail. -/
theorem run_recreated (chunk : Chunk α) {n : Nat} (hn : 0 < n)
    (h : chunk.samples.length * n ≤ 441000) :
    ∃ r : AudioReceiver α, (machine.run {} (recreated chunk n)).audio = some r ∧
      r.importedPause = true ∧ r.pausedAtNs = 1 ∧ r.pausedPcm = steady chunk n ∧
        r.flushBoundary = none ∧ r.cfg = audioOnly := by
  obtain ⟨front, rest, hq⟩ := List.exists_cons_of_ne_nil (steady_ne_nil chunk hn)
  rw [recreated]
  rw [Machine.run_append, Machine.run_append, run_opening, run_steady chunk n h]
  rw [steadied]
  rw [hq]
  exact ⟨_, rfl, rfl, rfl, rfl, rfl, rfl⟩

/-- 53 full chunks are put back in front of the first chunk of the recreated stream:
442 368 samples where the cap is 441 000. -/
def overfull : List (Event Unit) := recreated fullChunk 53 ++ [.pcm 0 fullChunk 2 0]

theorem overfull_within : machine.Meets ChunkWithin {} overfull := by
  refine chunks_within (by simp) fun cfg opened h => ?_
  simp only [overfull, recreated, opening, steadyEvents, List.mem_append, List.mem_cons,
    List.mem_map, List.not_mem_nil, reduceCtorEq, false_or, or_false, and_false, exists_false,
    Event.start.injEq] at h
  rcases h with ⟨rfl, -⟩ | ⟨rfl, -⟩ <;> rfl

/-- Every chunk is within the cap and the queue is not. -/
theorem overfull_exceeds :
    machine.Meets ChunkWithin {} overfull ∧ ¬ machine.Always Bounded {} overfull := by
  refine ⟨overfull_within, fun hbounded => ?_⟩
  have hlen : fullChunk.samples.length = 8192 := List.length_replicate
  obtain ⟨r, hr, himp, hat, htail, hboundary, hcfg⟩ :=
    run_recreated fullChunk (n := 53) (by decide) (by rw [hlen]; decide)
  have hacc : r.Accounted := (reachable_accounted ⟨{}, recreated fullChunk 53, rfl, rfl⟩).audio r hr
  have hlast := Machine.always_iff_prefix.mp hbounded overfull (List.prefix_refl _)
  unfold overfull at hlast
  rw [Machine.run_append] at hlast
  have haudio : (machine.run (machine.run {} (recreated fullChunk 53))
      [.pcm 0 fullChunk 2 0]).audio = some (r.enqueue 0 fullChunk.samples 2 0) :=
    Option.map_eq_some_iff.mpr ⟨r, hr, rfl⟩
  have hcap := hlast _ haudio
  have hfenced : r.fenced {rtp := 0, samples := fullChunk.samples} =
      {rtp := 0, samples := fullChunk.samples} := by
    simp [AudioReceiver.fenced, hboundary]
  have hlimit : r.limit = 441000 := by
    rw [AudioReceiver.limit]
    rw [hcfg]
    rfl
  rw [AudioReceiver.limit_of_cfg (AudioReceiver.enqueue_cfg _ _ _ _ r), hlimit,
    AudioReceiver.enqueue_imported_total hacc himp, hat, htail, steady_total, hfenced] at hcap
  rw [hlen, if_pos (by decide)] at hcap
  omega

/-- The interrupted stream finds room for what it puts back, and keeps to the cap. -/
theorem always_bounded_iff_interrupted : machine.Always Bounded {} interrupted := by
  have hchunks : machine.Meets ChunkWithin {} interrupted := by
    refine ⟨trivial, trivial, fun r hr => ?_, fun r hr => ?_, fun r hr => ?_, trivial, trivial,
      fun r hr => ?_, trivial⟩
    all_goals
      obtain rfl := Option.some.inj hr
      decide
  have himported : ∀ {r r' : AudioReceiver Unit}, some r = some r' → r.importedPause = false →
      r'.importedPause = true → False := by
    intro r r' hr hnot himp
    obtain rfl := Option.some.inj hr
    exact Bool.false_ne_true (hnot.symm.trans himp)
  refine (always_bounded_iff interrupted hchunks).mpr ⟨trivial, trivial,
    fun r hr himp => (himported hr rfl himp).elim, fun r hr himp => (himported hr rfl himp).elim,
    fun r hr himp => (himported hr rfl himp).elim, trivial, fun r back hr hrestores => ?_,
    fun r hr himp => (himported hr rfl himp).elim, trivial⟩
  -- the saved tail of 64 samples, and nothing that is queued lies behind it
  obtain rfl := Option.some.inj hr
  obtain rfl := Option.some.inj hrestores.2.1
  decide

end Session

end AirPlay.Audio
