import AirPlay.Recorder.VideoRecorder

/-! Every frame that the recorder accepts is written or dropped.

The queue gives frames away at its front only, to the worker or to nobody; the worker
leaves only when a stop has been requested and the queue is empty, and once a stop has
been requested nothing is accepted. -/
namespace AirPlay.Recorder

variable {α : Type}

/-- The frame that an event puts into the queue. -/
def VideoRecorder.accepts (r : VideoRecorder α) : Event α → List α
  | .submit i => if r.accepting then (r.submitting[i]?.map (·.1.frame)).toList else []
  | _ => []

/-- The oldest frame, which makes way for another one when the queue is full. -/
def VideoRecorder.overflow (hw : Bool) (r : VideoRecorder α) : List α :=
  if r.queue.length ≥ if hw then 2 else kMaxQueuedFrames then (r.queue.head?.map (·.frame)).toList
  else []

/-- The frame that the queue loses for the one that an event puts into it. -/
def VideoRecorder.drops (r : VideoRecorder α) : Event α → List α
  | .submit i =>
    if r.accepting then (r.submitting[i]?.elim [] fun offered => r.overflow offered.2) else []
  | _ => []

/-- What went into the queue, and what it lost to its limit. -/
structure Passed (α : Type) where
  accepted : List α := []
  dropped : List α := []

/-- The recorder, with the frames accepted and dropped so far. -/
def recording (α : Type) (frameSize : Nat) : Machine (VideoRecorder α × Passed α) (Event α) :=
  (machine α frameSize).watched fun r e g =>
    {accepted := g.accepted ++ r.accepts e, dropped := g.dropped ++ r.drops e}

theorem isExited_iff {w : Worker α} : w.isExited = true ↔ w = .exited := by
  cases w <;> simp [Worker.isExited]

namespace VideoRecorder

/-- The frame the worker has taken and not yet encoded. -/
def inHand (r : VideoRecorder α) : List α :=
  match r.worker with
  | .batch (some item) _ _ => [item.frame]
  | _ => []

/-- The worker has seen the end. -/
def ending (r : VideoRecorder α) : Bool :=
  match r.worker with
  | .head => false
  | .batch _ _ finish => finish
  | .finishing => true
  | .exited => true

/-- What `stop` and the worker have agreed on. -/
structure Ordered (r : VideoRecorder α) : Prop where
  accepting : r.accepting = true → r.stop = .running
  requested : r.stopRequested = true ↔ r.stop ≠ .running ∧ r.stop ≠ .closed
  ending : r.ending = true → r.stopRequested = true ∧ r.queue = []
  joined : r.stop = .joined ∨ r.stop = .returned → r.worker = .exited

/-- Frames leave the queue at the front: the worker's and the dropped ones, each in order. -/
structure Conserves (r : VideoRecorder α) (g : Passed α) : Prop where
  written : r.framesWritten = r.video.length
  dropped : r.framesDropped = g.dropped.length
  gone : ∃ gone, g.accepted = gone ++ r.queue.map (·.frame) ∧
    (r.video.map (·.frame) ++ r.inHand).Sublist gone ∧ g.dropped.Sublist gone ∧
    gone.Perm (g.dropped ++ (r.video.map (·.frame) ++ r.inHand))

/-- The timestamps of the video rise from zero. -/
structure Timed (r : VideoRecorder α) : Prop where
  fresh : r.video = [] → r.firstPts = none ∧ r.lastPts = -1
  zero : ∀ f ∈ r.video.head?, f.pts = 0
  rising : (r.video.map (·.pts)).Pairwise (· < ·)
  last : ∀ f ∈ r.video, f.pts ≤ r.lastPts
  repeated : ∀ f ∈ r.lastFrame, r.worker = .exited ∧ r.lastPts < f.pts

/-- What holds throughout a recording. -/
structure Sound (r : VideoRecorder α) (g : Passed α) : Prop where
  ordered : r.Ordered
  conserves : r.Conserves g
  timed : r.Timed

section Steps
variable {r : VideoRecorder α} {g : Passed α}

theorem Ordered.not_ending (h : r.Ordered) (hacc : r.accepting = true) : r.ending = false := by
  cases hend : r.ending with
  | false => rfl
  | true =>
    have hreq := h.requested.mp (h.ending hend).1
    exact absurd (h.accepting hacc) hreq.1

theorem pushFrame_cases (item : QueuedFrame α) (hw : Bool) (r : VideoRecorder α) :
    (r.pushFrame item hw = {r with queue := r.queue ++ [item]} ∧ r.overflow hw = []) ∨
      ∃ oldest rest, r.queue = oldest :: rest ∧ r.overflow hw = [oldest.frame] ∧
        r.pushFrame item hw = {r with
          queue := rest ++ [item], framesDropped := r.framesDropped + 1} := by
  have hlimit : 0 < if hw then 2 else kMaxQueuedFrames := by cases hw <;> decide
  rw [pushFrame, overflow]
  by_cases hfull : r.queue.length ≥ if hw then 2 else kMaxQueuedFrames
  · obtain ⟨oldest, rest, hq⟩ := List.exists_cons_of_length_pos (Nat.lt_of_lt_of_le hlimit hfull)
    refine .inr ⟨oldest, rest, hq, ?_⟩
    rw [if_pos hfull, if_pos hfull, hq, List.tail_cons]
    exact ⟨rfl, rfl⟩
  · rw [if_neg hfull, if_neg hfull]
    exact .inl ⟨rfl, rfl⟩

/-- A frame that reaches the lock is turned away or goes to the end of the queue; a full
queue loses its oldest frame. -/
theorem submit_cases (i : Nat) (r : VideoRecorder α) :
    ∃ submitting,
      (r.submit i = {r with submitting} ∧ r.accepts (.submit i) = [] ∧ r.drops (.submit i) = []) ∨
      ∃ item, r.accepting = true ∧ r.accepts (.submit i) = [item.frame] ∧
        (r.submit i = {r with submitting, queue := r.queue ++ [item]} ∧
            r.drops (.submit i) = [] ∨
          ∃ oldest rest, r.queue = oldest :: rest ∧ r.drops (.submit i) = [oldest.frame] ∧
            r.submit i = {r with
              submitting, queue := rest ++ [item], framesDropped := r.framesDropped + 1}) := by
  rw [submit, accepts, drops]
  cases hi : r.submitting[i]? with
  | none => exact ⟨r.submitting, .inl ⟨rfl, by simp, by simp⟩⟩
  | some offered =>
    obtain ⟨item, hw⟩ := offered
    refine ⟨r.submitting.eraseIdx i, ?_⟩
    cases hacc : r.accepting with
    | false => exact .inl ⟨by simp, rfl, rfl⟩
    | true =>
      refine .inr ⟨item, rfl, rfl, ?_⟩
      simp only [Bool.not_true, Bool.false_eq_true, if_false]
      have hpush := pushFrame_cases item hw {r with submitting := r.submitting.eraseIdx i}
      rw [hacc] at hpush
      exact hpush

theorem Timed.submit (i : Nat) (h : r.Timed) : (r.submit i).Timed := by
  obtain ⟨submitting, ⟨heq, -⟩ | ⟨item, -, -, ⟨heq, -⟩ | ⟨oldest, rest, -, -, heq⟩⟩⟩ :=
    submit_cases i r
  all_goals
    rw [heq]
    exact ⟨h.fresh, h.zero, h.rising, h.last, h.repeated⟩

theorem submit_ordered (i : Nat) (h : r.Ordered) : (r.submit i).Ordered := by
  obtain ⟨submitting, ⟨heq, -⟩ | ⟨item, hacc, -, ⟨heq, -⟩ | ⟨oldest, rest, -, -, heq⟩⟩⟩ :=
    submit_cases i r
  · rw [heq]
    exact ⟨h.accepting, h.requested, h.ending, h.joined⟩
  all_goals
    have hgoing := h.not_ending hacc
    rw [heq]
    exact ⟨h.accepting, h.requested, fun hend => absurd (hgoing.symm.trans hend) Bool.false_ne_true,
      h.joined⟩

theorem submit_conserves (i : Nat) (h : r.Conserves g) :
    (r.submit i).Conserves
      ⟨g.accepted ++ r.accepts (.submit i), g.dropped ++ r.drops (.submit i)⟩ := by
  obtain ⟨gone, hgone, hsub, hdropped, hperm⟩ := h.gone
  obtain ⟨submitting, ⟨heq, hnone, hkept⟩ |
    ⟨item, -, hsome, ⟨heq, hkept⟩ | ⟨oldest, rest, hq, hlost, heq⟩⟩⟩ := submit_cases i r
  · rw [heq, hnone, hkept, List.append_nil, List.append_nil]
    exact ⟨h.written, h.dropped, gone, hgone, hsub, hdropped, hperm⟩
  · rw [heq, hsome, hkept, List.append_nil]
    exact ⟨h.written, h.dropped, gone, by simp [hgone], hsub, hdropped, hperm⟩
  · rw [heq, hsome, hlost]
    refine ⟨h.written, by simp [h.dropped], gone ++ [oldest.frame], by simp [hgone, hq],
      hsub.trans (List.sublist_append_left _ _), hdropped.append_right _, ?_⟩
    rw [List.append_assoc]
    exact (hperm.append_right _).trans <| by
      rw [List.append_assoc]
      exact List.perm_append_comm.append_left g.dropped

/-! ### The worker -/

/-- What the head of the loop takes. -/
theorem loopHead_cases (r : VideoRecorder α) :
    r.loopHead = r ∨
      ∃ audioQueue batch finish,
        r.loopHead = {r with
          queue := r.queue.tail, audioQueue, worker := .batch r.queue.head? batch finish} ∧
        (finish = true → r.stopRequested = true ∧ r.queue.tail = []) := by
  rw [loopHead]
  split
  · exact .inl rfl
  · refine .inr ⟨_, _, _, rfl, fun hfinish => ?_⟩
    rw [Bool.and_eq_true, Bool.and_eq_true, List.isEmpty_iff] at hfinish
    exact hfinish.1

theorem loopHead_ordered (h : r.Ordered) (hw : r.worker = .head) : r.loopHead.Ordered := by
  rcases loopHead_cases r with heq | ⟨audioQueue, batch, finish, heq, hfinish⟩
  · rw [heq]
    exact h
  · rw [heq]
    refine ⟨h.accepting, h.requested, hfinish, fun hjoined => ?_⟩
    exact nomatch (h.joined hjoined).symm.trans hw

theorem loopHead_conserves (h : r.Conserves g) (hw : r.worker = .head) :
    r.loopHead.Conserves g := by
  obtain ⟨gone, hgone, hsub, hdropped, hperm⟩ := h.gone
  have hhand : r.inHand = [] := by rw [inHand, hw]
  rw [hhand, List.append_nil] at hsub hperm
  rcases loopHead_cases r with heq | ⟨audioQueue, batch, finish, heq, -⟩
  · rw [heq]
    exact h
  · rw [heq]
    cases hq : r.queue with
    | nil =>
      refine ⟨h.written, h.dropped, gone, by rw [hgone, hq]; rfl, ?_, hdropped, ?_⟩
      · exact (List.append_nil _).symm ▸ hsub
      · exact (List.append_nil (r.video.map (·.frame))).symm ▸ hperm
    | cons item rest =>
      refine ⟨h.written, h.dropped, gone ++ [item.frame], by simp [hgone, hq],
        hsub.append_right [item.frame], hdropped.trans (List.sublist_append_left _ _), ?_⟩
      rw [← List.append_assoc]
      exact hperm.append_right [item.frame]

theorem encodeAudio_cases (n : Nat) (batch : List QueuedAudio) (r : VideoRecorder α) :
    ∃ track, r.encodeAudio n batch = {r with track} := by
  rw [encodeAudio]
  split
  · exact ⟨r.track, rfl⟩
  · exact ⟨_, rfl⟩

/-- What the worker does with what it has taken. -/
theorem process_cases (n : Nat) (item : Option (QueuedFrame α)) (batch : List QueuedAudio)
    (finish : Bool) (r : VideoRecorder α) :
    ∃ track, r.process n item batch finish = {item.elim r (writeVideo · r) with
      track, worker := if finish then .finishing else .head} := by
  cases item with
  | none =>
    rw [process]
    split
    · obtain ⟨track, heq⟩ := encodeAudio_cases n batch r
      exact ⟨track, by rw [heq]; rfl⟩
    · exact ⟨r.track, rfl⟩
  | some item =>
    obtain ⟨track, heq⟩ := encodeAudio_cases n batch (r.writeVideo item)
    exact ⟨track, by rw [process, heq]; rfl⟩

theorem process_ordered {n : Nat} {item : Option (QueuedFrame α)} {batch : List QueuedAudio}
    {finish : Bool} (h : r.Ordered) (hw : r.worker = .batch item batch finish) :
    (r.process n item batch finish).Ordered := by
  obtain ⟨track, heq⟩ := process_cases n item batch finish r
  rw [heq]
  have hending : finish = true → r.stopRequested = true ∧ r.queue = [] := by
    intro hfinish
    apply h.ending
    rw [ending, hw]
    exact hfinish
  have hjoined : r.stop = .joined ∨ r.stop = .returned → False := fun hjoined =>
    nomatch (h.joined hjoined).symm.trans hw
  cases item with
  | none =>
    refine ⟨h.accepting, h.requested, fun hend => hending ?_, fun hj => (hjoined hj).elim⟩
    cases finish with
    | true => rfl
    | false => exact nomatch hend
  | some item =>
    refine ⟨h.accepting, h.requested, fun hend => hending ?_, fun hj => (hjoined hj).elim⟩
    cases finish with
    | true => rfl
    | false => exact nomatch hend

theorem process_conserves {n : Nat} {item : Option (QueuedFrame α)} {batch : List QueuedAudio}
    {finish : Bool} (h : r.Conserves g) (hw : r.worker = .batch item batch finish) :
    (r.process n item batch finish).Conserves g := by
  obtain ⟨track, heq⟩ := process_cases n item batch finish r
  obtain ⟨gone, hgone, hsub, hdropped, hperm⟩ := h.gone
  have hfree : ∀ q : VideoRecorder α,
      inHand {q with track, worker := if finish then .finishing else .head} = [] := by
    intro q
    cases finish <;> rfl
  have hhand : r.inHand = (item.map (·.frame)).toList := by
    rw [inHand, hw]
    cases item <;> rfl
  rw [hhand] at hsub hperm
  rw [heq]
  cases item with
  | none =>
    exact ⟨h.written, h.dropped, gone, hgone, by rw [hfree]; exact hsub, hdropped,
      by rw [hfree]; exact hperm⟩
  | some item =>
    have hvideo : (r.writeVideo item).video.map (·.frame) =
        r.video.map (·.frame) ++ [item.frame] := List.map_append
    refine ⟨by simp [writeVideo, h.written], h.dropped, gone, hgone, ?_, hdropped, ?_⟩
    · rw [hfree, List.append_nil]
      exact hvideo ▸ hsub
    · rw [hfree, List.append_nil]
      exact hvideo ▸ hperm

/-- The last frame is repeated when the worker leaves, not before. -/
theorem Timed.no_last (h : r.Timed) (hw : r.worker ≠ .exited) : r.lastFrame = none := by
  cases hl : r.lastFrame with
  | none => rfl
  | some f => exact absurd (h.repeated f hl).1 hw

theorem writeVideo_timed (item : QueuedFrame α) (h : r.Timed) (hlast : r.lastFrame = none) :
    (r.writeVideo item).Timed := by
  have hpts := Int.le_max_left (r.lastPts + 1) ((item.ptsMs : Int) - r.firstPts.getD item.ptsMs)
  refine ⟨fun hnil => absurd hnil (by simp [writeVideo]), ?_, ?_, ?_, ?_⟩
  · cases hv : r.video with
    | nil =>
      obtain ⟨hfirst, hminus⟩ := h.fresh hv
      simp [writeVideo, hv, hfirst, hminus]
    | cons f rest =>
      have hzero := h.zero
      rw [hv] at hzero
      simpa [writeVideo, hv] using hzero
  · rw [writeVideo, List.map_append, List.pairwise_append]
    refine ⟨h.rising, List.pairwise_singleton _ _, ?_⟩
    intro p hp q hq
    obtain ⟨f, hf, rfl⟩ := List.mem_map.mp hp
    obtain rfl := List.mem_singleton.mp hq
    have hle := h.last f hf
    dsimp only
    omega
  · intro f hf
    rcases List.mem_append.mp hf with hold | hnew
    · have hle := h.last f hold
      show f.pts ≤ max _ _
      omega
    · rw [List.mem_singleton.mp hnew]
      exact Int.le_refl _
  · intro f hf
    rw [writeVideo, hlast] at hf
    exact nomatch hf

theorem loopHead_timed (h : r.Timed) (hw : r.worker = .head) : r.loopHead.Timed := by
  rcases loopHead_cases r with heq | ⟨audioQueue, batch, finish, heq, -⟩
  · rw [heq]
    exact h
  · rw [heq]
    have hlast := h.no_last (by rw [hw]; exact nofun)
    exact ⟨h.fresh, h.zero, h.rising, h.last, fun f hf => nomatch hlast.symm.trans hf⟩

theorem process_timed {n : Nat} {item : Option (QueuedFrame α)} {batch : List QueuedAudio}
    {finish : Bool} (h : r.Timed) (hw : r.worker = .batch item batch finish) :
    (r.process n item batch finish).Timed := by
  obtain ⟨track, heq⟩ := process_cases n item batch finish r
  have hlast := h.no_last (by rw [hw]; exact nofun)
  rw [heq]
  cases item with
  | none => exact ⟨h.fresh, h.zero, h.rising, h.last, fun f hf => nomatch hlast.symm.trans hf⟩
  | some item =>
    have hwrite := writeVideo_timed item h hlast
    exact ⟨hwrite.fresh, hwrite.zero, hwrite.rising, hwrite.last,
      fun f hf => nomatch hlast.symm.trans hf⟩

/-! ### The end -/

theorem finishRecording_cases (n : Nat) (nowMs : Int) (r : VideoRecorder α) :
    ∃ track lastFrame, r.finishRecording n nowMs =
        {r with track, lastFrame, accepting := false, worker := .exited} ∧
      ∀ f ∈ lastFrame, f ∈ r.lastFrame ∨ r.lastPts < f.pts := by
  rw [finishRecording]
  split
  · dsimp only
    split
    · rename_i hlater
      refine ⟨_, _, rfl, fun f hf => .inr ?_⟩
      obtain ⟨g, -, rfl⟩ := Option.map_eq_some_iff.mp hf
      dsimp only
      omega
    · exact ⟨_, r.lastFrame, rfl, fun f hf => .inl hf⟩
  · exact ⟨r.track, r.lastFrame, rfl, fun f hf => .inl hf⟩

theorem Sound.finishRecording {n : Nat} (nowMs : Int) (h : r.Sound g)
    (hw : r.worker = .finishing) : (r.finishRecording n nowMs).Sound g := by
  obtain ⟨track, lastFrame, heq, hlast⟩ := finishRecording_cases n nowMs r
  have hend := h.ordered.ending (by rw [ending, hw])
  have hnone := h.timed.no_last (by rw [hw]; exact nofun)
  obtain ⟨gone, hgone, hsub, hdropped, hperm⟩ := h.conserves.gone
  rw [inHand, hw] at hsub hperm
  rw [heq]
  refine ⟨⟨nofun, h.ordered.requested, fun _ => hend, fun _ => rfl⟩,
    ⟨h.conserves.written, h.conserves.dropped, gone, hgone, hsub, hdropped, hperm⟩,
    h.timed.fresh, h.timed.zero, h.timed.rising, h.timed.last, fun f hf => ⟨rfl, ?_⟩⟩
  rcases hlast f hf with hold | hlater
  · exact nomatch hnone.symm.trans hold
  · exact hlater

theorem Sound.work {n : Nat} (nowMs : Int) (h : r.Sound g) :
    (r.work n nowMs).Sound g := by
  rw [VideoRecorder.work]
  cases hw : r.worker with
  | head =>
    exact ⟨loopHead_ordered h.ordered hw, loopHead_conserves h.conserves hw,
      loopHead_timed h.timed hw⟩
  | batch item batch finish =>
    exact ⟨process_ordered h.ordered hw, process_conserves h.conserves hw,
      process_timed h.timed hw⟩
  | finishing => exact h.finishRecording nowMs hw
  | exited => exact h

theorem stopStep_ordered (h : r.Ordered) : r.stopStep.Ordered := by
  obtain ⟨hacc, hreq, hend, hjoined⟩ := h
  rw [stopStep]
  cases hs : r.stop with
  | running =>
    have hgoing : ¬ r.stopRequested = true := fun hr => (hreq.mp hr).1 hs
    exact ⟨nofun, ⟨fun hr => (hgoing hr).elim, fun hn => (hn.2 rfl).elim⟩, hend, nofun⟩
  | closed =>
    exact ⟨fun ha => (nomatch hs.symm.trans (hacc ha)), ⟨fun _ => ⟨nofun, nofun⟩, fun _ => rfl⟩,
      fun he => ⟨rfl, (hend he).2⟩, nofun⟩
  | requested =>
    have hstopped : r.stopRequested = true := hreq.mpr (by rw [hs]; exact ⟨nofun, nofun⟩)
    cases hw : r.worker.isExited with
    | false => exact ⟨hacc, hreq, hend, hjoined⟩
    | true =>
      exact ⟨fun ha => (nomatch hs.symm.trans (hacc ha)),
        ⟨fun _ => ⟨nofun, nofun⟩, fun _ => hstopped⟩, hend, fun _ => isExited_iff.mp hw⟩
  | joined =>
    have hstopped : r.stopRequested = true := hreq.mpr (by rw [hs]; exact ⟨nofun, nofun⟩)
    exact ⟨fun ha => (nomatch hs.symm.trans (hacc ha)),
      ⟨fun _ => ⟨nofun, nofun⟩, fun _ => hstopped⟩, fun he => ⟨hstopped, rfl⟩,
      fun _ => hjoined (.inl hs)⟩
  | returned => exact ⟨hacc, hreq, hend, hjoined⟩

/-- When `stop` clears the queues the worker is gone, and there are no frames. -/
theorem stopStep_frame (h : r.Ordered) : ∃ accepting stopRequested audioQueue stop,
    r.stopStep = {r with accepting, stopRequested, audioQueue, stop} ∧
      (r.stopRequested = true → stopRequested = true) ∧
      (audioQueue = r.audioQueue ∨ audioQueue = [] ∧ r.worker = .exited) := by
  rw [stopStep]
  cases hs : r.stop with
  | running => exact ⟨false, r.stopRequested, r.audioQueue, .closed, rfl, id, .inl rfl⟩
  | closed => exact ⟨r.accepting, true, r.audioQueue, .requested, rfl, fun _ => rfl, .inl rfl⟩
  | requested =>
    cases r.worker.isExited with
    | false => exact ⟨r.accepting, r.stopRequested, r.audioQueue, r.stop, rfl, id, .inl rfl⟩
    | true => exact ⟨r.accepting, r.stopRequested, r.audioQueue, .joined, rfl, id, .inl rfl⟩
  | joined =>
    have hw := h.joined (.inl hs)
    have hempty := (h.ending (by rw [ending, hw])).2
    exact ⟨r.accepting, r.stopRequested, [], .returned, by rw [hempty], id, .inr ⟨rfl, hw⟩⟩
  | returned => exact ⟨r.accepting, r.stopRequested, r.audioQueue, r.stop, rfl, id, .inl rfl⟩

theorem Sound.stopStep (h : r.Sound g) : r.stopStep.Sound g := by
  obtain ⟨accepting, stopRequested, audioQueue, stop, heq, -⟩ := stopStep_frame h.ordered
  refine ⟨stopStep_ordered h.ordered, ?_, ?_⟩
  · rw [heq]
    exact ⟨h.conserves.written, h.conserves.dropped, h.conserves.gone⟩
  · rw [heq]
    exact ⟨h.timed.fresh, h.timed.zero, h.timed.rising, h.timed.last, h.timed.repeated⟩

/-! ### The other callers touch neither the video nor its queue -/

theorem offer_frame (frame : α) (hw : Bool) (nowMs : Int) (r : VideoRecorder α) :
    ∃ submitting, r.offer frame hw nowMs = {r with submitting} := by
  rw [offer]
  split
  · exact ⟨_, rfl⟩
  · exact ⟨r.submitting, rfl⟩

theorem offerAudio_frame (samples : List Int16) (stereo : samples.length % 2 = 0)
    (sampleRate nowMs : Int) (r : VideoRecorder α) :
    ∃ submittingAudio, r.offerAudio samples stereo sampleRate nowMs = {r with submittingAudio} := by
  rw [offerAudio]
  split
  · exact ⟨r.submittingAudio, rfl⟩
  · exact ⟨_, rfl⟩

theorem submitAudio_frame (i : Nat) (r : VideoRecorder α) :
    ∃ submittingAudio audioQueue, r.submitAudio i = {r with submittingAudio, audioQueue} := by
  rw [submitAudio]
  cases r.submittingAudio[i]? with
  | none => exact ⟨r.submittingAudio, r.audioQueue, rfl⟩
  | some audio =>
    dsimp only
    split
    · exact ⟨_, r.audioQueue, rfl⟩
    · exact ⟨_, _, rfl⟩

theorem Sound.aside (h : r.Sound g) (submitting : List (QueuedFrame α × Bool))
    (submittingAudio audioQueue : List QueuedAudio) :
    Sound {r with submitting, submittingAudio, audioQueue} g :=
  ⟨⟨h.ordered.accepting, h.ordered.requested, h.ordered.ending, h.ordered.joined⟩,
    ⟨h.conserves.written, h.conserves.dropped, h.conserves.gone⟩,
    ⟨h.timed.fresh, h.timed.zero, h.timed.rising, h.timed.last, h.timed.repeated⟩⟩

theorem Sound.step {frameSize : Nat} (e : Event α) (h : r.Sound g) :
    ((machine α frameSize).step r e).Sound ⟨g.accepted ++ r.accepts e, g.dropped ++ r.drops e⟩ := by
  have hnone : ∀ {r' : VideoRecorder α}, r'.Sound g →
      r'.Sound ⟨g.accepted ++ [], g.dropped ++ []⟩ := by
    intro r' hr
    rwa [List.append_nil, List.append_nil]
  cases e with
  | submit i =>
    exact ⟨submit_ordered i h.ordered, submit_conserves i h.conserves, h.timed.submit i⟩
  | offer frame hw nowMs =>
    apply hnone
    obtain ⟨submitting, heq⟩ := r.offer_frame frame hw nowMs
    show (r.offer frame hw nowMs).Sound g
    rw [heq]
    exact h.aside _ _ _
  | offerAudio samples stereo sampleRate nowMs =>
    apply hnone
    obtain ⟨submittingAudio, heq⟩ := r.offerAudio_frame samples stereo sampleRate nowMs
    show (r.offerAudio samples stereo sampleRate nowMs).Sound g
    rw [heq]
    exact h.aside _ _ _
  | submitAudio i =>
    apply hnone
    obtain ⟨submittingAudio, audioQueue, heq⟩ := r.submitAudio_frame i
    show (r.submitAudio i).Sound g
    rw [heq]
    exact h.aside _ _ _
  | work nowMs => exact hnone (h.work nowMs)
  | stop => exact hnone h.stopStep

/-! ### The worker comes to an end -/

/-- How many turns of the worker are left at most once a stop is requested. -/
def remaining (r : VideoRecorder α) : Nat :=
  match r.worker with
  | .head => 2 * r.queue.length + 3
  | .batch _ _ finish => if finish then 2 else 2 * r.queue.length + 4
  | .finishing => 1
  | .exited => 0

theorem loopHead_remaining (hstop : r.stopRequested = true) :
    r.loopHead.remaining ≤ 2 * r.queue.length + 2 := by
  rw [loopHead, hstop, Bool.true_or, Bool.true_or, Bool.not_true, if_neg Bool.false_ne_true]
  cases hq : r.queue with
  | nil => simp [remaining]
  | cons item rest =>
    cases rest with
    | nil => simp [remaining]
    | cons next rest =>
      simp [remaining]
      omega

theorem work_stopRequested (n : Nat) (nowMs : Int) (r : VideoRecorder α) :
    (r.work n nowMs).stopRequested = r.stopRequested := by
  rw [VideoRecorder.work]
  cases r.worker with
  | head =>
    obtain heq | ⟨_, _, _, heq, -⟩ := loopHead_cases r
    all_goals
      dsimp only
      rw [heq]
  | batch item batch finish =>
    obtain ⟨track, heq⟩ := process_cases n item batch finish r
    dsimp only
    rw [heq]
    cases item <;> rfl
  | finishing =>
    obtain ⟨_, _, heq, -⟩ := finishRecording_cases n nowMs r
    dsimp only
    rw [heq]
  | exited => rfl

theorem work_remaining {n : Nat} (nowMs : Int) (hstop : r.stopRequested = true) :
    (r.work n nowMs).remaining ≤ r.remaining - 1 := by
  rw [VideoRecorder.work]
  cases hw : r.worker with
  | head =>
    rw [show r.remaining = 2 * r.queue.length + 3 by rw [remaining, hw]]
    exact loopHead_remaining hstop
  | batch item batch finish =>
    obtain ⟨track, heq⟩ := process_cases n item batch finish r
    dsimp only
    rw [heq]
    cases finish <;> cases item <;> simp [remaining, hw, writeVideo]
  | finishing =>
    obtain ⟨track, lastFrame, heq, -⟩ := finishRecording_cases n nowMs r
    dsimp only
    rw [heq]
    exact Nat.zero_le _
  | exited => simp [remaining, hw]

/-- A turn of the worker. -/
def isWork : Event α → Bool
  | .work _ => true
  | _ => false

/-- After the request nothing is accepted, so only the worker changes what is left. -/
theorem step_remaining {frameSize : Nat} (e : Event α) (h : r.Ordered)
    (hstop : r.stopRequested = true) :
    ((machine α frameSize).step r e).stopRequested = true ∧
      ((machine α frameSize).step r e).remaining ≤ r.remaining - (isWork e).toNat := by
  have hclosed : r.accepting = false := by
    cases hacc : r.accepting with
    | false => rfl
    | true => exact absurd (h.accepting hacc) (h.requested.mp hstop).1
  cases e with
  | submit i =>
    obtain ⟨submitting, ⟨heq, -⟩ | ⟨item, hacc, -⟩⟩ := submit_cases i r
    · show (r.submit i).stopRequested = true ∧ (r.submit i).remaining ≤ r.remaining
      rw [heq]
      exact ⟨hstop, Nat.le_refl _⟩
    · exact absurd (hclosed.symm.trans hacc) Bool.false_ne_true
  | offer frame hw nowMs =>
    obtain ⟨submitting, heq⟩ := r.offer_frame frame hw nowMs
    show (r.offer frame hw nowMs).stopRequested = true ∧ (r.offer frame hw nowMs).remaining ≤ _
    rw [heq]
    exact ⟨hstop, Nat.le_refl _⟩
  | offerAudio samples stereo sampleRate nowMs =>
    obtain ⟨submittingAudio, heq⟩ := r.offerAudio_frame samples stereo sampleRate nowMs
    show (r.offerAudio samples stereo sampleRate nowMs).stopRequested = true ∧
      (r.offerAudio samples stereo sampleRate nowMs).remaining ≤ _
    rw [heq]
    exact ⟨hstop, Nat.le_refl _⟩
  | submitAudio i =>
    obtain ⟨submittingAudio, audioQueue, heq⟩ := r.submitAudio_frame i
    show (r.submitAudio i).stopRequested = true ∧ (r.submitAudio i).remaining ≤ _
    rw [heq]
    exact ⟨hstop, Nat.le_refl _⟩
  | work nowMs => exact ⟨(work_stopRequested _ nowMs r).trans hstop, work_remaining nowMs hstop⟩
  | stop =>
    obtain ⟨accepting, stopRequested, audioQueue, stop, heq, hkept, -⟩ := stopStep_frame h
    show r.stopStep.stopRequested = true ∧ r.stopStep.remaining ≤ r.remaining
    rw [heq]
    exact ⟨hkept hstop, Nat.le_refl _⟩

/-- With the worker gone, `stop` has two steps left at most. -/
theorem stopStep_returns (h : r.Ordered) (hstop : r.stopRequested = true) (hw : r.worker = .exited) :
    r.stopStep.stopStep.stop = .returned := by
  have hexit : r.worker.isExited = true := isExited_iff.mpr hw
  have hreq := h.requested.mp hstop
  cases hs : r.stop with
  | running => exact absurd hs hreq.1
  | closed => exact absurd hs hreq.2
  | requested => simp [stopStep, hs, hexit]
  | joined => simp [stopStep, hs]
  | returned => simp [stopStep, hs]

theorem remaining_zero (h : r.remaining = 0) : r.worker = .exited := by
  cases hw : r.worker with
  | exited => rfl
  | batch item batch finish =>
    rw [remaining, hw] at h
    cases finish <;> simp at h
  | _ =>
    rw [remaining, hw] at h
    simp at h

end Steps

/-- What a recording leaves when it is over: every accepted frame has been written or lost to
the limit of the queue, and is counted so; the written ones are in order, at times that rise
from zero. The last of them may be shown once more, later than all of them. -/
structure Complete (r : VideoRecorder α) (g : Passed α) : Prop where
  counted : r.framesWritten + r.framesDropped = g.accepted.length
  written : r.framesWritten = r.video.length
  dropped : r.framesDropped = g.dropped.length
  inOrder : (r.video.map (·.frame)).Sublist g.accepted
  lost : g.dropped.Sublist g.accepted
  others : g.accepted.Perm (g.dropped ++ r.video.map (·.frame))
  zero : ∀ f ∈ r.video.head?, f.pts = 0
  rising : (r.video.map (·.pts)).Pairwise (· < ·)
  repeated : ∀ f ∈ r.lastFrame, ∀ g ∈ r.video, g.pts < f.pts

theorem Sound.complete {r : VideoRecorder α} {g : Passed α} (h : r.Sound g)
    (hw : r.worker = .exited) : r.queue = [] ∧ r.Complete g := by
  have hempty := (h.ordered.ending (by rw [ending, hw])).2
  obtain ⟨gone, hgone, hsub, hdropped, hperm⟩ := h.conserves.gone
  have hhand : r.inHand = [] := by rw [inHand, hw]
  rw [hempty, List.map_nil, List.append_nil] at hgone
  rw [hhand, List.append_nil] at hsub hperm
  rw [← hgone] at hsub hdropped hperm
  have hcount : r.framesWritten + r.framesDropped = g.accepted.length := by
    rw [hperm.length_eq, List.length_append, List.length_map, h.conserves.written,
      h.conserves.dropped, Nat.add_comm]
  refine ⟨hempty, hcount, h.conserves.written, h.conserves.dropped, hsub, hdropped, hperm,
    h.timed.zero, h.timed.rising, ?_⟩
  intro f hf g hg
  exact Int.lt_of_le_of_lt (h.timed.last g hg) (h.timed.repeated f hf).2

theorem sound_run (frameSize : Nat) (es : List (Event α)) :
    ((recording α frameSize).run ({}, {}) es).1.Sound
      ((recording α frameSize).run ({}, {}) es).2 := by
  apply @Machine.run_keeps _ _ (recording α frameSize) (fun w => w.1.Sound w.2)
  · intro w e hw
    exact hw.step e
  · exact ⟨⟨fun _ => rfl, ⟨nofun, fun h => absurd rfl h.1⟩, nofun, fun h => nomatch h⟩,
      ⟨rfl, rfl, [], rfl, List.Sublist.refl [], List.Sublist.refl [], List.Perm.refl []⟩,
      fun _ => ⟨rfl, rfl⟩, nofun, List.Pairwise.nil, nofun, nofun⟩

/-- Every accepted frame is written or dropped, however the callers, the worker and `stop` take
turns: when `stop` clears the queue there is nothing in it, and when it has returned the
recording is complete. Once the stop is requested it returns, whoever else goes on. -/
theorem conserved (frameSize : Nat) (es : List (Event α)) :
    let w := (recording α frameSize).run ({}, {}) es
    (w.1.stop = .joined → w.1.queue = []) ∧ (w.1.stop = .returned → w.1.Complete w.2) ∧
      (w.1.stopRequested = true → ∃ turns, ∀ later : List (Event α),
        turns ≤ later.countP isWork →
          ((recording α frameSize).run w (later ++ [.stop, .stop])).1.stop = .returned) := by
  intro w
  have hsound : w.1.Sound w.2 := sound_run frameSize es
  refine ⟨fun hs => ?_, fun hs => ?_, fun hstop => ⟨w.1.remaining, fun later hturns => ?_⟩⟩
  · exact (hsound.complete (hsound.ordered.joined (.inl hs))).1
  · exact (hsound.complete (hsound.ordered.joined (.inr hs))).2
  · have hboth : ∀ (v : VideoRecorder α × Passed α) (e : Event α),
        v.1.Sound v.2 ∧ v.1.stopRequested = true →
          ((recording α frameSize).step v e).1.Sound ((recording α frameSize).step v e).2 ∧
            ((recording α frameSize).step v e).1.stopRequested = true := by
      intro v e hv
      exact ⟨hv.1.step e, (step_remaining e hv.1.ordered hv.2).1⟩
    have hend := Machine.run_keeps hboth later ⟨hsound, hstop⟩
    have hgone := @Machine.run_exhausts _ _ (recording α frameSize) _ (fun v => v.1.remaining)
      isWork hboth (fun v e hv => (step_remaining e hv.1.ordered hv.2).2) w later ⟨hsound, hstop⟩
      hturns
    rw [Machine.run_append]
    exact stopStep_returns hend.1.ordered hend.2 (remaining_zero hgone)

end VideoRecorder

end AirPlay.Recorder
