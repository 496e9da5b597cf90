import AirPlay.Recorder.Conservation
import AirPlay.Recorder.Layout

/-! The PCM of a recording from its first block to its end.

The blocks go through a bounded queue to the worker, which lays them on the timeline in
the order of their arrival; what the queue loses it loses at its front. -/
namespace AirPlay.Recorder

variable {α : Type}

/-- What became of the blocks of PCM. -/
structure Heard where
  accepted : List QueuedAudio := []
  /-- Evicted, or early when the recording stopped before the first frame of video. -/
  lost : List QueuedAudio := []
  laid : List QueuedAudio := []
  /-- What belongs in the recording: what is queued when the first frame of video is taken,
  and all that is accepted from then on. -/
  due : List QueuedAudio := []
  /-- Evicted after that. -/
  late : List QueuedAudio := []

namespace VideoRecorder

/-- The worker has taken a frame of video. -/
def timed (r : VideoRecorder α) : Bool :=
  r.enc || match r.worker with
    | .batch (some _) _ _ => true
    | _ => false

/-- The blocks that make way for another one. -/
def evicted (r : VideoRecorder α) (audio : QueuedAudio) : List QueuedAudio :=
  r.audioQueue.take (r.audioQueue.length -
    (evictAudio (audio.sampleRate * 2 * 10) audio.samples.length r.audioQueue).length)

/-- The queue gives the blocks up at the head of the loop. -/
def discards (r : VideoRecorder α) : Bool := r.stopRequested && r.queue.isEmpty && !r.enc

def hears (r : VideoRecorder α) (e : Event α) (g : Heard) : Heard :=
  match e with
  | .submitAudio i =>
    match r.submittingAudio[i]? with
    | some audio =>
      if r.accepting then
        {g with
          accepted := g.accepted ++ [audio], lost := g.lost ++ r.evicted audio
          due := if r.timed then g.due ++ [audio] else (r.submitAudio i).audioQueue
          late := if r.timed then g.late ++ r.evicted audio else g.late}
      else g
    | none => g
  | .work _ =>
    match r.worker with
    | .head => if r.discards then {g with lost := g.lost ++ r.audioQueue, due := []} else g
    | .batch _ batch _ => {g with laid := g.laid ++ batch}
    | _ => g
  | _ => g

/-- The blocks the worker has taken and not yet laid. -/
def batchInHand (r : VideoRecorder α) : List QueuedAudio :=
  match r.worker with
  | .batch _ batch _ => batch
  | _ => []

/-- Blocks leave the queue at the front: the worker's are some of these, in order. -/
structure Hears (r : VideoRecorder α) (g : Heard) : Prop where
  inOrder : (g.laid ++ r.batchInHand ++ r.audioQueue).Sublist g.accepted
  counted : g.accepted.length =
    g.lost.length + (g.laid ++ r.batchInHand ++ r.audioQueue).length

/-- The PCM that has been encoded. -/
def written (r : VideoRecorder α) : List Int16 := r.track.frames.flatMap (·.pcm)

/-- The track holds the PCM of what has been laid. -/
structure Lays (n : Nat) (r : VideoRecorder α) (g : Heard) : Prop where
  encoder : r.enc = r.firstPts.isSome
  /-- Without an encoder the worker takes PCM with a frame only. -/
  early : r.firstPts = none → g.laid = [] ∧ r.track = {} ∧
    ∀ batch finish, r.worker = .batch none batch finish → batch = []
  laid : ∀ firstPts, r.firstPts = some firstPts → r.worker ≠ .exited →
    r.track.Lays n firstPts g.laid ∧ r.track.pcm.length < n * 2
  /-- At the end nothing is left. -/
  flushed : r.worker = .exited → ∀ firstPts, r.firstPts = some firstPts →
    r.track.pcm = [] ∧ r.written = layout firstPts g.laid ∧ Cadence n r.track.frames
  silent : r.ending = true → r.audioQueue = []

section Steps
variable {r : VideoRecorder α} {g : Heard} {n : Nat}

theorem evictAudio_suffix (limit size : Int) (queue : List QueuedAudio) :
    evictAudio limit size queue <:+ queue := by
  induction queue with
  | nil => exact List.suffix_refl []
  | cons q rest ih =>
    rw [evictAudio]
    split
    · exact ih.trans (List.suffix_cons q rest)
    · exact List.suffix_refl _

theorem evicted_append (r : VideoRecorder α) (audio : QueuedAudio) :
    r.evicted audio ++ evictAudio (audio.sampleRate * 2 * 10) audio.samples.length r.audioQueue =
      r.audioQueue := by
  obtain ⟨gone, hgone⟩ :=
    evictAudio_suffix (audio.sampleRate * 2 * 10) audio.samples.length r.audioQueue
  rw [evicted]
  generalize evictAudio _ _ r.audioQueue = kept at hgone ⊢
  rw [← hgone, List.length_append, Nat.add_sub_cancel, List.take_left]

/-- A block that reaches the lock is turned away or goes to the end of the queue, which may
lose blocks at its front. -/
theorem submitAudio_cases (i : Nat) (r : VideoRecorder α) (g : Heard) :
    ∃ submittingAudio,
      (r.submitAudio i = {r with submittingAudio} ∧ r.hears (.submitAudio i) g = g) ∨
      ∃ audio gone kept, r.accepting = true ∧ gone ++ kept = r.audioQueue ∧
        r.submitAudio i = {r with submittingAudio, audioQueue := kept ++ [audio]} ∧
        r.hears (.submitAudio i) g = {g with
          accepted := g.accepted ++ [audio], lost := g.lost ++ gone
          due := if r.timed then g.due ++ [audio] else kept ++ [audio]
          late := if r.timed then g.late ++ gone else g.late} := by
  rw [submitAudio, hears]
  cases hi : r.submittingAudio[i]? with
  | none => exact ⟨r.submittingAudio, .inl ⟨rfl, rfl⟩⟩
  | some audio =>
    refine ⟨r.submittingAudio.eraseIdx i, ?_⟩
    cases hacc : r.accepting with
    | false => exact .inl ⟨by simp, rfl⟩
    | true =>
      refine .inr ⟨audio, r.evicted audio, _, rfl, r.evicted_append audio, by simp, ?_⟩
      simp [submitAudio, hi, hacc]

/-- The worker waits, takes all blocks, or discards them when it was stopped too early. -/
theorem loopHead_blocks (r : VideoRecorder α) :
    (r.loopHead = r ∧ r.discards = false) ∨
      (∃ finish, r.loopHead = {r with
          queue := r.queue.tail, audioQueue := []
          worker := .batch r.queue.head? r.audioQueue finish} ∧
        r.discards = false ∧ (r.queue.head? = none → r.enc = true)) ∨
      (∃ finish, r.loopHead = {r with
          queue := r.queue.tail, audioQueue := [], worker := .batch r.queue.head? [] finish} ∧
        r.discards = true) := by
  rw [loopHead]
  split
  · rename_i hwaits
    have hstop : r.stopRequested = false := by
      cases hstop : r.stopRequested with
      | false => rfl
      | true => simp [hstop] at hwaits
    exact .inl ⟨rfl, by rw [discards, hstop, Bool.false_and, Bool.false_and]⟩
  · rename_i hgoes
    right
    cases htakes : (r.enc || r.queue.head?.isSome) with
    | true =>
      refine .inl ⟨r.stopRequested && r.queue.tail.isEmpty, by simp [htakes], ?_, ?_⟩
      · cases hq : r.queue <;> simp_all [discards]
      · intro hnone
        rwa [hnone, Option.isSome_none, Bool.or_false] at htakes
    | false =>
      rw [Bool.or_eq_false_iff] at htakes
      have hempty : r.queue = [] := by
        cases hq : r.queue with
        | nil => rfl
        | cons item rest =>
          rw [hq] at htakes
          exact absurd htakes.2.symm Bool.false_ne_true
      have hstop : r.stopRequested = true := by simpa [hempty, htakes.1] using hgoes
      refine .inr ⟨true, by simp [hstop, hempty, htakes.1], ?_⟩
      rw [discards, hstop, hempty, htakes.1]
      rfl

/-- What the callers of `submit` and `stop` do leaves the PCM where it is. -/
theorem heard_frame {r' : VideoRecorder α} (h : r.Hears g ∧ r.Lays n g)
    (hw : r'.worker = r.worker) (ha : r'.audioQueue = r.audioQueue) (he : r'.enc = r.enc)
    (hf : r'.firstPts = r.firstPts) (ht : r'.track = r.track) : r'.Hears g ∧ r'.Lays n g := by
  have hhand : r'.batchInHand = r.batchInHand := by rw [batchInHand, hw, batchInHand]
  have hend : r'.ending = r.ending := by rw [ending, hw, ending]
  refine ⟨⟨?_, ?_⟩, ⟨?_, ?_, ?_, ?_, ?_⟩⟩
  · rw [hhand, ha]
    exact h.1.inOrder
  · rw [hhand, ha]
    exact h.1.counted
  · rw [he, hf]
    exact h.2.encoder
  · rw [hf, ht, hw]
    exact h.2.early
  · rw [hf, hw, ht]
    exact h.2.laid
  · rw [written, hw, hf, ht]
    exact h.2.flushed
  · rw [hend, ha]
    exact h.2.silent

theorem submitAudio_heard (i : Nat) {passed : Passed α} (hs : r.Sound passed)
    (h : r.Hears g ∧ r.Lays n g) :
    (r.submitAudio i).Hears (r.hears (.submitAudio i) g) ∧
      (r.submitAudio i).Lays n (r.hears (.submitAudio i) g) := by
  obtain ⟨submittingAudio, ⟨heq, hg⟩ | ⟨audio, gone, kept, hacc, hkept, heq, hg⟩⟩ :=
    submitAudio_cases i r g
  · rw [heq, hg]
    exact heard_frame h rfl rfl rfl rfl rfl
  · have hsuffix : kept.Sublist r.audioQueue := by
      rw [← hkept]
      exact List.sublist_append_right gone kept
    have hlen := congrArg List.length hkept
    have hcount := h.1.counted
    have hgoing := hs.ordered.not_ending hacc
    rw [heq, hg]
    refine ⟨⟨?_, ?_⟩, h.2.encoder, h.2.early, h.2.laid, h.2.flushed, ?_⟩
    · rw [← List.append_assoc]
      exact (((List.Sublist.refl (g.laid ++ r.batchInHand)).append hsuffix).trans
        h.1.inOrder).append (List.Sublist.refl [audio])
    · show (g.accepted ++ [audio]).length = (g.lost ++ gone).length +
        (g.laid ++ r.batchInHand ++ (kept ++ [audio])).length
      simp only [List.length_append, List.length_singleton] at hlen hcount ⊢
      omega
    · intro hend
      exact absurd (hgoing.symm.trans hend) Bool.false_ne_true

theorem loopHead_heard (h : r.Hears g ∧ r.Lays n g) (hw : r.worker = .head) :
    r.loopHead.Hears
        (if r.discards then {g with lost := g.lost ++ r.audioQueue, due := []} else g) ∧
      r.loopHead.Lays n
        (if r.discards then {g with lost := g.lost ++ r.audioQueue, due := []} else g) := by
  have hhand : r.batchInHand = [] := by rw [batchInHand, hw]
  have horder := h.1.inOrder
  have hcount := h.1.counted
  have hgone : r.worker ≠ .exited := by
    rw [hw]
    exact nofun
  rw [hhand, List.append_nil] at horder hcount
  rcases loopHead_blocks r with ⟨heq, hkeeps⟩ | ⟨finish, heq, hkeeps, henc⟩ | ⟨finish, heq, hlost⟩
  · rw [heq, hkeeps]
    exact h
  · rw [heq, hkeeps, if_neg Bool.false_ne_true]
    refine ⟨⟨?_, ?_⟩, h.2.encoder, fun hnone => ?_, fun p hp _ => h.2.laid p hp hgone, nofun,
      fun _ => rfl⟩
    · rw [List.append_nil]
      exact horder
    · rw [List.append_nil]
      exact hcount
    · obtain ⟨hlaid, htrack, -⟩ := h.2.early hnone
      refine ⟨hlaid, htrack, fun batch finish' hbatch => ?_⟩
      have hhead : r.queue.head? = none := by
        injection hbatch
      have hnot : r.enc = false := by
        rw [h.2.encoder, hnone]
        rfl
      exact absurd (hnot.symm.trans (henc hhead)) Bool.false_ne_true
  · rw [heq, hlost, if_pos rfl]
    refine ⟨⟨?_, ?_⟩, h.2.encoder, fun hnone => ?_, fun p hp _ => h.2.laid p hp hgone, nofun,
      fun _ => rfl⟩
    · show (g.laid ++ [] ++ []).Sublist g.accepted
      rw [List.append_nil, List.append_nil]
      exact (List.sublist_append_left _ _).trans horder
    · show g.accepted.length = (g.lost ++ r.audioQueue).length + (g.laid ++ [] ++ []).length
      simp only [List.length_append, List.length_nil] at hcount ⊢
      omega
    · obtain ⟨hlaid, htrack, -⟩ := h.2.early hnone
      refine ⟨hlaid, htrack, fun batch finish' hbatch => ?_⟩
      injection hbatch with _ hnil
      exact hnil.symm

theorem encodeAudio_some {p : Nat} (hp : r.firstPts = some p) (batch : List QueuedAudio) :
    r.encodeAudio n batch = {r with track :=
      (batch.foldl (fun t audio => t.queuePcm p audio) r.track).encodeFrames n} := by
  rw [encodeAudio, hp]

/-- An empty track is laid from any frame on. -/
theorem Lays.track (h : r.Lays n g) {p : Nat} (hw : r.worker ≠ .exited)
    (hp : r.firstPts = none ∨ r.firstPts = some p) : r.track.Lays n p g.laid := by
  rcases hp with hnone | hsome
  · obtain ⟨hlaid, htrack, -⟩ := h.early hnone
    rw [hlaid, htrack]
    exact ⟨rfl, rfl, rfl, (Int.zero_mul _).symm, nofun, nofun⟩
  · exact (h.laid p hsome hw).1

theorem encodeAudio_lays {batch : List QueuedAudio} {p : Nat} (hn : 0 < n)
    (h : r.track.Lays n p g.laid) (hp : r.firstPts = some p) :
    (r.encodeAudio n batch).track.Lays n p (g.laid ++ batch) ∧
      (r.encodeAudio n batch).track.pcm.length < n * 2 := by
  rw [encodeAudio_some hp]
  exact ⟨(h.batch batch).encodeFrames, AudioTrack.encodeFrames_short hn _⟩

/-- The worker is at its next turn, with the batch on the track. -/
theorem laid_heard {q : VideoRecorder α} {batch : List QueuedAudio} {finish : Bool}
    (horder : (g.laid ++ batch ++ q.audioQueue).Sublist g.accepted)
    (hcount : g.accepted.length = g.lost.length + (g.laid ++ batch ++ q.audioQueue).length)
    (hsilent : finish = true → q.audioQueue = []) (henc : q.enc = q.firstPts.isSome)
    (hearly : q.firstPts = none → g.laid ++ batch = [] ∧ q.track = {})
    (hlaid : ∀ p, q.firstPts = some p →
      q.track.Lays n p (g.laid ++ batch) ∧ q.track.pcm.length < n * 2) :
    Hears {q with worker := if finish then .finishing else .head}
        {g with laid := g.laid ++ batch} ∧
      Lays n {q with worker := if finish then .finishing else .head}
        {g with laid := g.laid ++ batch} := by
  refine ⟨⟨?_, ?_⟩, henc, fun hnone => ⟨(hearly hnone).1, (hearly hnone).2, ?_⟩,
    fun p hp _ => hlaid p hp, ?_, ?_⟩
  · cases finish <;> simpa [batchInHand] using horder
  · cases finish <;> simpa [batchInHand] using hcount
  · intro batch' finish'
    cases finish <;> exact nofun
  · cases finish <;> exact nofun
  · cases finish with
    | false => exact nofun
    | true => exact fun _ => hsilent rfl

theorem process_heard {item : Option (QueuedFrame α)} {batch : List QueuedAudio} {finish : Bool}
    (hn : 0 < n) (h : r.Hears g ∧ r.Lays n g) (hw : r.worker = .batch item batch finish) :
    (r.process n item batch finish).Hears {g with laid := g.laid ++ batch} ∧
      (r.process n item batch finish).Lays n {g with laid := g.laid ++ batch} := by
  have hgone : r.worker ≠ .exited := by
    simp [hw]
  have hhand : r.batchInHand = batch := by rw [batchInHand, hw]
  have horder := h.1.inOrder
  have hcount := h.1.counted
  have hsilent : finish = true → r.audioQueue = [] := by
    intro hfinish
    apply h.2.silent
    rw [ending, hw]
    exact hfinish
  rw [hhand] at horder hcount
  cases item with
  | none =>
    cases hp : r.firstPts with
    | none =>
      obtain ⟨hlaid, htrack, hnil⟩ := h.2.early hp
      have hbatch := hnil batch finish hw
      have henc : ¬ r.enc = true := by
        rw [h.2.encoder, hp]
        exact Bool.false_ne_true
      rw [process, if_neg henc]
      exact laid_heard horder hcount hsilent h.2.encoder
        (fun _ => ⟨by rw [hlaid, hbatch]; rfl, htrack⟩) (by simp [hp])
    | some p =>
      have hlays := @encodeAudio_lays _ r g n batch p hn (h.2.track hgone (.inr hp)) hp
      have henc : r.enc = true := by
        rw [h.2.encoder, hp]
        rfl
      rw [process, if_pos henc]
      rw [encodeAudio_some hp] at hlays ⊢
      refine laid_heard horder hcount hsilent h.2.encoder
        (by simp [hp]) ?_
      intro p' hp'
      obtain rfl : p = p' := Option.some.inj (hp.symm.trans hp')
      exact hlays
  | some item =>
    have hfirst : (r.writeVideo item).firstPts = some (r.firstPts.getD item.ptsMs) := rfl
    have hp : r.firstPts = none ∨ r.firstPts = some (r.firstPts.getD item.ptsMs) := by
      cases r.firstPts with
      | none => exact .inl rfl
      | some p => exact .inr rfl
    have hlays := @encodeAudio_lays _ (r.writeVideo item) g n batch _ hn (h.2.track hgone hp) hfirst
    rw [process]
    rw [encodeAudio_some hfirst] at hlays ⊢
    refine laid_heard horder hcount hsilent rfl (by simp [hfirst]) ?_
    intro p' hp'
    obtain rfl := Option.some.inj (hfirst.symm.trans hp')
    exact hlays

theorem finishRecording_track (n : Nat) (nowMs : Int) (r : VideoRecorder α) :
    (r.finishRecording n nowMs).track = if r.enc then r.track.flushPcm n else r.track := by
  rw [finishRecording]
  split
  · dsimp only
    split <;> rfl
  · rfl

theorem finishRecording_heard (nowMs : Int) (h : r.Hears g ∧ r.Lays n g)
    (hw : r.worker = .finishing) :
    (r.finishRecording n nowMs).Hears g ∧ (r.finishRecording n nowMs).Lays n g := by
  have hhand : r.batchInHand = [] := by rw [batchInHand, hw]
  have hgone : r.worker ≠ .exited := by
    simp [hw]
  have htrack := finishRecording_track n nowMs r
  obtain ⟨track, lastFrame, heq, -⟩ := finishRecording_cases n nowMs r
  have horder := h.1.inOrder
  have hcount := h.1.counted
  rw [hhand] at horder hcount
  rw [heq] at htrack ⊢
  have hempty : r.audioQueue = [] := h.2.silent (by rw [ending, hw])
  refine ⟨⟨horder, hcount⟩, h.2.encoder, fun hnone => ?_, fun p hp hnot => absurd rfl hnot,
    fun _ p hp => ?_, fun _ => hempty⟩
  · obtain ⟨hlaid, hnew, -⟩ := h.2.early hnone
    rw [h.2.encoder, show r.firstPts = none from hnone, Option.isSome_none,
      if_neg Bool.false_ne_true] at htrack
    exact ⟨hlaid, htrack.trans hnew, by simp⟩
  · obtain ⟨hlays, hshort⟩ := h.2.laid p hp hgone
    rw [h.2.encoder, show r.firstPts = some p from hp, Option.isSome_some, if_pos rfl] at htrack
    rw [show track = r.track.flushPcm n from htrack]
    obtain ⟨hnil, hpcm⟩ := hlays.flushPcm hshort
    exact ⟨hnil, hpcm, hlays.steady.flushPcm⟩

end Steps

end VideoRecorder

/-- The recorder, with what became of the blocks. -/
def hearing (α : Type) (frameSize : Nat) : Machine (VideoRecorder α × Heard) (Event α) :=
  (machine α frameSize).watched VideoRecorder.hears

namespace VideoRecorder

theorem hearing_step {frameSize : Nat} (w : VideoRecorder α × Heard) (e : Event α)
    {passed : Passed α} (hs : w.1.Sound passed)
    (h : w.1.Hears w.2 ∧ w.1.Lays (nbSamples frameSize) w.2) :
    ((hearing α frameSize).step w e).1.Hears ((hearing α frameSize).step w e).2 ∧
      ((hearing α frameSize).step w e).1.Lays (nbSamples frameSize)
        ((hearing α frameSize).step w e).2 := by
  obtain ⟨r, g⟩ := w
  have hn : 0 < nbSamples frameSize := by
    rw [nbSamples]
    split <;> omega
  cases e with
  | offer frame hw nowMs =>
    obtain ⟨submitting, heq⟩ := r.offer_frame frame hw nowMs
    show (r.offer frame hw nowMs).Hears g ∧ (r.offer frame hw nowMs).Lays _ g
    rw [heq]
    exact heard_frame h rfl rfl rfl rfl rfl
  | submit i =>
    show (r.submit i).Hears g ∧ (r.submit i).Lays _ g
    obtain ⟨submitting, ⟨heq, -⟩ | ⟨item, -, -, ⟨heq, -⟩ | ⟨oldest, rest, -, -, heq⟩⟩⟩ :=
      submit_cases i r
    all_goals
      rw [heq]
      exact heard_frame h rfl rfl rfl rfl rfl
  | offerAudio samples stereo sampleRate nowMs =>
    obtain ⟨submittingAudio, heq⟩ := r.offerAudio_frame samples stereo sampleRate nowMs
    show (r.offerAudio samples stereo sampleRate nowMs).Hears g ∧
      (r.offerAudio samples stereo sampleRate nowMs).Lays _ g
    rw [heq]
    exact heard_frame h rfl rfl rfl rfl rfl
  | submitAudio i => exact submitAudio_heard i hs h
  | work nowMs =>
    show (r.work _ nowMs).Hears (r.hears (.work nowMs) g) ∧
      (r.work _ nowMs).Lays _ (r.hears (.work nowMs) g)
    rw [work, hears]
    cases hw : r.worker with
    | head => exact loopHead_heard h hw
    | batch item batch finish => exact process_heard hn h hw
    | finishing => exact finishRecording_heard nowMs h hw
    | exited => exact h
  | stop =>
    obtain ⟨accepting, stopRequested, audioQueue, stop, heq, -, hqueue⟩ := stopStep_frame hs.ordered
    show r.stopStep.Hears g ∧ r.stopStep.Lays _ g
    rw [heq]
    rcases hqueue with rfl | ⟨rfl, hexit⟩
    · exact heard_frame h rfl rfl rfl rfl rfl
    · have hempty : r.audioQueue = [] := h.2.silent (by rw [ending, hexit])
      exact heard_frame h rfl hempty.symm rfl rfl rfl

/-- What holds throughout a recording. -/
structure Follows (n : Nat) (w : VideoRecorder α × Heard) : Prop where
  sound : ∃ passed, w.1.Sound passed
  hears : w.1.Hears w.2
  lays : w.1.Lays n w.2

theorem follows_start (n : Nat) : Follows (α := α) n ({}, {}) :=
  ⟨⟨{}, sound_run 0 []⟩, ⟨List.Sublist.refl [], rfl⟩,
    ⟨rfl, fun _ => ⟨rfl, rfl, nofun⟩, nofun, nofun, fun _ => rfl⟩⟩

theorem Follows.step {frameSize : Nat} {w : VideoRecorder α × Heard}
    (h : Follows (nbSamples frameSize) w) (e : Event α) :
    Follows (nbSamples frameSize) ((hearing α frameSize).step w e) := by
  obtain ⟨accepted, hs⟩ := h.sound
  obtain ⟨hhears, hlays⟩ := hearing_step w e hs ⟨h.hears, h.lays⟩
  exact ⟨⟨_, hs.step e⟩, hhears, hlays⟩

theorem follows_run (frameSize : Nat) (es : List (Event α)) :
    Follows (nbSamples frameSize) ((hearing α frameSize).run ({}, {}) es) :=
  Machine.run_keeps (fun _ e h => h.step e) es (follows_start _)

end VideoRecorder

end AirPlay.Recorder
