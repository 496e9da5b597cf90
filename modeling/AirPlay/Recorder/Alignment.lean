import AirPlay.Recorder.Hearing

/-! Where the PCM of a recording is aligned with its video.

What belongs in the recording are the blocks from the first one on that is still queued
when the worker takes the first frame of video. They are all written, and in their places,
when none is evicted later and the first of them covers the lead (`track_aligned_iff`). -/
namespace AirPlay.Recorder

variable {α : Type}

namespace VideoRecorder

/-- The worker's blocks and the queued ones are those that are due, less the late ones. -/
structure Owes (r : VideoRecorder α) (g : Heard) : Prop where
  behind : g.due <:+ g.accepted
  inOrder : (g.laid ++ r.batchInHand ++ r.audioQueue).Sublist g.due
  counted : (g.late ++ (g.laid ++ r.batchInHand ++ r.audioQueue)).Perm g.due
  fresh : r.timed = false → g.due = r.audioQueue ∧ g.late = []

/-- Once a frame of video is taken, a block finds room for itself in the queue. -/
def Roomy (r : VideoRecorder α) : Event α → Prop
  | .submitAudio i => ∀ audio ∈ r.submittingAudio[i]?, r.accepting = true → r.timed = true →
      r.audioQueue = [] ∨
        values r.audioQueue + audio.samples.length ≤ audio.sampleRate * 2 * 10
  | _ => True

/-- No block is empty. -/
structure Sounding (r : VideoRecorder α) (g : Heard) : Prop where
  submitting : ∀ audio ∈ r.submittingAudio, audio.samples ≠ []
  accepted : ∀ audio ∈ g.accepted, audio.samples ≠ []

/-- Where blocks are lost, the PCM can still be in its place when the first one is lost with
them, or when as much is lost as the first one leaves of the lead. -/
def MadeUp (firstPts : Nat) (g : Heard) : Prop :=
  g.laid.head? ≠ g.due.head? ∨
    ¬ Covered firstPts g.due ∧ framesOf g.late + framesOf g.due.head?.toList =
      min (framesOf g.due) (framesIn (firstPts - startMs g.due))

section Steps
variable {r : VideoRecorder α} {g : Heard} {n : Nat}

/-- Before the first frame of video the worker has nothing. -/
theorem Lays.untimed (h : r.Lays n g) (ht : r.timed = false) :
    g.laid ++ r.batchInHand ++ r.audioQueue = r.audioQueue := by
  rw [timed, Bool.or_eq_false_iff] at ht
  have hnone : r.firstPts = none := by
    rw [← Option.isNone_iff_eq_none, ← Option.not_isSome, ← h.encoder, ht.1]
    rfl
  obtain ⟨hlaid, -, hbatch⟩ := h.early hnone
  have hhand : r.batchInHand = [] := by
    rw [batchInHand]
    cases hw : r.worker with
    | batch item batch finish =>
      cases item with
      | none => exact hbatch batch finish hw
      | some item =>
        have htaken := ht.2
        rw [hw] at htaken
        exact absurd htaken.symm Bool.false_ne_true
    | _ => rfl
  rw [hlaid, hhand]
  rfl

/-- What moves blocks from the queue to the worker, or from there to the track, leaves them. -/
theorem Owes.moved {r' : VideoRecorder α} {g' : Heard} (h : r.Owes g) (hd : g'.due = g.due)
    (hl : g'.late = g.late) (ha : g'.accepted = g.accepted)
    (hall : g'.laid ++ r'.batchInHand ++ r'.audioQueue = g.laid ++ r.batchInHand ++ r.audioQueue)
    (ht : r'.timed = false → r.timed = false ∧ r'.audioQueue = r.audioQueue) : r'.Owes g' := by
  refine ⟨?_, ?_, ?_, fun htimed => ?_⟩
  · rw [hd, ha]
    exact h.behind
  · rw [hd, hall]
    exact h.inOrder
  · rw [hd, hl, hall]
    exact h.counted
  · obtain ⟨huntimed, hqueue⟩ := ht htimed
    rw [hd, hl, hqueue]
    exact h.fresh huntimed

theorem owes_frame {r' : VideoRecorder α} (h : r.Owes g) (hw : r'.worker = r.worker)
    (ha : r'.audioQueue = r.audioQueue) (he : r'.enc = r.enc) : r'.Owes g := by
  have hhand : r'.batchInHand = r.batchInHand := by rw [batchInHand, hw, batchInHand]
  have htimed : r'.timed = r.timed := by rw [timed, he, hw, timed]
  exact h.moved rfl rfl rfl (by rw [hhand, ha]) fun ht => ⟨htimed ▸ ht, ha⟩

theorem submitAudio_owes (i : Nat) (hl : r.Lays n g) (h : r.Owes g) :
    (r.submitAudio i).Owes (r.hears (.submitAudio i) g) := by
  obtain ⟨submittingAudio, ⟨heq, hg⟩ | ⟨audio, gone, kept, -, hkept, heq, hg⟩⟩ :=
    submitAudio_cases i r g
  · rw [heq, hg]
    exact owes_frame h rfl rfl rfl
  · rw [heq, hg]
    have hsuffix : kept <:+ r.audioQueue := ⟨gone, hkept⟩
    cases ht : r.timed with
    | false =>
      obtain ⟨hdue, hlate⟩ := h.fresh ht
      have hnone := hl.untimed ht
      have hbehind : r.audioQueue <:+ g.accepted := hdue ▸ h.behind
      have hempty : g.laid ++ r.batchInHand = [] := by
        rw [List.append_left_eq_self] at hnone
        exact hnone
      refine ⟨?_, ?_, ?_, fun _ => ⟨rfl, hlate⟩⟩
      · exact (List.suffix_append_inj_of_length_eq rfl).mpr ⟨hsuffix.trans hbehind, rfl⟩
      · show (g.laid ++ r.batchInHand ++ (kept ++ [audio])).Sublist (kept ++ [audio])
        rw [hempty]
        exact List.Sublist.refl _
      · show (g.late ++ (g.laid ++ r.batchInHand ++ (kept ++ [audio]))).Perm (kept ++ [audio])
        rw [hempty, hlate]
        exact List.Perm.refl _
    | true =>
      have hfresh : ¬ r.timed = false := by
        rw [ht]
        exact Bool.false_ne_true.symm
      refine ⟨?_, ?_, ?_, fun hf => absurd hf hfresh⟩
      · exact (List.suffix_append_inj_of_length_eq rfl).mpr ⟨h.behind, rfl⟩
      · show (g.laid ++ r.batchInHand ++ (kept ++ [audio])).Sublist (g.due ++ [audio])
        rw [← List.append_assoc]
        exact (((List.Sublist.refl _).append hsuffix.sublist).trans h.inOrder).append
          (List.Sublist.refl [audio])
      · show ((g.late ++ gone) ++ (g.laid ++ r.batchInHand ++ (kept ++ [audio]))).Perm
          (g.due ++ [audio])
        have hmove : (gone ++ ((g.laid ++ r.batchInHand) ++ (kept ++ [audio]))).Perm
            ((g.laid ++ r.batchInHand) ++ (gone ++ (kept ++ [audio]))) :=
          List.perm_append_comm_assoc _ _ _
        have hcounted := h.counted.append_right [audio]
        rw [← hkept] at hcounted
        simp only [List.append_assoc] at hmove hcounted ⊢
        exact (hmove.append_left g.late).trans hcounted

theorem loopHead_owes (hl : r.Lays n g) (h : r.Owes g) (hw : r.worker = .head) :
    r.loopHead.Owes
      (if r.discards then {g with lost := g.lost ++ r.audioQueue, due := []} else g) := by
  have hhand : r.batchInHand = [] := by rw [batchInHand, hw]
  rcases loopHead_blocks r with ⟨heq, hkeeps⟩ | ⟨finish, heq, hkeeps, henc⟩ | ⟨finish, heq, hlost⟩
  · rw [heq, hkeeps]
    exact h
  · rw [heq, hkeeps, if_neg Bool.false_ne_true]
    refine h.moved rfl rfl rfl ?_ fun ht => ?_
    · rw [hhand, List.append_nil, List.append_nil]
      rfl
    · rw [timed, Bool.or_eq_false_iff] at ht
      cases hq : r.queue.head? with
      | none => exact absurd (ht.1.symm.trans (henc hq)) Bool.false_ne_true
      | some item =>
        have htaken := ht.2
        dsimp only at htaken
        rw [hq] at htaken
        exact absurd htaken.symm Bool.false_ne_true
  · have ht : r.timed = false := by
      rw [discards, Bool.and_eq_true, Bool.not_eq_true'] at hlost
      rw [timed, hlost.2, hw]
      rfl
    have hempty := hl.untimed ht
    rw [hhand, List.append_nil, List.append_left_eq_self] at hempty
    rw [heq, hlost, if_pos rfl]
    refine ⟨List.nil_suffix, ?_, ?_, fun _ => ⟨rfl, (h.fresh ht).2⟩⟩
    · show (g.laid ++ [] ++ []).Sublist []
      rw [hempty]
      exact List.Sublist.refl []
    · show (g.late ++ (g.laid ++ [] ++ [])).Perm []
      rw [hempty, (h.fresh ht).2]
      exact List.Perm.refl []

theorem process_owes {item : Option (QueuedFrame α)} {batch : List QueuedAudio} {finish : Bool}
    (h : r.Owes g) (hw : r.worker = .batch item batch finish) :
    (r.process n item batch finish).Owes {g with laid := g.laid ++ batch} := by
  have hhand : r.batchInHand = batch := by rw [batchInHand, hw]
  obtain ⟨track, heq⟩ := process_cases n item batch finish r
  rw [heq]
  refine h.moved rfl rfl rfl ?_ fun ht => ?_
  · rw [hhand]
    cases item <;> cases finish <;> simp [batchInHand, writeVideo]
  · rw [timed, Bool.or_eq_false_iff] at ht
    cases item with
    | none => exact ⟨by rw [timed, hw]; simpa using ht.1, rfl⟩
    | some item => exact absurd ht.1.symm Bool.false_ne_true

theorem Owes.step {frameSize : Nat} {passed : Passed α} (hs : r.Sound passed)
    (hl : r.Lays (nbSamples frameSize) g) (h : r.Owes g) (e : Event α) :
    ((machine α frameSize).step r e).Owes (r.hears e g) := by
  cases e with
  | offer frame hw nowMs =>
    obtain ⟨submitting, heq⟩ := r.offer_frame frame hw nowMs
    show (r.offer frame hw nowMs).Owes g
    rw [heq]
    exact owes_frame h rfl rfl rfl
  | submit i =>
    show (r.submit i).Owes g
    obtain ⟨submitting, ⟨heq, -⟩ | ⟨item, -, -, ⟨heq, -⟩ | ⟨oldest, rest, -, -, heq⟩⟩⟩ :=
      submit_cases i r
    all_goals
      rw [heq]
      exact owes_frame h rfl rfl rfl
  | offerAudio samples stereo sampleRate nowMs =>
    obtain ⟨submittingAudio, heq⟩ := r.offerAudio_frame samples stereo sampleRate nowMs
    show (r.offerAudio samples stereo sampleRate nowMs).Owes g
    rw [heq]
    exact owes_frame h rfl rfl rfl
  | submitAudio i => exact submitAudio_owes i hl h
  | work nowMs =>
    show (r.work _ nowMs).Owes (r.hears (.work nowMs) g)
    rw [work, hears]
    cases hw : r.worker with
    | head => exact loopHead_owes hl h hw
    | batch item batch finish => exact process_owes h hw
    | finishing =>
      obtain ⟨track, lastFrame, heq, -⟩ := finishRecording_cases (nbSamples frameSize) nowMs r
      have hhand : r.batchInHand = [] := by rw [batchInHand, hw]
      dsimp only
      rw [heq]
      refine h.moved rfl rfl rfl (by rw [hhand]; rfl) fun ht => ⟨?_, rfl⟩
      rw [timed, hw]
      rwa [timed] at ht
    | exited => exact h
  | stop =>
    obtain ⟨accepting, stopRequested, audioQueue, stop, heq, -, hqueue⟩ := stopStep_frame hs.ordered
    show r.stopStep.Owes g
    rw [heq]
    rcases hqueue with rfl | ⟨rfl, hexit⟩
    · exact owes_frame h rfl rfl rfl
    · have hempty : r.audioQueue = [] := hl.silent (by rw [ending, hexit])
      exact owes_frame h rfl hempty.symm rfl

theorem offerAudio_sounding (samples : List Int16) (stereo : samples.length % 2 = 0)
    (sampleRate nowMs : Int) (h : ∀ audio ∈ r.submittingAudio, audio.samples ≠ []) :
    ∀ audio ∈ (r.offerAudio samples stereo sampleRate nowMs).submittingAudio,
      audio.samples ≠ [] := by
  rw [offerAudio]
  split
  · exact h
  · rename_i hgoes
    intro audio haudio
    rcases List.mem_append.mp haudio with hold | hnew
    · exact h audio hold
    · rw [List.mem_singleton.mp hnew]
      intro hnil
      exact hgoes (by simp [show samples = [] from hnil])

theorem submitAudio_sounding (i : Nat) (h : r.Sounding g) :
    (r.submitAudio i).Sounding (r.hears (.submitAudio i) g) := by
  rw [submitAudio, hears]
  cases hi : r.submittingAudio[i]? with
  | none => exact h
  | some audio =>
    have herase : ∀ audio ∈ r.submittingAudio.eraseIdx i, audio.samples ≠ [] := fun audio haudio =>
      h.submitting audio (List.mem_of_mem_eraseIdx haudio)
    cases hacc : r.accepting with
    | false => exact ⟨by simpa using herase, h.accepted⟩
    | true =>
      refine ⟨by simpa using herase, ?_⟩
      intro audio' haudio'
      rcases List.mem_append.mp haudio' with hold | hnew
      · exact h.accepted audio' hold
      · rw [List.mem_singleton.mp hnew]
        exact h.submitting audio (List.mem_of_getElem? hi)

theorem work_submittingAudio (nowMs : Int) (r : VideoRecorder α) :
    (r.work n nowMs).submittingAudio = r.submittingAudio := by
  rw [work]
  cases r.worker with
  | head =>
    dsimp only
    rcases loopHead_cases r with heq | ⟨_, _, _, heq, -⟩
    · rw [heq]
    · rw [heq]
  | batch item batch finish =>
    obtain ⟨track, heq⟩ := process_cases n item batch finish r
    dsimp only
    rw [heq]
    cases item <;> rfl
  | finishing =>
    obtain ⟨_, _, heq, -⟩ := finishRecording_cases n nowMs r
    dsimp only
    rw [heq]
  | exited => rfl

theorem work_accepted (nowMs : Int) (r : VideoRecorder α) (g : Heard) :
    (r.hears (.work nowMs) g).accepted = g.accepted := by
  rw [hears]
  cases r.worker with
  | head => dsimp only; split <;> rfl
  | _ => rfl

theorem Sounding.step {frameSize : Nat} {passed : Passed α} (hs : r.Sound passed)
    (h : r.Sounding g) (e : Event α) :
    ((machine α frameSize).step r e).Sounding (r.hears e g) := by
  cases e with
  | offer frame hw nowMs =>
    obtain ⟨submitting, heq⟩ := r.offer_frame frame hw nowMs
    show (r.offer frame hw nowMs).Sounding g
    rw [heq]
    exact ⟨h.submitting, h.accepted⟩
  | submit i =>
    show (r.submit i).Sounding g
    obtain ⟨submitting, ⟨heq, -⟩ | ⟨item, -, -, ⟨heq, -⟩ | ⟨oldest, rest, -, -, heq⟩⟩⟩ :=
      submit_cases i r
    all_goals
      rw [heq]
      exact ⟨h.submitting, h.accepted⟩
  | offerAudio samples stereo sampleRate nowMs =>
    exact ⟨offerAudio_sounding samples stereo sampleRate nowMs h.submitting, h.accepted⟩
  | submitAudio i => exact submitAudio_sounding i h
  | work nowMs =>
    refine ⟨?_, ?_⟩
    · show ∀ audio ∈ (r.work _ nowMs).submittingAudio, audio.samples ≠ []
      rw [work_submittingAudio]
      exact h.submitting
    · rw [work_accepted]
      exact h.accepted
  | stop =>
    obtain ⟨accepting, stopRequested, audioQueue, stop, heq, -⟩ := stopStep_frame hs.ordered
    show r.stopStep.Sounding g
    rw [heq]
    exact ⟨h.submitting, h.accepted⟩

/-- Nothing is evicted for a block that finds room. -/
theorem evicted_eq_nil_iff (audio : QueuedAudio) : r.evicted audio = [] ↔
    (r.audioQueue = [] ∨
      values r.audioQueue + audio.samples.length ≤ audio.sampleRate * 2 * 10) := by
  have happend := r.evicted_append audio
  cases hq : r.audioQueue with
  | nil =>
    rw [hq] at happend
    exact iff_of_true (List.append_eq_nil_iff.mp happend).1 (.inl rfl)
  | cons q rest =>
    rw [hq, evictAudio] at happend
    split at happend
    · rename_i hfull
      refine iff_of_false (fun hnil => ?_) (fun h => ?_)
      · rw [hnil, List.nil_append] at happend
        have hsuffix :=
          evictAudio_suffix (audio.sampleRate * 2 * 10) audio.samples.length rest
        rw [happend] at hsuffix
        have hle := hsuffix.length_le
        rw [List.length_cons] at hle
        omega
      · rcases h with hnil | hroom
        · exact absurd hnil (List.cons_ne_nil q rest)
        · omega
    · rename_i hroom
      exact iff_of_true (List.append_left_eq_self.mp happend) (.inr (by omega))

/-- A block is late when one behind it finds no room. -/
theorem hears_late_eq_nil_iff (e : Event α) :
    (r.hears e g).late = [] ↔ g.late = [] ∧ r.Roomy e := by
  have hkeeps : ∀ {g' : Heard} {room : Prop}, g'.late = g.late → room →
      (g'.late = [] ↔ g.late = [] ∧ room) := by
    intro g' room hlate hroom
    rw [hlate, and_iff_left hroom]
  cases e with
  | submitAudio i =>
    rw [hears, Roomy]
    cases hi : r.submittingAudio[i]? with
    | none => exact hkeeps rfl fun audio haudio => absurd haudio (Option.not_mem_none audio)
    | some audio =>
      cases hacc : r.accepting with
      | false => exact hkeeps rfl fun _ _ h => absurd h Bool.false_ne_true
      | true =>
        cases ht : r.timed with
        | false => exact hkeeps rfl fun _ _ _ h => absurd h Bool.false_ne_true
        | true =>
          simp only [if_true, List.append_eq_nil_iff, evicted_eq_nil_iff, Option.mem_some_iff,
            forall_eq', forall_const]
  | work nowMs =>
    refine hkeeps ?_ trivial
    rw [hears]
    cases r.worker with
    | head => dsimp only; split <;> rfl
    | _ => rfl
  | _ => exact hkeeps rfl trivial

end Steps

theorem late_eq_nil_iff {frameSize : Nat} (es : List (Event α)) (w : VideoRecorder α × Heard) :
    ((hearing α frameSize).run w es).2.late = [] ↔
      w.2.late = [] ∧ (machine α frameSize).Meets Roomy w.1 es := by
  induction es generalizing w with
  | nil => exact (and_iff_left trivial).symm
  | cons e rest ih =>
    refine (ih _).trans ?_
    rw [show ((hearing α frameSize).step w e).2.late = (w.1.hears e w.2).late from rfl,
      hears_late_eq_nil_iff, and_assoc]
    rfl

theorem owes_run (frameSize : Nat) (es : List (Event α)) :
    ((hearing α frameSize).run ({}, {}) es).1.Owes ((hearing α frameSize).run ({}, {}) es).2 ∧
      ((hearing α frameSize).run ({}, {}) es).1.Sounding
        ((hearing α frameSize).run ({}, {}) es).2 := by
  have hkeeps : ∀ (w : VideoRecorder α × Heard) (e : Event α),
      Follows (nbSamples frameSize) w ∧ w.1.Owes w.2 ∧ w.1.Sounding w.2 →
        Follows (nbSamples frameSize) ((hearing α frameSize).step w e) ∧
          ((hearing α frameSize).step w e).1.Owes ((hearing α frameSize).step w e).2 ∧
          ((hearing α frameSize).step w e).1.Sounding ((hearing α frameSize).step w e).2 := by
    rintro w e ⟨h, howes, hsounding⟩
    obtain ⟨accepted, hs⟩ := h.sound
    exact ⟨h.step e, howes.step hs h.lays e, hsounding.step hs e⟩
  refine (Machine.run_keeps hkeeps es ⟨follows_start _, ?_, nofun, nofun⟩).2
  exact ⟨List.suffix_refl [], List.Sublist.refl [], List.Perm.refl [], fun _ => ⟨rfl, rfl⟩⟩

/-- When the recording is over, and no block was evicted after the first frame of video was
taken, its PCM is aligned with that frame exactly when the first block still queued then covers
the lead, or is the only one. With evictions it can be aligned only where they make up for one
another. The blocks laid are those that are due less the late ones, in order, and the frames
of AAC follow each other from time zero. -/
theorem track_aligned_iff (frameSize : Nat) (es : List (Event α)) (firstPts : Nat)
    (hexit : ((hearing α frameSize).run ({}, {}) es).1.worker = .exited)
    (hfirst : ((hearing α frameSize).run ({}, {}) es).1.firstPts = some firstPts) :
    let w := (hearing α frameSize).run ({}, {}) es
    ((machine α frameSize).Meets Roomy {} es →
        (Aligned firstPts w.2.due w.1.written ↔ Covered firstPts w.2.due)) ∧
      (¬ (machine α frameSize).Meets Roomy {} es → Aligned firstPts w.2.due w.1.written →
        MadeUp firstPts w.2) ∧
      w.2.due <:+ w.2.accepted ∧ w.2.laid.Sublist w.2.due ∧
      (w.2.late ++ w.2.laid).Perm w.2.due ∧
      w.2.accepted.length = w.2.lost.length + w.2.laid.length ∧
      Cadence (nbSamples frameSize) w.1.track.frames := by
  intro w
  obtain ⟨-, hhears, hlays⟩ := @follows_run α frameSize es
  obtain ⟨howes, hsounding⟩ := @owes_run α frameSize es
  obtain ⟨-, hwritten, hcadence⟩ := hlays.flushed hexit firstPts hfirst
  have hempty : w.1.audioQueue = [] := hlays.silent (by rw [ending, hexit])
  have hhand : w.1.batchInHand = [] := by rw [batchInHand, hexit]
  have hcount := hhears.counted
  have horder := howes.inOrder
  have hcounted := howes.counted
  rw [hempty, hhand, List.append_nil, List.append_nil] at hcount horder hcounted
  have hlate : w.2.late = [] ↔ (machine α frameSize).Meets Roomy {} es :=
    (late_eq_nil_iff es ({}, {})).trans (and_iff_right rfl)
  refine ⟨fun hroomy => ?_, fun hfull haligned => ?_, howes.behind, horder, hcounted, hcount,
    hcadence⟩
  · have hall : w.2.laid = w.2.due := by
      rw [hlate.mpr hroomy, List.nil_append] at hcounted
      exact horder.eq_of_length hcounted.length_eq
    rw [hwritten, ← hall]
    exact layout_aligned_iff firstPts _
  · by_cases hhead : w.2.laid.head? = w.2.due.head?
    · rw [hwritten] at haligned
      have hmade := lost_of_aligned hcounted hhead haligned
      have hpos : 0 < framesOf w.2.late := by
        refine framesOf_pos (fun hnil => hfull (hlate.mp hnil)) fun b hb => ?_
        refine hsounding.accepted b (howes.behind.subset ?_)
        exact hcounted.subset (List.mem_append_left _ hb)
      obtain ⟨hlead, hmore, heq⟩ := lead_of_lost hmade hpos
      refine .inr ⟨?_, heq⟩
      rintro (hcovers | honly)
      · exact absurd hcovers (not_le.mpr hlead)
      · exact hmore honly
    · exact .inl hhead

/-- Ten milliseconds of PCM. -/
def tone (v : Int16) : List Int16 := List.replicate 882 v

theorem tone_length (v : Int16) : (tone v).length = 882 := List.length_replicate

theorem tone_stereo (v : Int16) : (tone v).length % 2 = 0 := by rw [tone_length]

/-- The first frame of video comes five milliseconds into the first of two blocks, and a third
one behind it. -/
def withinBlock : List (Event Unit) :=
  [.offer () false 5, .offerAudio (tone 1) (tone_stereo 1) 44100 10, .submitAudio 0,
    .offerAudio (tone 2) (tone_stereo 2) 44100 20, .submitAudio 0, .submit 0, .work 20, .work 20,
    .offerAudio (tone 3) (tone_stereo 3) 44100 30, .submitAudio 0, .work 30, .work 30,
    .stop, .stop, .work 31, .work 31, .work 31]

set_option maxRecDepth 20000 in
/-- The first two blocks come before a frame of video is taken, and the third one finds the
queue empty. -/
theorem withinBlock_roomy : (machine Unit 1024).Meets Roomy {} withinBlock :=
  ⟨trivial, trivial, fun _ _ _ h => absurd h Bool.false_ne_true, trivial,
    fun _ _ _ h => absurd h Bool.false_ne_true, trivial, trivial, trivial, trivial,
    fun _ _ _ _ => .inl rfl, trivial, trivial, trivial, trivial, trivial, trivial, trivial,
    trivial⟩

set_option maxRecDepth 20000 in
theorem withinBlock_due : ((hearing Unit 1024).run ({}, {}) withinBlock).2.due =
    [⟨tone 1, tone_stereo 1, 44100, 0⟩, ⟨tone 2, tone_stereo 2, 44100, 10⟩,
      ⟨tone 3, tone_stereo 3, 44100, 20⟩] := rfl

/-- Of the first block 220 frames go. -/
theorem track_aligned_iff_within :
    Aligned 5 ((hearing Unit 1024).run ({}, {}) withinBlock).2.due
      ((hearing Unit 1024).run ({}, {}) withinBlock).1.written := by
  apply ((track_aligned_iff 1024 withinBlock 5 rfl rfl).1 withinBlock_roomy).mpr
  rw [withinBlock_due]
  refine covered_cons ?_ _
  rw [tone_length]
  decide

/-- Two blocks before the first frame of video and one after it. -/
def twoBefore : List (Event Unit) :=
  [.offerAudio (tone 1) (tone_stereo 1) 44100 10, .submitAudio 0,
    .offerAudio (tone 2) (tone_stereo 2) 44100 20, .submitAudio 0,
    .offer () false 20, .submit 0, .work 20, .work 20,
    .offerAudio (tone 3) (tone_stereo 3) 44100 30, .submitAudio 0, .work 30, .work 30,
    .stop, .stop, .work 31, .work 31, .work 31]

set_option maxRecDepth 20000 in
theorem twoBefore_due : ((hearing Unit 1024).run ({}, {}) twoBefore).2.due =
    [⟨tone 1, tone_stereo 1, 44100, 0⟩, ⟨tone 2, tone_stereo 2, 44100, 10⟩,
      ⟨tone 3, tone_stereo 3, 44100, 20⟩] := rfl

set_option maxRecDepth 20000 in
theorem twoBefore_laid : ((hearing Unit 1024).run ({}, {}) twoBefore).2.laid =
    ((hearing Unit 1024).run ({}, {}) twoBefore).2.due := rfl

/-- Of a lead of two blocks only the first one goes. -/
theorem lead_of_two {firstPts : Nat} {a b c : QueuedAudio} {n : Nat}
    (ha : a.samples.length = 2 * n) (hb : b.samples.length = 2 * n)
    (hc : c.samples.length = 2 * n) (hlead : framesIn (firstPts - a.ptsMs) = 2 * n)
    (hsilence : framesIn (a.ptsMs - firstPts) = 0) :
    layout firstPts [a, b, c] = b.samples ++ c.samples ∧
      expected firstPts [a, b, c] = c.samples := by
  have hall : samplesOf [a, b, c] = (a.samples ++ b.samples) ++ c.samples := by simp [samplesOf]
  have hlen : (samplesOf [a, b, c]).length = 6 * n := by
    rw [hall, List.length_append, List.length_append]
    omega
  have hfirst : 2 * min (a.samples.length / 2) (2 * n) = a.samples.length := by omega
  have hboth : 2 * min (6 * n / 2) (2 * n) = (a.samples ++ b.samples).length := by
    rw [List.length_append]
    omega
  constructor
  · rw [layout, opening, hlead, hsilence, hfirst, List.drop_length]
    simp [samplesOf]
  · rw [expected, hlen, show startMs [a, b, c] = a.ptsMs from rfl, hlead, hsilence, hboth, hall,
      List.drop_left]
    rfl

/-- The lead is two blocks; the second one is still there, and delays the sound by its length. -/
theorem two_before_delay :
    ((hearing Unit 1024).run ({}, {}) twoBefore).1.worker = .exited ∧
      ((hearing Unit 1024).run ({}, {}) twoBefore).1.firstPts = some 20 ∧
      ((hearing Unit 1024).run ({}, {}) twoBefore).1.written = tone 2 ++ tone 3 ∧
      expected 20 ((hearing Unit 1024).run ({}, {}) twoBefore).2.due = tone 3 ∧
      ¬ Aligned 20 ((hearing Unit 1024).run ({}, {}) twoBefore).2.due
        ((hearing Unit 1024).run ({}, {}) twoBefore).1.written := by
  have hwritten := ((follows_run 1024 twoBefore).lays.flushed rfl 20 rfl).2.1
  have hlead : framesIn ((20 : Nat) - 0) = 2 * 441 := by
    rw [framesIn, audioRate]
    omega
  have hsilence : framesIn (0 - (20 : Nat)) = 0 := by
    rw [framesIn, audioRate]
    omega
  have hlists := @lead_of_two 20 ⟨tone 1, tone_stereo 1, 44100, 0⟩
    ⟨tone 2, tone_stereo 2, 44100, 10⟩ ⟨tone 3, tone_stereo 3, 44100, 20⟩ 441 (tone_length 1)
    (tone_length 2) (tone_length 3) hlead hsilence
  rw [twoBefore_laid, twoBefore_due] at hwritten
  rw [twoBefore_due]
  refine ⟨rfl, rfl, hwritten.trans hlists.1, hlists.2, fun h => ?_⟩
  have hsame : tone 2 ++ tone 3 = tone 3 :=
    hlists.1.symm.trans (hwritten.symm.trans (h.pcm.trans hlists.2))
  have hlens := congrArg List.length hsame
  rw [List.length_append, tone_length, tone_length] at hlens
  omega

end VideoRecorder

end AirPlay.Recorder
