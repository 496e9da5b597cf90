import AirPlay.Recorder.Conservation

/-! How many frames wait for the worker.

A queue of 90 frames is short enough for the memory, but two surfaces are what the decoder
can spare. A push gives back the oldest frame at most: where that is a software frame, the
queue has one surface more (`queue_bounded_iff`). -/
namespace AirPlay.Recorder

variable {α : Type}

/-- A frame is offered as what it is. -/
def Event.kinded (isHw : α → Bool) : Event α → Event α
  | .offer frame _ nowMs => .offer frame (isHw frame) nowMs
  | e => e

/-- The recorder, where each frame is offered as what it is. -/
def kinded (isHw : α → Bool) (frameSize : Nat) : Machine (VideoRecorder α) (Event α) :=
  ⟨fun r e => (machine α frameSize).step r (e.kinded isHw)⟩

def surfaces (isHw : α → Bool) (queue : List (QueuedFrame α)) : Nat :=
  queue.countP fun item => isHw item.frame

/-- The limits of the queue: frames, and among them surfaces. -/
structure Bounded (isHw : α → Bool) (r : VideoRecorder α) : Prop where
  frames : r.queue.length ≤ kMaxQueuedFrames
  surfaces : surfaces isHw r.queue ≤ 2

/-- No surface is pushed while two of them wait behind a software frame. -/
def Lends (isHw : α → Bool) (r : VideoRecorder α) : Event α → Prop
  | .submit i => ∀ s ∈ r.submitting[i]?, r.accepting = true → isHw s.1.frame = true →
      surfaces isHw r.queue = 2 → ∀ oldest ∈ r.queue.head?, isHw oldest.frame = true
  | _ => True

/-- The frames past the first check are known for what they are. -/
def Kinded (isHw : α → Bool) (r : VideoRecorder α) : Prop :=
  ∀ s ∈ r.submitting, s.2 = isHw s.1.frame

section Steps
variable {isHw : α → Bool} {frameSize : Nat} {r : VideoRecorder α}

theorem surfaces_cons (oldest : QueuedFrame α) (rest : List (QueuedFrame α)) :
    surfaces isHw (oldest :: rest) = surfaces isHw rest + (isHw oldest.frame).toNat := by
  rw [surfaces, List.countP_cons]
  cases isHw oldest.frame <;> rfl

theorem surfaces_concat (queue : List (QueuedFrame α)) (item : QueuedFrame α) :
    surfaces isHw (queue ++ [item]) = surfaces isHw queue + (isHw item.frame).toNat := by
  rw [surfaces, List.countP_append]
  show surfaces isHw queue + surfaces isHw [item] = _
  rw [surfaces_cons]
  exact congrArg (_ + ·) (Nat.zero_add _)

theorem Bounded.sublist (h : Bounded isHw r) {r' : VideoRecorder α}
    (hsub : r'.queue.Sublist r.queue) : Bounded isHw r' :=
  ⟨hsub.length_le.trans h.frames, hsub.countP_le.trans h.surfaces⟩

/-- In the place of the oldest frame, only a third surface for a software frame exceeds. -/
theorem surfaces_exchange_iff {oldest item : QueuedFrame α} {rest : List (QueuedFrame α)}
    (h : surfaces isHw (oldest :: rest) ≤ 2) :
    surfaces isHw (rest ++ [item]) ≤ 2 ↔
      (isHw item.frame = true → surfaces isHw (oldest :: rest) = 2 →
        isHw oldest.frame = true) := by
  rw [surfaces_cons] at h ⊢
  rw [surfaces_concat]
  generalize isHw oldest.frame = hwOldest at h ⊢
  cases isHw item.frame <;> cases hwOldest <;> simp at h ⊢ <;> omega

/-- In a queue that has room no surface exceeds. -/
theorem surfaces_room {item : QueuedFrame α} {queue : List (QueuedFrame α)}
    (h : surfaces isHw queue ≤ 2) (hroom : isHw item.frame = true → queue.length < 2) :
    surfaces isHw (queue ++ [item]) ≤ 2 := by
  rw [surfaces_concat]
  cases hitem : isHw item.frame with
  | false => exact h
  | true => exact Nat.lt_of_le_of_lt List.countP_le_length (hroom hitem)

/-- A push keeps the limits, but where it gives back a software frame for a third surface. -/
theorem bounded_pushFrame_iff (item : QueuedFrame α) (h : Bounded isHw r) :
    Bounded isHw (r.pushFrame item (isHw item.frame)) ↔
      (isHw item.frame = true → surfaces isHw r.queue = 2 →
        ∀ oldest ∈ r.queue.head?, isHw oldest.frame = true) := by
  obtain ⟨hframes, hsurfaces⟩ := h
  have hlimit : 0 < if isHw item.frame then 2 else kMaxQueuedFrames := by
    cases isHw item.frame <;> decide
  rw [VideoRecorder.pushFrame]
  by_cases hfull : r.queue.length ≥ if isHw item.frame then 2 else kMaxQueuedFrames
  · obtain ⟨oldest, rest, hqueue⟩ :=
      List.exists_cons_of_length_pos (Nat.lt_of_lt_of_le hlimit hfull)
    have hlength : (rest ++ [item]).length = r.queue.length := by
      rw [hqueue, List.length_append, List.length_singleton, List.length_cons]
    have hexchange := @surfaces_exchange_iff α isHw oldest item rest (hqueue ▸ hsurfaces)
    rw [if_pos hfull, hqueue, List.head?_cons, List.tail_cons]
    simp only [Option.mem_some_iff, forall_eq']
    exact ⟨fun h => hexchange.mp h.surfaces, fun h => ⟨hlength ▸ hframes, hexchange.mpr h⟩⟩
  · have hroom : r.queue.length < 90 ∧ (isHw item.frame = true → r.queue.length < 2) := by
      cases hitem : isHw item.frame with
      | false => exact ⟨by rwa [hitem, Nat.not_le] at hfull, fun h => absurd h Bool.false_ne_true⟩
      | true =>
        rw [hitem, Nat.not_le] at hfull
        exact ⟨Nat.lt_of_lt_of_le hfull (by decide), fun _ => hfull⟩
    rw [if_neg hfull]
    refine iff_of_true ⟨?_, surfaces_room hsurfaces hroom.2⟩ fun hitem htwo => ?_
    · rw [List.length_append, List.length_singleton]
      exact hroom.1
    · exact absurd (htwo ▸ List.countP_le_length) (Nat.not_le.mpr (hroom.2 hitem))

/-- Only a push puts a frame into the queue. -/
theorem step_aside (h : Kinded isHw r) (e : Event α) (he : ∀ i, e ≠ .submit i) :
    ((kinded isHw frameSize).step r e).queue.Sublist r.queue ∧
      Kinded isHw ((kinded isHw frameSize).step r e) := by
  cases e with
  | submit i => exact absurd rfl (he i)
  | offer frame hw nowMs =>
    show (r.offer frame (isHw frame) nowMs).queue.Sublist _ ∧
      Kinded isHw (r.offer frame (isHw frame) nowMs)
    rw [VideoRecorder.offer]
    split
    · refine ⟨List.Sublist.refl _, fun s hs => ?_⟩
      rcases List.mem_append.mp hs with hs | hs
      · exact h s hs
      · rw [List.mem_singleton.mp hs]
    · exact ⟨List.Sublist.refl _, h⟩
  | offerAudio samples stereo sampleRate nowMs =>
    obtain ⟨submittingAudio, heq⟩ := r.offerAudio_frame samples stereo sampleRate nowMs
    show (r.offerAudio samples stereo sampleRate nowMs).queue.Sublist _ ∧
      Kinded isHw (r.offerAudio samples stereo sampleRate nowMs)
    rw [heq]
    exact ⟨List.Sublist.refl _, h⟩
  | submitAudio i =>
    obtain ⟨submittingAudio, audioQueue, heq⟩ := r.submitAudio_frame i
    show (r.submitAudio i).queue.Sublist _ ∧ Kinded isHw (r.submitAudio i)
    rw [heq]
    exact ⟨List.Sublist.refl _, h⟩
  | work nowMs =>
    show (r.work (nbSamples frameSize) nowMs).queue.Sublist _ ∧
      Kinded isHw (r.work (nbSamples frameSize) nowMs)
    rw [VideoRecorder.work]
    split
    · rcases VideoRecorder.loopHead_cases r with heq | ⟨audioQueue, batch, finish, heq, -⟩
      · rw [heq]
        exact ⟨List.Sublist.refl _, h⟩
      · rw [heq]
        exact ⟨List.tail_sublist r.queue, h⟩
    · rename_i item batch finish _
      obtain ⟨track, heq⟩ := VideoRecorder.process_cases (nbSamples frameSize) item batch finish r
      rw [heq]
      cases item <;> exact ⟨List.Sublist.refl _, h⟩
    · obtain ⟨track, lastFrame, heq, -⟩ :=
        VideoRecorder.finishRecording_cases (nbSamples frameSize) nowMs r
      rw [heq]
      exact ⟨List.Sublist.refl _, h⟩
    · exact ⟨List.Sublist.refl _, h⟩
  | stop =>
    show r.stopStep.queue.Sublist _ ∧ Kinded isHw r.stopStep
    rw [VideoRecorder.stopStep]
    split
    · exact ⟨List.Sublist.refl _, h⟩
    · exact ⟨List.Sublist.refl _, h⟩
    · split <;> exact ⟨List.Sublist.refl _, h⟩
    · exact ⟨List.nil_sublist _, h⟩
    · exact ⟨List.Sublist.refl _, h⟩

theorem pushFrame_submitting (item : QueuedFrame α) (hw : Bool) (r : VideoRecorder α) :
    (r.pushFrame item hw).submitting = r.submitting := by
  rcases VideoRecorder.pushFrame_cases item hw r with ⟨heq, -⟩ | ⟨oldest, rest, -, -, heq⟩
  · rw [heq]
  · rw [heq]

/-- Under the lock a frame is pushed, or turned away. -/
theorem submit_some {i : Nat} {item : QueuedFrame α} {hw : Bool}
    (hi : r.submitting[i]? = some (item, hw)) :
    r.submit i =
      if r.accepting then
        VideoRecorder.pushFrame item hw {r with submitting := r.submitting.eraseIdx i}
      else {r with submitting := r.submitting.eraseIdx i} := by
  rw [VideoRecorder.submit, hi]
  cases hacc : r.accepting <;> simp

theorem submit_none {i : Nat} (hi : r.submitting[i]? = none) : r.submit i = r := by
  rw [VideoRecorder.submit, hi]

theorem Kinded.submit (h : Kinded isHw r) (i : Nat) : Kinded isHw (r.submit i) := by
  cases hi : r.submitting[i]? with
  | none =>
    rw [submit_none hi]
    exact h
  | some s =>
    obtain ⟨item, hw⟩ := s
    have herase : ∀ s ∈ r.submitting.eraseIdx i, s.2 = isHw s.1.frame := fun s hs =>
      h s (List.mem_of_mem_eraseIdx hs)
    rw [submit_some hi]
    split
    · rwa [Kinded, pushFrame_submitting]
    · exact herase

theorem bounded_submit_iff (h : Kinded isHw r) (hb : Bounded isHw r) (i : Nat) :
    Bounded isHw (r.submit i) ↔ Lends isHw r (.submit i) := by
  rw [Lends]
  cases hi : r.submitting[i]? with
  | none =>
    rw [submit_none hi]
    exact iff_of_true hb fun s hs => absurd hs (Option.not_mem_none s)
  | some s =>
    obtain ⟨item, hw⟩ := s
    obtain rfl : hw = isHw item.frame := h _ (List.mem_of_getElem? hi)
    have hb' : Bounded isHw {r with submitting := r.submitting.eraseIdx i} :=
      ⟨hb.frames, hb.surfaces⟩
    rw [submit_some hi]
    split
    · rename_i hacc
      refine (bounded_pushFrame_iff item hb').trans ⟨fun hkeep s hs _ => ?_, fun hkeep => ?_⟩
      · obtain rfl := Option.some.inj hs
        exact hkeep
      · exact hkeep _ rfl hacc
    · rename_i hacc
      exact iff_of_true hb' fun s hs ha => absurd ha hacc

theorem Kinded.step (h : Kinded isHw r) (e : Event α) :
    Kinded isHw ((kinded isHw frameSize).step r e) := by
  by_cases he : ∃ i, e = .submit i
  · obtain ⟨i, rfl⟩ := he
    exact h.submit i
  · exact (step_aside h e fun i hi => he ⟨i, hi⟩).2

theorem bounded_step_iff (h : Kinded isHw r) (hb : Bounded isHw r) (e : Event α) :
    Bounded isHw ((kinded isHw frameSize).step r e) ↔ Lends isHw r e := by
  by_cases he : ∃ i, e = .submit i
  · obtain ⟨i, rfl⟩ := he
    exact bounded_submit_iff h hb i
  · have hsub : ((kinded isHw frameSize).step r e).queue.Sublist r.queue :=
      (step_aside h e fun i hi => he ⟨i, hi⟩).1
    refine iff_of_true (hb.sublist hsub) ?_
    cases e with
    | submit i => exact absurd ⟨i, rfl⟩ he
    | _ => trivial

end Steps

/-- The queue keeps its limits throughout a recording exactly when no surface is pushed while
two of them wait behind a software frame. -/
theorem queue_bounded_iff (isHw : α → Bool) (frameSize : Nat) (es : List (Event α)) :
    (kinded isHw frameSize).Always (Bounded isHw) {} es ↔
      (kinded isHw frameSize).Meets (Lends isHw) {} es :=
  Machine.always_iff_meets (H := fun _ _ => True) (fun _ e h _ => h.step e)
    (fun _ e h _ hb => bounded_step_iff h hb e) (fun _ hs => absurd hs List.not_mem_nil)
    ⟨Nat.zero_le _, Nat.zero_le _⟩ (Machine.meets_true es)

/-- Three software frames, and three surfaces behind them. -/
def mixed : List (Event Bool) :=
  [false, false, false, true, true, true].flatMap fun frame => [.offer frame frame 0, .submit 0]

theorem three_surfaces : ¬ (kinded id 1024).Always (Bounded id) {} mixed := by
  intro h
  have hthree : surfaces id ((kinded id 1024).run {} mixed).queue = 3 := by decide
  exact absurd (hthree ▸ h.last.surfaces) (by decide)

end AirPlay.Recorder
