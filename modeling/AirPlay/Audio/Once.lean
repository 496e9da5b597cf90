import Mathlib.Algebra.Order.Group.Multiset
import Mathlib.Data.List.Flatten
import Mathlib.Tactic.Abel
import AirPlay.Audio.Accounting

/-! Is a frame played twice?

The samples of a frame can be in three places: the live queue, the saved tail (of a
receiver, or of the session between two receivers), and the sink. A timestamped FLUSH
copies the whole queue to the tail and leaves the part from the boundary on live as
well. A copy that is still live when the tail is put back is cut off by the resume;
a copy that went to the sink in between is played again (`flush_replays`). Where no
step puts a tail back of which something was heard, no sample goes to the sink more
often than it was decoded (`played_once`). -/
namespace AirPlay.Audio

variable {α : Type}

/-! ### The samples of a queue -/

/-- The samples of blocks, in no order. -/
def bag (queue : List (PcmFrame α)) : Multiset α := ↑(queue.flatMap PcmFrame.samples)

@[simp] theorem bag_nil : bag ([] : List (PcmFrame α)) = 0 := rfl

@[simp] theorem bag_append (a b : List (PcmFrame α)) : bag (a ++ b) = bag a + bag b := by
  rw [bag, List.flatMap_append]
  rfl

theorem bag_cons (f : PcmFrame α) (rest : List (PcmFrame α)) :
    bag (f :: rest) = bag [f] + bag rest := bag_append [f] rest

theorem bag_sublist {a b : List (PcmFrame α)} (h : a.Sublist b) : bag a ≤ bag b :=
  Multiset.coe_le.mpr (h.flatMap _).subperm

theorem bag_of_samples {a b : List (PcmFrame α)}
    (h : a.map PcmFrame.samples = b.map PcmFrame.samples) : bag a = bag b := by
  rw [bag, bag, List.flatMap_def, List.flatMap_def, h]

theorem bag_singleton (f : PcmFrame α) : bag [f] = ↑f.samples := by
  simp [bag]

theorem bag_trimQueue_le (boundary : BitVec 32) (queue : List (PcmFrame α)) :
    bag (trimQueue boundary queue) ≤ bag queue := by
  induction queue with
  | nil => exact le_refl _
  | cons f rest ih =>
    rw [trimQueue]
    rw [bag_cons]
    split
    · exact ih.trans (Multiset.le_add_left _ _)
    · rw [bag_cons, bag_singleton, bag_singleton]
      exact add_le_add (Multiset.coe_le.mpr (trim_sublist boundary f).subperm) ih

namespace AudioReceiver

theorem live_le (frame : PcmFrame α) (s : AudioReceiver α) :
    bag (s.live frame) ≤ ↑frame.samples := by
  have hsub : (s.fenced frame).samples.Sublist frame.samples := by
    rw [fenced]
    split
    · exact trim_sublist _ _
    · exact List.Sublist.refl _
  rw [live]
  split
  · exact Multiset.zero_le _
  · rw [bag_singleton]
    exact Multiset.coe_le.mpr hsub.subperm

/-- A stretch of a list and what is left behind its end. -/
theorem stretch_sublist (xs : List α) (heven : xs.length % 2 = 0) (k m : Nat) :
    ((xs.drop (k * 2)).take (m * 2) ++ xs.drop (min (k + m) (xs.length / 2) * 2)).Sublist xs := by
  by_cases hle : k + m ≤ xs.length / 2
  · have hdrop : xs.drop (min (k + m) (xs.length / 2) * 2) = (xs.drop (k * 2)).drop (m * 2) := by
      rw [List.drop_drop, Nat.min_eq_left hle, Nat.add_mul]
    rw [hdrop, List.take_append_drop]
    exact List.drop_sublist _ _
  · have hnone : xs.drop (min (k + m) (xs.length / 2) * 2) = [] :=
      List.drop_eq_nil_of_le (by omega)
    rw [hnone, List.append_nil]
    exact (List.take_sublist _ _).trans (List.drop_sublist _ _)

/-- What a block adds to the saved tail and what it adds to the live queue are
different parts of it: the tail's ends at the boundary where the other begins. -/
theorem drains_live_le (rtp : BitVec 32) (chunk : Chunk α) (s : AudioReceiver α) :
    bag (s.drains {rtp, samples := chunk.samples}) +
      bag (s.live {rtp, samples := chunk.samples}) ≤ ↑chunk.samples := by
  have hlive := s.live_le {rtp, samples := chunk.samples}
  rw [drains]
  split
  · rwa [bag_nil, zero_add]
  · split
    · rename_i boundary back hboundary _
      rcases drained_cases s.cfg.sampleRate boundary back.endRtp {rtp, samples := chunk.samples}
        chunk.stereo with hnone | ⟨k, hk, hstop, hlead, -, hsome⟩
      · rwa [hnone, bag_nil, zero_add]
      · have hrate := s.cfg.rate_fits
        have hpos := s.rate_pos
        have hfits := chunk.fits
        have hm : (boundary - back.endRtp).toNat ≤ (s.cfg.sampleRate * 5).toNat := by
          have h := BitVec.le_def.mp hlead
          rw [BitVec.toNat_ofInt, Int.emod_eq_of_lt (by omega) (by omega)] at h
          exact h
        have hdist : (boundary - rtp).toNat = k + (boundary - back.endRtp).toNat := by
          simp only at hk hstop
          rw [← hstop] at hm ⊢
          bv_omega
        have hfenced : (s.fenced {rtp, samples := chunk.samples}).samples =
            chunk.samples.drop
              (min (k + (boundary - back.endRtp).toNat) (chunk.samples.length / 2) * 2) := by
          rw [fenced, hboundary]
          show (PcmFrame.trim boundary _).samples = _
          rw [trim_ahead] <;> simp only [hdist]
          simp only at hk
          omega
        rw [hsome, bag_singleton]
        rw [live]
        split
        · rw [bag_nil, add_zero]
          exact Multiset.coe_le.mpr ((List.take_sublist _ _).trans (List.drop_sublist _ _)).subperm
        · rw [bag_singleton, hfenced, Multiset.coe_add]
          exact Multiset.coe_le.mpr (stretch_sublist _ chunk.stereo _ _).subperm
    · rwa [bag_nil, zero_add]

end AudioReceiver

/-! ### Copies

A history variable: how many blocks at the front of the live queue the saved tail
holds as well, and whether one of them has gone to the sink since the FLUSH that
saved them. -/

structure Copies where
  shared : Nat := 0
  heard : Bool := false

/-- The copies left when blocks leave the front of the queue, the first of them for the
sink or not. -/
def Copies.taken (before after : List (PcmFrame α)) (toSink : Bool) (c : Copies) : Copies where
  shared := c.shared - (before.length - after.length)
  heard := c.heard || (decide (0 < c.shared) && toSink)

/-- The copies after an event. -/
def AudioReceiver.copies (r : AudioReceiver α) (c : Copies) : Event α → Copies
  | .flush (some b) _ =>
    if r.importedPause then c
    else if r.saves then {shared := (trimQueue b r.pcmQueue).length}
    else {}
  | .pcm _ chunk _ _ => c.taken r.pcmQueue (r.evicted chunk.samples.length).pcmQueue false
  | .playout around =>
    c.taken r.pcmQueue (r.playout around).1.pcmQueue (r.playout around).2.isSome
  | _ => c

/-- A tail is put back only when none of it was heard since it was saved, and a resume
cuts off what of it is still live. -/
def AudioReceiver.Unheard (r : AudioReceiver α) (c : Copies) : Event α → Prop
  | .resume now => ∀ back, r.Restores now back → c.heard = false ∧
      trimQueue (r.resumedEnd (now - r.pausedAtNs) back) (r.pcmQueue.take c.shared) = []
  | .pcm _ _ now _ => r.importedPause = true → now - r.pausedAtNs < 120000000000 →
      c.heard = false
  | _ => True

namespace Session

/-- A receiver that is suspended or replaced takes its live queue with it. -/
def copies (s : Session α) (e : Event α) (c : Copies) : Copies :=
  match e with
  | .start .. | .suspend => {c with shared := 0}
  | _ => (s.audio.map fun r => r.copies c e).getD c

theorem copies_idle {s : Session α} (h : s.audio = none) (e : Event α) (c : Copies) :
    (s.copies e c).heard = c.heard := by
  unfold copies
  rw [h]
  split <;> rfl

theorem copies_found {s : Session α} {r : AudioReceiver α} (hr : s.audio = some r) {e : Event α}
    (hsuspend : e ≠ .suspend) (hstart : ∀ cfg opened, e ≠ .start cfg opened) (c : Copies) :
    s.copies e c = r.copies c e := by
  unfold copies
  rw [hr]
  split
  · exact absurd rfl (hstart _ _)
  · exact absurd rfl hsuspend
  · rfl

/-- The session and its copies. -/
def watched : Machine (Session α × Copies) (Event α) := machine.watched copies

def Unheard (w : Session α × Copies) (e : Event α) : Prop :=
  ∀ r, w.1.audio = some r → r.Unheard w.2 e

end Session

/-! ### One receiver -/

namespace AudioReceiver

/-- Live and submitted samples were decoded, each as often; so were the live samples
that are not copies, the saved and the submitted ones, while no copy was heard. -/
structure Once (D S : Multiset α) (c : Copies) (r : AudioReceiver α) : Prop where
  live : bag r.pcmQueue + S ≤ D
  saved : c.heard = false → bag (r.pcmQueue.drop c.shared) + bag r.pausedPcm + S ≤ D
  imported : r.importedPause = true → r.pcmQueue = []

namespace Once
variable {D S : Multiset α} {c : Copies} {r : AudioReceiver α}

/-- With nothing saved there is nothing to count twice. -/
theorem of_tail_nil (hlive : bag r.pcmQueue + S ≤ D) (htail : r.pausedPcm = [])
    (himp : r.importedPause = true → r.pcmQueue = []) : Once D S c r := by
  refine ⟨hlive, fun _ => ?_, himp⟩
  rw [htail, bag_nil, add_zero]
  exact (add_le_add_left (bag_sublist (List.drop_sublist _ _)) S).trans hlive

/-- Nothing is live while an imported tail waits, so all of it counts. -/
theorem imported_tail (h : Once D S c r) (himp : r.importedPause = true) (hc : c.heard = false) :
    bag r.pausedPcm + S ≤ D := by
  have hsaved := h.saved hc
  rwa [h.imported himp, List.drop_nil, bag_nil, zero_add] at hsaved

theorem flush_none (h : Once D S c r) (now : Int) : Once D S c (r.flush none now) := by
  rw [AudioReceiver.flush_none]
  refine of_tail_nil ?_ rfl (fun _ => rfl)
  rw [bag_nil, zero_add]
  exact (Multiset.le_add_left _ _).trans h.live

/-- A FLUSH makes the whole queue the tail: what is left live are copies. -/
theorem flush_some (h : Once D S c r) (b : BitVec 32) (now : Int) :
    Once D S (if r.importedPause then c
      else if r.saves then {shared := (trimQueue b r.pcmQueue).length} else {})
      (r.flush (some b) now) := by
  have hlive : bag (trimQueue b r.pcmQueue) + S ≤ D :=
    (add_le_add_left (bag_trimQueue_le b r.pcmQueue) S).trans h.live
  rw [AudioReceiver.flush_some]
  cases himp : r.importedPause
  · cases hsaves : r.saves
    · exact of_tail_nil hlive rfl (fun h' => absurd h' Bool.false_ne_true)
    · refine ⟨hlive, fun _ => ?_, fun h' => absurd h' Bool.false_ne_true⟩
      show bag ((trimQueue b r.pcmQueue).drop (trimQueue b r.pcmQueue).length) +
        bag r.pcmQueue + S ≤ D
      rw [List.drop_length, bag_nil, zero_add]
      exact h.live
  · have hnil := h.imported himp
    refine ⟨hlive, fun hc => ?_, fun _ => ?_⟩
    · show bag ((trimQueue b r.pcmQueue).drop c.shared) + bag r.pausedPcm + S ≤ D
      rw [hnil, trimQueue, List.drop_nil, bag_nil, zero_add]
      exact h.imported_tail himp hc
    · show trimQueue b r.pcmQueue = []
      rw [hnil]
      rfl

/-- A resume puts the tail back in front of what the cut leaves, and that is none of
its copies. -/
theorem resume (h : Once D S c r) (now : Int)
    (hunheard : r.Unheard c (.resume now)) : Once D S c (r.resume now) := by
  by_cases hr : ∃ back, r.Restores now back
  · obtain ⟨back, hr⟩ := hr
    obtain ⟨hheard, hcut⟩ := hunheard back hr
    rw [resume_restores hr]
    refine of_tail_nil ?_ rfl (fun himp => absurd himp (by simp [hr.1]))
    show bag (r.splice (now - r.pausedAtNs) back) + S ≤ D
    have hqueue : trimQueue (r.resumedEnd (now - r.pausedAtNs) back) r.pcmQueue =
        trimQueue (r.resumedEnd (now - r.pausedAtNs) back) (r.pcmQueue.drop c.shared) := by
      conv_lhs => rw [← List.take_append_drop c.shared r.pcmQueue, trimQueue_append, hcut]
      rfl
    rw [splice, bag_append, bag_of_samples (shifted_samples _ _), hqueue, add_comm (bag _)]
    exact (add_le_add_left (add_le_add_left (bag_trimQueue_le _ _) _) S).trans (h.saved hheard)
  · rw [resume_other (not_exists.mp hr)]
    split
    · exact h
    · exact of_tail_nil h.live rfl h.imported

/-- Eviction takes copies first. -/
theorem evicted (h : Once D S c r) (size : Nat) :
    Once D S (c.taken r.pcmQueue (r.evicted size).pcmQueue false) (r.evicted size) := by
  obtain ⟨dropped, hq, -, -⟩ := evict_cases r.limit size r.pcmQueue r.queuedSamples
  replace hq : r.pcmQueue = dropped ++ (r.evicted size).pcmQueue := hq
  have hlen : r.pcmQueue.length - (r.evicted size).pcmQueue.length = dropped.length := by
    have := congrArg List.length hq
    rw [List.length_append] at this
    omega
  rw [Copies.taken, hlen, Bool.and_false, Bool.or_false]
  refine ⟨?_, fun hc => ?_, fun himp => ?_⟩
  · have hlive := h.live
    rw [hq, bag_append, add_assoc] at hlive
    exact (Multiset.le_add_left _ _).trans hlive
  · have hsaved := h.saved hc
    rw [hq, List.drop_append, bag_append] at hsaved
    refine le_trans ?_ hsaved
    exact add_le_add_left (add_le_add_left (Multiset.le_add_left _ _) _) _
  · have hnil := h.imported himp
    rw [hq] at hnil
    exact (List.append_eq_nil_iff.mp hnil).2

/-- A block adds its own samples, each to the tail or to the live queue; the first
block of a recreated stream also moves the tail. -/
theorem insert (h : Once D S c r) (rtp : BitVec 32) (chunk : Chunk α) (now pending : Int)
    (hunheard : r.Unheard c (.pcm rtp chunk now pending)) :
    Once (D + (chunk.samples : Multiset α)) S c (r.insert rtp chunk.samples now pending) := by
  cases himp : r.importedPause
  · have hparts := drains_live_le rtp chunk r
    have hnew := r.live_le {rtp, samples := chunk.samples}
    rw [insert_live _ _ _ _ _ himp]
    refine ⟨?_, fun hc => ?_, fun h' => absurd h' (by simp [himp])⟩
    · show bag (r.pcmQueue ++ r.live _) + S ≤ _
      rw [bag_append, add_right_comm]
      exact add_le_add h.live hnew
    · show bag ((r.pcmQueue ++ r.live _).drop c.shared) + bag (r.pausedPcm ++ r.drains _) + S ≤ _
      rw [List.drop_append, bag_append, bag_append]
      have hdrop : bag ((r.live {rtp, samples := chunk.samples}).drop
          (c.shared - r.pcmQueue.length)) ≤ bag (r.live {rtp, samples := chunk.samples}) :=
        bag_sublist (List.drop_sublist _ _)
      calc _ ≤ bag (r.pcmQueue.drop c.shared) + bag (r.live {rtp, samples := chunk.samples}) +
              (bag r.pausedPcm + bag (r.drains {rtp, samples := chunk.samples})) + S := by gcongr
        _ = (bag (r.pcmQueue.drop c.shared) + bag r.pausedPcm + S) +
              (bag (r.drains {rtp, samples := chunk.samples}) +
                bag (r.live {rtp, samples := chunk.samples})) := by abel
        _ ≤ D + (chunk.samples : Multiset α) := add_le_add (h.saved hc) hparts
  · have hnew := r.live_le {rtp, samples := chunk.samples}
    have hold : bag (r.imports {rtp, samples := chunk.samples} now pending) + S ≤ D := by
      by_cases hsoon : now - r.pausedAtNs < 120000000000
      · have htail := h.imported_tail himp (hunheard himp hsoon)
        rcases imports_samples {rtp, samples := chunk.samples} now pending r with hnone | hsame
        · rw [hnone, bag_nil, zero_add]
          exact (Multiset.le_add_left _ _).trans htail
        · rw [bag_of_samples hsame]
          exact htail
      · rw [imports_late hsoon, bag_nil, zero_add]
        exact (Multiset.le_add_left _ _).trans h.live
    rw [insert_imported _ _ _ _ _ himp]
    refine of_tail_nil ?_ rfl (fun h' => nomatch h')
    show bag (r.pcmQueue ++ r.imports _ now pending ++ r.live _) + S ≤ _
    rw [h.imported himp, List.nil_append, bag_append, add_right_comm]
    exact add_le_add hold hnew

/-- A turn moves at most the front block to the sink; from then on, if it was a copy,
the tail has been heard. -/
theorem playout (h : Once D S c r) (around : Surroundings) :
    Once D (S + bag (r.playout around).2.toList)
      (c.taken r.pcmQueue (r.playout around).1.pcmQueue (r.playout around).2.isSome)
      (r.playout around).1 := by
  rcases playout_cases around r with hwait | ⟨front, rest, hq, hpop, hsink⟩
  · rw [hwait]
    have hc : c.taken r.pcmQueue r.pcmQueue false = c := by simp [Copies.taken]
    show Once D (S + bag []) (c.taken r.pcmQueue r.pcmQueue false) _
    rw [hc, bag_nil, add_zero]
    exact ⟨h.live, h.saved, h.imported⟩
  · have hlen : r.pcmQueue.length - (r.playout around).1.pcmQueue.length = 1 := by
      rw [hpop, hq]
      show rest.length + 1 - rest.length = 1
      omega
    have himp : r.importedPause ≠ true := fun himp => absurd (h.imported himp) (by simp [hq])
    have hlive := h.live
    have hsaved := h.saved
    rw [hq] at hlive hsaved
    rw [Copies.taken, hlen, hpop]
    rcases hsink with hnone | hsome
    · rw [hnone]
      show Once D (S + bag []) ⟨c.shared - 1, c.heard || (decide (0 < c.shared) && false)⟩
        (pop front rest _)
      rw [bag_nil, add_zero, Bool.and_false, Bool.or_false]
      have hfewer : bag (rest.drop (c.shared - 1)) ≤ bag ((front :: rest).drop c.shared) := by
        cases c.shared with
        | zero => exact bag_sublist (List.sublist_cons_self _ _)
        | succ n => exact le_refl _
      exact ⟨(add_le_add_left (bag_sublist (List.sublist_cons_self _ _)) S).trans hlive,
        fun hc => (add_le_add_left (add_le_add_left hfewer _) S).trans (hsaved hc),
        fun h' => absurd h' himp⟩
    · rw [hsome]
      show Once D (S + bag [front]) ⟨c.shared - 1, c.heard || (decide (0 < c.shared) && true)⟩
        (pop front rest _)
      refine ⟨?_, fun hc => ?_, fun h' => absurd h' himp⟩
      · show bag rest + (S + bag [front]) ≤ D
        rw [add_comm S, ← add_assoc, add_comm (bag rest), ← bag_cons]
        exact hlive
      · -- no copy was heard, so the block was none
        simp only [Bool.and_true, Bool.or_eq_false_iff, decide_eq_false_iff_not, Nat.not_lt,
          Nat.le_zero] at hc
        obtain ⟨hheard, hnone⟩ := hc
        have hsaved := hsaved hheard
        rw [hnone, List.drop_zero, bag_cons] at hsaved
        show bag (rest.drop (c.shared - 1)) + bag r.pausedPcm + (S + bag [front]) ≤ D
        rw [hnone]
        calc bag rest + bag r.pausedPcm + (S + bag [front])
            = bag [front] + bag rest + bag r.pausedPcm + S := by abel
          _ ≤ D := hsaved

theorem setSynchronized (h : Once D S c r) (enabled : Bool) :
    Once D S c (r.setSynchronized enabled) := by
  unfold AudioReceiver.setSynchronized
  simp only
  split
  · exact flush_none (r := {r with synchronize := enabled && r.cfg.ntp})
      ⟨h.live, h.saved, h.imported⟩ 0
  · exact h

/-- An event that decodes nothing and plays nothing changes neither side. -/
theorem silent (h : Once D S c r) :
    Once (D + (([] : List α) : Multiset α)) (S + bag ([] : List (PcmFrame α))) c r := by
  rw [Multiset.coe_nil, bag_nil, add_zero, add_zero]
  exact h

theorem react (h : Once D S c r) (e : Event α) (hunheard : r.Unheard c e) :
    Once (D + (e.produced : Multiset α)) (S + bag (r.handed e)) (r.copies c e) (r.react e) := by
  cases e with
  | pcm rtp chunk now pending =>
    show Once _ (S + bag []) _ _
    rw [bag_nil, add_zero]
    exact (h.evicted chunk.samples.length).insert rtp chunk now pending fun himp hsoon => by
      rw [Copies.taken, Bool.and_false, Bool.or_false]
      exact hunheard himp hsoon
  | playout around =>
    show Once (D + 0) _ _ _
    rw [add_zero]
    exact h.playout around
  | flush boundary now =>
    cases boundary with
    | none => exact (h.flush_none now).silent
    | some b => exact (h.flush_some b now).silent
  | resume now => exact (h.resume now hunheard).silent
  | discardPause =>
    have hdropped : Once D S c r.discardPause := of_tail_nil h.live rfl (fun h' => nomatch h')
    exact hdropped.silent
  | setSynchronized enabled => exact (h.setSynchronized enabled).silent
  | data datagram now =>
    obtain ⟨_, _, _, hframe⟩ := firstPacket_frame datagram now r
    refine silent (r := r.firstPacket datagram now) ?_
    rw [hframe]
    exact ⟨h.live, h.saved, h.imported⟩
  | control datagram =>
    obtain ⟨_, _, _, _, hframe⟩ := anchor_frame datagram r
    refine silent (r := r.anchor datagram) ?_
    rw [hframe]
    exact ⟨h.live, h.saved, h.imported⟩
  | startNtp | start | suspend => exact h.silent

end Once

end AudioReceiver

/-! ### Every run -/

namespace Session

/-- The samples the session's sinks were given. -/
def played (s : Session α) : List α := s.submitted.flatMap PcmFrame.samples

structure Once (D : Multiset α) (w : Session α × Copies) : Prop where
  audio : ∀ r, w.1.audio = some r → r.Once D (bag w.1.submitted) w.2
  paused : w.2.heard = false → bag w.1.pausedAudio.pcm + bag w.1.submitted ≤ D
  submitted : bag w.1.submitted ≤ D
  /-- A pause is the session's between two receivers only. -/
  alone : ∀ r, w.1.audio = some r → w.1.pausedAudio.pcm = []

theorem suspend_le (r : AudioReceiver α) : bag r.suspend.pcm ≤ bag r.pausedPcm := by
  rw [AudioReceiver.suspend]
  split
  · exact le_refl _
  · exact Multiset.zero_le _

/-- A new receiver starts from the session's tail alone. -/
theorem once_start {D : Multiset α} {s : Session α} {c : Copies} (h : Once D (s, c)) (cfg : Config)
    (opened : Opened) : Once D (watched.step (s, c) (.start cfg opened)) := by
  show Once D (s.step (.start cfg opened), {c with shared := 0})
  refine ⟨fun r hr => ?_, fun _ => ?_, h.submitted, fun _ _ => rfl⟩
  · have hs := AudioReceiver.start_started hr
    refine ⟨?_, fun hc => ?_, fun _ => hs.pcmQueue⟩
    · rw [hs.pcmQueue, bag_nil, zero_add]
      exact h.submitted
    · rw [hs.pcmQueue, hs.pausedPcm, List.drop_nil, bag_nil, zero_add]
      split
      · exact h.paused hc
      · rw [bag_nil, zero_add]
        exact h.submitted
  · show bag [] + bag s.submitted ≤ D
    rw [bag_nil, zero_add]
    exact h.submitted

/-- A suspended receiver leaves its tail, and nothing live. -/
theorem once_suspend {D : Multiset α} {s : Session α} {c : Copies} {r : AudioReceiver α}
    (h : Once D (s, c)) (haudio : s.audio = some r) : Once D (watched.step (s, c) .suspend) := by
  have hstep : s.step .suspend = {s with audio := none, pausedAudio := r.suspend} := by
    rw [step]
    rw [haudio]
  show Once D (s.step .suspend, {c with shared := 0})
  rw [hstep]
  refine ⟨by simp, fun hc => ?_, h.submitted, by simp⟩
  have hsaved := (h.audio r haudio).saved hc
  exact (add_le_add_left ((suspend_le r).trans (Multiset.le_add_left _ _)) _).trans hsaved

theorem once_step {D : Multiset α} {w : Session α × Copies} {e : Event α} (h : Once D w)
    (hunheard : Unheard w e) : Once (D + (e.produced : Multiset α)) (watched.step w e) := by
  obtain ⟨s, c⟩ := w
  by_cases hstart : ∃ cfg opened, e = .start cfg opened
  · obtain ⟨cfg, opened, rfl⟩ := hstart
    show Once (D + 0) _
    rw [add_zero]
    exact once_start h cfg opened
  rw [not_exists] at hstart
  replace hstart : ∀ cfg opened, e ≠ .start cfg opened := fun cfg opened he =>
    hstart cfg ⟨opened, he⟩
  cases haudio : s.audio with
  | none =>
    obtain ⟨hnone, hpaused, hsubmitted⟩ := step_idle haudio hstart
    have hD : D ≤ D + (e.produced : Multiset α) := Multiset.le_add_right _ _
    refine ⟨fun r hr => absurd (hnone.symm.trans hr) (by simp), fun hc => ?_, ?_,
      fun r hr => absurd (hnone.symm.trans hr) (by simp)⟩
    · show bag (s.step e).pausedAudio.pcm + bag (s.step e).submitted ≤ _
      rw [hsubmitted]
      rcases hpaused with hsame | hempty
      · rw [hsame]
        exact (h.paused ((copies_idle haudio e c).symm.trans hc)).trans hD
      · rw [hempty, bag_nil, zero_add]
        exact h.submitted.trans hD
    · show bag (s.step e).submitted ≤ _
      rw [hsubmitted]
      exact h.submitted.trans hD
  | some r =>
    by_cases hsuspend : e = .suspend
    · subst hsuspend
      show Once (D + 0) _
      rw [add_zero]
      exact once_suspend h haudio
    · obtain ⟨hreacts, hpaused, hsubmitted⟩ := step_reacts haudio hsuspend hstart
      have hnone : (s.step e).pausedAudio.pcm = [] := by
        rcases hpaused with hsame | hempty
        · exact hsame ▸ h.alone r haudio
        · exact hempty
      have hreact := (h.audio r haudio).react e (hunheard r haudio)
      have hbag : bag (s.step e).submitted = bag s.submitted + bag (r.handed e) := by
        rw [hsubmitted, bag_append]
      have hsink : bag (s.step e).submitted ≤ D + (e.produced : Multiset α) := by
        rw [hbag]
        exact (Multiset.le_add_left _ _).trans hreact.live
      refine ⟨fun r' hr' => ?_, fun _ => ?_, hsink, fun _ _ => hnone⟩
      · obtain rfl := Option.some.inj (hreacts.symm.trans hr')
        show (r.react e).Once _ (bag (s.step e).submitted) (s.copies e c)
        rw [hbag, copies_found haudio hsuspend hstart]
        exact hreact
      · show bag (s.step e).pausedAudio.pcm + bag (s.step e).submitted ≤ _
        rw [hnone, bag_nil, zero_add]
        exact hsink

theorem once_run {D : Multiset α} {w : Session α × Copies} {es : List (Event α)} (h : Once D w)
    (hes : watched.Meets Unheard w es) :
    Once (D + (decoded es : Multiset α)) (watched.run w es) := by
  induction es generalizing D w with
  | nil =>
    show Once (D + 0) w
    rwa [add_zero]
  | cons e rest ih =>
    have hrest := ih (once_step h hes.1) hes.2
    rwa [add_assoc, Multiset.coe_add] at hrest

/-- **Nothing is played twice that was not heard before it was put back.** Along any
run in which every tail that is put back was not heard since the FLUSH that saved it,
and is cut off where it is still live, no sample goes to the sink more often than it
was decoded. -/
theorem played_once (es : List (Event α)) (hes : watched.Meets Unheard ({}, {}) es) :
    (machine.run {} es).played.Subperm (decoded es) ∧
      ((decoded es).Nodup → (machine.run {} es).played.Nodup) := by
  have hinit : Once (0 : Multiset α) (({}, {}) : Session α × Copies) :=
    ⟨by simp, fun _ => le_refl _, le_refl _, by simp⟩
  have honce := (once_run hinit hes).submitted
  rw [zero_add, watched, Machine.watched_run] at honce
  have hsub : (machine.run {} es).played.Subperm (decoded es) := Multiset.coe_le.mp honce
  refine ⟨hsub, fun hnodup => ?_⟩
  obtain ⟨l, hperm, hl⟩ := hsub
  exact hperm.nodup_iff.mp (hnodup.sublist hl)

/-! ### A frame played twice -/

/-- Two frames are decoded; a FLUSH at the second one saves both and leaves the second
live. It is played, and after a second's pause both are put back. -/
def replaying : List (Event Nat) :=
  opening ++ [.pcm 0 lastChunk 0 0, .flush (some 1) 0,
    .playout ⟨0, true, true, fun _ => none, 0⟩, .resume 1000000000,
    .playout ⟨1000000000, true, true, fun _ => none, 0⟩]

theorem flush_replays : (decoded replaying).Nodup ∧ ¬ (machine.run {} replaying).played.Nodup := by
  decide

/-- The same with the pause before the second frame is played: the copy still live is
cut off. -/
def cutting : List (Event Nat) :=
  opening ++ [.pcm 0 lastChunk 0 0, .flush (some 1) 0,
    .resume 1000000000, .playout ⟨1000000000, true, true, fun _ => none, 0⟩]

theorem cutting_unheard : watched.Meets Unheard ({}, {}) cutting := by
  refine ⟨fun _ _ => trivial, fun _ _ => trivial, fun r hr himp => ?_, fun _ _ => trivial,
    fun r hr back hrestores => ?_, fun _ _ => trivial, trivial⟩
  · obtain rfl := Option.some.inj hr
    exact absurd himp (by decide)
  · obtain rfl := Option.some.inj hr
    obtain rfl := Option.some.inj hrestores.2.1
    decide

theorem played_once_cutting :
    (machine.run {} cutting).played.Subperm (decoded cutting) ∧
      ((decoded cutting).Nodup → (machine.run {} cutting).played.Nodup) :=
  played_once cutting cutting_unheard

end Session

end AirPlay.Audio
