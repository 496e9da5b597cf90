import AirPlay.Audio.Boundary

/-! The splice of a resumed pause.

A resume puts the saved tail back in front of the live queue: shifted by the time
that passed, and with whatever of the live queue lies before its end cut off. The
shift keeps the tail's order and the cut the live queue's, and the one ends where
the other goes on, so within half the RTP range no position is queued twice
(`resume_splices`). -/
namespace AirPlay.Audio

open Serial Timeline

variable {α : Type}

/-! ### Blocks moved along the timeline -/

namespace Placed

/-- A saved block on the resumed timeline. -/
def later (shift : Int) (x : Placed α) : Placed α :=
  ⟨{rtp := wrap 32 (x.pos + shift), samples := x.frame.samples}, x.pos + shift, rfl⟩

theorem later_frame (shift : Int) (x : Placed α) :
    (x.later shift).frame = AudioReceiver.shifted (wrap 32 shift) x.frame := by
  rw [AudioReceiver.shifted, x.stamp, ← wrap_add]
  rfl

theorem later_endPos (shift : Int) (x : Placed α) :
    (x.later shift).endPos = x.endPos + shift := by
  show x.pos + shift + (x.frame.samples.length / 2 : Nat) = _
  exact Int.add_right_comm _ _ _

theorem later_map (shift : Int) (xs : List (Placed α)) :
    (xs.map (later shift)).map Placed.frame =
      (xs.map Placed.frame).map (AudioReceiver.shifted (wrap 32 shift)) := by
  rw [List.map_map, List.map_map]
  exact List.map_congr_left fun x _ => later_frame shift x

theorem later_ordered (shift : Int) {xs : List (Placed α)} (h : Ordered (xs.map block)) :
    Ordered ((xs.map (later shift)).map block) := by
  unfold Ordered at h ⊢
  rw [List.map_map, List.pairwise_map]
  refine (List.pairwise_map.mp h).imp fun {x y} hxy => ?_
  have hle : x.pos + ((frames x.frame.samples).length : Int) ≤ y.pos := hxy
  show x.pos + shift + ((frames x.frame.samples).length : Int) ≤ y.pos + shift
  omega

theorem endPos_eq (x : Placed α) : x.endPos = x.block.1 + x.block.2.length := by
  rw [endPos, block, frames_length]

/-- The stamp just past a block is its end, truncated. -/
theorem endRtp_eq (x : Placed α) : x.frame.endRtp = wrap 32 x.endPos := by
  rw [PcmFrame.endRtp, x.stamp, endPos, wrap_add_nat]

end Placed

/-- Ordered blocks all end before the last of them does. -/
theorem ordered_end {init : List (Placed α)} {last x : Placed α}
    (h : Ordered ((init ++ [last]).map Placed.block)) (hx : x ∈ init ++ [last]) :
    x.endPos ≤ last.endPos := by
  rw [List.map_append] at h
  rcases List.mem_append.mp hx with hx | hx
  · have hle := (List.pairwise_append.mp h).2.2 _ (List.mem_map_of_mem hx) _ List.mem_cons_self
    rw [← Placed.endPos_eq] at hle
    exact hle.trans (by rw [Placed.endPos_eq]; exact Int.le_add_of_nonneg_right (by omega))
  · rw [List.mem_singleton.mp hx]

/-- The frames of blocks within a window lie in it. -/
theorem timeline_window {lo hi : Int} {xs : List (Placed α)}
    (h : ∀ x ∈ xs, lo ≤ x.pos ∧ x.endPos ≤ hi) : ∀ t ∈ timeline xs, lo ≤ t.1 ∧ t.1 < hi := by
  intro t ht
  obtain ⟨b, hb, ht⟩ := mem_laid.mp ht
  obtain ⟨x, hx, rfl⟩ := List.mem_map.mp hb
  have hitem := stamps_bounds ht
  have hblock := h x hx
  rw [← Placed.endPos_eq] at hitem
  exact ⟨hblock.1.trans hitem.1, hitem.2.trans_le hblock.2⟩

/-- Increasing positions within half the range have stamps of their own. -/
theorem wrapStamps_nodup {lo : Int} {l : List (Int × (α × α))}
    (hinc : l.Pairwise fun s t => s.1 < t.1) (hwin : ∀ t ∈ l, lo ≤ t.1 ∧ t.1 < lo + 2 ^ 31) :
    ((wrapStamps l).map Prod.fst).Nodup := by
  rw [wrapStamps, List.map_map]
  refine List.pairwise_map.mpr (hinc.imp_of_mem fun {s t} hs ht hlt heq => ?_)
  have hs := hwin s hs
  have ht := hwin t ht
  have : s.1 = t.1 := wrap_inj (by omega) (by omega) heq
  omega

/-! ### The splice -/

/-- Blocks that end by `stop`, then what other blocks have from there on: increasing, and
within the window of both. -/
theorem splice_increasing {lo hi stop : Int} {xs live : List (Placed α)}
    (hxs : Ordered (xs.map Placed.block)) (hlive : Ordered (live.map Placed.block))
    (hbefore : ∀ x ∈ xs, lo ≤ x.pos ∧ x.endPos ≤ stop)
    (hwin : ∀ x ∈ live, lo ≤ x.pos ∧ x.endPos ≤ hi) (hstop : stop ≤ hi) :
    let spliced := timeline xs ++ (timeline live).filter fun t => stop ≤ t.1
    spliced.Pairwise (fun a b => a.1 < b.1) ∧ ∀ t ∈ spliced, lo ≤ t.1 ∧ t.1 < hi := by
  have htail := timeline_window hbefore
  constructor
  · refine List.pairwise_append.mpr ⟨laid_increasing hxs,
      (laid_increasing hlive).sublist List.filter_sublist, fun a ha b hb => ?_⟩
    exact (htail a ha).2.trans_le (of_decide_eq_true (List.mem_filter.mp hb).2)
  · refine List.forall_mem_append.mpr ⟨fun t ht => ?_, fun t ht => ?_⟩
    · exact ⟨(htail t ht).1, (htail t ht).2.trans_le hstop⟩
    · exact timeline_window hwin t (List.mem_filter.mp ht).1

namespace AudioReceiver

/-- The shift is the elapsed time in frames, rounded down. -/
theorem resumeShift_eq {rate elapsed : Int} (hrate : 0 < rate) (helapsed : 0 ≤ elapsed) :
    resumeShift rate elapsed = wrap 32 (elapsed * rate / 1000000000) := by
  rw [resumeShift, Int.tdiv_eq_ediv_of_nonneg (Int.mul_nonneg helapsed hrate.le)]
  rfl

/-- The shifted tail of a placed block ends where its end is, later by the shift. -/
theorem resumedEnd_eq {r : AudioReceiver α} {elapsed shift : Int}
    (hshift : resumeShift r.cfg.sampleRate elapsed = wrap 32 shift) (last : Placed α) :
    r.resumedEnd elapsed last.frame = wrap 32 (last.endPos + shift) := by
  rw [resumedEnd, hshift, ← Placed.later_frame, Placed.endRtp_eq, Placed.later_endPos]

end AudioReceiver

/-- A resume splices the saved tail in front of the live queue. In synchronized mode,
after a pause of 0.2 s to 120 s, with tail and queue each in order and everything
within half the RTP range: the tail comes first, every block later by the elapsed
frames and otherwise as it was, then the frames of the live queue at or after the
tail's end; no RTP position is there twice. After any other pause the tail is
discarded and the queue stays. -/
theorem resume_splices (r : AudioReceiver α) (now : Int) (hsync : r.synchronize = true)
    (himp : r.importedPause = false) (init live : List (Placed α)) (last : Placed α)
    (htail : r.pausedPcm = (init ++ [last]).map Placed.frame)
    (hlive : r.pcmQueue = live.map Placed.frame)
    (hordTail : Ordered ((init ++ [last]).map Placed.block))
    (hordLive : Ordered (live.map Placed.block)) :
    let elapsed := now - r.pausedAtNs
    let shift := elapsed * r.cfg.sampleRate / 1000000000
    let stop := last.endPos + shift
    let s := r.resume now
    (200000000 ≤ elapsed ∧ elapsed ≤ 120000000000 →
      ∀ lo : Int, (∀ x ∈ init ++ [last], lo ≤ x.pos + shift ∧ x.endPos + shift < lo + 2 ^ 31) →
      (∀ x ∈ live, lo ≤ x.pos ∧ x.endPos ≤ lo + 2 ^ 31) →
      (∃ kept, s.pcmQueue =
          r.pausedPcm.map (fun f => {f with rtp := f.rtp + wrap 32 shift, localTargetNs := 0}) ++
            kept ∧
        stamped kept = wrapStamps ((timeline live).filter fun t => stop ≤ t.1) ∧
        ∀ f ∈ kept, f.samples ≠ []) ∧
      ((stamped s.pcmQueue).map Prod.fst).Nodup ∧ s.queuedSamples = total s.pcmQueue ∧
      s.flushBoundary = some (wrap 32 stop) ∧ s.pausedPcm = []) ∧
    (¬ (200000000 ≤ elapsed ∧ elapsed ≤ 120000000000) →
      s.pcmQueue = r.pcmQueue ∧ s.queuedSamples = r.queuedSamples ∧ s.pausedPcm = []) := by
  intro elapsed shift stop s
  have hback : r.pausedPcm.getLast? = some last.frame := by
    rw [htail, List.map_append]
    exact List.getLast?_concat
  have hwindow : r.resumable elapsed = true ↔
      200000000 ≤ elapsed ∧ elapsed ≤ 120000000000 := by
    simp [AudioReceiver.resumable, hsync]
  refine ⟨fun hpause lo hwinTail hwinLive => ?_, fun hpause => ?_⟩
  · have hs : s = _ := AudioReceiver.resume_restores ⟨himp, hback, hwindow.mpr hpause⟩
    have hshift : AudioReceiver.resumeShift r.cfg.sampleRate elapsed = wrap 32 shift :=
      AudioReceiver.resumeShift_eq r.rate_pos (by omega)
    have hstop : r.resumedEnd elapsed last.frame = wrap 32 stop :=
      AudioReceiver.resumedEnd_eq hshift last
    have hlast := hwinTail last (List.mem_append_right init (List.mem_singleton.mpr rfl))
    have hnear : ∀ x ∈ live, x.Near stop := by
      intro x hx
      have hx := hwinLive x hx
      rw [Placed.endPos] at hlast hx
      exact ⟨show last.pos + _ + shift - x.pos < 2 ^ 31 by omega,
        show x.pos - (last.pos + _ + shift) ≤ 2 ^ 31 by omega⟩
    have hkept : stamped (trimQueue (wrap 32 stop) r.pcmQueue) =
        wrapStamps ((timeline live).filter fun t => stop ≤ t.1) := by
      rw [hlive, stamped_trimQueue live stop hnear]
    have hqueue : s.pcmQueue =
        r.pausedPcm.map (AudioReceiver.shifted (wrap 32 shift)) ++
          trimQueue (wrap 32 stop) r.pcmQueue := by
      rw [hs]
      show r.splice elapsed last.frame = _
      rw [AudioReceiver.splice, hshift, hstop]
    -- the whole queue on the timeline: the tail before `stop`, the rest from there on
    have hstamped : stamped s.pcmQueue =
        wrapStamps (timeline ((init ++ [last]).map (Placed.later shift)) ++
          (timeline live).filter fun t => stop ≤ t.1) := by
      rw [hqueue, stamped_append, hkept, wrapStamps_append, ← stamped_placed, Placed.later_map,
        htail]
    have hbefore : ∀ y ∈ (init ++ [last]).map (Placed.later shift),
        lo ≤ y.pos ∧ y.endPos ≤ stop := by
      intro y hy
      obtain ⟨x, hx, rfl⟩ := List.mem_map.mp hy
      have hend := ordered_end hordTail hx
      rw [Placed.later_endPos]
      exact ⟨(hwinTail x hx).1, by show x.endPos + shift ≤ last.endPos + shift; omega⟩
    obtain ⟨hinc, hwin⟩ := splice_increasing (Placed.later_ordered shift hordTail) hordLive hbefore
      hwinLive hlast.2.le
    refine ⟨⟨_, hqueue, hkept, trimQueue_nonempty _ _⟩, ?_, ?_, ?_, ?_⟩
    · rw [hstamped]
      exact wrapStamps_nodup hinc hwin
    · rw [hs]
    · rw [hs, hstop]
    · rw [hs]
  · rw [show s = _ from AudioReceiver.resume_other fun back hr => hpause (hwindow.mp hr.2.2), himp]
    exact ⟨rfl, rfl, rfl⟩

/-- A block live that starts one frame before the tail across the wrap ends, when
that is resumed after a second. -/
def overlapping : Placed Nat := ⟨⟨wrap 32 (2 ^ 32 + 44101), [8, 9, 10, 11], 0⟩, 2 ^ 32 + 44101, rfl⟩

/-- The receiver with that tail saved and that block live. -/
def pausing : AudioReceiver Nat :=
  { (fresh : AudioReceiver Nat) with
    pcmQueue := [overlapping.frame]
    queuedSamples := 4
    pausedPcm := [acrossWrap.frame]
    pausedAtNs := 5 }

theorem resume_splices_pausing :
    let s := pausing.resume 1000000005
    (∃ kept, s.pcmQueue =
        pausing.pausedPcm.map
          (fun f => {f with rtp := f.rtp + wrap 32 44100, localTargetNs := 0}) ++ kept ∧
      stamped kept = wrapStamps ((timeline [overlapping]).filter
        fun t => 2 ^ 32 + 44102 ≤ t.1) ∧
      ∀ f ∈ kept, f.samples ≠ []) ∧
    ((stamped s.pcmQueue).map Prod.fst).Nodup ∧ s.queuedSamples = total s.pcmQueue ∧
    s.flushBoundary = some (wrap 32 (2 ^ 32 + 44102)) ∧ s.pausedPcm = [] :=
  (resume_splices pausing 1000000005 rfl rfl [] [overlapping] acrossWrap rfl rfl (by decide)
    (by decide)).1 (by decide) (2 ^ 32) (by decide) (by decide)

end AirPlay.Audio
