import AirPlay.Recorder.VideoRecorder
import Mathlib.Algebra.Ring.Int.Defs

/-! Where the recorded PCM stands against the first frame of video.

The PCM of the blocks is on the timeline once, whatever is encoded of it. Only the first
block is moved: when the blocks begin long before the first frame of video, more of them
would have to go than the first one has. -/
namespace AirPlay.Recorder

/-- Frames of PCM in some time, rounded down; none before zero. -/
def framesIn (ms : Int) : Nat := (ms * audioRate / 1000).toNat

def samplesOf (blocks : List QueuedAudio) : List Int16 := blocks.flatMap (·.samples)

/-- When the blocks begin. -/
def startMs (blocks : List QueuedAudio) : Int := blocks.head?.elim 0 (·.ptsMs)

/-- The PCM that belongs on the timeline: the blocks less what is before the first frame of
video, or behind the silence up to them. -/
def expected (firstPts : Nat) (blocks : List QueuedAudio) : List Int16 :=
  List.replicate (2 * framesIn (startMs blocks - firstPts)) 0 ++
    (samplesOf blocks).drop
      (2 * min ((samplesOf blocks).length / 2) (framesIn (firstPts - startMs blocks)))

/-- The PCM is on the timeline as expected. Frame `k` of gapless blocks was captured `k` frames
after their beginning; if that is not before the first frame of video it is written less than
one frame of PCM away from there. -/
structure Aligned (firstPts : Nat) (blocks : List QueuedAudio) (written : List Int16) : Prop where
  pcm : written = expected firstPts blocks
  synced : ∀ k c v, c < 2 → (samplesOf blocks)[2 * k + c]? = some v →
    framesIn (firstPts - startMs blocks) ≤ k →
      ∃ n : Nat, written[2 * n + c]? = some v ∧
        ((n : Int) * 1000 - (k * 1000 - (firstPts - startMs blocks) * audioRate)).natAbs < 1000

/-- The first block is long enough, or the only one with PCM. -/
def Covered (firstPts : Nat) (blocks : List QueuedAudio) : Prop :=
  framesIn (firstPts - startMs blocks) ≤ (samplesOf blocks.head?.toList).length / 2 ∨
    samplesOf blocks.tail = []

theorem covered_cons {firstPts : Nat} {b : QueuedAudio}
    (h : framesIn (firstPts - b.ptsMs) ≤ b.samples.length / 2) (rest : List QueuedAudio) :
    Covered firstPts (b :: rest) := by
  have hfirst : samplesOf (b :: rest).head?.toList = b.samples := List.append_nil _
  exact .inl (by rwa [hfirst])

/-- Frames of PCM. -/
def framesOf (blocks : List QueuedAudio) : Nat := (samplesOf blocks).length / 2

/-- The PCM of the first block, moved. -/
def opening (firstPts : Nat) (b : QueuedAudio) : List Int16 :=
  List.replicate (2 * framesIn (b.ptsMs - firstPts)) 0 ++
    b.samples.drop (2 * min (b.samples.length / 2) (framesIn (firstPts - b.ptsMs)))

/-- The PCM of the blocks as the worker lays it. -/
def layout (firstPts : Nat) : List QueuedAudio → List Int16
  | [] => []
  | b :: rest => opening firstPts b ++ samplesOf rest

theorem layout_append (firstPts : Nat) {blocks : List QueuedAudio} (h : blocks ≠ [])
    (more : List QueuedAudio) :
    layout firstPts (blocks ++ more) = layout firstPts blocks ++ samplesOf more := by
  cases blocks with
  | nil => exact absurd rfl h
  | cons b rest => simp [layout, samplesOf]

theorem samplesOf_even (blocks : List QueuedAudio) : (samplesOf blocks).length % 2 = 0 := by
  induction blocks with
  | nil => rfl
  | cons b rest ih =>
    have hb := b.stereo
    rw [samplesOf, List.flatMap_cons, List.length_append]
    rw [samplesOf] at ih
    omega

/-- What the worker lays is the blocks without as much as the first one has of the lead. -/
theorem layout_cons (firstPts : Nat) (b : QueuedAudio) (rest : List QueuedAudio) :
    layout firstPts (b :: rest) = List.replicate (2 * framesIn (b.ptsMs - firstPts)) 0 ++
      (samplesOf (b :: rest)).drop
        (2 * min (b.samples.length / 2) (framesIn (firstPts - b.ptsMs))) := by
  have hle : 2 * min (b.samples.length / 2) (framesIn (firstPts - b.ptsMs)) ≤ b.samples.length := by
    omega
  have hall : samplesOf (b :: rest) = b.samples ++ samplesOf rest := List.flatMap_cons
  rw [layout, opening, hall, List.drop_append_of_le_length hle, List.append_assoc]

theorem layout_eq_expected_iff (firstPts : Nat) (blocks : List QueuedAudio) :
    layout firstPts blocks = expected firstPts blocks ↔ Covered firstPts blocks := by
  cases blocks with
  | nil =>
    have hstart : framesIn (startMs [] - firstPts) = 0 := by
      rw [framesIn, startMs, audioRate, List.head?_nil, Option.elim_none]
      omega
    exact iff_of_true (by simp [layout, expected, samplesOf, hstart]) (.inr rfl)
  | cons b rest =>
    have hall : samplesOf (b :: rest) = b.samples ++ samplesOf rest := List.flatMap_cons
    have hlen : (samplesOf (b :: rest)).length = b.samples.length + (samplesOf rest).length := by
      rw [hall, List.length_append]
    have hfirst : samplesOf (b :: rest).head?.toList = b.samples := List.append_nil _
    have heven := b.stereo
    have hrest := samplesOf_even rest
    have hnone : samplesOf rest = [] ↔ (samplesOf rest).length = 0 := List.length_eq_zero_iff.symm
    rw [layout_cons, expected, Covered, hfirst, List.tail_cons, hnone,
      show startMs (b :: rest) = b.ptsMs from rfl, List.append_cancel_left_eq]
    constructor
    · intro h
      have hlens := congrArg List.length h
      rw [List.length_drop, List.length_drop] at hlens
      omega
    · intro h
      congr 1
      omega

/-- Blocks that lost some others have the PCM of all as expected only when the first one is
lost too, or when the lost PCM is as long as what the first block leaves of the lead. -/
theorem lost_of_aligned {firstPts : Nat} {blocks laid lost : List QueuedAudio}
    (hcounted : (lost ++ laid).Perm blocks) (hhead : laid.head? = blocks.head?)
    (h : Aligned firstPts blocks (layout firstPts laid)) :
    framesOf lost + min (framesOf blocks.head?.toList) (framesIn (firstPts - startMs blocks)) =
      min (framesOf blocks) (framesIn (firstPts - startMs blocks)) := by
  cases laid with
  | nil =>
    have hnil : blocks = [] := List.head?_eq_none_iff.mp hhead.symm
    rw [hnil] at hcounted ⊢
    rw [List.append_eq_nil_iff.mp hcounted.eq_nil |>.1]
    simp [framesOf, samplesOf]
  | cons b rest =>
    have hstart : startMs blocks = b.ptsMs := by rw [startMs, ← hhead]; rfl
    have hfirst : samplesOf blocks.head?.toList = b.samples := by
      rw [← hhead]
      exact List.append_nil _
    have hlengths := (hcounted.flatMap_right QueuedAudio.samples).length_eq
    have hlens := congrArg List.length h.pcm
    have hall : samplesOf (b :: rest) = b.samples ++ samplesOf rest := List.flatMap_cons
    have hlost := samplesOf_even lost
    have hblocks := samplesOf_even blocks
    have hrest := samplesOf_even (b :: rest)
    have hsum : (samplesOf lost).length + (samplesOf (b :: rest)).length =
        (samplesOf blocks).length := by
      rw [← List.length_append]
      simpa [samplesOf] using hlengths
    rw [layout_cons, expected, hstart, List.length_append, List.length_append, List.length_drop,
      List.length_drop] at hlens
    rw [framesOf, framesOf, framesOf, hfirst, hstart]
    rw [hall, List.length_append] at hsum hlens hrest
    omega

/-- Then the first block does not cover the lead. -/
theorem lead_of_lost {blocks lost : List QueuedAudio} {lead : Nat}
    (hmade : framesOf lost + min (framesOf blocks.head?.toList) lead = min (framesOf blocks) lead)
    (hlost : 0 < framesOf lost) :
    framesOf blocks.head?.toList < lead ∧ samplesOf blocks.tail ≠ [] ∧
      framesOf lost + framesOf blocks.head?.toList = min (framesOf blocks) lead := by
  refine ⟨by omega, fun honly => ?_, by omega⟩
  have hall : samplesOf blocks = samplesOf blocks.head?.toList ++ samplesOf blocks.tail := by
    cases blocks with
    | nil => rfl
    | cons b rest => simp [samplesOf]
  have hsame : framesOf blocks = framesOf blocks.head?.toList := by
    rw [framesOf, hall, honly, List.append_nil, framesOf]
  omega

theorem framesOf_pos {blocks : List QueuedAudio} (hne : blocks ≠ [])
    (h : ∀ b ∈ blocks, b.samples ≠ []) : 0 < framesOf blocks := by
  obtain ⟨b, rest, rfl⟩ := List.exists_cons_of_ne_nil hne
  have hb := List.length_pos_iff.mpr (h b List.mem_cons_self)
  have heven := b.stereo
  have hall : samplesOf (b :: rest) = b.samples ++ samplesOf rest := List.flatMap_cons
  rw [framesOf, hall, List.length_append]
  omega

theorem framesIn_bound (ms : Int) :
    (((framesIn ms : Int) - framesIn (-ms)) * 1000 - ms * audioRate).natAbs < 1000 := by
  rw [framesIn, framesIn, audioRate]
  omega

theorem expected_aligned (firstPts : Nat) (blocks : List QueuedAudio) :
    Aligned firstPts blocks (expected firstPts blocks) := by
  refine ⟨rfl, fun k c v hc hv hk => ?_⟩
  have hbound := framesIn_bound (startMs blocks - firstPts)
  have heven := samplesOf_even blocks
  obtain ⟨hlt, -⟩ := List.getElem?_eq_some_iff.mp hv
  rw [Int.neg_sub] at hbound
  generalize hL : framesIn (firstPts - startMs blocks) = lead at hk hbound
  generalize hS : framesIn (startMs blocks - firstPts) = silence at hbound
  have hmin : min ((samplesOf blocks).length / 2) lead = lead := by omega
  refine ⟨k + silence - lead, ?_, ?_⟩
  · have hbehind : (List.replicate (2 * silence) (0 : Int16)).length ≤
        2 * (k + silence - lead) + c := by
      rw [List.length_replicate]
      omega
    rw [expected, hL, hS, hmin, List.getElem?_append_right hbehind, List.getElem?_drop,
      List.length_replicate, ← hv]
    congr 1
    omega
  · rw [show ((k + silence - lead : Nat) : Int) = k + silence - lead by omega]
    have hsame : ((k : Int) + silence - lead) * 1000 -
        (k * 1000 - (firstPts - startMs blocks) * audioRate) =
          (silence - lead) * 1000 - (startMs blocks - firstPts) * audioRate := by
      rw [audioRate]
      omega
    rw [hsame]
    exact hbound

/-- Whatever is encoded of it, the PCM is as expected exactly when the first block covers the
lead. -/
theorem layout_aligned_iff (firstPts : Nat) (blocks : List QueuedAudio) :
    Aligned firstPts blocks (layout firstPts blocks) ↔ Covered firstPts blocks := by
  constructor
  · intro h
    exact (layout_eq_expected_iff firstPts blocks).mp h.pcm
  · intro h
    rw [(layout_eq_expected_iff firstPts blocks).mpr h]
    exact expected_aligned firstPts blocks

/-- Frame `i` of AAC begins `i` frames after the first frame of video, and all but the last are
whole. -/
def Cadence (n : Nat) (frames : List AacFrame) : Prop :=
  ∀ (i : Nat) (f : AacFrame), frames[i]? = some f →
    f.pts = i * n ∧ (i + 1 < frames.length → f.pcm.length = n * 2)

/-! ### The track of the worker -/

namespace AudioTrack

/-- The PCM on the timeline, encoded or not. -/
def timeline (t : AudioTrack) : List Int16 := t.frames.flatMap (·.pcm) ++ t.pcm

/-- Every block is appended, the first one moved. -/
theorem queuePcm_eq (firstPts : Nat) (b : QueuedAudio) (t : AudioTrack) :
    t.queuePcm firstPts b = {t with
      timelineStarted := true
      pcm := t.pcm ++ if t.timelineStarted then b.samples else opening firstPts b} := by
  rw [queuePcm]
  split
  · rename_i hstarted
    rw [← hstarted]
  · have hsilence : (if b.ptsMs - firstPts > 0 then (b.ptsMs - firstPts) * audioRate / 1000
        else 0).toNat = framesIn (b.ptsMs - firstPts) := by
      rw [framesIn, audioRate]
      split <;> omega
    have hskip : (if b.ptsMs - firstPts < 0 then
        min ((b.samples.length / 2 : Nat) : Int) (-(b.ptsMs - firstPts) * audioRate / 1000)
        else 0).toNat = min (b.samples.length / 2) (framesIn (firstPts - b.ptsMs)) := by
      rw [framesIn, audioRate]
      split <;> omega
    simp only [hsilence, hskip, opening, List.append_assoc, Nat.mul_comm]

theorem opening_even (firstPts : Nat) (b : QueuedAudio) :
    (opening firstPts b).length % 2 = 0 := by
  have hb := b.stereo
  rw [opening, List.length_append, List.length_replicate, List.length_drop]
  omega

theorem encodeFrames_timeline (n : Nat) (t : AudioTrack) :
    (t.encodeFrames n).timeline = t.timeline := by
  induction t using encodeFrames.induct n with
  | case1 t h ih =>
    rw [encodeFrames, dif_pos h, ih]
    simp [timeline]
  | case2 t h => rw [encodeFrames, dif_neg h]

theorem encodeFrames_short {n : Nat} (hn : 0 < n) (t : AudioTrack) :
    (t.encodeFrames n).pcm.length < n * 2 := by
  induction t using encodeFrames.induct n with
  | case1 t h ih => rwa [encodeFrames, dif_pos h]
  | case2 t h =>
    rw [encodeFrames, dif_neg h]
    omega

theorem encodeFrames_started (n : Nat) (t : AudioTrack) :
    (t.encodeFrames n).timelineStarted = t.timelineStarted := by
  induction t using encodeFrames.induct n with
  | case1 t h ih => rw [encodeFrames, dif_pos h, ih]
  | case2 t h => rw [encodeFrames, dif_neg h]

theorem encodeFrames_even (n : Nat) (t : AudioTrack) (h : t.pcm.length % 2 = 0) :
    (t.encodeFrames n).pcm.length % 2 = 0 := by
  induction t using encodeFrames.induct n with
  | case1 t hn ih =>
    rw [encodeFrames, dif_pos hn]
    apply ih
    rw [List.length_drop]
    omega
  | case2 t hn => rwa [encodeFrames, dif_neg hn]

/-- The frames of AAC are whole and follow each other. -/
structure Steady (n : Nat) (t : AudioTrack) : Prop where
  next : t.nextPts = t.frames.length * n
  placed : ∀ (i : Nat) (f : AacFrame), t.frames[i]? = some f → f.pts = i * n
  whole : ∀ f ∈ t.frames, f.pcm.length = n * 2

/-- The next frame of AAC begins where the last one ends. -/
theorem Steady.placed_append {n : Nat} {t : AudioTrack} (h : t.Steady n) (pcm : List Int16)
    (padding i : Nat) (f : AacFrame) (hf : (t.frames ++ [⟨t.nextPts, pcm, padding⟩])[i]? = some f) :
    f.pts = i * n := by
  rcases Nat.lt_or_ge i t.frames.length with hlt | hge
  · rw [List.getElem?_append_left hlt] at hf
    exact h.placed i f hf
  · rw [List.getElem?_append_right hge, List.getElem?_singleton] at hf
    split at hf
    · obtain rfl := Option.some.inj hf
      rw [h.next, show t.frames.length = i by omega]
    · exact nomatch hf

theorem Steady.encodeFrames {n : Nat} {t : AudioTrack} (h : t.Steady n) :
    (t.encodeFrames n).Steady n := by
  induction t using AudioTrack.encodeFrames.induct n with
  | case1 t hn ih =>
    rw [AudioTrack.encodeFrames, dif_pos hn]
    refine ih ⟨?_, h.placed_append _ _, ?_⟩
    · rw [h.next, List.length_append, List.length_singleton, Int.natCast_add, Int.add_mul,
        Int.natCast_one, Int.one_mul]
    · intro f hf
      rcases List.mem_append.mp hf with hold | hnew
      · exact h.whole f hold
      · rw [List.mem_singleton.mp hnew, List.length_take]
        omega
  | case2 t hn => rwa [AudioTrack.encodeFrames, dif_neg hn]

theorem Steady.flushPcm {n : Nat} {t : AudioTrack} (h : t.Steady n) :
    Cadence n (t.flushPcm n).frames := by
  rw [AudioTrack.flushPcm]
  split
  · exact fun i f hf => ⟨h.placed i f hf, fun _ => h.whole f (List.mem_of_getElem? hf)⟩
  · intro i f hf
    refine ⟨h.placed_append _ _ i f hf, fun hlt => ?_⟩
    rw [List.length_append, List.length_singleton] at hlt
    dsimp only at hf
    rw [List.getElem?_append_left (Nat.lt_of_succ_lt_succ hlt)] at hf
    exact h.whole f (List.mem_of_getElem? hf)

/-- The track holds the PCM of the blocks, laid from the first frame of video on. -/
structure Lays (n : Nat) (t : AudioTrack) (firstPts : Nat) (laid : List QueuedAudio) : Prop where
  timeline : t.timeline = layout firstPts laid
  started : t.timelineStarted = !laid.isEmpty
  even : t.pcm.length % 2 = 0
  steady : t.Steady n

variable {n : Nat} {t : AudioTrack} {firstPts : Nat} {laid : List QueuedAudio}

theorem Lays.queuePcm (h : t.Lays n firstPts laid) (b : QueuedAudio) :
    (t.queuePcm firstPts b).Lays n firstPts (laid ++ [b]) := by
  rw [queuePcm_eq]
  cases laid with
  | nil =>
    have hstarted : t.timelineStarted = false := h.started
    have htimeline : t.timeline = [] := h.timeline
    refine ⟨?_, rfl, ?_, h.steady.next, h.steady.placed, h.steady.whole⟩
    · rw [AudioTrack.timeline, hstarted, if_neg Bool.false_ne_true, ← List.append_assoc]
      show t.timeline ++ _ = _
      simp [htimeline, layout, samplesOf]
    · rw [hstarted, if_neg Bool.false_ne_true, List.length_append]
      have hopening := opening_even firstPts b
      have heven := h.even
      omega
  | cons first rest =>
    have hstarted : t.timelineStarted = true := h.started
    refine ⟨?_, rfl, ?_, h.steady.next, h.steady.placed, h.steady.whole⟩
    · rw [AudioTrack.timeline, hstarted, if_pos rfl, ← List.append_assoc]
      show t.timeline ++ _ = _
      rw [h.timeline, layout_append firstPts (List.cons_ne_nil first rest)]
      simp [samplesOf]
    · rw [hstarted, if_pos rfl, List.length_append]
      have hb := b.stereo
      have heven := h.even
      omega

theorem Lays.batch (h : t.Lays n firstPts laid) (batch : List QueuedAudio) :
    (batch.foldl (fun t audio => t.queuePcm firstPts audio) t).Lays n firstPts (laid ++ batch) := by
  induction batch generalizing t laid with
  | nil => rwa [List.append_nil]
  | cons b rest ih =>
    rw [List.foldl_cons, List.append_cons]
    exact ih (h.queuePcm b)

theorem Lays.encodeFrames (h : t.Lays n firstPts laid) : (t.encodeFrames n).Lays n firstPts laid :=
  ⟨(encodeFrames_timeline n t).trans h.timeline, (encodeFrames_started n t).trans h.started,
    encodeFrames_even n t h.even, h.steady.encodeFrames⟩

/-- Less than a frame of PCM is encoded by the flush, all of it. -/
theorem Lays.flushPcm (h : t.Lays n firstPts laid) (hshort : t.pcm.length < n * 2) :
    (t.flushPcm n).pcm = [] ∧ (t.flushPcm n).frames.flatMap (·.pcm) = layout firstPts laid := by
  have htimeline := h.timeline
  have heven := h.even
  have hall : min n (t.pcm.length / 2) * 2 = t.pcm.length := by omega
  rw [AudioTrack.timeline] at htimeline
  rw [AudioTrack.flushPcm]
  split
  · rename_i hempty
    rw [List.isEmpty_iff] at hempty
    rw [hempty, List.append_nil] at htimeline
    exact ⟨hempty, htimeline⟩
  · dsimp only
    rw [hall, List.drop_length, List.take_length, ← htimeline]
    simp

end AudioTrack

end AirPlay.Recorder
