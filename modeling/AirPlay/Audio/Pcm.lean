import Mathlib.Data.BitVec
import Mathlib.Data.List.Perm.Subperm
import AirPlay.Library.Serial
import AirPlay.Library.Timeline

/-! Decoded PCM blocks and the cut at an RTP boundary.

A block is interleaved stereo samples behind the RTP stamp of its first frame;
`rtp` counts frames, `samples` counts samples, and every function of the receiver
that trims a block moves both. RTP stamps are 32-bit and wrap, so what a block
*is* on the sender's timeline is a position without bound (`Placed`); the cut
(`trimBefore`) is shown once to keep exactly the frames at or after the boundary,
for any block and boundary less than half the RTP range apart. -/
namespace AirPlay.Audio

open Serial Timeline

variable {α : Type}

/-! ### Stereo frames -/

/-- Interleaved samples read as stereo frames. -/
def frames : List α → List (α × α)
  | l :: r :: rest => (l, r) :: frames rest
  | _ => []

theorem frames_length : (xs : List α) → (frames xs).length = xs.length / 2
  | [] => by simp [frames]
  | [_] => by simp [frames]
  | _ :: _ :: rest => by
    simp only [frames, List.length_cons, frames_length rest]
    omega

theorem frames_drop : (k : Nat) → (xs : List α) → frames (xs.drop (k * 2)) = (frames xs).drop k
  | 0, _ => by simp
  | k + 1, [] => by simp [frames]
  | k + 1, [_] => by simp [frames, Nat.succ_mul]
  | k + 1, _ :: _ :: rest => by
    rw [Nat.succ_mul]
    simp only [List.drop_succ_cons, frames, frames_drop k rest]

theorem frames_take : (k : Nat) → (xs : List α) → frames (xs.take (k * 2)) = (frames xs).take k
  | 0, _ => by simp [frames]
  | k + 1, [] => by simp [frames]
  | k + 1, [_] => by simp [frames, Nat.succ_mul]
  | k + 1, _ :: _ :: rest => by
    rw [Nat.succ_mul]
    simp only [List.take_succ_cons, frames, frames_take k rest]

/-! ### Blocks -/

/-- A block of the queue: interleaved stereo from the stamp `rtp` on. -/
structure PcmFrame (α : Type) where
  rtp : BitVec 32
  samples : List α
  /-- Retained PCM while the new RTP clock is pending; 0 when unset. -/
  localTargetNs : Int := 0
deriving Repr, DecidableEq

/-- What `trim_before` leaves in its two reference arguments, and what it returns. -/
structure Trimmed (α : Type) where
  rtp : BitVec 32
  pcm : List α
  removed : Nat

/-- Drop samples strictly before the RTP boundary, including partial PCM blocks. -/
def trimBefore (rtp : BitVec 32) (pcm : List α) (boundary : BitVec 32) : Trimmed α :=
  let difference := boundary - rtp
  if difference = 0 ∨ difference.toNat > 0x7fffffff then ⟨rtp, pcm, 0⟩
  else
    let frames := min difference.toNat (pcm.length / 2)
    ⟨rtp + BitVec.ofNat 32 frames, pcm.drop (frames * 2), frames * 2⟩

namespace PcmFrame

/-- A block with its samples before the boundary dropped. -/
def trim (boundary : BitVec 32) (f : PcmFrame α) : PcmFrame α :=
  {f with
    rtp := (trimBefore f.rtp f.samples boundary).rtp
    samples := (trimBefore f.rtp f.samples boundary).pcm}

/-- How many samples that drops. -/
def removed (boundary : BitVec 32) (f : PcmFrame α) : Nat :=
  (trimBefore f.rtp f.samples boundary).removed

/-- The RTP stamp just past the block. -/
def endRtp (f : PcmFrame α) : BitVec 32 := f.rtp + BitVec.ofNat 32 (f.samples.length / 2)

/-- The block as a start and its frames. -/
def block (f : PcmFrame α) : BitVec 32 × List (α × α) := (f.rtp, Audio.frames f.samples)

end PcmFrame

/-- The trim loop over a queue: every block is trimmed and the empty ones erased. -/
def trimQueue (boundary : BitVec 32) : List (PcmFrame α) → List (PcmFrame α)
  | [] => []
  | f :: rest =>
    if (f.trim boundary).samples.isEmpty then trimQueue boundary rest
    else f.trim boundary :: trimQueue boundary rest

/-- The samples a queue holds. -/
def total (queue : List (PcmFrame α)) : Nat := (queue.map fun f => f.samples.length).sum

/-- Every frame of a queue at its RTP stamp. -/
def stamped (queue : List (PcmFrame α)) : List (BitVec 32 × (α × α)) :=
  laid (queue.map PcmFrame.block)

/-- A block the decoder can have produced: some stereo frames. -/
def PcmFrame.Stereo (f : PcmFrame α) : Prop := f.samples ≠ [] ∧ f.samples.length % 2 = 0

instance [DecidableEq α] (f : PcmFrame α) : Decidable f.Stereo :=
  inferInstanceAs (Decidable (_ ∧ _))

@[simp] theorem total_nil : total ([] : List (PcmFrame α)) = 0 := rfl

@[simp] theorem total_cons (f : PcmFrame α) (rest : List (PcmFrame α)) :
    total (f :: rest) = f.samples.length + total rest := rfl

@[simp] theorem total_append (a b : List (PcmFrame α)) : total (a ++ b) = total a + total b := by
  simp [total]

@[simp] theorem stamped_append (a b : List (PcmFrame α)) :
    stamped (a ++ b) = stamped a ++ stamped b := by
  simp [stamped]

/-! ### What a trim does -/

/-- A trim removes an even number of leading samples and advances the stamp by
half of it. -/
theorem trimBefore_cases (rtp boundary : BitVec 32) (pcm : List α) :
    ∃ k, k ≤ pcm.length / 2 ∧
      trimBefore rtp pcm boundary = ⟨rtp + BitVec.ofNat 32 k, pcm.drop (k * 2), k * 2⟩ := by
  rw [trimBefore]
  simp only
  split
  · exact ⟨0, Nat.zero_le _, by simp⟩
  · exact ⟨_, Nat.min_le_right _ _, rfl⟩

theorem trim_cases (boundary : BitVec 32) (f : PcmFrame α) :
    ∃ k, k ≤ f.samples.length / 2 ∧ f.removed boundary = k * 2 ∧
      f.trim boundary =
        {f with rtp := f.rtp + BitVec.ofNat 32 k, samples := f.samples.drop (k * 2)} := by
  obtain ⟨k, hk, h⟩ := trimBefore_cases f.rtp boundary f.samples
  exact ⟨k, hk, by rw [PcmFrame.removed, h], by simp only [PcmFrame.trim, h]⟩

/-- A block starts at its own stamp. -/
theorem trim_self (f : PcmFrame α) : f.trim f.rtp = f := by
  simp [PcmFrame.trim, trimBefore]

/-- A boundary less than half the range ahead takes off that many frames, or all. -/
theorem trim_ahead {boundary : BitVec 32} {f : PcmFrame α}
    (h : (boundary - f.rtp).toNat ≤ 0x7fffffff) :
    (f.trim boundary).samples =
      f.samples.drop (min (boundary - f.rtp).toNat (f.samples.length / 2) * 2) := by
  unfold PcmFrame.trim trimBefore
  by_cases hzero : boundary - f.rtp = 0
  · simp [hzero]
  · have hcond : ¬ (boundary - f.rtp = 0 ∨ (boundary - f.rtp).toNat > 0x7fffffff) := by
      rintro (h' | h')
      · exact hzero h'
      · omega
    simp only [if_neg hcond]

/-- What is removed and what is left make up the block. -/
theorem trim_length (boundary : BitVec 32) (f : PcmFrame α) :
    f.removed boundary + (f.trim boundary).samples.length = f.samples.length := by
  obtain ⟨k, hk, hr, h⟩ := trim_cases boundary f
  rw [hr, h, List.length_drop]
  omega

theorem trim_sublist (boundary : BitVec 32) (f : PcmFrame α) :
    (f.trim boundary).samples.Sublist f.samples := by
  obtain ⟨k, -, -, h⟩ := trim_cases boundary f
  rw [h]
  exact List.drop_sublist _ _

theorem trim_even (boundary : BitVec 32) (f : PcmFrame α) (h : f.samples.length % 2 = 0) :
    (f.trim boundary).samples.length % 2 = 0 := by
  obtain ⟨k, hk, -, ht⟩ := trim_cases boundary f
  rw [ht, List.length_drop]
  omega

theorem trimQueue_append (boundary : BitVec 32) (a b : List (PcmFrame α)) :
    trimQueue boundary (a ++ b) = trimQueue boundary a ++ trimQueue boundary b := by
  induction a with
  | nil => rfl
  | cons f rest ih =>
    simp only [List.cons_append, trimQueue, ih]
    split <;> rfl

theorem trimQueue_total_le (boundary : BitVec 32) (queue : List (PcmFrame α)) :
    total (trimQueue boundary queue) ≤ total queue := by
  induction queue with
  | nil => exact Nat.le_refl _
  | cons f rest ih =>
    have := trim_length boundary f
    rw [trimQueue]
    split
    · rw [total_cons]
      omega
    · rw [total_cons, total_cons]
      omega

theorem trimQueue_stereo (boundary : BitVec 32) (queue : List (PcmFrame α))
    (h : ∀ f ∈ queue, f.Stereo) : ∀ f ∈ trimQueue boundary queue, f.Stereo := by
  induction queue with
  | nil => exact h
  | cons f rest ih =>
    have hrest := ih fun g hg => h g (List.mem_cons_of_mem f hg)
    rw [trimQueue]
    split
    · exact hrest
    · rename_i hne
      refine List.forall_mem_cons.mpr ⟨⟨?_, ?_⟩, hrest⟩
      · simpa using hne
      · exact trim_even boundary f (h f List.mem_cons_self).2

/-- A trim loop leaves no empty block. -/
theorem trimQueue_nonempty (boundary : BitVec 32) (queue : List (PcmFrame α)) :
    ∀ f ∈ trimQueue boundary queue, f.samples ≠ [] := by
  induction queue with
  | nil => intro f hf; cases hf
  | cons f rest ih =>
    rw [trimQueue]
    split
    · exact ih
    · rename_i hne
      exact List.forall_mem_cons.mpr ⟨by simpa using hne, ih⟩

/-! ### Blocks on the sender's timeline -/

/-- A block at a position of the unbounded timeline its stamp is a truncation of. -/
structure Placed (α : Type) where
  frame : PcmFrame α
  pos : Int
  stamp : frame.rtp = wrap 32 pos

namespace Placed

/-- The block as a position and its frames. -/
def block (x : Placed α) : Int × List (α × α) := (x.pos, Audio.frames x.frame.samples)

/-- The position just past the block. -/
def endPos (x : Placed α) : Int := x.pos + (x.frame.samples.length / 2 : Nat)

/-- A block at `pos` with the frames before position `B` dropped. -/
def cut (B : Int) (x : Placed α) : Placed α :=
  let k := min (B - x.pos).toNat (x.frame.samples.length / 2)
  ⟨{x.frame with rtp := wrap 32 (x.pos + k), samples := x.frame.samples.drop (k * 2)},
    x.pos + k, rfl⟩

/-- Close enough to the boundary for the comparison of stamps to be one of
positions: a block starting less than half the range before it, or up to half the
range after it. -/
def Near (B : Int) (x : Placed α) : Prop := B - x.pos < 2 ^ 31 ∧ x.pos - B ≤ 2 ^ 31

instance (B : Int) (x : Placed α) : Decidable (x.Near B) := inferInstanceAs (Decidable (_ ∧ _))

end Placed

/-- The stamped frames of positions. -/
def wrapStamps (l : List (Int × (α × α))) : List (BitVec 32 × (α × α)) :=
  l.map (Prod.map (wrap 32) id)

/-- The frames of placed blocks, each at its position. -/
def timeline (xs : List (Placed α)) : List (Int × (α × α)) := laid (xs.map Placed.block)

theorem wrap_succ (p : Int) : wrap 32 (p + 1) = wrap 32 p + 1 := wrap_add p 1

@[simp] theorem timeline_nil : timeline ([] : List (Placed α)) = [] := rfl

@[simp] theorem timeline_cons (x : Placed α) (rest : List (Placed α)) :
    timeline (x :: rest) = stamps x.pos (frames x.frame.samples) ++ timeline rest := rfl

@[simp] theorem timeline_append (a b : List (Placed α)) :
    timeline (a ++ b) = timeline a ++ timeline b := by
  simp [timeline]

@[simp] theorem wrapStamps_append (a b : List (Int × (α × α))) :
    wrapStamps (a ++ b) = wrapStamps a ++ wrapStamps b :=
  List.map_append

/-- The stamps of a queue are its positions, truncated. -/
theorem stamped_placed (xs : List (Placed α)) :
    stamped (xs.map Placed.frame) = wrapStamps (timeline xs) := by
  unfold stamped wrapStamps timeline
  rw [laid_map (wrap 32) wrap_succ, List.map_map, List.map_map]
  congr 1
  refine List.map_congr_left fun x _ => ?_
  simp only [Function.comp_apply, PcmFrame.block, Placed.block, x.stamp, Prod.map_apply, id_eq]

/-- Comparing stamps is comparing positions: a trim near its boundary is the cut. -/
theorem trim_placed (x : Placed α) (B : Int) (h : x.Near B) :
    x.frame.trim (wrap 32 B) = (x.cut B).frame := by
  obtain ⟨hlo, hhi⟩ := h
  unfold PcmFrame.trim Placed.cut trimBefore
  rw [x.stamp]
  by_cases hle : B ≤ x.pos
  · -- at or after the boundary: the difference is zero or in the upper half
    have hk : min (B - x.pos).toNat (x.frame.samples.length / 2) = 0 := by omega
    have hcond : wrap 32 B - wrap 32 x.pos = 0 ∨
        (wrap 32 B - wrap 32 x.pos).toNat > 0x7fffffff := by
      rcases Int.lt_or_eq_of_le hle with hlt | heq
      · right
        rw [wrap_sub_toNat_back hlt (by omega)]
        omega
      · left
        rw [heq, BitVec.sub_self]
        rfl
    simp only [if_pos hcond, hk, Nat.zero_mul, List.drop_zero, Int.natCast_zero, Int.add_zero]
  · -- before it: the difference is the distance
    have hdist : (wrap 32 B - wrap 32 x.pos).toNat = (B - x.pos).toNat :=
      wrap_sub_toNat (by omega) (by omega)
    have hcond : ¬ (wrap 32 B - wrap 32 x.pos = 0 ∨
        (wrap 32 B - wrap 32 x.pos).toNat > 0x7fffffff) := by
      rintro (hzero | hbig)
      · have hnone : (B - x.pos).toNat = 0 := by rw [← hdist, hzero]; rfl
        omega
      · omega
    simp only [if_neg hcond, wrap_add_nat]
    rw [hdist]

/-- The cut keeps exactly the frames at or after its position. -/
theorem timeline_cut (B : Int) (x : Placed α) :
    timeline [x.cut B] = (timeline [x]).filter (fun s => B ≤ s.1) := by
  simp only [timeline_cons, timeline_nil, List.append_nil, Placed.cut, frames_drop, stamps_from,
    frames_length]

theorem timeline_filter_cons (B : Int) (x : Placed α) (rest : List (Placed α)) :
    (timeline (x :: rest)).filter (fun s => B ≤ s.1) =
      timeline [x.cut B] ++ (timeline rest).filter (fun s => B ≤ s.1) := by
  rw [timeline_cut, ← List.filter_append, ← timeline_append]
  rfl

/-- A trim loop keeps exactly the frames at or after the boundary, each at its
stamp and in order. -/
theorem stamped_trimQueue (xs : List (Placed α)) (B : Int) (h : ∀ x ∈ xs, x.Near B) :
    stamped (trimQueue (wrap 32 B) (xs.map Placed.frame)) =
      wrapStamps ((timeline xs).filter fun s => B ≤ s.1) := by
  induction xs with
  | nil => rfl
  | cons x rest ih =>
    have hx := trim_placed x B (h x List.mem_cons_self)
    have hrest := ih fun y hy => h y (List.mem_cons_of_mem x hy)
    rw [timeline_filter_cons, wrapStamps_append, ← hrest, ← stamped_placed [x.cut B]]
    simp only [List.map_cons, List.map_nil, trimQueue, hx]
    split
    · rename_i hempty
      have : (x.cut B).frame.samples = [] := by simpa using hempty
      simp [stamped, PcmFrame.block, this, frames]
    · rw [← List.singleton_append, stamped_append]

end AirPlay.Audio
