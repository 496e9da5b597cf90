import Mathlib.Algebra.GroupWithZero.Nat
import AirPlay.Mirror.Listener

/-! Keystream alignment.

The sender enciphers the payloads of the two video frame types with one continuous
keystream, so each of them has to be deciphered from where the payloads before it end.
The reader leaves payloads of less than five bytes as they are, and their bytes of the
keystream with them: the frames of a listener are deciphered in the right places exactly
when none of the enciphered ones is that short (`aligned_iff`). -/
namespace AirPlay.Mirror

/-- How much of the keystream a frame's payload is due. -/
def Frame.due (f : Frame) : Nat := if f.encrypted then f.payload.length else 0

/-- The frame was deciphered from position `n`, or took nothing of the keystream. -/
def Handled.placed (n : Nat) (t : Handled) : Prop :=
  if t.frame.encrypted then t.frame.payload ≠ [] → t.offset = some n else t.taken = 0

/-- Each enciphered frame was deciphered from where the ones before it end, and no other
frame took anything of the keystream. -/
def Aligned (ts : List Handled) : Prop :=
  ∀ pre t post, ts = pre ++ t :: post → t.placed (pre.map fun t => t.frame.due).sum

/-- Not an enciphered frame of one to four bytes. -/
def Frame.whole (f : Frame) : Prop := f.encrypted = true → f.payload = [] ∨ 5 ≤ f.payload.length

/-- Aligned, with the first frame due at `n`. -/
def AlignedFrom (n : Nat) : List Handled → Prop
  | [] => True
  | t :: ts => t.placed n ∧ AlignedFrom (n + t.frame.due) ts

theorem alignedFrom_iff {n : Nat} {ts : List Handled} :
    AlignedFrom n ts ↔ ∀ pre t post, ts = pre ++ t :: post →
      t.placed (n + (pre.map fun t => t.frame.due).sum) := by
  induction ts generalizing n with
  | nil => exact iff_of_true trivial fun pre t post h => absurd h (by simp)
  | cons t ts ih =>
    rw [AlignedFrom, ih]
    constructor
    · rintro ⟨ht, hrest⟩ pre t' post h
      cases pre with
      | nil =>
        rw [List.nil_append] at h
        rw [← (List.cons.inj h).1]
        exact ht
      | cons t₀ pre =>
        obtain ⟨rfl, hts⟩ := List.cons.inj h
        rw [List.map_cons, List.sum_cons, ← Nat.add_assoc]
        exact hrest pre t' post hts
    · intro h
      refine ⟨h [] t ts rfl, fun pre t' post hts => ?_⟩
      have hplaced := h (t :: pre) t' post (by rw [hts, List.cons_append])
      rwa [List.map_cons, List.sum_cons, ← Nat.add_assoc] at hplaced

theorem aligned_iff_from {ts : List Handled} : Aligned ts ↔ AlignedFrom 0 ts := by
  rw [alignedFrom_iff, Aligned]
  simp only [Nat.zero_add]

section Frame
variable {k : Nat → UInt8}

@[simp] theorem handleFrame_frame (decrypt : Option MirrorDecrypt) (f : Frame) :
    (handleFrame k decrypt f).1.frame = f := by
  cases decrypt with
  | none => rfl
  | some c =>
    rw [handleFrame]
    split <;> rfl

/-- An enciphered frame of five bytes or more is deciphered. -/
theorem handleFrame_deciphers {n : Nat} {f : Frame} (he : f.encrypted = true)
    (h5 : 5 ≤ f.payload.length) :
    handleFrame k (some ⟨n⟩) f =
      (⟨f, some n, f.payload.length, Keystream.apply k n f.payload⟩,
        some ⟨n + f.payload.length⟩) := by
  have hne : f.payload ≠ [] := by
    intro hnil
    rw [hnil] at h5
    exact absurd h5 (by decide)
  simp only [handleFrame, he, h5, MirrorDecrypt.decrypt, hne, Bool.true_and, decide_true, if_true,
    if_false, Nat.add_sub_cancel_left]

/-- Every other frame is left as it is. -/
theorem handleFrame_leaves {n : Nat} {f : Frame}
    (h : ¬ (f.encrypted = true ∧ 5 ≤ f.payload.length)) :
    handleFrame k (some ⟨n⟩) f = ({frame := f}, some ⟨n⟩) := by
  rw [handleFrame, if_neg]
  rwa [Bool.and_eq_true, decide_eq_true_iff]

/-- A whole frame is deciphered from where the context stands, and takes what it is due. -/
theorem handleFrame_whole {n : Nat} {f : Frame} (h : f.whole) :
    (handleFrame k (some ⟨n⟩) f).1.placed n ∧
      (handleFrame k (some ⟨n⟩) f).2 = some ⟨n + f.due⟩ := by
  rw [Handled.placed, handleFrame_frame, Frame.due]
  cases he : f.encrypted with
  | false =>
    rw [handleFrame_leaves (by simp [he])]
    exact ⟨rfl, rfl⟩
  | true =>
    rcases h he with hnil | h5
    · rw [handleFrame_leaves (by simp [hnil]), hnil]
      exact ⟨fun hne => absurd rfl hne, rfl⟩
    · rw [handleFrame_deciphers he h5]
      exact ⟨fun _ => rfl, rfl⟩

/-- A frame that is not whole is not deciphered. -/
theorem handleFrame_short {n : Nat} {f : Frame} (h : ¬ f.whole) :
    ¬ (handleFrame k (some ⟨n⟩) f).1.placed n := by
  rw [Frame.whole, Classical.not_imp, not_or, not_le] at h
  obtain ⟨he, hne, hlt⟩ := h
  have h5 : ¬ (f.encrypted = true ∧ 5 ≤ f.payload.length) := fun h5 => absurd h5.2 (not_le.mpr hlt)
  rw [Handled.placed, handleFrame_frame, he, handleFrame_leaves h5]
  exact fun hplaced => absurd (hplaced hne) (Option.some_ne_none n).symm

theorem handleAll_aligned (n : Nat) (fs : List Frame) :
    AlignedFrom n (handleAll k (some ⟨n⟩) fs).1 ↔ ∀ f ∈ fs, f.whole := by
  induction fs generalizing n with
  | nil => exact iff_of_true trivial fun f hf => absurd hf List.not_mem_nil
  | cons f fs ih =>
    rw [List.forall_mem_cons, handleAll, AlignedFrom, handleFrame_frame]
    by_cases h : f.whole
    · obtain ⟨hplaced, hnext⟩ := @handleFrame_whole k n f h
      rw [hnext, ih]
      exact ⟨fun hrest => ⟨h, hrest.2⟩, fun hrest => ⟨hplaced, hrest.2⟩⟩
    · exact iff_of_false (fun hrest => handleFrame_short h hrest.1) fun hrest => h hrest.1

end Frame

/-- The frames of all the connections of a listener are aligned exactly when the
connections bring whole frames only. -/
theorem aligned_iff (k : Nat → UInt8) (connections : List Bytes) :
    Aligned (acceptLoop k (some {}) connections).1 ↔
      ∀ stream ∈ connections, ∀ f ∈ received stream, f.whole := by
  rw [aligned_iff_from, acceptLoop_eq, handleAll_aligned]
  simp only [List.mem_flatMap]
  exact ⟨fun h stream hs f hf => h f ⟨stream, hs, hf⟩, fun h f ⟨stream, hs, hf⟩ => h stream hs f hf⟩

/-- A keyframe of one byte and a keyframe of five. -/
def shortFrames : List Frame :=
  let header (size : UInt8) : Bytes := [size, 0, 0, 0, 0, 0x10] ++ List.replicate 122 0
  [⟨header 1, [7], by simp [header, kHeaderSize], by decide, by simp [kMaxPayloadSize]⟩,
    ⟨header 5, [0, 0, 0, 1, 7], by simp [header, kHeaderSize], by decide,
      by simp [kMaxPayloadSize]⟩]

/-- The second is deciphered from the first's place in the keystream. -/
theorem short_frame_shifts :
    ¬ Aligned (acceptLoop (fun _ => 0) (some {}) [shortFrames.flatMap Frame.bytes]).1 ∧
      (acceptLoop (fun _ => 0) (some {}) [shortFrames.flatMap Frame.bytes]).1.map (·.offset) =
        [none, some 0] := by
  rw [acceptLoop_eq, List.flatMap_singleton, received_frames]
  refine ⟨fun h => ?_, rfl⟩
  have hwhole := (handleAll_aligned 0 shortFrames).mp (aligned_iff_from.mp h) _ List.mem_cons_self
  exact absurd (hwhole rfl) (by decide)

/-! ### What the sender enciphered -/

section Sender
variable (k : Nat → UInt8)

def Frame.encipher (n : Nat) (f : Frame) : Frame :=
  if f.encrypted then
    {f with
      payload := Keystream.apply k n f.payload
      payload_length := (Keystream.length_apply k n f.payload).trans f.payload_length
      bounded := (Keystream.length_apply k n f.payload).trans_le f.bounded}
  else f

/-- One keystream goes over the payloads of the two types. -/
def encipherFrom (n : Nat) : List Frame → List Frame
  | [] => []
  | f :: fs => f.encipher k n :: encipherFrom (n + f.due) fs

variable {k}

@[simp] theorem Frame.encipher_header (n : Nat) (f : Frame) :
    (f.encipher k n).header = f.header := by
  rw [encipher]
  split <;> rfl

@[simp] theorem Frame.encipher_encrypted (n : Nat) (f : Frame) :
    (f.encipher k n).encrypted = f.encrypted := by
  rw [encrypted, encrypted, ftype, ftype, encipher_header]

/-- A whole frame comes back as it was sent. -/
theorem handleFrame_encipher {n : Nat} {f : Frame} (h : f.whole) :
    (handleFrame k (some ⟨n⟩) (f.encipher k n)).1.payload = f.payload ∧
      (handleFrame k (some ⟨n⟩) (f.encipher k n)).2 = some ⟨n + f.due⟩ := by
  rw [Frame.due]
  cases he : f.encrypted with
  | false =>
    rw [handleFrame_leaves (by simp [he]), Frame.encipher, he]
    exact ⟨rfl, rfl⟩
  | true =>
    have hpayload : (f.encipher k n).payload = Keystream.apply k n f.payload := by
      rw [Frame.encipher, if_pos he]
    rcases h he with hnil | h5
    · rw [handleFrame_leaves (by simp [hpayload, hnil])]
      refine ⟨?_, by rw [hnil]; rfl⟩
      rw [hpayload, hnil]
      rfl
    · rw [handleFrame_deciphers (by simp [he]) (by simp [hpayload, h5]), hpayload,
        Keystream.apply_apply, Keystream.length_apply]
      exact ⟨rfl, rfl⟩

/-- Whole frames that a sender has enciphered come out of the reader as they were. -/
theorem handleAll_encipher (n : Nat) (fs : List Frame) (h : ∀ f ∈ fs, f.whole) :
    (handleAll k (some ⟨n⟩) (encipherFrom k n fs)).1.map (·.payload) = fs.map (·.payload) := by
  induction fs generalizing n with
  | nil => rfl
  | cons f fs ih =>
    rw [List.forall_mem_cons] at h
    obtain ⟨hpayload, hnext⟩ := @handleFrame_encipher k n f h.1
    rw [encipherFrom, handleAll, hnext, List.map_cons, List.map_cons, hpayload, ih _ h.2]

end Sender

end AirPlay.Mirror
