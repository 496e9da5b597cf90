import Mathlib.Data.List.MinMax
import Mathlib.Data.Int.ConditionallyCompleteOrder
import Mathlib.Tactic.Linarith
import AirPlay.Library.RingBuffer
import AirPlay.Library.Serial

/-! The clock mapping.

The receiver asks the sender for the time and keeps the last eight answers; a remote
stamp is read on the local clock by the freshest of these with the shortest round
trip. Stamps are 64 bits, 32 for seconds and 32 for the fraction, of an epoch nothing
is known about, so only differences of near stamps mean anything. -/
namespace AirPlay.Clock

open Serial

/-! ### The clock -/

/-- An exchange with the sender: its time, the local time beside it, when it was observed
and the round trip. -/
structure Sample where
  valid : Bool := false
  remote : BitVec 64 := 0
  localNs : Int := 0
  observed : Int := 0
  rtt : Int := 0
deriving DecidableEq

/-- Eight samples and the unsigned counter of those written. -/
abbrev NtpClock := RingBuffer Sample 8 32

namespace NtpClock

/-- A clock without observations. -/
def fresh : NtpClock := ⟨Vector.replicate 8 {}, 0⟩

/-- The distance of two stamps in ns. -/
def deltaNs (value reference : BitVec 64) : Int :=
  let seconds := (value >>> 32).setWidth 32 - (reference >>> 32).setWidth 32
  let signedSeconds : Int :=
    if seconds.toNat ≤ 0x7fffffff then seconds.toNat else seconds.toNat - 0x100000000
  let fractions : Int := (value.setWidth 32).toNat - (reference.setWidth 32).toNat
  signedSeconds * 1000000000 + (fractions * 1000000000).tdiv 0x100000000

/-- An answer is taken over unless its stamps are missing or its delays implausible. -/
def observe (sent received : Int) (remoteReceived remoteSent : BitVec 64) (clock : NtpClock) :
    NtpClock × Bool :=
  let processing := deltaNs remoteSent remoteReceived
  let elapsed := received - sent
  let delay := elapsed - processing
  if remoteReceived = 0 ∨ remoteSent = 0 ∨ processing < 0 ∨ elapsed < 0 ∨
      elapsed > 1000000000 ∨ delay < -1000000 ∨ delay > 500000000 then (clock, false)
  else
    let rtt := if delay > 0 then delay else 0
    (clock.push ⟨true, remoteSent, received - rtt.tdiv 2, received, rtt⟩, true)

/-- The loop over the samples: of those observed within 30 s the first with the
shortest round trip. -/
def best (now : Int) (samples : List Sample) : Option Sample :=
  samples.foldl (fun best sample =>
    if !sample.valid || now < sample.observed || now - sample.observed > 30000000000 then best
    else match best with
      | none => some sample
      | some b => if sample.rtt < b.rtt then some sample else some b) none

def localTime (remote : BitVec 64) (now : Int) (clock : NtpClock) : Option Int :=
  match best now clock.slots.toList with
  | none => none
  | some best =>
    let delta := deltaNs remote best.remote
    if delta < -30000000000 ∨ delta > 30000000000 then none else some (best.localNs + delta)

/-! ### Differences of stamps -/

theorem high_wrap (p : Int) : (wrap 64 p >>> 32).setWidth 32 = wrap 32 (p / 2 ^ 32) := by
  apply BitVec.eq_of_toNat_eq
  rw [BitVec.toNat_setWidth, BitVec.toNat_ushiftRight, Nat.shiftRight_eq_div_pow, wrap_toNat,
    wrap_toNat]
  omega

theorem low_wrap (p : Int) : (((wrap 64 p).setWidth 32).toNat : Int) = p % 2 ^ 32 := by
  rw [BitVec.toNat_setWidth, wrap_toNat]
  omega

/-- Stamps less than half the range of seconds apart differ by their distance, cut to ns
towards zero. -/
theorem deltaNs_wrap {p q : Int} (hlo : -(2 ^ 63 - 2 ^ 32) ≤ p - q)
    (hhi : p - q ≤ 2 ^ 63 - 2 ^ 32) :
    |deltaNs (wrap 64 p) (wrap 64 q) * 2 ^ 32 - (p - q) * 10 ^ 9| < 2 ^ 32 := by
  have hp := Int.mul_ediv_add_emod p (2 ^ 32)
  have hq := Int.mul_ediv_add_emod q (2 ^ 32)
  have hseconds := wrap_sub_signed (p := p / 2 ^ 32) (q := q / 2 ^ 32) (by omega) (by omega)
  -- only the fractions are divided
  have hcut := Int.tdiv_mul_add_tmod ((p % 2 ^ 32 - q % 2 ^ 32) * 1000000000) 0x100000000
  have hlt := Int.tmod_lt_of_pos ((p % 2 ^ 32 - q % 2 ^ 32) * 1000000000)
    (show (0 : Int) < 0x100000000 by omega)
  have hgt := Int.lt_tmod_of_pos ((p % 2 ^ 32 - q % 2 ^ 32) * 1000000000)
    (show (0 : Int) < 0x100000000 by omega)
  rw [abs_lt]
  simp only [deltaNs, high_wrap, low_wrap, hseconds]
  omega

/-! ### The sample an answer leaves -/

/-- What an answer puts in a slot, read off a clock without others. -/
def taken (sent received : Int) (remoteReceived remoteSent : BitVec 64) : Option Sample :=
  let (clock, accepted) := observe sent received remoteReceived remoteSent fresh
  if accepted then some clock.slots[0] else none

/-- Whether an answer is taken over, and as what, does not depend on those before it. -/
theorem observe_eq (sent received : Int) (remoteReceived remoteSent : BitVec 64)
    (clock : NtpClock) :
    observe sent received remoteReceived remoteSent clock =
      match taken sent received remoteReceived remoteSent with
      | none => (clock, false)
      | some sample => (clock.push sample, true) := by
  simp only [taken, observe]
  split
  · rfl
  · rfl

/-- The sample of an answer taken over. -/
structure Taken (sent received : Int) (remoteReceived remoteSent : BitVec 64) (s : Sample) :
    Prop where
  valid : s.valid = true
  remote : s.remote = remoteSent
  observed : s.observed = received
  elapsed_nonneg : 0 ≤ received - sent
  elapsed_le : received - sent ≤ 1000000000
  rtt_eq : s.rtt = max (received - sent - deltaNs remoteSent remoteReceived) 0
  rtt_le : s.rtt ≤ 500000000
  localNs_eq : s.localNs = received - s.rtt / 2

theorem taken_spec {sent received : Int} {remoteReceived remoteSent : BitVec 64} {s : Sample}
    (h : taken sent received remoteReceived remoteSent = some s) :
    Taken sent received remoteReceived remoteSent s := by
  simp only [taken, observe] at h
  split at h
  · cases h
  · rename_i hguard
    simp only [not_or] at hguard
    obtain ⟨-, -, -, hnonneg, hle, -, hdelay⟩ := hguard
    have hrtt (d : Int) : (if d > 0 then d else 0) = max d 0 := by
      rcases le_or_gt d 0 with hd | hd
      · rw [if_neg (not_lt.mpr hd), max_eq_right hd]
      · rw [if_pos hd, max_eq_left hd.le]
    simp only [hrtt] at h
    obtain rfl : _ = s := Option.some.inj h
    exact {
      valid := rfl
      remote := rfl
      observed := rfl
      elapsed_nonneg := not_lt.mp hnonneg
      elapsed_le := not_lt.mp hle
      rtt_eq := rfl
      rtt_le := max_le (not_lt.mp hdelay) (by omega)
      localNs_eq := congrArg (received - ·) (Int.tdiv_eq_ediv_of_nonneg (le_max_right _ 0)) }

/-! ### The sample chosen -/

/-- A sample may be used: written, not from the future, at most 30 s old. -/
def Fresh (now : Int) (s : Sample) : Bool :=
  s.valid && s.observed ≤ now && now - s.observed ≤ 30000000000

/-- The loop keeps the first of the shortest round trips among the samples that may be used. -/
theorem best_eq (now : Int) (samples : List Sample) :
    best now samples = (samples.filter (Fresh now)).argmin Sample.rtt := by
  induction samples using List.reverseRecOn with
  | nil => rfl
  | append_singleton samples s ih =>
    have hskip : (!s.valid || now < s.observed || now - s.observed > 30000000000) =
        !Fresh now s := by
      simp only [Fresh, Bool.not_and, ← decide_not, not_le, gt_iff_lt]
    unfold best at ih ⊢
    rw [List.foldl_append, ih, List.filter_append]
    simp only [List.foldl_cons, List.foldl_nil, hskip]
    cases hs : Fresh now s with
    | false => simp [hs]
    | true =>
      rw [List.filter_cons_of_pos hs, List.filter_nil, List.argmin_concat]
      cases (samples.filter (Fresh now)).argmin Sample.rtt <;> simp

end NtpClock

end AirPlay.Clock
