import Mathlib.Data.BitVec
import Mathlib.Algebra.GroupWithZero.Nat
import AirPlay.Library.Checked
import AirPlay.Library.Machine
import AirPlay.Clock.NtpClock

/-! The arithmetic of stamps.

Seconds and fractions of two stamps are subtracted apart, the fractions divided with a
cut towards zero, and everything is added up in 64 bits with a sign. Nothing of it
overflows, and but for stamps that lie half the range of seconds apart the sum is the
difference of the stamps (`stamps_exact`). -/
namespace AirPlay.Clock
open Serial Checked

namespace NtpClock

/-! ### The computations, none where they overflow -/

/-- The wrapped difference of the seconds. -/
def seconds (value reference : BitVec 64) : BitVec 32 :=
  (value >>> 32).setWidth 32 - (reference >>> 32).setWidth 32

def signedSecondsChecked (seconds : BitVec 32) : Option Int :=
  if seconds.toNat ≤ 0x7fffffff then some (seconds.toNat : Int)
  else sub 64 seconds.toNat 0x100000000

def deltaNsChecked (value reference : BitVec 64) : Option Int := do
  let signedSeconds ← signedSecondsChecked (seconds value reference)
  let fractions ← sub 64 (value.setWidth 32).toNat (reference.setWidth 32).toNat
  let whole ← mul 64 signedSeconds 1000000000
  let scaled ← mul 64 fractions 1000000000
  add 64 whole (scaled.tdiv 0x100000000)

local instance : NeZero 8 := ⟨by decide⟩

def observeChecked (sent received : Int) (remoteReceived remoteSent : BitVec 64)
    (clock : NtpClock) : Option (NtpClock × Bool) := do
  let processing ← deltaNsChecked remoteSent remoteReceived
  let elapsed ← sub 64 received sent
  let delay ← sub 64 elapsed processing
  if remoteReceived = 0 ∨ remoteSent = 0 ∨ processing < 0 ∨ elapsed < 0 ∨
      elapsed > 1000000000 ∨ delay < -1000000 ∨ delay > 500000000 then some (clock, false)
  else do
    let rtt := if delay > 0 then delay else 0
    let localNs ← sub 64 received (rtt.tdiv 2)
    some (clock.push ⟨true, remoteSent, localNs, received, rtt⟩, true)

/-- The age of a sample is not looked at when it is not valid, or of the future. -/
def bestChecked (now : Int) (samples : List Sample) : Option (Option Sample) :=
  samples.foldlM (fun best sample =>
    if !sample.valid || now < sample.observed then some best
    else (sub 64 now sample.observed).map fun age : Int =>
      if age > 30000000000 then best
      else match best with
        | none => some sample
        | some b => if sample.rtt < b.rtt then some sample else some b) none

def localTimeChecked (remote : BitVec 64) (now : Int) (clock : NtpClock) :
    Option (Option Int) := do
  match ← bestChecked now clock.slots.toList with
  | none => some none
  | some best =>
    let delta ← deltaNsChecked remote best.remote
    if delta < -30000000000 ∨ delta > 30000000000 then some none
    else (add 64 best.localNs delta).map some

/-! ### Differences -/

def fractions (value reference : BitVec 64) : Int :=
  (value.setWidth 32).toNat - (reference.setWidth 32).toNat

theorem toNat_split (v : BitVec 64) :
    v.toNat = 2 ^ 32 * ((v >>> 32).setWidth 32).toNat + (v.setWidth 32).toNat := by
  have hv := v.isLt
  rw [BitVec.toNat_setWidth, BitVec.toNat_setWidth, BitVec.toNat_ushiftRight,
    Nat.shiftRight_eq_div_pow]
  omega

theorem fractions_bounds (a b : BitVec 64) :
    -2 ^ 32 < fractions a b ∧ fractions a b < 2 ^ 32 := by
  have ha := (a.setWidth 32).isLt
  have hb := (b.setWidth 32).isLt
  unfold fractions
  omega

theorem signedSeconds_eq (a b : BitVec 64) :
    (if (seconds a b).toNat ≤ 0x7fffffff then ((seconds a b).toNat : Int)
      else (seconds a b).toNat - 0x100000000) = (seconds a b).toInt := by
  have hlt := (seconds a b).isLt
  rw [BitVec.toInt_eq_toNat_cond]
  split <;> split <;> omega

theorem deltaNs_eq (a b : BitVec 64) :
    deltaNs a b =
      (seconds a b).toInt * 1000000000 + (fractions a b * 1000000000).tdiv 0x100000000 := by
  rw [← signedSeconds_eq]
  rfl

theorem toInt_bounds (a b : BitVec 64) :
    -2 ^ 31 ≤ (seconds a b).toInt ∧ (seconds a b).toInt < 2 ^ 31 :=
  ⟨BitVec.le_toInt _, BitVec.toInt_lt⟩

/-- The fraction of a second that is cut off. -/
theorem tdiv_bounds (n : Int) :
    (n.tdiv 0x100000000 * 2 ^ 32 - n < 2 ^ 32 ∧ n - n.tdiv 0x100000000 * 2 ^ 32 < 2 ^ 32) ∧
      (0 ≤ n → n.tdiv 0x100000000 * 2 ^ 32 ≤ n) ∧ (n ≤ 0 → n ≤ n.tdiv 0x100000000 * 2 ^ 32) := by
  have hcut := Int.tdiv_mul_add_tmod n 0x100000000
  have hlt := Int.tmod_lt_of_pos n (show (0 : Int) < 0x100000000 by omega)
  have hgt := Int.lt_tmod_of_pos n (show (0 : Int) < 0x100000000 by omega)
  refine ⟨⟨by omega, by omega⟩, fun hn => ?_, fun hn => ?_⟩
  · have := Int.tmod_nonneg 0x100000000 hn
    omega
  · have := Int.tmod_nonneg 0x100000000 (Int.neg_nonneg_of_nonpos hn)
    rw [Int.neg_tmod] at this
    omega

/-- The signed difference of stamps is that of its parts, unless the seconds are half their
range apart. -/
theorem toInt_sub {a b : BitVec 64} (h : seconds a b ≠ 2 ^ 31) :
    (a - b).toInt = (seconds a b).toInt * 2 ^ 32 + fractions a b := by
  have hne : (seconds a b).toNat ≠ 2 ^ 31 := fun heq => h (BitVec.eq_of_toNat_eq heq)
  have ha := toNat_split a
  have hb := toNat_split b
  have hsub : (seconds a b).toNat = (2 ^ 32 - ((b >>> 32).setWidth 32).toNat +
      ((a >>> 32).setWidth 32).toNat) % 2 ^ 32 := BitVec.toNat_sub _ _
  have hhigh := ((a >>> 32).setWidth 32).isLt
  have hhigh' := ((b >>> 32).setWidth 32).isLt
  have hlow := (a.setWidth 32).isLt
  have hlow' := (b.setWidth 32).isLt
  rw [BitVec.toInt_eq_toNat_cond, BitVec.toInt_eq_toNat_cond, BitVec.toNat_sub, ha, hb]
  rw [fractions]
  generalize (seconds a b).toNat = s at hne hsub ⊢
  split <;> split <;> omega

theorem deltaNs_near {a b : BitVec 64} (h : seconds a b ≠ 2 ^ 31) :
    |deltaNs a b * 2 ^ 32 - (a - b).toInt * 10 ^ 9| < 2 ^ 32 := by
  obtain ⟨⟨hlo, hhi⟩, -⟩ := tdiv_bounds (fractions a b * 1000000000)
  rw [deltaNs_eq, toInt_sub h, abs_lt]
  constructor <;> omega

theorem seconds_swap (a b : BitVec 64) : seconds b a = -seconds a b := by
  rw [seconds, seconds, BitVec.neg_sub, BitVec.sub_eq_add_neg, BitVec.add_comm]

theorem fractions_swap (a b : BitVec 64) : fractions b a = -fractions a b :=
  (Int.neg_sub _ _).symm

theorem deltaNs_swap {a b : BitVec 64} (h : seconds a b ≠ 2 ^ 31) :
    deltaNs b a = -deltaNs a b := by
  have hneg : (-seconds a b).toInt = -(seconds a b).toInt := BitVec.toInt_neg_of_ne_intMin h
  rw [deltaNs_eq, deltaNs_eq, seconds_swap, fractions_swap, hneg, Int.neg_mul, Int.neg_mul,
    Int.neg_tdiv, Int.neg_add]

/-- A later stamp is not read as an earlier time: within a second the cut fractions keep
their order, and a second outweighs what is cut. -/
theorem deltaNs_mono {a a' b : BitVec 64} (h : seconds a b ≠ 2 ^ 31) (h' : seconds a' b ≠ 2 ^ 31)
    (hle : (a - b).toInt ≤ (a' - b).toInt) : deltaNs a b ≤ deltaNs a' b := by
  rw [toInt_sub h, toInt_sub h'] at hle
  have hwindow : -2 ^ 32 < fractions a b - fractions a' b ∧
      fractions a b - fractions a' b < 2 ^ 32 := by
    have ha := (a.setWidth 32).isLt
    have ha' := (a'.setWidth 32).isLt
    simp only [fractions]
    omega
  have hsame : fractions a b ≤ fractions a' b → (fractions a b * 1000000000).tdiv 0x100000000 ≤
      (fractions a' b * 1000000000).tdiv 0x100000000 := fun hf =>
    Int.tdiv_le_tdiv (by omega) (by omega)
  obtain ⟨⟨hcut, -⟩, hpos, -⟩ := tdiv_bounds (fractions a b * 1000000000)
  obtain ⟨⟨-, hcut'⟩, -, hneg'⟩ := tdiv_bounds (fractions a' b * 1000000000)
  rw [deltaNs_eq, deltaNs_eq]
  omega

/-! ### No overflow -/

theorem fits64 {x : Int} (hlo : -2 ^ 63 ≤ x) (hhi : x < 2 ^ 63) : Fits 64 x := ⟨hlo, hhi⟩

theorem deltaNs_bounds (a b : BitVec 64) :
    -(2 ^ 31 * 1000000000 + 1000000000) ≤ deltaNs a b ∧
      deltaNs a b ≤ 2 ^ 31 * 1000000000 + 1000000000 := by
  obtain ⟨hlo, hhi⟩ := toInt_bounds a b
  obtain ⟨hflo, hfhi⟩ := fractions_bounds a b
  obtain ⟨⟨hcut, hcut'⟩, hpos, hneg⟩ := tdiv_bounds (fractions a b * 1000000000)
  rw [deltaNs_eq]
  omega

theorem deltaNsChecked_eq (a b : BitVec 64) : deltaNsChecked a b = some (deltaNs a b) := by
  obtain ⟨hlo, hhi⟩ := toInt_bounds a b
  obtain ⟨hflo, hfhi⟩ := fractions_bounds a b
  obtain ⟨hdlo, hdhi⟩ := deltaNs_bounds a b
  have hsigned : signedSecondsChecked (seconds a b) = some (seconds a b).toInt := by
    have hlt := (seconds a b).isLt
    rw [signedSecondsChecked, ← signedSeconds_eq]
    split
    · rfl
    · exact sub_eq (fits64 (by omega) (by omega))
  have hfractions : sub 64 (a.setWidth 32).toNat (b.setWidth 32).toNat = some (fractions a b) :=
    sub_eq (fits64 (by unfold fractions at hflo; omega) (by unfold fractions at hfhi; omega))
  have hwhole : mul 64 (seconds a b).toInt 1000000000 =
      some ((seconds a b).toInt * 1000000000) := mul_eq (fits64 (by omega) (by omega))
  have hscaled : mul 64 (fractions a b) 1000000000 = some (fractions a b * 1000000000) :=
    mul_eq (fits64 (by omega) (by omega))
  rw [deltaNs_eq] at hdlo hdhi ⊢
  simp only [deltaNsChecked, Option.bind_eq_bind]
  rw [hsigned, Option.bind_some, hfractions, Option.bind_some, hwhole, Option.bind_some, hscaled,
    Option.bind_some]
  exact add_eq (fits64 (by omega) (by omega))

/-- A local time, in ns. -/
def Timely (t : Int) : Prop := 0 ≤ t ∧ t ≤ 2 ^ 62

theorem observeChecked_eq {sent received : Int} (hsent : Timely sent)
    (hreceived : Timely received) (remoteReceived remoteSent : BitVec 64) (clock : NtpClock) :
    observeChecked sent received remoteReceived remoteSent clock =
      some (observe sent received remoteReceived remoteSent clock) := by
  obtain ⟨hslo, hshi⟩ := hsent
  obtain ⟨hrlo, hrhi⟩ := hreceived
  obtain ⟨hdlo, hdhi⟩ := deltaNs_bounds remoteSent remoteReceived
  have helapsed : sub 64 received sent = some (received - sent) :=
    sub_eq (fits64 (by omega) (by omega))
  have hdelay : sub 64 (received - sent) (deltaNs remoteSent remoteReceived) =
      some (received - sent - deltaNs remoteSent remoteReceived) :=
    sub_eq (fits64 (by omega) (by omega))
  simp only [observeChecked, observe, Option.bind_eq_bind]
  rw [deltaNsChecked_eq, Option.bind_some, helapsed, Option.bind_some, hdelay, Option.bind_some]
  split
  · rfl
  · rename_i hguard
    generalize received - sent - deltaNs remoteSent remoteReceived = delay at hguard ⊢
    have hrtt : 0 ≤ (if delay > 0 then delay else 0) ∧
        (if delay > 0 then delay else 0) ≤ 500000000 := by
      split <;> omega
    have hhalf := Int.tdiv_eq_ediv_of_nonneg (b := 2) hrtt.1
    rw [sub_eq (fits64 (by omega) (by omega)), Option.bind_some]

/-- The times of a sample are those of an answer. -/
def Sample.Timely (s : Sample) : Prop :=
  NtpClock.Timely s.observed ∧ -2 ^ 62 ≤ s.localNs ∧ s.localNs ≤ 2 ^ 62

theorem bestChecked_eq {now : Int} (hnow : Timely now) {samples : List Sample}
    (h : ∀ s ∈ samples, Sample.Timely s) : bestChecked now samples = some (best now samples) := by
  unfold bestChecked best
  generalize (none : Option Sample) = b
  induction samples generalizing b with
  | nil => rfl
  | cons s samples ih =>
    obtain ⟨hs, hsamples⟩ := List.forall_mem_cons.mp h
    obtain ⟨⟨hlo, hhi⟩, -⟩ := hs
    obtain ⟨hnlo, hnhi⟩ := hnow
    rw [List.foldlM_cons, List.foldl_cons, ← ih hsamples]
    by_cases hskip : (!s.valid || now < s.observed) = true
    · rw [if_pos hskip, if_pos (by rw [hskip, Bool.true_or])]
      rfl
    · have hage : sub 64 now s.observed = some (now - s.observed) :=
        sub_eq (fits64 (by omega) (by omega))
      rw [if_neg hskip, hage, Option.map_some, Bool.eq_false_of_not_eq_true hskip, Bool.false_or]
      simp only [decide_eq_true_eq]
      rfl

theorem localTimeChecked_eq {now : Int} (hnow : Timely now) {clock : NtpClock}
    (h : ∀ s ∈ clock.slots.toList, Sample.Timely s) (remote : BitVec 64) :
    localTimeChecked remote now clock = some (localTime remote now clock) := by
  simp only [localTimeChecked, localTime, Option.bind_eq_bind]
  rw [bestChecked_eq hnow h, Option.bind_some]
  cases hbest : best now clock.slots.toList with
  | none => rfl
  | some s =>
    have hmem : s ∈ clock.slots.toList := by
      rw [best_eq] at hbest
      exact List.mem_of_mem_filter (List.argmin_mem hbest)
    obtain ⟨-, hlo, hhi⟩ := h s hmem
    dsimp only
    rw [deltaNsChecked_eq, Option.bind_some]
    split
    · rfl
    · rename_i hnear
      rw [add_eq (fits64 (by omega) (by omega)), Option.map_some]

/-! ### Every run -/

/-- The calls of a clock. -/
inductive Call
  | observe (sent received : Int) (remoteReceived remoteSent : BitVec 64)
  | localTime (remote : BitVec 64) (now : Int)

def Call.Timely : Call → Prop
  | .observe sent received _ _ => NtpClock.Timely sent ∧ NtpClock.Timely received
  | .localTime _ now => NtpClock.Timely now

/-- A call is computed without an overflow. -/
def Call.Defined (clock : NtpClock) : Call → Prop
  | .observe sent received remoteReceived remoteSent =>
    observeChecked sent received remoteReceived remoteSent clock =
      some (NtpClock.observe sent received remoteReceived remoteSent clock)
  | .localTime remote now =>
    localTimeChecked remote now clock = some (NtpClock.localTime remote now clock)

def machine : Machine NtpClock Call where
  step clock
    | .observe sent received remoteReceived remoteSent =>
      (observe sent received remoteReceived remoteSent clock).1
    | .localTime _ _ => clock

theorem observe_timely {sent received : Int} (hreceived : Timely received)
    (remoteReceived remoteSent : BitVec 64) {clock : NtpClock}
    (h : ∀ s ∈ clock.slots.toList, Sample.Timely s) :
    ∀ s ∈ (observe sent received remoteReceived remoteSent clock).1.slots.toList,
      Sample.Timely s := by
  rw [observe_eq]
  cases htaken : taken sent received remoteReceived remoteSent with
  | none => exact h
  | some sample =>
    have hspec := taken_spec htaken
    obtain ⟨hlo, hhi⟩ := hreceived
    have hle := hspec.rtt_le
    have hrtt : 0 ≤ sample.rtt := hspec.rtt_eq ▸ le_max_right _ _
    have hlocal := hspec.localNs_eq
    intro s hs
    rcases RingBuffer.mem_push (Vector.mem_toList_iff.mp hs) with hs | rfl
    · exact h s (Vector.mem_toList_iff.mpr hs)
    · refine ⟨?_, by omega, by omega⟩
      rw [hspec.observed]
      exact ⟨hlo, hhi⟩

theorem fresh_timely : ∀ s ∈ fresh.slots.toList, Sample.Timely s := by
  intro s hs
  have hdefault : s = {} := List.eq_of_mem_replicate (Vector.toList_replicate ▸ hs)
  rw [hdefault]
  exact ⟨⟨le_rfl, by decide⟩, by decide, by decide⟩

/-- Differences of stamps never overflow and are exact but where the seconds are half their
range apart; so nothing a clock computes overflows for local times up to 2 ^ 62 ns. -/
theorem stamps_exact :
    (∀ a b : BitVec 64, deltaNsChecked a b = some (deltaNs a b)) ∧
      (∀ a b : BitVec 64, seconds a b ≠ 2 ^ 31 →
        |deltaNs a b * 2 ^ 32 - (a - b).toInt * 10 ^ 9| < 2 ^ 32 ∧
          deltaNs b a = -deltaNs a b) ∧
      (∀ a a' b : BitVec 64, seconds a b ≠ 2 ^ 31 → seconds a' b ≠ 2 ^ 31 →
        (a - b).toInt ≤ (a' - b).toInt → deltaNs a b ≤ deltaNs a' b) ∧
      ∀ calls : List Call, (∀ call ∈ calls, call.Timely) →
        machine.Meets (fun clock call => call.Defined clock) fresh calls := by
  refine ⟨deltaNsChecked_eq, fun a b h => ⟨deltaNs_near h, deltaNs_swap h⟩,
    fun a a' b => deltaNs_mono, fun calls htimely => ?_⟩
  refine @Machine.Meets.under NtpClock Call machine
    (fun clock => ∀ s ∈ clock.slots.toList, Sample.Timely s) _ _ ?_ ?_ fresh calls fresh_timely
    (Machine.meets_forall.mpr htimely)
  · intro clock call hclock hcall
    cases call with
    | observe sent received remoteReceived remoteSent =>
      exact observe_timely hcall.2 remoteReceived remoteSent hclock
    | localTime remote now => exact hclock
  · intro clock call hclock hcall
    cases call with
    | observe sent received remoteReceived remoteSent =>
      exact observeChecked_eq hcall.1 hcall.2 remoteReceived remoteSent clock
    | localTime remote now => exact localTimeChecked_eq hcall hclock remote

end NtpClock

end AirPlay.Clock
