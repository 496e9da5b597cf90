import Mathlib.Data.Int.ModEq
import AirPlay.Mirror.Sps

/-! What the parser reads of a sequence parameter set.

`Syntax` is the syntax of the standard, read from a bit string: it has a value, or the
string has ended, or it has come to a number that 32 bits do not hold. The code reads as
the syntax says, sets its flag where the string ends, and is not defined where a number is
too large (`Reads`). So its arithmetic is defined, its loops end within the string and its
codes are exact wherever the syntax comes to no such number (`sound_iff_moderate`). -/
namespace AirPlay.Mirror

/-! ### The syntax -/

/-- Why the syntax cannot be read on: the bits have ended, or a code has too many zeros. -/
inductive Stop
  | ended | excess
  deriving DecidableEq

abbrev Syntax := StateT (List Bool) (Except Stop)

namespace Syntax

def bit : Syntax Bool
  | [] => .error .ended
  | b :: rest => .ok (b, rest)

/-- A code begins with 32 zeros, and 33 bits are behind them: the number is at least
2^32 - 1. -/
def Excessive (bits : List Bool) : Prop := 32 ≤ Bits.zeros bits ∧ 65 ≤ bits.length

instance (bits : List Bool) : Decidable (Excessive bits) := inferInstanceAs (Decidable (_ ∧ _))

def code : Syntax Nat := fun bits =>
  if Excessive bits then .error .excess
  else match Bits.decode bits with
    | none => .error .ended
    | some p => .ok p

def signedCode : Syntax Int := do return Bits.signed (← code)

/-- The sum of a scale, its difference to the next one and 256 may be no `int`. -/
def nextScale (last : Int) : Syntax Int := do
  let delta ← signedCode
  if Checked.Fits 32 (last + delta) ∧ Checked.Fits 32 (last + delta + 256) then
    return (last + delta + 256).tmod 256
  else throw .excess

def scalingList : Nat → Int → Int → Syntax Unit
  | 0, _, _ => pure ()
  | left + 1, last, next => do
    let next ← (if next ≠ 0 then nextScale last else pure next)
    scalingList left (if next ≠ 0 then next else last) next

def scalingLists : Nat → Nat → Syntax Unit
  | 0, _ => pure ()
  | left + 1, i => do
    let present ← bit
    (if present then scalingList (if i < 6 then 16 else 64) 8 8 else pure ())
    scalingLists left (i + 1)

def chromaExt : Syntax Unit := do
  let chromaFormatIdc ← code
  let _ ← (if chromaFormatIdc = 3 then bit else pure false)
  let _ ← code
  let _ ← code
  let _ ← bit
  let present ← bit
  (if present then scalingLists (if chromaFormatIdc ≠ 3 then 8 else 12) 0 else pure ())

def offsets : Nat → Syntax Unit
  | 0 => pure ()
  | left + 1 => do
    let _ ← signedCode
    offsets left

def picOrderCnt : Syntax Unit := do
  let picOrderCntType ← code
  (if picOrderCntType = 0 then do
    let _ ← code
    pure ()
  else if picOrderCntType = 1 then do
    let _ ← bit
    let _ ← signedCode
    let _ ← signedCode
    let n ← code
    offsets n
  else pure ())

def cropping (fields : Fields) : Syntax Fields := do
  let cropLeft ← code
  let cropRight ← code
  let cropTop ← code
  let cropBottom ← code
  return {fields with cropLeft, cropRight, cropTop, cropBottom}

def fields (hasChromaExt : Bool) : Syntax Fields := do
  let _ ← code
  (if hasChromaExt then chromaExt else pure ())
  let _ ← code
  picOrderCnt
  let _ ← code
  let _ ← bit
  let picWidthInMbsMinus1 ← code
  let picHeightInMapUnitsMinus1 ← code
  let frameMbsOnlyFlag ← bit
  let _ ← (if !frameMbsOnlyFlag then bit else pure false)
  let _ ← bit
  let frameCroppingFlag ← bit
  let fields :=
    {picWidthInMbsMinus1, picHeightInMapUnitsMinus1, frameMbsOnlyFlag, frameCroppingFlag}
  (if frameCroppingFlag then cropping fields else pure fields)

end Syntax

/-- `ue` has returned the number that the code at the front stands for, or has set the
flag where there is no whole code or its number is above 2^32 - 2. -/
def Call.Exact (c : Call) : Prop :=
  match Bits.decode c.bits with
  | none => c.error = true
  | some (n, _) => if n ≤ 2 ^ 32 - 2 then c.value = n ∧ c.error = false else c.error = true

/-! ### Reading bits -/

namespace BitReader

def advance (n : Nat) (r : BitReader) : BitReader := {r with pos := r.pos + n}

def flagged (r : BitReader) : BitReader := {r with error := true}

theorem rest_advance (n : Nat) (r : BitReader) : (r.advance n).rest = r.rest.drop n := by
  rw [rest, rest, List.drop_drop]
  rfl

theorem advance_advance (m n : Nat) (r : BitReader) :
    (r.advance m).advance n = r.advance (m + n) := by
  rw [advance, advance, advance, Nat.add_assoc]

/-- The flag is set at the end only. -/
def Sane (r : BitReader) : Prop := r.error = true → r.rest = []

theorem Sane.advance {r : BitReader} (h : r.Sane) (n : Nat) : (r.advance n).Sane := by
  intro herror
  rw [rest_advance, h herror, List.drop_nil]

theorem Sane.error_eq {r : BitReader} (h : r.Sane) {b : Bool} {t : List Bool}
    (hrest : r.rest = b :: t) : r.error = false := by
  by_contra herror
  exact List.cons_ne_nil b t (hrest.symm.trans (h (Bool.not_eq_false _ ▸ herror)))

end BitReader

section Bits
variable {r : BitReader}

theorem u1_nil (h : r.rest = []) : u1 r = some (false, r.flagged) := by
  have hle := List.drop_eq_nil_iff.mp h
  rw [Bits.ofBytes_length] at hle
  rw [u1, if_pos (by omega)]
  rfl

theorem u1_cons {b : Bool} {t : List Bool} (h : r.rest = b :: t) :
    u1 r = some (b, r.advance 1) := by
  have hbit : (Bits.ofBytes r.buf)[r.pos]? = some b := by
    rw [← List.head?_drop, ← BitReader.rest, h]
    rfl
  have hlt : r.pos < 8 * r.buf.length := by
    rw [← Bits.ofBytes_length]
    exact (List.getElem?_eq_some_iff.mp hbit).1
  rw [Bits.ofBytes_getElem _ _ hlt] at hbit
  rw [u1, if_neg (by omega), ← Option.some.inj hbit, Nat.testBit_eq_decide_div_mod_eq,
    ← Nat.shiftRight_eq_div_pow]
  rfl

/-- The zeros up to a one, or to as many as the loop counts. -/
theorem zerosLoop_eq (left zeros : Nat) (h : r.Sane) :
    zerosLoop left zeros r =
      if min (Bits.zeros r.rest) left < r.rest.length then
        some (zeros + min (Bits.zeros r.rest) left,
          r.advance (min (Bits.zeros r.rest) left + 1))
      else some (zeros + min (Bits.zeros r.rest) left, (r.advance r.rest.length).flagged) := by
  induction left generalizing zeros r with
  | zero =>
    rw [Nat.min_zero]
    cases hrest : r.rest with
    | nil =>
      show (u1 r).bind _ = _
      rw [u1_nil hrest]
      rfl
    | cons b t =>
      show (u1 r).bind _ = _
      rw [u1_cons hrest]
      rfl
  | succ left ih =>
    cases hrest : r.rest with
    | nil =>
      show (u1 r).bind _ = _
      rw [u1_nil hrest]
      rfl
    | cons b t =>
      show (u1 r).bind _ = _
      rw [u1_cons hrest]
      cases b with
      | true => rfl
      | false =>
        have hnext : (r.advance 1).rest = t := by
          rw [BitReader.rest_advance, hrest]
          rfl
        have hloop := ih (zeros + 1) (h.advance 1)
        have hzeros : min (Bits.zeros (false :: t)) (left + 1) = min (Bits.zeros t) left + 1 :=
          Nat.succ_min_succ _ _
        rw [hnext] at hloop
        have herror : (r.advance 1).error = false := h.error_eq hrest
        show (if (false || (r.advance 1).error) = true then _ else _ : Reading Nat) _ = _
        rw [herror, if_neg (by decide), hloop, hzeros, List.length_cons,
          BitReader.advance_advance, BitReader.advance_advance]
        simp only [Nat.add_lt_add_iff_right, Nat.add_assoc, Nat.add_comm 1]

/-- The bits of a number, or 0 where they end. -/
theorem uLoop_eq (left v : Nat) (h : r.Sane) :
    uLoop left v r =
      if left ≤ r.rest.length then
        some ((r.rest.take left).foldl (fun v b => (2 * v + b.toNat) % 2 ^ 32) v, r.advance left)
      else some (0, (r.advance r.rest.length).flagged) := by
  induction left generalizing v r with
  | zero => rfl
  | succ left ih =>
    cases hrest : r.rest with
    | nil =>
      show (u1 r).bind _ = _
      rw [u1_nil hrest]
      rfl
    | cons b t =>
      have hnext : (r.advance 1).rest = t := by
        rw [BitReader.rest_advance, hrest]
        rfl
      have hloop := ih ((2 * v + b.toNat) % 2 ^ 32) (h.advance 1)
      rw [hnext] at hloop
      have herror : (r.advance 1).error = false := h.error_eq hrest
      show (u1 r).bind _ = _
      rw [u1_cons hrest]
      show (if (r.advance 1).error = true then _ else _ : Reading Nat) _ = _
      rw [herror, if_neg Bool.false_ne_true, hloop, List.length_cons, BitReader.advance_advance,
        BitReader.advance_advance, Nat.add_comm 1, Nat.add_comm 1, List.take_succ_cons,
        List.foldl_cons]
      simp only [Nat.add_le_add_iff_right]

/-- Up to 32 bits nothing is lost. -/
theorem foldl_mod (bits : List Bool) (v : Nat) (h : v < 2 ^ 32) :
    bits.foldl (fun v b => (2 * v + b.toNat) % 2 ^ 32) v =
      (v * 2 ^ bits.length + Bits.natural bits) % 2 ^ 32 := by
  induction bits generalizing v with
  | nil =>
    rw [List.length_nil, pow_zero, mul_one]
    exact (Nat.mod_eq_of_lt h).symm
  | cons b bits ih =>
    rw [List.foldl_cons, ih _ (Nat.mod_lt _ (by decide)), Bits.natural_cons, List.length_cons,
      pow_succ 2 bits.length]
    have hsame : v * (2 ^ bits.length * 2) + (b.toNat * 2 ^ bits.length + Bits.natural bits) =
        (2 * v + b.toNat) * 2 ^ bits.length + Bits.natural bits := by ring
    rw [hsame]
    exact ((Nat.mod_modEq _ _).mul_right _).add_right _

theorem u_eq (n : Nat) (hn : n ≤ 32) (h : r.Sane) :
    u n r =
      if n ≤ r.rest.length then some (Bits.natural (r.rest.take n), r.advance n)
      else some (0, (r.advance r.rest.length).flagged) := by
  rw [u, uLoop_eq n 0 h, foldl_mod _ _ (by decide), Nat.zero_mul, Nat.zero_add, Nat.mod_eq_of_lt]
  exact (Bits.natural_take_lt _ n).trans_le (Nat.pow_le_pow_right (by decide) hn)

/-- A code whose end is there is read, where the shift is defined. -/
theorem ueValue_eq (h : r.Sane) :
    ueValue r =
      let z := min (Bits.zeros r.rest) 32
      if r.rest.length < 2 * z + 1 then some (0, (r.advance r.rest.length).flagged)
      else if z = 32 then none
      else some (2 ^ z - 1 + Bits.natural ((r.rest.drop (z + 1)).take z),
        r.advance (2 * z + 1)) := by
  have hloop := zerosLoop_eq 32 0 h
  have hz : min (Bits.zeros r.rest) 32 ≤ 32 := Nat.min_le_right _ _
  generalize min (Bits.zeros r.rest) 32 = z at hloop hz ⊢
  dsimp only
  rw [Nat.zero_add] at hloop
  show (zerosLoop 32 0 r).bind _ = _
  rw [hloop]
  by_cases hfound : z < r.rest.length
  · have hrest : (r.advance (z + 1)).rest = r.rest.drop (z + 1) := r.rest_advance (z + 1)
    have herror : (r.advance (z + 1)).error = false := by
      obtain ⟨b, t, hcons⟩ := List.exists_cons_of_length_pos (Nat.zero_lt_of_lt hfound)
      exact h.error_eq hcons
    rw [if_pos hfound]
    show (if (r.advance (z + 1)).error = true then _ else _ : Reading Nat) _ = _
    rw [herror, if_neg Bool.false_ne_true]
    by_cases hzero : z = 0
    · subst hzero
      rw [if_pos rfl, if_neg (by omega), if_neg (by decide), List.take_zero]
      rfl
    · rw [if_neg hzero]
      show (u z (r.advance (z + 1))).bind _ = _
      rw [u_eq z hz (h.advance (z + 1)), hrest, List.length_drop]
      by_cases hbits : z ≤ r.rest.length - (z + 1)
      · have hmore : ((r.advance (z + 1)).advance z).error = false := herror
        rw [if_pos hbits, if_neg (by omega)]
        show (if ((r.advance (z + 1)).advance z).error = true then _ else _ : Reading Nat) _ = _
        rw [hmore, if_neg Bool.false_ne_true, BitReader.advance_advance]
        have htwice : z + 1 + z = 2 * z + 1 := by omega
        by_cases hshift : z = 32
        · subst hshift
          rfl
        · have hsmall : Bits.natural ((r.rest.drop (z + 1)).take z) < 2 ^ z :=
            Bits.natural_take_lt _ z
          have hsum : 2 ^ z - 1 + Bits.natural ((r.rest.drop (z + 1)).take z) < 2 ^ 32 := by
            have hpow : 2 ^ z ≤ 2 ^ 31 := Nat.pow_le_pow_right (by decide) (by omega)
            omega
          rw [if_neg hshift, htwice]
          show ((Checked.shl 32 1 z).bind fun power => some _).bind _ = _
          rw [Checked.shl_one (by omega)]
          exact congrArg (fun v => some (v, r.advance (2 * z + 1))) (Nat.mod_eq_of_lt hsum)
      · rw [if_neg hbits, if_pos (by omega)]
        have hend : z + 1 + (r.rest.length - (z + 1)) = r.rest.length := by omega
        rw [BitReader.advance_advance, hend]
        rfl
  · rw [if_neg hfound, if_pos (by omega)]
    rfl

end Bits

/-! ### Reading codes -/

/-- A reader of `buf`, at its end if the flag is set. Each call has taken a bit. -/
structure Ok (buf : Bytes) (r : BitReader) : Prop where
  same : r.buf = buf
  pos : r.pos ≤ 8 * buf.length
  sane : r.Sane
  calls : r.error = false → r.calls.length ≤ r.pos
  exact : ∀ c ∈ r.calls, c.Exact

section Codes
variable {buf : Bytes} {r : BitReader}

theorem Ok.rest_length (h : Ok buf r) : r.pos + r.rest.length = 8 * buf.length := by
  rw [BitReader.rest, List.length_drop, Bits.ofBytes_length, h.same]
  exact Nat.add_sub_of_le h.pos

theorem Ok.advance (h : Ok buf r) {k : Nat} (hk : k ≤ r.rest.length) : Ok buf (r.advance k) where
  same := h.same
  pos := by
    have hlength := h.rest_length
    show r.pos + k ≤ _
    omega
  sane := h.sane.advance k
  calls := fun herror => (h.calls herror).trans (Nat.le_add_right _ _)
  exact := h.exact

theorem Ok.flagged (h : Ok buf r) : Ok buf (r.advance r.rest.length).flagged :=
  {h.advance le_rfl with
    sane := fun _ => (r.rest_advance r.rest.length).trans List.drop_length
    calls := fun herror => absurd herror.symm Bool.false_ne_true}

/-- What `ue` adds to the log. -/
theorem Ok.log {r' : BitReader} (h' : Ok buf r') {c : Call} (hexact : c.Exact)
    (hcalls : r'.error = false → r'.calls.length < r'.pos) :
    Ok buf {r' with calls := r'.calls ++ [c]} where
  same := h'.same
  pos := h'.pos
  sane := h'.sane
  calls := fun herror => by
    rw [List.length_append]
    exact hcalls herror
  exact := List.forall_mem_append.mpr ⟨h'.exact, List.forall_mem_singleton.mpr hexact⟩

theorem Syntax.code_ok {bits rest : List Bool} {n : Nat} (h : Syntax.code bits = .ok (n, rest)) :
    Bits.decode bits = some (n, rest) ∧ Bits.zeros bits < 32 ∧
      ¬ bits.length < 2 * Bits.zeros bits + 1 ∧ n ≤ 2 ^ 32 - 2 := by
  rw [Syntax.code] at h
  split at h
  · cases h
  rename_i hsmall
  cases hdecode : Bits.decode bits with
  | none =>
    rw [hdecode] at h
    cases h
  | some p =>
    rw [hdecode] at h
    cases h
    have hlong : ¬ bits.length < 2 * Bits.zeros bits + 1 := by
      intro hshort
      rw [Bits.decode, if_pos hshort] at hdecode
      cases hdecode
    have hzeros : Bits.zeros bits < 32 := by
      rw [Syntax.Excessive] at hsmall
      omega
    refine ⟨rfl, hzeros, hlong, ?_⟩
    rw [Bits.decode, if_neg hlong, Option.some.injEq, Prod.mk.injEq] at hdecode
    have hnatural := Bits.natural_take_lt (bits.drop (Bits.zeros bits + 1)) (Bits.zeros bits)
    have hmax : 2 ^ Bits.zeros bits ≤ 2 ^ 31 := Nat.pow_le_pow_right (by decide) (by omega)
    omega

theorem Syntax.code_ended {bits : List Bool} (h : Syntax.code bits = .error .ended) :
    Bits.decode bits = none ∧ bits.length < 2 * min (Bits.zeros bits) 32 + 1 := by
  rw [Syntax.code] at h
  split at h
  · cases h
  rename_i hsmall
  cases hdecode : Bits.decode bits with
  | some p =>
    rw [hdecode] at h
    cases h
  | none =>
    refine ⟨rfl, ?_⟩
    rw [Bits.decode] at hdecode
    split at hdecode
    · rw [Syntax.Excessive] at hsmall
      omega
    · cases hdecode

theorem Syntax.code_excess {bits : List Bool} (h : Syntax.code bits = .error .excess) :
    Syntax.Excessive bits := by
  rw [Syntax.code] at h
  split at h
  · assumption
  · split at h <;> cases h

/-- A code is read, and its number is below the limit. -/
theorem Ok.ue_ok (h : Ok buf r) {n : Nat} {rest : List Bool}
    (hcode : Syntax.code r.rest = .ok (n, rest)) (herror : r.error = false) :
    ∃ r', ue r = some (n, r') ∧ Ok buf r' ∧ r'.error = false ∧ r'.rest = rest := by
  obtain ⟨hdecode, hzeros, hlong, hsmall⟩ := Syntax.code_ok hcode
  have hvalue := ueValue_eq h.sane
  dsimp only at hvalue
  rw [Nat.min_eq_left hzeros.le, if_neg hlong, if_neg hzeros.ne] at hvalue
  have hsame := hdecode
  rw [Bits.decode, if_neg hlong, Option.some.injEq, Prod.mk.injEq] at hsame
  obtain ⟨hn, hrest⟩ := hsame
  rw [hn] at hvalue
  have hexact : Call.Exact ⟨r.rest, n, r.error⟩ := by
    rw [Call.Exact, hdecode]
    dsimp only
    rw [if_pos hsmall]
    exact ⟨rfl, herror⟩
  have hcalls := h.calls herror
  refine ⟨_, by rw [ue, hvalue]; rfl, (h.advance (not_lt.mp hlong)).log hexact fun _ => ?_,
    herror, ?_⟩
  · show r.calls.length < r.pos + (2 * Bits.zeros r.rest + 1)
    omega
  · exact (r.rest_advance _).trans hrest

/-- A code that has no end is none, and the flag says so. -/
theorem Ok.ue_ended (h : Ok buf r) (hcode : Syntax.code r.rest = .error .ended) :
    ∃ r', ue r = some (0, r') ∧ Ok buf r' ∧ r'.error = true := by
  obtain ⟨hdecode, hshort⟩ := Syntax.code_ended hcode
  have hvalue := ueValue_eq h.sane
  dsimp only at hvalue
  rw [if_pos hshort] at hvalue
  have hexact : Call.Exact ⟨r.rest, 0, true⟩ := by
    rw [Call.Exact, hdecode]
  refine ⟨_, by rw [ue, hvalue]; rfl, h.flagged.log hexact fun herror => ?_, rfl⟩
  exact absurd herror.symm Bool.false_ne_true

theorem Ok.ue_excess (h : Ok buf r) (hcode : Syntax.code r.rest = .error .excess) :
    ue r = none := by
  obtain ⟨hzeros, hlong⟩ := Syntax.code_excess hcode
  have hvalue := ueValue_eq h.sane
  dsimp only at hvalue
  rw [Nat.min_eq_right hzeros, if_neg (by omega), if_pos rfl] at hvalue
  rw [ue, hvalue]
  rfl

/-- With the flag set there is nothing to read. -/
theorem Ok.code_error (h : Ok buf r) (herror : r.error = true) :
    Syntax.code r.rest = .error .ended := by
  rw [h.sane herror]
  rfl

end Codes

/-! ### Reading as the syntax says -/

/-- Behind it the flag is set. -/
def Failed {α : Type} (buf : Bytes) (o : Option (α × BitReader)) : Prop :=
  ∃ a r, o = some (a, r) ∧ Ok buf r ∧ r.error = true

/-- How a run of the code ends where the syntax has a value, the bits end, or it comes to an
excess. -/
def Follows {α : Type} (buf : Bytes) (o : Option (α × BitReader)) :
    Except Stop (α × List Bool) → Prop
  | .ok (a, rest) => ∃ r, o = some (a, r) ∧ Ok buf r ∧ r.error = false ∧ r.rest = rest
  | .error .ended => Failed buf o
  | .error .excess => o = none

/-- The code takes what the syntax takes, sets the flag where the bits end, and is not
defined where the syntax comes to an excess; with the flag set it goes on. -/
structure Reads {α : Type} (x : Reading α) (y : Syntax α) : Prop where
  follows : ∀ {buf r}, Ok buf r → r.error = false → Follows buf (x r) (y r.rest)
  failed : ∀ {buf r}, Ok buf r → r.error = true → Failed buf (x r)

namespace Reads
variable {α β : Type} {x : Reading α} {y : Syntax α}

theorem run_bind {f : α → Reading β} {r r' : BitReader} {a : α} (h : x r = some (a, r')) :
    (x >>= f) r = f a r' := by
  show (x r).bind _ = _
  rw [h]
  rfl

theorem run_bind_none {f : α → Reading β} {r : BitReader} (h : x r = none) :
    (x >>= f) r = none := by
  show (x r).bind _ = _
  rw [h]
  rfl

theorem bind_ok {g : α → Syntax β} {bits rest : List Bool} {a : α} (h : y bits = .ok (a, rest)) :
    (y >>= g) bits = g a rest := by
  show (y bits).bind _ = _
  rw [h]
  rfl

theorem bind_error {g : α → Syntax β} {bits : List Bool} {stop : Stop} (h : y bits = .error stop) :
    (y >>= g) bits = .error stop := by
  show (y bits).bind _ = _
  rw [h]
  rfl

/-- What the syntax has a value for is read. -/
theorem ok (hx : Reads x y) {buf : Bytes} {r : BitReader} {a : α} {rest : List Bool}
    (hr : Ok buf r) (herror : r.error = false) (h : y r.rest = .ok (a, rest)) :
    ∃ r', x r = some (a, r') ∧ Ok buf r' ∧ r'.error = false ∧ r'.rest = rest := by
  have hfollows := hx.follows hr herror
  rwa [h] at hfollows

theorem pure (a : α) : Reads (Pure.pure a) (Pure.pure a) where
  follows := fun {_ r} hr herror => ⟨r, rfl, hr, herror, rfl⟩
  failed := fun {_ r} hr herror => ⟨a, r, rfl, hr, herror⟩

/-- One reads after the other; the second for the values only that the first can return. -/
theorem bind {f : α → Reading β} {g : α → Syntax β} (hx : Reads x y)
    (hf : ∀ a, (∃ r r', x r = some (a, r')) → Reads (f a) (g a)) : Reads (x >>= f) (y >>= g) := by
  -- where the first fails the second starts with the flag set
  have hfailed : ∀ {buf r}, Failed buf (x r) → Failed buf ((x >>= f) r) := by
    rintro buf r ⟨a, r', hrun, hr', herror⟩
    rw [run_bind hrun]
    exact (hf a ⟨r, r', hrun⟩).failed hr' herror
  refine ⟨fun {_ r} hr herror => ?_, fun hr herror => hfailed (hx.failed hr herror)⟩
  have hfollows := hx.follows hr herror
  cases hy : y r.rest with
  | ok p =>
    rw [hy] at hfollows
    obtain ⟨r', hrun, hr', herror', hrest⟩ := hfollows
    rw [bind_ok hy, run_bind hrun, ← hrest]
    exact (hf p.1 ⟨r, r', hrun⟩).follows hr' herror'
  | error stop =>
    rw [hy] at hfollows
    rw [bind_error hy]
    cases stop with
    | ended => exact hfailed hfollows
    | excess => exact run_bind_none hfollows

theorem seq {f : α → Reading β} {g : α → Syntax β} (hx : Reads x y)
    (hf : ∀ a, Reads (f a) (g a)) : Reads (x >>= f) (y >>= g) := hx.bind fun a _ => hf a

/-- The loops of the code look at the flag first. -/
theorem guarded (d : α) (hx : Reads x y) :
    Reads (do if ← AirPlay.Mirror.failed then return d else x) y := by
  have hrun : ∀ r : BitReader, (do if ← AirPlay.Mirror.failed then return d else x : Reading α) r =
      if r.error = true then some (d, r) else x r := by
    intro r
    show (if r.error = true then _ else _ : Reading α) r = _
    split <;> rfl
  refine ⟨fun {_ r} hr herror => ?_, fun {_ r} hr herror => ?_⟩
  · rw [hrun, herror, if_neg Bool.false_ne_true]
    exact hx.follows hr herror
  · rw [hrun, if_pos herror]
    exact ⟨d, r, rfl, hr, herror⟩

theorem ite {c : Prop} [Decidable c] {x' : Reading α} {y' : Syntax α} (hx : Reads x y)
    (hx' : Reads x' y') : Reads (if c then x else x') (if c then y else y') := by
  split
  · exact hx
  · exact hx'

/-! #### The primitives -/

theorem u1_failed {buf : Bytes} {r : BitReader} (hr : Ok buf r) (hrest : r.rest = []) :
    Failed buf (AirPlay.Mirror.u1 r) := by
  have hflagged := hr.flagged
  rw [hrest] at hflagged
  exact ⟨false, _, u1_nil hrest, hflagged, rfl⟩

theorem u1 : Reads AirPlay.Mirror.u1 Syntax.bit where
  follows := fun {_ r} hr herror => by
    cases hrest : r.rest with
    | nil => exact u1_failed hr hrest
    | cons b t =>
      have hle : 1 ≤ r.rest.length := by
        rw [hrest]
        exact Nat.le_add_left 1 _
      refine ⟨r.advance 1, u1_cons hrest, hr.advance hle, herror, ?_⟩
      rw [BitReader.rest_advance, hrest]
      rfl
  failed := fun hr herror => u1_failed hr (hr.sane herror)

theorem ue : Reads AirPlay.Mirror.ue Syntax.code where
  follows := fun {_ r} hr herror => by
    cases hcode : Syntax.code r.rest with
    | ok p => exact hr.ue_ok hcode herror
    | error stop =>
      cases stop with
      | ended => exact ⟨0, hr.ue_ended hcode⟩
      | excess => exact hr.ue_excess hcode
  failed := fun hr herror => ⟨0, hr.ue_ended (hr.code_error herror)⟩

/-- A signed code whose number was read. -/
theorem se_of_ue {r r' : BitReader} {k : Nat} (h : AirPlay.Mirror.ue r = some (k, r'))
    (herror : r'.error = false) (hk : k ≤ 2 ^ 32 - 2) :
    AirPlay.Mirror.se r = some (Bits.signed k, r') := by
  rw [AirPlay.Mirror.se, run_bind h]
  show (if r'.error = true then _ else _ : Reading Int) r' = _
  rw [herror, if_neg Bool.false_ne_true, Bits.signed]
  have hmod : (k + 1) % 2 ^ 32 = k + 1 := Nat.mod_eq_of_lt (by omega)
  split
  · rename_i hzero
    rw [hzero]
    rfl
  · split
    · rw [hmod]
      rfl
    · have hfits : Checked.Fits 32 (0 - ((k / 2 : Nat) : Int)) := by
        rw [Checked.Fits]
        omega
      show (Checked.sub 32 0 ((k / 2 : Nat) : Int)).bind _ = _
      rw [Checked.sub_eq hfits, zero_sub]
      rfl

/-- A signed code that was cut off is 0. -/
theorem se_failed {buf : Bytes} {r : BitReader} (hr : Ok buf r)
    (h : Syntax.code r.rest = .error .ended) :
    ∃ r', AirPlay.Mirror.se r = some (0, r') ∧ Ok buf r' ∧ r'.error = true := by
  obtain ⟨r', hue, hr', herror⟩ := hr.ue_ended h
  refine ⟨r', ?_, hr', herror⟩
  rw [AirPlay.Mirror.se, run_bind hue]
  show (if r'.error = true then _ else _ : Reading Int) r' = _
  rw [herror]
  rfl

theorem se : Reads AirPlay.Mirror.se Syntax.signedCode where
  follows := fun {_ r} hr herror => by
    cases hcode : Syntax.code r.rest with
    | ok p =>
      obtain ⟨r', hue, hr', herror', hrest⟩ := hr.ue_ok hcode herror
      rw [Syntax.signedCode, bind_ok hcode]
      exact ⟨r', se_of_ue hue herror' (Syntax.code_ok hcode).2.2.2, hr', herror', hrest⟩
    | error stop =>
      rw [Syntax.signedCode, bind_error hcode]
      cases stop with
      | ended => exact ⟨0, se_failed hr hcode⟩
      | excess => exact run_bind_none (hr.ue_excess hcode)
  failed := fun hr herror => ⟨0, se_failed hr (hr.code_error herror)⟩

theorem signedCode_ended {bits : List Bool} (h : Syntax.signedCode bits = .error .ended) :
    Syntax.code bits = .error .ended := by
  cases hcode : Syntax.code bits with
  | error stop =>
    rw [Syntax.signedCode, bind_error hcode] at h
    rw [Except.error.inj h]
  | ok p =>
    rw [Syntax.signedCode, bind_ok hcode] at h
    cases h

/-! #### Scaling lists -/

theorem nextScale_of_se {last delta : Int} {r r' : BitReader}
    (h : AirPlay.Mirror.se r = some (delta, r')) :
    AirPlay.Mirror.nextScale last r =
      if Checked.Fits 32 (last + delta) ∧ Checked.Fits 32 (last + delta + 256) then
        some ((last + delta + 256).tmod 256, r')
      else none := by
  rw [AirPlay.Mirror.nextScale, run_bind h]
  show ((Checked.add 32 last delta).bind fun sum => some (sum, r')).bind _ = _
  by_cases hfirst : Checked.Fits 32 (last + delta)
  · rw [Checked.add_eq hfirst]
    show ((Checked.add 32 (last + delta) 256).bind fun sum => some (sum, r')).bind _ = _
    by_cases hsecond : Checked.Fits 32 (last + delta + 256)
    · rw [Checked.add_eq hsecond, if_pos ⟨hfirst, hsecond⟩]
      rfl
    · rw [Checked.add_eq_none_iff.mpr hsecond, if_neg fun h => hsecond h.2]
      rfl
  · rw [Checked.add_eq_none_iff.mpr hfirst, if_neg fun h => hfirst h.1]
    rfl

/-- The sign of a remainder is free, its size is below the divisor. -/
theorem nextScale_lt {last next : Int} {r r' : BitReader}
    (h : AirPlay.Mirror.nextScale last r = some (next, r')) : -256 < next ∧ next < 256 := by
  cases hse : AirPlay.Mirror.se r with
  | none =>
    rw [AirPlay.Mirror.nextScale, run_bind_none hse] at h
    cases h
  | some p =>
    rw [nextScale_of_se hse] at h
    split at h
    · cases h
      exact ⟨Int.lt_tmod_of_pos _ (by decide), Int.tmod_lt_of_pos _ (by decide)⟩
    · cases h

theorem nextScale {last : Int} (hlast : -256 < last ∧ last < 256) :
    Reads (AirPlay.Mirror.nextScale last) (Syntax.nextScale last) := by
  have hfailed : ∀ {buf r}, Ok buf r → Syntax.code r.rest = .error .ended →
      Failed buf (AirPlay.Mirror.nextScale last r) := by
    intro buf r hr hcode
    obtain ⟨r', hse, hr', herror⟩ := se_failed hr hcode
    have hfits : Checked.Fits 32 (last + 0) ∧ Checked.Fits 32 (last + 0 + 256) := by
      rw [Checked.Fits, Checked.Fits]
      omega
    exact ⟨_, r', by rw [nextScale_of_se hse, if_pos hfits], hr', herror⟩
  refine ⟨fun {_ r} hr herror => ?_, fun hr herror => hfailed hr (hr.code_error herror)⟩
  have hfollows := se.follows hr herror
  cases hsigned : Syntax.signedCode r.rest with
  | ok p =>
    rw [hsigned] at hfollows
    obtain ⟨r', hse, hr', herror', hrest⟩ := hfollows
    rw [Syntax.nextScale, bind_ok hsigned, nextScale_of_se hse]
    split
    · exact ⟨r', rfl, hr', herror', hrest⟩
    · rfl
  | error stop =>
    rw [hsigned] at hfollows
    rw [Syntax.nextScale, bind_error hsigned]
    cases stop with
    | ended => exact hfailed hr (signedCode_ended hsigned)
    | excess => exact run_bind_none hfollows

theorem scalingList (left : Nat) {last next : Int} (hlast : -256 < last ∧ last < 256) :
    Reads (AirPlay.Mirror.scalingList left last next) (Syntax.scalingList left last next) := by
  induction left generalizing last next with
  | zero => exact pure ()
  | succ left ih =>
    refine guarded () (bind ?_ fun scale hscale => ih ?_)
    · exact ite (nextScale hlast) (pure next)
    · split
      · rename_i hne
        obtain ⟨r, r', hrun⟩ := hscale
        by_cases hnext : next ≠ 0
        · rw [if_pos hnext] at hrun
          exact nextScale_lt hrun
        · rw [if_neg hnext] at hrun
          cases hrun
          exact absurd hne hnext
      · exact hlast

theorem scalingLists (left i : Nat) :
    Reads (AirPlay.Mirror.scalingLists left i) (Syntax.scalingLists left i) := by
  induction left generalizing i with
  | zero => exact pure ()
  | succ left ih =>
    refine guarded () (u1.seq fun present => seq ?_ fun _ => ih (i + 1))
    exact ite (scalingList _ (by decide)) (pure ())

/-! #### The rest of the syntax -/

theorem chromaExt : Reads AirPlay.Mirror.chromaExt Syntax.chromaExt := by
  refine ue.seq fun chromaFormatIdc => seq (ite u1 (pure false)) fun _ => ?_
  refine ue.seq fun _ => ue.seq fun _ => u1.seq fun _ => u1.seq fun present => ?_
  exact ite (scalingLists _ 0) (pure ())

theorem offsets (left : Nat) : Reads (AirPlay.Mirror.offsets left) (Syntax.offsets left) := by
  induction left with
  | zero => exact pure ()
  | succ left ih => exact guarded () (se.seq fun _ => ih)

theorem picOrderCnt : Reads AirPlay.Mirror.picOrderCnt Syntax.picOrderCnt := by
  refine ue.seq fun picOrderCntType => ite (ue.seq fun _ => pure ()) (ite ?_ (pure ()))
  exact u1.seq fun _ => se.seq fun _ => se.seq fun _ => ue.seq fun n => offsets n

theorem cropping (fields : Fields) :
    Reads (AirPlay.Mirror.cropping fields) (Syntax.cropping fields) :=
  ue.seq fun _ => ue.seq fun _ => ue.seq fun _ => ue.seq fun _ => pure _

theorem readFields (hasChromaExt : Bool) :
    Reads (AirPlay.Mirror.readFields hasChromaExt) (Syntax.fields hasChromaExt) := by
  refine ue.seq fun _ => seq (ite chromaExt (pure ())) fun _ => ue.seq fun _ => ?_
  refine picOrderCnt.seq fun _ => ue.seq fun _ => u1.seq fun _ => ue.seq fun _ => ?_
  refine ue.seq fun _ => u1.seq fun _ => seq (ite u1 (pure false)) fun _ => u1.seq fun _ => ?_
  exact u1.seq fun _ => ite (cropping _) (pure _)

end Reads

/-! ### The parser -/

/-- The checks that come before the bits. -/
def Begins (sps : Bytes) : Prop :=
  4 ≤ sps.length ∧ sps.headD 0 &&& 0x1f = 7 ∧ 3 ≤ (ebspToRbsp sps.tail).length

instance (sps : Bytes) : Decidable (Begins sps) := inferInstanceAs (Decidable (_ ∧ _))

/-- What the syntax says of the bits behind the level. -/
def syntaxOf (sps : Bytes) : Except Stop (Fields × List Bool) :=
  Syntax.fields (hasChromaExt ((ebspToRbsp sps.tail).getD 0 0))
    (Bits.ofBytes ((ebspToRbsp sps.tail).drop 3))

/-- As far as the syntax can be followed it comes to no code that begins with 32 zeros and
has 33 bits behind them, and to no scale whose sum is no `int`. -/
def Moderate (sps : Bytes) : Prop := Begins sps → syntaxOf sps ≠ .error .excess

/-- The parse is defined, it takes no more bits than the unit has, each code takes one at
least until the flag is set, and all codes are exact. -/
def Sound (sps : Bytes) : Prop :=
  ∃ found info br, parseH264Sps sps = some (found, info, br) ∧ br.pos ≤ 8 * sps.length ∧
    (br.error = false → br.calls.length ≤ br.pos) ∧ ∀ c ∈ br.calls, c.Exact

theorem ebspToRbsp_length (b : Bytes) : (ebspToRbsp b).length ≤ b.length := by
  induction b using ebspToRbsp.induct with
  | case1 rest ih =>
    rw [ebspToRbsp]
    simp only [List.length_cons]
    omega
  | case2 b rest hnot ih =>
    rw [ebspToRbsp]
    · simp only [List.length_cons]
      omega
    · exact hnot
  | case3 => exact le_rfl

theorem parse_of_begins {sps : Bytes} (h : Begins sps) :
    parseH264Sps sps =
      (readFields (hasChromaExt ((ebspToRbsp sps.tail).getD 0 0))
        {buf := (ebspToRbsp sps.tail).drop 3}).map fun (fields, br) =>
          let out : SpsInfo :=
            {profileIdc := (ebspToRbsp sps.tail).getD 0 0
             levelIdc := (ebspToRbsp sps.tail).getD 2 0}
          if br.error then (false, out, br)
          else (true,
            {out with
              width := (computeFrameSize fields).1
              height := (computeFrameSize fields).2
              interlaced := !fields.frameMbsOnlyFlag}, br) := by
  obtain ⟨hlength, hheader, hrbsp⟩ := h
  rw [parseH264Sps, if_neg (by omega), if_neg (not_not_intro hheader)]
  dsimp only
  rw [if_neg (by omega)]

theorem parse_of_not_begins {sps : Bytes} (h : ¬ Begins sps) :
    parseH264Sps sps = some (false, {}, {buf := []}) := by
  rw [parseH264Sps]
  split
  · rfl
  · rename_i hlength
    split
    · rfl
    · rename_i hheader
      dsimp only
      split
      · rfl
      · rename_i hrbsp
        exact absurd ⟨by omega, not_not.mp hheader, by omega⟩ h

/-- A reader at the beginning. -/
theorem Ok.start (buf : Bytes) : Ok buf {buf} where
  same := rfl
  pos := Nat.zero_le _
  sane := fun herror => absurd herror Bool.false_ne_true
  calls := fun _ => le_rfl
  exact := fun _ hc => absurd hc List.not_mem_nil

theorem Ok.sound {sps : Bytes} {found : Bool} {info : SpsInfo} {br : BitReader}
    (hbr : Ok ((ebspToRbsp sps.tail).drop 3) br)
    (hparse : parseH264Sps sps = some (found, info, br)) : Sound sps := by
  refine ⟨found, info, br, hparse, hbr.pos.trans (Nat.mul_le_mul_left 8 ?_), hbr.calls, hbr.exact⟩
  have hle := ebspToRbsp_length sps.tail
  rw [List.length_tail] at hle
  rw [List.length_drop]
  omega

/-- The parser does only what is defined, within the bits it was given and with exact
codes, exactly when the syntax comes to no number that is too large. -/
theorem sound_iff_moderate (sps : Bytes) : Sound sps ↔ Moderate sps := by
  by_cases hbegins : Begins sps
  · have hstart := Ok.start ((ebspToRbsp sps.tail).drop 3)
    have hreads : Follows ((ebspToRbsp sps.tail).drop 3)
        (readFields (hasChromaExt ((ebspToRbsp sps.tail).getD 0 0))
          {buf := (ebspToRbsp sps.tail).drop 3}) (syntaxOf sps) :=
      (Reads.readFields _).follows hstart rfl
    have hparse := parse_of_begins hbegins
    cases hfields : syntaxOf sps with
    | ok p =>
      rw [hfields] at hreads
      obtain ⟨br, hrun, hbr, herror, -⟩ := hreads
      rw [hrun, Option.map_some] at hparse
      dsimp only at hparse
      rw [herror, if_neg Bool.false_ne_true] at hparse
      exact iff_of_true (hbr.sound hparse) fun _ h => by
        rw [hfields] at h
        cases h
    | error stop =>
      cases stop with
      | ended =>
        rw [hfields] at hreads
        obtain ⟨fields, br, hrun, hbr, herror⟩ := hreads
        rw [hrun, Option.map_some] at hparse
        dsimp only at hparse
        rw [if_pos herror] at hparse
        exact iff_of_true (hbr.sound hparse) fun _ h => by
          rw [hfields] at h
          cases h
      | excess =>
        rw [hfields] at hreads
        rw [show _ = none from hreads] at hparse
        refine iff_of_false ?_ fun h => h hbegins hfields
        rintro ⟨found, info, br, hsome, -⟩
        exact absurd (hparse.symm.trans hsome) (Option.some_ne_none _).symm
  · refine iff_of_true ⟨false, {}, {buf := []}, parse_of_not_begins hbegins, Nat.zero_le _,
      fun _ => le_rfl, fun _ hc => absurd hc List.not_mem_nil⟩ fun h => absurd h hbegins

/-- A parameter set of zeros behind the level. -/
def zeroSps : Bytes := [0x67, 66, 0, 30, 0, 0, 0, 0, 0, 0, 0, 0, 0]

/-- Its first code has 32 zeros, and the shift is by 32. -/
theorem zero_shift : ¬ Sound zeroSps := by
  rintro ⟨found, info, br, hparse, -⟩
  have hnone : (parseH264Sps zeroSps).isNone = true := by decide +kernel
  rw [hparse] at hnone
  exact Bool.false_ne_true hnone

end AirPlay.Mirror
