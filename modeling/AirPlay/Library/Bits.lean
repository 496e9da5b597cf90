import Mathlib.Tactic.Ring
import AirPlay.Library.Bytes

/-! Bit strings, the most significant bit first, and Exp-Golomb codes.

A code is a run of zeros, a one, and as many bits as there were zeros; whoever reads it
needs to know no length (`decode_code`). -/
namespace Bits

/-- The lowest `z` bits of a number. -/
def binary : Nat → Nat → List Bool
  | 0, _ => []
  | z + 1, n => n.testBit z :: binary z n

def natural (bits : List Bool) : Nat := bits.foldl (fun v b => 2 * v + b.toNat) 0

def ofBytes (b : Bytes) : List Bool := b.flatMap fun x => binary 8 x.toNat

/-- Eight bits to a byte; less than eight make none. -/
def toBytes : List Bool → Bytes
  | b₇ :: b₆ :: b₅ :: b₄ :: b₃ :: b₂ :: b₁ :: b₀ :: rest =>
    UInt8.ofNat (natural [b₇, b₆, b₅, b₄, b₃, b₂, b₁, b₀]) :: toBytes rest
  | _ => []

/-! ### Numbers -/

theorem binary_length (z n : Nat) : (binary z n).length = z := by
  induction z with
  | zero => rfl
  | succ z ih => rw [binary, List.length_cons, ih]

theorem foldl_natural (bits : List Bool) (v : Nat) :
    bits.foldl (fun v b => 2 * v + b.toNat) v = v * 2 ^ bits.length + natural bits := by
  induction bits generalizing v with
  | nil => rw [List.length_nil, pow_zero, mul_one]; rfl
  | cons b bits ih =>
    have hcons : natural (b :: bits) = b.toNat * 2 ^ bits.length + natural bits := by
      rw [natural, List.foldl_cons, ih, Nat.mul_zero, Nat.zero_add]
    rw [List.foldl_cons, ih, hcons, List.length_cons, pow_succ]
    ring

theorem natural_cons (b : Bool) (bits : List Bool) :
    natural (b :: bits) = b.toNat * 2 ^ bits.length + natural bits := by
  rw [natural, List.foldl_cons, foldl_natural, Nat.mul_zero, Nat.zero_add]

theorem natural_lt (bits : List Bool) : natural bits < 2 ^ bits.length := by
  induction bits with
  | nil => exact Nat.one_pos
  | cons b bits ih =>
    rw [natural_cons, List.length_cons, pow_succ]
    cases b
    · rw [Bool.toNat_false]
      omega
    · rw [Bool.toNat_true]
      omega

theorem natural_take_lt (bits : List Bool) (z : Nat) : natural (bits.take z) < 2 ^ z :=
  (natural_lt _).trans_le (Nat.pow_le_pow_right (by decide) (List.length_take_le _ _))

theorem natural_binary (z n : Nat) : natural (binary z n) = n % 2 ^ z := by
  induction z with
  | zero => rw [pow_zero, Nat.mod_one]; rfl
  | succ z ih =>
    rw [binary, natural_cons, binary_length, ih, Nat.mod_pow_succ, Nat.toNat_testBit, Nat.mul_comm,
      Nat.add_comm]

theorem binary_natural (bits : List Bool) (n : Nat) :
    binary bits.length (n * 2 ^ bits.length + natural bits) = bits := by
  induction bits generalizing n with
  | nil => rfl
  | cons b bits ih =>
    have hvalue : n * 2 ^ (b :: bits).length + natural (b :: bits) =
        (2 * n + b.toNat) * 2 ^ bits.length + natural bits := by
      rw [natural_cons, List.length_cons, pow_succ]
      ring
    have hbit : ((2 * n + b.toNat) * 2 ^ bits.length + natural bits).testBit bits.length = b := by
      rw [Nat.testBit_eq_decide_div_mod_eq, Nat.mul_comm, Nat.mul_add_div (Nat.two_pow_pos _),
        Nat.div_eq_of_lt (natural_lt bits), Nat.add_zero, Nat.mul_add_mod]
      cases b <;> rfl
    rw [hvalue, List.length_cons, binary, ih, hbit]

/-! ### Bytes -/

theorem ofBytes_length (b : Bytes) : (ofBytes b).length = 8 * b.length := by
  induction b with
  | nil => rfl
  | cons x b ih =>
    rw [ofBytes, List.flatMap_cons, ← ofBytes, List.length_append, binary_length, ih,
      List.length_cons]
    omega

theorem binary_getElem (z n i : Nat) (h : i < z) :
    (binary z n)[i]? = some (n.testBit (z - 1 - i)) := by
  induction z generalizing i with
  | zero => exact absurd h (Nat.not_lt_zero i)
  | succ z ih =>
    cases i with
    | zero => rfl
    | succ i =>
      rw [binary, List.getElem?_cons_succ, ih i (Nat.lt_of_succ_lt_succ h)]
      congr 2
      omega

/-- Where a bit stands. -/
theorem ofBytes_getElem (b : Bytes) (pos : Nat) (h : pos < 8 * b.length) :
    (ofBytes b)[pos]? = some ((b.getD (pos / 8) 0).toNat.testBit (7 - pos % 8)) := by
  induction b generalizing pos with
  | nil => exact absurd h (Nat.not_lt_zero pos)
  | cons x b ih =>
    rw [ofBytes, List.flatMap_cons, ← ofBytes]
    by_cases hpos : pos < 8
    · rw [List.getElem?_append_left (by rwa [binary_length]), binary_getElem 8 _ _ hpos,
        Nat.div_eq_of_lt hpos, Nat.mod_eq_of_lt hpos]
      rfl
    · obtain ⟨p, rfl⟩ := Nat.exists_eq_add_of_le (Nat.not_lt.mp hpos)
      rw [List.length_cons] at h
      rw [List.getElem?_append_right (by rw [binary_length]; omega), binary_length,
        Nat.add_sub_cancel_left, ih p (by omega), Nat.add_mod_left,
        Nat.add_div_left p (by decide : 0 < 8), List.getD_cons_succ]

theorem ofBytes_toBytes (bits : List Bool) (h : 8 ∣ bits.length) :
    ofBytes (toBytes bits) = bits := by
  induction bits using toBytes.induct with
  | case1 b₇ b₆ b₅ b₄ b₃ b₂ b₁ b₀ rest ih =>
    have hrest : 8 ∣ rest.length := (Nat.dvd_add_left (Nat.dvd_refl 8)).mp h
    have hbyte := natural_lt [b₇, b₆, b₅, b₄, b₃, b₂, b₁, b₀]
    have hbits := binary_natural [b₇, b₆, b₅, b₄, b₃, b₂, b₁, b₀] 0
    rw [Nat.zero_mul, Nat.zero_add] at hbits
    have hmod : natural [b₇, b₆, b₅, b₄, b₃, b₂, b₁, b₀] % 2 ^ 8 =
        natural [b₇, b₆, b₅, b₄, b₃, b₂, b₁, b₀] := Nat.mod_eq_of_lt hbyte
    rw [toBytes, ofBytes, List.flatMap_cons, ← ofBytes, ih hrest, UInt8.toNat_ofNat', hmod]
    exact congrArg (· ++ rest) hbits
  | case2 bits hshort =>
    have hlt : bits.length < 8 := by
      rcases bits with
        _ | ⟨b₇, _ | ⟨b₆, _ | ⟨b₅, _ | ⟨b₄, _ | ⟨b₃, _ | ⟨b₂, _ | ⟨b₁, _ | ⟨b₀, rest⟩⟩⟩⟩⟩⟩⟩⟩
      case cons.cons.cons.cons.cons.cons.cons.cons =>
        exact absurd rfl (hshort b₇ b₆ b₅ b₄ b₃ b₂ b₁ b₀ rest)
      all_goals simp
    rw [List.eq_nil_of_length_eq_zero (Nat.eq_zero_of_dvd_of_lt h hlt)]
    rfl

/-! ### Exp-Golomb codes -/

/-- The zeros in front. -/
def zeros (bits : List Bool) : Nat := (bits.takeWhile fun b => !b).length

/-- The code of a number. -/
def code (n : Nat) : List Bool :=
  List.replicate (n + 1).log2 false ++ true :: binary (n + 1).log2 (n + 1)

/-- The number that a code at the front stands for, and what follows it. -/
def decode (bits : List Bool) : Option (Nat × List Bool) :=
  if bits.length < 2 * zeros bits + 1 then none
  else some (2 ^ zeros bits - 1 + natural ((bits.drop (zeros bits + 1)).take (zeros bits)),
    bits.drop (2 * zeros bits + 1))

theorem zeros_code (z : Nat) (rest : List Bool) :
    zeros (List.replicate z false ++ true :: rest) = z := by
  induction z with
  | zero => rfl
  | succ z ih => exact congrArg (· + 1) ih

theorem decode_code (n : Nat) (rest : List Bool) : decode (code n ++ rest) = some (n, rest) := by
  have hzeros : zeros (code n ++ rest) = (n + 1).log2 := by
    rw [code, List.append_assoc, List.cons_append, zeros_code]
  have hlength : (List.replicate (n + 1).log2 false ++ [true]).length = (n + 1).log2 + 1 := by
    rw [List.length_append, List.length_replicate, List.length_singleton]
  have hsplit : code n ++ rest = List.replicate (n + 1).log2 false ++ [true] ++
      (binary (n + 1).log2 (n + 1) ++ rest) := by
    rw [code, List.append_assoc, List.append_assoc]
    rfl
  have hhead : (code n ++ rest).drop ((n + 1).log2 + 1) =
      binary (n + 1).log2 (n + 1) ++ rest := by
    rw [hsplit, ← hlength, List.drop_left]
  have htail : (code n ++ rest).drop (2 * (n + 1).log2 + 1) = rest := by
    have htwice : 2 * (n + 1).log2 + 1 = (n + 1).log2 + 1 + (n + 1).log2 := by omega
    rw [htwice, ← List.drop_drop, hhead]
    exact List.drop_left' (binary_length _ _)
  have hlow : 2 ^ (n + 1).log2 ≤ n + 1 := Nat.log2_self_le (Nat.succ_ne_zero n)
  have hhigh : n + 1 < 2 ^ (n + 1).log2 * 2 := by
    rw [← pow_succ]
    exact Nat.lt_log2_self
  have hvalue : 2 ^ (n + 1).log2 - 1 + (n + 1) % 2 ^ (n + 1).log2 = n := by
    rw [Nat.mod_eq_sub_mod hlow, Nat.mod_eq_of_lt (by omega)]
    omega
  have hlong : ¬ (code n ++ rest).length < 2 * (n + 1).log2 + 1 := by
    rw [hsplit, List.length_append, hlength, List.length_append, binary_length]
    omega
  rw [decode, hzeros, if_neg hlong, hhead, htail, List.take_left' (binary_length _ _),
    natural_binary, hvalue]

/-- A code stands for a signed number: 1, -1, 2, -2, .. in place of 1, 2, 3, 4, .. -/
def signed (k : Nat) : Int := if k % 2 = 1 then ((k + 1) / 2 : Nat) else -((k / 2 : Nat) : Int)

def unsigned (x : Int) : Nat := if 0 < x then 2 * x.toNat - 1 else 2 * (-x).toNat

theorem signed_unsigned (x : Int) : signed (unsigned x) = x := by
  rw [signed, unsigned]
  split
  · split
    · omega
    · omega
  · split
    · omega
    · omega

end Bits
