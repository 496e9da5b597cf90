import Mathlib.Algebra.GroupWithZero.Nat
import AirPlay.Library.Bytes

/-! UTF-8, a character at a time.

A character beyond ASCII is a lead byte, which holds its highest bits, and a number of
bytes of six bits each. -/
namespace Utf8

/-- The bytes behind the lead byte, `n` of them. -/
def tail (v : Nat) : Nat → Bytes
  | 0 => []
  | n + 1 => UInt8.ofNat (v / 64 ^ n % 64 + 0x80) :: tail v n

/-- The characters of one length: how many bytes follow the lead byte, what is added to
the bits that it holds, and the code points from the least up to a limit. -/
structure Width where
  count : Nat
  mark : Nat
  least : Nat
  limit : Nat
  deriving DecidableEq

def widths : List Width :=
  [⟨1, 0xc0, 0x80, 0x800⟩, ⟨2, 0xe0, 0x800, 0x10000⟩, ⟨3, 0xf0, 0x10000, 0x110000⟩]

theorem mem_widths {w : Width} : w ∈ widths ↔ w = ⟨1, 0xc0, 0x80, 0x800⟩ ∨
    w = ⟨2, 0xe0, 0x800, 0x10000⟩ ∨ w = ⟨3, 0xf0, 0x10000, 0x110000⟩ := by
  rw [widths, List.mem_cons, List.mem_cons, List.mem_singleton]

theorem least_le {w : Width} (hw : w ∈ widths) : 0x80 ≤ w.least := by
  rcases mem_widths.mp hw with rfl | rfl | rfl <;> decide

theorem encode_ascii {c : Char} (h : c.toNat < 0x80) :
    String.utf8EncodeChar c = [UInt8.ofNat c.toNat] :=
  if_pos (Nat.le_of_lt_succ h)

theorem encode_long {w : Width} (hw : w ∈ widths) {c : Char} (hleast : w.least ≤ c.toNat)
    (hlimit : c.toNat < w.limit) :
    String.utf8EncodeChar c =
      UInt8.ofNat (c.toNat / 64 ^ w.count + w.mark) :: tail c.toNat w.count := by
  have hnat : c.val.toNat = c.toNat := rfl
  rw [String.utf8EncodeChar]
  simp only [hnat]
  rcases mem_widths.mp hw with rfl | rfl | rfl
  · simp only at hleast hlimit
    have hlead : c.toNat / 64 % 32 = c.toNat / 64 := Nat.mod_eq_of_lt (by omega)
    rw [if_neg (by omega), if_pos (by omega), hlead, tail, tail, Nat.pow_zero, Nat.div_one,
      Nat.pow_one]
  · simp only at hleast hlimit
    have hlead : c.toNat / 4096 % 16 = c.toNat / 4096 := Nat.mod_eq_of_lt (by omega)
    rw [if_neg (by omega), if_neg (by omega), if_pos (by omega), hlead, tail, tail, tail,
      Nat.pow_zero, Nat.div_one, Nat.pow_one]
    rfl
  · simp only at hleast hlimit
    have hlead : c.toNat / 262144 % 8 = c.toNat / 262144 := Nat.mod_eq_of_lt (by omega)
    rw [if_neg (by omega), if_neg (by omega), if_neg (by omega), hlead, tail, tail, tail, tail,
      Nat.pow_zero, Nat.div_one, Nat.pow_one]
    rfl

theorem exists_width {c : Char} (h : 0x80 ≤ c.toNat) :
    ∃ w ∈ widths, w.least ≤ c.toNat ∧ c.toNat < w.limit := by
  have hmax : c.toNat < 0x110000 := by
    rcases c.valid with hlow | ⟨-, hhigh⟩
    · exact hlow.trans (by decide)
    · exact hhigh
  by_cases hone : c.toNat < 0x800
  · exact ⟨_, mem_widths.mpr (.inl rfl), h, hone⟩
  by_cases htwo : c.toNat < 0x10000
  · exact ⟨_, mem_widths.mpr (.inr (.inl rfl)), Nat.le_of_not_lt hone, htwo⟩
  · exact ⟨_, mem_widths.mpr (.inr (.inr rfl)), Nat.le_of_not_lt htwo, hmax⟩

end Utf8
