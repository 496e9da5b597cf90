import AirPlay.Library.Bytes

/-! Stream ciphers.

A keystream gives a byte for every position; text and ciphertext differ by the
keystream from some position on. Pieces that follow each other in the keystream make
one text, and applying the keystream twice at the same position gives the text back. -/
namespace Keystream

/-- The data with the keystream from position `n` on. -/
def apply (k : Nat → UInt8) (n : Nat) : Bytes → Bytes
  | [] => []
  | b :: rest => (b ^^^ k n) :: apply k (n + 1) rest

variable (k : Nat → UInt8)

@[simp] theorem length_apply (n : Nat) (data : Bytes) : (apply k n data).length = data.length := by
  induction data generalizing n with
  | nil => rfl
  | cons b rest ih => rw [apply, List.length_cons, ih, List.length_cons]

@[simp] theorem apply_apply (n : Nat) (data : Bytes) : apply k n (apply k n data) = data := by
  induction data generalizing n with
  | nil => rfl
  | cons b rest ih => rw [apply, apply, ih, UInt8.xor_assoc, UInt8.xor_self, UInt8.xor_zero]

end Keystream
