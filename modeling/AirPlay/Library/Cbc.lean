import AirPlay.Library.Bytes

/-! Cipher block chaining.

Every block is combined with the ciphertext of the one before it, the first with an
initial vector, and then encrypted. What is left behind the last whole block may be sent
as it is; `unpack_pack` reads such a message back. -/

/-- A cipher on blocks of `n` bytes. -/
structure BlockCipher (n : Nat) where
  encrypt : Bytes → Bytes
  decrypt : Bytes → Bytes
  length_encrypt : ∀ block, block.length = n → (encrypt block).length = n
  length_decrypt : ∀ block, block.length = n → (decrypt block).length = n
  decrypt_encrypt : ∀ block, block.length = n → decrypt (encrypt block) = block

namespace Cbc

def xor (a b : Bytes) : Bytes := List.zipWith (· ^^^ ·) a b

theorem xor_xor {a b : Bytes} (h : a.length = b.length) : xor (xor a b) b = a := by
  induction a generalizing b with
  | nil => rfl
  | cons x a ih =>
    cases b with
    | nil => exact absurd h (Nat.succ_ne_zero _)
    | cons y b =>
      have hrest := ih (Nat.succ.inj h)
      rw [xor, xor, List.zipWith_cons_cons, List.zipWith_cons_cons, UInt8.xor_assoc,
        UInt8.xor_self, UInt8.xor_zero]
      exact congrArg (x :: ·) hrest

theorem length_xor {a b : Bytes} (h : a.length = b.length) : (xor a b).length = a.length := by
  rw [xor, List.length_zipWith, ← h, Nat.min_self]

variable {n : Nat} (c : BlockCipher n)

/-- The first `k` blocks of a text. -/
def encrypt : Bytes → Nat → Bytes → Bytes
  | _, 0, _ => []
  | iv, k + 1, text =>
    let block := c.encrypt (xor (text.take n) iv)
    block ++ encrypt block k (text.drop n)

def decrypt : Bytes → Nat → Bytes → Bytes
  | _, 0, _ => []
  | iv, k + 1, data =>
    xor (c.decrypt (data.take n)) iv ++ decrypt (data.take n) k (data.drop n)

variable {c}

theorem length_encrypt {iv : Bytes} (hiv : iv.length = n) {k : Nat} {text : Bytes}
    (h : k * n ≤ text.length) : (encrypt c iv k text).length = k * n := by
  induction k generalizing iv text with
  | zero => rw [encrypt, List.length_nil, Nat.zero_mul]
  | succ k ih =>
    rw [Nat.succ_mul] at h
    have htake : (text.take n).length = n := List.length_take_of_le (by omega)
    have hblock : (c.encrypt (xor (text.take n) iv)).length = n := by
      refine c.length_encrypt _ ?_
      rw [length_xor (htake.trans hiv.symm), htake]
    have hdrop : k * n ≤ (text.drop n).length := by
      rw [List.length_drop]
      omega
    rw [encrypt, List.length_append, hblock, ih hblock hdrop, Nat.succ_mul, Nat.add_comm]

theorem length_decrypt {iv : Bytes} (hiv : iv.length = n) {k : Nat} {data : Bytes}
    (h : k * n ≤ data.length) : (decrypt c iv k data).length = k * n := by
  induction k generalizing iv data with
  | zero => rw [decrypt, List.length_nil, Nat.zero_mul]
  | succ k ih =>
    rw [Nat.succ_mul] at h
    have htake : (data.take n).length = n := List.length_take_of_le (by omega)
    have hblock := c.length_decrypt _ htake
    have hdrop : k * n ≤ (data.drop n).length := by
      rw [List.length_drop]
      omega
    rw [decrypt, List.length_append, length_xor (hblock.trans hiv.symm), hblock, ih htake hdrop,
      Nat.succ_mul, Nat.add_comm]

/-- Whole blocks are read back, whatever follows them. -/
theorem decrypt_encrypt {iv : Bytes} (hiv : iv.length = n) {k : Nat} {text : Bytes}
    (h : k * n ≤ text.length) (rest : Bytes) :
    decrypt c iv k (encrypt c iv k text ++ rest) = text.take (k * n) := by
  induction k generalizing iv text with
  | zero => rw [decrypt, Nat.zero_mul, List.take_zero]
  | succ k ih =>
    rw [Nat.succ_mul] at h
    have htake : (text.take n).length = n := List.length_take_of_le (by omega)
    have hxor : (xor (text.take n) iv).length = n := by
      rw [length_xor (htake.trans hiv.symm), htake]
    have hblock := c.length_encrypt _ hxor
    have hdrop : k * n ≤ (text.drop n).length := by
      rw [List.length_drop]
      omega
    rw [decrypt, encrypt, List.append_assoc, List.take_left' hblock, List.drop_left' hblock,
      c.decrypt_encrypt _ hxor, xor_xor (htake.trans hiv.symm), ih hblock hdrop, Nat.succ_mul,
      Nat.add_comm, List.take_add]

/-- Only whole blocks are looked at. -/
theorem decrypt_take (iv : Bytes) (k : Nat) (data : Bytes) :
    decrypt c iv k (data.take (k * n)) = decrypt c iv k data := by
  induction k generalizing iv data with
  | zero => rfl
  | succ k ih =>
    have hfirst : (data.take ((k + 1) * n)).take n = data.take n := by
      rw [List.take_take, Nat.min_eq_left (Nat.le_mul_of_pos_left n (Nat.succ_pos k))]
    have hrest : (data.take ((k + 1) * n)).drop n = (data.drop n).take (k * n) := by
      rw [List.drop_take, Nat.succ_mul, Nat.add_sub_cancel]
    rw [decrypt, decrypt, hfirst, hrest, ih]

variable (c)

/-- The whole blocks of a text encrypted, and the rest of it as it is. -/
def pack (iv text : Bytes) : Bytes :=
  encrypt c iv (text.length / n) text ++ text.drop (text.length / n * n)

def unpack (iv data : Bytes) : Bytes :=
  decrypt c iv (data.length / n) data ++ data.drop (data.length / n * n)

variable {c}

theorem length_pack {iv : Bytes} (hiv : iv.length = n) (text : Bytes) :
    (pack c iv text).length = text.length := by
  have hle := Nat.div_mul_le_self text.length n
  rw [pack, List.length_append, length_encrypt hiv hle, List.length_drop]
  omega

theorem length_unpack {iv : Bytes} (hiv : iv.length = n) (data : Bytes) :
    (unpack c iv data).length = data.length := by
  have hle := Nat.div_mul_le_self data.length n
  rw [unpack, List.length_append, length_decrypt hiv hle, List.length_drop]
  omega

theorem unpack_pack {iv : Bytes} (hiv : iv.length = n) (text : Bytes) :
    unpack c iv (pack c iv text) = text := by
  have hle := Nat.div_mul_le_self text.length n
  rw [unpack, length_pack hiv, pack, decrypt_encrypt hiv hle,
    List.drop_left' (length_encrypt hiv hle), List.take_append_drop]

end Cbc
