import AirPlay.Library.Text
import AirPlay.Library.Percent

/-! Chunked bodies.

A body that is sent before its length is known goes out in pieces, each after its length in
hexadecimal digits; a piece of length zero ends it. However the body has been cut, it is
read back whole (`readChunks_chunked`). -/
namespace Bytes

/-! ### Hexadecimal numbers -/

def hexDigit (n : Nat) : UInt8 := UInt8.ofNat (if n < 10 then 48 + n else 87 + n)

/-- `%x`. -/
def hexadecimal (n : Nat) : Bytes :=
  if _h : n < 16 then [hexDigit n] else hexadecimal (n / 16) ++ [hexDigit (n % 16)]

/-- The value of a run of hexadecimal digits, none for anything else. -/
def ofHex (s : Bytes) : Option Nat :=
  if s = [] then none
  else (s.mapM hex).map fun digits => digits.foldl (fun n d => 16 * n + d.toNat) 0

theorem hex_hexDigit : ∀ n < 16, hex (hexDigit n) = some (UInt8.ofNat n) := by decide

theorem mapM_hexadecimal (n : Nat) :
    ∃ digits, (hexadecimal n).mapM hex = some digits ∧
      digits.foldl (fun n d => 16 * n + d.toNat) 0 = n := by
  induction n using Nat.strong_induction_on with
  | h n ih =>
    rw [hexadecimal]
    split
    · rename_i hsmall
      refine ⟨[UInt8.ofNat n], ?_, ?_⟩
      · rw [List.mapM_cons, hex_hexDigit n hsmall]
        rfl
      · show 16 * 0 + (UInt8.ofNat n).toNat = n
        rw [UInt8.toNat_ofNat']
        omega
    · obtain ⟨digits, hdigits, hvalue⟩ := ih (n / 16) (by omega)
      have hlast : n % 16 < 16 := Nat.mod_lt _ (by decide)
      refine ⟨digits ++ [UInt8.ofNat (n % 16)], ?_, ?_⟩
      · rw [List.mapM_append, hdigits, List.mapM_cons, hex_hexDigit _ hlast]
        rfl
      · rw [List.foldl_append, hvalue]
        show 16 * (n / 16) + (UInt8.ofNat (n % 16)).toNat = n
        rw [UInt8.toNat_ofNat']
        omega

theorem hexadecimal_ne_nil (n : Nat) : hexadecimal n ≠ [] := by
  rw [hexadecimal]
  split
  · exact List.cons_ne_nil _ _
  · exact List.append_ne_nil_of_right_ne_nil _ (List.cons_ne_nil _ _)

theorem ofHex_hexadecimal (n : Nat) : ofHex (hexadecimal n) = some n := by
  obtain ⟨digits, hdigits, hvalue⟩ := mapM_hexadecimal n
  rw [ofHex, if_neg (hexadecimal_ne_nil n), hdigits, Option.map_some, hvalue]

theorem cr_notMem_hexadecimal (n : Nat) : 13 ∉ hexadecimal n := by
  have hdigit : ∀ n < 16, hexDigit n ≠ 13 := by decide
  induction n using Nat.strong_induction_on with
  | h n ih =>
    rw [hexadecimal]
    split
    · rename_i hsmall
      rw [List.mem_singleton]
      exact (hdigit n hsmall).symm
    · rw [List.mem_append, List.mem_singleton, not_or]
      exact ⟨ih (n / 16) (by omega), (hdigit _ (Nat.mod_lt _ (by decide))).symm⟩

/-! ### Pieces -/

def chunk (data : Bytes) : Bytes := hexadecimal data.length ++ (crlf ++ (data ++ crlf))

def lastChunk : Bytes := bytes "0" ++ (crlf ++ crlf)

/-- A body in these pieces. -/
def chunked (pieces : List Bytes) : Bytes := pieces.flatMap chunk ++ lastChunk

/-- The body at the front of a stream, in at most so many pieces, and what follows it. -/
def readChunks : Nat → Bytes → Option (Bytes × Bytes)
  | 0, _ => none
  | fuel + 1, s => do
    let (size, rest) ← cut crlf s
    let n ← ofHex size
    if (rest.drop n).take 2 ≠ crlf then none
    else if n = 0 then some ([], rest.drop 2)
    else (readChunks fuel (rest.drop (n + 2))).map fun p => (rest.take n ++ p.1, p.2)

theorem readChunks_last (fuel : Nat) (t : Bytes) :
    readChunks (fuel + 1) (lastChunk ++ t) = some ([], t) := by
  have hcut : cut crlf (lastChunk ++ t) = some (bytes "0", crlf ++ t) := by
    rw [lastChunk, List.append_assoc, List.append_assoc]
    exact cut_line (by decide) _
  have hzero : ofHex (bytes "0") = some 0 := by decide
  rw [readChunks, hcut]
  simp only [Option.bind_eq_bind, Option.bind_some, hzero]
  rfl

theorem readChunks_chunk (fuel : Nat) {data : Bytes} (hne : data ≠ []) (t : Bytes) :
    readChunks (fuel + 1) (chunk data ++ t) =
      (readChunks fuel t).map fun p => (data ++ p.1, p.2) := by
  have hcrlf : ¬ crlf <:+: hexadecimal data.length := fun hin =>
    cr_notMem_hexadecimal data.length (hin.subset List.mem_cons_self)
  have hcut : cut crlf (chunk data ++ t) = some (hexadecimal data.length, data ++ (crlf ++ t)) := by
    rw [chunk, List.append_assoc, List.append_assoc, List.append_assoc]
    exact cut_line hcrlf _
  have hlength : data.length ≠ 0 := by rwa [Ne, List.length_eq_zero_iff]
  have hrest : (data ++ (crlf ++ t)).drop (data.length + 2) = t := by
    rw [← List.drop_drop, List.drop_left]
    rfl
  rw [readChunks, hcut]
  simp only [Option.bind_eq_bind, Option.bind_some, ofHex_hexadecimal]
  rw [List.drop_left, List.take_left, hrest, if_neg (by simp [crlf]), if_neg hlength]

/-- A body is read back from its pieces. -/
theorem readChunks_chunked {pieces : List Bytes} (hne : ∀ piece ∈ pieces, piece ≠ []) {fuel : Nat}
    (hfuel : pieces.length < fuel) (t : Bytes) :
    readChunks fuel (chunked pieces ++ t) = some (pieces.flatten, t) := by
  induction pieces generalizing fuel with
  | nil =>
    cases fuel with
    | zero => exact absurd hfuel (Nat.not_lt_zero _)
    | succ fuel => exact readChunks_last fuel t
  | cons piece pieces ih =>
    obtain ⟨hpiece, hrest⟩ := List.forall_mem_cons.mp hne
    cases fuel with
    | zero => exact absurd hfuel (Nat.not_lt_zero _)
    | succ fuel =>
      rw [chunked, List.flatMap_cons, List.append_assoc, List.append_assoc,
        ← List.append_assoc (pieces.flatMap chunk), ← chunked, readChunks_chunk fuel hpiece,
        ih hrest (Nat.lt_of_succ_lt_succ hfuel)]
      rfl

/-- Every piece takes a byte. -/
theorem length_chunked (pieces : List Bytes) : pieces.length < (chunked pieces).length := by
  rw [chunked, List.length_append]
  have hlast : 0 < lastChunk.length := by decide
  have hpieces : pieces.length ≤ (pieces.flatMap chunk).length := by
    induction pieces with
    | nil => exact Nat.zero_le _
    | cons piece pieces ih =>
      have hsize := List.length_pos_iff.mpr (hexadecimal_ne_nil piece.length)
      rw [List.flatMap_cons, List.length_append, List.length_cons, chunk, List.length_append]
      omega
  omega

end Bytes
