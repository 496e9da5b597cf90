import Mathlib.Data.List.Infix

/-! Byte strings, as programs that talk over sockets hold them. -/

abbrev Bytes := List UInt8

/-- The bytes of a literal. -/
def bytes (s : String) : Bytes := s.toUTF8.data.toList

namespace Bytes

/-- `std::to_string` of an unsigned number. -/
def decimal (n : Nat) : Bytes := (Nat.toDigits 10 n).map fun c => UInt8.ofNat c.toNat

/-- What stands before and after the first occurrence of `pat`. -/
def cut (pat : Bytes) : Bytes → Option (Bytes × Bytes)
  | [] => if pat = [] then some ([], []) else none
  | b :: rest =>
    if pat.isPrefixOf (b :: rest) then some ([], (b :: rest).drop pat.length)
    else (cut pat rest).map fun p => (b :: p.1, p.2)

/-- The lines, and whether a line feed ended them. -/
def lines : Bytes → List (Bytes × Bool)
  | [] => []
  | b :: rest =>
    if b = 10 then ([], true) :: lines rest
    else match lines rest with
      | [] => [([b], false)]
      | (line, ended) :: more => (b :: line, ended) :: more

end Bytes
