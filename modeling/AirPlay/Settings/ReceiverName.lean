import Mathlib.Data.List.DropRight
import Mathlib.Algebra.GroupWithZero.Nat
import AirPlay.Library.Utf8

/-! The receiver's name.

The name is part of a DNS-SD label, and is taken as it is or not at all: blanks around it
are dropped, and what remains is UTF-8 of at most 50 bytes without bytes that a label may
not hold. -/
namespace AirPlay.Settings

/-- `find_first_not_of`. -/
def findFirstNotOf (c : UInt8) (s : Bytes) : Option Nat := s.findIdx? (· ≠ c)

/-- `find_last_not_of`. -/
def findLastNotOf (c : UInt8) (s : Bytes) : Option Nat :=
  (s.reverse.findIdx? (· ≠ c)).map (s.length - 1 - ·)

/-- What a lead byte says: how many bytes follow it, the bits that it holds, and the least
code point that is written with that many. -/
structure Lead where
  count : Nat
  value : UInt32
  minimum : UInt32

def lead (c : UInt8) : Option Lead :=
  if c ≥ 0xc2 ∧ c ≤ 0xdf then some ⟨1, (c &&& 0x1f).toUInt32, 0x80⟩
  else if c ≥ 0xe0 ∧ c ≤ 0xef then some ⟨2, (c &&& 0x0f).toUInt32, 0x800⟩
  else if c ≥ 0xf0 ∧ c ≤ 0xf4 then some ⟨3, (c &&& 0x07).toUInt32, 0x10000⟩
  else none

/-- The bytes behind a lead byte. -/
def continuation : Nat → UInt32 → Bytes → Option (UInt32 × Bytes)
  | 0, value, s => some (value, s)
  | _ + 1, _, [] => none
  | count + 1, value, next :: s =>
    if next &&& 0xc0 ≠ 0x80 then none
    else continuation count ((value <<< 6) ||| (next &&& 0x3f).toUInt32) s

/-- A turn of the loop passes a character. -/
def turn (c : UInt8) (s : Bytes) : Option Bytes :=
  if c < 0x80 then
    if c < 0x20 ∨ c = 0x7f ∨ c = 46 ∨ c = 92 then none else some s
  else do
    let l ← lead c
    let (value, s) ← continuation l.count l.value s
    if value < l.minimum ∨ value > 0x10ffff ∨ (value ≥ 0xd800 ∧ value ≤ 0xdfff) then none
    else some s

theorem continuation_length {count : Nat} {value w : UInt32} {s rest : Bytes}
    (h : continuation count value s = some (w, rest)) : rest.length ≤ s.length := by
  induction count generalizing value s with
  | zero =>
    obtain ⟨-, rfl⟩ := Prod.mk.inj (Option.some.inj h)
    exact Nat.le_refl _
  | succ count ih =>
    cases s with
    | nil => exact absurd h (Option.some_ne_none _).symm
    | cons next s =>
      rw [continuation] at h
      split at h
      · exact absurd h (Option.some_ne_none _).symm
      · exact (ih h).trans (Nat.le_succ _)

theorem turn_length {c : UInt8} {s rest : Bytes} (h : turn c s = some rest) :
    rest.length ≤ s.length := by
  rw [turn] at h
  split at h
  · split at h
    · exact absurd h (Option.some_ne_none _).symm
    · exact (Option.some.inj h) ▸ Nat.le_refl _
  · obtain ⟨l, -, h⟩ := Option.bind_eq_some_iff.mp h
    obtain ⟨⟨value, s'⟩, hcontinuation, h⟩ := Option.bind_eq_some_iff.mp h
    simp only at h
    split at h
    · exact absurd h (Option.some_ne_none _).symm
    · exact (Option.some.inj h) ▸ continuation_length hcontinuation

/-- The loop comes to the end of the name. -/
def accepts : Bytes → Bool
  | [] => true
  | c :: s =>
    match _h : turn c s with
    | none => false
    | some rest => accepts rest
termination_by s => s.length
decreasing_by exact Nat.lt_succ_of_le (turn_length ‹_›)

def normalizeReceiverName (input : Bytes) : Bytes :=
  match findFirstNotOf 32 input, findLastNotOf 32 input with
  | some first, some last =>
    let name := (input.drop first).take (last - first + 1)
    if name.length > 50 then [] else if accepts name then name else []
  | _, _ => []

/-! ### Characters -/

/-- A byte that a label may hold: no control, no dot and no backslash. -/
def Plain (b : UInt8) : Prop := 0x20 ≤ b ∧ b ≠ 0x7f ∧ b ≠ 46 ∧ b ≠ 92

theorem toNat_shift {v : UInt32} (h : v.toNat * 64 < 2 ^ 32) (b : UInt8) :
    ((v <<< 6) ||| (b &&& 0x3f).toUInt32).toNat = v.toNat * 64 + b.toNat % 64 := by
  have hlow : (b &&& 0x3f).toUInt32.toNat = b.toNat % 64 := by
    rw [UInt8.toNat_toUInt32, UInt8.toNat_and]
    exact Nat.and_two_pow_sub_one_eq_mod b.toNat 6
  have hhigh : (v <<< 6).toNat = v.toNat <<< 6 := by
    rw [UInt32.toNat_shiftLeft]
    refine Nat.mod_eq_of_lt ?_
    rw [Nat.shiftLeft_eq]
    exact h
  rw [UInt32.toNat_or, hhigh, hlow, ← Nat.shiftLeft_add_eq_or_of_lt (Nat.mod_lt _ (by decide)),
    Nat.shiftLeft_eq]

theorem follows_iff (b : UInt8) : b &&& 0xc0 = 0x80 ↔ 0x80 ≤ b.toNat ∧ b.toNat < 0xc0 := by
  have hall : ∀ v : BitVec 8, v &&& 0xc0 = 0x80 ↔ 0x80 ≤ v.toNat ∧ v.toNat < 0xc0 := by
    decide +kernel
  rw [← UInt8.toBitVec_inj]
  exact hall b.toBitVec

/-- The loop over the bytes behind a lead byte reads a code point whose high bits it has. -/
theorem continuation_iff {count : Nat} {u w : UInt32} {s rest : Bytes}
    (hroom : (u.toNat + 1) * 64 ^ count ≤ 2 ^ 32) :
    continuation count u s = some (w, rest) ↔
      s = Utf8.tail w.toNat count ++ rest ∧ w.toNat / 64 ^ count = u.toNat := by
  induction count generalizing u s with
  | zero =>
    rw [continuation, Option.some.injEq, Prod.mk.injEq, and_comm, Nat.pow_zero, Nat.div_one,
      ← UInt32.toNat_inj, eq_comm (a := w.toNat)]
    rfl
  | succ count ih =>
    cases s with
    | nil =>
      refine iff_of_false (Option.some_ne_none _).symm ?_
      rintro ⟨hnil, -⟩
      exact absurd hnil (List.cons_ne_nil _ _).symm
    | cons b s =>
      have hhigh : (u.toNat + 1) * 64 ≤ 2 ^ 32 := by
        calc (u.toNat + 1) * 64 = (u.toNat + 1) * 64 * 1 := (Nat.mul_one _).symm
          _ ≤ (u.toNat + 1) * 64 * 64 ^ count := Nat.mul_le_mul_left _ (Nat.pow_pos (by decide))
          _ = (u.toNat + 1) * 64 ^ (count + 1) := by rw [Nat.mul_assoc, Nat.pow_succ']
          _ ≤ 2 ^ 32 := hroom
      have hvalue := toNat_shift (show u.toNat * 64 < 2 ^ 32 by omega) b
      have hnext : (u.toNat * 64 + b.toNat % 64 + 1) * 64 ^ count ≤ 2 ^ 32 := by
        calc (u.toNat * 64 + b.toNat % 64 + 1) * 64 ^ count
            ≤ ((u.toNat + 1) * 64) * 64 ^ count := Nat.mul_le_mul_right _ (by omega)
          _ = (u.toNat + 1) * 64 ^ (count + 1) := by rw [Nat.mul_assoc, Nat.pow_succ']
          _ ≤ 2 ^ 32 := hroom
      have hdiv : w.toNat / 64 ^ (count + 1) = w.toNat / 64 ^ count / 64 := by
        rw [Nat.pow_succ, Nat.div_div_eq_div_mul]
      rw [continuation, Utf8.tail, List.cons_append, List.cons.injEq, hdiv]
      split
      · rename_i hfollows
        refine iff_of_false (Option.some_ne_none _).symm ?_
        rintro ⟨⟨rfl, -⟩, -⟩
        rw [Ne, follows_iff, UInt8.toNat_ofNat'] at hfollows
        omega
      · rename_i hfollows
        rw [Ne, not_not, follows_iff] at hfollows
        rw [ih (hvalue ▸ hnext), hvalue, ← UInt8.toNat_inj, UInt8.toNat_ofNat']
        generalize w.toNat / 64 ^ count = q
        constructor
        · rintro ⟨hs, rfl⟩
          exact ⟨⟨by omega, hs⟩, by omega⟩
        · rintro ⟨⟨hb, hs⟩, hq⟩
          exact ⟨hs, by omega⟩

/-- The mask takes the mark off a lead byte. -/
theorem mask_iff {c : UInt8} {value : UInt32} {k mark : Nat} (hk : k < 8)
    (hmark : mark % 2 ^ k = 0) (hle : mark ≤ c.toNat) (hlt : c.toNat < mark + 2 ^ k) :
    value = (c &&& UInt8.ofNat (2 ^ k - 1)).toUInt32 ↔ c.toNat = value.toNat + mark := by
  have hpow : 2 ^ k < 2 ^ 8 := Nat.pow_lt_pow_right (by decide) hk
  have hmod : c.toNat % 2 ^ k = c.toNat - mark := by
    obtain ⟨r, hr⟩ := Nat.exists_eq_add_of_le hle
    rw [hr, Nat.add_mod, hmark, Nat.zero_add, Nat.mod_mod, Nat.mod_eq_of_lt (by omega),
      Nat.add_sub_cancel_left]
  rw [← UInt32.toNat_inj, UInt8.toNat_toUInt32, UInt8.toNat_and, UInt8.toNat_ofNat',
    Nat.mod_eq_of_lt (by omega), Nat.and_two_pow_sub_one_eq_mod, hmod]
  omega

/-- A lead byte holds the high bits of the characters of one length. -/
theorem lead_iff {c : UInt8} {count : Nat} {value minimum : UInt32} :
    lead c = some ⟨count, value, minimum⟩ ↔
      ∃ w ∈ Utf8.widths, count = w.count ∧ minimum.toNat = w.least ∧
        c.toNat = value.toNat + w.mark ∧ w.least / 64 ^ w.count ≤ value.toNat ∧
          value.toNat ≤ (w.limit - 1) / 64 ^ w.count := by
  have hsame : ∀ {n : Nat} {v m : UInt32}, (some (⟨n, v, m⟩ : Lead) = some ⟨count, value, minimum⟩ ↔
      count = n ∧ minimum.toNat = m.toNat ∧ value = v) := by
    intro n v m
    rw [Option.some.injEq, Lead.mk.injEq, UInt32.toNat_inj, eq_comm, eq_comm (a := v),
      eq_comm (a := m), and_comm (a := value = v)]
  have hfive := fun hle hlt => @mask_iff c value 5 0xc0 (by decide) (by decide) hle hlt
  have hfour := fun hle hlt => @mask_iff c value 4 0xe0 (by decide) (by decide) hle hlt
  have hthree := fun hle hlt => @mask_iff c value 3 0xf0 (by decide) (by decide) hle hlt
  rw [lead]
  simp only [ge_iff_le, UInt8.le_iff_toNat_le, UInt8.reduceToNat]
  constructor
  · intro h
    split at h
    · obtain ⟨hcount, hminimum, hvalue⟩ := hsame.mp h
      have hc := (hfive (by omega) (by omega)).mp hvalue
      refine ⟨_, Utf8.mem_widths.mpr (.inl rfl), hcount, hminimum, hc, ?_⟩
      simp only
      omega
    split at h
    · obtain ⟨hcount, hminimum, hvalue⟩ := hsame.mp h
      have hc := (hfour (by omega) (by omega)).mp hvalue
      refine ⟨_, Utf8.mem_widths.mpr (.inr (.inl rfl)), hcount, hminimum, hc, ?_⟩
      simp only
      omega
    split at h
    · obtain ⟨hcount, hminimum, hvalue⟩ := hsame.mp h
      have hc := (hthree (by omega) (by omega)).mp hvalue
      refine ⟨_, Utf8.mem_widths.mpr (.inr (.inr rfl)), hcount, hminimum, hc, ?_⟩
      simp only
      omega
    · exact absurd h (Option.some_ne_none _).symm
  · rintro ⟨w, hw, hcount, hminimum, hc, hlow, hhigh⟩
    rcases Utf8.mem_widths.mp hw with rfl | rfl | rfl
    · simp only at hc hlow hhigh
      rw [if_pos (by omega)]
      exact hsame.mpr ⟨hcount, hminimum, (hfive (by omega) (by omega)).mpr hc⟩
    · simp only at hc hlow hhigh
      rw [if_neg (by omega), if_pos (by omega)]
      exact hsame.mpr ⟨hcount, hminimum, (hfour (by omega) (by omega)).mpr hc⟩
    · simp only at hc hlow hhigh
      rw [if_neg (by omega), if_neg (by omega), if_pos (by omega)]
      exact hsame.mpr ⟨hcount, hminimum, (hthree (by omega) (by omega)).mpr hc⟩

theorem plain_of_high {b : UInt8} (h : 0x80 ≤ b.toNat) : Plain b := by
  refine ⟨UInt8.le_iff_toNat_le.mpr ((show 0x20 ≤ 0x80 by decide).trans h), ?_, ?_, ?_⟩ <;>
    · rintro rfl
      exact absurd h (by decide)

theorem plain_tail (v n : Nat) : ∀ b ∈ Utf8.tail v n, Plain b := by
  induction n with
  | zero => exact fun b hb => absurd hb List.not_mem_nil
  | succ n ih =>
    intro b hb
    rcases List.mem_cons.mp hb with rfl | hb
    · apply plain_of_high
      rw [UInt8.toNat_ofNat']
      omega
    · exact ih b hb

theorem not_plain_iff {c : UInt8} : ¬ Plain c ↔ c < 0x20 ∨ c = 0x7f ∨ c = 46 ∨ c = 92 := by
  rw [Plain, not_and_or, not_and_or, not_and_or, not_not, not_not, not_not, UInt8.not_le]

/-- The lead byte of a character beyond ASCII has its high bit. -/
theorem encode_high {ch : Char} (h : 0x80 ≤ ch.toNat) {c : UInt8} {s rest : Bytes}
    (hs : c :: s = String.utf8EncodeChar ch ++ rest) :
    ∃ w ∈ Utf8.widths, w.least ≤ ch.toNat ∧ ch.toNat < w.limit ∧
      c.toNat = ch.toNat / 64 ^ w.count + w.mark ∧ s = Utf8.tail ch.toNat w.count ++ rest := by
  obtain ⟨w, hw, hleast, hlimit⟩ := Utf8.exists_width h
  rw [Utf8.encode_long hw hleast hlimit, List.cons_append] at hs
  obtain ⟨hc, hs⟩ := List.cons.inj hs
  refine ⟨w, hw, hleast, hlimit, ?_, hs⟩
  rw [hc, UInt8.toNat_ofNat']
  apply Nat.mod_eq_of_lt
  rcases Utf8.mem_widths.mp hw with rfl | rfl | rfl <;> simp only at hlimit ⊢ <;> omega

theorem turn_ascii {c : UInt8} (hc : c.toNat < 0x80) {s rest : Bytes} :
    turn c s = some rest ↔ Plain c ∧ s = rest := by
  rw [turn, if_pos (UInt8.lt_iff_toNat_lt.mpr hc)]
  split
  · rename_i hbad
    exact iff_of_false (Option.some_ne_none _).symm fun h => not_plain_iff.mpr hbad h.1
  · rename_i hgood
    rw [Option.some.injEq]
    exact (and_iff_right (not_not.mp fun h => hgood (not_plain_iff.mp h))).symm

section Lead
variable {c : UInt8} {s rest : Bytes}

theorem width_room {w : Utf8.Width} (hw : w ∈ Utf8.widths) {n : Nat}
    (h : n ≤ (w.limit - 1) / 64 ^ w.count) : (n + 1) * 64 ^ w.count ≤ 2 ^ 32 := by
  rcases Utf8.mem_widths.mp hw with rfl | rfl | rfl <;> simp only at h ⊢ <;> omega

/-- What a turn passes behind a lead byte is a character. -/
theorem char_of_turn (hc : 0x80 ≤ c.toNat) (h : turn c s = some rest) :
    ∃ ch : Char, 0x80 ≤ ch.toNat ∧ c :: s = String.utf8EncodeChar ch ++ rest := by
  have hascii : ¬ c < 0x80 := fun hlt => absurd (UInt8.lt_iff_toNat_lt.mp hlt) (Nat.not_lt.mpr hc)
  rw [turn, if_neg hascii] at h
  obtain ⟨⟨count, value, minimum⟩, hlead, h⟩ := Option.bind_eq_some_iff.mp h
  obtain ⟨⟨v, s'⟩, hcontinuation, h⟩ := Option.bind_eq_some_iff.mp h
  obtain ⟨w, hw, rfl, hminimum, hmark, hlow, hhigh⟩ := lead_iff.mp hlead
  obtain ⟨hs, hvalue⟩ := (continuation_iff (width_room hw hhigh)).mp hcontinuation
  simp only at h
  split at h
  · exact absurd h (Option.some_ne_none _).symm
  rename_i hrange
  simp only [gt_iff_lt, ge_iff_le, UInt32.lt_iff_toNat_lt, UInt32.le_iff_toNat_le,
    UInt32.reduceToNat, hminimum] at hrange
  have hvalid : v.isValidChar := by
    show v.toNat < 0xd800 ∨ 0xdfff < v.toNat ∧ v.toNat < 0x110000
    omega
  have hleast : w.least ≤ v.toNat := Nat.le_of_not_lt fun hlt => hrange (.inl hlt)
  have hlimit : v.toNat < w.limit := by
    rcases Utf8.mem_widths.mp hw with rfl | rfl | rfl <;> simp only at hhigh hvalue ⊢ <;> omega
  have hencode : String.utf8EncodeChar ⟨v, hvalid⟩ =
      UInt8.ofNat (v.toNat / 64 ^ w.count + w.mark) :: Utf8.tail v.toNat w.count :=
    Utf8.encode_long hw hleast hlimit
  have hbyte : UInt8.ofNat (v.toNat / 64 ^ w.count + w.mark) = c := by
    rw [hvalue, ← hmark, UInt8.ofNat_toNat]
  refine ⟨⟨v, hvalid⟩, (Utf8.least_le hw).trans hleast, ?_⟩
  rw [hencode, hbyte, hs, Option.some.inj h, List.cons_append]

theorem turn_char {ch : Char} (hch : 0x80 ≤ ch.toNat)
    (hs : c :: s = String.utf8EncodeChar ch ++ rest) : turn c s = some rest := by
  obtain ⟨w, hw, hleast, hlimit, hmark, hs⟩ := encode_high hch hs
  have hvalue : (UInt32.ofNat (ch.toNat / 64 ^ w.count)).toNat = ch.toNat / 64 ^ w.count :=
    UInt32.toNat_ofNat_of_lt' ((Nat.div_le_self _ _).trans_lt ch.val.toNat_lt)
  have hminimum : (UInt32.ofNat w.least).toNat = w.least := by
    rcases Utf8.mem_widths.mp hw with rfl | rfl | rfl <;> rfl
  have hhigh : ch.toNat / 64 ^ w.count ≤ (w.limit - 1) / 64 ^ w.count :=
    Nat.div_le_div_right (Nat.le_sub_one_of_lt hlimit)
  have hlead : lead c = some ⟨w.count, UInt32.ofNat (ch.toNat / 64 ^ w.count),
      UInt32.ofNat w.least⟩ :=
    lead_iff.mpr ⟨w, hw, rfl, hminimum, by rw [hvalue, hmark],
      hvalue.symm ▸ Nat.div_le_div_right hleast, hvalue.symm ▸ hhigh⟩
  have hcontinuation : continuation w.count (UInt32.ofNat (ch.toNat / 64 ^ w.count)) s =
      some (ch.val, rest) :=
    (continuation_iff (width_room hw (hvalue.symm ▸ hhigh))).mpr ⟨hs, hvalue.symm⟩
  have hc : ¬ c < 0x80 := by
    rw [UInt8.lt_iff_toNat_lt, hmark]
    rcases Utf8.mem_widths.mp hw with rfl | rfl | rfl <;>
      simp only [UInt8.reduceToNat] <;> omega
  rw [turn, if_neg hc, hlead]
  show (continuation w.count (UInt32.ofNat (ch.toNat / 64 ^ w.count)) s).bind _ = _
  rw [hcontinuation]
  refine if_neg ?_
  have hvalid : ch.toNat < 0xd800 ∨ 0xdfff < ch.toNat ∧ ch.toNat < 0x110000 := ch.valid
  have hnat : ch.val.toNat = ch.toNat := rfl
  simp only [gt_iff_lt, ge_iff_le, UInt32.lt_iff_toNat_lt, UInt32.le_iff_toNat_le,
    UInt32.reduceToNat, hminimum]
  omega

end Lead

/-- A turn passes a character that a label may hold. -/
theorem turn_iff {c : UInt8} {s rest : Bytes} :
    turn c s = some rest ↔ ∃ ch : Char, c :: s = String.utf8EncodeChar ch ++ rest ∧
      ∀ b ∈ String.utf8EncodeChar ch, Plain b := by
  constructor
  · intro h
    rcases Nat.lt_or_ge c.toNat 0x80 with hlow | hhigh
    · obtain ⟨hplain, rfl⟩ := (turn_ascii hlow).mp h
      obtain ⟨ch, hch⟩ : ∃ ch : Char, ch.toNat = c.toNat :=
        ⟨⟨c.toUInt32, .inl (hlow.trans (by decide))⟩, rfl⟩
      have hencode : String.utf8EncodeChar ch = [c] := by
        rw [Utf8.encode_ascii (hch ▸ hlow), hch, UInt8.ofNat_toNat]
      refine ⟨ch, by rw [hencode, List.singleton_append], fun b hb => ?_⟩
      rw [hencode, List.mem_singleton] at hb
      exact hb ▸ hplain
    · obtain ⟨ch, hch, hs⟩ := char_of_turn hhigh h
      refine ⟨ch, hs, ?_⟩
      obtain ⟨w, hw, hleast, hlimit⟩ := Utf8.exists_width hch
      rw [Utf8.encode_long hw hleast hlimit] at hs ⊢
      intro b hb
      rcases List.mem_cons.mp hb with rfl | hb
      · exact plain_of_high ((List.cons.inj hs).1 ▸ hhigh)
      · exact plain_tail _ _ b hb
  · rintro ⟨ch, hs, hplain⟩
    rcases Nat.lt_or_ge ch.toNat 0x80 with hlow | hhigh
    · rw [Utf8.encode_ascii hlow] at hs hplain
      obtain ⟨rfl, rfl⟩ := List.cons.inj hs
      refine (turn_ascii ?_).mpr ⟨hplain _ List.mem_cons_self, rfl⟩
      rw [UInt8.toNat_ofNat']
      omega
    · exact turn_char hhigh hs

/-- A row of characters that a label may hold is passed character by character. -/
theorem turn_chars {c : UInt8} {s : Bytes} {cs : List Char}
    (hs : c :: s = cs.flatMap String.utf8EncodeChar) (hplain : ∀ b ∈ c :: s, Plain b) :
    ∃ cs' : List Char, turn c s = some (cs'.flatMap String.utf8EncodeChar) := by
  cases cs with
  | nil => exact absurd hs (List.cons_ne_nil c s)
  | cons ch cs =>
    rw [List.flatMap_cons] at hs
    refine ⟨cs, turn_iff.mpr ⟨ch, hs, fun b hb => hplain b ?_⟩⟩
    rw [hs]
    exact List.mem_append_left _ hb

/-- The loop comes to the end of a row of characters that a label may hold. -/
theorem accepts_iff (s : Bytes) :
    accepts s = true ↔
      (∃ cs : List Char, s = cs.flatMap String.utf8EncodeChar) ∧ ∀ b ∈ s, Plain b := by
  fun_induction accepts s with
  | case1 => exact iff_of_true rfl ⟨⟨[], rfl⟩, fun b hb => absurd hb List.not_mem_nil⟩
  | case2 c s h =>
    refine iff_of_false Bool.false_ne_true ?_
    rintro ⟨⟨cs, hcs⟩, hplain⟩
    obtain ⟨cs', hturn⟩ := turn_chars hcs hplain
    exact absurd (h.symm.trans hturn) (Option.some_ne_none _).symm
  | case3 c s rest h ih =>
    obtain ⟨ch, hs, hch⟩ := turn_iff.mp h
    rw [ih]
    constructor
    · rintro ⟨⟨cs, rfl⟩, hplain⟩
      refine ⟨⟨ch :: cs, hs⟩, fun b hb => ?_⟩
      rw [hs] at hb
      exact (List.mem_append.mp hb).elim (hch b) (hplain b)
    · rintro ⟨⟨cs, hcs⟩, hplain⟩
      obtain ⟨cs', hturn⟩ := turn_chars hcs hplain
      refine ⟨⟨cs', Option.some.inj (h.symm.trans hturn)⟩, fun b hb => hplain b ?_⟩
      rw [hs]
      exact List.mem_append_right _ hb

/-! ### Names -/

/-- The text without the blanks around it. -/
def trim (s : Bytes) : Bytes := (s.dropWhile (· = 32)).rdropWhile (· = 32)

/-- A name that a label can hold behind the address of the device. -/
structure ValidName (t : Bytes) : Prop where
  ne_nil : t ≠ []
  length_le : t.length ≤ 50
  utf8 : ∃ cs : List Char, t = cs.flatMap String.utf8EncodeChar
  plain : ∀ b ∈ t, Plain b

theorem blanks (s : Bytes) :
    ∃ m, s = List.replicate m 32 ++ s.dropWhile (· = 32) ∧
      (s.dropWhile (· = 32)).head? ≠ some 32 := by
  induction s with
  | nil => exact ⟨0, rfl, (Option.some_ne_none _).symm⟩
  | cons b s ih =>
    by_cases hb : b = 32
    · obtain ⟨m, hs, hhead⟩ := ih
      have hdrop : (b :: s).dropWhile (· = 32) = s.dropWhile (· = 32) :=
        List.dropWhile_cons_of_pos (decide_eq_true hb)
      rw [hdrop]
      refine ⟨m + 1, ?_, hhead⟩
      rw [List.replicate_succ, List.cons_append, ← hs, hb]
    · have hdrop : (b :: s).dropWhile (· = 32) = b :: s :=
        List.dropWhile_cons_of_neg (by simpa using hb)
      rw [hdrop]
      exact ⟨0, rfl, fun h => hb (Option.some.inj h)⟩

/-- What stands around the trimmed text, and that it is trimmed. -/
theorem trim_spec (s : Bytes) :
    (∃ m n, s = List.replicate m 32 ++ (trim s ++ List.replicate n 32)) ∧
      (trim s).head? ≠ some 32 ∧ (trim s).getLast? ≠ some 32 := by
  obtain ⟨m, hm, hhead⟩ := blanks s
  obtain ⟨n, hn, hlast⟩ := blanks (s.dropWhile (· = 32)).reverse
  have htrim : s.dropWhile (· = 32) = trim s ++ List.replicate n 32 := by
    rw [← List.reverse_reverse (s.dropWhile (· = 32)), hn, List.reverse_append,
      List.reverse_replicate]
    rfl
  refine ⟨⟨m, n, by rw [← htrim]; exact hm⟩, fun h => hhead ?_, ?_⟩
  · rw [htrim, List.head?_append, h, Option.some_or]
  · rwa [trim, List.rdropWhile, List.getLast?_reverse]

theorem findIdx_replicate_append (m : Nat) {t : Bytes} (hne : t ≠ []) (ht : t.head? ≠ some 32)
    (u : Bytes) : (List.replicate m 32 ++ (t ++ u)).findIdx? (· ≠ 32) = some m := by
  cases t with
  | nil => exact absurd rfl hne
  | cons b t =>
    have hb : b ≠ 32 := fun h => ht (congrArg some h)
    rw [List.findIdx?_append, List.findIdx?_replicate]
    simp [List.findIdx?_cons, hb]

/-- The loop is about the trimmed text. -/
theorem normalizeReceiverName_eq (s : Bytes) :
    normalizeReceiverName s =
      if (trim s).length > 50 then [] else if accepts (trim s) then trim s else [] := by
  obtain ⟨⟨m, n, hs⟩, hhead, hlast⟩ := trim_spec s
  generalize trim s = t at hs hhead hlast
  subst hs
  by_cases hne : t = []
  · subst hne
    have hnone : findFirstNotOf 32 (List.replicate m 32 ++ ([] ++ List.replicate n 32)) = none := by
      rw [List.nil_append, List.replicate_append_replicate, findFirstNotOf, List.findIdx?_replicate]
      exact if_neg fun h => absurd h.2 (by decide)
    rw [normalizeReceiverName, hnone]
    simp
  · have hfirst : findFirstNotOf 32 (List.replicate m 32 ++ (t ++ List.replicate n 32)) = some m :=
      findIdx_replicate_append m hne hhead _
    have hlast : findLastNotOf 32 (List.replicate m 32 ++ (t ++ List.replicate n 32)) =
        some (m + (t.length - 1)) := by
      have hreverse : (List.replicate m 32 ++ (t ++ List.replicate n 32)).reverse =
          List.replicate n 32 ++ (t.reverse ++ List.replicate m 32) := by
        rw [List.reverse_append, List.reverse_append, List.reverse_replicate,
          List.reverse_replicate, List.append_assoc]
      rw [findLastNotOf, hreverse, findIdx_replicate_append n (mt List.reverse_eq_nil_iff.mp hne)
        (by rwa [List.head?_reverse]), Option.map_some, List.length_append, List.length_append,
        List.length_replicate, List.length_replicate]
      have hpos := List.length_pos_of_ne_nil hne
      congr 1
      omega
    have hname : ((List.replicate m 32 ++ (t ++ List.replicate n 32)).drop m).take
        (m + (t.length - 1) - m + 1) = t := by
      have hpos := List.length_pos_of_ne_nil hne
      rw [List.drop_left' List.length_replicate, List.take_left' (by omega)]
    rw [normalizeReceiverName, hfirst, hlast]
    simp only [hname]

/-- A name is valid where it is not refused. -/
theorem validName_iff (t : Bytes) :
    ValidName t ↔ t ≠ [] ∧ ¬ t.length > 50 ∧ accepts t = true := by
  rw [accepts_iff, Nat.not_lt]
  exact ⟨fun h => ⟨h.ne_nil, h.length_le, h.utf8, h.plain⟩,
    fun ⟨hne, hlength, hutf8, hplain⟩ => ⟨hne, hlength, hutf8, hplain⟩⟩

theorem trim_trim (s : Bytes) : trim (trim s) = trim s := by
  obtain ⟨-, hhead, hlast⟩ := trim_spec s
  generalize trim s = t at hhead hlast
  have hdrop : t.dropWhile (· = 32) = t := by
    cases t with
    | nil => rfl
    | cons b t => exact List.dropWhile_cons_of_neg (by simpa using hhead)
  rw [trim, hdrop, List.rdropWhile_eq_self_iff]
  intro hne h
  rw [List.getLast?_eq_some_getLast hne] at hlast
  exact hlast (congrArg some (of_decide_eq_true h))

/-- What comes of a text: nothing, or the valid name between its blanks. -/
theorem normalizeReceiverName_cases (s : Bytes) :
    normalizeReceiverName s = [] ∧ ¬ ValidName (trim s) ∨
      normalizeReceiverName s = trim s ∧ ValidName (trim s) := by
  rw [normalizeReceiverName_eq, validName_iff]
  split
  · rename_i hlong
    exact .inl ⟨rfl, fun h => h.2.1 hlong⟩
  rename_i hlength
  split
  · rename_i haccepts
    by_cases hne : trim s = []
    · exact .inl ⟨hne, fun h => h.1 hne⟩
    · exact .inr ⟨rfl, hne, hlength, haccepts⟩
  · rename_i haccepts
    exact .inl ⟨rfl, fun h => haccepts h.2.2⟩

theorem normalizeReceiverName_twice (s : Bytes) :
    normalizeReceiverName (normalizeReceiverName s) = normalizeReceiverName s := by
  rcases normalizeReceiverName_cases s with ⟨hnil, -⟩ | ⟨htrim, -⟩
  · rw [hnil]
    rfl
  · rw [htrim, normalizeReceiverName_eq, trim_trim, ← normalizeReceiverName_eq, htrim]

/-- A valid name is taken without the blanks around it, and any other is refused; what is
taken once is taken again. -/
theorem normalizeReceiverName_spec (s : Bytes) :
    (normalizeReceiverName s ≠ [] ↔ ValidName (trim s)) ∧
      (normalizeReceiverName s ≠ [] → normalizeReceiverName s = trim s) ∧
      normalizeReceiverName (normalizeReceiverName s) = normalizeReceiverName s := by
  refine ⟨?_, ?_, normalizeReceiverName_twice s⟩
  · rcases normalizeReceiverName_cases s with ⟨hnil, hvalid⟩ | ⟨htrim, hvalid⟩
    · exact iff_of_false (not_not_intro hnil) hvalid
    · rw [htrim]
      exact iff_of_true hvalid.ne_nil hvalid
  · intro hne
    rcases normalizeReceiverName_cases s with ⟨hnil, -⟩ | ⟨htrim, -⟩
    · exact absurd hnil hne
    · exact htrim

end AirPlay.Settings
