import Mathlib.Data.Nat.Bitwise
import AirPlay.Library.Fields
import AirPlay.Video.Decoder

/-! The NAL units of a mirror frame.

A frame's payload brings NAL units, each behind its length. The reader walks them and
writes the start code over each length it has walked by, in the same buffer
(`parse_records`). A buffer that is nothing but such units is accepted, and its units
say where the lengths stood (`restore_annexb`). -/
namespace AirPlay.Mirror
open Bytes
open Video.Decoder (kStartCode annexbNal)

/-- The codec, by which the NAL unit's header is read. -/
inductive NalCodec
  | h264 | hevc
  deriving DecidableEq

/-- One NAL unit found inside a decrypted mirror frame payload. -/
structure NalUnit where
  type : Nat
  refIdc : Nat
  offset : Nat
  size : Nat
  deriving DecidableEq

def nalLen (p : Bytes) (pos : Nat) : UInt32 :=
  (p.getD pos 0).toUInt32 <<< 24 ||| (p.getD (pos + 1) 0).toUInt32 <<< 16 |||
    (p.getD (pos + 2) 0).toUInt32 <<< 8 ||| (p.getD (pos + 3) 0).toUInt32

def nalUnit (codec : NalCodec) (nh : UInt8) (offset size : Nat) : NalUnit :=
  match codec with
  | .h264 => {refIdc := (nh >>> 5 &&& 0x03).toNat, type := (nh &&& 0x1f).toNat, offset, size}
  | .hevc => {refIdc := 0, type := (nh >>> 1 &&& 0x3f).toNat, offset, size}

/-- The four stores that overwrite a length. -/
def storeStartCode (p : Bytes) (pos : Nat) : Bytes :=
  (((p.set pos 0x00).set (pos + 1) 0x00).set (pos + 2) 0x00).set (pos + 3) 0x01

@[simp] theorem length_storeStartCode (p : Bytes) (pos : Nat) :
    (storeStartCode p pos).length = p.length := by
  simp only [storeStartCode, List.length_set]

/-- The loop of `parse_nals_avcc_to_annexb`: what it returns, the buffer and the units. -/
def nalLoop (codec : NalCodec) (p : Bytes) (pos : Nat) (out : List NalUnit) :
    Bool × Bytes × List NalUnit :=
  if pos < p.length then
    if pos + 4 > p.length then (false, p, out)
    else if nalLen p pos = 0 ∨ pos + 4 + (nalLen p pos).toNat > p.length then (false, p, out)
    else if p.getD (pos + 4) 0 &&& 0x80 ≠ 0 then (false, p, out)
    else
      nalLoop codec (storeStartCode p pos) (pos + 4 + (nalLen p pos).toNat)
        (out ++ [nalUnit codec (p.getD (pos + 4) 0) (pos + 4) (nalLen p pos).toNat])
  else (true, p, out)
termination_by p.length - pos
decreasing_by
  rw [length_storeStartCode]
  omega

def parseNalsAvccToAnnexb (codec : NalCodec) (p : Bytes) : Bool × Bytes × List NalUnit :=
  nalLoop codec p 0 []

/-! ### Records -/

/-- A NAL unit with the length it is sent behind: it is not empty, and bit 7 of its first
byte is clear. -/
structure Record extends Field 4 where
  nonempty : data ≠ []
  clear : (data.head nonempty).toNat < 128

/-- What the header byte of a NAL unit says. -/
def Record.unit (codec : NalCodec) (start : Nat) (r : Record) : NalUnit :=
  let header := (r.data.head r.nonempty).toNat
  match codec with
  | .h264 =>
    {type := header % 32, refIdc := header / 32 % 4, offset := start + 4, size := r.data.length}
  | .hevc =>
    {type := header / 2 % 64, refIdc := 0, offset := start + 4, size := r.data.length}

/-- The units of records that follow each other from `start` on. -/
def units (codec : NalCodec) : Nat → List Record → List NalUnit
  | _, [] => []
  | start, r :: rs => r.unit codec start :: units codec (start + 4 + r.data.length) rs

/-- The payload as it is sent. -/
def avcc (rs : List Record) : Bytes := rs.flatMap (·.encode)

/-- The payload as a decoder takes it. -/
def annexb (rs : List Record) : Bytes := rs.flatMap fun r => annexbNal r.data

/-- Every size is written back in front of its NAL unit. -/
def restore (p : Bytes) (us : List NalUnit) : Bytes :=
  us.foldl (fun p u => overwrite p (u.offset - 4) (toBe 4 u.size)) p

/-- No record stands at the head. -/
def Malformed (rest : Bytes) : Prop := ∀ (r : Record) (more : Bytes), rest ≠ r.encode ++ more

theorem avcc_cons (r : Record) (rs : List Record) : avcc (r :: rs) = r.encode ++ avcc rs :=
  List.flatMap_cons

theorem annexb_cons (r : Record) (rs : List Record) :
    annexb (r :: rs) = annexbNal r.data ++ annexb rs := List.flatMap_cons

/-! ### Reading and writing at a position -/

theorem toNat_nalLen (a s : Bytes) (h : 4 ≤ s.length) :
    (nalLen (a ++ s) a.length).toNat = ofBe (s.take 4) := by
  match s, h with
  | b₀ :: b₁ :: b₂ :: b₃ :: s, _ =>
    have hget : nalLen (a ++ (b₀ :: b₁ :: b₂ :: b₃ :: s)) a.length = be32 b₀ b₁ b₂ b₃ := by
      rw [nalLen, getD_append_add, getD_append_add, getD_append_add, getD_append_cons]
      rfl
    rw [hget, toNat_be32]
    rfl

theorem storeStartCode_append {old : Bytes} (h : old.length = 4) (a b : Bytes) :
    storeStartCode (a ++ (old ++ b)) a.length = a ++ (kStartCode ++ b) := by
  match old, h with
  | [_, _, _, _], _ => simp [storeStartCode, kStartCode]

theorem clear_iff (b : UInt8) : b &&& 0x80 ≠ 0 ↔ ¬ b.toNat < 128 := by
  have hlt := b.toNat_lt
  rw [Ne, ← UInt8.toNat_inj, UInt8.toNat_and]
  show ¬ b.toNat &&& 2 ^ 7 = 0 ↔ _
  rw [Nat.and_two_pow, Nat.testBit_eq_decide_div_mod_eq]
  have hdiv : b.toNat / 2 ^ 7 % 2 = b.toNat / 128 := by omega
  rw [hdiv]
  by_cases h : b.toNat < 128
  · simp [h, Nat.div_eq_of_lt h]
  · have : b.toNat / 128 = 1 := by omega
    simp [h, this]

theorem nalUnit_eq (codec : NalCodec) (start : Nat) (r : Record) :
    nalUnit codec (r.data.head r.nonempty) (start + 4) r.data.length = r.unit codec start := by
  have hlow : ∀ n k : Nat, n &&& 2 ^ k - 1 = n % 2 ^ k := Nat.and_two_pow_sub_one_eq_mod
  cases codec with
  | h264 =>
    simp only [nalUnit, Record.unit, UInt8.toNat_and, UInt8.toNat_shiftRight]
    rw [show (3 : UInt8).toNat = 2 ^ 2 - 1 from rfl, show (0x1f : UInt8).toNat = 2 ^ 5 - 1 from rfl,
      hlow, hlow, Nat.shiftRight_eq_div_pow]
    rfl
  | hevc =>
    simp only [nalUnit, Record.unit, UInt8.toNat_and, UInt8.toNat_shiftRight]
    rw [show (0x3f : UInt8).toNat = 2 ^ 6 - 1 from rfl, hlow, Nat.shiftRight_eq_div_pow]
    rfl

/-! ### The walk -/

theorem Record.data_pos (r : Record) : 0 < r.data.length := List.length_pos_of_ne_nil r.nonempty

/-- The header of a NAL unit is its first byte. -/
theorem getD_header (a b : Bytes) {f : Field 4} (hne : f.data ≠ []) :
    (a ++ (f.encode ++ b)).getD (a.length + 4) 0 = f.data.head hne := by
  rw [getD_append_add, List.getD_eq_getElem?_getD, ← List.head?_drop, f.drop_encode,
    List.head?_append_of_ne_nil _ hne, List.head?_eq_some_head hne]
  rfl

/-- One record: it is reported, its length is overwritten, and the walk goes on behind it. -/
theorem nalLoop_record (codec : NalCodec) (a b : Bytes) (r : Record) (out : List NalUnit) :
    nalLoop codec (a ++ (r.encode ++ b)) a.length out =
      nalLoop codec ((a ++ annexbNal r.data) ++ b) (a ++ annexbNal r.data).length
        (out ++ [r.unit codec a.length]) := by
  have hpos := r.data_pos
  have hlength : (a ++ (r.encode ++ b)).length = a.length + (4 + r.data.length + b.length) := by
    rw [List.length_append, List.length_append, r.length_encode]
  have hlen : (nalLen (a ++ (r.encode ++ b)) a.length).toNat = r.data.length := by
    rw [toNat_nalLen _ _ (by rw [List.length_append, r.length_encode]; omega),
      r.ofBe_take_encode]
  have hne : nalLen (a ++ (r.encode ++ b)) a.length ≠ 0 := by
    intro h
    rw [h] at hlen
    exact absurd hlen.symm hpos.ne'
  have hheader : (a ++ (r.encode ++ b)).getD (a.length + 4) 0 = r.data.head r.nonempty :=
    getD_header a b r.nonempty
  have hclear : ¬ r.data.head r.nonempty &&& 0x80 ≠ 0 := by
    rw [clear_iff]
    exact not_not_intro r.clear
  have hstore : storeStartCode (a ++ (r.encode ++ b)) a.length = (a ++ annexbNal r.data) ++ b := by
    rw [Field.encode, List.append_assoc, storeStartCode_append (length_toBe 4 _)]
    simp only [annexbNal, List.append_assoc]
  have hnext : a.length + 4 + r.data.length = (a ++ annexbNal r.data).length := by
    rw [List.length_append, annexbNal, List.length_append, Nat.add_assoc]
    rfl
  conv => lhs; rw [nalLoop]
  rw [hlength, if_pos (by omega), if_neg (by omega), hlen, if_neg (not_or.mpr ⟨hne, by omega⟩),
    hheader, if_neg hclear, hstore, nalUnit_eq, hnext]

/-- At a malformed record the walk ends. -/
theorem nalLoop_malformed (codec : NalCodec) (a : Bytes) {rest : Bytes} (hne : rest ≠ [])
    (h : Malformed rest) (out : List NalUnit) :
    nalLoop codec (a ++ rest) a.length out = (false, a ++ rest, out) := by
  have hpos := List.length_pos_of_ne_nil hne
  rw [nalLoop, List.length_append, if_pos (by omega)]
  by_cases hfour : 4 ≤ rest.length
  · rw [if_neg (by omega)]
    by_cases hlen : nalLen (a ++ rest) a.length = 0 ∨
        a.length + 4 + (nalLen (a ++ rest) a.length).toNat > a.length + rest.length
    · rw [if_pos hlen]
    rw [if_neg hlen, if_pos]
    rw [not_or, toNat_nalLen a rest hfour] at hlen
    obtain ⟨hnonzero, hfits⟩ := hlen
    obtain ⟨f, more, rfl⟩ := @Field.exists_encode 4 rest hfour (by omega)
    have hdata : f.data ≠ [] := by
      intro hnil
      apply hnonzero
      apply UInt32.toNat_inj.mp
      rw [toNat_nalLen a _ hfour, f.ofBe_take_encode, hnil]
      rfl
    rw [getD_header a more hdata]
    exact (clear_iff _).mpr fun hclear => h ⟨f, hdata, hclear⟩ more rfl
  · rw [if_pos (by omega)]

theorem nalLoop_end (codec : NalCodec) (p : Bytes) (out : List NalUnit) :
    nalLoop codec p p.length out = (true, p, out) := by
  rw [nalLoop, if_neg (Nat.lt_irrefl _)]

/-- Over records the walk converts each of them, whatever follows them. -/
theorem nalLoop_records (codec : NalCodec) (a rest : Bytes) (rs : List Record)
    (out : List NalUnit) :
    nalLoop codec (a ++ (avcc rs ++ rest)) a.length out =
      nalLoop codec ((a ++ annexb rs) ++ rest) (a ++ annexb rs).length
        (out ++ units codec a.length rs) := by
  induction rs generalizing a out with
  | nil => simp only [avcc, annexb, units, List.flatMap_nil, List.nil_append, List.append_nil]
  | cons r rs ih =>
    have hstart : (a ++ annexbNal r.data).length = a.length + 4 + r.data.length := by
      rw [List.length_append, annexbNal, List.length_append, Nat.add_assoc]
      rfl
    rw [avcc_cons, List.append_assoc, nalLoop_record, ih, hstart]
    simp only [annexb_cons, units, List.append_assoc, List.singleton_append]

/-- A buffer is records up to its end or to a malformed one. -/
theorem exists_records (p : Bytes) :
    ∃ (rs : List Record) (rest : Bytes), p = avcc rs ++ rest ∧ Malformed rest := by
  induction h : p.length using Nat.strongRecOn generalizing p with
  | ind n ih =>
    by_cases hmal : Malformed p
    · exact ⟨[], p, rfl, hmal⟩
    · obtain ⟨r, hr⟩ := not_forall.mp hmal
      obtain ⟨more, hmore⟩ := not_forall.mp hr
      obtain rfl := not_not.mp hmore
      have hshorter : more.length < n := by
        rw [← h, List.length_append, r.length_encode]
        omega
      obtain ⟨rs, rest, rfl, hrest⟩ := ih _ hshorter more rfl
      exact ⟨r :: rs, rest, by rw [avcc_cons, List.append_assoc], hrest⟩

/-- What the parser makes of records and of what follows them. -/
theorem parse_records (codec : NalCodec) (rs : List Record) {rest : Bytes}
    (hrest : Malformed rest) :
    parseNalsAvccToAnnexb codec (avcc rs ++ rest) =
      (decide (rest = []), annexb rs ++ rest, units codec 0 rs) := by
  have hwalk := nalLoop_records codec [] rest rs []
  rw [List.nil_append, List.nil_append, List.nil_append] at hwalk
  rw [parseNalsAvccToAnnexb]
  refine hwalk.trans ?_
  by_cases hne : rest = []
  · rw [hne, List.append_nil, nalLoop_end]
    rfl
  · rw [nalLoop_malformed codec (annexb rs) hne hrest, decide_eq_false hne]
    rfl

theorem malformed_nil : Malformed [] := by
  intro r more h
  have hlength := congrArg List.length h
  rw [List.length_append, r.length_encode, List.length_nil] at hlength
  omega

/-- The sizes say where the lengths stood. -/
theorem restore_records (codec : NalCodec) (a rest : Bytes) (rs : List Record) :
    restore (a ++ (annexb rs ++ rest)) (units codec a.length rs) = a ++ (avcc rs ++ rest) := by
  induction rs generalizing a with
  | nil => rfl
  | cons r rs ih =>
    have hunit : (r.unit codec a.length).offset - 4 = a.length ∧
        (r.unit codec a.length).size = r.data.length := by
      cases codec <;> exact ⟨rfl, rfl⟩
    have hstart : a.length + 4 + r.data.length = (a ++ r.encode).length := by
      rw [List.length_append, r.length_encode, Nat.add_assoc]
    have hcode : (toBe 4 r.data.length).length = kStartCode.length := length_toBe 4 _
    rw [annexb_cons, annexbNal, restore, units, List.foldl_cons, ← restore, hunit.1, hunit.2,
      List.append_assoc, List.append_assoc, overwrite_append hcode, hstart]
    have hrest := ih (a ++ r.encode)
    rw [Field.encode] at hrest ⊢
    simp only [List.append_assoc] at hrest ⊢
    rw [hrest, avcc_cons, Field.encode, List.append_assoc, List.append_assoc]

/-- A list of records is accepted. -/
theorem parse_avcc (codec : NalCodec) (rs : List Record) :
    parseNalsAvccToAnnexb codec (avcc rs) = (true, annexb rs, units codec 0 rs) := by
  have := parse_records codec rs malformed_nil
  rwa [List.append_nil, List.append_nil] at this

/-- Nothing else is. -/
theorem parse_accepts_iff (codec : NalCodec) (p : Bytes) :
    (parseNalsAvccToAnnexb codec p).1 = true ↔ ∃ rs, p = avcc rs := by
  constructor
  · intro htrue
    obtain ⟨rs, rest, hp, hrest⟩ := exists_records p
    rw [hp, parse_records codec rs hrest, decide_eq_true_iff] at htrue
    exact ⟨rs, by rw [hp, htrue, List.append_nil]⟩
  · rintro ⟨rs, rfl⟩
    rw [parse_avcc]

/-- The buffer is accepted exactly when it is a list of records. Then each NAL unit is
behind a start code, the units say where, and their sizes give the buffer back. Otherwise
the records before the first malformed one are converted, and the rest stays. -/
theorem parse_exact (codec : NalCodec) (p : Bytes) :
    ((parseNalsAvccToAnnexb codec p).1 = true ↔ ∃ rs, p = avcc rs) ∧
      (∀ rs, p = avcc rs →
        parseNalsAvccToAnnexb codec p = (true, annexb rs, units codec 0 rs) ∧
          restore (annexb rs) (units codec 0 rs) = p) ∧
      ((parseNalsAvccToAnnexb codec p).1 = false →
        ∃ rs rest, p = avcc rs ++ rest ∧ rest ≠ [] ∧ Malformed rest ∧
          parseNalsAvccToAnnexb codec p = (false, annexb rs ++ rest, units codec 0 rs)) := by
  refine ⟨parse_accepts_iff codec p, ?_, fun hfalse => ?_⟩
  · rintro rs rfl
    have hrestored := restore_records codec [] [] rs
    rw [List.append_nil, List.append_nil] at hrestored
    exact ⟨parse_avcc codec rs, hrestored⟩
  · obtain ⟨rs, rest, hp, hrest⟩ := exists_records p
    have hparse := parse_records codec rs hrest
    rw [← hp] at hparse
    rw [hparse, decide_eq_false_iff_not] at hfalse
    refine ⟨rs, rest, hp, hfalse, hrest, ?_⟩
    rw [hparse, decide_eq_false hfalse]

end AirPlay.Mirror
