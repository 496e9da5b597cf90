import Mathlib.Data.Nat.Bitwise
import AirPlay.Library.Fields
import AirPlay.Video.Decoder

/-! What the configuration blobs say.

An avcC record brings the H.264 parameter sets in two lists, an hvcC record the HEVC ones
in arrays of one kind each. Each parser accepts a blob exactly when such a record stands
at its head (`parseAvcc_iff`, `parseHvcc_iff`), and does not look at what follows it. -/
namespace AirPlay.Video.Decoder
open Bytes

/-- The first NAL unit of a list, as the decoder keeps it. -/
def firstNal : List (Field 2) → Bytes
  | [] => []
  | nal :: _ => annexbNal nal.data

/-! ### The records -/

/-- An avcC record; three bits beside the number of sequence parameter sets are reserved. -/
structure AvcRecord where
  profile : Bytes
  reserved : Fin 8
  sps : List (Field 2)
  pps : List (Field 2)
  profile_length : profile.length = 4
  sps_count : 1 ≤ sps.length ∧ sps.length ≤ 31
  pps_count : 1 ≤ pps.length ∧ pps.length ≤ 255

namespace AvcRecord

def encode (a : AvcRecord) : Bytes :=
  1 :: (a.profile ++ UInt8.ofNat (32 * a.reserved + a.sps.length) ::
    (Field.encodeAll a.sps ++ UInt8.ofNat a.pps.length :: Field.encodeAll a.pps))

def sets (a : AvcRecord) : ParameterSets := {sps := firstNal a.sps, pps := firstNal a.pps}

end AvcRecord

/-- An array of an hvcC record; two bits beside its kind say other things. -/
structure HvcArray where
  head : UInt8
  nals : List (Field 2)
  bounded : nals.length < 65536
  deriving DecidableEq

namespace HvcArray

/-- The kind of the array's NAL units. -/
def kind (x : HvcArray) : Nat := x.head.toNat % 64

def encode (x : HvcArray) : Bytes := x.head :: (toBe 2 x.nals.length ++ Field.encodeAll x.nals)

end HvcArray

def encodeArrays (xs : List HvcArray) : Bytes := xs.flatMap HvcArray.encode

/-- The arrays of a kind that are not empty. -/
def filled (kind : Nat) (xs : List HvcArray) : List HvcArray :=
  xs.filter fun x => x.kind = kind ∧ x.nals ≠ []

/-- The first NAL units of these arrays, one after the other. -/
def joined (kind : Nat) (xs : List HvcArray) : Bytes :=
  (filled kind xs).flatMap fun x => firstNal x.nals

/-- An HEVC configuration record. -/
structure HvcRecord where
  header : Bytes
  arrays : List HvcArray
  header_length : header.length = 21
  arrays_count : arrays.length ≤ 255

namespace HvcRecord

def encode (h : HvcRecord) : Bytes :=
  1 :: (h.header ++ UInt8.ofNat h.arrays.length :: encodeArrays h.arrays)

def sets (h : HvcRecord) : ParameterSets :=
  {vps := joined 32 h.arrays, sps := joined 33 h.arrays, pps := joined 34 h.arrays}

end HvcRecord

/-! ### Lists of NAL units -/

theorem u16_append (a : Bytes) {s : Bytes} (h : 2 ≤ s.length) :
    u16 (a ++ s) a.length = ofBe (s.take 2) := by
  match s, h with
  | b :: c :: s, _ =>
    rw [u16, getD_append_add, getD_append_cons]
    show b.toNat * 256 + c.toNat = 256 * (256 * 0 + b.toNat) + c.toNat
    omega

theorem u16_field (a : Bytes) (f : Field 2) (b : Bytes) :
    u16 (a ++ (f.encode ++ b)) a.length = f.data.length := by
  rw [u16_append, f.ofBe_take_encode]
  rw [List.length_append, f.length_encode]
  omega

theorem readNals_encodeAll (a b : Bytes) (first : Bool) (fs : List (Field 2)) :
    readNals (a ++ (Field.encodeAll fs ++ b)) first fs.length a.length =
      some (if first then firstNal fs else [], (a ++ Field.encodeAll fs).length) := by
  induction fs generalizing a first with
  | nil =>
    have ha : a ++ Field.encodeAll ([] : List (Field 2)) = a := List.append_nil a
    rw [List.length_nil, readNals, ha]
    cases first <;> rfl
  | cons f fs ih =>
    have hlength : (a ++ (f.encode ++ (Field.encodeAll fs ++ b))).length =
        a.length + (2 + f.data.length) + (Field.encodeAll fs ++ b).length := by
      rw [List.length_append, List.length_append, f.length_encode, ← Nat.add_assoc]
    have hdata : ((a ++ (f.encode ++ (Field.encodeAll fs ++ b))).drop (a.length + 2)).take
        f.data.length = f.data := by
      rw [← List.drop_drop, List.drop_left, f.drop_encode, List.take_left]
    have hrest := ih (a ++ f.encode) false
    rw [List.length_append, f.length_encode, ← Nat.add_assoc, List.append_assoc] at hrest
    rw [Field.encodeAll_cons, List.append_assoc, List.length_cons, readNals, hlength,
      if_neg (by omega), u16_field]
    dsimp only
    rw [if_neg (by omega), hdata, hrest, List.append_assoc]
    cases first <;> simp [firstNal]

/-- Only the first of the NAL units is kept. -/
theorem readNals_first (a b : Bytes) (fs : List (Field 2)) :
    readNals (a ++ (Field.encodeAll fs ++ b)) true fs.length a.length =
      some (firstNal fs, (a ++ Field.encodeAll fs).length) := readNals_encodeAll a b true fs

/-- What is read is a list of NAL units. -/
theorem readNals_some {a s : Bytes} {first : Bool} {n : Nat} {r : Bytes × Nat}
    (h : readNals (a ++ s) first n a.length = some r) :
    ∃ (fs : List (Field 2)) (b : Bytes), fs.length = n ∧ s = Field.encodeAll fs ++ b := by
  induction n generalizing a s first r with
  | zero => exact ⟨[], s, rfl, rfl⟩
  | succ n ih =>
    rw [readNals, List.length_append] at h
    split at h
    · exact absurd h (Option.some_ne_none _).symm
    rename_i hlen
    have htwo : 2 ≤ s.length := by omega
    dsimp only at h
    rw [u16_append a htwo] at h
    split at h
    · exact absurd h (Option.some_ne_none _).symm
    rename_i hdata
    obtain ⟨f, t, rfl⟩ := @Field.exists_encode 2 s htwo (by omega)
    rw [f.ofBe_take_encode] at h
    obtain ⟨r', hr', -⟩ := Option.map_eq_some_iff.mp h
    rw [← List.append_assoc, Nat.add_assoc, ← f.length_encode, ← List.length_append] at hr'
    obtain ⟨fs, b, hlength, rfl⟩ := ih hr'
    exact ⟨f :: fs, b, congrArg Nat.succ hlength, by rw [Field.encodeAll_cons, List.append_assoc]⟩

/-- What is read is a list of NAL units, its first one and the position behind it. -/
theorem readNals_exact {a s nal : Bytes} {n q : Nat}
    (h : readNals (a ++ s) true n a.length = some (nal, q)) :
    ∃ (fs : List (Field 2)) (b : Bytes), fs.length = n ∧ s = Field.encodeAll fs ++ b ∧
      nal = firstNal fs ∧ q = (a ++ Field.encodeAll fs).length := by
  obtain ⟨fs, b, hlength, rfl⟩ := readNals_some h
  have hfirst := readNals_first a b fs
  rw [hlength] at hfirst
  obtain ⟨hnal, hq⟩ := Prod.mk.inj (Option.some.inj (h.symm.trans hfirst))
  exact ⟨fs, b, hlength, rfl, hnal, hq⟩

/-! ### avcC -/

theorem toNat_low (b : UInt8) (k : Nat) (mask : UInt8) (h : mask.toNat = 2 ^ k - 1) :
    (b &&& mask).toNat = b.toNat % 2 ^ k := by
  rw [UInt8.toNat_and, h, Nat.and_two_pow_sub_one_eq_mod]

theorem firstNal_isEmpty {fs : List (Field 2)} (h : fs ≠ []) : (firstNal fs).isEmpty = false := by
  cases fs with
  | nil => exact absurd rfl h
  | cons f fs => rfl

theorem exists_six {blob : Bytes} (h : 6 ≤ blob.length) :
    ∃ (b₀ b₁ b₂ b₃ b₄ b₅ : UInt8) (s : Bytes), blob = [b₀, b₁, b₂, b₃, b₄, b₅] ++ s := by
  match blob, h with
  | b₀ :: b₁ :: b₂ :: b₃ :: b₄ :: b₅ :: s, _ => exact ⟨b₀, b₁, b₂, b₃, b₄, b₅, s, rfl⟩

section Avcc
variable {p₁ p₂ p₃ p₄ count : UInt8} {s : Bytes}

/-- The head of an avcC record, up to the number of sequence parameter sets. -/
theorem parseAvcc_lists {sps pps : List (Field 2)} {n : UInt8} {rest : Bytes}
    (hsps : sps ≠ []) (hpps : pps ≠ []) (hcount : count.toNat % 32 = sps.length)
    (hn : n.toNat = pps.length) :
    parseAvcc ([1, p₁, p₂, p₃, p₄, count] ++
        (Field.encodeAll sps ++ (n :: (Field.encodeAll pps ++ rest)))) =
      some {sps := firstNal sps, pps := firstNal pps} := by
  generalize hblob : [1, p₁, p₂, p₃, p₄, count] ++
    (Field.encodeAll sps ++ (n :: (Field.encodeAll pps ++ rest))) = blob
  generalize hhead : [1, p₁, p₂, p₃, p₄, count] ++ Field.encodeAll sps = head at hblob
  have hspspos := List.length_pos_of_ne_nil hsps
  have hlow : (blob.getD 5 0 &&& 0x1f).toNat = sps.length := by
    rw [toNat_low _ 5 0x1f rfl, ← hblob]
    exact hcount
  have hone : blob.getD 0 0 = 1 := by
    rw [← hblob]
    rfl
  have hfirst : readNals blob true sps.length 6 = some (firstNal sps, head.length) := by
    rw [← hblob, ← hhead]
    exact readNals_first [1, p₁, p₂, p₃, p₄, count] _ sps
  have happ : blob = head ++ (n :: (Field.encodeAll pps ++ rest)) := by
    rw [← hblob, ← hhead, List.append_assoc]
  have hsecond := readNals_first (head ++ [n]) rest pps
  rw [List.append_assoc, List.singleton_append, ← happ, @List.length_append _ head [n],
    List.length_singleton] at hsecond
  have hget : blob.getD head.length 0 = n := by rw [happ, getD_append_cons]
  have hlength : head.length < blob.length := by
    rw [happ, List.length_append, List.length_cons]
    omega
  have hseven : ¬ blob.length < 7 := by
    rw [← hhead, List.length_append] at hlength
    have : [1, p₁, p₂, p₃, p₄, count].length = 6 := rfl
    omega
  rw [parseAvcc, hone, hlow]
  dsimp only
  rw [if_neg (by simp [hseven]), if_neg (by omega), hfirst]
  dsimp only
  rw [if_neg hlength.not_ge, hget, hn, hsecond]
  dsimp only
  rw [firstNal_isEmpty hsps, firstNal_isEmpty hpps]
  rfl

theorem parseAvcc_encode (a : AvcRecord) (rest : Bytes) :
    parseAvcc (a.encode ++ rest) = some a.sets := by
  obtain ⟨profile, reserved, sps, pps, hprofile, ⟨hsps, hspsle⟩, hpps, hppsle⟩ := a
  have hreserved := reserved.isLt
  match profile, hprofile with
  | [p₁, p₂, p₃, p₄], _ =>
    have hlists := @parseAvcc_lists p₁ p₂ p₃ p₄ (UInt8.ofNat (32 * reserved + sps.length)) sps pps
      (UInt8.ofNat pps.length) rest (List.ne_nil_of_length_pos hsps)
      (List.ne_nil_of_length_pos hpps) (by rw [UInt8.toNat_ofNat']; omega)
      (by rw [UInt8.toNat_ofNat']; omega)
    simp only [AvcRecord.encode, List.cons_append, List.nil_append, List.append_assoc] at hlists ⊢
    exact hlists

/-- Two lists of the right lengths make a record. -/
theorem exists_avcRecord {sps pps : List (Field 2)} {n : UInt8} (rest : Bytes)
    (hsps : sps.length = count.toNat % 32) (hspspos : sps.length ≠ 0)
    (hpps : pps.length = n.toNat) (hppspos : pps ≠ []) :
    ∃ a : AvcRecord, [1, p₁, p₂, p₃, p₄, count] ++ Field.encodeAll sps ++ [n] ++
      (Field.encodeAll pps ++ rest) = a.encode ++ rest := by
  have hcount := count.toNat_lt
  have hn := n.toNat_lt
  have hppspos' := List.length_pos_of_ne_nil hppspos
  have hback : UInt8.ofNat (32 * (count.toNat / 32) + sps.length) = count := by
    rw [hsps, Nat.div_add_mod, UInt8.ofNat_toNat]
  refine ⟨⟨[p₁, p₂, p₃, p₄], ⟨count.toNat / 32, by omega⟩, sps, pps, rfl, ⟨by omega, by omega⟩,
    by omega, by omega⟩, ?_⟩
  rw [AvcRecord.encode]
  dsimp only
  rw [hback, hpps, UInt8.ofNat_toNat]
  simp only [List.cons_append, List.nil_append, List.append_assoc]

/-- What is accepted begins with an avcC record. -/
theorem parseAvcc_some {blob : Bytes} {sets : ParameterSets} (h : parseAvcc blob = some sets) :
    ∃ (a : AvcRecord) (rest : Bytes), blob = a.encode ++ rest := by
  rw [parseAvcc] at h
  split at h
  · exact absurd h (Option.some_ne_none _).symm
  rename_i hhead
  rw [Bool.or_eq_true, not_or, decide_eq_true_iff, bne_iff_ne, not_not] at hhead
  obtain ⟨hlength, hone⟩ := hhead
  obtain ⟨b, p₁, p₂, p₃, p₄, count, s, rfl⟩ := exists_six (show 6 ≤ blob.length by omega)
  obtain rfl : b = 1 := hone
  have hlow : (([1, p₁, p₂, p₃, p₄, count] ++ s).getD 5 0 &&& 0x1f).toNat = count.toNat % 32 :=
    toNat_low count 5 0x1f rfl
  dsimp only at h
  rw [hlow] at h
  split at h
  · exact absurd h (Option.some_ne_none _).symm
  rename_i hsps
  split at h
  · exact absurd h (Option.some_ne_none _).symm
  rename_i nal q hfirst
  obtain ⟨sps, t, hspslength, rfl, -, rfl⟩ :=
    @readNals_exact [1, p₁, p₂, p₃, p₄, count] s _ _ _ hfirst
  rw [← List.append_assoc] at h
  split at h
  · exact absurd h (Option.some_ne_none _).symm
  rename_i hmore
  match t with
  | [] =>
    rw [List.append_nil] at hmore
    exact absurd (Nat.le_refl _) hmore
  | n :: u =>
    rw [getD_append_cons] at h
    split at h
    · exact absurd h (Option.some_ne_none _).symm
    rename_i nal' q' hsecond
    have hpos : ([1, p₁, p₂, p₃, p₄, count] ++ Field.encodeAll sps).length + 1 =
        ([1, p₁, p₂, p₃, p₄, count] ++ Field.encodeAll sps ++ [n]).length := by
      rw [@List.length_append _ (_ ++ _) [n], List.length_singleton]
    rw [hpos, List.append_cons] at hsecond
    obtain ⟨pps, rest, hppslength, rfl, rfl, -⟩ := readNals_exact hsecond
    split at h
    · exact absurd h (Option.some_ne_none _).symm
    rename_i hnonempty
    have hpps : pps ≠ [] := by
      rintro rfl
      exact hnonempty (Bool.or_true _)
    obtain ⟨a, ha⟩ := @exists_avcRecord p₁ p₂ p₃ p₄ count sps pps n rest hspslength (by omega)
      hppslength hpps
    exact ⟨a, rest, by rw [← List.append_assoc, List.append_cons, ha]⟩

/-- The parser accepts what begins with an avcC record. -/
theorem parseAvcc_iff {blob : Bytes} {sets : ParameterSets} :
    parseAvcc blob = some sets ↔
      ∃ (a : AvcRecord) (rest : Bytes), blob = a.encode ++ rest ∧ sets = a.sets := by
  constructor
  · intro h
    obtain ⟨a, rest, rfl⟩ := parseAvcc_some h
    exact ⟨a, rest, rfl, Option.some.inj (h.symm.trans (parseAvcc_encode a rest))⟩
  · rintro ⟨a, rest, rfl, rfl⟩
    exact parseAvcc_encode a rest

end Avcc

/-! ### hvcC -/

/-- What the parser makes of an array. -/
def addArray (sets : ParameterSets) (x : HvcArray) : ParameterSets :=
  { vps := sets.vps ++ joined 32 [x]
    sps := sets.sps ++ joined 33 [x]
    pps := sets.pps ++ joined 34 [x] }

theorem joined_singleton (kind : Nat) (x : HvcArray) :
    joined kind [x] = if x.kind = kind then firstNal x.nals else [] := by
  rw [joined, filled]
  cases hnals : x.nals with
  | nil => simp [hnals, firstNal]
  | cons f fs => by_cases hkind : x.kind = kind <;> simp [hnals, hkind]

theorem joined_cons (kind : Nat) (x : HvcArray) (xs : List HvcArray) :
    joined kind (x :: xs) = joined kind [x] ++ joined kind xs := by
  rw [joined, joined, joined, filled, filled, filled, ← List.flatMap_append, ← List.filter_append]
  rfl

theorem foldl_addArray (sets : ParameterSets) (xs : List HvcArray) :
    xs.foldl addArray sets =
      { vps := sets.vps ++ joined 32 xs
        sps := sets.sps ++ joined 33 xs
        pps := sets.pps ++ joined 34 xs } := by
  induction xs generalizing sets with
  | nil => simp [joined, filled]
  | cons x xs ih =>
    rw [List.foldl_cons, ih, joined_cons 32 x xs, joined_cons 33 x xs, joined_cons 34 x xs]
    simp only [addArray, List.append_assoc]

/-- The type of an array decides which list its first NAL unit goes to. -/
theorem addArray_eq (sets : ParameterSets) (x : HvcArray) :
    addArray sets x =
      if (x.head &&& 0x3f) == 32 then {sets with vps := sets.vps ++ firstNal x.nals}
      else if (x.head &&& 0x3f) == 33 then {sets with sps := sets.sps ++ firstNal x.nals}
      else if (x.head &&& 0x3f) == 34 then {sets with pps := sets.pps ++ firstNal x.nals}
      else sets := by
  have hlow : (x.head &&& 0x3f).toNat = x.kind := toNat_low x.head 6 0x3f rfl
  have hkind : ∀ k : UInt8, ((x.head &&& 0x3f) == k) = decide (x.kind = k.toNat) := by
    intro k
    rw [← hlow, Bool.eq_iff_iff, beq_iff_eq, decide_eq_true_iff, UInt8.toNat_inj]
  rw [hkind, hkind, hkind, addArray, joined_singleton, joined_singleton, joined_singleton]
  by_cases hv : x.kind = 32
  · simp [hv]
  by_cases hs : x.kind = 33
  · simp [hs]
  by_cases hp : x.kind = 34
  · simp [hp]
  · simp [hv, hs, hp]

theorem encodeArrays_cons (x : HvcArray) (xs : List HvcArray) :
    encodeArrays (x :: xs) = x.encode ++ encodeArrays xs := List.flatMap_cons

theorem length_arrayHead (x : HvcArray) : (x.head :: toBe 2 x.nals.length).length = 3 := by
  rw [List.length_cons, length_toBe]

/-- One array. -/
theorem readArrays_array (a b : Bytes) (x : HvcArray) (n : Nat) (sets : ParameterSets) :
    readArrays (a ++ (x.encode ++ b)) (n + 1) a.length sets =
      readArrays ((a ++ x.encode) ++ b) n (a ++ x.encode).length (addArray sets x) := by
  have hsplit : a ++ (x.encode ++ b) =
      (a ++ (x.head :: toBe 2 x.nals.length)) ++ (Field.encodeAll x.nals ++ b) := by
    rw [HvcArray.encode]
    simp only [List.append_assoc, List.cons_append]
  have hthree : (a ++ (x.head :: toBe 2 x.nals.length)).length = a.length + 3 := by
    rw [List.length_append, length_arrayHead]
  have hlength : ¬ a.length + 3 > (a ++ (x.encode ++ b)).length := by
    rw [hsplit, List.length_append, hthree]
    omega
  have hhead : (a ++ (x.encode ++ b)).getD a.length 0 = x.head := getD_append_cons a _ x.head
  have hcount : u16 (a ++ (x.encode ++ b)) (a.length + 1) = x.nals.length := by
    have happ : a ++ (x.encode ++ b) =
        (a ++ [x.head]) ++ (toBe 2 x.nals.length ++ (Field.encodeAll x.nals ++ b)) := by
      rw [hsplit]
      simp only [List.append_assoc, List.cons_append, List.nil_append]
    rw [happ, ← List.length_singleton (a := x.head), ← List.length_append, u16_append,
      List.take_left' (length_toBe 2 _), ofBe_toBe x.bounded]
    rw [List.length_append, length_toBe]
    omega
  have hnals : readNals (a ++ (x.encode ++ b)) true x.nals.length (a.length + 3) =
      some (firstNal x.nals, (a ++ x.encode).length) := by
    rw [hsplit, ← hthree, readNals_first, HvcArray.encode]
    simp only [List.append_assoc, List.cons_append]
  rw [readArrays, if_neg hlength, hhead, hcount]
  dsimp only
  rw [hnals]
  dsimp only
  rw [← addArray_eq, ← List.append_assoc]

theorem readArrays_encode (a b : Bytes) (xs : List HvcArray) (sets : ParameterSets) :
    readArrays (a ++ (encodeArrays xs ++ b)) xs.length a.length sets =
      some (xs.foldl addArray sets) := by
  induction xs generalizing a sets with
  | nil => rfl
  | cons x xs ih =>
    rw [encodeArrays_cons, List.append_assoc, List.length_cons, readArrays_array, ih,
      List.foldl_cons]

/-- What an array is read from is one. -/
theorem exists_array {a s : Bytes} {n : Nat} {sets sets' : ParameterSets}
    (h : readArrays (a ++ s) (n + 1) a.length sets = some sets') :
    ∃ (x : HvcArray) (b : Bytes), s = x.encode ++ b := by
  rw [readArrays, List.length_append] at h
  split at h
  · exact absurd h (Option.some_ne_none _).symm
  rename_i hlen
  dsimp only at h
  split at h
  · exact absurd h (Option.some_ne_none _).symm
  rename_i nal p hnals
  have hlong : 3 ≤ s.length := by omega
  match s, hlong with
  | c :: l₁ :: l₂ :: t, _ =>
    have hhead : a ++ (c :: l₁ :: l₂ :: t) = (a ++ [c]) ++ ([l₁, l₂] ++ t) := by simp
    have hthree : a.length + 3 = (a ++ [c, l₁, l₂]).length :=
      (@List.length_append _ a [c, l₁, l₂]).symm
    have hcount : u16 (a ++ (c :: l₁ :: l₂ :: t)) (a.length + 1) = ofBe [l₁, l₂] := by
      rw [hhead, ← @List.length_singleton _ c, ← List.length_append, u16_append]
      · rfl
      · rw [List.length_append]
        exact Nat.le_add_right 2 _
    rw [hcount, hthree, List.append_cons, List.append_cons, List.append_cons] at hnals
    simp only [List.append_assoc, List.cons_append, List.nil_append] at hnals
    rw [show a ++ c :: l₁ :: l₂ :: t = (a ++ [c, l₁, l₂]) ++ t by simp] at hnals
    obtain ⟨fs, b, hlength, rfl⟩ := readNals_some hnals
    have hbound : fs.length < 65536 := by
      have hlt : ofBe [l₁, l₂] < 256 ^ 2 := ofBe_lt [l₁, l₂]
      omega
    refine ⟨⟨c, fs, hbound⟩, b, ?_⟩
    have hback : toBe 2 fs.length = [l₁, l₂] := hlength ▸ toBe_ofBe [l₁, l₂]
    rw [HvcArray.encode]
    dsimp only
    rw [hback]
    rfl

/-- What is read is a list of arrays. -/
theorem readArrays_some {a s : Bytes} {n : Nat} {sets sets' : ParameterSets}
    (h : readArrays (a ++ s) n a.length sets = some sets') :
    ∃ (xs : List HvcArray) (b : Bytes), xs.length = n ∧ s = encodeArrays xs ++ b := by
  induction n generalizing a s sets with
  | zero => exact ⟨[], s, rfl, rfl⟩
  | succ n ih =>
    obtain ⟨x, t, rfl⟩ := exists_array h
    rw [readArrays_array] at h
    obtain ⟨xs, b, hlength, rfl⟩ := ih h
    exact ⟨x :: xs, b, congrArg Nat.succ hlength, by rw [encodeArrays_cons, List.append_assoc]⟩

theorem parseHvcc_eq {header : Bytes} (hheader : header.length = 21) (n : UInt8) (s : Bytes) :
    parseHvcc ((1 :: (header ++ [n])) ++ s) =
      (readArrays ((1 :: (header ++ [n])) ++ s) n.toNat (1 :: (header ++ [n])).length {}).filter
        fun sets => !(sets.vps.isEmpty || sets.sps.isEmpty || sets.pps.isEmpty) := by
  have hhead : (1 :: (header ++ [n])).length = 23 := by
    rw [List.length_cons, List.length_append, hheader]
    rfl
  have hlength : ¬ ((1 :: (header ++ [n])) ++ s).length < 23 := by
    rw [List.length_append, hhead]
    omega
  have hcount : ((1 :: (header ++ [n])) ++ s).getD 22 0 = n := by
    have := getD_append_cons (1 :: header) s n
    rw [List.length_cons, hheader] at this
    simp only [List.cons_append, List.append_assoc, List.nil_append] at this ⊢
    exact this
  have hone : ((1 :: (header ++ [n])) ++ s).getD 0 0 = 1 := rfl
  rw [parseHvcc, hone, decide_eq_false hlength, Bool.false_or, bne_self_eq_false,
    if_neg Bool.false_ne_true, hcount, hhead]
  cases readArrays ((1 :: (header ++ [n])) ++ s) n.toNat 23 {} with
  | none => rfl
  | some sets =>
    rw [Option.filter_some]
    dsimp only
    cases sets.vps.isEmpty || sets.sps.isEmpty || sets.pps.isEmpty <;> rfl

/-- Something is kept of each kind. -/
def ParameterSets.Complete (sets : ParameterSets) : Prop :=
  sets.vps ≠ [] ∧ sets.sps ≠ [] ∧ sets.pps ≠ []

theorem complete_iff (sets : ParameterSets) :
    (!(sets.vps.isEmpty || sets.sps.isEmpty || sets.pps.isEmpty)) = true ↔ sets.Complete := by
  rw [ParameterSets.Complete, Bool.not_eq_true', Bool.or_eq_false_iff, Bool.or_eq_false_iff,
    List.isEmpty_eq_false_iff, List.isEmpty_eq_false_iff, List.isEmpty_eq_false_iff, and_assoc]

theorem HvcRecord.encode_append (h : HvcRecord) (rest : Bytes) :
    h.encode ++ rest = (1 :: (h.header ++ [UInt8.ofNat h.arrays.length])) ++
      (encodeArrays h.arrays ++ rest) := by
  rw [encode]
  simp only [List.cons_append, List.append_assoc, List.nil_append]

theorem HvcRecord.sets_eq (h : HvcRecord) : h.arrays.foldl addArray {} = h.sets :=
  foldl_addArray {} h.arrays

/-- The parser accepts what begins with an hvcC record that has all three kinds. -/
theorem parseHvcc_encode (h : HvcRecord) (rest : Bytes) (hsets : h.sets.Complete) :
    parseHvcc (h.encode ++ rest) = some h.sets := by
  have hcount : (UInt8.ofNat h.arrays.length).toNat = h.arrays.length := by
    have := h.arrays_count
    rw [UInt8.toNat_ofNat']
    omega
  rw [h.encode_append, parseHvcc_eq h.header_length, hcount, readArrays_encode, h.sets_eq,
    Option.filter_some, if_pos ((complete_iff _).mpr hsets)]

theorem parseHvcc_some {blob : Bytes} {sets : ParameterSets} (h : parseHvcc blob = some sets) :
    ∃ (r : HvcRecord) (rest : Bytes), blob = r.encode ++ rest ∧ r.sets.Complete := by
  have hbig : 23 ≤ blob.length ∧ blob.getD 0 0 = 1 := by
    rw [parseHvcc] at h
    split at h
    · exact absurd h (Option.some_ne_none _).symm
    rename_i hhead
    rw [Bool.or_eq_true, not_or, decide_eq_true_iff, bne_iff_ne, not_not] at hhead
    exact ⟨not_lt.mp hhead.1, hhead.2⟩
  obtain ⟨hlength, hone⟩ := hbig
  obtain ⟨header, n, s, hheader, rfl⟩ : ∃ (header : Bytes) (n : UInt8) (s : Bytes),
      header.length = 21 ∧ blob = (1 :: (header ++ [n])) ++ s := by
    match blob, hlength with
    | b :: t, hlength =>
      obtain rfl : b = 1 := hone
      rw [List.length_cons] at hlength
      have hdrop : (t.drop 21).length ≠ 0 := by
        rw [List.length_drop]
        omega
      obtain ⟨n, s, hns⟩ := List.exists_cons_of_length_pos (Nat.pos_of_ne_zero hdrop)
      refine ⟨t.take 21, n, s, List.length_take_of_le (by omega), ?_⟩
      rw [List.cons_append, List.append_assoc, List.singleton_append, ← hns,
        List.take_append_drop]
  rw [parseHvcc_eq hheader, Option.filter_eq_some_iff] at h
  obtain ⟨hread, hcomplete⟩ := h
  obtain ⟨xs, b, hcount, rfl⟩ := readArrays_some hread
  have hnlt := n.toNat_lt
  rw [← hcount, readArrays_encode, foldl_addArray] at hread
  refine ⟨⟨header, xs, hheader, by omega⟩, b, ?_, ?_⟩
  · rw [HvcRecord.encode_append]
    dsimp only
    rw [hcount, UInt8.ofNat_toNat]
  · rw [complete_iff, ← Option.some.inj hread] at hcomplete
    exact hcomplete

theorem parseHvcc_iff {blob : Bytes} {sets : ParameterSets} :
    parseHvcc blob = some sets ↔
      ∃ (r : HvcRecord) (rest : Bytes), blob = r.encode ++ rest ∧ sets = r.sets ∧
        r.sets.Complete := by
  constructor
  · intro h
    obtain ⟨r, rest, rfl, hcomplete⟩ := parseHvcc_some h
    exact ⟨r, rest, rfl, Option.some.inj (h.symm.trans (parseHvcc_encode r rest hcomplete)),
      hcomplete⟩
  · rintro ⟨r, rest, rfl, rfl, hcomplete⟩
    exact parseHvcc_encode r rest hcomplete

/-! ### One reading -/

theorem toNat_ofNat_of_le {n : Nat} (h : n ≤ 255) : (UInt8.ofNat n).toNat = n := by
  rw [UInt8.toNat_ofNat']
  omega

/-- At most one avcC record is at the head of a blob. -/
theorem AvcRecord.encode_append_inj {a b : AvcRecord} {s t : Bytes}
    (h : a.encode ++ s = b.encode ++ t) : a = b ∧ s = t := by
  obtain ⟨profile, reserved, sps, pps, hprofile, hsps, hpps⟩ := a
  obtain ⟨profile', reserved', sps', pps', hprofile', hsps', hpps'⟩ := b
  have hreserved := reserved.isLt
  have hreserved' := reserved'.isLt
  simp only [encode, List.cons_append, List.append_assoc] at h
  obtain ⟨rfl, hcounts⟩ := List.append_inj (List.cons.inj h).2 (hprofile.trans hprofile'.symm)
  obtain ⟨hcount, hlists⟩ := List.cons.inj hcounts
  have hbyte := congrArg UInt8.toNat hcount
  rw [toNat_ofNat_of_le (by omega), toNat_ofNat_of_le (by omega)] at hbyte
  have hres : reserved = reserved' := by omega
  obtain ⟨rfl, hmore⟩ := Field.encodeAll_append_inj (show sps.length = sps'.length by omega) hlists
  obtain ⟨hn, hlist⟩ := List.cons.inj hmore
  have hnbyte := congrArg UInt8.toNat hn
  rw [toNat_ofNat_of_le hpps.2, toNat_ofNat_of_le hpps'.2] at hnbyte
  obtain ⟨rfl, hst⟩ := Field.encodeAll_append_inj hnbyte hlist
  subst hres
  exact ⟨rfl, hst⟩

theorem HvcArray.encode_append_inj {x y : HvcArray} {s t : Bytes}
    (h : x.encode ++ s = y.encode ++ t) : x = y ∧ s = t := by
  obtain ⟨head, nals, hnals⟩ := x
  obtain ⟨head', nals', hnals'⟩ := y
  simp only [encode, List.cons_append, List.append_assoc] at h
  obtain ⟨rfl, hlists⟩ := List.cons.inj h
  obtain ⟨hcount, hlist⟩ := List.append_inj hlists ((length_toBe 2 _).trans (length_toBe 2 _).symm)
  have hnumber := congrArg ofBe hcount
  rw [ofBe_toBe hnals, ofBe_toBe hnals'] at hnumber
  obtain ⟨rfl, hst⟩ := Field.encodeAll_append_inj hnumber hlist
  exact ⟨rfl, hst⟩

theorem encodeArrays_append_inj {xs ys : List HvcArray} {s t : Bytes}
    (hlength : xs.length = ys.length) (h : encodeArrays xs ++ s = encodeArrays ys ++ t) :
    xs = ys := by
  induction xs generalizing ys with
  | nil => exact (List.length_eq_zero_iff.mp hlength.symm).symm
  | cons x xs ih =>
    cases ys with
    | nil => exact absurd hlength (Nat.succ_ne_zero _)
    | cons y ys =>
      rw [encodeArrays_cons, encodeArrays_cons, List.append_assoc, List.append_assoc] at h
      obtain ⟨rfl, hrest⟩ := HvcArray.encode_append_inj h
      rw [ih (Nat.succ.inj hlength) hrest]

/-- At most one hvcC record is at the head of a blob. -/
theorem HvcRecord.encode_append_inj {a b : HvcRecord} {s t : Bytes}
    (h : a.encode ++ s = b.encode ++ t) : a = b := by
  obtain ⟨header, xs, hheader, hxs⟩ := a
  obtain ⟨header', ys, hheader', hys⟩ := b
  simp only [encode, List.cons_append, List.append_assoc] at h
  obtain ⟨rfl, hcounts⟩ := List.append_inj (List.cons.inj h).2 (hheader.trans hheader'.symm)
  obtain ⟨hcount, harrays⟩ := List.cons.inj hcounts
  have hbyte := congrArg UInt8.toNat hcount
  rw [toNat_ofNat_of_le hxs, toNat_ofNat_of_le hys] at hbyte
  obtain rfl := encodeArrays_append_inj hbyte harrays
  rfl

/-! ### Complete configurations -/

def AvcRecord.nals (a : AvcRecord) : List (Field 2) := a.sps ++ a.pps

def HvcRecord.nals (r : HvcRecord) : List (Field 2) := r.arrays.flatMap (·.nals)

/-- A start code and one of the NAL units, which is not empty. -/
def IsNal (nals : List (Field 2)) (kept : Bytes) : Prop :=
  ∃ nal ∈ nals, nal.data ≠ [] ∧ kept = annexbNal nal.data

/-- `parse_avcc` accepts only a blob that is one record and gives it its parameter sets. -/
def AvccExact (blob : Bytes) : Prop :=
  ∀ sets, parseAvcc blob = some sets →
    ∃ a : AvcRecord, blob = a.encode ∧ IsNal a.nals sets.sps ∧ IsNal a.nals sets.pps

/-- `parse_hvcc` accepts only a blob whose record gives it its parameter sets. -/
def HvccExact (blob : Bytes) : Prop :=
  ∀ sets, parseHvcc blob = some sets →
    ∃ (r : HvcRecord) (rest : Bytes), blob = r.encode ++ rest ∧
      IsNal r.nals sets.vps ∧ IsNal r.nals sets.sps ∧ IsNal r.nals sets.pps

/-- The list does not begin with an empty NAL unit. -/
def Led (nals : List (Field 2)) : Prop := ∀ nal ∈ nals.head?, nal.data ≠ []

/-- The first NAL unit of an array. -/
def HvcArray.lead (x : HvcArray) : Bytes := (x.nals.head?.map (·.data)).getD []

/-- A single array of the kind is filled, or the first NAL units of several happen to be
another one of the record when start codes are put between them. -/
def Separate (r : HvcRecord) (kind : Nat) : Prop :=
  (∃ x, filled kind r.arrays = [x] ∧ Led x.nals) ∨
    2 ≤ (filled kind r.arrays).length ∧ ∃ nal ∈ r.nals,
      nal.data = kStartCode.intercalate ((filled kind r.arrays).map HvcArray.lead)

theorem annexbNal_injective : Function.Injective annexbNal := fun _ _ h => List.append_cancel_left h

theorem isNal_firstNal {nals sub : List (Field 2)} (hne : sub ≠ []) (hsub : sub ⊆ nals) :
    IsNal nals (firstNal sub) ↔ Led sub := by
  cases sub with
  | nil => exact absurd rfl hne
  | cons f fs =>
    constructor
    · rintro ⟨nal, -, hdata, heq⟩ g hg
      obtain rfl : f = g := Option.some.inj hg
      rwa [annexbNal_injective heq]
    · intro hled
      exact ⟨f, hsub List.mem_cons_self, hled f rfl, rfl⟩

theorem firstNal_nals {x : HvcArray} (h : x.nals ≠ []) : firstNal x.nals = annexbNal x.lead := by
  rw [HvcArray.lead]
  cases hnals : x.nals with
  | nil => exact absurd hnals h
  | cons f fs => rfl

theorem mem_filled {kind : Nat} {xs : List HvcArray} {x : HvcArray} (h : x ∈ filled kind xs) :
    x ∈ xs ∧ x.nals ≠ [] := by
  obtain ⟨hx, hfilled⟩ := List.mem_filter.mp h
  exact ⟨hx, (of_decide_eq_true hfilled).2⟩

/-- The kept NAL units of a kind, with start codes between them. -/
theorem joined_eq {kind : Nat} {xs : List HvcArray} (hne : filled kind xs ≠ []) :
    joined kind xs = annexbNal (kStartCode.intercalate ((filled kind xs).map HvcArray.lead)) := by
  have hfilled : ∀ x ∈ filled kind xs, x.nals ≠ [] := fun x hx => (mem_filled hx).2
  rw [joined]
  generalize filled kind xs = ys at hne hfilled
  induction ys with
  | nil => exact absurd rfl hne
  | cons x ys ih =>
    obtain ⟨hx, hys⟩ := List.forall_mem_cons.mp hfilled
    cases ys with
    | nil => simp [firstNal_nals hx]
    | cons y ys =>
      rw [List.flatMap_cons, ih (List.cons_ne_nil y ys) hys, firstNal_nals hx]
      simp only [List.map_cons, List.intercalate_cons_cons, annexbNal, List.append_assoc]

theorem joined_ne_nil (kind : Nat) (xs : List HvcArray) :
    joined kind xs ≠ [] ↔ filled kind xs ≠ [] := by
  constructor
  · intro h hnil
    exact h (by rw [joined, hnil]; rfl)
  · intro h
    rw [joined_eq h]
    exact List.cons_ne_nil _ _

theorem complete_sets (r : HvcRecord) :
    r.sets.Complete ↔ ∀ kind ∈ [32, 33, 34], filled kind r.arrays ≠ [] := by
  simp only [ParameterSets.Complete, HvcRecord.sets, joined_ne_nil, List.forall_mem_cons,
    List.not_mem_nil, false_imp_iff, implies_true, and_true]

/-- What is kept of a kind is one of the record's NAL units. -/
theorem isNal_joined (r : HvcRecord) {kind : Nat} (hne : filled kind r.arrays ≠ []) :
    IsNal r.nals (joined kind r.arrays) ↔ Separate r kind := by
  rw [Separate]
  match hfilled : filled kind r.arrays with
  | [] => exact absurd hfilled hne
  | [x] =>
    obtain ⟨hx, hnals⟩ := mem_filled (show x ∈ filled kind r.arrays by rw [hfilled]; simp)
    have hsub : x.nals ⊆ r.nals := fun nal hnal => List.mem_flatMap.mpr ⟨x, hx, hnal⟩
    have hjoined : joined kind r.arrays = firstNal x.nals := by
      rw [joined, hfilled, List.flatMap_singleton]
    rw [hjoined, isNal_firstNal hnals hsub]
    constructor
    · exact fun hled => .inl ⟨x, rfl, hled⟩
    · rintro (⟨y, hy, hled⟩ | ⟨htwo, -⟩)
      · rwa [(List.cons.inj hy).1]
      · exact absurd htwo (Nat.not_succ_le_self 1)
  | x :: y :: ys =>
    rw [joined_eq hne, hfilled]
    constructor
    · rintro ⟨nal, hnal, -, heq⟩
      exact .inr ⟨Nat.le_add_left 2 _, nal, hnal, (annexbNal_injective heq).symm⟩
    · rintro (⟨z, hz, -⟩ | ⟨-, nal, hnal, heq⟩)
      · exact absurd (List.cons.inj hz).2 (List.cons_ne_nil y ys)
      · refine ⟨nal, hnal, ?_, congrArg annexbNal heq.symm⟩
        rw [heq, List.map_cons, List.map_cons, List.intercalate_cons_cons]
        simp [kStartCode]

/-- A blob that begins with an avcC record is nothing more, and neither list begins with
an empty NAL unit. -/
def AvccWellFormed (blob : Bytes) : Prop :=
  ∀ (a : AvcRecord) (rest : Bytes), blob = a.encode ++ rest → rest = [] ∧ Led a.sps ∧ Led a.pps

/-- A blob that begins with an hvcC record that has all three kinds keeps them apart. -/
def HvccWellFormed (blob : Bytes) : Prop :=
  ∀ (r : HvcRecord) (rest : Bytes), blob = r.encode ++ rest →
    (∀ kind ∈ [32, 33, 34], filled kind r.arrays ≠ []) → ∀ kind ∈ [32, 33, 34], Separate r kind

theorem isNal_sets (a : AvcRecord) :
    (IsNal a.nals a.sets.sps ↔ Led a.sps) ∧ (IsNal a.nals a.sets.pps ↔ Led a.pps) := by
  have hsps := List.ne_nil_of_length_pos a.sps_count.1
  have hpps := List.ne_nil_of_length_pos a.pps_count.1
  exact ⟨isNal_firstNal hsps (List.subset_append_left _ _),
    isNal_firstNal hpps (List.subset_append_right _ _)⟩

theorem avccExact_iff (blob : Bytes) : AvccExact blob ↔ AvccWellFormed blob := by
  constructor
  · rintro h a rest rfl
    obtain ⟨b, hb, hsps, hpps⟩ := h a.sets (parseAvcc_encode a rest)
    obtain ⟨rfl, hrest⟩ := AvcRecord.encode_append_inj (hb.trans (List.append_nil _).symm)
    exact ⟨hrest, (isNal_sets a).1.mp hsps, (isNal_sets a).2.mp hpps⟩
  · rintro h sets hparse
    obtain ⟨a, rest, rfl, rfl⟩ := parseAvcc_iff.mp hparse
    obtain ⟨rfl, hsps, hpps⟩ := h a rest rfl
    exact ⟨a, List.append_nil _, (isNal_sets a).1.mpr hsps, (isNal_sets a).2.mpr hpps⟩

theorem hvccExact_iff (blob : Bytes) : HvccExact blob ↔ HvccWellFormed blob := by
  have hkinds : ∀ r : HvcRecord, (∀ kind ∈ [32, 33, 34], filled kind r.arrays ≠ []) →
      ((IsNal r.nals r.sets.vps ∧ IsNal r.nals r.sets.sps ∧ IsNal r.nals r.sets.pps) ↔
        ∀ kind ∈ [32, 33, 34], Separate r kind) := by
    intro r hfilled
    have hv := isNal_joined r (hfilled 32 (by simp))
    have hs := isNal_joined r (hfilled 33 (by simp))
    have hp := isNal_joined r (hfilled 34 (by simp))
    simp only [HvcRecord.sets, hv, hs, hp, List.forall_mem_cons, List.not_mem_nil, false_imp_iff,
      implies_true, and_true]
  constructor
  · rintro h r rest rfl hfilled
    obtain ⟨r', rest', heq, hnals⟩ :=
      h r.sets (parseHvcc_encode r rest ((complete_sets r).mpr hfilled))
    obtain rfl := HvcRecord.encode_append_inj heq
    exact (hkinds r hfilled).mp hnals
  · rintro h sets hparse
    obtain ⟨r, rest, rfl, rfl, hcomplete⟩ := parseHvcc_iff.mp hparse
    have hfilled := (complete_sets r).mp hcomplete
    exact ⟨r, rest, rfl, (hkinds r hfilled).mpr (h r rest rfl hfilled)⟩

/-- Both parsers accept only complete configurations exactly when the blob is well formed
as far as they do not look. -/
theorem parsers_exact (blob : Bytes) :
    AvccExact blob ∧ HvccExact blob ↔ AvccWellFormed blob ∧ HvccWellFormed blob :=
  and_congr (avccExact_iff blob) (hvccExact_iff blob)

/-- An avcC record with one parameter set of each kind. -/
def smallRecord : AvcRecord where
  profile := [100, 0, 31, 255]
  reserved := ⟨7, by decide⟩
  sps := [⟨[103], by decide⟩]
  pps := [⟨[104], by decide⟩]
  profile_length := rfl
  sps_count := by decide
  pps_count := by decide

/-- A record with one byte behind it is accepted. -/
theorem trailing_byte_accepted :
    ¬ (AvccExact (smallRecord.encode ++ [0]) ∧ HvccExact (smallRecord.encode ++ [0])) := by
  rintro ⟨havcc, -⟩
  exact absurd ((avccExact_iff _).mp havcc smallRecord [0] rfl).1 (List.cons_ne_nil 0 [])

end AirPlay.Video.Decoder
