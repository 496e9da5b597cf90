import AirPlay.Mirror.Syntax
import AirPlay.Mirror.Emulation

/-! What the parser makes of a sequence parameter set that was written.

`Sps` has the syntax elements, `nal` is the unit that an encoder writes for them, `width`
and `height` are the sides of the cropped picture. The parser always finds the elements; it
takes the crop units of 4:2:0, so the sides are right as long as nothing is cropped where
another chroma format has other units (`parse_iff`). -/
namespace AirPlay.Mirror

/-! ### Parameter sets -/

/-- A number that a code can stand for. -/
def IsUe (n : Nat) : Prop := n ≤ 2 ^ 32 - 2

def IsSe (x : Int) : Prop := -(2 ^ 31 - 1) ≤ x ∧ x ≤ 2 ^ 31 - 1

instance (n : Nat) : Decidable (IsUe n) := inferInstanceAs (Decidable (n ≤ _))

instance (x : Int) : Decidable (IsSe x) := inferInstanceAs (Decidable (_ ∧ _))

def seCode (x : Int) : List Bool := Bits.code (Bits.unsigned x)

/-- The differences of one scaling list, up to the one that makes the next scale 0. -/
def IsScaling : Nat → Int → List Int → Prop
  | 0, _, deltas => deltas = []
  | _ + 1, _, [] => False
  | left + 1, last, delta :: deltas =>
    (-128 ≤ delta ∧ delta ≤ 127) ∧
      if (last + delta + 256) % 256 = 0 then deltas = []
      else IsScaling left ((last + delta + 256) % 256) deltas

/-- The syntax elements of the profiles with chroma and bit-depth extensions. -/
structure Chroma where
  chromaFormatIdc : Nat
  separateColourPlaneFlag : Bool := false
  bitDepthLumaMinus8 : Nat := 0
  bitDepthChromaMinus8 : Nat := 0
  qpprimeYZeroTransformBypassFlag : Bool := false
  /-- The scaling matrix: a list of differences for each list that is present. -/
  scaling : Option (List (Option (List Int))) := none

namespace Chroma

def listBits : Option (List Int) → List Bool
  | none => [false]
  | some deltas => true :: deltas.flatMap seCode

def bits (c : Chroma) : List Bool :=
  Bits.code c.chromaFormatIdc ++
    ((if c.chromaFormatIdc = 3 then [c.separateColourPlaneFlag] else []) ++
      (Bits.code c.bitDepthLumaMinus8 ++ (Bits.code c.bitDepthChromaMinus8 ++
        ([c.qpprimeYZeroTransformBypassFlag] ++
          match c.scaling with
          | none => [false]
          | some lists => [true] ++ lists.flatMap listBits))))

structure WellFormed (c : Chroma) : Prop where
  format : c.chromaFormatIdc ≤ 3
  luma : IsUe c.bitDepthLumaMinus8
  chroma : IsUe c.bitDepthChromaMinus8
  scaling : ∀ lists ∈ c.scaling, lists.length = (if c.chromaFormatIdc ≠ 3 then 8 else 12) ∧
    ∀ i, ∀ deltas, lists[i]? = some (some deltas) → IsScaling (if i < 6 then 16 else 64) 8 deltas

end Chroma

/-- `pic_order_cnt_type` with the elements that belong to it. -/
inductive PicOrder where
  | lsb (log2MaxPicOrderCntLsbMinus4 : Nat)
  | cycle (deltaPicOrderAlwaysZeroFlag : Bool) (offsetForNonRefPic : Int)
    (offsetForTopToBottomField : Int) (offsetsForRefFrame : List Int)
  | display

namespace PicOrder

def bits : PicOrder → List Bool
  | lsb n => Bits.code 0 ++ Bits.code n
  | cycle always nonRef topToBottom refFrame =>
    Bits.code 1 ++ ([always] ++ (seCode nonRef ++ (seCode topToBottom ++
      (Bits.code refFrame.length ++ refFrame.flatMap seCode))))
  | display => Bits.code 2

def WellFormed : PicOrder → Prop
  | lsb n => IsUe n
  | cycle _ nonRef topToBottom refFrame =>
    IsSe nonRef ∧ IsSe topToBottom ∧ IsUe refFrame.length ∧ ∀ x ∈ refFrame, IsSe x
  | display => True

end PicOrder

/-- The crop offsets. -/
structure Crop where
  left : Nat := 0
  right : Nat := 0
  top : Nat := 0
  bottom : Nat := 0

def Crop.bits (c : Crop) : List Bool :=
  Bits.code c.left ++ (Bits.code c.right ++ (Bits.code c.top ++ Bits.code c.bottom))

/-- The syntax elements in the order of the syntax; `tail` has what comes behind the crop
offsets, to the end of the last byte. -/
structure Sps where
  header : UInt8 := 0x67
  profileIdc : UInt8
  constraintFlags : UInt8 := 0
  levelIdc : UInt8
  seqParameterSetId : Nat := 0
  chroma : Option Chroma := none
  log2MaxFrameNumMinus4 : Nat := 0
  picOrder : PicOrder := .display
  maxNumRefFrames : Nat := 0
  gapsInFrameNumValueAllowedFlag : Bool := false
  picWidthInMbsMinus1 : Nat
  picHeightInMapUnitsMinus1 : Nat
  frameMbsOnlyFlag : Bool := true
  mbAdaptiveFrameFieldFlag : Bool := false
  direct8x8InferenceFlag : Bool := false
  crop : Option Crop := none
  tail : List Bool

namespace Sps

def bits (s : Sps) : List Bool :=
  Bits.code s.seqParameterSetId ++
    ((s.chroma.elim [] Chroma.bits) ++
      (Bits.code s.log2MaxFrameNumMinus4 ++ (s.picOrder.bits ++
        (Bits.code s.maxNumRefFrames ++ ([s.gapsInFrameNumValueAllowedFlag] ++
          (Bits.code s.picWidthInMbsMinus1 ++ (Bits.code s.picHeightInMapUnitsMinus1 ++
            ([s.frameMbsOnlyFlag] ++
              ((if !s.frameMbsOnlyFlag then [s.mbAdaptiveFrameFieldFlag] else []) ++
                ([s.direct8x8InferenceFlag] ++
                  match s.crop with
                  | none => [false]
                  | some c => [true] ++ c.bits))))))))))

/-- The raw bytes behind the header. -/
def rbsp (s : Sps) : Bytes :=
  s.profileIdc :: s.constraintFlags :: s.levelIdc :: Bits.toBytes (s.bits ++ s.tail)

def nal (s : Sps) : Bytes := s.header :: escape 0 s.rbsp

/-! ### The picture -/

/-- 4:2:0 where the profile says nothing, and 0 where the planes are coded apart. -/
def chromaArrayType (s : Sps) : Nat :=
  s.chroma.elim 1 fun c =>
    if c.chromaFormatIdc = 3 ∧ c.separateColourPlaneFlag then 0 else c.chromaFormatIdc

/-- A map unit is one row of macroblocks of a frame, or two. -/
def mapUnit (s : Sps) : Nat := if s.frameMbsOnlyFlag then 1 else 2

def cropUnitX (s : Sps) : Nat := if s.chromaArrayType = 1 ∨ s.chromaArrayType = 2 then 2 else 1

def cropUnitY (s : Sps) : Nat := (if s.chromaArrayType = 1 then 2 else 1) * s.mapUnit

def cropped (s : Sps) : Crop := s.crop.getD {}

def codedWidth (s : Sps) : Nat := (s.picWidthInMbsMinus1 + 1) * 16

def codedHeight (s : Sps) : Nat := (s.picHeightInMapUnitsMinus1 + 1) * 16 * s.mapUnit

/-- What is cropped of the width. -/
def cropX (s : Sps) : Nat := s.cropUnitX * (s.cropped.left + s.cropped.right)

def cropY (s : Sps) : Nat := s.cropUnitY * (s.cropped.top + s.cropped.bottom)

def info (s : Sps) : SpsInfo where
  profileIdc := s.profileIdc
  levelIdc := s.levelIdc
  width := s.codedWidth - s.cropX
  height := s.codedHeight - s.cropY
  interlaced := !s.frameMbsOnlyFlag

structure WellFormed (s : Sps) : Prop where
  header : s.header &&& 0x1f = 7
  id : IsUe s.seqParameterSetId
  chroma : s.chroma.isSome = hasChromaExt s.profileIdc ∧ ∀ c ∈ s.chroma, c.WellFormed
  frameNum : IsUe s.log2MaxFrameNumMinus4
  picOrder : s.picOrder.WellFormed
  refFrames : IsUe s.maxNumRefFrames
  width : IsUe s.picWidthInMbsMinus1
  height : IsUe s.picHeightInMapUnitsMinus1
  crop : ∀ c ∈ s.crop, IsUe c.left ∧ IsUe c.right ∧ IsUe c.top ∧ IsUe c.bottom
  /-- The crop leaves something of the picture. -/
  positive : s.cropX < s.codedWidth ∧ s.cropY < s.codedHeight
  bytes : 8 ∣ (s.bits ++ s.tail).length

/-- A side is counted right: where it does not fit in 32 bits, neither does what is cropped
of it, in the same way; and the unit is the code's, or what is cropped vanishes in 32 bits,
as nothing does. -/
def Counted (unit codeUnit side crop : Nat) : Prop :=
  crop / 2 ^ 32 = side / 2 ^ 32 ∧ (unit = codeUnit ∨ crop % 2 ^ 32 = 0)

/-- Both sides, with the crop units of 4:2:0. -/
def Measured (s : Sps) : Prop :=
  Counted s.cropUnitX 2 s.codedWidth s.cropX ∧
    Counted s.cropUnitY (2 * s.mapUnit) s.codedHeight s.cropY

end Sps

/-! ### What was written is read -/

/-- The syntax takes these bits, whatever comes behind them, and returns a value. -/
def Yields {α : Type} (y : Syntax α) (bits : List Bool) (a : α) : Prop :=
  ∀ rest, y (bits ++ rest) = .ok (a, rest)

namespace Yields
variable {α β : Type} {y : Syntax α} {bits bits' : List Bool} {a : α} {b : β}

theorem pure (a : α) : Yields (Pure.pure a) [] a := fun _ => rfl

theorem bind {g : α → Syntax β} (hy : Yields y bits a) (hg : Yields (g a) bits' b) :
    Yields (y >>= g) (bits ++ bits') b := by
  intro rest
  rw [List.append_assoc, Reads.bind_ok (hy (bits' ++ rest)), hg]

/-- What is read last ends the bits. -/
theorem bind_nil {g : α → Syntax β} (hy : Yields y bits a) (hg : Yields (g a) [] b) :
    Yields (y >>= g) bits b := by
  have h := hy.bind hg
  rwa [List.append_nil] at h

theorem ite {c : Prop} [Decidable c] {y' : Syntax α} {a' : α} (hy : c → Yields y bits a)
    (hy' : ¬ c → Yields y' bits' a') :
    Yields (if c then y else y') (if c then bits else bits') (if c then a else a') := by
  by_cases hc : c
  · rw [if_pos hc, if_pos hc, if_pos hc]
    exact hy hc
  · rw [if_neg hc, if_neg hc, if_neg hc]
    exact hy' hc

theorem bit (b : Bool) : Yields Syntax.bit [b] b := fun _ => rfl

theorem code {n : Nat} (h : IsUe n) : Yields Syntax.code (Bits.code n) n := by
  intro rest
  have hlog : (n + 1).log2 < 32 := (Nat.log2_lt (Nat.succ_ne_zero n)).mpr (by rw [IsUe] at h; omega)
  have hsmall : ¬ Syntax.Excessive (Bits.code n ++ rest) := by
    rintro ⟨hzeros, -⟩
    rw [Bits.code, List.append_assoc, List.cons_append, Bits.zeros_code] at hzeros
    omega
  rw [Syntax.code, if_neg hsmall, Bits.decode_code]

theorem signedCode {x : Int} (h : IsSe x) : Yields Syntax.signedCode (seCode x) x := by
  have hcode : IsUe (Bits.unsigned x) := by
    rw [IsSe] at h
    rw [IsUe, Bits.unsigned]
    split
    · omega
    · omega
  have hyields : Yields Syntax.signedCode (seCode x) (Bits.signed (Bits.unsigned x)) :=
    (code hcode).bind_nil (pure _)
  rwa [Bits.signed_unsigned] at hyields

/-! #### Scaling lists -/

/-- Nothing is written behind a scale of 0. -/
theorem scalingList_zero (left : Nat) (last : Int) :
    Yields (Syntax.scalingList left last 0) [] () := by
  induction left with
  | zero => exact pure ()
  | succ left ih => exact (pure 0).bind ih

theorem scalingList (left : Nat) {last next : Int} {deltas : List Int}
    (h : IsScaling left last deltas) (hlast : 1 ≤ last ∧ last ≤ 255) (hnext : next ≠ 0) :
    Yields (Syntax.scalingList left last next) (deltas.flatMap seCode) () := by
  induction left generalizing last next deltas with
  | zero =>
    obtain rfl : deltas = [] := h
    exact pure ()
  | succ left ih =>
    cases deltas with
    | nil => exact absurd h id
    | cons delta deltas =>
      obtain ⟨hdelta, hrest⟩ := h
      have hfits : Checked.Fits 32 (last + delta) ∧ Checked.Fits 32 (last + delta + 256) := by
        rw [Checked.Fits, Checked.Fits]
        omega
      have hmod : (last + delta + 256).tmod 256 = (last + delta + 256) % 256 :=
        Int.tmod_eq_emod_of_nonneg (by omega)
      have hscale : Yields (Syntax.nextScale last) (seCode delta) ((last + delta + 256) % 256) := by
        refine (signedCode ⟨by omega, by omega⟩).bind_nil ?_
        rw [if_pos hfits, hmod]
        exact pure _
      rw [List.flatMap_cons, Syntax.scalingList, if_pos hnext]
      refine hscale.bind ?_
      by_cases hzero : (last + delta + 256) % 256 = 0
      · rw [if_pos hzero] at hrest
        rw [hzero, hrest]
        exact scalingList_zero left last
      · rw [if_neg hzero] at hrest
        rw [if_pos hzero]
        exact ih hrest (by omega) hzero

theorem scalingLists (lists : List (Option (List Int))) (i : Nat)
    (h : ∀ j, ∀ deltas, lists[j]? = some (some deltas) →
      IsScaling (if i + j < 6 then 16 else 64) 8 deltas) :
    Yields (Syntax.scalingLists lists.length i) (lists.flatMap Chroma.listBits) () := by
  induction lists generalizing i with
  | nil => exact pure ()
  | cons list lists ih =>
    have hrest := ih (i + 1) fun j deltas hj => by
      have := h (j + 1) deltas hj
      rwa [← Nat.add_assoc, Nat.add_right_comm] at this
    rw [List.flatMap_cons]
    cases list with
    | none => exact (bit false).bind ((pure ()).bind hrest)
    | some deltas =>
      have hlist := scalingList _ (h 0 deltas rfl) (by decide) (by decide : (8 : Int) ≠ 0)
      exact (bit true).bind (hlist.bind hrest)

/-! #### The other parts -/

theorem chromaExt {c : Chroma} (h : c.WellFormed) : Yields Syntax.chromaExt c.bits () := by
  have hformat : IsUe c.chromaFormatIdc := h.format.trans (by decide)
  have hseparate : Yields (if c.chromaFormatIdc = 3 then Syntax.bit else Pure.pure false)
      (if c.chromaFormatIdc = 3 then [c.separateColourPlaneFlag] else [])
      (if c.chromaFormatIdc = 3 then c.separateColourPlaneFlag else false) :=
    ite (fun _ => bit c.separateColourPlaneFlag) fun _ => pure false
  refine (code hformat).bind (hseparate.bind ((code h.luma).bind ((code h.chroma).bind
    ((bit _).bind ?_))))
  cases hscaling : c.scaling with
  | none => exact (bit false).bind_nil (pure ())
  | some lists =>
    obtain ⟨hlength, hlists⟩ := h.scaling lists hscaling
    refine (bit true).bind ?_
    rw [if_pos rfl, ← hlength]
    exact scalingLists lists 0 fun j deltas hj => by
      rw [Nat.zero_add]
      exact hlists j deltas hj

theorem offsets (refFrame : List Int) (h : ∀ x ∈ refFrame, IsSe x) :
    Yields (Syntax.offsets refFrame.length) (refFrame.flatMap seCode) () := by
  induction refFrame with
  | nil => exact pure ()
  | cons x refFrame ih =>
    obtain ⟨hx, hrest⟩ := List.forall_mem_cons.mp h
    exact (signedCode hx).bind (ih hrest)

theorem picOrderCnt {p : PicOrder} (h : p.WellFormed) : Yields Syntax.picOrderCnt p.bits () := by
  cases p with
  | lsb n => exact (code (by decide : IsUe 0)).bind ((code h).bind_nil (pure ()))
  | cycle always nonRef topToBottom refFrame =>
    obtain ⟨hnonRef, htopToBottom, hlength, hrefFrame⟩ := h
    exact (code (by decide : IsUe 1)).bind ((bit always).bind ((signedCode hnonRef).bind
      ((signedCode htopToBottom).bind ((code hlength).bind (offsets refFrame hrefFrame)))))
  | display => exact (code (by decide : IsUe 2)).bind_nil (pure ())

theorem cropping {c : Crop} (h : IsUe c.left ∧ IsUe c.right ∧ IsUe c.top ∧ IsUe c.bottom)
    (f : Fields) :
    Yields (Syntax.cropping f) c.bits {f with
      cropLeft := c.left, cropRight := c.right, cropTop := c.top, cropBottom := c.bottom} := by
  obtain ⟨hleft, hright, htop, hbottom⟩ := h
  exact (code hleft).bind ((code hright).bind ((code htop).bind ((code hbottom).bind_nil (pure _))))

end Yields

/-- What the parser keeps. -/
def Sps.fields (s : Sps) : Fields where
  picWidthInMbsMinus1 := s.picWidthInMbsMinus1
  picHeightInMapUnitsMinus1 := s.picHeightInMapUnitsMinus1
  frameMbsOnlyFlag := s.frameMbsOnlyFlag
  frameCroppingFlag := s.crop.isSome
  cropLeft := s.cropped.left
  cropRight := s.cropped.right
  cropTop := s.cropped.top
  cropBottom := s.cropped.bottom

namespace Sps
variable {s : Sps}

theorem WellFormed.yields (h : s.WellFormed) :
    Yields (Syntax.fields (hasChromaExt s.profileIdc)) s.bits s.fields := by
  have hchroma : Yields (if hasChromaExt s.profileIdc then Syntax.chromaExt else Pure.pure ())
      (s.chroma.elim [] Chroma.bits) () := by
    obtain ⟨hsome, hwell⟩ := h.chroma
    rw [← hsome]
    cases hc : s.chroma with
    | none => exact Yields.pure ()
    | some c => exact Yields.chromaExt (hwell c hc)
  have hfield : Yields (if !s.frameMbsOnlyFlag then Syntax.bit else Pure.pure false)
      (if !s.frameMbsOnlyFlag then [s.mbAdaptiveFrameFieldFlag] else [])
      (if !s.frameMbsOnlyFlag then s.mbAdaptiveFrameFieldFlag else false) :=
    Yields.ite (fun _ => Yields.bit _) fun _ => Yields.pure false
  refine (Yields.code h.id).bind (hchroma.bind ((Yields.code h.frameNum).bind
    ((Yields.picOrderCnt h.picOrder).bind ((Yields.code h.refFrames).bind ((Yields.bit _).bind
    ((Yields.code h.width).bind ((Yields.code h.height).bind ((Yields.bit _).bind
    (hfield.bind ((Yields.bit _).bind ?_))))))))))
  cases hcrop : s.crop with
  | none =>
    have hfields : s.fields = {
        picWidthInMbsMinus1 := s.picWidthInMbsMinus1
        picHeightInMapUnitsMinus1 := s.picHeightInMapUnitsMinus1
        frameMbsOnlyFlag := s.frameMbsOnlyFlag
        frameCroppingFlag := false} := by
      rw [fields, cropped, hcrop]
      rfl
    rw [hfields]
    exact (Yields.bit false).bind_nil (Yields.pure _)
  | some c =>
    have hfields : s.fields = {
        picWidthInMbsMinus1 := s.picWidthInMbsMinus1
        picHeightInMapUnitsMinus1 := s.picHeightInMapUnitsMinus1
        frameMbsOnlyFlag := s.frameMbsOnlyFlag
        frameCroppingFlag := true
        cropLeft := c.left
        cropRight := c.right
        cropTop := c.top
        cropBottom := c.bottom} := by
      rw [fields, cropped, hcrop]
      rfl
    rw [hfields]
    exact (Yields.bit true).bind (Yields.cropping (h.crop c hcrop) _)

/-- The parser finds what was written. -/
theorem WellFormed.parse_eq (h : s.WellFormed) :
    ∃ br, parseH264Sps s.nal = some (true,
      {s.info with
        width := (computeFrameSize s.fields).1
        height := (computeFrameSize s.fields).2}, br) := by
  have hrbsp : ebspToRbsp s.nal.tail = s.rbsp :=
    ebspToRbsp_zeros s.rbsp 0 (Nat.zero_le 2)
  have hbegins : Begins s.nal := by
    refine ⟨?_, h.header, ?_⟩
    · have hle := ebspToRbsp_length s.nal.tail
      rw [hrbsp, List.length_tail] at hle
      have hthree : 3 ≤ s.rbsp.length := Nat.le_add_left 3 _
      omega
    · rw [hrbsp]
      exact Nat.le_add_left 3 _
  have hbits : Bits.ofBytes (s.rbsp.drop 3) = s.bits ++ s.tail := Bits.ofBytes_toBytes _ h.bytes
  have hyields := h.yields s.tail
  rw [← hbits] at hyields
  obtain ⟨br, hrun, -, herror, -⟩ :=
    (Reads.readFields (hasChromaExt s.profileIdc)).ok (Ok.start (s.rbsp.drop 3)) rfl hyields
  refine ⟨br, ?_⟩
  rw [parse_of_begins hbegins, hrbsp]
  show Option.map _ (readFields (hasChromaExt s.profileIdc) _) = _
  rw [hrun, Option.map_some]
  dsimp only
  rw [herror]
  rfl

end Sps

/-! ### The sides -/

/-- One side in 32 bits, as `computeFrameSize` has it. -/
def trimmed (side crop : Nat) : Nat :=
  if side % 2 ^ 32 > crop % 2 ^ 32 then side % 2 ^ 32 - crop % 2 ^ 32 else side % 2 ^ 32

/-- Without the flag there are no offsets. -/
theorem computeFrameSize_eq (f : Fields) (h : f.frameCroppingFlag = false →
      f.cropLeft = 0 ∧ f.cropRight = 0 ∧ f.cropTop = 0 ∧ f.cropBottom = 0) :
    computeFrameSize f =
      (trimmed ((f.picWidthInMbsMinus1 + 1) * 16) (2 * (f.cropLeft + f.cropRight)),
        trimmed ((f.picHeightInMapUnitsMinus1 + 1) * 16 * if f.frameMbsOnlyFlag then 1 else 2)
          (2 * (if f.frameMbsOnlyFlag then 1 else 2) * (f.cropTop + f.cropBottom))) := by
  obtain ⟨width, height, frames, flag, left, right, top, bottom⟩ := f
  have hfour : 2 * 2 * (top + bottom) = 2 * (top + bottom) * 2 := by ring
  cases flag with
  | false =>
    obtain ⟨rfl, rfl, rfl, rfl⟩ := h rfl
    cases frames
    · simp [computeFrameSize, trimmed]
    · simp [computeFrameSize, trimmed]
  | true =>
    cases frames
    · simp [computeFrameSize, trimmed, hfour]
    · simp [computeFrameSize, trimmed]

namespace Sps
variable {s : Sps}

theorem trimmed_iff {unit codeUnit side offsets : Nat} (hunit : 0 < unit)
    (hcode : codeUnit = unit ∨ codeUnit = 2 * unit) (hpositive : unit * offsets < side) :
    trimmed side (codeUnit * offsets) = side - unit * offsets ↔
      Counted unit codeUnit side (unit * offsets) := by
  rw [trimmed, Counted]
  rcases hcode with rfl | rfl
  · generalize codeUnit * offsets = crop at hpositive ⊢
    split <;> omega
  · rw [Nat.mul_assoc]
    generalize unit * offsets = crop at hpositive ⊢
    split <;> omega

/-- The code takes 2 for the crop units of a frame. -/
theorem computeFrameSize_fields (s : Sps) :
    computeFrameSize s.fields =
      (trimmed s.codedWidth (2 * (s.cropped.left + s.cropped.right)),
        trimmed s.codedHeight (2 * s.mapUnit * (s.cropped.top + s.cropped.bottom))) := by
  have hcrop : s.crop.isSome = false → s.cropped = {} := by
    intro hflag
    rw [cropped, Option.not_isSome_iff_eq_none.mp (ne_true_of_eq_false hflag)]
    rfl
  refine computeFrameSize_eq s.fields fun hflag => ?_
  dsimp only [fields]
  rw [hcrop hflag]
  exact ⟨rfl, rfl, rfl, rfl⟩

theorem cropUnitX_cases (s : Sps) :
    0 < s.cropUnitX ∧ (2 = s.cropUnitX ∨ 2 = 2 * s.cropUnitX) := by
  rw [cropUnitX]
  split <;> decide

theorem cropUnitY_cases (s : Sps) : 0 < s.cropUnitY ∧
    (2 * s.mapUnit = s.cropUnitY ∨ 2 * s.mapUnit = 2 * s.cropUnitY) := by
  have hunit : 0 < s.mapUnit := by
    rw [mapUnit]
    split <;> decide
  rw [cropUnitY]
  split <;> omega

/-- The parser returns the picture of a parameter set exactly when its sides are counted
right. -/
theorem parse_iff (s : Sps) (h : s.WellFormed) :
    (∃ br, parseH264Sps s.nal = some (true, s.info, br)) ↔ s.Measured := by
  obtain ⟨br, hparse⟩ := h.parse_eq
  have hx := trimmed_iff s.cropUnitX_cases.1 s.cropUnitX_cases.2 h.positive.1
  have hy := trimmed_iff s.cropUnitY_cases.1 s.cropUnitY_cases.2 h.positive.2
  rw [computeFrameSize_fields] at hparse
  rw [Measured, cropX, cropY, ← hx, ← hy]
  constructor
  · rintro ⟨br', hsame⟩
    have hinfo := congrArg (fun p => p.2.1) (Option.some.inj (hparse.symm.trans hsame))
    exact ⟨congrArg SpsInfo.width hinfo, congrArg SpsInfo.height hinfo⟩
  · rintro ⟨hwidth, hheight⟩
    refine ⟨br, hparse.trans ?_⟩
    dsimp only
    rw [hwidth, hheight]
    rfl

end Sps

/-! ### Two parameter sets -/

/-- 1920x1080 in 4:2:0. -/
def hdSps : Sps where
  profileIdc := 66
  levelIdc := 40
  picWidthInMbsMinus1 := 119
  picHeightInMapUnitsMinus1 := 67
  crop := some {bottom := 4}
  tail := [false, true, false, false]

/-- The same picture in 4:4:4, where a crop offset is one line. -/
def fullChromaSps : Sps where
  profileIdc := 244
  levelIdc := 40
  chroma := some {chromaFormatIdc := 3}
  picWidthInMbsMinus1 := 119
  picHeightInMapUnitsMinus1 := 67
  crop := some {bottom := 8}
  tail := [false, true, false, false, false, false, false, false]

theorem hdSps_wellFormed : hdSps.WellFormed where
  header := by decide
  id := by decide
  chroma := ⟨by decide, fun _ hc => absurd hc.symm (Option.some_ne_none _)⟩
  frameNum := by decide
  picOrder := trivial
  refFrames := by decide
  width := by decide
  height := by decide
  crop := fun c hc => by
    obtain rfl := Option.some.inj hc
    decide
  positive := by decide
  bytes := by decide

/-- What nearly every stream has. -/
theorem hd_parsed : ∃ br, parseH264Sps hdSps.nal = some (true, hdSps.info, br) :=
  (Sps.parse_iff hdSps hdSps_wellFormed).mpr ⟨⟨by decide, by decide⟩, ⟨by decide, by decide⟩⟩

/-- The code takes two lines for each. -/
theorem full_chroma_short : fullChromaSps.WellFormed ∧ fullChromaSps.info.height = 1080 ∧
    (parseH264Sps fullChromaSps.nal).map (fun p => (p.1, p.2.1.height)) = some (true, 1072) where
  left :=
    { header := by decide
      id := by decide
      chroma := ⟨by decide, fun c hc => by
        obtain rfl := Option.some.inj hc
        exact ⟨by decide, by decide, by decide, fun _ hlists =>
          absurd hlists.symm (Option.some_ne_none _)⟩⟩
      frameNum := by decide
      picOrder := trivial
      refFrames := by decide
      width := by decide
      height := by decide
      crop := fun c hc => by
        obtain rfl := Option.some.inj hc
        decide
      positive := by decide
      bytes := by decide }
  right := ⟨by decide, by decide +kernel⟩

end AirPlay.Mirror
