import AirPlay.Library.Bits
import AirPlay.Library.Checked

/-! The parser of sequence parameter sets.

It takes the emulation prevention bytes out of the NAL unit and reads bits, Exp-Golomb
codes among them, in the order of the syntax. A read beyond the end sets a flag, and goes
on with zeros; the caller looks at the flag at last. A shift by the width and a signed
overflow are not defined, and a parse that comes to one is none. -/
namespace AirPlay.Mirror

/-- Takes the 03 out of 00 00 03. -/
def ebspToRbsp : Bytes → Bytes
  | 0 :: 0 :: 3 :: rest => 0 :: 0 :: ebspToRbsp rest
  | b :: rest => b :: ebspToRbsp rest
  | [] => []

/-! ### Bits -/

/-- A call of `ue`: the bits before it, what it has returned, and the flag behind it. -/
structure Call where
  bits : List Bool
  value : Nat
  error : Bool

/-- `BitReader`, with the position in bits. -/
structure BitReader where
  buf : Bytes
  pos : Nat := 0
  error : Bool := false
  /-- Not in the code: the calls of `ue` so far. -/
  calls : List Call := []

/-- The bits that are still to come. -/
def BitReader.rest (r : BitReader) : List Bool := (Bits.ofBytes r.buf).drop r.pos

abbrev Reading := StateT BitReader Option

def failed : Reading Bool := fun r => some (r.error, r)

def u1 : Reading Bool := fun r =>
  if r.buf.length * 8 ≤ r.pos then some (false, {r with error := true})
  else
    let byte := r.buf.getD (r.pos / 8) 0
    some ((byte.toNat >>> (7 - r.pos % 8)) % 2 = 1, {r with pos := r.pos + 1})

/-- The loop of `u`, with the iterations left. -/
def uLoop : Nat → Nat → Reading Nat
  | 0, v => pure v
  | left + 1, v => do
    let bit ← u1
    let v := (2 * v + bit.toNat) % 2 ^ 32
    if ← failed then return 0
    uLoop left v

def u (n : Nat) : Reading Nat := uLoop n 0

/-- The loop of `ue`, with what `zeros` may still grow by. -/
def zerosLoop : Nat → Nat → Reading Nat
  | 0, zeros => do
    let _ ← u1
    return zeros
  | left + 1, zeros => do
    let bit ← u1
    if bit || (← failed) then return zeros
    zerosLoop left (zeros + 1)

def ueValue : Reading Nat := do
  let zeros ← zerosLoop 32 0
  if ← failed then return 0
  if zeros = 0 then return 0
  let v ← u zeros
  if ← failed then return 0
  let power ← Checked.shl 32 1 zeros
  return (power - 1 + v) % 2 ^ 32

def ue : Reading Nat := fun r =>
  (ueValue r).map fun (v, r') => (v, {r' with calls := r'.calls ++ [⟨r.rest, v, r'.error⟩]})

/-- The halves of a 32-bit number are `int32_t`s. -/
def se : Reading Int := do
  let k ← ue
  if ← failed then return 0
  if k = 0 then return 0
  if k % 2 = 1 then return ((k + 1) % 2 ^ 32 / 2 : Nat)
  else Checked.sub 32 0 (k / 2 : Nat)

/-! ### Syntax -/

/-- `%` rounds to zero. -/
def nextScale (last : Int) : Reading Int := do
  let delta ← se
  let sum ← Checked.add 32 last delta
  let sum ← Checked.add 32 sum 256
  return sum.tmod 256

/-- The loop over the scales of one list, with the iterations left. -/
def scalingList : Nat → Int → Int → Reading Unit
  | 0, _, _ => pure ()
  | left + 1, last, next => do
    if ← failed then return ()
    let next ← (if next ≠ 0 then nextScale last else pure next)
    scalingList left (if next ≠ 0 then next else last) next

/-- The loop over the lists from the `i`-th on. -/
def scalingLists : Nat → Nat → Reading Unit
  | 0, _ => pure ()
  | left + 1, i => do
    if ← failed then return ()
    let present ← u1
    (if present then scalingList (if i < 6 then 16 else 64) 8 8 else pure ())
    scalingLists left (i + 1)

def chromaExt : Reading Unit := do
  let chromaFormatIdc ← ue
  let _ ← (if chromaFormatIdc = 3 then u1 else pure false)
  let _ ← ue
  let _ ← ue
  let _ ← u1
  let present ← u1
  (if present then scalingLists (if chromaFormatIdc ≠ 3 then 8 else 12) 0 else pure ())

/-- The loop over the reference frames' offsets. -/
def offsets : Nat → Reading Unit
  | 0 => pure ()
  | left + 1 => do
    if ← failed then return ()
    let _ ← se
    offsets left

def picOrderCnt : Reading Unit := do
  let picOrderCntType ← ue
  (if picOrderCntType = 0 then do
    let _ ← ue
    pure ()
  else if picOrderCntType = 1 then do
    let _ ← u1
    let _ ← se
    let _ ← se
    let n ← ue
    offsets n
  else pure ())

/-- What the parser keeps of the syntax elements. -/
structure Fields where
  picWidthInMbsMinus1 : Nat
  picHeightInMapUnitsMinus1 : Nat
  frameMbsOnlyFlag : Bool
  frameCroppingFlag : Bool
  cropLeft : Nat := 0
  cropRight : Nat := 0
  cropTop : Nat := 0
  cropBottom : Nat := 0

/-- The crop offsets behind the flag. -/
def cropping (fields : Fields) : Reading Fields := do
  let cropLeft ← ue
  let cropRight ← ue
  let cropTop ← ue
  let cropBottom ← ue
  return {fields with cropLeft, cropRight, cropTop, cropBottom}

/-- What stands behind the level. -/
def readFields (hasChromaExt : Bool) : Reading Fields := do
  let _ ← ue
  (if hasChromaExt then chromaExt else pure ())
  let _ ← ue
  picOrderCnt
  let _ ← ue
  let _ ← u1
  let picWidthInMbsMinus1 ← ue
  let picHeightInMapUnitsMinus1 ← ue
  let frameMbsOnlyFlag ← u1
  let _ ← (if !frameMbsOnlyFlag then u1 else pure false)
  let _ ← u1
  let frameCroppingFlag ← u1
  let fields :=
    {picWidthInMbsMinus1, picHeightInMapUnitsMinus1, frameMbsOnlyFlag, frameCroppingFlag}
  (if frameCroppingFlag then cropping fields else pure fields)

/-! ### The parser -/

/-- The sum and the products are of 32 bits. -/
def computeFrameSize (f : Fields) : Nat × Nat :=
  let wMb := (f.picWidthInMbsMinus1 + 1) * 16 % 2 ^ 32
  let hMb := (f.picHeightInMapUnitsMinus1 + 1) * 16 % 2 ^ 32
  let hMb := if !f.frameMbsOnlyFlag then hMb * 2 % 2 ^ 32 else hMb
  let cropX := 2 * (f.cropLeft + f.cropRight) % 2 ^ 32
  let cropY := 2 * (f.cropTop + f.cropBottom) * (if f.frameMbsOnlyFlag then 1 else 2) % 2 ^ 32
  let (cropX, cropY) := if !f.frameCroppingFlag then (0, 0) else (cropX, cropY)
  (if wMb > cropX then wMb - cropX else wMb, if hMb > cropY then hMb - cropY else hMb)

/-- What `parse_h264_sps` reports. -/
structure SpsInfo where
  profileIdc : UInt8 := 0
  levelIdc : UInt8 := 0
  width : Nat := 0
  height : Nat := 0
  interlaced : Bool := false
  deriving DecidableEq

/-- The profiles with chroma and bit-depth extensions. -/
def hasChromaExt (profileIdc : UInt8) : Bool :=
  [100, 110, 122, 244, 44, 83, 86, 118, 128, 138, 139, 134, 135].contains profileIdc

/-- The result, what `out` is, and the reader as it is left. -/
def parseH264Sps (sps : Bytes) : Option (Bool × SpsInfo × BitReader) :=
  if sps.length < 4 then some (false, {}, {buf := []})
  else if sps.headD 0 &&& 0x1f ≠ 7 then some (false, {}, {buf := []})
  else
    let rbsp := ebspToRbsp sps.tail
    if rbsp.length < 3 then some (false, {}, {buf := []})
    else
      let out : SpsInfo := {profileIdc := rbsp.getD 0 0, levelIdc := rbsp.getD 2 0}
      (readFields (hasChromaExt out.profileIdc) {buf := rbsp.drop 3}).map fun (fields, br) =>
        if br.error then (false, out, br)
        else
          let (width, height) := computeFrameSize fields
          (true, {out with width, height, interlaced := !fields.frameMbsOnlyFlag}, br)

end AirPlay.Mirror
