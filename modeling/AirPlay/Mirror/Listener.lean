import AirPlay.Library.Keystream

/-! The mirror stream's reader.

A connection brings frames, each a header of 128 bytes and a payload whose size the
header gives. The payloads of two frame types are enciphered with one keystream, which
the listener's context goes through from frame to frame and from connection to
connection. -/
namespace AirPlay.Mirror

def kHeaderSize : Nat := 128
def kMaxPayloadSize : Nat := 2000000

def kFrameVideoNonIdr : UInt16 := 0x0000
def kFrameVideoIdr : UInt16 := 0x0010

def getU32Le (b : Bytes) (off : Nat) : UInt32 :=
  (b.getD off 0).toUInt32 ||| (b.getD (off + 1) 0).toUInt32 <<< 8 |||
    (b.getD (off + 2) 0).toUInt32 <<< 16 ||| (b.getD (off + 3) 0).toUInt32 <<< 24

def payloadSize (header : Bytes) : Nat := (getU32Le header 0).toNat

/-- A frame as the reader takes it. -/
structure Frame where
  header : Bytes
  payload : Bytes
  header_length : header.length = kHeaderSize
  payload_length : payload.length = payloadSize header
  bounded : payload.length ≤ kMaxPayloadSize

def Frame.ftype (f : Frame) : UInt16 :=
  (f.header.getD 4 0).toUInt16 <<< 8 ||| (f.header.getD 5 0).toUInt16

def Frame.encrypted (f : Frame) : Bool :=
  f.ftype == kFrameVideoIdr || f.ftype == kFrameVideoNonIdr

/-- The next frame of a connection. There is none when the bytes end before it does or
its size is not a sane one; the connection is closed then. -/
def readFrame (stream : Bytes) : Option (Frame × Bytes) :=
  if hheader : kHeaderSize ≤ stream.length then
    let header := stream.take kHeaderSize
    let body := stream.drop kHeaderSize
    if hmax : kMaxPayloadSize < payloadSize header then none
    else if hsize : payloadSize header ≤ body.length then
      some ({
        header, payload := body.take (payloadSize header)
        header_length := List.length_take_of_le hheader
        payload_length := List.length_take_of_le hsize
        bounded := (List.length_take_of_le hsize).trans_le (not_lt.mp hmax)
      }, body.drop (payloadSize header))
    else none
  else none

theorem readFrame_shorter {stream rest : Bytes} {f : Frame}
    (h : readFrame stream = some (f, rest)) : rest.length < stream.length := by
  rw [readFrame] at h
  split at h
  · rename_i hheader
    dsimp only at h
    split at h
    · exact absurd h (Option.some_ne_none _).symm
    split at h
    · rw [← (Prod.mk.inj (Option.some.inj h)).2, List.length_drop, List.length_drop]
      have hpos : 0 < kHeaderSize := by decide
      omega
    · exact absurd h (Option.some_ne_none _).symm
  · exact absurd h (Option.some_ne_none _).symm

/-- `MirrorDecrypt`: the counter mode context, as far as it has come. -/
structure MirrorDecrypt where
  position : Nat := 0

/-- Deciphers in place; false when there is nothing to decipher. -/
def MirrorDecrypt.decrypt (k : Nat → UInt8) (data : Bytes) (c : MirrorDecrypt) :
    Bool × Bytes × MirrorDecrypt :=
  if data = [] then (false, data, c)
  else (true, Keystream.apply k c.position data, {c with position := c.position + data.length})

/-- What the reader made of a frame. -/
structure Handled where
  frame : Frame
  /-- Where in the keystream the payload was deciphered, if it was. -/
  offset : Option Nat := none
  /-- How much of the keystream went by. -/
  taken : Nat := 0
  payload : Bytes := frame.payload

section Reader
variable (k : Nat → UInt8)

/-- One frame; the context is there when decryption is enabled. -/
def handleFrame (decrypt : Option MirrorDecrypt) (f : Frame) : Handled × Option MirrorDecrypt :=
  match decrypt with
  | none => ({frame := f}, none)
  | some c =>
    if f.encrypted && f.payload.length ≥ 5 then
      let (ok, payload, c') := c.decrypt k f.payload
      ({frame := f, offset := if ok then some c.position else none,
        taken := c'.position - c.position, payload}, some c')
    else ({frame := f}, some c)

def readerLoop (decrypt : Option MirrorDecrypt) (stream : Bytes) :
    List Handled × Option MirrorDecrypt :=
  match _h : readFrame stream with
  | none => ([], decrypt)
  | some (f, rest) =>
    let t := handleFrame k decrypt f
    let ts := readerLoop t.2 rest
    (t.1 :: ts.1, ts.2)
termination_by stream.length
decreasing_by exact readFrame_shorter _h

/-- `accept_loop`: one connection after the other. -/
def acceptLoop (decrypt : Option MirrorDecrypt) : List Bytes → List Handled × Option MirrorDecrypt
  | [] => ([], decrypt)
  | stream :: rest =>
    let ts := readerLoop k decrypt stream
    let ts' := acceptLoop ts.2 rest
    (ts.1 ++ ts'.1, ts'.2)

/-- The frames of a list, one after the other. -/
def handleAll (decrypt : Option MirrorDecrypt) : List Frame → List Handled × Option MirrorDecrypt
  | [] => ([], decrypt)
  | f :: fs =>
    let t := handleFrame k decrypt f
    let ts := handleAll t.2 fs
    (t.1 :: ts.1, ts.2)

end Reader

/-- The frames a connection brings. -/
def received (stream : Bytes) : List Frame :=
  match _h : readFrame stream with
  | none => []
  | some (f, rest) => f :: received rest
termination_by stream.length
decreasing_by exact readFrame_shorter _h

/-- A frame on the wire. -/
def Frame.bytes (f : Frame) : Bytes := f.header ++ f.payload

theorem readFrame_bytes (f : Frame) (rest : Bytes) :
    readFrame (f.bytes ++ rest) = some (f, rest) := by
  have htake : (f.bytes ++ rest).take kHeaderSize = f.header := by
    rw [Frame.bytes, List.append_assoc, List.take_left' f.header_length]
  have hdrop : (f.bytes ++ rest).drop kHeaderSize = f.payload ++ rest := by
    rw [Frame.bytes, List.append_assoc, List.drop_left' f.header_length]
  have hheader : kHeaderSize ≤ (f.bytes ++ rest).length := by
    rw [Frame.bytes, List.append_assoc, List.length_append, f.header_length]
    exact Nat.le_add_right _ _
  have hsize : payloadSize f.header ≤ (f.payload ++ rest).length := by
    rw [List.length_append, f.payload_length]
    exact Nat.le_add_right _ _
  have hmax : ¬ kMaxPayloadSize < payloadSize f.header := not_lt.mpr (f.payload_length ▸ f.bounded)
  rw [readFrame, dif_pos hheader]
  simp only [htake, hdrop, dif_neg hmax, dif_pos hsize, List.take_left' f.payload_length,
    List.drop_left' f.payload_length]

/-- A connection may bring any frames in any order. -/
theorem received_frames (fs : List Frame) : received (fs.flatMap Frame.bytes) = fs := by
  induction fs with
  | nil =>
    rw [received]
    rfl
  | cons f fs ih =>
    rw [List.flatMap_cons, received]
    split
    · rename_i hnone
      exact absurd (hnone.symm.trans (readFrame_bytes f _)) (Option.some_ne_none _).symm
    · rename_i f' rest hsome
      obtain ⟨rfl, rfl⟩ := Prod.mk.inj (Option.some.inj (hsome.symm.trans (readFrame_bytes f _)))
      rw [ih]

section Loops
variable {k : Nat → UInt8}

theorem handleAll_append (decrypt : Option MirrorDecrypt) (a b : List Frame) :
    handleAll k decrypt (a ++ b) =
      ((handleAll k decrypt a).1 ++ (handleAll k (handleAll k decrypt a).2 b).1,
        (handleAll k (handleAll k decrypt a).2 b).2) := by
  induction a generalizing decrypt with
  | nil => rfl
  | cons f fs ih =>
    rw [List.cons_append, handleAll, ih]
    rfl

/-- The loop handles the frames its connection brings. -/
theorem readerLoop_eq (decrypt : Option MirrorDecrypt) (stream : Bytes) :
    readerLoop k decrypt stream = handleAll k decrypt (received stream) := by
  fun_induction received stream generalizing decrypt with
  | case1 stream hread =>
    rw [readerLoop]
    split
    · rfl
    · rename_i hread'
      exact absurd (hread.symm.trans hread') (Option.some_ne_none _).symm
  | case2 stream f rest hread ih =>
    rw [readerLoop]
    split
    · rename_i hread'
      exact absurd (hread'.symm.trans hread) (Option.some_ne_none _).symm
    · rename_i f' rest' hread'
      obtain ⟨rfl, rfl⟩ := Prod.mk.inj (Option.some.inj (hread'.symm.trans hread))
      dsimp only
      rw [handleAll, ih]

theorem acceptLoop_eq (decrypt : Option MirrorDecrypt) (streams : List Bytes) :
    acceptLoop k decrypt streams = handleAll k decrypt (streams.flatMap received) := by
  induction streams generalizing decrypt with
  | nil => rfl
  | cons stream rest ih =>
    rw [acceptLoop, List.flatMap_cons, handleAll_append, readerLoop_eq, ih]

end Loops

end AirPlay.Mirror
