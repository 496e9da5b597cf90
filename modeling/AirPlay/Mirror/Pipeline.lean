import AirPlay.Mirror.Keystream
import AirPlay.Mirror.Nal

/-! From the wire to the decoder.

A frame with a configuration goes to the decoder; a picture is deciphered, its NAL units
are put behind start codes and handed over in one packet, an IDR behind the parameter
sets. What a sender enciphers and spreads over any connections comes out as the packets
of its pictures, in order and each under the configuration before it
(`mirror_delivers`); a payload that is no list of NAL units costs its own picture
only. -/
namespace AirPlay.Mirror

open Video

def kFrameSpsPps : UInt16 := 0x0100

/-- What the listener's thread works on. -/
structure MirrorListener where
  decrypt : Option MirrorDecrypt
  decoder : Option Decoder.Impl

namespace MirrorListener
variable (k : Nat → UInt8)

/-- `set_parameter_sets_from_avcc` on what a frame of the type brings. -/
def configure (o : Decoder.OpenOutcome) (f : Frame) (decoder : Option Decoder.Impl) :
    Option Decoder.Impl :=
  if f.ftype == kFrameSpsPps && !f.payload.isEmpty then
    decoder.map fun d => (d.setParameterSetsFromAvcc f.payload o).2
  else decoder

/-- The layout of NAL headers that the decoder's codec has. -/
def nalCodec (decoder : Option Decoder.Impl) : NalCodec :=
  if decoder.any fun d => d.codecId = .hevc then .hevc else .h264

/-- The body of the loop for one frame: the packet that libavcodec gets, if it gets one. -/
def frame (o : Decoder.OpenOutcome) (f : Frame) (l : MirrorListener) :
    Option Bytes × MirrorListener :=
  let decoder := configure o f l.decoder
  let (handled, decrypt) := handleFrame k l.decrypt f
  match handled.offset, decoder with
  | some _, some d =>
    let (ok, nals, _) := parseNalsAvccToAnnexb (nalCodec decoder) handled.payload
    if !ok then (none, {decrypt, decoder})
    else
      let (packet, d) := d.decode nals (f.ftype == kFrameVideoIdr)
      (packet, {decrypt, decoder := some d})
  | _, _ => (none, {decrypt, decoder})

/-- The frames of a list one after the other; `opens` says how libavcodec takes each
opening of a context. -/
def frames (opens : Nat → Decoder.OpenOutcome) : Nat → List Frame → MirrorListener →
    List Bytes × MirrorListener
  | _, [], l => ([], l)
  | n, f :: fs, l =>
    let t := l.frame k (opens n) f
    let ts := frames opens (n + 1) fs t.2
    (t.1.toList ++ ts.1, ts.2)

/-- `accept_loop`: the frames of one connection after the other. -/
def serve (opens : Nat → Decoder.OpenOutcome) (streams : List Bytes) (l : MirrorListener) :
    List Bytes × MirrorListener :=
  l.frames k opens 0 (streams.flatMap received)

end MirrorListener

/-! ### What is to come out -/

/-- The parameter sets, as they stand before an IDR. -/
def header (sets : Decoder.ParameterSets) (idr : Bool) : Bytes :=
  if idr then sets.vps ++ sets.sps ++ sets.pps else []

/-- What a frame does to the parameter sets, and the packet it is to make. -/
inductive Shows : Decoder.ParameterSets → Frame → Decoder.ParameterSets → Option Bytes → Prop
  | configured {sets sets' : Decoder.ParameterSets} {f : Frame} {id : Decoder.CodecId}
      (type : f.ftype = kFrameSpsPps) (blob : Decoder.configured f.payload = some (id, sets')) :
      Shows sets f sets' none
  | refused {sets : Decoder.ParameterSets} {f : Frame} (type : f.ftype = kFrameSpsPps)
      (blob : Decoder.configured f.payload = none) : Shows sets f sets none
  | picture {sets : Decoder.ParameterSets} {f : Frame} {rs : List Record}
      (type : f.encrypted = true) (payload : f.payload = avcc rs) (nonempty : rs ≠ []) :
      Shows sets f sets (some (header sets (f.ftype == kFrameVideoIdr) ++ annexb rs))
  | broken {sets : Decoder.ParameterSets} {f : Frame} (type : f.encrypted = true)
      (payload : ∀ rs, f.payload = avcc rs → rs = []) : Shows sets f sets none
  | other {sets : Decoder.ParameterSets} {f : Frame} (type : f.ftype ≠ kFrameSpsPps)
      (plain : f.encrypted = false) : Shows sets f sets none

/-- What a list of frames is to make. -/
inductive ShowsAll : Decoder.ParameterSets → List Frame → List Bytes → Prop
  | nil {sets : Decoder.ParameterSets} : ShowsAll sets [] []
  | cons {sets sets' : Decoder.ParameterSets} {f : Frame} {fs : List Frame} {packet : Option Bytes}
      {packets : List Bytes} (head : Shows sets f sets' packet) (tail : ShowsAll sets' fs packets) :
      ShowsAll sets (f :: fs) (packet.toList ++ packets)

/-! ### One frame -/

/-- A context is opened wherever one is asked for. -/
structure Opening (o : Decoder.OpenOutcome) : Prop where
  found : o.found = true
  allocated : o.allocated = true
  opened : o.opened = true

section Frame
variable {k : Nat → UInt8} {o : Decoder.OpenOutcome} {f : Frame}

theorem avcc_inj {rs rs' : List Record} (h : avcc rs = avcc rs') : annexb rs = annexb rs' := by
  have hparse := parse_records .h264 rs malformed_nil
  have hparse' := parse_records .h264 rs' malformed_nil
  rw [List.append_nil, List.append_nil] at hparse hparse'
  rw [h] at hparse
  exact (Prod.mk.inj (Prod.mk.inj (hparse.symm.trans hparse')).2).1

theorem setParameterSets_opening (ho : Opening o) {d : Decoder.Impl} (hd : Decoder.Ready d)
    {blob : Bytes} {id : Decoder.CodecId} {sets : Decoder.ParameterSets}
    (h : Decoder.configured blob = some (id, sets)) :
    Decoder.Ready (d.setParameterSetsFromAvcc blob o).2 ∧
      (d.setParameterSetsFromAvcc blob o).2.sets = sets := by
  have hopens : o.Opens d.hw := ⟨ho.allocated, .inl ho.opened⟩
  refine ⟨Decoder.setParameterSets_ready hd fun _ _ _ _ _ => hopens, ?_⟩
  rw [Decoder.setParameterSets_eq h]
  split
  · rfl
  · rw [if_pos (Decoder.openCodec_opens ho.found hopens).1]

theorem ready_ctx {d : Decoder.Impl} (hd : Decoder.Ready d) : d.ctx.isNone = false := by
  cases hctx : d.ctx with
  | none =>
    rw [Decoder.Ready, Decoder.Impl.usable, hctx] at hd
    exact absurd hd (Option.some_ne_none _).symm
  | some c => rfl

theorem decode_ready {d : Decoder.Impl} (hd : Decoder.Ready d) {nals : Bytes} (hne : nals ≠ [])
    (idr : Bool) : d.decode nals idr =
      (some (header d.sets idr ++ nals), {d with packetScratch := header d.sets idr ++ nals}) := by
  have hempty : nals.isEmpty = false := List.isEmpty_eq_false_iff.mpr hne
  rw [Decoder.Impl.decode, ready_ctx hd, hempty]
  rfl

theorem annexb_ne_nil {rs : List Record} (h : rs ≠ []) : annexb rs ≠ [] := by
  cases rs with
  | nil => exact absurd rfl h
  | cons r rs =>
    rw [annexb_cons]
    exact List.append_ne_nil_of_left_ne_nil (List.append_ne_nil_of_left_ne_nil (by decide) _) _

theorem encipher_ftype (n : Nat) (f : Frame) : (f.encipher k n).ftype = f.ftype := by
  rw [Frame.ftype, Frame.ftype, Frame.encipher_header]

theorem encipher_payload (n : Nat) (he : f.encrypted = true) :
    (f.encipher k n).payload = Keystream.apply k n f.payload := by
  rw [Frame.encipher, if_pos he]

theorem encrypted_ftype (he : f.encrypted = true) : f.ftype ≠ kFrameSpsPps := by
  intro heq
  rw [Frame.encrypted, heq] at he
  exact absurd he (by decide)

/-- A frame that is not enciphered goes to the decoder when it brings a configuration. -/
theorem frame_plain (n : Nat) (d : Decoder.Impl) (he : f.encrypted = false) :
    MirrorListener.frame k o (f.encipher k n) ⟨some ⟨n⟩, some d⟩ =
      (none, ⟨some ⟨n⟩, MirrorListener.configure o f (some d)⟩) := by
  have hplain : f.encipher k n = f := by rw [Frame.encipher, he]; rfl
  have hhandled : handleFrame k (some ⟨n⟩) f = ({frame := f}, some ⟨n⟩) :=
    handleFrame_leaves (by simp [he])
  rw [hplain]
  simp only [MirrorListener.frame, hhandled]

theorem configure_picture (n : Nat) (d : Decoder.Impl) (he : f.encrypted = true) :
    MirrorListener.configure o (f.encipher k n) (some d) = some d := by
  rw [MirrorListener.configure, encipher_ftype, beq_false_of_ne (encrypted_ftype he)]
  rfl

/-- A picture without bytes is left alone. -/
theorem frame_empty (n : Nat) (d : Decoder.Impl) (he : f.encrypted = true)
    (hnil : f.payload = []) :
    MirrorListener.frame k o (f.encipher k n) ⟨some ⟨n⟩, some d⟩ =
      (none, ⟨some ⟨n⟩, some d⟩) := by
  have hpayload : (f.encipher k n).payload = [] := by
    rw [encipher_payload n he, hnil]
    rfl
  have hhandled : handleFrame k (some ⟨n⟩) (f.encipher k n) =
      ({frame := f.encipher k n}, some ⟨n⟩) := handleFrame_leaves (by simp [hpayload])
  simp only [MirrorListener.frame, configure_picture n d he, hhandled]

/-- Any other is deciphered, and decoded when it is a list of NAL units. -/
theorem frame_deciphered (n : Nat) (d : Decoder.Impl) (he : f.encrypted = true)
    (h5 : 5 ≤ f.payload.length) :
    MirrorListener.frame k o (f.encipher k n) ⟨some ⟨n⟩, some d⟩ =
      let parsed := parseNalsAvccToAnnexb (MirrorListener.nalCodec (some d)) f.payload
      if !parsed.1 then (none, ⟨some ⟨n + f.payload.length⟩, some d⟩)
      else
        ((d.decode parsed.2.1 (f.ftype == kFrameVideoIdr)).1,
          ⟨some ⟨n + f.payload.length⟩,
            some (d.decode parsed.2.1 (f.ftype == kFrameVideoIdr)).2⟩) := by
  have hpayload := @encipher_payload k f n he
  have hhandled : handleFrame k (some ⟨n⟩) (f.encipher k n) =
      (⟨f.encipher k n, some n, f.payload.length, f.payload⟩, some ⟨n + f.payload.length⟩) := by
    rw [handleFrame_deciphers (by simp [he]) (by simp [hpayload, h5]), hpayload,
      Keystream.apply_apply, Keystream.length_apply]
  simp only [MirrorListener.frame, configure_picture n d he, hhandled, encipher_ftype]

/-- The listener stands at `n` in the keystream with a decoder that is ready. -/
structure Stands (n : Nat) (sets : Decoder.ParameterSets) (l : MirrorListener) : Prop where
  decrypt : l.decrypt = some ⟨n⟩
  decoder : ∃ d, l.decoder = some d ∧ Decoder.Ready d ∧ d.sets = sets

theorem configure_shows {n : Nat} {d : Decoder.Impl} (ho : Opening o) (hd : Decoder.Ready d)
    (he : f.encrypted = false) :
    ∃ sets', Shows d.sets f sets' none ∧
      Stands n sets' ⟨some ⟨n⟩, MirrorListener.configure o f (some d)⟩ := by
  by_cases htype : f.ftype = kFrameSpsPps
  · cases hblob : Decoder.configured f.payload with
    | none =>
      refine ⟨d.sets, .refused htype hblob, rfl, d, ?_, hd, rfl⟩
      rw [MirrorListener.configure]
      split
      · rw [Option.map_some, Decoder.Impl.setParameterSetsFromAvcc, hblob]
      · rfl
    | some c =>
      obtain ⟨id, sets'⟩ := c
      have hne : f.payload.isEmpty = false := by
        cases hpayload : f.payload with
        | nil =>
          rw [hpayload] at hblob
          exact absurd hblob (Option.some_ne_none _).symm
        | cons b rest => rfl
      obtain ⟨hready, hsets⟩ := setParameterSets_opening ho hd hblob
      refine ⟨sets', .configured htype hblob, rfl, _, ?_, hready, hsets⟩
      rw [MirrorListener.configure, htype, hne]
      rfl
  · refine ⟨d.sets, .other htype he, rfl, d, ?_, hd, rfl⟩
    rw [MirrorListener.configure, beq_false_of_ne htype]
    rfl

/-- A whole frame, as its sender has enciphered it, does what it is to do. -/
theorem frame_shows {n : Nat} {sets : Decoder.ParameterSets} {l : MirrorListener} (ho : Opening o)
    (hwhole : f.whole) (hl : Stands n sets l) :
    ∃ sets', Shows sets f sets' (l.frame k o (f.encipher k n)).1 ∧
      Stands (n + f.due) sets' (l.frame k o (f.encipher k n)).2 := by
  obtain ⟨decrypt, decoder⟩ := l
  obtain ⟨rfl, d, rfl, hd, rfl⟩ := hl
  rw [Frame.due]
  cases he : f.encrypted with
  | false =>
    rw [frame_plain n d he]
    exact configure_shows ho hd he
  | true =>
    rw [if_pos rfl]
    rcases hwhole he with hnil | h5
    · rw [frame_empty n d he hnil, hnil]
      refine ⟨d.sets, .broken he fun rs hrs => ?_, rfl, d, rfl, hd, rfl⟩
      cases rs with
      | nil => rfl
      | cons r rs =>
        rw [hnil, avcc_cons] at hrs
        have hlength := congrArg List.length hrs
        rw [List.length_append, r.length_encode, List.length_nil] at hlength
        omega
    · have hparsed := parse_accepts_iff (MirrorListener.nalCodec (some d)) f.payload
      rw [frame_deciphered n d he h5]
      dsimp only
      by_cases hrs : ∃ rs, f.payload = avcc rs
      · obtain ⟨rs, hrs⟩ := hrs
        have hne : rs ≠ [] := by
          rintro rfl
          rw [hrs] at h5
          exact absurd h5 (by decide)
        rw [hrs, parse_avcc, decode_ready hd (annexb_ne_nil hne)]
        exact ⟨d.sets, .picture he hrs hne, rfl, _, rfl, hd, rfl⟩
      · rw [Bool.eq_false_iff.mpr (mt hparsed.mp hrs)]
        exact ⟨d.sets, .broken he fun rs hpayload => absurd ⟨rs, hpayload⟩ hrs, rfl, d, rfl, hd,
          rfl⟩

end Frame

/-! ### Whole streams -/

theorem frames_shows {k : Nat → UInt8} {opens : Nat → Decoder.OpenOutcome}
    (hopens : ∀ i, Opening (opens i)) (i : Nat) (fs : List Frame) (hwhole : ∀ f ∈ fs, f.whole)
    {n : Nat} {sets : Decoder.ParameterSets} {l : MirrorListener} (hl : Stands n sets l) :
    ShowsAll sets fs (l.frames k opens i (encipherFrom k n fs)).1 := by
  induction fs generalizing i n sets l with
  | nil => exact .nil
  | cons f fs ih =>
    obtain ⟨hf, hfs⟩ := List.forall_mem_cons.mp hwhole
    obtain ⟨sets', hshows, hstands⟩ := @frame_shows k _ f n sets l (hopens i) hf hl
    rw [encipherFrom, MirrorListener.frames]
    exact .cons hshows (ih (i + 1) hfs hstands)

/-- One reading of the frames makes one list of packets. -/
theorem Shows.unique {sets sets₁ sets₂ : Decoder.ParameterSets} {f : Frame}
    {packet₁ packet₂ : Option Bytes} (h₁ : Shows sets f sets₁ packet₁)
    (h₂ : Shows sets f sets₂ packet₂) : sets₁ = sets₂ ∧ packet₁ = packet₂ := by
  cases h₁ with
  | configured type blob =>
    cases h₂ with
    | configured _ blob' =>
      exact ⟨(Prod.mk.inj (Option.some.inj (blob.symm.trans blob'))).2, rfl⟩
    | refused _ blob' => exact absurd (blob.symm.trans blob') (Option.some_ne_none _)
    | picture he => exact absurd type (encrypted_ftype he)
    | broken he => exact absurd type (encrypted_ftype he)
    | other htype => exact absurd type htype
  | refused type blob =>
    cases h₂ with
    | configured _ blob' => exact absurd (blob'.symm.trans blob) (Option.some_ne_none _)
    | refused => exact ⟨rfl, rfl⟩
    | picture he => exact absurd type (encrypted_ftype he)
    | broken he => exact absurd type (encrypted_ftype he)
    | other htype => exact absurd type htype
  | picture type payload nonempty =>
    cases h₂ with
    | configured htype => exact absurd htype (encrypted_ftype type)
    | refused htype => exact absurd htype (encrypted_ftype type)
    | picture _ payload' => exact ⟨rfl, by rw [avcc_inj (payload.symm.trans payload')]⟩
    | broken _ payload' => exact absurd (payload' _ payload) nonempty
    | other _ plain => exact absurd (plain.symm.trans type) Bool.false_ne_true
  | broken type payload =>
    cases h₂ with
    | configured htype => exact absurd htype (encrypted_ftype type)
    | refused htype => exact absurd htype (encrypted_ftype type)
    | picture _ payload' nonempty => exact absurd (payload _ payload') nonempty
    | broken => exact ⟨rfl, rfl⟩
    | other _ plain => exact absurd (plain.symm.trans type) Bool.false_ne_true
  | other type plain =>
    cases h₂ with
    | configured htype => exact absurd htype type
    | refused htype => exact absurd htype type
    | picture he => exact absurd (plain.symm.trans he) Bool.false_ne_true
    | broken he => exact absurd (plain.symm.trans he) Bool.false_ne_true
    | other => exact ⟨rfl, rfl⟩

theorem ShowsAll.unique {sets : Decoder.ParameterSets} {fs : List Frame}
    {packets packets' : List Bytes} (h : ShowsAll sets fs packets)
    (h' : ShowsAll sets fs packets') : packets = packets' := by
  induction h generalizing packets' with
  | nil =>
    cases h'
    rfl
  | cons head tail ih =>
    cases h' with
    | cons head' tail' =>
      obtain ⟨rfl, rfl⟩ := head.unique head'
      rw [ih tail']

/-- Whole frames that a sender enciphers, over whatever connections, come out as the
packets of their pictures. -/
theorem mirror_delivers (k : Nat → UInt8) (opens : Nat → Decoder.OpenOutcome)
    (hopens : ∀ i, Opening (opens i)) (fs : List Frame) (hwhole : ∀ f ∈ fs, f.whole)
    (streams : List Bytes) (hstreams : streams.flatMap received = encipherFrom k 0 fs)
    {d : Decoder.Impl} (hd : Decoder.Ready d) (packets : List Bytes) :
    (MirrorListener.serve k opens streams ⟨some {}, some d⟩).1 = packets ↔
      ShowsAll d.sets fs packets := by
  have hshows : ShowsAll d.sets fs (MirrorListener.serve k opens streams ⟨some {}, some d⟩).1 := by
    rw [MirrorListener.serve, hstreams]
    exact frames_shows hopens 0 fs hwhole ⟨rfl, d, rfl, hd, rfl⟩
  exact ⟨fun h => h ▸ hshows, fun h => hshows.unique h⟩

/-- A keyframe of one NAL unit. -/
def idrFrame : Frame :=
  ⟨[5, 0, 0, 0, 0, 0x10] ++ List.replicate 122 0, [0, 0, 0, 1, 0x65], rfl,
    by decide, by decide⟩

def idrRecord : Record := ⟨⟨[0x65], by decide⟩, by decide, by decide⟩

def readyDecoder : Decoder.Impl where
  ctx := some ⟨.h264, true⟩
  sets := {sps := Decoder.annexbNal [0x67], pps := Decoder.annexbNal [0x68]}

/-- A keystream with no two neighbouring bytes alike. -/
def risingStream : Nat → UInt8 := fun i => UInt8.ofNat (3 * i + 1)

theorem idrFrame_delivered :
    (MirrorListener.serve risingStream (fun _ => {})
      [(encipherFrom risingStream 0 [idrFrame]).flatMap Frame.bytes]
      ⟨some {}, some readyDecoder⟩).1 =
        [Decoder.annexbNal [0x67] ++ Decoder.annexbNal [0x68] ++ Decoder.annexbNal [0x65]] := by
  have hopens : ∀ i : Nat, Opening ((fun _ => {} : Nat → Decoder.OpenOutcome) i) :=
    fun _ => ⟨rfl, rfl, rfl⟩
  have hwhole : ∀ f ∈ [idrFrame], f.whole :=
    List.forall_mem_singleton.mpr fun _ => .inr (by decide)
  have hreceived := received_frames (encipherFrom risingStream 0 [idrFrame])
  refine (mirror_delivers risingStream _ hopens [idrFrame] hwhole _ ?_ (d := readyDecoder) rfl _).mpr ?_
  · rw [List.flatMap_singleton, hreceived]
  · exact .cons (@Shows.picture _ idrFrame [idrRecord] rfl (by decide) (List.cons_ne_nil _ _)) .nil

end AirPlay.Mirror
