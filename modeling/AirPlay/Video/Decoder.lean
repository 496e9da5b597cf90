import AirPlay.Library.Machine
import AirPlay.Library.Bytes

/-! The mirror's decoder and its configuration.

The stream brings configuration blobs, one for H.264 or one for HEVC, bare or wrapped in
an MP4 box. A blob for the other codec than the recorded one makes the decoder open
another context. -/
namespace AirPlay.Video.Decoder

def kStartCode : Bytes := [0, 0, 0, 1]

def annexbNal (nal : Bytes) : Bytes := kStartCode ++ nal

/-! ### The blobs -/

def u16 (blob : Bytes) (p : Nat) : Nat := (blob.getD p 0).toNat * 256 + (blob.getD (p + 1) 0).toNat

/-- `n` NAL units from `p` on, each with its length before it: the first of them, and
where they end. -/
def readNals (blob : Bytes) (first : Bool) : Nat → Nat → Option (Bytes × Nat)
  | 0, p => some ([], p)
  | n + 1, p =>
    if p + 2 > blob.length then none
    else
      let len := u16 blob p
      let p := p + 2
      if p + len > blob.length then none
      else
        let nal := if first then annexbNal ((blob.drop p).take len) else []
        (readNals blob false n (p + len)).map fun (more, p) => (nal ++ more, p)

/-- The parameter sets, each with its start code. -/
structure ParameterSets where
  vps : Bytes := []
  sps : Bytes := []
  pps : Bytes := []

def parseAvcc (blob : Bytes) : Option ParameterSets :=
  if blob.length < 7 || blob.getD 0 0 != 1 then none
  else
    let numSps := (blob.getD 5 0 &&& 0x1f).toNat
    if numSps < 1 then none
    else
      match readNals blob true numSps 6 with
      | none => none
      | some (sps, p) =>
        if p ≥ blob.length then none
        else
          match readNals blob true (blob.getD p 0).toNat (p + 1) with
          | none => none
          | some (pps, _) => if sps.isEmpty || pps.isEmpty then none else some {sps, pps}

/-- The arrays of an hvcC blob, each of one NAL unit type. -/
def readArrays (blob : Bytes) : Nat → Nat → ParameterSets → Option ParameterSets
  | 0, _, sets => some sets
  | n + 1, p, sets =>
    if p + 3 > blob.length then none
    else
      let nalType := blob.getD p 0 &&& 0x3f
      match readNals blob true (u16 blob (p + 1)) (p + 3) with
      | none => none
      | some (nal, p) =>
        readArrays blob n p <|
          if nalType == 32 then {sets with vps := sets.vps ++ nal}
          else if nalType == 33 then {sets with sps := sets.sps ++ nal}
          else if nalType == 34 then {sets with pps := sets.pps ++ nal}
          else sets

def parseHvcc (blob : Bytes) : Option ParameterSets :=
  if blob.length < 23 || blob.getD 0 0 != 1 then none
  else
    match readArrays blob (blob.getD 22 0).toNat 23 {} with
    | none => none
    | some sets =>
      if sets.vps.isEmpty || sets.sps.isEmpty || sets.pps.isEmpty then none else some sets

def kFourccs : List Bytes := [bytes "avcC", bytes "hvcC"]

/-- The content of the box whose type stands at `i`, if it is a sane one. -/
def innerBox (blob fourcc : Bytes) (i : Nat) : Option Bytes :=
  if (blob.drop i).take 4 = fourcc then
    let boxSize := u16 blob (i - 4) * 65536 + u16 blob (i - 2)
    if 9 ≤ boxSize ∧ (i - 4) + boxSize ≤ blob.length then
      some ((blob.drop (i + 4)).take (boxSize - 8))
    else none
  else none

def findInnerConfigBox (blob : Bytes) : Option Bytes :=
  kFourccs.findSome? fun fourcc =>
    (List.range' 4 (blob.length - 7)).findSome? fun i => innerBox blob fourcc i

/-- The codecs of the mirror. -/
inductive CodecId
  | h264 | hevc
  deriving DecidableEq

/-- The blob without its wrapping. -/
def unwrap (blob : Bytes) : Option Bytes :=
  if blob.length < 7 then none
  else
    let cfg := if blob.getD 0 0 != 1 then findInnerConfigBox blob else some blob
    cfg.bind fun cfg => if cfg.getD 0 0 != 1 then none else some cfg

/-- What a blob configures: the codec, and its parameter sets. -/
def configured (blob : Bytes) : Option (CodecId × ParameterSets) :=
  (unwrap blob).bind fun cfg =>
    match parseAvcc cfg with
    | some sets => some (.h264, sets)
    | none => (parseHvcc cfg).map fun sets => (.hevc, sets)

/-! ### The decoder -/

/-- A context of libavcodec, opened or only allocated. -/
structure CodecContext where
  codec : CodecId
  opened : Bool

/-- Where frames are decoded. -/
inductive HwBackend
  | none | d3d11va
  deriving DecidableEq

/-- What libavcodec does when a decoder is to be opened: the lookup, the allocation, the
opening, and the same once more for the retry in software. -/
structure OpenOutcome where
  found : Bool := true
  allocated : Bool := true
  opened : Bool := true
  refound : Bool := true
  reallocated : Bool := true
  reopened : Bool := true

/-- The decoder: its context, and what it was configured with. -/
structure Impl where
  ctx : Option CodecContext := none
  sets : ParameterSets := {}
  codecId : CodecId := .h264
  packetScratch : Bytes := []
  hwaccelRequested : Bool := false
  hwDevice : Bool := false
  backend : HwBackend := .none

namespace Impl

def hw (s : Impl) : Bool := s.hwaccelRequested && s.hwDevice

/-- `Impl::open`: opens, or opens again after a codec switch. -/
def openCodec (id : CodecId) (o : OpenOutcome) (s : Impl) : Bool × Impl :=
  if !o.found then (false, s)
  else
    let s := {s with codecId := id, ctx := none}
    if !o.allocated then (false, s)
    else
      let s := {s with
        ctx := some ⟨id, false⟩, backend := if s.hw then HwBackend.d3d11va else .none}
      if o.opened then (true, {s with ctx := some ⟨id, true⟩})
      else if s.hw then
        if !o.refound || !o.reallocated then (false, {s with ctx := none})
        else if !o.reopened then (false, s)
        else (true, {s with ctx := some ⟨id, true⟩, backend := .none})
      else (false, s)

/-- `init`; the packet and the frame are allocated first. -/
def init (hwaccel renderDevice allocated reffed : Bool) (o : OpenOutcome) (s : Impl) :
    Bool × Impl :=
  if !allocated then (false, s)
  else
    let requested := hwaccel && renderDevice
    openCodec .h264 o {s with
      hwaccelRequested := requested, hwDevice := if requested then reffed else s.hwDevice}

def setParameterSetsFromAvcc (blob : Bytes) (o : OpenOutcome) (s : Impl) : Bool × Impl :=
  match configured blob with
  | none => (false, s)
  | some (id, sets) =>
    if s.codecId = id then (true, {s with sets})
    else
      let (ok, s) := s.openCodec id o
      if ok then (true, {s with sets}) else (false, s)

/-- `decode`, as far as the packet that libavcodec gets. -/
def decode (nal : Bytes) (isIdr : Bool) (s : Impl) : Option Bytes × Impl :=
  if s.ctx.isNone || nal.isEmpty then (none, s)
  else
    let header := if isIdr then s.sets.vps ++ s.sets.sps ++ s.sets.pps else []
    (some (header ++ nal), {s with packetScratch := header ++ nal})

end Impl

/-- The calls of a decoder. -/
inductive Event
  | setParameterSets (blob : Bytes) (o : OpenOutcome)
  | decode (nal : Bytes) (isIdr : Bool)

def machine : Machine Impl Event where
  step s
    | .setParameterSets blob o => (s.setParameterSetsFromAvcc blob o).2
    | .decode nal isIdr => (s.decode nal isIdr).2

/-! ### Switching -/

/-- The codec of the context that can decode, if there is one. -/
def Impl.usable (s : Impl) : Option CodecId := (s.ctx.filter (·.opened)).map (·.codec)

/-- The recorded codec has an opened context. -/
def Ready (s : Impl) : Prop := s.usable = some s.codecId

instance (s : Impl) : Decidable (Ready s) := inferInstanceAs (Decidable (_ = _))

/-- A configuration that fails leaves the codec, the context and the parameter sets. -/
def Atomic (s : Impl) : Event → Prop
  | .setParameterSets blob o =>
    (s.setParameterSetsFromAvcc blob o).1 = false →
      (s.setParameterSetsFromAvcc blob o).2.codecId = s.codecId ∧
        (s.setParameterSetsFromAvcc blob o).2.usable = s.usable ∧
        (s.setParameterSetsFromAvcc blob o).2.sets = s.sets
  | .decode .. => True

/-- The opening ends with an opened context, at the first try or, on the hardware path,
at the second. -/
def OpenOutcome.Opens (o : OpenOutcome) (hw : Bool) : Prop :=
  o.allocated = true ∧ (o.opened = true ∨
    hw = true ∧ o.refound = true ∧ o.reallocated = true ∧ o.reopened = true)

/-- A blob for a codec other than the recorded one, which libavcodec has, comes with an
opening that succeeds. -/
def Switches (s : Impl) : Event → Prop
  | .setParameterSets blob o =>
    ∀ id sets, configured blob = some (id, sets) → s.codecId ≠ id → o.found = true → o.Opens s.hw
  | .decode .. => True

section Open
variable {id : CodecId} {o : OpenOutcome} {s : Impl}

theorem openCodec_missing (h : o.found = false) : s.openCodec id o = (false, s) := by
  rw [Impl.openCodec, h]
  rfl

/-- What a context that is opened leaves. -/
theorem openCodec_opens (hfound : o.found = true) (h : o.Opens s.hw) :
    (s.openCodec id o).1 = true ∧ (s.openCodec id o).2.codecId = id ∧
      (s.openCodec id o).2.usable = some id := by
  obtain ⟨hallocated, hopened | ⟨hhw, hrefound, hreallocated, hreopened⟩⟩ := h
  · simp [Impl.openCodec, Impl.usable, hfound, hallocated, hopened]
  · rw [Impl.hw] at hhw
    cases hopened : o.opened with
    | true => simp [Impl.openCodec, Impl.usable, hfound, hallocated, hopened]
    | false =>
      simp [Impl.openCodec, Impl.usable, Impl.hw, hfound, hallocated, hopened, hhw, hrefound,
        hreallocated, hreopened]

/-- An opening that fails has recorded the codec and left nothing usable. -/
theorem openCodec_fails (hfound : o.found = true) (h : ¬ o.Opens s.hw) :
    (s.openCodec id o).1 = false ∧ (s.openCodec id o).2.codecId = id ∧
      (s.openCodec id o).2.usable = none := by
  rw [OpenOutcome.Opens, not_and_or, not_or, Bool.not_eq_true, Bool.not_eq_true] at h
  rcases h with hallocated | ⟨hopened, hretry⟩
  · simp [Impl.openCodec, Impl.usable, hfound, hallocated]
  · cases hallocated : o.allocated with
    | false => simp [Impl.openCodec, Impl.usable, hfound, hallocated]
    | true =>
    cases hhw : s.hwaccelRequested && s.hwDevice with
    | false => simp [Impl.openCodec, Impl.usable, Impl.hw, hfound, hallocated, hopened, hhw]
    | true =>
      have hretry : o.refound = true → o.reallocated = true → o.reopened = false := by
        intro hrefound hreallocated
        exact Bool.eq_false_iff.mpr fun hre => hretry ⟨hhw, hrefound, hreallocated, hre⟩
      cases hrefound : o.refound with
      | false =>
        simp [Impl.openCodec, Impl.usable, Impl.hw, hfound, hallocated, hopened, hhw, hrefound]
      | true =>
      cases hreallocated : o.reallocated with
      | false =>
        simp [Impl.openCodec, Impl.usable, Impl.hw, hfound, hallocated, hopened, hhw, hreallocated]
      | true =>
        simp [Impl.openCodec, Impl.usable, Impl.hw, hfound, hallocated, hopened, hhw, hrefound,
          hreallocated, hretry hrefound hreallocated]

end Open

/-- A blob that configures a codec either needs no new context or opens one. -/
theorem setParameterSets_eq {blob : Bytes} {o : OpenOutcome} {s : Impl} {id : CodecId}
    {sets : ParameterSets} (h : configured blob = some (id, sets)) :
    s.setParameterSetsFromAvcc blob o =
      if s.codecId = id then (true, {s with sets})
      else if (s.openCodec id o).1 then (true, {(s.openCodec id o).2 with sets})
      else (false, (s.openCodec id o).2) := by
  rw [Impl.setParameterSetsFromAvcc, h]

theorem setParameterSets_atomic {s : Impl} {blob : Bytes} {o : OpenOutcome}
    (h : Switches s (.setParameterSets blob o)) : Atomic s (.setParameterSets blob o) := by
  intro hfails
  cases hc : configured blob with
  | none =>
    rw [Impl.setParameterSetsFromAvcc, hc]
    exact ⟨rfl, rfl, rfl⟩
  | some c =>
    obtain ⟨id, sets⟩ := c
    rw [setParameterSets_eq hc] at hfails ⊢
    by_cases hid : s.codecId = id
    · rw [if_pos hid] at hfails
      exact nomatch hfails
    rw [if_neg hid] at hfails ⊢
    cases hfound : o.found with
    | false =>
      rw [openCodec_missing hfound]
      exact ⟨rfl, rfl, rfl⟩
    | true =>
      rw [(openCodec_opens hfound (h id sets hc hid hfound)).1] at hfails
      exact nomatch hfails

theorem setParameterSets_ready {s : Impl} {blob : Bytes} {o : OpenOutcome} (hs : Ready s)
    (h : Switches s (.setParameterSets blob o)) : Ready (s.setParameterSetsFromAvcc blob o).2 := by
  cases hc : configured blob with
  | none =>
    rw [Impl.setParameterSetsFromAvcc, hc]
    exact hs
  | some c =>
    obtain ⟨id, sets⟩ := c
    rw [setParameterSets_eq hc]
    split
    · exact hs
    rename_i hid
    cases hfound : o.found with
    | false =>
      rw [openCodec_missing hfound]
      exact hs
    | true =>
      obtain ⟨hok, hcodec, husable⟩ := openCodec_opens hfound (h id sets hc hid hfound)
      rw [if_pos hok]
      exact husable.trans (congrArg some hcodec.symm)

/-- Only an opening that succeeds leaves the decoder ready after a switch. -/
theorem switches_of_ready {s : Impl} {e : Event} (h : Ready (machine.step s e)) : Switches s e := by
  cases e with
  | decode nal isIdr => trivial
  | setParameterSets blob o =>
    intro id sets hc hid hfound
    by_contra hopens
    obtain ⟨hfails, -, husable⟩ := @openCodec_fails id o s hfound hopens
    have hstep : machine.step s (.setParameterSets blob o) = (s.openCodec id o).2 := by
      show (s.setParameterSetsFromAvcc blob o).2 = _
      rw [setParameterSets_eq hc, if_neg hid, hfails]
      rfl
    rw [hstep, Ready, husable] at h
    exact nomatch h

theorem decode_usable (nal : Bytes) (isIdr : Bool) (s : Impl) :
    (s.decode nal isIdr).2.usable = s.usable ∧ (s.decode nal isIdr).2.codecId = s.codecId := by
  rw [Impl.decode]
  split <;> exact ⟨rfl, rfl⟩

theorem ready_step {s : Impl} {e : Event} (hs : Ready s) (h : Switches s e) :
    Ready (machine.step s e) := by
  cases e with
  | setParameterSets blob o => exact setParameterSets_ready hs h
  | decode nal isIdr =>
    obtain ⟨husable, hcodec⟩ := decode_usable nal isIdr s
    exact husable.trans (hs.trans (congrArg some hcodec.symm))

theorem atomic_of_switches {s : Impl} {e : Event} (h : Switches s e) : Atomic s e := by
  cases e with
  | setParameterSets blob o => exact setParameterSets_atomic h
  | decode nal isIdr => trivial

/-- What `init` needs to leave a decoder that is ready. -/
def Initialises (hwaccel renderDevice allocated reffed : Bool) (o : OpenOutcome) : Prop :=
  allocated = true ∧ o.found = true ∧ o.Opens (hwaccel && renderDevice && reffed)

theorem init_ready {hwaccel renderDevice allocated reffed : Bool} {o : OpenOutcome} :
    Ready (Impl.init hwaccel renderDevice allocated reffed o {}).2 ↔
      Initialises hwaccel renderDevice allocated reffed o := by
  rw [Impl.init, Initialises]
  cases allocated with
  | false => exact iff_of_false (fun h => nomatch h) fun h => nomatch h.1
  | true =>
    dsimp only
    generalize hs : ({
      hwaccelRequested := hwaccel && renderDevice
      hwDevice := if hwaccel && renderDevice then reffed else false } : Impl) = s
    have hhw : s.hw = (hwaccel && renderDevice && reffed) := by
      rw [← hs, Impl.hw]
      cases hwaccel && renderDevice <;> rfl
    have hctx : s.usable = none := by
      rw [← hs]
      rfl
    rw [← hhw]
    constructor
    · intro hready
      cases hfound : o.found with
      | false =>
        rw [Bool.not_true, if_neg Bool.false_ne_true, openCodec_missing hfound, Ready,
          hctx] at hready
        exact nomatch hready
      | true =>
        refine ⟨rfl, rfl, ?_⟩
        by_contra hopens
        have husable := (@openCodec_fails .h264 o s hfound hopens).2.2
        rw [Bool.not_true, if_neg Bool.false_ne_true, Ready, husable] at hready
        exact nomatch hready
    · rintro ⟨-, hfound, hopens⟩
      obtain ⟨-, hcodec, husable⟩ := @openCodec_opens .h264 o s hfound hopens
      exact husable.trans (congrArg some hcodec.symm)

/-- From `init` on the recorded codec always has an opened context, and a configuration
that fails changes nothing, exactly when `init` opens its context and every switch to a
codec that libavcodec has opens one. -/
theorem configured_iff (hwaccel renderDevice allocated reffed : Bool) (o : OpenOutcome)
    (es : List Event) :
    (machine.Always Ready (Impl.init hwaccel renderDevice allocated reffed o {}).2 es ∧
        machine.Meets Atomic (Impl.init hwaccel renderDevice allocated reffed o {}).2 es) ↔
      Initialises hwaccel renderDevice allocated reffed o ∧
        machine.Meets Switches (Impl.init hwaccel renderDevice allocated reffed o {}).2 es := by
  rw [← init_ready]
  constructor
  · rintro ⟨hready, -⟩
    exact ⟨hready.head, hready.needs fun _ _ => switches_of_ready⟩
  · rintro ⟨hinit, hswitches⟩
    exact ⟨Machine.always_of_meets (fun _ _ => ready_step) hinit hswitches,
      hswitches.mono fun _ _ => atomic_of_switches⟩

/-- An hvcC blob with a NAL unit of one byte for each parameter set. -/
def hevcBlob : Bytes :=
  1 :: List.replicate 21 0 ++ [3, 32, 0, 1, 0, 1, 7, 33, 0, 1, 0, 1, 8, 34, 0, 1, 0, 1, 9]

/-- The opening for HEVC fails, but HEVC is what is recorded; the same blob again is taken
without another try. -/
theorem failed_switch_recorded :
    ¬ (machine.Always Ready (Impl.init false false true true {} {}).2
          (List.replicate 2 (.setParameterSets hevcBlob {opened := false})) ∧
        machine.Meets Atomic (Impl.init false false true true {} {}).2
          (List.replicate 2 (.setParameterSets hevcBlob {opened := false}))) ∧
      (let s := (Impl.init false false true true {} {}).2
       let failed := s.setParameterSetsFromAvcc hevcBlob {opened := false}
       let again := failed.2.setParameterSetsFromAvcc hevcBlob {opened := false}
       failed.1 = false ∧ again.1 = true ∧ again.2.codecId = .hevc ∧ again.2.usable = none) := by
  constructor
  · rintro ⟨hready, -⟩
    have hnext := Machine.Always.head hready.2
    exact absurd hnext (by decide)
  · decide

end AirPlay.Video.Decoder
