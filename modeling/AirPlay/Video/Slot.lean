import AirPlay.Library.Machine
import AirPlay.Library.Bytes

/-! The renderer's frame slot.

The mirror's decoder hands over whole frames, the video player copies planes into
buffers; each has a flag of its own and both use one set of dimensions. The render
thread takes what is there when it wakes. -/
namespace AirPlay.Video

/-- The formats that the renderer tells apart. -/
inductive AVPixelFormat
  | d3d11 | nv12 | yuv420p
  | other (code : Int)

/-- A decoded frame; `data` stands for its pixels. -/
structure AVFrame (α : Type) where
  width : Int
  height : Int
  format : AVPixelFormat
  data : α

/-- A plane of the player's: its memory from the first byte on, and how far apart its
rows are. -/
structure Plane where
  data : Int → UInt8
  stride : Int

def copyPlane (src : Plane) (planeW planeH : Int) : Bytes :=
  (List.range planeH.toNat).flatMap fun row =>
    (List.range planeW.toNat).map fun col => src.data (row * src.stride + col)

/-- The pixels of a frame, in the layout they have. -/
inductive Picture (α : Type)
  | avframe (f : AVFrame α)
  | i420 (y u v : Bytes)
  | nv12 (y uv : Bytes)

/-- What the render thread draws. -/
structure Frame (α : Type) where
  picture : Picture α
  width : Int
  height : Int
  originNs : Int

/-- The slot between the decoders and the render thread: a frame of either kind, the flags
that say which, and the dimensions both use. -/
structure VideoRenderer (α : Type) where
  yBuf : Bytes := []
  uBuf : Bytes := []
  vBuf : Bytes := []
  uvBuf : Bytes := []
  frameW : Int := 0
  frameH : Int := 0
  hasFrame : Bool := false
  frameIsNv12 : Bool := false
  frameOriginNs : Int := 0
  slotAvframe : Option (AVFrame α) := none
  hasAvframe : Bool := false

/-- The decoders push, the render thread takes. -/
inductive Event (α : Type)
  /-- Without a source, or with no memory for the clone, nothing is pushed. -/
  | pushAvframe (src : Option (AVFrame α)) (cloned : Bool) (originNs : Int)
  | pushFrame (y u v : Plane) (width height originNs : Int)
  | pushFrameNv12 (y uv : Plane) (width height originNs : Int)
  | consume
  | clearSession

namespace VideoRenderer
variable {α : Type}

def pushAvframe (src : Option (AVFrame α)) (cloned : Bool) (originNs : Int)
    (r : VideoRenderer α) : VideoRenderer α :=
  match src with
  | none => r
  | some src =>
    if !cloned then r
    else {r with
      slotAvframe := some src, frameW := src.width, frameH := src.height
      hasFrame := false, frameIsNv12 := false, hasAvframe := true, frameOriginNs := originNs}

def pushFrame (y u v : Plane) (width height originNs : Int) (r : VideoRenderer α) :
    VideoRenderer α :=
  if width ≤ 0 || height ≤ 0 then r
  else
    let cW := width / 2
    let cH := height / 2
    {r with
      yBuf := copyPlane y width height, uBuf := copyPlane u cW cH, vBuf := copyPlane v cW cH
      frameW := width, frameH := height, hasFrame := true, frameIsNv12 := false
      frameOriginNs := originNs}

def pushFrameNv12 (y uv : Plane) (width height originNs : Int) (r : VideoRenderer α) :
    VideoRenderer α :=
  if width ≤ 0 || height ≤ 0 then r
  else
    {r with
      yBuf := copyPlane y width height, uvBuf := copyPlane uv width (height / 2)
      frameW := width, frameH := height, hasFrame := true, frameIsNv12 := true
      frameOriginNs := originNs}

/-- What the render thread takes when it wakes. The AVFrame wins when both are there. -/
def takes (r : VideoRenderer α) : Option (Frame α) :=
  if r.hasAvframe then
    r.slotAvframe.map fun f => ⟨.avframe f, r.frameW, r.frameH, r.frameOriginNs⟩
  else if r.hasFrame then
    let picture := if r.frameIsNv12 then .nv12 r.yBuf r.uvBuf else .i420 r.yBuf r.uBuf r.vBuf
    some ⟨picture, r.frameW, r.frameH, r.frameOriginNs⟩
  else none

/-- What it leaves. -/
def consume (r : VideoRenderer α) : VideoRenderer α :=
  if r.hasAvframe then {r with slotAvframe := none, hasAvframe := false}
  else if r.hasFrame then {r with hasFrame := false}
  else r

def clearSession (r : VideoRenderer α) : VideoRenderer α :=
  {r with
    hasFrame := false, frameIsNv12 := false, frameW := 0, frameH := 0
    slotAvframe := none, hasAvframe := false}

def machine (α : Type) : Machine (VideoRenderer α) (Event α) where
  step r
    | .pushAvframe src cloned originNs => r.pushAvframe src cloned originNs
    | .pushFrame y u v width height originNs => r.pushFrame y u v width height originNs
    | .pushFrameNv12 y uv width height originNs => r.pushFrameNv12 y uv width height originNs
    | .consume => r.consume
    | .clearSession => r.clearSession

end VideoRenderer

/-! ### The latest frame -/

section Latest
variable {α : Type}

/-- The frame an event pushes. -/
def Event.pushes : Event α → Option (Frame α)
  | .pushAvframe (some src) true originNs =>
    some ⟨.avframe src, src.width, src.height, originNs⟩
  | .pushFrame y u v width height originNs =>
    if 0 < width ∧ 0 < height then
      some ⟨.i420 (copyPlane y width height) (copyPlane u (width / 2) (height / 2))
        (copyPlane v (width / 2) (height / 2)), width, height, originNs⟩
    else none
  | .pushFrameNv12 y uv width height originNs =>
    if 0 < width ∧ 0 < height then
      some ⟨.nv12 (copyPlane y width height) (copyPlane uv width (height / 2)),
        width, height, originNs⟩
    else none
  | _ => none

/-- An event that pushes planes. -/
def Event.planes : Event α → Bool
  | .pushFrame _ _ _ width height _ => 0 < width && 0 < height
  | .pushFrameNv12 _ _ width height _ => 0 < width && 0 < height
  | _ => false

/-- The renderer, with the most recent frame pushed. -/
def rendering (α : Type) : Machine (VideoRenderer α × Option (Frame α)) (Event α) :=
  (VideoRenderer.machine α).watched fun _ e last => e.pushes.or last

def OneFlag (r : VideoRenderer α) : Prop := ¬ (r.hasAvframe = true ∧ r.hasFrame = true)

/-- What a consume takes is the most recent frame, all of it. -/
def TakesLatest (w : VideoRenderer α × Option (Frame α)) : Event α → Prop
  | .consume => ∀ f, w.1.takes = some f → w.2 = some f
  | _ => True

/-- Planes come to a slot that has no AVFrame. -/
def PlanesAlone (w : VideoRenderer α × Option (Frame α)) (e : Event α) : Prop :=
  e.planes = true → w.1.hasAvframe = false

/-- One flag at most, and what is there is the most recent frame. -/
structure Shows (w : VideoRenderer α × Option (Frame α)) : Prop where
  oneFlag : OneFlag w.1
  latest : ∀ f, w.1.takes = some f → w.2 = some f

theorem pushAvframe_shows {r : VideoRenderer α} {last : Option (Frame α)} (h : Shows (r, last))
    (src : Option (AVFrame α)) (cloned : Bool) (originNs : Int) :
    Shows ((rendering α).step (r, last) (.pushAvframe src cloned originNs)) := by
  cases src with
  | none => exact h
  | some src =>
    cases cloned with
    | false => exact h
    | true => exact ⟨fun hboth => Bool.false_ne_true hboth.2, fun f hf => hf⟩

/-- What an event of planes does: it sets its own flag, and with it alone the planes are
what is there. -/
theorem step_planes (r : VideoRenderer α) {e : Event α} (h : e.planes = true) :
    ((VideoRenderer.machine α).step r e).hasAvframe = r.hasAvframe ∧
      ((VideoRenderer.machine α).step r e).hasFrame = true ∧
      (r.hasAvframe = false → ((VideoRenderer.machine α).step r e).takes = e.pushes) := by
  cases e with
  | pushFrame y u v width height originNs =>
    rw [Event.planes, Bool.and_eq_true, decide_eq_true_iff, decide_eq_true_iff] at h
    have hdims : ¬ (width ≤ 0 ∨ height ≤ 0) := by omega
    rw [Event.pushes, if_pos h]
    simp [VideoRenderer.machine, VideoRenderer.pushFrame, VideoRenderer.takes, hdims]
  | pushFrameNv12 y uv width height originNs =>
    rw [Event.planes, Bool.and_eq_true, decide_eq_true_iff, decide_eq_true_iff] at h
    have hdims : ¬ (width ≤ 0 ∨ height ≤ 0) := by omega
    rw [Event.pushes, if_pos h]
    simp [VideoRenderer.machine, VideoRenderer.pushFrameNv12, VideoRenderer.takes, hdims]
  | pushAvframe | consume | clearSession => exact absurd h Bool.false_ne_true

/-- A slot that has just got planes, and no AVFrame, shows them. -/
theorem planes_shows {r : VideoRenderer α} (last : Option (Frame α)) {e : Event α}
    (hplanes : e.planes = true) (hav : r.hasAvframe = false) :
    Shows ((rendering α).step (r, last) e) := by
  obtain ⟨hav', -, htakes⟩ := step_planes r hplanes
  constructor
  · exact fun hboth => Bool.false_ne_true ((hav'.trans hav).symm.trans hboth.1)
  · intro f hf
    show e.pushes.or last = some f
    rw [← htakes hav, show ((VideoRenderer.machine α).step r e).takes = some f from hf,
      Option.some_or]

/-- Planes without an extent are left out. -/
theorem pushFrame_flat (w : VideoRenderer α × Option (Frame α)) {y u v : Plane}
    {width height originNs : Int}
    (h : (.pushFrame y u v width height originNs : Event α).planes = false) :
    (rendering α).step w (.pushFrame y u v width height originNs) = w := by
  have hpos : ¬ (0 < width ∧ 0 < height) := by simpa [Event.planes] using h
  have hdims : width ≤ 0 ∨ height ≤ 0 := by omega
  simp [rendering, Machine.watched, VideoRenderer.machine, VideoRenderer.pushFrame, hdims,
    Event.pushes, hpos]

theorem pushFrameNv12_flat (w : VideoRenderer α × Option (Frame α)) {y uv : Plane}
    {width height originNs : Int}
    (h : (.pushFrameNv12 y uv width height originNs : Event α).planes = false) :
    (rendering α).step w (.pushFrameNv12 y uv width height originNs) = w := by
  have hpos : ¬ (0 < width ∧ 0 < height) := by simpa [Event.planes] using h
  have hdims : width ≤ 0 ∨ height ≤ 0 := by omega
  simp [rendering, Machine.watched, VideoRenderer.machine, VideoRenderer.pushFrameNv12, hdims,
    Event.pushes, hpos]

theorem consume_shows {r : VideoRenderer α} {last : Option (Frame α)} (h : Shows (r, last)) :
    Shows ((rendering α).step (r, last) .consume) := by
  have hempty : r.consume.hasAvframe = false ∧ r.consume.hasFrame = false := by
    have hone := h.oneFlag
    rw [OneFlag] at hone
    rw [VideoRenderer.consume]
    cases hav : r.hasAvframe <;> cases hfr : r.hasFrame <;> simp_all
  constructor
  · exact fun hboth => Bool.false_ne_true (hempty.1.symm.trans hboth.1)
  · intro f hf
    have hnone : r.consume.takes = none := by
      simp [VideoRenderer.takes, hempty]
    exact absurd (hf.symm.trans hnone) (Option.some_ne_none f)

theorem shows_step {w : VideoRenderer α × Option (Frame α)} {e : Event α} (h : Shows w)
    (halone : PlanesAlone w e) : Shows ((rendering α).step w e) := by
  by_cases hplanes : e.planes = true
  · exact planes_shows w.2 hplanes (halone hplanes)
  rw [Bool.not_eq_true] at hplanes
  cases e with
  | pushAvframe src cloned originNs => exact pushAvframe_shows h src cloned originNs
  | pushFrame => rwa [pushFrame_flat w hplanes]
  | pushFrameNv12 => rwa [pushFrameNv12_flat w hplanes]
  | consume => exact consume_shows h
  | clearSession => exact ⟨fun hboth => Bool.false_ne_true hboth.1, fun f hf => nomatch hf⟩

/-- Planes over an AVFrame leave both flags set. -/
theorem planes_both {r : VideoRenderer α} {last : Option (Frame α)} {e : Event α}
    (hplanes : e.planes = true) (hav : r.hasAvframe = true) :
    ¬ OneFlag ((rendering α).step (r, last) e).1 := by
  obtain ⟨hav', hframe, -⟩ := step_planes r hplanes
  exact fun hone => hone ⟨hav'.trans hav, hframe⟩

theorem Shows.takesLatest {w : VideoRenderer α × Option (Frame α)} (h : Shows w) (e : Event α) :
    TakesLatest w e := by
  cases e with
  | consume => exact h.latest
  | _ => trivial

/-- The slot holds one frame at most and gives away the most recent one, exactly as
long as the player pushes no planes while an AVFrame waits. -/
theorem latest_iff (es : List (Event α)) :
    ((rendering α).Always (fun w => OneFlag w.1) ({}, none) es ∧
        (rendering α).Meets TakesLatest ({}, none) es) ↔
      (rendering α).Meets PlanesAlone ({}, none) es := by
  have hempty : Shows (({} : VideoRenderer α), none) :=
    ⟨fun hboth => Bool.false_ne_true hboth.1, fun f hf => nomatch hf⟩
  constructor
  · rintro ⟨hone, _⟩
    apply hone.needs
    intro w e hnext hplanes
    cases hav : w.1.hasAvframe with
    | false => rfl
    | true => exact absurd hnext (planes_both hplanes hav)
  · intro h
    have hshows := Machine.always_of_meets (fun _ _ => shows_step) hempty h
    exact ⟨hshows.mono fun _ => Shows.oneFlag, hshows.meets fun _ e hs => hs.takesLatest e⟩

end Latest

/-- A mirror frame of two by two, then a player's frame of four by four. -/
def mirrorThenPlayer : List (Event Unit) :=
  let plane : Plane := ⟨fun _ => 16, 4⟩
  [.pushAvframe (some ⟨2, 2, .yuv420p, ()⟩) true 100, .pushFrame plane plane plane 4 4 200]

/-- Both flags are set; the render thread takes the mirror's pixels with the player's
dimensions and time. -/
theorem mirror_then_player_mixes :
    ¬ ((rendering Unit).Always (fun w => OneFlag w.1) ({}, none) (mirrorThenPlayer ++ [.consume]) ∧
        (rendering Unit).Meets TakesLatest ({}, none) (mirrorThenPlayer ++ [.consume])) ∧
      ((rendering Unit).run ({}, none) mirrorThenPlayer).1.takes =
        some ⟨.avframe ⟨2, 2, .yuv420p, ()⟩, 4, 4, 200⟩ := by
  refine ⟨fun h => ?_, rfl⟩
  have hone := Machine.always_iff_prefix.mp h.1 mirrorThenPlayer (List.prefix_append _ _)
  exact hone ⟨rfl, rfl⟩

end AirPlay.Video
