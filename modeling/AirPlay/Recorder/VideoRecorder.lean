import AirPlay.Library.Machine
import Mathlib.Algebra.GroupWithZero.Nat

/-! The video recorder: a bounded queue of frames, a queue of PCM and one worker.

The callers check whether frames are accepted, copy their frame and check again under
the lock; the worker takes one frame and all the PCM under the lock, encodes them, and
looks again. Nothing here fails: an encoder that fails ends the recording. -/
namespace AirPlay.Recorder

/-- A frame with its time since the start of the recording, which is not negative. -/
structure QueuedFrame (α : Type) where
  frame : α
  ptsMs : Nat

/-- PCM of two channels, whole frames of it. -/
structure QueuedAudio where
  samples : List Int16
  stereo : samples.length % 2 = 0
  sampleRate : Int
  ptsMs : Int

def kMaxQueuedFrames : Nat := 90
def audioRate : Int := 44100

/-- A frame as it goes to the encoder. -/
structure Encoded (α : Type) where
  frame : α
  pts : Int

/-- An AAC frame: samples of the recording, and the silence that fills it up. -/
structure AacFrame where
  pts : Int
  pcm : List Int16
  padding : Nat

/-- The worker's PCM on the timeline of the recording, and what it has encoded of it. -/
structure AudioTrack where
  timelineStarted : Bool := false
  pcm : List Int16 := []
  nextPts : Int := 0
  frames : List AacFrame := []
  samplesWritten : Nat := 0

/-- Where the worker stands. -/
inductive Worker (α : Type)
  /-- Before the lock. -/
  | head
  /-- With what it has taken, and whether this is the last of it. -/
  | batch (item : Option (QueuedFrame α)) (audio : List QueuedAudio) (finish : Bool)
  | finishing
  | exited

def Worker.isExited {α : Type} : Worker α → Bool
  | .exited => true
  | _ => false

/-- Where `stop` stands. -/
inductive Stop
  | running | closed | requested | joined | returned
  deriving DecidableEq

/-- A recording: what its callers, the worker and `stop` share under the lock, where each of
them stands, and what the worker has encoded. -/
structure VideoRecorder (α : Type) where
  accepting : Bool := true
  stopRequested : Bool := false
  queue : List (QueuedFrame α) := []
  audioQueue : List QueuedAudio := []
  framesWritten : Nat := 0
  framesDropped : Nat := 0
  stop : Stop := .running
  /-- Callers past the first check, with their frame and whether it is a hardware surface. -/
  submitting : List (QueuedFrame α × Bool) := []
  submittingAudio : List QueuedAudio := []
  worker : Worker α := .head
  enc : Bool := false
  firstPts : Option Nat := none
  lastPts : Int := -1
  track : AudioTrack := {}
  /-- What `write_video` has encoded. -/
  video : List (Encoded α) := []
  /-- The last frame once more, at the end of the recording. -/
  lastFrame : Option (Encoded α) := none

namespace AudioTrack

/-- A block of PCM; the first one is moved to where the first frame is time zero. -/
def queuePcm (firstPts : Nat) (audio : QueuedAudio) (t : AudioTrack) : AudioTrack :=
  if t.timelineStarted then {t with pcm := t.pcm ++ audio.samples}
  else
    let deltaMs := audio.ptsMs - firstPts
    let silenceFrames := if deltaMs > 0 then deltaMs * audioRate / 1000 else 0
    let frames : Int := (audio.samples.length / 2 : Nat)
    let skipFrames := if deltaMs < 0 then min frames (-deltaMs * audioRate / 1000) else 0
    {t with
      timelineStarted := true
      pcm := t.pcm ++ List.replicate (silenceFrames.toNat * 2) 0 ++
        audio.samples.drop (skipFrames.toNat * 2)}

/-- Whole AAC frames of `n` samples off the PCM. -/
def encodeFrames (n : Nat) (t : AudioTrack) : AudioTrack :=
  if _h : 0 < n ∧ n * 2 ≤ t.pcm.length then
    encodeFrames n {t with
      frames := t.frames ++ [⟨t.nextPts, t.pcm.take (n * 2), 0⟩]
      nextPts := t.nextPts + n
      samplesWritten := t.samplesWritten + n
      pcm := t.pcm.drop (n * 2)}
  else t
termination_by t.pcm.length
decreasing_by
  simp only [List.length_drop]
  omega

/-- The last AAC frame, filled up with silence. -/
def flushPcm (n : Nat) (t : AudioTrack) : AudioTrack :=
  if t.pcm.isEmpty then t
  else
    let taken := min n (t.pcm.length / 2)
    {t with
      frames := t.frames ++ [⟨t.nextPts, t.pcm.take (taken * 2), (n - taken) * 2⟩]
      nextPts := t.nextPts + n
      samplesWritten := t.samplesWritten + n
      pcm := t.pcm.drop (taken * 2)}

end AudioTrack

namespace VideoRecorder
variable {α : Type}

/-! ### The callers -/

/-- `submit` up to the lock. -/
def offer (frame : α) (hw : Bool) (nowMs : Int) (r : VideoRecorder α) : VideoRecorder α :=
  if r.accepting then {r with submitting := r.submitting ++ [(⟨frame, nowMs.toNat⟩, hw)]} else r

/-- A full queue loses its oldest frame; the decoder has few hardware surfaces to lend. -/
def pushFrame (item : QueuedFrame α) (hw : Bool) (r : VideoRecorder α) : VideoRecorder α :=
  let queueLimit := if hw then 2 else kMaxQueuedFrames
  if r.queue.length ≥ queueLimit then
    {r with queue := r.queue.tail ++ [item], framesDropped := r.framesDropped + 1}
  else {r with queue := r.queue ++ [item]}

/-- `submit` under the lock. -/
def submit (i : Nat) (r : VideoRecorder α) : VideoRecorder α :=
  match r.submitting[i]? with
  | none => r
  | some (item, hw) =>
    let r := {r with submitting := r.submitting.eraseIdx i}
    if !r.accepting then r else r.pushFrame item hw

/-- `submit_audio` up to the lock: the block begins its duration before now. -/
def offerAudio (samples : List Int16) (stereo : samples.length % 2 = 0) (sampleRate nowMs : Int)
    (r : VideoRecorder α) : VideoRecorder α :=
  if !r.accepting || samples.isEmpty || sampleRate ≤ 0 then r
  else
    let frames : Int := (samples.length / 2 : Nat)
    let ptsMs := max 0 (max 0 nowMs - frames * 1000 / sampleRate)
    {r with submittingAudio := r.submittingAudio ++ [{samples, stereo, sampleRate, ptsMs}]}

def values (queue : List QueuedAudio) : Nat := (queue.map fun q => q.samples.length).sum

/-- Drops the oldest blocks until `size` more values fit in `limit`. -/
def evictAudio (limit size : Int) : List QueuedAudio → List QueuedAudio
  | [] => []
  | q :: rest =>
    if values (q :: rest) + size > limit then evictAudio limit size rest else q :: rest

/-- `submit_audio` under the lock: about ten seconds of PCM are kept. -/
def submitAudio (i : Nat) (r : VideoRecorder α) : VideoRecorder α :=
  match r.submittingAudio[i]? with
  | none => r
  | some audio =>
    let r := {r with submittingAudio := r.submittingAudio.eraseIdx i}
    if !r.accepting then r
    else
      let kept := evictAudio (audio.sampleRate * 2 * 10) audio.samples.length r.audioQueue
      {r with audioQueue := kept ++ [audio]}

/-! ### The worker -/

/-- The head of the loop, under the lock. It waits for a frame, for PCM once the encoder is
there, or for the end. -/
def loopHead (r : VideoRecorder α) : VideoRecorder α :=
  if !(r.stopRequested || !r.queue.isEmpty || (r.enc && !r.audioQueue.isEmpty)) then r
  else
    let item := r.queue.head?
    let queue := r.queue.tail
    let takes := r.enc || item.isSome
    let batch := if takes then r.audioQueue else []
    -- stopped before the first frame: early PCM is discarded
    let audioQueue := if takes || r.stopRequested then [] else r.audioQueue
    let finish := r.stopRequested && queue.isEmpty && audioQueue.isEmpty
    {r with queue, audioQueue, worker := .batch item batch finish}

/-- `write_video`; the first frame is time zero. -/
def writeVideo (item : QueuedFrame α) (r : VideoRecorder α) : VideoRecorder α :=
  let firstPts := r.firstPts.getD item.ptsMs
  let pts := max (r.lastPts + 1) ((item.ptsMs : Int) - firstPts)
  {r with
    enc := true, firstPts := some firstPts, lastPts := pts, framesWritten := r.framesWritten + 1
    video := r.video ++ [⟨item.frame, pts⟩]}

/-- Queues the PCM of a batch against the zero point of the first frame, and encodes whole AAC
frames of `n` samples. -/
def encodeAudio (n : Nat) (batch : List QueuedAudio) (r : VideoRecorder α) : VideoRecorder α :=
  match r.firstPts with
  | none => r
  | some firstPts =>
    let track := batch.foldl (fun t audio => t.queuePcm firstPts audio) r.track
    {r with track := track.encodeFrames n}

/-- What the worker does with what it has taken. -/
def process (n : Nat) (item : Option (QueuedFrame α)) (batch : List QueuedAudio) (finish : Bool)
    (r : VideoRecorder α) : VideoRecorder α :=
  let next := if finish then .finishing else .head
  match item with
  | none => if r.enc then {r.encodeAudio n batch with worker := next} else {r with worker := next}
  | some item => {(r.writeVideo item).encodeAudio n batch with worker := next}

/-- The end of the recording: the last frame is shown until now. -/
def finishRecording (n : Nat) (nowMs : Int) (r : VideoRecorder α) : VideoRecorder α :=
  let r :=
    if r.enc then
      let r := {r with track := r.track.flushPcm n}
      let finalPts := max (r.lastPts + 1) (nowMs - r.firstPts.getD 0)
      if finalPts > r.lastPts + 1 then
        {r with lastFrame := r.video.getLast?.map fun f => ⟨f.frame, finalPts⟩}
      else r
    else r
  {r with accepting := false, worker := .exited}

def work (n : Nat) (nowMs : Int) (r : VideoRecorder α) : VideoRecorder α :=
  match r.worker with
  | .head => r.loopHead
  | .batch item batch finish => r.process n item batch finish
  | .finishing => r.finishRecording n nowMs
  | .exited => r

/-! ### The end -/

/-- The next step of `stop`, which waits for the worker before it goes on. -/
def stopStep (r : VideoRecorder α) : VideoRecorder α :=
  match r.stop with
  | .running => {r with accepting := false, stop := .closed}
  | .closed => {r with stopRequested := true, stop := .requested}
  | .requested => if r.worker.isExited then {r with stop := .joined} else r
  | .joined => {r with queue := [], audioQueue := [], stop := .returned}
  | .returned => r

end VideoRecorder

/-- What the callers, the worker and `stop` do, one step at a time. -/
inductive Event (α : Type)
  | offer (frame : α) (hw : Bool) (nowMs : Int)
  | submit (i : Nat)
  | offerAudio (samples : List Int16) (stereo : samples.length % 2 = 0) (sampleRate nowMs : Int)
  | submitAudio (i : Nat)
  | work (nowMs : Int)
  | stop

/-- `frame_size` of the AAC encoder, or 1024 when it has none. -/
def nbSamples (frameSize : Nat) : Nat := if frameSize > 0 then frameSize else 1024

/-- A recording, from `start` on. -/
def machine (α : Type) (frameSize : Nat) : Machine (VideoRecorder α) (Event α) where
  step r
    | .offer frame hw nowMs => r.offer frame hw nowMs
    | .submit i => r.submit i
    | .offerAudio samples stereo sampleRate nowMs => r.offerAudio samples stereo sampleRate nowMs
    | .submitAudio i => r.submitAudio i
    | .work nowMs => r.work (nbSamples frameSize) nowMs
    | .stop => r.stopStep

end AirPlay.Recorder
