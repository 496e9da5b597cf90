import AirPlay.Audio.Pcm

/-! The audio receiver: what its two threads and its control calls do to the PCM
they share.

The packet thread decodes and appends (`enqueue`), the playout thread takes from
the front (`playout`), and the RTSP thread flushes, resumes, discards, suspends.
Each of them holds `pcm_mutex_` for one of the functions below, so a run of the
receiver is a sequence of these. What a function reads from outside — the steady
clock, the sink's fill, the NTP mapping — is an argument. -/
namespace AirPlay.Audio

variable {α : Type}

/-- `AudioReceiver::Config`: the fields the queue depends on. Sockets and the NTP
client are here as present or not. -/
structure Config where
  dataSock : Option Nat
  ntp : Bool
  synchronize : Bool := false
  preservePausedAudio : Bool := true
  aesKey : List UInt8
  aesIv : List UInt8
  sampleRate : Int := 44100
  /-- Two minutes of audio in ns·Hz stay in `int64_t`, as `resume` computes them. -/
  rate_fits : sampleRate * 120000000000 < 2 ^ 63 := by decide
deriving DecidableEq

/-- `AudioReceiver::PauseState`; the sink is present or not. -/
structure PauseState (α : Type) where
  pcm : List (PcmFrame α) := []
  output : Bool := false
  sampleRate : Int := 0
  pausedAtNs : Int := 0
  sourceLeadFrames : BitVec 32 := 0

/-- A pause that was moved from: its blocks and its sink are gone. -/
def PauseState.moved (state : PauseState α) : PauseState α :=
  {state with pcm := [], output := false}

/-- A started receiver. `synchronize` is the atomic `synchronize_`, and
`queuedSamples` the unsigned counter read as an integer: below zero would be a
wrap. -/
structure AudioReceiver (α : Type) where
  cfg : Config
  rate_pos : 0 < cfg.sampleRate
  synchronize : Bool
  decoder : Bool
  output : Bool
  pcmQueue : List (PcmFrame α) := []
  queuedSamples : Int := 0
  syncRtp : BitVec 32 := 0
  syncNtp : BitVec 64 := 0
  haveAnchor : Bool := false
  clearOutput : Bool := false
  flushBoundary : Option (BitVec 32) := none
  pausedPcm : List (PcmFrame α) := []
  pausedAtNs : Int := 0
  importedPause : Bool := false
  sourceLeadFrames : BitVec 32 := 0
  haveFirstPacket : Bool := false
  firstPacketRtp : BitVec 32 := 0
  firstPacketNs : Int := 0

/-- What the calls of `start` outside this code answer: the AES context, the
decoder's and the device's own start. -/
structure Opened where
  aes : Bool
  decoder : Bool
  device : Bool

namespace AudioReceiver

/-- A pause is taken over by a stream that preserves and synchronizes, at its rate. -/
def takesPause (cfg : Config) (state : PauseState α) : Bool :=
  cfg.preservePausedAudio && cfg.synchronize && state.sampleRate == cfg.sampleRate

/-- `start`: refuses a missing socket, a rate that is not positive, a key or IV
that is not 16 bytes and a failed AES context; otherwise takes the pause over when
it was saved at the same rate. -/
def start (cfg : Config) (state : PauseState α) (opened : Opened) : Option (AudioReceiver α) :=
  if h : cfg.dataSock = none ∨ cfg.sampleRate ≤ 0 then none
  else if cfg.aesKey.length ≠ 16 ∨ cfg.aesIv.length ≠ 16 then none
  else
    let imports := takesPause cfg state
    let output := imports && state.output
    if !opened.aes then none
    else some
      { cfg
        rate_pos := by omega
        synchronize := cfg.synchronize && cfg.ntp
        decoder := opened.decoder
        output := output || (opened.decoder && opened.device)
        pausedPcm := if imports then state.pcm else []
        pausedAtNs := if imports then state.pausedAtNs else 0
        importedPause := imports && !state.pcm.isEmpty
        sourceLeadFrames := if imports then state.sourceLeadFrames else 0 }

/-! ### Control calls -/

/-- The loop of `flush`: trim each block, count what is removed, erase the empty. -/
def flushLoop (boundary : BitVec 32) : List (PcmFrame α) → Int → List (PcmFrame α) × Int
  | [], queued => ([], queued)
  | f :: rest, queued =>
    let r := flushLoop boundary rest (queued - f.removed boundary)
    if (f.trim boundary).samples.isEmpty then r else (f.trim boundary :: r.1, r.2)

def flush (boundary : Option (BitVec 32)) (now : Int) (s : AudioReceiver α) : AudioReceiver α :=
  let s := if boundary.isNone then {s with importedPause := false} else s
  let s := if !s.importedPause then {s with pausedPcm := [], pausedAtNs := 0} else s
  let s :=
    if !s.importedPause && s.cfg.preservePausedAudio && s.synchronize && boundary.isSome &&
        !s.pcmQueue.isEmpty then
      {s with pausedPcm := s.pcmQueue, pausedAtNs := now}
    else s
  let s := {s with flushBoundary := boundary}
  let s := match boundary with
    | none => {s with pcmQueue := [], queuedSamples := 0}
    | some b =>
      let r := flushLoop b s.pcmQueue s.queuedSamples
      {s with pcmQueue := r.1, queuedSamples := r.2}
  {s with clearOutput := true}

/-- The shift of a resumed tail: the elapsed time in frames, as a `uint32_t`. -/
def resumeShift (sampleRate elapsed : Int) : BitVec 32 :=
  BitVec.ofInt 32 ((elapsed * sampleRate).tdiv 1000000000)

/-- A saved block on the resumed timeline. -/
def shifted (shift : BitVec 32) (f : PcmFrame α) : PcmFrame α :=
  {f with rtp := f.rtp + shift, localTargetNs := 0}

/-- A pause between 0.2 s and 120 s, in synchronized mode, is one to resume; an
immediate FLUSH/resume pair is a buffer reset. -/
def resumable (elapsed : Int) (s : AudioReceiver α) : Bool :=
  !(elapsed < 200000000 || elapsed > 120000000000 || !s.synchronize)

def resume (now : Int) (s : AudioReceiver α) : AudioReceiver α :=
  -- A recreated stream has an unrelated RTP epoch: its first packet decides.
  if s.importedPause then s
  else match s.pausedPcm.getLast? with
    | none => s
    | some back =>
      let elapsed := now - s.pausedAtNs
      if !s.resumable elapsed then {s with pausedPcm := []}
      else
        let shift := resumeShift s.cfg.sampleRate elapsed
        let stop := (shifted shift back).endRtp
        let queue := s.pausedPcm.map (shifted shift) ++ trimQueue stop s.pcmQueue
        {s with
          pcmQueue := queue
          pausedPcm := []
          queuedSamples := total queue
          flushBoundary := some stop}

def discardPause (s : AudioReceiver α) : AudioReceiver α :=
  {s with pausedPcm := [], importedPause := false}

/-- What `suspend` hands over; the receiver is gone afterwards. -/
def suspend (s : AudioReceiver α) : PauseState α :=
  if s.cfg.preservePausedAudio && s.synchronize && !s.pausedPcm.isEmpty then
    { pcm := s.pausedPcm
      output := s.output
      sampleRate := s.cfg.sampleRate
      pausedAtNs := s.pausedAtNs
      sourceLeadFrames := s.sourceLeadFrames }
  else {}

/-- `set_synchronized`, its flush included: the RTSP thread makes no call in between. -/
def setSynchronized (enabled : Bool) (s : AudioReceiver α) : AudioReceiver α :=
  let value := enabled && s.cfg.ntp
  if s.synchronize != value then flush none 0 {s with synchronize := value} else s

/-! ### The packet thread -/

/-- Five seconds of stereo samples. -/
def limit (s : AudioReceiver α) : Int := s.cfg.sampleRate * 2 * 5

/-- Drop the oldest blocks until `size` more samples fit. -/
def evict (limit : Int) (size : Nat) : List (PcmFrame α) → Int → List (PcmFrame α) × Int
  | [], queued => ([], queued)
  | f :: rest, queued =>
    if queued + size > limit then evict limit size rest (queued - f.samples.length)
    else (f :: rest, queued)

def evicted (size : Nat) (s : AudioReceiver α) : AudioReceiver α :=
  let r := evict s.limit size s.pcmQueue s.queuedSamples
  {s with pcmQueue := r.1, queuedSamples := r.2}

/-- The part of a late packet before the boundary that continues the saved tail,
cut at the boundary. -/
def drained (sampleRate : Int) (boundary stop : BitVec 32) (frame : PcmFrame α) :
    List (PcmFrame α) :=
  let drain := frame.trim stop
  let remaining := boundary - drain.rtp
  if drain.rtp = stop ∧ remaining ≤ BitVec.ofInt 32 (sampleRate * 5) ∧ drain.samples ≠ [] then
    let kept :=
      if drain.samples.length / 2 > remaining.toNat then drain.samples.take (remaining.toNat * 2)
      else drain.samples
    if kept ≠ [] then [{drain with samples := kept}] else []
  else []

/-- FLUSH can precede the last already-sent packets: what a block adds to the saved
tail while the boundary stands. -/
def drains (frame : PcmFrame α) (s : AudioReceiver α) : List (PcmFrame α) :=
  if s.importedPause then []
  else match s.flushBoundary, s.pausedPcm.getLast? with
    | some boundary, some back => drained s.cfg.sampleRate boundary back.endRtp frame
    | _, _ => []

def drain (frame : PcmFrame α) (s : AudioReceiver α) : AudioReceiver α :=
  {s with pausedPcm := s.pausedPcm ++ s.drains frame}

/-- Saved blocks on the new stream's timeline, due one after the other. -/
def retained (sampleRate : Int) (shift : BitVec 32) : Int → List (PcmFrame α) → List (PcmFrame α)
  | _, [] => []
  | target, f :: rest =>
    {f with rtp := f.rtp + shift, localTargetNs := target} ::
      retained sampleRate shift
        (target + ((f.samples.length / 2 : Nat) * 1000000000 : Int).tdiv sampleRate) rest

/-- When the saved tail is due: its end at the estimated live deadline of `frame`
and one device buffer, but not before `now`. -/
def retainedTarget (frame : PcmFrame α) (now pending : Int) (s : AudioReceiver α) : Int :=
  let retainedFrames : Nat := (s.pausedPcm.map fun f => f.samples.length / 2).sum
  let packetDelta := (frame.rtp - s.firstPacketRtp).toInt
  let freshEstimate := s.firstPacketNs +
    ((packetDelta + s.sourceLeadFrames.toNat) * 1000000000).tdiv s.cfg.sampleRate
  let tailDuration := (retainedFrames * 1000000000 : Int).tdiv s.cfg.sampleRate
  let deviceMargin := if s.output then pending else 0
  max now (freshEstimate - tailDuration + deviceMargin)

/-- What a block puts back of an imported tail: all of it, within 120 s of the pause. -/
def imports (frame : PcmFrame α) (now pending : Int) (s : AudioReceiver α) : List (PcmFrame α) :=
  match s.pausedPcm.getLast? with
  | some back =>
    if now - s.pausedAtNs < 120000000000 then
      retained s.cfg.sampleRate (frame.rtp - back.endRtp) (s.retainedTarget frame now pending)
        s.pausedPcm
    else []
  | none => []

/-- The first block of a recreated stream puts the imported tail in front of it. -/
def importPause (frame : PcmFrame α) (now pending : Int) (s : AudioReceiver α) :
    AudioReceiver α :=
  if !s.importedPause then s
  else {s with
    pcmQueue := s.pcmQueue ++ s.imports frame now pending
    queuedSamples := s.queuedSamples + total (s.imports frame now pending)
    pausedPcm := []
    importedPause := false}

/-- The block as the flush boundary lets it through. -/
def fenced (frame : PcmFrame α) (s : AudioReceiver α) : PcmFrame α :=
  match s.flushBoundary with
  | some boundary => frame.trim boundary
  | none => frame

/-- Append what the boundary leaves of the block; the boundary is then reached. -/
def push (frame : PcmFrame α) (s : AudioReceiver α) : AudioReceiver α :=
  let frame := s.fenced frame
  if frame.samples.isEmpty then s
  else {s with
    flushBoundary := none
    queuedSamples := s.queuedSamples + frame.samples.length
    pcmQueue := s.pcmQueue ++ [frame]}

/-- Everything `thread_fn` does with a decoded block once it fits. -/
def insert (rtp : BitVec 32) (pcm : List α) (now pending : Int) (s : AudioReceiver α) :
    AudioReceiver α :=
  ((s.drain {rtp, samples := pcm}).importPause {rtp, samples := pcm} now pending).push
    {rtp, samples := pcm}

/-- One block pulled from the decoder, under `pcm_mutex_`. -/
def enqueue (rtp : BitVec 32) (pcm : List α) (now pending : Int) (s : AudioReceiver α) :
    AudioReceiver α :=
  insert rtp pcm now pending (s.evicted pcm.length)

/-! ### Packets -/

/-- The big-endian word at `offset`; a datagram too short for it reads as zero. -/
def be32 (datagram : List UInt8) (offset : Nat) : BitVec 32 :=
  let byte (i : Nat) : BitVec 32 := (datagram.getD (offset + i) 0).toBitVec.setWidth 32
  byte 0 <<< 24 ||| byte 1 <<< 16 ||| byte 2 <<< 8 ||| byte 3

/-- A timing anchor on the control socket: RTP stamp, NTP stamp and next RTP stamp. -/
def anchor (control : List UInt8) (s : AudioReceiver α) : AudioReceiver α :=
  if 20 ≤ control.length ∧ (control.getD 1 0) &&& 0x7f = 0x54 then
    let ntp : BitVec 64 := be32 control 8 ++ be32 control 12
    let lead := be32 control 16 - be32 control 4
    {s with
      syncRtp := be32 control 4
      syncNtp := ntp
      haveAnchor := ntp != 0
      sourceLeadFrames :=
        if lead ≤ BitVec.ofInt 32 (s.cfg.sampleRate * 5) then lead else s.sourceLeadFrames}
  else s

/-- The first data packet fixes where and when the stream began. -/
def firstPacket (data : List UInt8) (now : Int) (s : AudioReceiver α) : AudioReceiver α :=
  if 12 ≤ data.length ∧ !s.haveFirstPacket then
    {s with firstPacketRtp := be32 data 4, firstPacketNs := now, haveFirstPacket := true}
  else s

/-! ### The playout thread -/

/-- What one turn of `playout_fn` reads: the steady clock, whether the startup
grace has passed, the NTP client and the sink's pending time. -/
structure Surroundings where
  now : Int
  graceOver : Bool
  ntpRunning : Bool
  localTimeNs : BitVec 64 → Option Int
  pendingNs : Int

/-- What a turn does with the block at the front: leave it, drop it as late, or play
it. -/
inductive Turn where
  | wait
  | late
  | play
deriving DecidableEq

/-- A difference of RTP stamps read as a signed number of ticks. -/
def signedTicks (ticks : BitVec 32) : Int :=
  if ticks.toNat ≤ 0x7fffffff then ticks.toNat else (ticks.toNat : Int) - 0x100000000

/-- When a block is due on the local clock, if anything says so. -/
def target (around : Surroundings) (front : PcmFrame α) (s : AudioReceiver α) : Option Int :=
  if front.localTargetNs ≠ 0 then some front.localTargetNs
  else if s.synchronize && s.cfg.ntp && s.haveAnchor then
    (around.localTimeNs s.syncNtp).map fun t =>
      t + (signedTicks (front.rtp - s.syncRtp) * 1000000000).tdiv s.cfg.sampleRate
  else none

/-- Take the front block off the queue. -/
def pop (front : PcmFrame α) (rest : List (PcmFrame α)) (s : AudioReceiver α) :
    AudioReceiver α :=
  {s with pcmQueue := rest, queuedSamples := s.queuedSamples - front.samples.length}

/-- The turn's decision about the block at the front. -/
def turn (around : Surroundings) (front : PcmFrame α) (s : AudioReceiver α) : Turn :=
  let target := s.target around front
  if s.synchronize && target.isNone && s.cfg.ntp && around.ntpRunning && !around.graceOver then
    .wait
  else
    let pending := if s.output then around.pendingNs else 0
    -- Future PCM stays in the queue: SDL can only flush its own whole.
    if s.synchronize && pending > 60000000 then .wait
    else match target with
      | none => .play
      | some t =>
        let advance := t - around.now - pending
        -- A broken anchor does not buffer forever.
        if advance > 5000000000 then .play
        else if advance > 1000000 then .wait
        else if advance < -250000000 then .late
        else .play

/-- One turn of the loop of `playout_fn`, with the block it hands to the sink. -/
def playout (around : Surroundings) (s : AudioReceiver α) :
    AudioReceiver α × Option (PcmFrame α) :=
  let s := {s with clearOutput := false}
  match s.pcmQueue with
  | [] => (s, none)
  | front :: rest =>
    match s.turn around front with
    | .wait => (s, none)
    | .late => (s.pop front rest, none)
    | .play => (s.pop front rest, if s.output then some front else none)

end AudioReceiver

end AirPlay.Audio
