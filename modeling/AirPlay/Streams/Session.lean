import AirPlay.Audio.Steps
import AirPlay.Library.Bytes
import AirPlay.Library.Ledger
import AirPlay.Library.Machine

/-! The streams of a connection, and the sockets they own.

A `StreamSession` binds UDP sockets for its ports and its audio streams and keeps
the mirror's listener, the NTP client and the audio receiver. The system's answers to
the binds and to the starts are arguments; the sockets that it has given out, and those
that were closed, are in a ledger. -/
namespace AirPlay.Streams

/-- `pick_port`: the number after the key, as a `uint16_t`. -/
def pickPort (header key : Bytes) : UInt16 :=
  match Bytes.cut key header with
  | some (_, 61 :: rest) =>
    (rest.takeWhile fun b => 48 ≤ b && b ≤ 57).foldl (fun v b => v * 10 + (b - 48).toUInt16) 0
  | _ => 0

/-- The ports of a legacy session. -/
structure StreamPorts where
  server : UInt16 := 0
  control : UInt16 := 0
  timing : UInt16 := 0

/-- A channel with its sockets and ports. -/
structure StreamChannel where
  type : Int
  dataPort : UInt16
  controlPort : UInt16 := 0
  dataSock : Option Nat := none
  controlSock : Option Nat := none

def StreamChannel.socks (ch : StreamChannel) : List Nat :=
  ch.dataSock.toList ++ ch.controlSock.toList

/-- What `setup_stream` is given for a channel's receiver. -/
structure StreamOpts where
  aesKey : Bytes := List.replicate 16 0
  aesIv : Bytes := List.replicate 16 0
  sampleRate : Int := 44100

/-! ### The audio receiver, as the session sees it -/

/-- A receiver that has started: the socket that it owns, whether it has an NTP client
and whether it is synchronized. -/
structure Receiver where
  dataSock : Nat
  ntp : Bool
  synchronize : Bool

def Receiver.start (dataSock : Nat) (ntp synchronize : Bool) (opts : StreamOpts) (aes : Bool) :
    Option Receiver :=
  if opts.sampleRate ≤ 0 then none
  else if opts.aesKey.length ≠ 16 ∨ opts.aesIv.length ≠ 16 then none
  else if !aes then none
  else some {dataSock, ntp, synchronize := synchronize && ntp}

theorem Receiver.start_some {dataSock : Nat} {ntp synchronize aes : Bool} {opts : StreamOpts}
    {r : Receiver} (h : start dataSock ntp synchronize opts aes = some r) :
    r.dataSock = dataSock ∧ r.ntp = ntp ∧ r.synchronize = (synchronize && ntp) := by
  rw [start] at h
  split at h
  · exact nomatch h
  split at h
  · exact nomatch h
  split at h
  · exact nomatch h
  · rw [← Option.some.inj h]
    exact ⟨rfl, rfl, rfl⟩

def Receiver.setSynchronized (enabled : Bool) (r : Receiver) : Receiver :=
  {r with synchronize := enabled && r.ntp}

section Seen
open Audio
variable {α : Type}

/-- What the session sees of a receiver. -/
def seen (r : AudioReceiver α) : Option Receiver :=
  r.cfg.dataSock.map fun dataSock => ⟨dataSock, r.cfg.ntp, r.synchronize⟩

theorem seen_start {cfg : Config} {dataSock : Nat} (hsock : cfg.dataSock = some dataSock)
    (state : PauseState α) (opened : Opened) :
    (AudioReceiver.start cfg state opened).bind seen =
      Receiver.start dataSock cfg.ntp cfg.synchronize ⟨cfg.aesKey, cfg.aesIv, cfg.sampleRate⟩
        opened.aes := by
  rw [AudioReceiver.start, Receiver.start]
  by_cases hrate : cfg.sampleRate ≤ 0
  · rw [dif_pos (.inr hrate), if_pos hrate]
    rfl
  · have hvalid : ¬ (cfg.dataSock = none ∨ cfg.sampleRate ≤ 0) := by simp [hsock, hrate]
    rw [dif_neg hvalid, if_neg hrate]
    split
    · rfl
    dsimp only
    split
    · rfl
    · simp [seen, hsock]

theorem seen_setSynchronized (enabled : Bool) (r : AudioReceiver α) :
    seen (r.setSynchronized enabled) = (seen r).map (·.setSynchronized enabled) := by
  have hmode : (r.setSynchronized enabled).synchronize = (enabled && r.cfg.ntp) := by
    rw [AudioReceiver.setSynchronized]
    split
    · rw [AudioReceiver.flush_none]
    · rename_i hsame
      simpa using hsame
  rw [seen, seen, hmode, AudioReceiver.setSynchronized_cfg, Option.map_map]
  rfl

end Seen

/-- The streams of a connection: the sockets and channels that it owns, and its receivers. -/
structure StreamSession where
  clientPorts : StreamPorts := {}
  dataSock : Option Nat := none
  ctrlSock : Option Nat := none
  timingSock : Option Nat := none
  eventSock : Option Nat := none
  ap2TimingSock : Option Nat := none
  channels : List StreamChannel := []
  mirror : Bool := false
  ntp : Bool := false
  audio : Option Receiver := none
  audioControlSession : Bool := false
  sockets : Ledger := {}

namespace StreamSession

/-- `bind_udp`: a new socket and its port, or none. -/
def bindUdp (port : Option UInt16) (s : StreamSession) : Option (Nat × UInt16) × StreamSession :=
  match port with
  | none => (none, s)
  | some port => (some (s.sockets.issued, port), {s with sockets := s.sockets.issue})

@[simp] theorem bindUdp_none (s : StreamSession) : s.bindUdp none = (none, s) := rfl

@[simp] theorem bindUdp_some (port : UInt16) (s : StreamSession) :
    s.bindUdp (some port) =
      (some (s.sockets.issued, port), {s with sockets := s.sockets.issue}) := rfl

def closeSockets (socks : List Nat) (s : StreamSession) : StreamSession :=
  {s with sockets := s.sockets.close socks}

/-- The sockets that the five members hold. -/
def members (s : StreamSession) : List Nat :=
  s.dataSock.toList ++ s.ctrlSock.toList ++ s.timingSock.toList ++ s.eventSock.toList ++
    s.ap2TimingSock.toList

/-- `AudioReceiver::stop` or `suspend`, and the receiver is gone. -/
def dropAudio (s : StreamSession) : StreamSession :=
  {s.closeSockets (s.audio.map (·.dataSock)).toList with audio := none}

/-- Closes the sockets of some channels, which are gone then. -/
def dropChannels (gone : StreamChannel → Bool) (s : StreamSession) : StreamSession :=
  {s.closeSockets ((s.channels.filter gone).flatMap (·.socks)) with
    channels := s.channels.filter fun ch => !gone ch}

def dropMembers (s : StreamSession) : StreamSession :=
  {s.closeSockets s.members with
    dataSock := none, ctrlSock := none, timingSock := none, eventSock := none
    ap2TimingSock := none}

def teardown (s : StreamSession) : StreamSession :=
  let s := {s with audioControlSession := false, mirror := false}.dropAudio
  {s with ntp := false}.dropMembers.dropChannels fun _ => true

def pushChannel (ch : StreamChannel) (s : StreamSession) : StreamSession :=
  {s with channels := s.channels ++ [ch]}

/-- The socket for a port, if the client names that port. After a failed bind everything is
torn down. -/
def bindNamed (named : UInt16) (bind : Option UInt16) (store : Nat → StreamSession → StreamSession)
    (s : StreamSession) : Option UInt16 × StreamSession :=
  if named = 0 then (some 0, s)
  else
    match s.bindUdp bind with
    | (none, s) => (none, s.teardown)
    | (some (sock, port), s) => (some port, store sock s)

def setupControl (bind : Option UInt16) (s : StreamSession) : Option UInt16 × StreamSession :=
  s.bindNamed s.clientPorts.control bind fun sock s => {s with ctrlSock := some sock}

def setupTiming (bind : Option UInt16) (s : StreamSession) : Option UInt16 × StreamSession :=
  s.bindNamed s.clientPorts.timing bind fun sock s => {s with timingSock := some sock}

def clientPortsOf (transport : Bytes) : StreamPorts where
  server := pickPort transport (bytes "server_port")
  control := pickPort transport (bytes "control_port")
  timing := pickPort transport (bytes "timing_port")

def setupLegacy (transport : Bytes) (data control timing : Option UInt16) (s : StreamSession) :
    Option StreamPorts × StreamSession :=
  match {s with clientPorts := clientPortsOf transport}.bindUdp data with
  | (none, s) => (none, s)
  | (some (dSock, dPort), s) =>
    match {s with dataSock := some dSock}.setupControl control with
    | (none, s) => (none, s)
    | (some cPort, s) =>
      match s.setupTiming timing with
      | (none, s) => (none, s)
      | (some tPort, s) => (some ⟨dPort, cPort, tPort⟩, s)

/-- The event port and the timing port. -/
def setupSession (event timing : Option UInt16) (s : StreamSession) :
    Option (UInt16 × UInt16) × StreamSession :=
  match s.bindUdp event with
  | (none, s) => (none, s)
  | (some (eSock, ePort), s) =>
    match s.bindUdp timing with
    | (none, s) => (none, s.closeSockets [eSock])
    | (some (tSock, tPort), s) =>
      (some (ePort, tPort), {s with eventSock := some eSock, ap2TimingSock := some tSock})

/-- The mirror: a listener that was there is destroyed before the new one starts. -/
def setupMirror (listener : Option UInt16) (s : StreamSession) :
    Option (UInt16 × UInt16) × StreamSession :=
  match listener with
  | none => (none, {s with mirror := false})
  | some port =>
    let s := {s with mirror := true, audio := s.audio.map (Receiver.setSynchronized false)}
    (some (port, 0), s.pushChannel {type := 110, dataPort := port})

/-- The receiver of an audio stream; one that was there is destroyed first. When it does
not start the session closes the socket. -/
def startAudio (dSock : Nat) (opts : StreamOpts) (aes : Bool) (s : StreamSession) : StreamSession :=
  let s := s.dropAudio
  match Receiver.start dSock s.ntp (!s.mirror) opts aes with
  | none => s.closeSockets [dSock]
  | some r => {s with audio := some r}

/-- A stream of two UDP sockets; for audio the receiver takes the data socket. -/
def setupUdp (type : Int) (opts : StreamOpts) (data control : Option UInt16) (aes : Bool)
    (s : StreamSession) : Option (UInt16 × UInt16) × StreamSession :=
  match s.bindUdp data with
  | (none, s) => (none, s)
  | (some (dSock, dPort), s) =>
    match s.bindUdp control with
    | (none, s) => (none, s.closeSockets [dSock])
    | (some (cSock, cPort), s) =>
      if type = 96 then
        let s := (s.startAudio dSock opts aes).pushChannel
          {type, dataPort := dPort, controlPort := cPort, controlSock := some cSock}
        (some (dPort, cPort), {s with audioControlSession := true})
      else
        (some (dPort, cPort), s.pushChannel
          {type, dataPort := dPort, controlPort := cPort, dataSock := some dSock
           controlSock := some cSock})

/-- The data port and the control port. -/
def setupStream (type : Int) (opts : StreamOpts) (listener data control : Option UInt16)
    (aes : Bool) (s : StreamSession) : Option (UInt16 × UInt16) × StreamSession :=
  if type = 110 then s.setupMirror listener else s.setupUdp type opts data control aes

def stopStream (type : Int) (s : StreamSession) : StreamSession :=
  let s :=
    if type = 110 && s.mirror then
      {s with mirror := false, audio := s.audio.map (Receiver.setSynchronized true)}
    else s
  let s := if type = 96 then s.dropAudio else s
  s.dropChannels fun ch => ch.type = type

/-- Whether the client has started. -/
def startNtp (started : Bool) (s : StreamSession) : Bool × StreamSession :=
  if s.ap2TimingSock.isNone then (false, s) else (started, {s with ntp := true})

end StreamSession

/-- The calls of a session, with what the system answers to them. -/
inductive Event
  | setupLegacy (transport : Bytes) (data control timing : Option UInt16)
  | setupSession (event timing : Option UInt16)
  | setupStream (type : Int) (opts : StreamOpts) (listener data control : Option UInt16)
      (aes : Bool)
  | startNtp (started : Bool)
  | stopStream (type : Int)
  | teardown

def StreamSession.machine : Machine StreamSession Event where
  step s
    | .setupLegacy transport data control timing => (s.setupLegacy transport data control timing).2
    | .setupSession event timing => (s.setupSession event timing).2
    | .setupStream type opts listener data control aes =>
      (s.setupStream type opts listener data control aes).2
    | .startNtp started => (s.startNtp started).2
    | .stopStream type => s.stopStream type
    | .teardown => s.teardown

end AirPlay.Streams
