import AirPlay.Library.Plist
import AirPlay.Pairing.FairPlay
import AirPlay.Streams.Sockets

/-! The SETUP exchange of AirPlay 2.

The body of a SETUP is a property list; it brings the key of the session, or names the
streams to be set up, or does both. The reply tells the client the ports to send to. Each
port that the reply names is a socket of the session that is open when the reply is sent,
except that of an audio stream whose receiver did not start (`announced_served_iff`). -/
namespace AirPlay.Streams
open Pairing.FairPlay

/-- `static_cast<int>`. -/
def castInt (n : UInt64) : Int := (n.toBitVec.setWidth 32).toInt

/-- The conversion of an `int` to `uint64_t`. -/
def castUint (n : Int) : UInt64 := UInt64.ofBitVec (BitVec.ofInt 64 n)

/-! ### The request -/

/-- An item of `streams`. -/
structure StreamRequest where
  type : Int
  streamConnId : UInt64
  remoteControlPort : Int
  ct : Int
  spf : Int
  audioFormat : UInt64

/-- What `parse_airplay2_setup` reads from the body. -/
structure Airplay2SetupRequest where
  hasKeys : Bool := false
  ekey : Bytes := []
  eiv : Bytes := []
  deviceId : Bytes := []
  model : Bytes := []
  name : Bytes := []
  timingProtocol : Bytes := []
  timingRport : UInt64 := 0
  isRemoteControlOnly : Bool := false
  hasStreams : Bool := false
  streams : List StreamRequest := []

def parseStream (s : Plist) : Option StreamRequest :=
  match s with
  | .dict _ => some
    { type := castInt (s.getUint (bytes "type"))
      streamConnId := s.getUint (bytes "streamConnectionID")
      remoteControlPort := castInt (s.getUint (bytes "controlPort"))
      ct := castInt (s.getUint (bytes "ct"))
      spf := castInt (s.getUint (bytes "spf"))
      audioFormat := s.getUint (bytes "audioFormat") }
  | _ => none

/-- The keys and the sender are read only where both keys are there. -/
def parseKeys (root : Plist) : Airplay2SetupRequest :=
  let ekey := root.getData (bytes "ekey")
  let eiv := root.getData (bytes "eiv")
  if ekey ≠ [] ∧ eiv ≠ [] then
    { hasKeys := true, ekey, eiv
      deviceId := root.getStr (bytes "deviceID")
      model := root.getStr (bytes "model")
      name := root.getStr (bytes "name")
      timingProtocol := root.getStr (bytes "timingProtocol")
      timingRport := root.getUint (bytes "timingPort")
      isRemoteControlOnly := root.getBool (bytes "isRemoteControlOnly") }
  else {ekey, eiv}

def parseAirplay2Setup (fromBin : Bytes → Option Plist) (body : Bytes) :
    Option Airplay2SetupRequest :=
  if body.length < 8 then none
  else
    match fromBin body with
    | some (.dict items) =>
      let root := Plist.dict items
      let out := parseKeys root
      let out := match root.item (bytes "streams") with
        | some (.array streams) =>
          {out with hasStreams := true, streams := streams.filterMap parseStream}
        | _ => out
      if out.hasKeys || out.hasStreams then some out else none
    | _ => none

/-! ### The handler -/

/-- What SETUP uses of a connection. -/
structure ClientSession where
  remoteIp : Bytes
  streams : Option StreamSession := none
  fairplay : Option FairPlaySession := none
  ecdhSecret : Option Bytes := none
  aesKey : Bytes := []
  aesIv : Bytes := []

/-- What the system answers while a stream is set up: the ports of the mirror's listener and
of two UDP sockets, and whether the cipher is set up. -/
structure Answers where
  listener : Option UInt16
  data : Option UInt16
  control : Option UInt16
  aes : Bool

/-- What the system answers in the course of a request. -/
structure System where
  fromBin : Bytes → Option Plist
  blobs : Blobs
  sha512 : Bytes → Bytes
  digested : Bool
  /-- Whether another device's session is on the screen. -/
  occupied : Bool
  event : Option UInt16
  timing : Option UInt16
  ntpStarted : Bool
  stream : Nat → Answers

/-- How a SETUP ends: with a status, or with the plist of the response. -/
inductive Outcome where
  | refused (status : Nat)
  | accepted (root : List (Bytes × Plist))

section Handler
variable (sys : System)

/-- The key of the streams. Without a shared secret, or without its digest, it is what
FairPlay gives. -/
def recoverKey (ekey : Bytes) (s : ClientSession) : Option Bytes :=
  s.fairplay.bind fun fairplay =>
    let aesKey := fairplay.decryptStreamKey sys.blobs ekey
    if aesKey.length = 16 then
      some <| match s.ecdhSecret with
        | some secret =>
          if secret.length = 32 ∧ sys.digested then (sys.sha512 (aesKey ++ secret)).take 16
          else aesKey
        | none => aesKey
    else none

/-- A SETUP goes on when the key cannot be recovered. -/
def storeKey (parsed : Airplay2SetupRequest) (s : ClientSession) : ClientSession :=
  match recoverKey sys parsed.ekey s with
  | some aesKey => {s with aesKey, aesIv := parsed.eiv}
  | none => s

/-- The branch for the keys: what it adds to the reply, or the status of its error. -/
def setupKeys (parsed : Airplay2SetupRequest) (streams : StreamSession) (s : ClientSession) :
    Except Nat (List (Bytes × Plist)) × StreamSession × ClientSession :=
  if !parsed.hasKeys then (.ok [], streams, s)
  else if parsed.isRemoteControlOnly then (.error 500, streams, s)
  else
    let s := storeKey sys parsed s
    match streams.setupSession sys.event sys.timing with
    | (none, streams) => (.error 500, streams, s)
    | (some (_, timingPort), streams) =>
      let streams :=
        if parsed.timingRport ≠ 0 ∧ s.remoteIp ≠ [] then (streams.startNtp sys.ntpStarted).2
        else streams
      (.ok [(bytes "eventPort", .uint 0), (bytes "timingPort", .uint timingPort.toUInt64)],
        streams, s)

/-- The ports of the streams, up to the first that cannot be set up. -/
def setupStreams (opts : StreamOpts) : Nat → List StreamRequest → StreamSession →
    Option (List (UInt16 × UInt16)) × StreamSession
  | _, [], streams => (some [], streams)
  | i, r :: rs, streams =>
    let a := sys.stream i
    match streams.setupStream r.type opts a.listener a.data a.control a.aes with
    | (none, streams) => (none, streams)
    | (some ports, streams) =>
      let (rest, streams) := setupStreams opts (i + 1) rs streams
      (rest.map (ports :: ·), streams)

/-- What the reply says about a stream; only audio has a control port. -/
def entry (r : StreamRequest) (ports : UInt16 × UInt16) : Plist :=
  .dict <| [(bytes "type", .uint (castUint r.type)), (bytes "dataPort", .uint ports.1.toUInt64)] ++
    if r.type = 96 then [(bytes "controlPort", .uint ports.2.toUInt64)] else []

def ClientSession.opts (s : ClientSession) : StreamOpts := {aesKey := s.aesKey, aesIv := s.aesIv}

def setupAirplay2Path (body : Bytes) (s : ClientSession) : Outcome × ClientSession :=
  match parseAirplay2Setup sys.fromBin body with
  | none => (.refused 400, s)
  | some parsed =>
    if s.streams.isNone && sys.occupied then (.refused 503, s)
    else
      match setupKeys sys parsed (s.streams.getD {}) s with
      | (.error status, streams, s) => (.refused status, {s with streams := some streams})
      | (.ok session, streams, s) =>
        if !parsed.hasStreams then (.accepted session, {s with streams := some streams})
        else
          match setupStreams sys s.opts 0 parsed.streams streams with
          | (none, streams) => (.refused 500, {s with streams := some streams})
          | (some ports, streams) =>
            (.accepted (session ++
              [(bytes "streams", .array (List.zipWith entry parsed.streams ports))]),
              {s with streams := some streams})

end Handler

/-! ### Ports and the sockets behind them -/

/-- The sockets of a session so far have these ports, in the order in which they were bound. -/
structure Sound (ports : List UInt16) (rest : List Nat) (s : StreamSession) : Prop where
  keeps : s.Keeps rest
  length : ports.length = s.sockets.issued

/-- The socket has this port, and has not been closed. -/
def Open (ports : List UInt16) (s : StreamSession) (sock : Nat) (port : UInt16) : Prop :=
  ports[sock]? = some port ∧ sock ∉ s.sockets.closed

/-- What is sent to the port reaches what the session has for a stream of this type: the
listener of the mirror, the audio receiver's socket, or a channel's. -/
def Serves (ports : List UInt16) (s : StreamSession) (type : Int) (port : UInt16) : Prop :=
  if type = 110 then
    s.mirror = true ∧ (s.channels.filter (·.type = 110)).getLast?.map (·.dataPort) = some port
  else if type = 96 then ∃ r, s.audio = some r ∧ Open ports s r.dataSock port
  else ∃ ch ∈ s.channels, ch.type = type ∧ ∃ sock, ch.dataSock = some sock ∧ Open ports s sock port

/-- The port is that of a channel's control socket. -/
def Controls (ports : List UInt16) (s : StreamSession) (port : UInt16) : Prop :=
  ∃ ch ∈ s.channels, ∃ sock, ch.controlSock = some sock ∧ Open ports s sock port

/-- The ports that are bound for a stream. -/
def Answers.bound (a : Answers) (type : Int) : List UInt16 :=
  if type = 110 then [] else a.data.toList ++ a.control.toList

def System.bound (sys : System) : Nat → List StreamRequest → List UInt16
  | _, [] => []
  | i, r :: rs => (sys.stream i).bound r.type ++ System.bound sys (i + 1) rs

/-- The receiver of an audio stream starts. -/
def Starts (opts : StreamOpts) (a : Answers) : Prop :=
  0 < opts.sampleRate ∧ opts.aesKey.length = 16 ∧ opts.aesIv.length = 16 ∧ a.aes = true

theorem Receiver.start_isSome {dataSock : Nat} {ntp synchronize : Bool} {opts : StreamOpts}
    {a : Answers} :
    (start dataSock ntp synchronize opts a.aes).isSome = true ↔ Starts opts a := by
  rw [start, Starts]
  split
  · rename_i hrate
    exact iff_of_false Bool.false_ne_true fun h => absurd h.1 (not_lt.mpr hrate)
  · rename_i hrate
    split
    · rename_i hkey
      refine iff_of_false Bool.false_ne_true fun h => ?_
      rcases hkey with hkey | hkey
      · exact hkey h.2.1
      · exact hkey h.2.2.1
    · rename_i hkey
      rw [not_or, not_not, not_not] at hkey
      cases haes : a.aes with
      | false =>
        rw [if_pos (by rfl)]
        exact iff_of_false Bool.false_ne_true fun h => absurd h.2.2.2 Bool.false_ne_true
      | true =>
        rw [if_neg (by decide)]
        exact iff_of_true rfl ⟨not_le.mp hrate, hkey.1, hkey.2, rfl⟩

section Step
variable {s s' : StreamSession} {type : Int} {opts : StreamOpts} {a : Answers} {ports : List UInt16}
  {rest : List Nat} {dataPort controlPort : UInt16}

/-- What a stream that has been set up changes. -/
inductive Added (s : StreamSession) (type : Int) (opts : StreamOpts) (a : Answers)
    (dataPort controlPort : UInt16) (s' : StreamSession) : Prop where
  | mirror (htype : type = 110) (hmirror : s'.mirror = true)
      (haudio : s'.audio = s.audio.map (Receiver.setSynchronized false))
      (hchannels : s'.channels = s.channels ++ [{type := 110, dataPort}])
      (hsockets : s'.sockets.issued = s.sockets.issued)
      (htiming : s'.ap2TimingSock = s.ap2TimingSock)
  | audio (htype : type = 96) (hdata : a.data = some dataPort)
      (hcontrol : a.control = some controlPort) (hmirror : s'.mirror = s.mirror)
      (haudio : s'.audio = Receiver.start s.sockets.issued s.ntp (!s.mirror) opts a.aes)
      (hchannels : s'.channels = s.channels ++
        [⟨type, dataPort, controlPort, none, some (s.sockets.issued + 1)⟩])
      (hsockets : s'.sockets.issued = s.sockets.issued + 2)
      (htiming : s'.ap2TimingSock = s.ap2TimingSock)
  | udp (hvideo : type ≠ 110) (hsound : type ≠ 96) (hdata : a.data = some dataPort)
      (hcontrol : a.control = some controlPort) (hmirror : s'.mirror = s.mirror)
      (haudio : s'.audio = s.audio)
      (hchannels : s'.channels = s.channels ++
        [⟨type, dataPort, controlPort, some s.sockets.issued, some (s.sockets.issued + 1)⟩])
      (hsockets : s'.sockets.issued = s.sockets.issued + 2)
      (htiming : s'.ap2TimingSock = s.ap2TimingSock)

theorem setupStream_added
    (h : s.setupStream type opts a.listener a.data a.control a.aes =
      (some (dataPort, controlPort), s')) : Added s type opts a dataPort controlPort s' := by
  rw [StreamSession.setupStream] at h
  split at h
  · rename_i htype
    cases hlistener : a.listener with
    | none =>
      rw [hlistener] at h
      exact absurd (Prod.mk.inj h).1 (Option.some_ne_none _).symm
    | some port =>
      rw [hlistener] at h
      obtain ⟨hports, rfl⟩ := Prod.mk.inj h
      obtain ⟨rfl, rfl⟩ := Prod.mk.inj (Option.some.inj hports)
      exact .mirror htype rfl rfl rfl rfl rfl
  · rename_i hvideo
    cases hdata : a.data with
    | none =>
      rw [hdata] at h
      exact absurd (Prod.mk.inj h).1 (Option.some_ne_none _).symm
    | some dPort =>
      cases hcontrol : a.control with
      | none =>
        rw [hdata, hcontrol] at h
        exact absurd (Prod.mk.inj h).1 (Option.some_ne_none _).symm
      | some cPort =>
        rw [hdata, hcontrol, StreamSession.setupUdp] at h
        simp only [StreamSession.bindUdp_some] at h
        split at h
        · rename_i htype
          obtain ⟨hports, rfl⟩ := Prod.mk.inj h
          obtain ⟨rfl, rfl⟩ := Prod.mk.inj (Option.some.inj hports)
          rw [StreamSession.startAudio]
          split
          · rename_i hstart
            exact .audio htype hdata hcontrol rfl hstart.symm rfl rfl rfl
          · rename_i r hstart
            exact .audio htype hdata hcontrol rfl hstart.symm rfl rfl rfl
        · rename_i hsound
          obtain ⟨hports, rfl⟩ := Prod.mk.inj h
          obtain ⟨rfl, rfl⟩ := Prod.mk.inj (Option.some.inj hports)
          exact .udp hvideo hsound hdata hcontrol rfl rfl rfl rfl rfl

theorem setupStream_keeps (h : s.Keeps rest) :
    (s.setupStream type opts a.listener a.data a.control a.aes).2.Keeps rest := by
  rw [StreamSession.setupStream]
  split
  · exact StreamSession.setupMirror_keeps a.listener h
  · exact StreamSession.setupUdp_keeps type opts a.data a.control a.aes h

theorem Added.sound (hadded : Added s type opts a dataPort controlPort s') (hkeeps : s'.Keeps rest)
    (hs : Sound ports rest s) : Sound (ports ++ a.bound type) rest s' := by
  refine ⟨hkeeps, ?_⟩
  rw [List.length_append, hs.length, Answers.bound]
  cases hadded with
  | mirror htype _ _ _ hsockets _ => rw [if_pos htype, hsockets, List.length_nil, Nat.add_zero]
  | audio htype hdata hcontrol _ _ _ hsockets _ =>
    rw [if_neg (by rw [htype]; decide), hdata, hcontrol, hsockets]
    rfl
  | udp hvideo _ hdata hcontrol _ _ _ hsockets _ =>
    rw [if_neg hvideo, hdata, hcontrol, hsockets]
    rfl

/-- What a session owns is open. -/
theorem Sound.open_of_owned (hs : Sound ports rest s) {sock : Nat} {port : UInt16}
    (hmem : sock ∈ s.owned) (hport : ports[sock]? = some port) : Open ports s sock port := by
  refine ⟨hport, fun hclosed => ?_⟩
  have hnodup : (s.owned ++ rest ++ s.sockets.closed).Nodup :=
    (List.Perm.nodup_iff hs.keeps).mpr List.nodup_range
  exact (List.nodup_append.mp hnodup).2.2 sock (List.mem_append_left _ hmem) sock hclosed rfl

theorem owned_of_audio {r : Receiver} (h : s.audio = some r) : r.dataSock ∈ s.owned := by
  rw [StreamSession.owned, h]
  simp

theorem owned_of_channel {ch : StreamChannel} {sock : Nat} (hch : ch ∈ s.channels)
    (hsock : sock ∈ ch.socks) : sock ∈ s.owned :=
  List.mem_append_right _ (List.mem_flatMap.mpr ⟨ch, hch, hsock⟩)

theorem owned_of_timing {sock : Nat} (h : s.ap2TimingSock = some sock) : sock ∈ s.owned := by
  rw [StreamSession.owned, StreamSession.members, h]
  simp

theorem mem_socks_data {ch : StreamChannel} {sock : Nat} (h : ch.dataSock = some sock) :
    sock ∈ ch.socks := by
  rw [StreamChannel.socks, h]
  exact List.mem_append_left _ (List.mem_singleton_self sock)

theorem mem_socks_control {ch : StreamChannel} {sock : Nat} (h : ch.controlSock = some sock) :
    sock ∈ ch.socks := by
  rw [StreamChannel.socks, h]
  exact List.mem_append_right _ (List.mem_singleton_self sock)

/-- The two ports that have just been bound. -/
theorem ports_bound (hs : Sound ports rest s) (hvideo : type ≠ 110)
    (hdata : a.data = some dataPort) (hcontrol : a.control = some controlPort) :
    (ports ++ a.bound type)[s.sockets.issued]? = some dataPort ∧
      (ports ++ a.bound type)[s.sockets.issued + 1]? = some controlPort := by
  rw [Answers.bound, if_neg hvideo, hdata, hcontrol, ← hs.length]
  constructor
  · rw [List.getElem?_append_right (Nat.le_refl _), Nat.sub_self]
    rfl
  · rw [List.getElem?_append_right (Nat.le_succ _), Nat.succ_sub (Nat.le_refl _), Nat.sub_self]
    rfl

/-- A stream that has been set up is served, and an audio stream is exactly if its receiver
has started. -/
theorem Added.serves_iff (hadded : Added s type opts a dataPort controlPort s')
    (hkeeps : s'.Keeps rest) (hs : Sound ports rest s) :
    Serves (ports ++ a.bound type) s' type dataPort ↔ (type = 96 → Starts opts a) := by
  have hs' := hadded.sound hkeeps hs
  cases hadded with
  | mirror htype hmirror _ hchannels _ _ =>
    refine iff_of_true ?_ fun haudio => absurd (htype.symm.trans haudio) (by decide)
    rw [Serves, if_pos htype, hchannels, List.filter_append]
    refine ⟨hmirror, ?_⟩
    show ((s.channels.filter (·.type = 110)) ++ [(⟨110, dataPort, 0, none, none⟩ :
      StreamChannel)]).getLast?.map (·.dataPort) = some dataPort
    rw [List.getLast?_concat]
    rfl
  | audio htype hdata hcontrol _ haudio _ _ _ =>
    have hvideo : type ≠ 110 := by rw [htype]; decide
    have hport := (ports_bound hs hvideo hdata hcontrol).1
    rw [Serves, if_neg hvideo, if_pos htype]
    constructor
    · rintro ⟨r, hr, -⟩ -
      exact Receiver.start_isSome.mp (by rw [← haudio, hr]; rfl)
    · intro hstarts
      obtain ⟨r, hr⟩ := Option.isSome_iff_exists.mp (Receiver.start_isSome.mpr (hstarts htype))
      have hsock := (Receiver.start_some hr).1
      refine ⟨r, haudio.trans hr, hs'.open_of_owned (owned_of_audio (haudio.trans hr)) ?_⟩
      rw [hsock, hport]
  | udp hvideo hsound hdata hcontrol _ _ hchannels _ _ =>
    have hport := (ports_bound hs hvideo hdata hcontrol).1
    refine iff_of_true ?_ fun haudio => absurd haudio hsound
    rw [Serves, if_neg hvideo, if_neg hsound]
    have hmem : (⟨type, dataPort, controlPort, some s.sockets.issued, some (s.sockets.issued + 1)⟩ :
        StreamChannel) ∈ s'.channels := by
      rw [hchannels]
      exact List.mem_append_right _ (List.mem_singleton_self _)
    exact ⟨_, hmem, rfl, _, rfl,
      hs'.open_of_owned (owned_of_channel hmem (mem_socks_data rfl)) hport⟩

theorem Added.controls (hadded : Added s type opts a dataPort controlPort s')
    (hkeeps : s'.Keeps rest) (hs : Sound ports rest s) (htype : type = 96) :
    Controls (ports ++ a.bound type) s' controlPort := by
  have hs' := hadded.sound hkeeps hs
  cases hadded with
  | mirror hmirror => exact absurd (htype.symm.trans hmirror) (by decide)
  | audio _ hdata hcontrol _ _ hchannels _ _ =>
    have hvideo : type ≠ 110 := by rw [htype]; decide
    have hport := (ports_bound hs hvideo hdata hcontrol).2
    have hmem : (⟨type, dataPort, controlPort, none, some (s.sockets.issued + 1)⟩ :
        StreamChannel) ∈ s'.channels := by
      rw [hchannels]
      exact List.mem_append_right _ (List.mem_singleton_self _)
    exact ⟨_, hmem, _, rfl, hs'.open_of_owned (owned_of_channel hmem (mem_socks_control rfl)) hport⟩
  | udp _ hsound => exact absurd htype hsound

theorem Added.channels_subset (hadded : Added s type opts a dataPort controlPort s') :
    s.channels ⊆ s'.channels := by
  cases hadded with
  | mirror _ _ _ hchannels => exact hchannels ▸ List.subset_append_left _ _
  | audio _ _ _ _ _ hchannels => exact hchannels ▸ List.subset_append_left _ _
  | udp _ _ _ _ _ _ hchannels => exact hchannels ▸ List.subset_append_left _ _

theorem Open.port_append {sock : Nat} {port : UInt16} (h : Open ports s sock port)
    (more : List UInt16) : (ports ++ more)[sock]? = some port :=
  List.getElem?_append_left (List.getElem?_eq_some_iff.mp h.1).1 ▸ h.1

/-- Another stream leaves the audio receiver and the mirror alone. -/
theorem Added.audio_iff (hadded : Added s type opts a dataPort controlPort s')
    (hkeeps : s'.Keeps rest) (hs : Sound ports rest s) (hother : type ≠ 96) (port : UInt16) :
    Serves (ports ++ a.bound type) s' 96 port ↔ Serves ports s 96 port := by
  have hs' := hadded.sound hkeeps hs
  have hsame : s'.audio.map (·.dataSock) = s.audio.map (·.dataSock) := by
    cases hadded with
    | mirror _ _ haudio =>
      rw [haudio, Option.map_map]
      rfl
    | audio htype => exact absurd htype hother
    | udp _ _ _ _ _ haudio => rw [haudio]
  have hserves (ports : List UInt16) (s : StreamSession) : Serves ports s 96 port ↔
      ∃ r, s.audio = some r ∧ Open ports s r.dataSock port := by
    rw [Serves, if_neg (by decide), if_pos rfl]
  rw [hserves, hserves]
  constructor
  · rintro ⟨r', hr', hopen⟩
    rw [hr', Option.map_some] at hsame
    obtain ⟨r, hr, hsock⟩ := Option.map_eq_some_iff.mp hsame.symm
    have hlt : r.dataSock < ports.length := by
      rw [hs.length]
      have hmem : r.dataSock ∈ List.range s.sockets.issued :=
        hs.keeps.subset (List.mem_append_left _ (List.mem_append_left _ (owned_of_audio hr)))
      exact List.mem_range.mp hmem
    refine ⟨r, hr, hs.open_of_owned (owned_of_audio hr) ?_⟩
    rw [← List.getElem?_append_left hlt, hsock]
    exact hopen.1
  · rintro ⟨r, hr, hopen⟩
    rw [hr, Option.map_some] at hsame
    obtain ⟨r', hr', hsock⟩ := Option.map_eq_some_iff.mp hsame
    refine ⟨r', hr', hs'.open_of_owned (owned_of_audio hr') ?_⟩
    rw [hsock]
    exact hopen.port_append _

/-- What is served stays so, unless the next stream takes its place. -/
theorem Added.serves_of (hadded : Added s type opts a dataPort controlPort s')
    (hkeeps : s'.Keeps rest) (hs : Sound ports rest s) {other : Int} {port : UInt16}
    (hother : other = type → other ≠ 96 ∧ other ≠ 110) (h : Serves ports s other port) :
    Serves (ports ++ a.bound type) s' other port := by
  have hs' := hadded.sound hkeeps hs
  by_cases haudio : other = 96
  · subst haudio
    exact (hadded.audio_iff hkeeps hs (fun htype => (hother htype.symm).1 rfl) port).mpr h
  by_cases hvideo : other = 110
  · subst hvideo
    have htype : type ≠ 110 := fun htype => (hother htype.symm).2 rfl
    rw [Serves, if_pos rfl] at h ⊢
    have hfresh (ch : StreamChannel) (hch : ch.type = type) :
        (s.channels ++ [ch]).filter (·.type = 110) = s.channels.filter (·.type = 110) := by
      rw [List.filter_append, List.filter_cons_of_neg (by simpa [hch] using htype),
        List.filter_nil, List.append_nil]
    cases hadded with
    | mirror hmirror => exact absurd hmirror htype
    | audio _ _ _ hmirror _ hchannels => rwa [hmirror, hchannels, hfresh _ rfl]
    | udp _ _ _ _ hmirror _ hchannels => rwa [hmirror, hchannels, hfresh _ rfl]
  · rw [Serves, if_neg hvideo, if_neg haudio] at h ⊢
    obtain ⟨ch, hch, htype, sock, hsock, hopen⟩ := h
    have hch' := hadded.channels_subset hch
    exact ⟨ch, hch', htype, sock, hsock,
      hs'.open_of_owned (owned_of_channel hch' (mem_socks_data hsock)) (hopen.port_append _)⟩

theorem Added.controls_of (hadded : Added s type opts a dataPort controlPort s')
    (hkeeps : s'.Keeps rest) (hs : Sound ports rest s) {port : UInt16}
    (h : Controls ports s port) : Controls (ports ++ a.bound type) s' port := by
  obtain ⟨ch, hch, sock, hsock, hopen⟩ := h
  have hch' := hadded.channels_subset hch
  exact ⟨ch, hch', sock, hsock, (hadded.sound hkeeps hs).open_of_owned
    (owned_of_channel hch' (mem_socks_control hsock)) (hopen.port_append _)⟩

end Step

/-! ### A whole request -/

/-- The streams that take the place of another one of their type. -/
def Exclusive (type : Int) : Prop := type = 96 ∨ type = 110

instance (type : Int) : Decidable (Exclusive type) := inferInstanceAs (Decidable (_ ∨ _))

/-- No audio and no mirror stream is named twice. -/
def Distinct (rs : List StreamRequest) : Prop :=
  ((rs.map (·.type)).filter fun type => decide (Exclusive type)).Nodup

instance (rs : List StreamRequest) : Decidable (Distinct rs) :=
  inferInstanceAs (Decidable (List.Nodup _))

theorem distinct_cons {r : StreamRequest} {rs : List StreamRequest} (h : Distinct (r :: rs)) :
    (Exclusive r.type → r.type ∉ rs.map (·.type)) ∧ Distinct rs := by
  rw [Distinct, List.map_cons] at h
  by_cases hr : Exclusive r.type
  · rw [List.filter_cons_of_pos (p := fun type => decide (Exclusive type)) (decide_eq_true hr),
      List.nodup_cons] at h
    refine ⟨fun _ hmem => h.1 ?_, h.2⟩
    exact List.mem_filter.mpr ⟨hmem, decide_eq_true hr⟩
  · rw [List.filter_cons_of_neg (p := fun type => decide (Exclusive type)) (by simpa using hr)] at h
    exact ⟨fun hr' => absurd hr' hr, h⟩

/-- The ports that are announced for a stream are served. -/
def Served (ports : List UInt16) (s : StreamSession) (r : StreamRequest) (p : UInt16 × UInt16) :
    Prop :=
  Serves ports s r.type p.1 ∧ (r.type = 96 → Controls ports s p.2)

/-- What some more streams leave as it was. -/
structure Kept (ports ports' : List UInt16) (s s' : StreamSession) (types : List Int) : Prop where
  timing : s'.ap2TimingSock = s.ap2TimingSock
  serves : ∀ type port, (type ∈ types → ¬ Exclusive type) → Serves ports s type port →
    Serves ports' s' type port
  audio : 96 ∉ types → ∀ port, Serves ports' s' 96 port → Serves ports s 96 port
  controls : ∀ port, Controls ports s port → Controls ports' s' port

section Request
variable {sys : System} {opts : StreamOpts} {rest : List Nat} {s s' : StreamSession}
  {ports : List UInt16} {r : StreamRequest} {rs : List StreamRequest} {i : Nat}

theorem setupStreams_cons {announced : List (UInt16 × UInt16)}
    (h : setupStreams sys opts i (r :: rs) s = (some announced, s')) :
    ∃ dataPort controlPort s₁ later, Added s r.type opts (sys.stream i) dataPort controlPort s₁ ∧
      s₁ = (s.setupStream r.type opts (sys.stream i).listener (sys.stream i).data
        (sys.stream i).control (sys.stream i).aes).2 ∧
      setupStreams sys opts (i + 1) rs s₁ = (some later, s') ∧
      announced = (dataPort, controlPort) :: later := by
  rw [setupStreams] at h
  dsimp only at h
  split at h
  · exact nomatch h
  · rename_i p s₁ hstream
    generalize htail : setupStreams sys opts (i + 1) rs s₁ = tail at h
    obtain ⟨later, s₂⟩ := tail
    obtain ⟨hsome, rfl⟩ := Prod.mk.inj h
    obtain ⟨later, rfl, rfl⟩ := Option.map_eq_some_iff.mp hsome
    exact ⟨p.1, p.2, s₁, later, setupStream_added hstream, by rw [hstream], htail, rfl⟩

theorem Added.timing {type : Int} {a : Answers} {dataPort controlPort : UInt16}
    (h : Added s type opts a dataPort controlPort s') : s'.ap2TimingSock = s.ap2TimingSock := by
  cases h with
  | mirror _ _ _ _ _ htiming => exact htiming
  | audio _ _ _ _ _ _ _ htiming => exact htiming
  | udp _ _ _ _ _ _ _ _ htiming => exact htiming

theorem setupStreams_sound {announced : List (UInt16 × UInt16)} (hs : Sound ports rest s)
    (h : setupStreams sys opts i rs s = (some announced, s')) :
    Sound (ports ++ sys.bound i rs) rest s' ∧
      Kept ports (ports ++ sys.bound i rs) s s' (rs.map (·.type)) := by
  induction rs generalizing s ports i announced with
  | nil =>
    obtain ⟨-, rfl⟩ := Prod.mk.inj h
    rw [System.bound, List.append_nil]
    exact ⟨hs, rfl, fun _ _ _ h => h, fun _ _ h => h, fun _ h => h⟩
  | cons r rs ih =>
    obtain ⟨dataPort, controlPort, s₁, later, hadded, hstate, htail, -⟩ := setupStreams_cons h
    have hkeeps : s₁.Keeps rest := hstate ▸ setupStream_keeps hs.keeps
    obtain ⟨hsound, hkept⟩ := ih (hadded.sound hkeeps hs) htail
    rw [System.bound, ← List.append_assoc]
    refine ⟨hsound, hkept.timing.trans hadded.timing, fun type port htype hserves => ?_, ?_, ?_⟩
    · rw [List.map_cons] at htype
      refine hkept.serves type port (fun hmem => htype (List.mem_cons_of_mem _ hmem)) ?_
      refine hadded.serves_of hkeeps hs (fun heq => ?_) hserves
      exact not_or.mp (htype (heq ▸ List.mem_cons_self))
    · intro hnone port hserves
      rw [List.map_cons, List.mem_cons, not_or] at hnone
      exact (hadded.audio_iff hkeeps hs (Ne.symm hnone.1) port).mp
        (hkept.audio hnone.2 port hserves)
    · exact fun port hcontrols => hkept.controls port (hadded.controls_of hkeeps hs hcontrols)

/-- Every port that has been allocated is served at the end exactly if the receivers of the
audio streams have started. -/
theorem setupStreams_served {announced : List (UInt16 × UInt16)} (hs : Sound ports rest s)
    (hdistinct : Distinct rs) (h : setupStreams sys opts i rs s = (some announced, s')) :
    List.Forall₂ (Served (ports ++ sys.bound i rs) s') rs announced ↔
      ∀ k r, rs[k]? = some r → r.type = 96 → Starts opts (sys.stream (i + k)) := by
  induction rs generalizing s ports i announced with
  | nil =>
    obtain ⟨hnil, rfl⟩ := Prod.mk.inj h
    obtain rfl := Option.some.inj hnil
    exact iff_of_true .nil fun k r hr => nomatch hr
  | cons r rs ih =>
    obtain ⟨dataPort, controlPort, s₁, later, hadded, hstate, htail, rfl⟩ := setupStreams_cons h
    have hkeeps : s₁.Keeps rest := hstate ▸ setupStream_keeps hs.keeps
    have hs₁ := hadded.sound hkeeps hs
    obtain ⟨hfresh, hdistinct⟩ := distinct_cons hdistinct
    obtain ⟨-, hkept⟩ := setupStreams_sound hs₁ htail
    have hhead : Served (ports ++ sys.bound i (r :: rs)) s' r (dataPort, controlPort) ↔
        (r.type = 96 → Starts opts (sys.stream i)) := by
      rw [System.bound, ← List.append_assoc, ← hadded.serves_iff hkeeps hs]
      constructor
      · rintro ⟨hserves, -⟩
        by_cases haudio : r.type = 96
        · rw [haudio] at hserves hkept ⊢
          exact hkept.audio (haudio ▸ hfresh (.inl haudio)) _ hserves
        · exact (hadded.serves_iff hkeeps hs).mpr fun haudio' => absurd haudio' haudio
      · intro hserves
        refine ⟨hkept.serves _ _ (fun hmem hexclusive => hfresh hexclusive hmem) hserves, ?_⟩
        exact fun haudio => hkept.controls _ (hadded.controls hkeeps hs haudio)
    have hlater := ih hs₁ hdistinct htail
    rw [List.append_assoc] at hlater
    rw [List.forall₂_cons, hhead, System.bound, hlater]
    constructor
    · rintro ⟨hfirst, hrest⟩ k r' hr'
      cases k with
      | zero =>
        obtain rfl := Option.some.inj hr'
        exact hfirst
      | succ k =>
        have hnext := hrest k r' hr'
        rwa [Nat.add_assoc, Nat.add_comm 1 k] at hnext
    · intro hall
      refine ⟨hall 0 r rfl, fun k r' hr' => ?_⟩
      have hnext := hall (k + 1) r' hr'
      rwa [Nat.add_comm k 1, ← Nat.add_assoc] at hnext

end Request

/-! ### The reply -/

/-- The entries of a reply. -/
def entries (root : List (Bytes × Plist)) : List Plist :=
  match root.lookup (bytes "streams") with
  | some (.array items) => items
  | _ => []

/-- What the client reads about a stream: its type, and ports that are served. -/
def Announces (ports : List UInt16) (s : StreamSession) (r : StreamRequest) (e : Plist) : Prop :=
  e.getUint (bytes "type") = castUint r.type ∧
    (∃ port : UInt16, e.getUint (bytes "dataPort") = port.toUInt64 ∧ Serves ports s r.type port) ∧
    (r.type = 96 → ∃ port : UInt16,
      e.getUint (bytes "controlPort") = port.toUInt64 ∧ Controls ports s port)

/-- The client reads a timing port that is open. -/
def Timed (ports : List UInt16) (s : StreamSession) (root : List (Bytes × Plist)) : Prop :=
  ∃ (port : UInt16) (sock : Nat), root.lookup (bytes "timingPort") = some (.uint port.toUInt64) ∧
    s.ap2TimingSock = some sock ∧ Open ports s sock port

/-- The ports that are bound in the course of a request. -/
def System.opened (sys : System) (parsed : Airplay2SetupRequest) : List UInt16 :=
  (if parsed.hasKeys then sys.event.toList ++ sys.timing.toList else []) ++
    sys.bound 0 parsed.streams

section Reply
variable {sys : System} {parsed : Airplay2SetupRequest} {ports : List UInt16} {rest : List Nat}
  {s s' : StreamSession} {c c' : ClientSession}

theorem toUInt64_injective {a b : UInt16} (h : a.toUInt64 = b.toUInt64) : a = b := by
  have hnat := congrArg UInt64.toNat h
  rw [UInt16.toNat_toUInt64, UInt16.toNat_toUInt64] at hnat
  exact UInt16.toNat_inj.mp hnat

theorem announces_entry (r : StreamRequest) (p : UInt16 × UInt16) :
    Announces ports s r (entry r p) ↔ Served ports s r p := by
  have hdata : (entry r p).getUint (bytes "dataPort") = p.1.toUInt64 := by
    rw [entry]
    split <;> rfl
  have htype : (entry r p).getUint (bytes "type") = castUint r.type := by
    rw [entry]
    split <;> rfl
  have hcontrol : r.type = 96 → (entry r p).getUint (bytes "controlPort") = p.2.toUInt64 := by
    intro haudio
    rw [entry, if_pos haudio]
    rfl
  constructor
  · rintro ⟨-, ⟨port, hport, hserves⟩, hcontrols⟩
    obtain rfl := toUInt64_injective (hdata.symm.trans hport)
    refine ⟨hserves, fun haudio => ?_⟩
    obtain ⟨port, hport, hopen⟩ := hcontrols haudio
    obtain rfl := toUInt64_injective ((hcontrol haudio).symm.trans hport)
    exact hopen
  · rintro ⟨hserves, hcontrols⟩
    exact ⟨htype, ⟨p.1, hdata, hserves⟩, fun haudio => ⟨p.2, hcontrol haudio, hcontrols haudio⟩⟩

theorem setupStreams_length {opts : StreamOpts} {rs : List StreamRequest} {i : Nat}
    {announced : List (UInt16 × UInt16)}
    (h : setupStreams sys opts i rs s = (some announced, s')) : announced.length = rs.length := by
  induction rs generalizing s i announced with
  | nil =>
    obtain ⟨hnil, -⟩ := Prod.mk.inj h
    rw [← Option.some.inj hnil]
    rfl
  | cons r rs ih =>
    obtain ⟨dataPort, controlPort, s₁, later, -, -, htail, rfl⟩ := setupStreams_cons h
    rw [List.length_cons, List.length_cons, ih htail]

theorem forall₂_zipWith {rs : List StreamRequest} {announced : List (UInt16 × UInt16)}
    (h : announced.length = rs.length) :
    List.Forall₂ (Announces ports s) rs (List.zipWith entry rs announced) ↔
      List.Forall₂ (Served ports s) rs announced := by
  induction rs generalizing announced with
  | nil =>
    rw [List.length_eq_zero_iff.mp h]
    exact iff_of_true .nil .nil
  | cons r rs ih =>
    cases announced with
    | nil => exact nomatch h
    | cons p announced =>
      rw [List.zipWith_cons_cons, List.forall₂_cons, List.forall₂_cons, announces_entry,
        ih (Nat.succ.inj h)]

theorem startNtp_frame (started : Bool) (go : Prop) [Decidable go] (s : StreamSession) :
    (∀ rest, s.Keeps rest → (if go then (s.startNtp started).2 else s).Keeps rest) ∧
      (if go then (s.startNtp started).2 else s).sockets = s.sockets ∧
      (if go then (s.startNtp started).2 else s).ap2TimingSock = s.ap2TimingSock := by
  split
  · rw [StreamSession.startNtp]
    split
    · exact ⟨fun _ => id, rfl, rfl⟩
    · exact ⟨fun _ => id, rfl, rfl⟩
  · exact ⟨fun _ => id, rfl, rfl⟩

/-- What the branch for the keys leaves, if it goes on. -/
theorem setupKeys_sound {fields : List (Bytes × Plist)} (hs : Sound ports rest s)
    (h : setupKeys sys parsed s c = (.ok fields, s', c')) :
    ∃ rest', Sound (ports ++ if parsed.hasKeys then sys.event.toList ++ sys.timing.toList else [])
        rest' s' ∧
      fields.lookup (bytes "streams") = none ∧
      (parsed.hasKeys = true → ∃ port sock,
        fields.lookup (bytes "timingPort") = some (.uint (UInt16.toUInt64 port)) ∧
        s'.ap2TimingSock = some sock ∧
        (ports ++ (sys.event.toList ++ sys.timing.toList))[sock]? = some port) := by
  rw [setupKeys] at h
  split at h
  · rename_i hkeys
    obtain ⟨hfields, rfl, -⟩ : Except.ok [] = Except.ok fields ∧ s = s' ∧ c = c' := by
      simpa only [Prod.mk.injEq] using h
    cases hfields
    rw [Bool.not_eq_true'] at hkeys
    rw [hkeys, if_neg Bool.false_ne_true, List.append_nil]
    exact ⟨rest, hs, rfl, fun hkeys' => nomatch hkeys'⟩
  · rename_i hkeys
    rw [Bool.not_eq_true', Bool.not_eq_false] at hkeys
    split at h
    · exact nomatch h
    · dsimp only at h
      cases hevent : sys.event with
      | none =>
        rw [hevent] at h
        exact nomatch h
      | some eventPort =>
        cases htiming : sys.timing with
        | none =>
          rw [hevent, htiming] at h
          exact nomatch h
        | some timingPort =>
          have hkeeps :=
            StreamSession.setupSession_keeps (some eventPort) (some timingPort) hs.keeps
          rw [hevent, htiming, StreamSession.setupSession] at h
          simp only [StreamSession.bindUdp_some, Prod.mk.injEq] at h
          obtain ⟨hfields, rfl, -⟩ := h
          cases hfields
          have hntp := startNtp_frame sys.ntpStarted (parsed.timingRport ≠ 0 ∧
            (storeKey sys parsed c).remoteIp ≠ [])
            (s.setupSession (some eventPort) (some timingPort)).2
          refine ⟨_, ⟨hntp.1 _ hkeeps, ?_⟩, rfl,
            fun _ => ⟨timingPort, s.sockets.issued + 1, rfl, ?_, ?_⟩⟩
          · rw [hkeys, if_pos rfl, List.length_append, hs.length]
            exact (congrArg Ledger.issued hntp.2.1).symm
          · exact hntp.2.2
          · rw [← hs.length, List.getElem?_append_right (Nat.le_succ _),
              Nat.succ_sub (Nat.le_refl _), Nat.sub_self]
            rfl

theorem parse_streams {fromBin : Bytes → Option Plist} {body : Bytes}
    (h : parseAirplay2Setup fromBin body = some parsed) (hnone : parsed.hasStreams = false) :
    parsed.streams = [] := by
  rw [parseAirplay2Setup] at h
  split at h
  · exact nomatch h
  split at h
  · dsimp only at h
    split at h
    · split at h
      · rw [← Option.some.inj h] at hnone
        exact nomatch hnone
      · exact nomatch h
    · split at h
      · rw [← Option.some.inj h, parseKeys]
        split <;> rfl
      · exact nomatch h
  · exact nomatch h

end Reply

/-- A request with the keys, and for audio and a mirror. -/
def bothStreams : Plist :=
  .dict [(bytes "ekey", .data (List.replicate 72 1)), (bytes "eiv", .data (List.replicate 16 2)),
    (bytes "timingPort", .uint 7011),
    (bytes "streams", .array [.dict [(bytes "type", .uint 96)], .dict [(bytes "type", .uint 110)]])]

def willing : System where
  fromBin := fun _ => some bothStreams
  blobs := ⟨fun _ => [], [], some fun _ _ => List.replicate 16 3⟩
  sha512 := fun _ => List.replicate 64 4
  digested := true
  occupied := false
  event := some 6010
  timing := some 6011
  ntpStarted := true
  stream := fun i => if i = 0 then ⟨none, some 6000, some 6001, true⟩
    else ⟨some 7100, none, none, false⟩

def shaken : ClientSession where
  remoteIp := bytes "192.168.1.20"
  fairplay := some {state := .done, keymsg := List.replicate 164 0}

/-- What the request is answered with, and what is left of the connection. -/
def bothAnswered : Outcome × ClientSession :=
  setupAirplay2Path willing (bytes "bplist00") shaken

def bothParsed : Airplay2SetupRequest :=
  (parseAirplay2Setup willing.fromBin (bytes "bplist00")).getD {}

end AirPlay.Streams
