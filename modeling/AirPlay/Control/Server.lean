import AirPlay.Library.Machine
import AirPlay.Rtsp.Message

/-! The control connections, and what they share.

Every TCP connection has a thread that reads requests and runs their handlers one
after another. The threads share the registry of reverse channels and the
renderer's active-device slot, each behind a lock, so a history is a list of
steps of single connections: a handler's work up to its next use of a lock is one
step, and steps of different connections come in any order. A connection is known
by its descriptor, which the system gives to no other connection while it is
open. -/
namespace AirPlay.Control
open Rtsp

/-! ### Reverse channels -/

/-- The reverse channels: the descriptor that a session's /reverse came on. -/
structure ReverseChannelRegistry where
  fds : Bytes → Option Int := fun _ => none

namespace ReverseChannelRegistry

def registerSocket (sessionId : Bytes) (fd : Int) (r : ReverseChannelRegistry) :
    ReverseChannelRegistry :=
  if sessionId = [] ∨ fd < 0 then r else ⟨Function.update r.fds sessionId (some fd)⟩

def unregisterSocket (sessionId : Bytes) (r : ReverseChannelRegistry) : ReverseChannelRegistry :=
  if sessionId = [] then r else ⟨Function.update r.fds sessionId none⟩

def socketFor (sessionId : Bytes) (r : ReverseChannelRegistry) : Int :=
  if sessionId = [] then -1 else (r.fds sessionId).getD (-1)

end ReverseChannelRegistry

/-! ### Streams and the active device -/

/-- The streams of one connection. `channels` are the types of the live ones;
`streamed` is not in the code, it says that `setup_stream` has succeeded. -/
structure StreamSession where
  sessionId : Bytes
  channels : List Int := []
  streamed : Bool := false

def StreamSession.setupStream (type : Int) (s : StreamSession) : StreamSession :=
  {s with channels := s.channels ++ [type], streamed := true}

def StreamSession.stopStream (s : StreamSession) (type : Int) : StreamSession :=
  {s with channels := s.channels.filter (· ≠ type)}

/-- What the active-device slot shows. -/
structure DeviceInfo where
  peerIp : Bytes := []
  sessionId : Bytes := []
  kind : Bytes := []
  name : Bytes := []
  model : Bytes := []
  deriving DecidableEq

/-- Clears only this session's slot, leaving a newer connection's intact. -/
def clearSessionIfActive (sessionId : Bytes) (slot : Option DeviceInfo) : Option DeviceInfo :=
  slot.filter (·.sessionId ≠ sessionId)

/-- What `parse_airplay2_setup` reads from the body. -/
structure Airplay2SetupRequest where
  hasKeys : Bool := false
  model : Bytes := []
  name : Bytes := []
  isRemoteControlOnly : Bool := false
  hasStreams : Bool := false
  /-- The types of the requested streams: 96 audio, 110 mirror video. -/
  streams : List Int := []

/-- The streams a request names. -/
def Airplay2SetupRequest.requested (parsed : Airplay2SetupRequest) : List Int :=
  if parsed.hasStreams then parsed.streams else []

/-- What `parse_play_body` reads from the body. -/
structure PlayRequest where
  url : Bytes
  clientProc : Bytes := []

/-! ### A connection -/

/-- Where a connection's thread stands between two steps; `r` is the response its
handler is building. -/
inductive Handler where
  /-- Waiting for a request. -/
  | reading
  /-- SETUP before `setup_session`. -/
  | settingSession (r : Response) (parsed : Airplay2SetupRequest)
  /-- SETUP before the next `setup_stream`, or before its look at the slot. -/
  | settingStreams (r : Response) (parsed : Airplay2SetupRequest) (left : List Int)
  /-- /play before its look at the slot. -/
  | playing (r : Response) (sessionId : Bytes)
  /-- SETUP or /play before `set_active_device`. -/
  | publishing (r : Response) (dev : DeviceInfo)
  /-- Full TEARDOWN between `streams.reset()` and `clear_active_device`. -/
  | clearing (r : Response)
  /-- The read loop has ended and the streams are gone; `session` was their id. -/
  | ended (session : Bytes)

/-- A connection, with its streams and where its thread stands. -/
structure ClientSession where
  remoteIp : Bytes
  fd : Int
  reverseSessionId : Bytes := []
  streams : Option StreamSession := none
  handler : Handler := .reading

def handleReverse (session : ClientSession) (req : Request) (registry : ReverseChannelRegistry) :
    Response × ClientSession × ReverseChannelRegistry :=
  let r := copyCseq req
    {make 101 (bytes "Switching Protocols") with version := bytes "HTTP/1.1"}
  let r := (r.setHeader (bytes "Upgrade") (bytes "PTTH/1.0")).setHeader (bytes "Connection")
    (bytes "Upgrade")
  let sid := req.header (bytes "x-apple-session-id")
  let r := if sid ≠ [] then r.setHeader (bytes "X-Apple-Session-ID") sid else r
  if sid ≠ [] ∧ session.fd ≥ 0 then
    (r, {session with reverseSessionId := sid}, registry.registerSocket sid session.fd)
  else (r, session, registry)

theorem handleReverse_frame (session : ClientSession) (req : Request)
    (registry : ReverseChannelRegistry) :
    (handleReverse session req registry).2.1.handler = session.handler ∧
      (handleReverse session req registry).2.1.remoteIp = session.remoteIp ∧
      (handleReverse session req registry).2.1.streams = session.streams := by
  rw [handleReverse]
  split <;> exact ⟨rfl, rfl, rfl⟩

/-- The single-device guard: a first SETUP while the slot shows another peer. -/
def refused (session : ClientSession) (slot : Option DeviceInfo) : Bool :=
  session.streams.isNone &&
    slot.any fun existing => existing.peerIp ≠ [] ∧ existing.peerIp ≠ session.remoteIp

/-- `setup_airplay2_path` up to `setup_session` or the first `setup_stream`; `id` is
the random id of a new `StreamSession`. Without a response the handler goes on. -/
def setupAirplay2Path (slot : Option DeviceInfo) (session : ClientSession) (req : Request)
    (parsed : Option Airplay2SetupRequest) (id : Bytes) : ClientSession × Option Response :=
  let r := (copyCseq req (make 200 (bytes "OK"))).setHeader (bytes "Content-Type")
    (bytes "application/x-apple-binary-plist")
  match parsed with
  | none => (session, some {r with statusCode := 400, statusText := bytes "Bad Request"})
  | some parsed =>
    if refused session slot then
      (session, some <| Response.setHeader
        {r with statusCode := 503, statusText := bytes "Service Unavailable"}
        (bytes "Connection") (bytes "close"))
    else
      let session := {session with streams := some (session.streams.getD {sessionId := id})}
      if parsed.hasKeys then
        if parsed.isRemoteControlOnly then
          (session, some {r with statusCode := 500, statusText := bytes "Internal Server Error"})
        else ({session with handler := .settingSession r parsed}, none)
      else ({session with handler := .settingStreams r parsed parsed.requested}, none)

/-- What SETUP publishes: the slot's name, model and kind survive where the request
has none. -/
def setupDevice (slot : Option DeviceInfo) (session : ClientSession)
    (parsed : Airplay2SetupRequest) : DeviceInfo :=
  let dev := slot.getD {}
  { peerIp := session.remoteIp
    sessionId := (session.streams.map StreamSession.sessionId).getD []
    kind := if 110 ∈ parsed.streams ∧ dev.kind ≠ bytes "HLS" then bytes "Mirror"
      else if 96 ∈ parsed.streams ∧ dev.kind ≠ bytes "HLS" ∧ dev.kind ≠ bytes "Mirror"
        then bytes "Audio"
      else dev.kind
    name := if parsed.name ≠ [] then parsed.name else dev.name
    model := if parsed.model ≠ [] then parsed.model else dev.model }

/-- `handle_play` up to its look at the slot: only YouTube, only with a reverse channel. -/
def handlePlay (registry : ReverseChannelRegistry) (session : ClientSession) (req : Request)
    (pr : Option PlayRequest) : ClientSession × Option Response :=
  let r := copyCseq req (make 200 (bytes "OK"))
  let sessionId := req.header (bytes "x-apple-session-id")
  match pr with
  | none => (session, some r)
  | some pr =>
    if pr.clientProc ≠ bytes "YouTube" then (session, some r)
    else if registry.socketFor sessionId < 0 then (session, some r)
    else ({session with handler := .playing r sessionId}, none)

/-- What /play publishes. -/
def playDevice (slot : Option DeviceInfo) (session : ClientSession) (sessionId : Bytes) :
    DeviceInfo :=
  {slot.getD {} with peerIp := session.remoteIp, sessionId, kind := bytes "HLS"}

/-- `handle_teardown`; `parsed` is what the body holds, if it is a plist. -/
def handleTeardown (session : ClientSession) (req : Request)
    (parsed : Option Airplay2SetupRequest) : ClientSession × Option Response :=
  let r := (copyCseq req (make 200 (bytes "OK"))).setHeader (bytes "Connection") (bytes "close")
  let streamTypes := (parsed.map Airplay2SetupRequest.requested).getD []
  match session.streams with
  | none => (session, some r)
  | some streams =>
    if streamTypes ≠ [] then
      ({session with streams := some (streamTypes.foldl StreamSession.stopStream streams)}, some r)
    else ({session with streams := none, handler := .clearing r}, none)

/-- The next step of a handler on its way; `bound` says whether the sockets of
`setup_session` or `setup_stream` could be bound. -/
def resume (slot : Option DeviceInfo) (session : ClientSession) (bound : Bool) :
    ClientSession × Option DeviceInfo × Option Response :=
  let failed (r : Response) : Response :=
    {r with statusCode := 500, statusText := bytes "Internal Server Error"}
  match session.handler with
  | .settingSession r parsed =>
    if bound then ({session with handler := .settingStreams r parsed parsed.requested}, slot, none)
    else ({session with handler := .reading}, slot, some (failed r))
  | .settingStreams r parsed (type :: left) =>
    if bound then
      ({session with
          streams := session.streams.map (StreamSession.setupStream type)
          handler := .settingStreams r parsed left}, slot, none)
    else ({session with handler := .reading}, slot, some (failed r))
  | .settingStreams r parsed [] =>
    let dev := setupDevice slot session parsed
    ({session with handler := .publishing (r.setHeader (bytes "Session") dev.sessionId) dev},
      slot, none)
  | .playing r sessionId =>
    ({session with handler := .publishing r (playDevice slot session sessionId)}, slot, none)
  | .publishing r dev => ({session with handler := .reading}, some dev, some r)
  | .clearing r => ({session with handler := .reading}, none, some r)
  | .reading | .ended _ => (session, slot, none)

/-! ### The server -/

/-- The connections by descriptor, and what they share: the reverse channels and the slot. -/
structure Server where
  sessions : Int → Option ClientSession := fun _ => none
  reverse : ReverseChannelRegistry := {}
  device : Option DeviceInfo := none

/-- A connection comes, makes a request, goes on with it or goes. -/
inductive Event where
  /-- A connection is accepted; the system gives no descriptor that is in use. -/
  | accepted (fd : Int) (remoteIp : Bytes)
  | reverse (fd : Int) (req : Request)
  | setup (fd : Int) (req : Request) (parsed : Option Airplay2SetupRequest) (id : Bytes)
  | play (fd : Int) (req : Request) (pr : Option PlayRequest)
  | teardown (fd : Int) (req : Request) (parsed : Option Airplay2SetupRequest)
  /-- The handler that is running on the connection goes on. -/
  | resume (fd : Int) (bound : Bool)
  /-- The read loop ends: the reverse channel is unregistered, the streams go. -/
  | hangUp (fd : Int)
  /-- The rest of `handle_client`, and the descriptor is closed. -/
  | close (fd : Int)

namespace Server

def put (fd : Int) (c : ClientSession) (s : Server) : Server :=
  {s with sessions := Function.update s.sessions fd (some c)}

/-- The connection whose thread waits for a request. -/
def reading (s : Server) (fd : Int) : Option ClientSession :=
  (s.sessions fd).filter fun c => match c.handler with
    | .reading => true
    | _ => false

def hangUp (fd : Int) (c : ClientSession) (s : Server) : Server :=
  {s.put fd {c with
      streams := none
      handler := .ended ((c.streams.map StreamSession.sessionId).getD [])} with
    reverse := s.reverse.unregisterSocket c.reverseSessionId}

def close (fd : Int) (session : Bytes) (s : Server) : Server :=
  { s with
    sessions := Function.update s.sessions fd none
    device := if session ≠ [] then clearSessionIfActive session s.device else s.device }

/-- The id the streams had of a connection that is about to close. -/
def endedSession (s : Server) (fd : Int) : Option Bytes :=
  (s.sessions fd).bind fun c => match c.handler with
    | .ended session => some session
    | _ => none

def step (s : Server) : Event → Server
  | .accepted fd remoteIp => if (s.sessions fd).isSome then s else s.put fd {remoteIp, fd}
  | .reverse fd req => match s.reading fd with
    | none => s
    | some c =>
      let (_, c', registry) := handleReverse c req s.reverse
      {s.put fd c' with reverse := registry}
  | .setup fd req parsed id => match s.reading fd with
    | none => s
    | some c => s.put fd (setupAirplay2Path s.device c req parsed id).1
  | .play fd req pr => match s.reading fd with
    | none => s
    | some c => s.put fd (handlePlay s.reverse c req pr).1
  | .teardown fd req parsed => match s.reading fd with
    | none => s
    | some c => s.put fd (handleTeardown c req parsed).1
  | .resume fd bound => match s.sessions fd with
    | none => s
    | some c =>
      let (c', slot, _) := Control.resume s.device c bound
      {s.put fd c' with device := slot}
  | .hangUp fd => match s.reading fd with
    | none => s
    | some c => s.hangUp fd c
  | .close fd => match s.endedSession fd with
    | none => s
    | some session => s.close fd session

def machine : Machine Server Event := ⟨step⟩

/-! ### What a handler's step can do -/

theorem reading_eq_some {s : Server} {fd : Int} {c : ClientSession} :
    s.reading fd = some c ↔ s.sessions fd = some c ∧ c.handler = .reading := by
  rw [reading, Option.filter_eq_some_iff]
  refine and_congr_right fun _ => ?_
  cases c.handler <;> simp

theorem endedSession_eq_some {s : Server} {fd : Int} {session : Bytes} :
    s.endedSession fd = some session ↔
      ∃ c, s.sessions fd = some c ∧ c.handler = .ended session := by
  rw [endedSession, Option.bind_eq_some_iff]
  refine exists_congr fun c => and_congr_right fun _ => ?_
  cases c.handler <;> simp

end Server

/-- The thread has left the read loop. -/
def ClientSession.Ended (c : ClientSession) : Prop := ∃ session, c.handler = .ended session

/-- What the handlers of SETUP, /play and TEARDOWN can make of a server in a step. -/
inductive Works (s : Server) (e : Event) : Server → Prop where
  | stays : Works s e s
  /-- A first SETUP passes the guard. -/
  | admits {fd c req parsed id} (he : e = .setup fd req (some parsed) id) (h : Handler)
      (hc : s.sessions fd = some c) (hread : c.handler = .reading) (hnone : c.streams = none)
      (hpass : refused c s.device = false) (hh : ∀ session, h ≠ .ended session)
      (hpub : ∀ r dev, h ≠ .publishing r dev) :
      Works s e (s.put fd {c with streams := some {sessionId := id}, handler := h})
  /-- A handler goes on, on the connection's own streams if it has any. -/
  | advances {fd c} (streams : Option StreamSession) (h : Handler) (hc : s.sessions fd = some c)
      (hlive : ¬ c.Ended) (hsame : streams.map StreamSession.sessionId =
        c.streams.map StreamSession.sessionId) (hh : ∀ session, h ≠ .ended session)
      (hpub : ∀ r dev, h = .publishing r dev → dev.peerIp = c.remoteIp) :
      Works s e (s.put fd {c with streams, handler := h})
  /-- A full TEARDOWN drops the streams. -/
  | resets {fd c} (r : Response) (hc : s.sessions fd = some c) (hread : c.handler = .reading) :
      Works s e (s.put fd {c with streams := none, handler := .clearing r})
  | publishes {fd c} (r : Response) (dev : DeviceInfo) (hc : s.sessions fd = some c)
      (hh : c.handler = .publishing r dev) :
      Works s e {s.put fd {c with handler := .reading} with device := some dev}
  | clears {fd c} (r : Response) (hc : s.sessions fd = some c) (hh : c.handler = .clearing r) :
      Works s e {s.put fd {c with handler := .reading} with device := none}

namespace Server
variable {s : Server} {e : Event} {fd : Int} {c : ClientSession}

theorem reading_live (h : c.handler = .reading) : ¬ c.Ended := by
  rintro ⟨session, hended⟩
  rw [h] at hended
  exact Handler.noConfusion hended

/-- A handler that answers at once leaves its connection as it was. -/
theorem put_same (hc : s.sessions fd = some c) : s.put fd c = s := by
  rw [put, ← hc, Function.update_eq_self]

theorem answers_works (hc : s.sessions fd = some c) : Works s e (s.put fd c) := by
  rw [put_same hc]
  exact .stays

theorem setup_works (req : Request) (parsed : Option Airplay2SetupRequest) (id : Bytes)
    (hc : s.sessions fd = some c) (hread : c.handler = .reading) :
    Works s (.setup fd req parsed id)
      (s.put fd (setupAirplay2Path s.device c req parsed id).1) := by
  cases parsed with
  | none => exact answers_works hc
  | some parsed =>
    rw [setupAirplay2Path]
    by_cases hrefused : refused c s.device = true
    · simp only [hrefused, if_true]
      exact answers_works hc
    · have hgo : ∀ h : Handler, (∀ session, h ≠ .ended session) → (∀ r dev, h ≠ .publishing r dev) →
          Works s (.setup fd req (some parsed) id) (s.put fd
            {c with streams := some (c.streams.getD {sessionId := id}), handler := h}) := by
        intro h hh hpub
        cases hs : c.streams with
        | none => exact .admits rfl h hc hread hs (Bool.not_eq_true _ ▸ hrefused) hh hpub
        | some streams =>
          exact .advances (some streams) h hc (reading_live hread) (by rw [hs]) hh
            fun r dev he => absurd he (hpub r dev)
      simp only [hrefused, if_false, Bool.false_eq_true]
      split
      · split
        · have := hgo .reading (fun _ => Handler.noConfusion) fun _ _ => Handler.noConfusion
          rwa [← hread] at this
        · exact hgo _ (fun _ => Handler.noConfusion) fun _ _ => Handler.noConfusion
      · exact hgo _ (fun _ => Handler.noConfusion) fun _ _ => Handler.noConfusion

theorem play_works (req : Request) (pr : Option PlayRequest) (hc : s.sessions fd = some c)
    (hread : c.handler = .reading) :
    Works s e (s.put fd (handlePlay s.reverse c req pr).1) := by
  cases pr with
  | none => exact answers_works hc
  | some pr =>
    rw [handlePlay]
    split
    · exact answers_works hc
    split
    · exact answers_works hc
    · exact .advances c.streams _ hc (reading_live hread) rfl (fun _ => Handler.noConfusion)
        fun _ _ => Handler.noConfusion

theorem stopStream_sessionId (types : List Int) (streams : StreamSession) :
    (types.foldl StreamSession.stopStream streams).sessionId = streams.sessionId := by
  induction types generalizing streams with
  | nil => rfl
  | cons type rest ih => exact ih _

theorem teardown_works (req : Request) (parsed : Option Airplay2SetupRequest)
    (hc : s.sessions fd = some c) (hread : c.handler = .reading) :
    Works s e (s.put fd (handleTeardown c req parsed).1) := by
  rw [handleTeardown]
  cases hs : c.streams with
  | none => exact answers_works hc
  | some streams =>
    dsimp only
    split
    · refine .advances _ c.handler hc (reading_live hread) ?_ ?_ ?_
      · rw [hs]
        exact congrArg some (stopStream_sessionId _ streams)
      · rw [hread]
        exact fun _ => Handler.noConfusion
      · rw [hread]
        exact fun _ _ => Handler.noConfusion
    · exact .resets _ hc hread

theorem resume_works (bound : Bool) (hc : s.sessions fd = some c) :
    Works s e {s.put fd (resume s.device c bound).1 with
      device := (resume s.device c bound).2.1} := by
  have hgo : ∀ (streams : Option StreamSession) (h : Handler), ¬ c.Ended →
      streams.map StreamSession.sessionId = c.streams.map StreamSession.sessionId →
      (∀ session, h ≠ .ended session) →
      (∀ r dev, h = .publishing r dev → dev.peerIp = c.remoteIp) →
      Works s e {s.put fd {c with streams, handler := h} with device := s.device} :=
    fun streams h hlive hsame hh hpub => .advances streams h hc hlive hsame hh hpub
  have hlive : ∀ h : Handler, c.handler = h → (∀ session, h ≠ .ended session) → ¬ c.Ended := by
    rintro h rfl hne ⟨session, he⟩
    exact hne session he
  rw [resume]
  cases hh : c.handler with
  | reading | ended session => exact answers_works hc
  | settingSession r parsed =>
    have hl := hlive _ hh fun _ => Handler.noConfusion
    cases bound
    · exact hgo c.streams .reading hl rfl (fun _ => Handler.noConfusion)
        fun _ _ => Handler.noConfusion
    · exact hgo c.streams _ hl rfl (fun _ => Handler.noConfusion) fun _ _ => Handler.noConfusion
  | settingStreams r parsed left =>
    have hl := hlive _ hh fun _ => Handler.noConfusion
    cases left with
    | nil =>
      refine hgo c.streams _ hl rfl (fun _ => Handler.noConfusion) fun r dev he => ?_
      rw [← (Handler.publishing.inj he).2]
      rfl
    | cons type left =>
      cases bound
      · exact hgo c.streams .reading hl rfl (fun _ => Handler.noConfusion)
          fun _ _ => Handler.noConfusion
      · refine hgo _ _ hl ?_ (fun _ => Handler.noConfusion) fun _ _ => Handler.noConfusion
        rw [Option.map_map]
        rfl
  | playing r sessionId =>
    refine hgo c.streams _ (hlive _ hh fun _ => Handler.noConfusion) rfl
      (fun _ => Handler.noConfusion) fun r dev he => ?_
    rw [← (Handler.publishing.inj he).2]
    rfl
  | publishing r dev => exact .publishes r dev hc hh
  | clearing r => exact .clears r hc hh

end Server

/-- What a handler's step leaves alone: the registry, every other connection, and
whose its own connection is. -/
theorem Works.frame {s s' : Server} {e : Event} (h : Works s e s') :
    s' = s ∨ ∃ fd c c' slot, s.sessions fd = some c ∧ s' = {s.put fd c' with device := slot} ∧
      ¬ c.Ended ∧ ¬ c'.Ended ∧ c'.remoteIp = c.remoteIp ∧ c'.fd = c.fd ∧
      c'.reverseSessionId = c.reverseSessionId := by
  have hlive : ∀ {c : ClientSession} {h : Handler}, c.handler = h →
      (∀ session, h ≠ .ended session) → ¬ c.Ended := by
    rintro c h rfl hne ⟨session, he⟩
    exact hne session he
  cases h with
  | stays => exact .inl rfl
  | @admits fd c req parsed id he h hc hread hnone hpass hh hpub =>
    exact .inr ⟨fd, c, _, s.device, hc, rfl, Server.reading_live hread, hlive rfl hh, rfl, rfl, rfl⟩
  | @advances fd c streams h hc hl hsame hh hpub =>
    exact .inr ⟨fd, c, _, s.device, hc, rfl, hl, hlive rfl hh, rfl, rfl, rfl⟩
  | @resets fd c r hc hread =>
    exact .inr ⟨fd, c, _, s.device, hc, rfl, Server.reading_live hread,
      hlive rfl fun _ => Handler.noConfusion, rfl, rfl, rfl⟩
  | @publishes fd c r dev hc hh =>
    exact .inr ⟨fd, c, _, some dev, hc, rfl, hlive hh fun _ => Handler.noConfusion,
      Server.reading_live rfl, rfl, rfl, rfl⟩
  | @clears fd c r hc hh =>
    exact .inr ⟨fd, c, _, none, hc, rfl, hlive hh fun _ => Handler.noConfusion,
      Server.reading_live rfl, rfl, rfl, rfl⟩

/-- The steps of SETUP, /play and TEARDOWN. -/
def Event.Handled : Event → Prop
  | .setup .. | .play .. | .teardown .. | .resume .. => True
  | .accepted .. | .reverse .. | .hangUp _ | .close _ => False

namespace Server

theorem step_works (s : Server) (e : Event) (he : e.Handled) : Works s e (s.step e) := by
  cases e with
  | accepted | reverse | hangUp | close => exact he.elim
  | setup fd req parsed id =>
    rw [step]
    cases hc : s.reading fd with
    | none => exact .stays
    | some c =>
      obtain ⟨hc, hread⟩ := reading_eq_some.mp hc
      exact setup_works req parsed id hc hread
  | play fd req pr =>
    rw [step]
    cases hc : s.reading fd with
    | none => exact .stays
    | some c =>
      obtain ⟨hc, hread⟩ := reading_eq_some.mp hc
      exact play_works req pr hc hread
  | teardown fd req parsed =>
    rw [step]
    cases hc : s.reading fd with
    | none => exact .stays
    | some c =>
      obtain ⟨hc, hread⟩ := reading_eq_some.mp hc
      exact teardown_works req parsed hc hread
  | resume fd bound =>
    rw [step]
    cases hc : s.sessions fd with
    | none => exact .stays
    | some c => exact resume_works bound hc

end Server

/-- The other steps: a connection comes, one that reads stays as it is but for its id, one
leaves its read loop, or one is closed. -/
inductive Moves (s s' : Server) : Prop
  | rests (h : s'.sessions = s.sessions)
  | opens (fd : Int) (remoteIp : Bytes)
      (h : s'.sessions = Function.update s.sessions fd (some {remoteIp, fd}))
  | reads {fd : Int} {c c' : ClientSession} (hc : s.sessions fd = some c)
      (hread : c'.handler = .reading) (hip : c'.remoteIp = c.remoteIp)
      (hstreams : c'.streams = c.streams)
      (h : s'.sessions = Function.update s.sessions fd (some c'))
  | ends {fd : Int} {c : ClientSession} (session : Bytes) (hc : s.sessions fd = some c)
      (h : s'.sessions = Function.update s.sessions fd
        (some {c with streams := none, handler := .ended session}))
  | leaves (fd : Int) (h : s'.sessions = Function.update s.sessions fd none)

theorem Server.step_moves (s : Server) (e : Event) (he : ¬ e.Handled) : Moves s (s.step e) := by
  cases e with
  | setup | play | teardown | resume => exact absurd trivial he
  | accepted fd remoteIp =>
    rw [step]
    split
    · exact .rests rfl
    · exact .opens fd remoteIp rfl
  | reverse fd req =>
    rw [step]
    cases hr : s.reading fd with
    | none => exact .rests rfl
    | some c =>
      obtain ⟨hc, hread⟩ := reading_eq_some.mp hr
      obtain ⟨hhandler, hip, hstreams⟩ := handleReverse_frame c req s.reverse
      exact .reads hc (hhandler.trans hread) hip hstreams rfl
  | hangUp fd =>
    rw [step]
    cases hr : s.reading fd with
    | none => exact .rests rfl
    | some c => exact .ends _ (reading_eq_some.mp hr).1 rfl
  | close fd =>
    rw [step]
    cases s.endedSession fd with
    | none => exact .rests rfl
    | some session => exact .leaves fd rfl

/-! ### A step is one connection's -/

def Event.fd : Event → Int
  | .accepted fd _ | .reverse fd _ | .setup fd _ _ _ | .play fd _ _ | .teardown fd _ _
  | .resume fd _ | .hangUp fd | .close fd => fd

namespace Server

theorem step_other (s : Server) (e : Event) {other : Int} (h : other ≠ e.fd) :
    (s.step e).sessions other = s.sessions other := by
  cases e with
  | accepted fd remoteIp =>
    rw [step]
    split
    · rfl
    · exact Function.update_of_ne h ..
  | reverse fd | setup fd | play fd | teardown fd | hangUp fd =>
    rw [step]
    cases s.reading fd with
    | none => rfl
    | some c => exact Function.update_of_ne h ..
  | resume fd bound =>
    rw [step]
    cases s.sessions fd with
    | none => rfl
    | some c => exact Function.update_of_ne h ..
  | close fd =>
    rw [step]
    cases s.endedSession fd with
    | none => rfl
    | some session => exact Function.update_of_ne h ..

theorem run_other (s : Server) (es : List Event) {other : Int} (h : ∀ e ∈ es, other ≠ e.fd) :
    (machine.run s es).sessions other = s.sessions other := by
  induction es generalizing s with
  | nil => rfl
  | cons e rest ih =>
    refine (ih (s.step e) fun e' he' => h e' (List.mem_cons_of_mem _ he')).trans ?_
    exact step_other s e (h e List.mem_cons_self)

end Server

/-- A POST of a session. -/
def post (uri sid : Bytes) : Request where
  method := bytes "POST"
  uri := uri
  version := bytes "RTSP/1.0"
  headers := fun key => if key = bytes "x-apple-session-id" then some sid else none

end AirPlay.Control
