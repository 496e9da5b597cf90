import AirPlay.Control.Server
import AirPlay.Hls.Playlist

/-! HLS sessions, and the handlers that work on them.

iOS names a video by /play and delivers its playlists and segments by POST /action,
in answer to requests that /play and the local player's fetches send; /stop ends it.
Each handler runs on a thread of its own and touches a session in several steps,
some under the session's locks and some under none; a history is a list of such
steps in any order. -/
namespace AirPlay.Hls
open Control

/-- `int`, as the counters and the request ids hold it. -/
abbrev CInt := BitVec 32

/-- What is kept of a sender's video: its playlists and segments as they come in, the requests
that are out for them, and the local paths it has been given. -/
structure HlsSession where
  masterUrl : Bytes := []
  masterPlaylist : Bytes := []
  nextRequestId : CInt := 1
  masterRequestId : CInt := 0
  playbackGeneration : CInt := 0
  mediaUris : List Bytes := []
  mediaPlaylists : Bytes → Option Bytes := fun _ => none
  segmentData : Bytes → Option Bytes := fun _ => none
  segmentRedirect : Bytes → Option Bytes := fun _ => none
  /-- FCUP request id -> generation. -/
  requestGenerations : CInt → Option CInt := fun _ => none
  /-- Local path -> URL. -/
  segUrlMap : Bytes → Option Bytes := fun _ => none
  segUrlCounter : BitVec 64 := 0
  playbackStarted : Bool := false
  mediaPlaylistReady : Bool := false

/-- What POST /action delivers: the `FCUP_Response` fields. -/
structure Delivery where
  url : Bytes
  requestId : BitVec 64 := 0
  playlist : Bytes := []
  /-- The `Location` of a 302. -/
  redirectLocation : Bytes := []

/-- `static_cast<int>` of the request id. -/
def Delivery.id (d : Delivery) : CInt := d.requestId.setWidth 32

/-- What the request id is compared with decides whether the delivery is current. -/
def current (hls : HlsSession) (d : Delivery) : Bool :=
  d.requestId = 0 || hls.requestGenerations d.id = some hls.playbackGeneration

/-- An accepted request id is used up. -/
def consume (hls : HlsSession) (d : Delivery) : HlsSession :=
  if d.requestId = 0 then hls
  else {hls with requestGenerations := Function.update hls.requestGenerations d.id none}

def isMaster (hls : HlsSession) (url : Bytes) : Bool := hls.masterUrl ≠ [] && url == hls.masterUrl

def isM3u8 (url : Bytes) : Bool := (bytes ".m3u8").isSuffixOf url

def localPath (n : BitVec 64) : Bytes := bytes "/seg/" ++ Bytes.decimal n.toNat

/-- `register_local`: the local path, and the session that knows it. -/
def registerLocal (urlLine : Bytes) (hls : HlsSession) : Bytes × HlsSession :=
  let path := localPath hls.segUrlCounter
  (path, {hls with
    segUrlCounter := hls.segUrlCounter + 1
    segUrlMap := Function.update hls.segUrlMap path (some urlLine)})

/-- What stands in the localised playlist for a local path. -/
def localUrl (localPort : Nat) (path : Bytes) : Bytes :=
  bytes "http://localhost:" ++ Bytes.decimal localPort ++ path

/-! ### Handlers -/

/-- Where a handler stands, before its next step. -/
inductive Handler where
  /-- /play: `set_active_session`, then the steps of `reset_hls_media_state`. -/
  | activating (sid url : Bytes)
  | resetting (sid url : Bytes)
  | bumping (sid : Bytes)
  | drawing (sid : Bytes) (generation : CInt)
  | registering (sid : Bytes) (generation masterRequestId : CInt)
  | clearingUrls (sid : Bytes)
  | finishing (sid : Bytes)
  /-- /stop: the flags and playlists, the segments, the local paths, the active session. -/
  | quieting (sid : Bytes)
  | droppingSegments (sid : Bytes)
  | droppingUrls (sid : Bytes)
  | deactivating (sid : Bytes)
  /-- /action, past the check of the request id, which read `generation`. -/
  | storing (sid : Bytes) (d : Delivery) (generation : CInt)
  /-- /action in `rewrite_segments_to_local`: what is written and what is left. -/
  | localising (sid : Bytes) (d : Delivery) (generation : CInt) (out : Bytes) (left : List Piece)
  /-- `fetch_playlist`: the cache, the registration of the id, the wait. -/
  | checkingPlaylist (sid url : Bytes) (forceRefresh : Bool) (requestId : CInt)
  | registeringPlaylist (sid url : Bytes) (requestId : CInt) (previous : Option Bytes)
  | waitingPlaylist (sid url : Bytes) (previous : Option Bytes)
  /-- `fetch_segment`, in the same steps. -/
  | checkingSegment (sid url : Bytes) (requestId : CInt)
  | registeringSegment (sid url : Bytes) (requestId : CInt)
  | waitingSegment (sid url : Bytes)

namespace Handler

/-- The session a handler works on. -/
def sid : Handler → Bytes
  | activating sid _ | resetting sid _ | bumping sid | drawing sid _ | registering sid _ _
  | clearingUrls sid | finishing sid | quieting sid | droppingSegments sid | droppingUrls sid
  | deactivating sid | storing sid _ _ | localising sid _ _ _ _ | checkingPlaylist sid _ _ _
  | registeringPlaylist sid _ _ _ | waitingPlaylist sid _ _ | checkingSegment sid _ _
  | registeringSegment sid _ _ | waitingSegment sid _ => sid

/-- Puts back the playlist a failed refresh took out. -/
def restore (url : Bytes) (previous : Option Bytes) (hls : HlsSession) : HlsSession :=
  match previous with
  | none => hls
  | some playlist => {hls with mediaPlaylists := Function.update hls.mediaPlaylists url playlist}

/-- A segment that has arrived is handed out once. -/
def takeSegment (url : Bytes) (hls : HlsSession) : Option HlsSession :=
  if (hls.segmentRedirect url).isSome then
    some {hls with segmentRedirect := Function.update hls.segmentRedirect url none}
  else if (hls.segmentData url).isSome then
    some {hls with segmentData := Function.update hls.segmentData url none}
  else none

section Work
variable (expand : Bytes → Bytes) (localPort : Nat)

/-- The next step of a handler: what it makes of its session, and where it stands
then. `ok` says whether an FCUP request was sent, or an answer arrived in time;
`expand` is `expand_yt_condensed_playlist`. -/
def work (ok : Bool) (hls : HlsSession) : Handler → HlsSession × Option Handler
  | activating sid url => (hls, some (.resetting sid url))
  | resetting sid url =>
    ({hls with
        masterUrl := url
        masterPlaylist := []
        mediaUris := []
        mediaPlaylists := fun _ => none}, some (.bumping sid))
  | bumping sid =>
    let generation := hls.playbackGeneration + 1
    ({hls with playbackGeneration := generation}, some (.drawing sid generation))
  | drawing sid generation =>
    let masterRequestId := hls.nextRequestId
    ({hls with nextRequestId := masterRequestId + 1, masterRequestId},
      some (.registering sid generation masterRequestId))
  | registering sid generation masterRequestId =>
    ({hls with
        segmentData := fun _ => none
        segmentRedirect := fun _ => none
        requestGenerations := Function.update (fun _ => none) masterRequestId (some generation)},
      some (.clearingUrls sid))
  | clearingUrls sid =>
    ({hls with segUrlMap := fun _ => none, segUrlCounter := 0}, some (.finishing sid))
  | finishing _ => ({hls with mediaPlaylistReady := false, playbackStarted := true}, none)
  | quieting sid =>
    ({hls with
        playbackStarted := false
        mediaPlaylistReady := false
        masterPlaylist := []
        mediaUris := []
        mediaPlaylists := fun _ => none}, some (.droppingSegments sid))
  | droppingSegments sid =>
    ({hls with segmentData := fun _ => none, segmentRedirect := fun _ => none},
      some (.droppingUrls sid))
  | droppingUrls sid =>
    ({hls with segUrlMap := fun _ => none, segUrlCounter := 0}, some (.deactivating sid))
  | deactivating _ => (hls, none)
  | storing sid d generation =>
    if isMaster hls d.url then
      ({hls with masterPlaylist := d.playlist, mediaUris := extractMediaUris d.playlist}, none)
    else if isM3u8 d.url then
      (hls, some (.localising sid d generation [] (playlistPieces (expand d.playlist))))
    else if d.redirectLocation ≠ [] then
      ({hls with segmentRedirect :=
          Function.update hls.segmentRedirect d.url (some d.redirectLocation)}, none)
    else ({hls with segmentData := Function.update hls.segmentData d.url (some d.playlist)}, none)
  | localising sid d generation out (.text b :: left) =>
    (hls, some (.localising sid d generation (out ++ b) left))
  | localising sid d generation out (.url u :: left) =>
    let (path, hls) := registerLocal u hls
    (hls, some (.localising sid d generation (out ++ localUrl localPort path) left))
  | localising _ d _ out [] =>
    ({hls with
        mediaPlaylists := Function.update hls.mediaPlaylists d.url (some out)
        mediaPlaylistReady := true}, none)
  | checkingPlaylist sid url forceRefresh requestId =>
    match hls.mediaPlaylists url with
    | none => (hls, some (.registeringPlaylist sid url requestId none))
    | some playlist =>
      if forceRefresh then
        ({hls with mediaPlaylists := Function.update hls.mediaPlaylists url none},
          some (.registeringPlaylist sid url requestId (some playlist)))
      else (hls, none)
  | registeringPlaylist sid url requestId previous =>
    ({hls with requestGenerations :=
        Function.update hls.requestGenerations requestId (some hls.playbackGeneration)},
      some (.waitingPlaylist sid url previous))
  | waitingPlaylist _ url previous =>
    if ok ∧ (hls.mediaPlaylists url).isSome then (hls, none) else (restore url previous hls, none)
  | checkingSegment sid url requestId =>
    match takeSegment url hls with
    | some hls => (hls, none)
    | none => (hls, some (.registeringSegment sid url requestId))
  | registeringSegment sid url requestId =>
    ({hls with requestGenerations :=
        Function.update hls.requestGenerations requestId (some hls.playbackGeneration)},
      some (.waitingSegment sid url))
  | waitingSegment _ url => if ok then ((takeSegment url hls).getD hls, none) else (hls, none)

end Work

end Handler

/-! ### The registry -/

/-- The sessions by id, and the one that plays. -/
structure HlsSessionRegistry where
  sessions : Bytes → Option HlsSession := fun _ => none
  activeSessionId : Bytes := []

namespace HlsSessionRegistry

def getOrCreate (sid : Bytes) (r : HlsSessionRegistry) : HlsSession × HlsSessionRegistry :=
  let hls := (r.sessions sid).getD {}
  (hls, {r with sessions := Function.update r.sessions sid (some hls)})

def find (sid : Bytes) (r : HlsSessionRegistry) : Option HlsSession := r.sessions sid

def setActiveSession (sid : Bytes) (r : HlsSessionRegistry) : HlsSessionRegistry :=
  {r with activeSessionId := sid}

/-- The session `active_session_id_` names, if it is there. -/
def active (r : HlsSessionRegistry) : Option HlsSession :=
  if r.activeSessionId = [] then none else r.sessions r.activeSessionId

/-- `order` is the order in which a scan meets the sessions of the hash map. -/
def resolveSegmentPath (order : List Bytes) (localPath : Bytes) (r : HlsSessionRegistry) :
    Option Bytes :=
  (r.active.bind fun hls => hls.segUrlMap localPath) <|>
    order.findSome? fun sid =>
      if sid = r.activeSessionId then none
      else (r.sessions sid).bind fun hls => hls.segUrlMap localPath

/-- A session's playlist for a URL, and whether it is the master; empty ones do not count. -/
def lookupInSession (url : Bytes) (hls : HlsSession) : Option (Bytes × Bool) :=
  if hls.masterUrl = url then
    if hls.masterPlaylist ≠ [] then some (hls.masterPlaylist, true) else none
  else (hls.mediaPlaylists url).bind fun playlist =>
    if playlist ≠ [] then some (playlist, false) else none

def lookupPlaylist (order : List Bytes) (url : Bytes) (r : HlsSessionRegistry) :
    Option (Bytes × Bool) :=
  (r.active.bind (lookupInSession url)) <|>
    order.findSome? fun sid =>
      if sid = r.activeSessionId then none else (r.sessions sid).bind (lookupInSession url)

/-- The session whose reverse channel `fetch_playlist` and `fetch_segment` use, and the
channel's descriptor. -/
def fetchTarget (order : List Bytes) (reverse : ReverseChannelRegistry) (r : HlsSessionRegistry) :
    Option (Bytes × Int) :=
  (r.active.bind fun _ =>
      let fd := reverse.socketFor r.activeSessionId
      if fd ≥ 0 then some (r.activeSessionId, fd) else none) <|>
    order.findSome? fun sid => (r.sessions sid).bind fun _ =>
      let fd := reverse.socketFor sid
      if fd < 0 then none else some (sid, fd)

end HlsSessionRegistry

/-! ### The receiver -/

/-- The registry with what its handlers share: the reverse channels, the threads that run
them and the player. -/
structure Receiver where
  registry : HlsSessionRegistry := {}
  reverse : ReverseChannelRegistry := {}
  threads : Nat → Option Handler := fun _ => none
  /-- Whether the HLS player is running. -/
  player : Bool := false

/-- A request comes in, on the control connection or from the player, or a handler goes on. -/
inductive Event where
  /-- The control connections have changed the reverse channels. -/
  | reverse (r : ReverseChannelRegistry)
  /-- A /play of the supported client. -/
  | play (thread : Nat) (sid url : Bytes)
  | stop (thread : Nat) (sid : Bytes)
  /-- A full TEARDOWN. -/
  | teardown (sid : Bytes)
  | action (thread : Nat) (sid : Bytes) (d : Delivery)
  | fetchPlaylist (thread : Nat) (url : Bytes) (forceRefresh : Bool) (order : List Bytes)
  | fetchSegment (thread : Nat) (url : Bytes) (order : List Bytes)
  /-- The handler that is running on the thread goes on. -/
  | resume (thread : Nat) (ok : Bool)

/-- The thread an event runs on. -/
def Event.thread : Event → Option Nat
  | play thread _ _ | stop thread _ | action thread _ _ | fetchPlaylist thread _ _ _
  | fetchSegment thread _ _ | resume thread _ => some thread
  | reverse _ | teardown _ => none

namespace Receiver

def put (sid : Bytes) (hls : HlsSession) (s : Receiver) : Receiver :=
  {s with registry := {s.registry with
    sessions := Function.update s.registry.sessions sid (some hls)}}

/-- The thread goes on as the handler says. -/
def goOn (thread : Nat) (h : Option Handler) (s : Receiver) : Receiver :=
  {s with threads := Function.update s.threads thread h}

/-- What a handler's step does to the active session and to the player. -/
def shared (h : Handler) (hls : HlsSession) (s : Receiver) : Receiver :=
  match h with
  | .activating sid _ => {s with registry := s.registry.setActiveSession sid, player := false}
  | .deactivating _ => {s with registry := s.registry.setActiveSession [], player := false}
  | .storing _ d _ => if isMaster hls d.url then {s with player := true} else s
  | _ => s

/-- A fetch draws its request id along with its target. -/
def fetch (thread : Nat) (order : List Bytes) (h : Bytes → CInt → Handler) (s : Receiver) :
    Receiver :=
  match s.registry.fetchTarget order s.reverse with
  | none => s
  | some (sid, _) => match s.registry.find sid with
    | none => s
    | some hls => (s.put sid {hls with nextRequestId := hls.nextRequestId + 1}).goOn thread
      (some (h sid hls.nextRequestId))

variable (expand : Bytes → Bytes) (localPort : Nat)

def step (s : Receiver) : Event → Receiver
  | .reverse r => {s with reverse := r}
  | .play thread sid url =>
    if (s.threads thread).isSome ∨ s.reverse.socketFor sid < 0 then s
    else {s with registry := (s.registry.getOrCreate sid).2}.goOn thread
      (some (.activating sid url))
  | .stop thread sid =>
    if (s.threads thread).isSome then s
    else if sid = [] then {s with player := false}
    else match s.registry.find sid with
      | none => {s with registry := s.registry.setActiveSession [], player := false}
      | some _ => s.goOn thread (some (.quieting sid))
  | .teardown sid =>
    if sid = [] then {s with player := false}
    else {s with registry := s.registry.setActiveSession [], player := false}
  | .action thread sid d =>
    if (s.threads thread).isSome then s
    else match s.registry.find sid with
      | none => s
      | some hls =>
        if current hls d then
          (s.put sid (consume hls d)).goOn thread (some (.storing sid d hls.playbackGeneration))
        else s
  | .fetchPlaylist thread url forceRefresh order =>
    if (s.threads thread).isSome then s
    else s.fetch thread order fun sid id => .checkingPlaylist sid url forceRefresh id
  | .fetchSegment thread url order =>
    if (s.threads thread).isSome then s
    else s.fetch thread order fun sid id => .checkingSegment sid url id
  | .resume thread ok => match s.threads thread with
    | none => s
    | some h => match s.registry.find h.sid with
      | none => s.goOn thread none
      | some hls =>
        let (hls', next) := h.work expand localPort ok hls
        ((s.shared h hls).put h.sid hls').goOn thread next

def machine : Machine Receiver Event := ⟨step expand localPort⟩

end Receiver

/-! ### What a step can do -/

theorem Handler.takeSegment_frame {url : Bytes} {hls hls' : HlsSession}
    (h : Handler.takeSegment url hls = some hls') :
    ∃ data redirect, hls' = {hls with segmentData := data, segmentRedirect := redirect} := by
  rw [Handler.takeSegment] at h
  split at h
  · exact ⟨_, _, (Option.some.inj h).symm⟩
  split at h
  · exact ⟨_, _, (Option.some.inj h).symm⟩
  · exact absurd h (Option.some_ne_none hls').symm

theorem Handler.restore_frame (url : Bytes) (previous : Option Bytes) (hls : HlsSession) :
    ∃ playlists, Handler.restore url previous hls = {hls with mediaPlaylists := playlists} := by
  cases previous <;> exact ⟨_, rfl⟩

/-- A handler that looks for a playlist or a segment, or stores one. -/
def Handler.movesMedia : Handler → Bool
  | storing _ _ _ | checkingPlaylist _ _ _ _ | waitingPlaylist _ _ _ | checkingSegment _ _ _
  | waitingSegment _ _ => true
  | _ => false

theorem Handler.work_media {expand : Bytes → Bytes} {localPort : Nat} {h : Handler}
    (hm : h.movesMedia = true) (ok : Bool) (hls : HlsSession) :
    ∃ masterPlaylist mediaUris mediaPlaylists segmentData segmentRedirect,
      (h.work expand localPort ok hls).1 = {hls with
        masterPlaylist, mediaUris, mediaPlaylists, segmentData, segmentRedirect} := by
  cases h with
  | storing sid d generation =>
    rw [work]
    split
    · exact ⟨_, _, _, _, _, rfl⟩
    split
    · exact ⟨_, _, _, _, _, rfl⟩
    split <;> exact ⟨_, _, _, _, _, rfl⟩
  | checkingPlaylist sid url forceRefresh requestId =>
    rw [work]
    cases hls.mediaPlaylists url with
    | none => exact ⟨_, _, _, _, _, rfl⟩
    | some playlist => cases forceRefresh <;> exact ⟨_, _, _, _, _, rfl⟩
  | waitingPlaylist sid url previous =>
    obtain ⟨playlists, hrestore⟩ := restore_frame url previous hls
    rw [work, hrestore]
    split <;> exact ⟨_, _, _, _, _, rfl⟩
  | checkingSegment sid url requestId =>
    rw [work]
    cases htake : takeSegment url hls with
    | none => exact ⟨_, _, _, _, _, rfl⟩
    | some hls' =>
      obtain ⟨data, redirect, rfl⟩ := takeSegment_frame htake
      exact ⟨_, _, _, _, _, rfl⟩
  | waitingSegment sid url =>
    rw [work]
    cases htake : takeSegment url hls with
    | none => cases ok <;> exact ⟨_, _, _, _, _, rfl⟩
    | some hls' =>
      obtain ⟨data, redirect, rfl⟩ := takeSegment_frame htake
      cases ok <;> exact ⟨_, _, _, _, _, rfl⟩
  | _ => exact absurd hm Bool.false_ne_true

/-- Where a handler goes from where it is. -/
inductive Handler.Leads (hls : HlsSession) : Handler → Handler → Prop
  | activating {sid url} : Leads hls (activating sid url) (resetting sid url)
  | resetting {sid url} : Leads hls (resetting sid url) (bumping sid)
  | bumping {sid generation} : Leads hls (bumping sid) (drawing sid generation)
  | drawing {sid generation id} : Leads hls (drawing sid generation) (registering sid generation id)
  | registering {sid generation id} : Leads hls (registering sid generation id) (clearingUrls sid)
  | clearingUrls {sid} : Leads hls (clearingUrls sid) (finishing sid)
  | quieting {sid} : Leads hls (quieting sid) (droppingSegments sid)
  | droppingSegments {sid} : Leads hls (droppingSegments sid) (droppingUrls sid)
  | droppingUrls {sid} : Leads hls (droppingUrls sid) (deactivating sid)
  | storing {sid d generation left} (hp : isM3u8 d.url = true) :
    Leads hls (storing sid d generation) (localising sid d generation [] left)
  | localising {sid d generation out out' piece left} :
    Leads hls (localising sid d generation out (piece :: left))
      (localising sid d generation out' left)
  | checkingPlaylist {sid url force id} :
    Leads hls (checkingPlaylist sid url force id)
      (registeringPlaylist sid url id (hls.mediaPlaylists url))
  | registeringPlaylist {sid url id previous} :
    Leads hls (registeringPlaylist sid url id previous) (waitingPlaylist sid url previous)
  | checkingSegment {sid url id} :
    Leads hls (checkingSegment sid url id) (registeringSegment sid url id)
  | registeringSegment {sid url id} :
    Leads hls (registeringSegment sid url id) (waitingSegment sid url)

theorem Handler.work_leads {expand : Bytes → Bytes} {localPort : Nat} {h next : Handler} {ok : Bool}
    {hls : HlsSession} (hw : (h.work expand localPort ok hls).2 = some next) :
    h.Leads hls next := by
  cases h with
  | storing sid d generation =>
    rw [work] at hw
    split at hw
    · exact nomatch hw
    split at hw
    · rename_i hp
      rw [← Option.some.inj hw]
      exact .storing hp
    split at hw
    · exact nomatch hw
    · exact nomatch hw
  | localising sid d generation out left =>
    rcases left with - | ⟨_ | _, left⟩
    · exact nomatch hw
    all_goals
      rw [← Option.some.inj hw]
      exact .localising
  | checkingPlaylist sid url force id =>
    rw [work] at hw
    split at hw
    · rename_i hp
      rw [← Option.some.inj hw, ← hp]
      exact .checkingPlaylist
    · rename_i playlist hp
      split at hw
      · rw [← Option.some.inj hw, ← hp]
        exact .checkingPlaylist
      · exact nomatch hw
  | waitingPlaylist sid url previous =>
    rw [work] at hw
    split at hw
    · exact nomatch hw
    · exact nomatch hw
  | checkingSegment sid url id =>
    rw [work] at hw
    split at hw
    · exact nomatch hw
    · rw [← Option.some.inj hw]
      exact .checkingSegment
  | waitingSegment sid url =>
    rw [work] at hw
    split at hw
    · exact nomatch hw
    · exact nomatch hw
  | finishing | deactivating => exact nomatch hw
  | _ =>
    rw [← Option.some.inj hw]
    constructor

theorem consume_frame (hls : HlsSession) (d : Delivery) :
    ∃ generations, consume hls d = {hls with requestGenerations := generations} := by
  rw [consume]
  split <;> exact ⟨_, rfl⟩

/-- What a step can make of the sessions and of the threads. -/
inductive Moves (expand : Bytes → Bytes) (localPort : Nat) (s : Receiver) (e : Event)
    (s' : Receiver) : Prop where
  | rests (hs : s'.registry.sessions = s.registry.sessions) (ht : s'.threads = s.threads)
  /-- /play finds its session or creates it. -/
  | opens (thread : Nat) (sid url : Bytes) (he : e = .play thread sid url)
      (hs : s'.registry.sessions =
        Function.update s.registry.sessions sid (some ((s.registry.sessions sid).getD {})))
      (ht : s'.threads = Function.update s.threads thread (some (.activating sid url)))
      (hopen : ¬ ((s.threads thread).isSome ∨ s.reverse.socketFor sid < 0))
  | stops (thread : Nat) (sid : Bytes) (he : e = .stop thread sid)
      (hs : s'.registry.sessions = s.registry.sessions)
      (ht : s'.threads = Function.update s.threads thread (some (.quieting sid)))
  /-- A delivery passes the check of its request id. -/
  | delivers (thread : Nat) (sid : Bytes) (d : Delivery) (hls : HlsSession)
      (he : e = .action thread sid d) (hf : s.registry.sessions sid = some hls)
      (hcurrent : current hls d = true)
      (hs : s'.registry.sessions =
        Function.update s.registry.sessions sid (some (consume hls d)))
      (ht : s'.threads =
        Function.update s.threads thread (some (.storing sid d hls.playbackGeneration)))
  /-- A fetch draws its request id. -/
  | fetches (thread : Nat) (sid : Bytes) (hls : HlsSession) (h : Handler)
      (he : (∃ url force order, e = .fetchPlaylist thread url force order ∧
          h = .checkingPlaylist sid url force hls.nextRequestId) ∨
        ∃ url order, e = .fetchSegment thread url order ∧
          h = .checkingSegment sid url hls.nextRequestId)
      (hf : s.registry.sessions sid = some hls)
      (hs : s'.registry.sessions = Function.update s.registry.sessions sid
        (some {hls with nextRequestId := hls.nextRequestId + 1}))
      (ht : s'.threads = Function.update s.threads thread (some h))
  /-- A handler goes on. -/
  | works (thread : Nat) (ok : Bool) (h : Handler) (hls : HlsSession) (he : e = .resume thread ok)
      (hh : s.threads thread = some h) (hf : s.registry.sessions h.sid = some hls)
      (hs : s'.registry.sessions = Function.update s.registry.sessions h.sid
        (some (h.work expand localPort ok hls).1))
      (ht : s'.threads = Function.update s.threads thread (h.work expand localPort ok hls).2)
  | drops (thread : Nat) (hs : s'.registry.sessions = s.registry.sessions)
      (ht : s'.threads = Function.update s.threads thread none)
      (he : ∃ ok, e = .resume thread ok)

namespace Receiver
variable {expand : Bytes → Bytes} {localPort : Nat}

theorem fetch_moves (s : Receiver) {e : Event} (thread : Nat) (order : List Bytes)
    (h : Bytes → CInt → Handler)
    (he : ∀ sid id, (∃ url force order, e = .fetchPlaylist thread url force order ∧
        h sid id = .checkingPlaylist sid url force id) ∨
      ∃ url order, e = .fetchSegment thread url order ∧ h sid id = .checkingSegment sid url id) :
    Moves expand localPort s e (s.fetch thread order h) := by
  rw [fetch]
  cases s.registry.fetchTarget order s.reverse with
  | none => exact .rests rfl rfl
  | some target =>
    obtain ⟨sid, fd⟩ := target
    dsimp only
    cases hf : s.registry.find sid with
    | none => exact .rests rfl rfl
    | some hls => exact .fetches thread sid hls _ (he sid hls.nextRequestId) hf rfl rfl

@[simp] theorem shared_sessions (h : Handler) (hls : HlsSession) (s : Receiver) :
    (s.shared h hls).registry.sessions = s.registry.sessions := by
  cases h with
  | storing sid d => rw [shared]; split <;> rfl
  | _ => rfl

@[simp] theorem shared_threads (h : Handler) (hls : HlsSession) (s : Receiver) :
    (s.shared h hls).threads = s.threads := by
  cases h with
  | storing sid d => rw [shared]; split <;> rfl
  | _ => rfl

theorem step_moves (s : Receiver) (e : Event) :
    Moves expand localPort s e (s.step expand localPort e) := by
  cases e with
  | reverse r => exact .rests rfl rfl
  | play thread sid url =>
    rw [step]
    split
    · exact .rests rfl rfl
    · rename_i hopen
      exact .opens thread sid url rfl rfl rfl hopen
  | stop thread sid =>
    rw [step]
    split
    · exact .rests rfl rfl
    split
    · exact .rests rfl rfl
    cases s.registry.find sid with
    | none => exact .rests rfl rfl
    | some hls => exact .stops thread sid rfl rfl rfl
  | teardown sid =>
    rw [step]
    split <;> exact .rests rfl rfl
  | action thread sid d =>
    rw [step]
    split
    · exact .rests rfl rfl
    cases hf : s.registry.find sid with
    | none => exact .rests rfl rfl
    | some hls =>
      dsimp only
      split
      · rename_i hcurrent
        exact .delivers thread sid d hls rfl hf hcurrent rfl rfl
      · exact .rests rfl rfl
  | fetchPlaylist thread url force order =>
    rw [step]
    split
    · exact .rests rfl rfl
    · exact fetch_moves s thread order _ fun _ _ => .inl ⟨url, force, order, rfl, rfl⟩
  | fetchSegment thread url order =>
    rw [step]
    split
    · exact .rests rfl rfl
    · exact fetch_moves s thread order _ fun _ _ => .inr ⟨url, order, rfl, rfl⟩
  | resume thread ok =>
    rw [step]
    cases hh : s.threads thread with
    | none => exact .rests rfl rfl
    | some h =>
      dsimp only
      cases hf : s.registry.find h.sid with
      | none => exact .drops thread rfl rfl ⟨ok, rfl⟩
      | some hls =>
        refine .works thread ok h hls rfl hh hf ?_ ?_
        · exact congrArg (Function.update · h.sid _) (shared_sessions h hls s)
        · exact congrArg (Function.update · thread _) (shared_threads h hls s)

/-- A step leaves the other threads alone. -/
theorem step_threads {s : Receiver} {e : Event} {thread : Nat} (hne : e.thread ≠ some thread) :
    (s.step expand localPort e).threads thread = s.threads thread := by
  have hother : ∀ {thread' : Nat} {h : Option Handler}, e.thread = some thread' →
      Function.update s.threads thread' h thread = s.threads thread := by
    intro thread' h he
    refine Function.update_of_ne ?_ ..
    rintro rfl
    exact hne he
  cases @step_moves expand localPort s e with
  | rests hs ht => rw [ht]
  | opens thread' sid url he hs ht | stops thread' sid he hs ht
  | delivers thread' sid d hls he hf hcurrent hs ht | works thread' ok h hls he hh hf hs ht =>
    rw [ht, hother (congrArg Event.thread he)]
  | fetches thread' sid hls h he hf hs ht =>
    rw [ht, hother]
    rcases he with ⟨url, force, order, rfl, -⟩ | ⟨url, order, rfl, -⟩ <;> rfl
  | drops thread' hs ht he =>
    obtain ⟨ok, rfl⟩ := he
    rw [ht, hother rfl]

theorem run_threads {s : Receiver} {thread : Nat} (es : List Event)
    (hes : ∀ e ∈ es, e.thread ≠ some thread) :
    ((machine expand localPort).run s es).threads thread = s.threads thread := by
  induction es generalizing s with
  | nil => rfl
  | cons e rest ih =>
    have hrest := ih (s := s.step expand localPort e) fun e' he' =>
      hes e' (List.mem_cons_of_mem _ he')
    exact hrest.trans (step_threads (hes e List.mem_cons_self))

/-- Only its own /play creates a session. -/
theorem step_absent {s : Receiver} {e : Event} {sid : Bytes}
    (habsent : s.registry.sessions sid = none) (he : ∀ thread url, e ≠ .play thread sid url) :
    (s.step expand localPort e).registry.sessions sid = none := by
  have hput : ∀ {sid' : Bytes} {hls hls' : HlsSession}, s.registry.sessions sid' = some hls →
      Function.update s.registry.sessions sid' (some hls') sid = none := by
    intro sid' hls hls' hf
    refine (Function.update_of_ne ?_ ..).trans habsent
    rintro rfl
    exact Option.some_ne_none hls (hf.symm.trans habsent)
  cases @step_moves expand localPort s e with
  | rests hs | drops thread hs | stops thread sid' he hs => rw [hs, habsent]
  | opens thread sid' url he' hs =>
    rw [hs]
    refine (Function.update_of_ne ?_ ..).trans habsent
    rintro rfl
    exact he thread url he'
  | delivers thread sid' d hls he hf hcurrent hs => rw [hs, hput hf]
  | fetches thread sid' hls h he hf hs => rw [hs, hput hf]
  | works thread ok h hls he hh hf hs => rw [hs, hput hf]

theorem run_absent {s : Receiver} {sid : Bytes} (es : List Event)
    (habsent : s.registry.sessions sid = none)
    (hes : ∀ e ∈ es, ∀ thread url, e ≠ .play thread sid url) :
    ((machine expand localPort).run s es).registry.sessions sid = none := by
  induction es generalizing s with
  | nil => exact habsent
  | cons e rest ih =>
    exact ih (step_absent habsent (hes e List.mem_cons_self))
      fun e' he' => hes e' (List.mem_cons_of_mem _ he')

end Receiver

/-- A /play and the steps of its reset, undisturbed. -/
def plays (thread : Nat) (sid url : Bytes) : List Event :=
  .play thread sid url :: List.replicate 7 (.resume thread true)

/-- A delivery and its store, undisturbed. -/
def answers (thread : Nat) (sid : Bytes) (d : Delivery) : List Event :=
  [.action thread sid d, .resume thread true]

end AirPlay.Hls
