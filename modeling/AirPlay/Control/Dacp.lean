import AirPlay.Library.Machine
import AirPlay.Rtsp.Serialize

/-! Commands that go back to the sender.

Every control connection announces a DACP id and a token, and the service behind the id
is resolved in the background. A media command looks for a connection that plays audio
under the wanted session, takes its credentials, waits for the port and sends one
request there. Connections come and go, announce other ids and get their answers from
the resolver between any two of these steps.

Whatever the order, a request goes to a peer that has announced the id whose service has
this port, with the token it announced last, under the session the command is for
(`commands_authorised`); and left alone a command sends exactly when
`audio_control_available` says so (`control_iff_available`). -/
namespace AirPlay.Control.Dacp
open Rtsp Bytes

/-! ### Credentials -/

/-- The commands of the controls. -/
inductive MediaCommand where
  | playPause
  | previous
  | next
  | seek
  deriving DecidableEq

def isHex (b : UInt8) : Bool := 48 ≤ b && b ≤ 57 || 97 ≤ b && b ≤ 102 || 65 ≤ b && b ≤ 70

def hexId (s : Bytes) : Bool := s ≠ [] && s.length ≤ 16 && s.all isHex

def remoteToken (s : Bytes) : Bool := s ≠ [] && s.length ≤ 20 && s.all isDigit

/-- What a request says of its sender, and the streams of its connection. -/
structure Announcement where
  dacpId : Bytes
  activeRemote : Bytes
  audioOnly : Bool
  sessionId : Bytes

/-- The last text that was announced at all. -/
def lastOf (text : Announcement → Bytes) (requests : List Announcement) : Bytes :=
  ((requests.map text).filter (· ≠ [])).getLastD []

/-! ### Resolving -/

/-- A query for the sender's DACP service, and the port it was told. -/
structure ResolveState where
  name : Bytes
  pending : Bool := true
  port : UInt16 := 0

def serviceName (id : Bytes) : Bytes := bytes "iTunes_Ctrl_" ++ (id ++ bytes "._dacp._tcp.local")

/-- `ResolveState::start`; `started` when the query is under way. -/
def ResolveState.start (id : Bytes) (started : Bool) : ResolveState :=
  {name := serviceName id, pending := started}

/-- The query's callback, with the port of the instance or without one. -/
def ResolveState.completed (port : Option UInt16) (state : ResolveState) : ResolveState :=
  {state with port := port.getD 0, pending := false}

/-- A peer's address, as the system writes it. -/
structure PeerIp where
  text : Bytes
  length_le : text.length ≤ 64
  plain : 13 ∉ text

/-- `resolve` is where the connection's query stands among all of them. -/
structure DacpRemote where
  peerIp : PeerIp
  dacpId : Bytes := []
  activeRemote : Bytes := []
  sessionId : Bytes := []
  audioOnly : Bool := false
  resolve : Option Nat := none

/-- The connection's own fields after a request; a new query is number `n`. -/
def DacpRemote.update (u : Announcement) (n : Nat) (remote : DacpRemote) : DacpRemote :=
  let remote := {remote with
    audioOnly := u.audioOnly
    sessionId := u.sessionId
    activeRemote := if u.activeRemote = [] then remote.activeRemote
      else if remoteToken u.activeRemote then u.activeRemote else []}
  if u.dacpId ≠ [] ∧ u.dacpId ≠ remote.dacpId then
    if hexId u.dacpId then {remote with dacpId := u.dacpId, resolve := some n}
    else {remote with dacpId := [], resolve := none}
  else remote

/-- The queries after a request: there is a new one for a new id. -/
def asked (u : Announcement) (started : Bool) (remote : DacpRemote)
    (resolves : List ResolveState) : List ResolveState :=
  if u.dacpId ≠ [] ∧ u.dacpId ≠ remote.dacpId ∧ hexId u.dacpId then
    resolves ++ [.start u.dacpId started]
  else resolves

/-! ### The server -/

/-- A connection's thread. `requests` is not in the code, it is what has come so far. -/
structure Handler where
  remote : DacpRemote
  requests : List Announcement := []

/-- A command for the session that played when it was pressed. -/
structure AudioRequest where
  command : MediaCommand
  position : UInt32
  session : Bytes

/-- Where a command stands between two steps. -/
inductive Call where
  | idle
  /-- The connections that have not been asked yet; the map is locked. -/
  | scanning (request : AudioRequest) (left : List Nat)
  | selected (request : AudioRequest) (n : Nat)
  /-- Credentials have been taken, and the query that has the port. -/
  | waiting (request : AudioRequest) (ip : PeerIp) (token : Bytes) (resolve : Nat)

/-- A request that was put on the wire. -/
structure Sent where
  request : AudioRequest
  ip : PeerIp
  port : UInt16
  token : Bytes

/-- `remotes` is the map, in the order of its keys; `reported` is not in the code, it is
what the resolver has said. -/
structure State where
  handlers : List Handler := []
  resolves : List ResolveState := []
  remotes : List (Nat × Nat) := []
  call : Call := .idle
  results : List Bool := []
  sent : List Sent := []
  reported : List (Bytes × UInt16) := []

/-- What the connections, the resolver and the main loop do. -/
inductive Event where
  | accepted (fd : Nat) (peerIp : PeerIp)
  | request (n : Nat) (u : Announcement) (started : Bool)
  | closed (fd : Nat)
  | completed (i : Nat) (port : Option UInt16)
  | control (request : AudioRequest)
  /-- The command's next step. `timedOut` ends its wait; `peer` is what the peer sends
  back, piece by piece, when the request could be sent. -/
  | turn (timedOut : Bool) (peer : Option (List Bytes))

/-- `remotes_[fd] = n`. -/
def assign (fd n : Nat) : List (Nat × Nat) → List (Nat × Nat)
  | [] => [(fd, n)]
  | (k, v) :: rest =>
    if fd < k then (fd, n) :: (k, v) :: rest
    else if fd = k then (fd, n) :: rest
    else (k, v) :: assign fd n rest

namespace State

/-- The map is locked while a command looks through it. -/
def locked (s : State) : Bool := match s.call with
  | .scanning .. => true
  | _ => false

/-- `available`, of the connection's own session only. -/
def available (s : State) (session : Bytes) (n : Nat) : Bool :=
  s.handlers[n]?.any fun h =>
    h.remote.audioOnly && h.remote.activeRemote ≠ [] && h.remote.resolve.any fun i =>
      (session = [] || session = h.remote.sessionId) && s.resolves[i]?.any (·.port ≠ 0)

def audioControlAvailable (s : State) (session : Bytes) : Bool :=
  session ≠ [] && (s.remotes.map (·.2)).any (s.available session)

def finish (result : Bool) (s : State) : State :=
  {s with call := .idle, results := s.results ++ [result]}

end State

/-! ### The request -/

def path (request : AudioRequest) : Bytes := match request.command with
  | .playPause => bytes "playpause"
  | .previous => bytes "previtem"
  | .next => bytes "nextitem"
  | .seek => bytes "setproperty?dacp.playingtime=" ++ decimal request.position.toNat

def method (request : AudioRequest) : Bytes :=
  if request.command = .seek then bytes "POST" else bytes "GET"

def host (ip : PeerIp) : Bytes :=
  if 58 ∈ ip.text then bytes "[" ++ (ip.text ++ bytes "]") else ip.text

def Sent.wire (x : Sent) : Bytes :=
  method x.request ++ bytes " /ctrl-int/1/" ++ path x.request ++ bytes " HTTP/1.1\r\nHost: " ++
    host x.ip ++ bytes ":" ++ decimal x.port.toNat ++ bytes "\r\nActive-Remote: " ++ x.token ++
    bytes "\r\nContent-Length: 0\r\nConnection: close\r\n\r\n"

/-- What is read of the reply: up to a line, and no more than 256 bytes before a piece. -/
def readLine : List Bytes → Bytes → Bytes
  | [], line => line
  | piece :: rest, line =>
    if (cut crlf line).isNone ∧ line.length < 256 then readLine rest (line ++ piece) else line

/-- The reply's first line has a version and a code that stands for success. -/
def success (line : Bytes) : Bool :=
  (cut crlf line).isSome && (token line).any fun (version, rest) =>
    (bytes "HTTP/").isPrefixOf version &&
      (number rest).any fun code => 200 ≤ code ∧ code < 300

/-! ### Steps -/

/-- The next step of a command. -/
def turn (timedOut : Bool) (peer : Option (List Bytes)) (s : State) : State :=
  match s.call with
  | .idle => s
  | .scanning _ [] => s.finish false
  | .scanning request (n :: left) =>
    if s.available request.session n then {s with call := .selected request n}
    else {s with call := .scanning request left}
  | .selected request n =>
    match s.handlers[n]? with
    | none => s.finish false
    | some h =>
      if !h.remote.audioOnly || request.session ≠ [] && request.session ≠ h.remote.sessionId then
        s.finish false
      else
        match h.remote.resolve with
        | none => s.finish false
        | some i =>
          if h.remote.activeRemote = [] then s.finish false
          else {s with call := .waiting request h.remote.peerIp h.remote.activeRemote i}
  | .waiting request ip token i =>
    match s.resolves[i]? with
    | none => s.finish false
    | some state =>
      if state.pending && !timedOut then s
      else if state.port = 0 then s.finish false
      else
        match peer with
        | none => s.finish false
        | some pieces =>
          State.finish (success (readLine pieces []))
            {s with sent := s.sent ++ [⟨request, ip, state.port, token⟩]}

/-- A request of a connection: `remote->update`. -/
def request (n : Nat) (u : Announcement) (started : Bool) (s : State) : State :=
  match s.handlers[n]? with
  | none => s
  | some h =>
    {s with
      handlers := s.handlers.set n ⟨h.remote.update u s.resolves.length, h.requests ++ [u]⟩
      resolves := asked u started h.remote s.resolves}

def step (s : State) : Event → State
  | .accepted fd peerIp =>
    if s.locked then s
    else {s with
      handlers := s.handlers ++ [⟨{peerIp}, []⟩]
      remotes := assign fd s.handlers.length s.remotes}
  | .request n u started => request n u started s
  | .closed fd => if s.locked then s else {s with remotes := s.remotes.filter (·.1 ≠ fd)}
  | .completed i port =>
    match s.resolves[i]? with
    | none => s
    | some state => {s with
        resolves := s.resolves.set i (state.completed port)
        reported := s.reported ++ port.toList.map fun p => (state.name, p)}
  | .control request =>
    match s.call with
    | .idle =>
      if request.session = [] then s.finish false
      else {s with call := .scanning request (s.remotes.map (·.2))}
    | _ => s
  | .turn timedOut peer => turn timedOut peer s

def machine : Machine State Event := ⟨step⟩

/-! ### What is allowed -/

/-- What a connection's requests give to a command for a session: the token, and the id
of the service to ask. -/
structure Credentials (requests : List Announcement) (session token id : Bytes) : Prop where
  last : ∃ u, requests.getLast? = some u ∧ u.audioOnly = true ∧ u.sessionId = session
  token_last : lastOf (·.activeRemote) requests = token
  token_valid : remoteToken token = true
  id_last : lastOf (·.dacpId) requests = id
  id_valid : hexId id = true

/-- At some time a connection of this peer had these credentials. -/
def State.Granted (s : State) (request : AudioRequest) (ip : PeerIp) (token id : Bytes) :
    Prop :=
  request.session ≠ [] ∧ ∃ h ∈ s.handlers, h.remote.peerIp = ip ∧ ∃ requests,
    requests <+: h.requests ∧ Credentials requests request.session token id

/-- The resolver has said that the service is at this port. -/
def State.Authorised (s : State) (x : Sent) : Prop :=
  x.port ≠ 0 ∧ ∃ id, s.Granted x.request x.ip x.token id ∧ (serviceName id, x.port) ∈ s.reported

/-! ### One connection -/

theorem lastOf_concat (text : Announcement → Bytes) (requests : List Announcement)
    (u : Announcement) :
    lastOf text (requests ++ [u]) = if text u = [] then lastOf text requests else text u := by
  rw [lastOf, List.map_append, List.filter_append, List.map_singleton, List.filter_cons,
    List.filter_nil]
  by_cases hempty : text u = []
  · rw [if_pos hempty, hempty, lastOf]
    simp
  · rw [if_neg hempty, if_pos (by simpa using hempty), List.getLastD_concat]

/-- A remote's fields are what its connection has announced. -/
structure Tracks (resolves : List ResolveState) (h : Handler) : Prop where
  audioOnly : h.remote.audioOnly = h.requests.getLast?.any (·.audioOnly)
  session : h.remote.sessionId = (h.requests.getLast?.map (·.sessionId)).getD []
  token : h.remote.activeRemote =
    if remoteToken (lastOf (·.activeRemote) h.requests) then lastOf (·.activeRemote) h.requests
    else []
  id : h.remote.dacpId =
    if hexId (lastOf (·.dacpId) h.requests) then lastOf (·.dacpId) h.requests else []
  resolve : ∀ i, h.remote.resolve = some i → h.remote.dacpId ≠ [] ∧
    ∃ state, resolves[i]? = some state ∧ state.name = serviceName h.remote.dacpId

theorem tracks_new (resolves : List ResolveState) (peerIp : PeerIp) :
    Tracks resolves ⟨{peerIp}, []⟩ :=
  ⟨rfl, rfl, rfl, rfl, fun _ h => absurd h (Option.some_ne_none _).symm⟩

/-- Queries keep their names. -/
def Named (resolves resolves' : List ResolveState) : Prop :=
  ∀ (i : Nat) state, resolves[i]? = some state →
    ∃ state', resolves'[i]? = some state' ∧ state'.name = state.name

theorem Tracks.mono {resolves resolves' : List ResolveState} {h : Handler}
    (ht : Tracks resolves h) (hnamed : Named resolves resolves') : Tracks resolves' h := by
  refine {ht with resolve := fun i hi => ?_}
  obtain ⟨hne, state, hstate, hname⟩ := ht.resolve i hi
  obtain ⟨state', hstate', hname'⟩ := hnamed i state hstate
  exact ⟨hne, state', hstate', hname'.trans hname⟩

theorem named_asked (u : Announcement) (started : Bool) (remote : DacpRemote)
    (resolves : List ResolveState) : Named resolves (asked u started remote resolves) := by
  intro i state hstate
  refine ⟨state, ?_, rfl⟩
  rw [asked]
  split
  · rw [List.getElem?_append_left (List.getElem?_eq_some_iff.mp hstate).1, hstate]
  · exact hstate

theorem update_rest (u : Announcement) (n : Nat) (remote : DacpRemote) :
    (remote.update u n).peerIp = remote.peerIp ∧ (remote.update u n).audioOnly = u.audioOnly ∧
      (remote.update u n).sessionId = u.sessionId ∧
      (remote.update u n).activeRemote = if u.activeRemote = [] then remote.activeRemote
        else if remoteToken u.activeRemote then u.activeRemote else [] := by
  rw [DacpRemote.update]
  dsimp only
  split
  · split <;> exact ⟨rfl, rfl, rfl, rfl⟩
  · exact ⟨rfl, rfl, rfl, rfl⟩

theorem tracks_update {resolves : List ResolveState} {h : Handler} (ht : Tracks resolves h)
    (u : Announcement) (started : Bool) :
    Tracks (asked u started h.remote resolves)
      ⟨h.remote.update u resolves.length, h.requests ++ [u]⟩ := by
  obtain ⟨-, haudio, hsession, htoken⟩ := update_rest u resolves.length h.remote
  refine ⟨?_, ?_, ?_, ?_, ?_⟩
  · rw [haudio, List.getLast?_concat]
    rfl
  · rw [hsession, List.getLast?_concat]
    rfl
  · rw [htoken, lastOf_concat]
    by_cases hempty : u.activeRemote = []
    · rw [if_pos hempty, if_pos hempty]
      exact ht.token
    · rw [if_neg hempty, if_neg hempty]
  · rw [lastOf_concat, DacpRemote.update]
    dsimp only
    by_cases hempty : u.dacpId = []
    · rw [if_neg fun h => h.1 hempty, if_pos hempty]
      exact ht.id
    rw [if_neg hempty]
    by_cases hsame : u.dacpId = h.remote.dacpId
    · -- the id has been announced before, and was the last one
      rw [if_neg fun h => h.2 hsame]
      have hid := ht.id
      split at hid
      · rename_i hhex
        rw [hsame, hid, if_pos hhex]
      · exact absurd (hsame.trans hid) hempty
    · rw [if_pos ⟨hempty, hsame⟩]
      split <;> rfl
  · intro i hi
    have hmono := ht.mono (named_asked u started h.remote resolves)
    rw [DacpRemote.update] at hi ⊢
    dsimp only at hi ⊢
    by_cases hnew : u.dacpId ≠ [] ∧ u.dacpId ≠ h.remote.dacpId
    · rw [if_pos hnew] at hi ⊢
      by_cases hhex : hexId u.dacpId = true
      · rw [if_pos hhex] at hi ⊢
        obtain rfl := Option.some.inj hi
        refine ⟨hnew.1, .start u.dacpId started, ?_, rfl⟩
        rw [asked, if_pos ⟨hnew.1, hnew.2, hhex⟩, List.getElem?_concat_length]
      · rw [if_neg hhex] at hi
        exact absurd hi (Option.some_ne_none i).symm
    · rw [if_neg hnew] at hi ⊢
      exact hmono.resolve i hi

/-! ### One step -/

/-- What the next step of a command can do. -/
inductive Turn (s : State) : State → Prop where
  | waits : Turn s s
  | gives_up : Turn s (s.finish false)
  | looks_on {request n left} (hcall : s.call = .scanning request (n :: left)) :
    Turn s {s with call := .scanning request left}
  | selects {request n left} (hcall : s.call = .scanning request (n :: left)) :
    Turn s {s with call := .selected request n}
  | takes {request n h i} (hcall : s.call = .selected request n) (hh : s.handlers[n]? = some h)
      (haudio : h.remote.audioOnly = true)
      (hsession : request.session = [] ∨ request.session = h.remote.sessionId)
      (hresolve : h.remote.resolve = some i) (htoken : h.remote.activeRemote ≠ []) :
    Turn s {s with call := .waiting request h.remote.peerIp h.remote.activeRemote i}
  | sends {request ip token i state} (hcall : s.call = .waiting request ip token i)
      (hstate : s.resolves[i]? = some state) (hport : state.port ≠ 0) (result : Bool) :
    Turn s (State.finish result {s with sent := s.sent ++ [⟨request, ip, state.port, token⟩]})

theorem turn_spec (timedOut : Bool) (peer : Option (List Bytes)) (s : State) :
    Turn s (turn timedOut peer s) := by
  rw [turn]
  split
  · exact .waits
  · exact .gives_up
  · rename_i hcall
    split
    · exact .selects hcall
    · exact .looks_on hcall
  · rename_i request n hcall
    split
    · exact .gives_up
    · rename_i h hh
      split
      · exact .gives_up
      · rename_i hmay
        split
        · exact .gives_up
        · rename_i i hresolve
          split
          · exact .gives_up
          · rename_i htoken
            rw [Bool.or_eq_true, not_or, Bool.not_eq_true', Bool.and_eq_true,
              decide_eq_true_eq, decide_eq_true_eq, not_and_or, not_ne_iff, not_ne_iff] at hmay
            exact .takes hcall hh (by simpa using hmay.1) hmay.2 hresolve htoken
  · rename_i request ip token i hcall
    split
    · exact .gives_up
    · rename_i state hstate
      split
      · exact .waits
      · split
        · exact .gives_up
        · rename_i hport
          split
          · exact .gives_up
          · exact .sends hcall hstate hport _

/-- What a step does to what has been announced and resolved: it adds to it. -/
structure Extends (s s' : State) : Prop where
  handlers : ∀ h ∈ s.handlers, ∃ h' ∈ s'.handlers,
    h'.remote.peerIp = h.remote.peerIp ∧ h.requests <+: h'.requests
  resolves : Named s.resolves s'.resolves
  reported : s.reported ⊆ s'.reported

theorem extends_same {s s' : State} (hhandlers : s'.handlers = s.handlers)
    (hresolves : s'.resolves = s.resolves) (hreported : s'.reported = s.reported) :
    Extends s s' := by
  refine ⟨?_, ?_, hreported ▸ List.Subset.refl _⟩
  · intro h hh
    exact ⟨h, hhandlers ▸ hh, rfl, List.prefix_refl _⟩
  · intro i state hstate
    exact ⟨state, hresolves ▸ hstate, rfl⟩

theorem Turn.extends {s s' : State} (h : Turn s s') : Extends s s' := by
  cases h <;> exact extends_same rfl rfl rfl

theorem named_completed (port : Option UInt16) {resolves : List ResolveState} {i : Nat}
    {state : ResolveState} (hstate : resolves[i]? = some state) :
    Named resolves (resolves.set i (state.completed port)) := by
  intro j state' hstate'
  by_cases hij : i = j
  · subst hij
    obtain rfl := Option.some.inj (hstate.symm.trans hstate')
    exact ⟨state.completed port,
      List.getElem?_set_self (List.getElem?_eq_some_iff.mp hstate).1, rfl⟩
  · exact ⟨state', by rw [List.getElem?_set_ne hij, hstate'], rfl⟩

theorem request_extends (n : Nat) (u : Announcement) (started : Bool) (s : State) :
    Extends s (request n u started s) := by
  rw [request]
  split
  · exact extends_same rfl rfl rfl
  · rename_i h hh
    obtain ⟨hn, hget⟩ := List.getElem?_eq_some_iff.mp hh
    refine ⟨?_, named_asked u started h.remote s.resolves, List.Subset.refl _⟩
    intro h' hh'
    obtain ⟨j, hj, hget'⟩ := List.mem_iff_getElem.mp hh'
    by_cases hij : n = j
    · subst hij
      obtain rfl : h = h' := hget.symm.trans hget'
      exact ⟨_, List.mem_set hn _, (update_rest u s.resolves.length h.remote).1,
        List.prefix_append _ _⟩
    · refine ⟨h', List.mem_iff_getElem?.mpr ⟨j, ?_⟩, rfl, List.prefix_refl _⟩
      rw [List.getElem?_set_ne hij, List.getElem?_eq_some_iff]
      exact ⟨hj, hget'⟩

theorem step_extends (s : State) (e : Event) : Extends s (step s e) := by
  cases e with
  | accepted fd peerIp =>
    rw [step]
    split
    · exact extends_same rfl rfl rfl
    · refine ⟨fun h hh => ⟨h, List.mem_append_left _ hh, rfl, List.prefix_refl _⟩, ?_,
        List.Subset.refl _⟩
      exact fun i state hstate => ⟨state, hstate, rfl⟩
  | request n u started => exact request_extends n u started s
  | closed fd =>
    rw [step]
    split <;> exact extends_same rfl rfl rfl
  | completed i port =>
    rw [step]
    split
    · exact extends_same rfl rfl rfl
    · rename_i state hstate
      exact ⟨fun h hh => ⟨h, hh, rfl, List.prefix_refl _⟩, named_completed port hstate,
        List.subset_append_left _ _⟩
  | control request =>
    rw [step]
    split
    · split <;> exact extends_same rfl rfl rfl
    · exact extends_same rfl rfl rfl
  | turn timedOut peer => exact (turn_spec timedOut peer s).extends

theorem Extends.granted {s s' : State} (h : Extends s s') {request : AudioRequest} {ip : PeerIp}
    {token id : Bytes} (hgranted : s.Granted request ip token id) :
    s'.Granted request ip token id := by
  obtain ⟨hsession, handler, hmem, hip, requests, hprefix, hcredentials⟩ := hgranted
  obtain ⟨handler', hmem', hip', hprefix'⟩ := h.handlers handler hmem
  exact ⟨hsession, handler', hmem', hip'.trans hip, requests, hprefix.trans hprefix',
    hcredentials⟩

theorem Extends.authorised {s s' : State} (h : Extends s s') {x : Sent}
    (hx : s.Authorised x) : s'.Authorised x := by
  obtain ⟨hport, id, hgranted, hreported⟩ := hx
  exact ⟨hport, id, h.granted hgranted, h.reported hreported⟩

/-! ### Every run -/

/-- A query's port is what the resolver has said of its name. -/
def Resolved (s : State) : Prop :=
  ∀ state ∈ s.resolves, state.port ≠ 0 →
    state.pending = false ∧ (state.name, state.port) ∈ s.reported

/-- A command has a session, and what it waits with has been granted. -/
def CallOk (s : State) : Prop :=
  match s.call with
  | .idle => True
  | .scanning request _ => request.session ≠ []
  | .selected request _ => request.session ≠ []
  | .waiting request ip token i => ∃ id, s.Granted request ip token id ∧
      ∃ state, s.resolves[i]? = some state ∧ state.name = serviceName id

structure Inv (s : State) : Prop where
  tracks : ∀ h ∈ s.handlers, Tracks s.resolves h
  resolved : Resolved s
  call : CallOk s
  sent : ∀ x ∈ s.sent, s.Authorised x
  count : s.sent.length ≤ s.results.length

theorem inv_initial : Inv {} :=
  ⟨fun _ h => absurd h List.not_mem_nil, fun _ h => absurd h List.not_mem_nil, trivial,
    fun _ h => absurd h List.not_mem_nil, Nat.le_refl _⟩

/-- What a command has been granted stays granted. -/
theorem CallOk.extends {s s' : State} (h : CallOk s) (hextends : Extends s s')
    (hcall : s'.call = s.call) : CallOk s' := by
  rw [CallOk] at h ⊢
  rw [hcall]
  split <;> rename_i heq <;> rw [heq] at h
  · trivial
  · exact h
  · exact h
  · obtain ⟨id, hgranted, state, hstate, hname⟩ := h
    obtain ⟨state', hstate', hname'⟩ := hextends.resolves _ state hstate
    exact ⟨id, hextends.granted hgranted, state', hstate', hname'.trans hname⟩

/-- The credentials that a command takes are those its connection has announced. -/
theorem Tracks.credentials {resolves : List ResolveState} {h : Handler} (ht : Tracks resolves h)
    {session : Bytes} (haudio : h.remote.audioOnly = true) (hsession : session = h.remote.sessionId)
    (htoken : h.remote.activeRemote ≠ []) (hid : h.remote.dacpId ≠ []) :
    Credentials h.requests session h.remote.activeRemote h.remote.dacpId := by
  obtain ⟨u, hu, huaudio⟩ := (Option.any_eq_true _ _).mp (ht.audioOnly.symm.trans haudio)
  have hus := ht.session
  rw [hu] at hus
  have htok := ht.token
  have hids := ht.id
  split at htok
  · rename_i hvalid
    split at hids
    · rename_i hhex
      exact ⟨⟨u, hu, huaudio, hus.symm.trans hsession.symm⟩, htok.symm, htok ▸ hvalid, hids.symm,
        hids ▸ hhex⟩
    · exact absurd hids hid
  · exact absurd htok htoken

theorem Inv.turn {s s' : State} (hs : Inv s) (h : Turn s s') : Inv s' := by
  have hextends := h.extends
  cases h with
  | waits => exact hs
  | gives_up =>
    refine ⟨hs.tracks, hs.resolved, trivial, hs.sent, ?_⟩
    exact hs.count.trans (List.length_append ▸ Nat.le_add_right _ _)
  | looks_on hcall =>
    have hsession := hs.call
    rw [CallOk, hcall] at hsession
    exact ⟨hs.tracks, hs.resolved, hsession, hs.sent, hs.count⟩
  | selects hcall =>
    have hsession := hs.call
    rw [CallOk, hcall] at hsession
    exact ⟨hs.tracks, hs.resolved, hsession, hs.sent, hs.count⟩
  | @takes request n h i hcall hh haudio hsession hresolve htoken =>
    have hne := hs.call
    rw [CallOk, hcall] at hne
    have hmem : h ∈ s.handlers := List.mem_of_getElem? hh
    have ht := hs.tracks h hmem
    obtain ⟨hid, state, hstate, hname⟩ := ht.resolve i hresolve
    have hcredentials :=
      ht.credentials haudio (hsession.resolve_left hne) htoken hid
    refine ⟨hs.tracks, hs.resolved, ?_, hs.sent, hs.count⟩
    exact ⟨h.remote.dacpId,
      ⟨hne, h, hmem, rfl, h.requests, List.prefix_refl _, hcredentials⟩, state, hstate, hname⟩
  | @sends request ip token i state hcall hstate hport result =>
    have hwaiting := hs.call
    rw [CallOk, hcall] at hwaiting
    obtain ⟨id, hgranted, state', hstate', hname⟩ := hwaiting
    obtain rfl := Option.some.inj (hstate.symm.trans hstate')
    obtain ⟨-, hreported⟩ := hs.resolved state (List.mem_of_getElem? hstate) hport
    have hnew : s.Authorised ⟨request, ip, state.port, token⟩ :=
      ⟨hport, id, hgranted, hname ▸ hreported⟩
    refine ⟨hs.tracks, hs.resolved, trivial, ?_, ?_⟩
    · intro x hx
      rcases List.mem_append.mp hx with hx | hx
      · exact hextends.authorised (hs.sent x hx)
      · rw [List.mem_singleton.mp hx]
        exact hextends.authorised hnew
    · exact (congrArg₂ (· ≤ ·) List.length_append List.length_append).mpr
        (Nat.add_le_add_right hs.count 1)

theorem Inv.request {s : State} (hs : Inv s) (n : Nat) (u : Announcement) (started : Bool) :
    Inv (request n u started s) := by
  have hextends := request_extends n u started s
  rw [Dacp.request] at hextends ⊢
  split at hextends
  · exact hs
  · rename_i h hh
    refine ⟨?_, ?_, hs.call.extends hextends rfl, ?_, hs.count⟩
    · intro h' hh'
      rcases List.mem_or_eq_of_mem_set hh' with hold | rfl
      · exact (hs.tracks h' hold).mono hextends.resolves
      · exact tracks_update (hs.tracks h (List.mem_of_getElem? hh)) u started
    · intro state hstate hport
      dsimp only [asked] at hstate
      split at hstate
      · rcases List.mem_append.mp hstate with hold | hnew
        · exact hs.resolved state hold hport
        · rw [List.mem_singleton.mp hnew] at hport
          exact absurd rfl hport
      · exact hs.resolved state hstate hport
    · exact fun x hx => hextends.authorised (hs.sent x hx)

theorem Inv.completed {s : State} (hs : Inv s) (i : Nat) (port : Option UInt16) :
    Inv (step s (.completed i port)) := by
  have hextends := step_extends s (.completed i port)
  rw [step] at hextends ⊢
  split at hextends
  · exact hs
  · rename_i state hstate
    refine ⟨fun h hh => (hs.tracks h hh).mono hextends.resolves, ?_,
      hs.call.extends hextends rfl, fun x hx => hextends.authorised (hs.sent x hx), hs.count⟩
    intro state' hstate' hport
    rcases List.mem_or_eq_of_mem_set hstate' with hold | rfl
    · exact ⟨(hs.resolved state' hold hport).1, hextends.reported (hs.resolved state' hold hport).2⟩
    · refine ⟨rfl, List.mem_append_right _ ?_⟩
      cases port with
      | none => exact absurd rfl hport
      | some p => exact List.mem_singleton.mpr rfl

theorem inv_step (s : State) (e : Event) (hs : Inv s) : Inv (step s e) := by
  have hextends := step_extends s e
  cases e with
  | accepted fd peerIp =>
    rw [step] at hextends ⊢
    split
    · exact hs
    · rename_i hfree
      rw [if_neg hfree] at hextends
      refine ⟨?_, hs.resolved, hs.call.extends hextends rfl,
        fun x hx => hextends.authorised (hs.sent x hx), hs.count⟩
      intro h hh
      rcases List.mem_append.mp hh with hh | hh
      · exact hs.tracks h hh
      · rw [List.mem_singleton.mp hh]
        exact tracks_new s.resolves peerIp
  | request n u started => exact hs.request n u started
  | closed fd =>
    rw [step]
    split
    · exact hs
    · exact ⟨hs.tracks, hs.resolved, hs.call.extends (extends_same rfl rfl rfl) rfl, hs.sent,
        hs.count⟩
  | completed i port => exact hs.completed i port
  | control request =>
    rw [step]
    split
    · split
      · exact hs.turn .gives_up
      · rename_i hsession
        exact ⟨hs.tracks, hs.resolved, hsession, hs.sent, hs.count⟩
    · exact hs
  | turn timedOut peer => exact hs.turn (turn_spec timedOut peer s)

theorem inv_run (es : List Event) : Inv (machine.run {} es) :=
  Machine.run_keeps inv_step es inv_initial

/-! ### The request on the wire -/

namespace Sent

/-- The request as a message of the reader's. -/
def message (x : Sent) : Message where
  method := method x.request
  gap := bytes " "
  uri := bytes "/ctrl-int/1/" ++ path x.request
  gap' := bytes " "
  version := bytes "HTTP/1.1"
  fields := [⟨bytes "Host", bytes " " ++ (host x.ip ++ (bytes ":" ++ decimal x.port.toNat))⟩,
    ⟨bytes "Active-Remote", bytes " " ++ x.token⟩, ⟨bytes "Content-Length", bytes " 0"⟩,
    ⟨bytes "Connection", bytes " close"⟩]
  body := []

theorem wire_eq (x : Sent) : x.wire = x.message.wire := by
  have hpath : bytes " /ctrl-int/1/" = bytes " " ++ bytes "/ctrl-int/1/" := by decide
  have hhost : bytes " HTTP/1.1\r\nHost: " =
      bytes " " ++ (bytes "HTTP/1.1" ++ (crlf ++ (bytes "Host" ++ (bytes ":" ++ bytes " ")))) := by
    decide
  have htoken : bytes "\r\nActive-Remote: " =
      crlf ++ (bytes "Active-Remote" ++ (bytes ":" ++ bytes " ")) := by decide
  have hrest : bytes "\r\nContent-Length: 0\r\nConnection: close\r\n\r\n" =
      crlf ++ (bytes "Content-Length" ++ (bytes ":" ++ (bytes " 0" ++ (crlf ++
        (bytes "Connection" ++ (bytes ":" ++ (bytes " close" ++ (crlf ++ crlf)))))))) := by decide
  simp only [wire, hpath, hhost, htoken, hrest, message, Message.wire, Message.head,
    Message.lines, Message.requestLine, Field.line, List.map_cons, List.map_nil, unlines,
    List.flatMap_cons, List.flatMap_nil, List.append_assoc, List.append_nil]

/-- What a command asks has no white space in it. -/
theorem uri_word (request : AudioRequest) :
    ∀ b ∈ bytes "/ctrl-int/1/" ++ path request, isSpace b = false := by
  have hfixed : ∀ b ∈ bytes "/ctrl-int/1/" ++ (bytes "playpause" ++ (bytes "previtem" ++
      (bytes "nextitem" ++ bytes "setproperty?dacp.playingtime="))), isSpace b = false := by
    decide +kernel
  intro b hb
  refine (List.mem_append.mp hb).elim
    (fun hb => hfixed b (List.mem_append_left _ hb)) fun hb => ?_
  rw [path] at hb
  split at hb
  · exact hfixed b (by simp [hb])
  · exact hfixed b (by simp [hb])
  · exact hfixed b (by simp [hb])
  · rcases List.mem_append.mp hb with hb | hb
    · exact hfixed b (by simp [hb])
    · exact Reply.isSpace_of_isDigit (decimal_digits _ b hb)

theorem path_length (request : AudioRequest) : (path request).length ≤ 39 := by
  rw [path]
  split
  · decide
  · decide
  · decide
  · have hdigits : (decimal request.position.toNat).length ≤ 10 := by
      rw [decimal, List.length_map, Nat.length_toDigits_le_iff (by decide) (by decide)]
      exact request.position.toNat_lt.trans (by decide)
    rw [List.length_append]
    exact Nat.add_le_add (by decide) hdigits

theorem host_plain (ip : PeerIp) : 13 ∉ host ip ∧ (host ip).length ≤ 66 := by
  rw [host]
  split
  · refine ⟨?_, ?_⟩
    · rw [List.mem_append, List.mem_append]
      exact fun h => h.elim (by decide) fun h => h.elim ip.plain (by decide)
    · have hlength := ip.length_le
      simp only [List.length_append]
      have hbrackets : (bytes "[").length = 1 ∧ (bytes "]").length = 1 := by decide
      omega
  · exact ⟨ip.plain, ip.length_le.trans (by decide)⟩

theorem trim_blank {word : Bytes} (h : ∀ b ∈ word, isBlank b = false) :
    trim (bytes " " ++ word) = word := by
  have hdrop : (bytes " " ++ word).dropWhile isBlank = word := by
    show word.dropWhile isBlank = word
    rw [List.dropWhile_eq_self_iff]
    exact fun hpos => by simp [h _ (List.getElem_mem hpos)]
  rw [trim, hdrop, List.rdropWhile_eq_self_iff]
  exact fun hne => by simp [h _ (List.getLast_mem hne)]

theorem token_digits {token : Bytes} (h : remoteToken token = true) :
    token.length ≤ 20 ∧ ∀ b ∈ token, isDigit b = true := by
  rw [remoteToken, Bool.and_eq_true, Bool.and_eq_true, decide_eq_true_eq, decide_eq_true_eq,
    List.all_eq_true] at h
  exact ⟨h.1.2, h.2⟩

theorem isBlank_of_isDigit {b : UInt8} (h : isDigit b = true) : isBlank b = false := by
  cases hblank : isBlank b with
  | false => rfl
  | true => exact absurd (isSpace_of_isBlank hblank) (by simp [Reply.isSpace_of_isDigit h])

theorem method_mem (request : AudioRequest) : method request ∈ [bytes "POST", bytes "GET"] := by
  rw [method]
  split <;> simp

theorem message_wellFormed (x : Sent) (htoken : remoteToken x.token = true) :
    x.message.WellFormed where
  words := by
    have hfixed := @runs_of_all isSpace false [bytes "POST", bytes "GET", bytes "HTTP/1.1"]
      (by decide)
    refine List.forall_mem_cons.mpr ⟨hfixed _ ?_, List.forall_mem_cons.mpr
      ⟨⟨List.append_ne_nil_of_left_ne_nil (by decide) _, uri_word x.request⟩,
        List.forall_mem_singleton.mpr (hfixed (bytes "HTTP/1.1") (by decide))⟩⟩
    exact List.mem_append_left [bytes "HTTP/1.1"] (method_mem x.request)
  gaps := @runs_of_all isBlank true [bytes " ", bytes " "] (by decide)
  fields := by
    have hcr : 13 ∉ decimal x.port.toNat := not_mem_decimal (by decide) _
    have htoken' : 13 ∉ x.token := fun h => absurd ((token_digits htoken).2 _ h) (by decide)
    refine List.forall_mem_cons.mpr ⟨⟨(by decide : trim (bytes "Host") = bytes "Host"),
      (by decide : 58 ∉ bytes "Host"), not_crlf_of_not_mem ?_⟩, List.forall_mem_cons.mpr
      ⟨⟨(by decide : trim (bytes "Active-Remote") = bytes "Active-Remote"),
        (by decide : 58 ∉ bytes "Active-Remote"), not_crlf_of_not_mem ?_⟩,
      List.forall_mem_cons.mpr ⟨⟨by decide, by decide, by decide⟩,
        List.forall_mem_singleton.mpr ⟨by decide, by decide, by decide⟩⟩⟩⟩
    · simp only [Field.line, List.mem_append, not_or]
      exact ⟨by decide, by decide, by decide, (host_plain x.ip).1, by decide, hcr⟩
    · simp only [Field.line, List.mem_append, not_or]
      exact ⟨by decide, by decide, by decide, htoken'⟩
  head_length := by
    have hmethod : (method x.request).length ≤ 4 := by
      have hshort : ∀ w ∈ [bytes "POST", bytes "GET"], w.length ≤ 4 := by decide
      exact hshort _ (method_mem x.request)
    have hport : (decimal x.port.toNat).length ≤ 5 := by
      rw [decimal, List.length_map, Nat.length_toDigits_le_iff (by decide) (by decide)]
      exact x.port.toNat_lt.trans (by decide)
    have hpath := path_length x.request
    have hhost := (host_plain x.ip).2
    have htoken := (token_digits htoken).1
    have hfixed : (bytes "/ctrl-int/1/" ++ bytes "HTTP/1.1" ++ bytes "Host" ++
        bytes "Active-Remote" ++ bytes "Content-Length" ++ bytes "Connection" ++
        bytes " close").length = 67 := by decide
    have hshort : (bytes " ").length = 1 ∧ (bytes ":").length = 1 ∧ (bytes " 0").length = 2 ∧
        crlf.length = 2 := by decide
    simp only [List.length_append] at hfixed
    simp only [message, Message.head, Message.lines, Message.requestLine, Field.line,
      List.map_cons, List.map_nil, unlines, List.flatMap_cons, List.flatMap_nil,
      List.length_append, List.length_nil]
    omega
  length := by
    have hlength : x.message.headers (bytes "content-length") = some (bytes "0") := rfl
    rw [hlength]
    exact (by decide +kernel : bytes "0" ≠ [] ∧ (∀ b ∈ bytes "0", isDigit b = true) ∧
      natural (bytes "0") = 0)

/-- The peer reads one request, the command's, with the token, and nothing after it. -/
theorem wire_read (x : Sent) (htoken : remoteToken x.token = true) (model : DataModel)
    {incoming : List Chunk} (hsent : incoming.flatMap (·.data) = x.wire) :
    ∃ req, (∀ n, outcomes model {incoming} (1 + n) = .request req :: List.replicate n .closed) ∧
      req.method = method x.request ∧ req.uri = bytes "/ctrl-int/1/" ++ path x.request ∧
      req.header (bytes "active-remote") = x.token ∧ req.body = [] := by
  have hformed := message_wellFormed x htoken
  have hfits : x.message.Fits model := by
    refine ⟨Nat.two_pow_pos _, ?_⟩
    rw [Message.wire, List.length_append]
    exact (Nat.add_le_add_right hformed.head_length 0).trans_lt (by decide)
  have hstream : RequestReader.stream {incoming} = [x.message].flatMap Message.wire := by
    rw [List.flatMap_singleton, ← wire_eq]
    exact hsent
  have hread := (outcomes_iff model [x.message] (List.forall_mem_singleton.mpr hformed)
    (Nat.zero_le _) hstream).mpr (List.forall_mem_singleton.mpr hfits)
  refine ⟨x.message.request, hread, rfl, rfl, ?_, rfl⟩
  show trim (bytes " " ++ x.token) = x.token
  exact trim_blank fun b hb => isBlank_of_isDigit ((token_digits htoken).2 b hb)

end Sent

/-- Whatever the order of connections, announcements, resolver answers and commands: a
command sends one request at most, every request is authorised, and the peer reads it as
the command with the token that was announced. -/
theorem commands_authorised (es : List Event) :
    let s := machine.run {} es
    s.sent.length ≤ s.results.length ∧ ∀ x ∈ s.sent, s.Authorised x ∧
      ∀ model (incoming : List Chunk), incoming.flatMap (·.data) = x.wire →
        ∃ req, (∀ n, outcomes model {incoming} (1 + n) =
            .request req :: List.replicate n .closed) ∧
          req.method = method x.request ∧ req.uri = bytes "/ctrl-int/1/" ++ path x.request ∧
          req.header (bytes "active-remote") = x.token ∧ req.body = [] := by
  have hinv := inv_run es
  refine ⟨hinv.count, fun x hx => ⟨hinv.sent x hx, fun model incoming hsent => ?_⟩⟩
  obtain ⟨-, id, ⟨-, h, -, -, requests, -, hcredentials⟩, -⟩ := hinv.sent x hx
  exact x.wire_read hcredentials.token_valid model hsent

/-! ### A command that is left alone -/

/-- What a command sends through a connection. -/
def offer (s : State) (request : AudioRequest) (n : Nat) : Option Sent := do
  let h ← s.handlers[n]?
  let state ← s.resolves[← h.remote.resolve]?
  return ⟨request, h.remote.peerIp, state.port, h.remote.activeRemote⟩

/-- The first connection that is available, in the order of the map. -/
def chosen (s : State) (session : Bytes) : Option Nat :=
  if session = [] then none else (s.remotes.map (·.2)).find? (s.available session)

/-- The state after a command that nothing interferes with. -/
def served (s : State) (request : AudioRequest) (pieces : List Bytes) : Option Nat → State
  | none => s.finish false
  | some n => State.finish (success (readLine pieces []))
      {s with sent := s.sent ++ (offer s request n).toList}

/-- The command's steps, while nothing else happens and its peer replies. -/
def alone (pieces : List Bytes) (timeouts : List Bool) : List Event :=
  timeouts.map fun timedOut => .turn timedOut (some pieces)

theorem alone_idle {s : State} (h : s.call = .idle) (pieces : List Bytes) (timeouts : List Bool) :
    machine.run s (alone pieces timeouts) = s := by
  induction timeouts with
  | nil => rfl
  | cons timedOut rest ih =>
    have hturn : turn timedOut (some pieces) s = s := by rw [turn, h]
    show machine.run (turn timedOut (some pieces) s) (alone pieces rest) = s
    rw [hturn, ih]

theorem isSome_chosen (s : State) (session : Bytes) :
    (chosen s session).isSome = s.audioControlAvailable session := by
  rw [chosen, State.audioControlAvailable]
  split
  · rename_i hempty
    simp [hempty]
  · rename_i hne
    rw [decide_eq_true hne, Bool.true_and, Bool.eq_iff_iff, List.find?_isSome, List.any_eq_true]

/-- What is available has all that a command takes. -/
theorem available_iff {s : State} {session : Bytes} (hsession : session ≠ []) {n : Nat} :
    s.available session n = true ↔ ∃ h i state, s.handlers[n]? = some h ∧
      h.remote.audioOnly = true ∧ h.remote.activeRemote ≠ [] ∧ h.remote.resolve = some i ∧
      session = h.remote.sessionId ∧ s.resolves[i]? = some state ∧ state.port ≠ 0 := by
  simp only [State.available, Option.any_eq_true, Bool.and_eq_true, Bool.or_eq_true,
    decide_eq_true_eq, hsession, false_or]
  constructor
  · rintro ⟨h, hh, ⟨haudio, htoken⟩, i, hi, hsame, state, hstate, hport⟩
    exact ⟨h, i, state, hh, haudio, htoken, hi, hsame, hstate, hport⟩
  · rintro ⟨h, i, state, hh, haudio, htoken, hi, hsame, hstate, hport⟩
    exact ⟨h, hh, ⟨haudio, htoken⟩, i, hi, hsame, state, hstate, hport⟩

section Alone
variable {s : State} {request : AudioRequest} {pieces : List Bytes}

/-- From an available connection it takes two steps to the request. -/
theorem alone_selected (hs : Resolved s) (hsession : request.session ≠ []) {n : Nat}
    (havailable : s.available request.session n = true) {timeouts : List Bool}
    (hlength : 2 ≤ timeouts.length) :
    machine.run {s with call := .selected request n} (alone pieces timeouts) =
      served s request pieces (some n) := by
  obtain ⟨h, i, state, hh, haudio, htoken, hi, hsame, hstate, hport⟩ :=
    (available_iff hsession).mp havailable
  match timeouts, hlength with
  | t₁ :: t₂ :: rest, _ =>
    have hready := (hs state (List.mem_of_getElem? hstate) hport).1
    have hoffer : offer s request n =
        some ⟨request, h.remote.peerIp, state.port, h.remote.activeRemote⟩ := by
      simp [offer, hh, hi, hstate]
    have hfirst : turn t₁ (some pieces) {s with call := .selected request n} =
        {s with call := .waiting request h.remote.peerIp h.remote.activeRemote i} := by
      simp [turn, hh, haudio, hsame, hi, htoken]
    have hsecond : turn t₂ (some pieces)
        {s with call := .waiting request h.remote.peerIp h.remote.activeRemote i} =
        served s request pieces (some n) := by
      simp [turn, hstate, hready, hport, served, hoffer, State.finish]
    show machine.run (turn t₂ (some pieces) (turn t₁ (some pieces) _)) (alone pieces rest) = _
    rw [hfirst, hsecond]
    exact alone_idle rfl pieces rest

theorem alone_scanning (hs : Resolved s) (hsession : request.session ≠ []) (left : List Nat)
    {timeouts : List Bool} (hlength : left.length + 2 ≤ timeouts.length) :
    machine.run {s with call := .scanning request left} (alone pieces timeouts) =
      served s request pieces (left.find? (s.available request.session)) := by
  induction left generalizing timeouts with
  | nil =>
    match timeouts, hlength with
    | t :: rest, _ => exact alone_idle rfl pieces rest
  | cons n left ih =>
    match timeouts, hlength with
    | t :: rest, hlength =>
      have hrest : left.length + 2 ≤ rest.length := Nat.le_of_succ_le_succ hlength
      show machine.run (turn t (some pieces) {s with call := .scanning request (n :: left)})
        (alone pieces rest) = _
      by_cases havailable : s.available request.session n = true
      · have hturn : turn t (some pieces) {s with call := .scanning request (n :: left)} =
            {s with call := .selected request n} := if_pos havailable
        rw [hturn, List.find?_cons_of_pos havailable]
        exact alone_selected hs hsession havailable (by omega)
      · have hturn : turn t (some pieces) {s with call := .scanning request (n :: left)} =
            {s with call := .scanning request left} := if_neg havailable
        rw [hturn, List.find?_cons_of_neg havailable]
        exact ih hrest

end Alone

/-- A command that comes while nothing else happens ends, and sends its request exactly
when `audio_control_available` says that it can: through the first connection that is
available. -/
theorem control_iff_available (es : List Event) (request : AudioRequest) (pieces : List Bytes)
    (timeouts : List Bool) (hidle : (machine.run {} es).call = .idle)
    (hlength : (machine.run {} es).remotes.length + 2 ≤ timeouts.length) :
    let s := machine.run {} es
    let s' := machine.run s (.control request :: alone pieces timeouts)
    s' = served s request pieces (chosen s request.session) ∧ s'.call = .idle ∧
      s'.sent.length = s.sent.length + (s.audioControlAvailable request.session).toNat := by
  have hinv := inv_run es
  intro s s'
  have hs' : s' = served s request pieces (chosen s request.session) := by
    show machine.run (step s (.control request)) (alone pieces timeouts) = _
    rw [step, hidle, chosen]
    dsimp only
    split
    · exact alone_idle rfl pieces timeouts
    · rename_i hsession
      exact alone_scanning hinv.resolved hsession _ (by rw [List.length_map]; exact hlength)
  refine ⟨hs', ?_, ?_⟩
  · rw [hs']
    cases chosen s request.session <;> rfl
  · rw [hs', ← isSome_chosen]
    cases hchosen : chosen s request.session with
    | none => rfl
    | some n =>
      have hne : request.session ≠ [] := by
        intro hempty
        rw [chosen, if_pos hempty] at hchosen
        exact absurd hchosen (Option.some_ne_none n).symm
      rw [chosen, if_neg hne] at hchosen
      obtain ⟨h, i, state, hh, -, -, hi, -, hstate, -⟩ :=
        (available_iff hne).mp (List.find?_some hchosen)
      have hoffer : offer s request n =
          some ⟨request, h.remote.peerIp, state.port, h.remote.activeRemote⟩ := by
        simp [offer, hh, hi, hstate]
      show (s.sent ++ (offer s request n).toList).length = _
      rw [hoffer, List.length_append]
      rfl

/-- A phone that plays under the session `s`, and whose service has been resolved. -/
def playing : List Event :=
  [.accepted 5 ⟨bytes "10.0.0.2", by decide, by decide⟩,
    .request 0 ⟨bytes "1A", bytes "77", true, bytes "s"⟩ true, .completed 0 (some 3689)]

theorem playing_paused :
    let s := machine.run {} playing
    let s' := machine.run s (.control ⟨.playPause, 0, bytes "s"⟩ ::
      alone [bytes "HTTP/1.1 204 No Content\r\n"] [false, false, false])
    s' = served s ⟨.playPause, 0, bytes "s"⟩ [bytes "HTTP/1.1 204 No Content\r\n"]
        (chosen s (bytes "s")) ∧
      s'.call = .idle ∧
      s'.sent.length = s.sent.length + (s.audioControlAvailable (bytes "s")).toNat :=
  control_iff_available playing ⟨.playPause, 0, bytes "s"⟩ [bytes "HTTP/1.1 204 No Content\r\n"]
    [false, false, false] rfl (by decide)

end AirPlay.Control.Dacp
