import Mathlib.Data.List.Forall2
import AirPlay.Rtsp.Serialize

/-! The routes, and what goes back on a connection.

Each request is answered by the handler of its method and path. What the handlers ask
the other parts of the program is a `Backend`; which response it makes, with its
headers, is written out. Two headers carry text of the request back, `CSeq` and the
session of a reverse connection. A header value may hold a lone CR or LF, but as it was
cut from a line it holds no CRLF, so nothing that a peer sends makes a response read as
two (`connection_replies`). -/
namespace AirPlay.Rtsp
open Bytes (not_crlf_of_not_mem not_mem_decimal not_crlf_of_cut)

/-! ### What the handlers ask -/

/-- The ports that a legacy SETUP announces. -/
structure StreamPorts where
  server : Nat
  control : Nat
  timing : Nat

/-- How an AirPlay 2 SETUP goes: its body is none, another device has the receiver, a
step fails, or it is done. -/
inductive SetupResult where
  | malformed
  | taken
  | failed
  | ready (body : Bytes)

/-- What the handlers find out from the rest of the program. -/
structure Backend where
  infoPlist : Bytes
  receiverName : Bytes
  deviceid : Bytes
  publicKey : Bytes
  message1 : Option Bytes
  message2 : Bool
  fairplay : Option Bytes
  announced : Bool
  legacyPorts : Option StreamPorts
  setup : SetupResult
  /-- The number of the stream session, when there is one. -/
  session : Option Nat
  serverInfo : Bytes
  playbackInfo : Bytes
  /-- The cached properties of an HLS session. -/
  props : Bytes → Bytes → Option Bytes

/-! ### Handlers -/

section Handlers
variable (o : Backend) (req : Request)

/-- The start of most responses. -/
def ok (req : Request) : Response := copyCseq req (make 200 (bytes "OK"))

def Response.failWith (code : Int) (text : Bytes) (r : Response) : Response :=
  {r with statusCode := code, statusText := text}

def octets : Response :=
  (ok req).setHeader (bytes "Content-Type") (bytes "application/octet-stream")

def handleInfo : Response :=
  if o.infoPlist ≠ [] then
    {(ok req).setHeader (bytes "Content-Type") (bytes "application/x-apple-binary-plist") with
      body := o.infoPlist}
  else
    {(ok req).setHeader (bytes "Content-Type") (bytes "text/plain") with
      body := bytes "name=" ++ o.receiverName ++ bytes "\ndeviceid=" ++ o.deviceid ++ bytes "\n"}

def handlePairSetup : Response :=
  if o.publicKey.length ≠ 32 then (octets req).failWith 500 (bytes "Internal Server Error")
  else {octets req with body := o.publicKey}

def handlePairVerify : Response :=
  match req.body with
  | b :: _ :: _ :: _ :: _ =>
    if b ≠ 0 then
      match o.message1 with
      | none => (octets req).failWith 470 (bytes "Connection Authorization Required")
      | some body => {octets req with body}
    else if o.message2 then octets req
    else (octets req).failWith 470 (bytes "Connection Authorization Required")
  | _ => (octets req).failWith 400 (bytes "Bad Request")

def handleFpSetup : Response :=
  match o.fairplay with
  | none => (octets req).failWith 400 (bytes "Bad Request")
  | some body => {octets req with body}

def handleAnnounce : Response :=
  if o.announced then ok req else (ok req).failWith 400 (bytes "Bad Request")

/-- The session id, as it is printed. -/
def Backend.sessionId (o : Backend) : Bytes := Bytes.decimal (o.session.getD 0)

def setupLegacyPath : Response :=
  match o.legacyPorts with
  | none => (ok req).failWith 500 (bytes "Internal Server Error")
  | some allocated =>
    ((ok req).setHeader (bytes "Transport")
      (bytes "RTP/AVP/UDP;unicast;mode=record" ++
        (bytes ";server_port=" ++ Bytes.decimal allocated.server ++
          ((if allocated.control ≠ 0 then bytes ";control_port=" ++ Bytes.decimal allocated.control
            else []) ++
          if allocated.timing ≠ 0 then bytes ";timing_port=" ++ Bytes.decimal allocated.timing
            else [])))).setHeader (bytes "Session") o.sessionId

def setupAirplay2Path : Response :=
  let r := (ok req).setHeader (bytes "Content-Type") (bytes "application/x-apple-binary-plist")
  match o.setup with
  | .malformed => r.failWith 400 (bytes "Bad Request")
  | .taken =>
    (r.failWith 503 (bytes "Service Unavailable")).setHeader (bytes "Connection") (bytes "close")
  | .failed => r.failWith 500 (bytes "Internal Server Error")
  | .ready body => {r with body}.setHeader (bytes "Session") o.sessionId

def handleSetup : Response :=
  if req.body ≠ [] then setupAirplay2Path o req
  else if req.header (bytes "transport") = [] then
    copyCseq req (make 400 (bytes "Bad Request"))
  else setupLegacyPath o req

def handleRecord : Response :=
  match o.session with
  | none => (ok req).failWith 455 (bytes "Method Not Valid In This State")
  | some _ => (ok req).setHeader (bytes "Session") o.sessionId

def handleTeardown : Response := (ok req).setHeader (bytes "Connection") (bytes "close")

def handleGetParameter : Response :=
  {(ok req).setHeader (bytes "Content-Type") (bytes "text/parameters") with
    body := if (Bytes.find (bytes "volume") req.body).isSome then bytes "volume: 0.000000\r\n"
      else []}

def handleUnimplemented (what : Bytes) : Response :=
  {(copyCseq req (make 501 (bytes "Not Implemented"))).setHeader (bytes "Content-Type")
      (bytes "text/plain") with
    body := bytes "TODO: " ++ what ++ bytes " not implemented in skeleton\n"}

def handleReverse : Response :=
  let r := ((copyCseq req {statusCode := 101, statusText := bytes "Switching Protocols"
                           version := bytes "HTTP/1.1"}).setHeader
    (bytes "Upgrade") (bytes "PTTH/1.0")).setHeader (bytes "Connection") (bytes "Upgrade")
  let sid := req.header (bytes "x-apple-session-id")
  if sid ≠ [] then r.setHeader (bytes "X-Apple-Session-ID") sid else r

def handleServerInfo : Response :=
  {ok req with body := o.serverInfo}.setHeader (bytes "Content-Type")
    (bytes "text/x-apple-plist+xml")

def handlePlaybackInfo : Response :=
  {(ok req).setHeader (bytes "Content-Type") (bytes "text/x-apple-plist+xml") with
    body := o.playbackInfo}

/-- The query of a URI, without one `&` at its end. -/
def property (uri : Bytes) : Bytes :=
  match Bytes.find (bytes "?") uri with
  | none => []
  | some q =>
    let prop := uri.drop (q + 1)
    if prop.getLast? = some 38 then prop.dropLast else prop

def handleGetProperty : Response :=
  let sid := req.header (bytes "x-apple-session-id")
  let prop := property req.uri
  if sid ≠ [] ∧ prop ≠ [] then
    match o.props sid prop with
    | none => ok req
    | some body =>
      if (bytes "bplist00").isPrefixOf body then
        {ok req with body}.setHeader (bytes "Content-Type")
          (bytes "application/x-apple-binary-plist")
      else {ok req with body}
  else ok req

end Handlers

/-! ### Dispatch -/

/-- The URI without its query. -/
def pathOf (uri : Bytes) : Bytes :=
  match Bytes.find (bytes "?") uri with
  | none => uri
  | some q => uri.take q

def Request.uses (req : Request) (method : String) : Bool := req.method == bytes method

def Request.hits (req : Request) (method path : String) : Bool :=
  req.uses method && pathOf req.uri == bytes path

/-- `dispatch`, behind its filter of replies. -/
def route (o : Backend) (req : Request) : Response :=
  if req.hits "GET" "/info" then handleInfo o req
  else if req.hits "POST" "/pair-setup" then handlePairSetup o req
  else if req.hits "POST" "/pair-verify" then handlePairVerify o req
  else if req.hits "POST" "/fp-setup" then handleFpSetup o req
  else if req.hits "POST" "/auth-setup" then handleUnimplemented req (bytes "auth-setup")
  else if req.hits "POST" "/feedback" then ok req
  else if req.uses "OPTIONS" then
    (ok req).setHeader (bytes "Public")
      (bytes "ANNOUNCE, SETUP, RECORD, PAUSE, FLUSH, TEARDOWN, OPTIONS, " ++
        bytes "GET_PARAMETER, SET_PARAMETER, POST, GET")
  else if req.uses "ANNOUNCE" then handleAnnounce o req
  else if req.uses "SETUP" then handleSetup o req
  else if req.uses "RECORD" then handleRecord o req
  else if req.uses "TEARDOWN" then handleTeardown req
  else if req.uses "GET_PARAMETER" then handleGetParameter req
  else if req.uses "SET_PARAMETER" then ok req
  else if req.uses "FLUSH" ∨ req.uses "PAUSE" then ok req
  else if req.hits "POST" "/rate" then ok req
  else if req.hits "POST" "/reverse" then handleReverse req
  else if req.hits "GET" "/server-info" then handleServerInfo o req
  else if req.hits "POST" "/audioMode" then ok req
  else if req.hits "POST" "/play" then ok req
  else if req.hits "POST" "/action" then ok req
  else if req.hits "POST" "/stop" then ok req
  else if req.hits "POST" "/scrub" ∨ req.hits "GET" "/scrub" then ok req
  else if req.hits "POST" "/setProperty" ∨ req.hits "PUT" "/setProperty" then ok req
  else if req.hits "POST" "/getProperty" ∨ req.hits "PUT" "/getProperty" then
    handleGetProperty o req
  else if req.hits "GET" "/playback-info" then handlePlaybackInfo o req
  else if req.hits "POST" "/command" then ok req
  else handleUnimplemented req (bytes "unknown route")

/-! ### Every response is proper -/

/-- No header value has a CRLF. -/
def Request.Clean (req : Request) : Prop :=
  ∀ key value, req.headers key = some value → ¬ Bytes.crlf <:+: value

theorem Request.Clean.header {req : Request} (h : req.Clean) (key : Bytes) :
    ¬ Bytes.crlf <:+: req.header key := by
  rw [Request.header]
  cases hvalue : req.headers (toLower key) with
  | none => decide
  | some value => exact h _ value hvalue

/-- The `CSeq` that a response is to carry. -/
def Request.cseq (req : Request) : Option Bytes :=
  if req.header (bytes "cseq") = [] then none else some (req.header (bytes "cseq"))

/-- A response that is sent, reads as one, and carries the `CSeq` of its request. -/
structure Proper (req : Request) (r : Response) : Prop where
  clean : r.Clean
  keys : ∃ order, r.Keys order
  spoken : r.silent = false
  cseq : r.headers (bytes "CSeq") = req.cseq

/-- A header of a name that may be given. -/
structure IsName (key : Bytes) : Prop where
  plain : 13 ∉ key ∧ 58 ∉ key
  length : key ≠ bytes "Content-Length"
  cseq : key ≠ bytes "CSeq"

instance (key : Bytes) : Decidable (IsName key) :=
  decidable_of_iff ((13 ∉ key ∧ 58 ∉ key) ∧ key ≠ bytes "Content-Length" ∧ key ≠ bytes "CSeq")
    ⟨fun h => ⟨h.1, h.2.1, h.2.2⟩, fun h => ⟨h.plain, h.length, h.cseq⟩⟩

theorem keys_setHeader {r : Response} (h : ∃ order, r.Keys order) (key value : Bytes) :
    ∃ order, (r.setHeader key value).Keys order := by
  obtain ⟨order, hnodup, hmem⟩ := h
  refine ⟨key :: order.erase key, ?_, fun key' => ?_⟩
  · exact List.nodup_cons.mpr ⟨fun hin => absurd rfl (hnodup.mem_erase_iff.mp hin).1,
      hnodup.erase key⟩
  · rw [List.mem_cons, hnodup.mem_erase_iff, hmem]
    simp only [Response.setHeader]
    by_cases hkey : key' = key
    · rw [hkey, Function.update_self]
      exact iff_of_true (.inl rfl) rfl
    · rw [Function.update_of_ne hkey]
      exact ⟨fun h => h.elim (absurd · hkey) (·.2), fun h => .inr ⟨hkey, h⟩⟩

theorem keys_none {r : Response} (hnone : r.headers = fun _ => none) : ∃ order, r.Keys order :=
  ⟨[], List.nodup_nil, fun key => by rw [hnone]; exact iff_of_false List.not_mem_nil (by simp)⟩

namespace Proper
variable {req : Request} {r : Response}

theorem copyCseq (hreq : req.Clean) {r : Response} (hnone : r.headers = fun _ => none)
    (hspoken : r.silent = false) (hversion : 32 ∉ r.version ∧ 13 ∉ r.version)
    (htext : ¬ Bytes.crlf <:+: r.statusText) : Proper req (copyCseq req r) := by
  rw [Rtsp.copyCseq]
  split
  · rename_i hne
    have hheaders : ∀ key value,
        Function.update r.headers (bytes "CSeq") (some (req.header (bytes "cseq"))) key =
          some value → key = bytes "CSeq" ∧ value = req.header (bytes "cseq") := by
      intro key value hvalue
      by_cases hkey : key = bytes "CSeq"
      · subst hkey
        rw [Function.update_self] at hvalue
        exact ⟨rfl, (Option.some.inj hvalue).symm⟩
      · rw [Function.update_of_ne hkey, hnone] at hvalue
        exact absurd hvalue (Option.some_ne_none _).symm
    refine ⟨⟨hversion, htext, fun key value hvalue => ?_, fun key value hvalue => ?_⟩,
      keys_setHeader (keys_none hnone) _ _, hspoken, ?_⟩
    · rw [(hheaders key value hvalue).1]
      decide
    · rw [(hheaders key value hvalue).2]
      exact hreq.header _
    · simp only [Response.setHeader, Function.update_self]
      rw [Request.cseq, if_neg hne]
  · rename_i hnil
    refine ⟨⟨hversion, htext, fun key value hvalue => ?_, fun key value hvalue => ?_⟩,
      keys_none hnone, hspoken, ?_⟩
    · rw [hnone] at hvalue
      exact absurd hvalue (Option.some_ne_none _).symm
    · rw [hnone] at hvalue
      exact absurd hvalue (Option.some_ne_none _).symm
    · rw [hnone, Request.cseq, if_pos (not_not.mp hnil)]

theorem setHeader (h : Proper req r) {key value : Bytes} (hkey : IsName key)
    (hvalue : ¬ Bytes.crlf <:+: value) : Proper req (r.setHeader key value) := by
  have hheaders : ∀ key' value', Function.update r.headers key (some value) key' = some value' →
      key' = key ∧ value' = value ∨ r.headers key' = some value' := by
    intro key' value' hsome
    by_cases hsame : key' = key
    · subst hsame
      rw [Function.update_self] at hsome
      exact Or.inl ⟨rfl, (Option.some.inj hsome).symm⟩
    · rw [Function.update_of_ne hsame] at hsome
      exact Or.inr hsome
  refine ⟨⟨h.clean.version, h.clean.text, fun key' value' hsome => ?_,
    fun key' value' hsome => ?_⟩, keys_setHeader h.keys _ _, h.spoken, ?_⟩
  · rcases hheaders key' value' hsome with ⟨rfl, -⟩ | hold
    · exact ⟨hkey.plain.1, hkey.plain.2, hkey.length⟩
    · exact h.clean.keys key' value' hold
  · rcases hheaders key' value' hsome with ⟨-, rfl⟩ | hold
    · exact hvalue
    · exact h.clean.values key' value' hold
  · show Function.update r.headers key _ (bytes "CSeq") = _
    rw [Function.update_of_ne hkey.cseq.symm]
    exact h.cseq

theorem withBody (h : Proper req r) (body : Bytes) : Proper req {r with body} :=
  ⟨⟨h.clean.version, h.clean.text, h.clean.keys, h.clean.values⟩, h.keys, h.spoken, h.cseq⟩

theorem failWith (h : Proper req r) (code : Int) {text : Bytes} (htext : ¬ Bytes.crlf <:+: text) :
    Proper req (r.failWith code text) :=
  ⟨⟨h.clean.version, htext, h.clean.keys, h.clean.values⟩, h.keys, h.spoken, h.cseq⟩

theorem ite {c : Prop} [Decidable c] {r' : Response} (h : Proper req r) (h' : Proper req r') :
    Proper req (if c then r else r') := by
  split
  · exact h
  · exact h'

end Proper

section Handlers
variable {o : Backend} {req : Request}

theorem decimal_crlf (n : Nat) : ¬ Bytes.crlf <:+: Bytes.decimal n :=
  not_crlf_of_not_mem (not_mem_decimal (by decide) n)

theorem ok_proper (h : req.Clean) : Proper req (ok req) :=
  .copyCseq h rfl rfl (by decide) (by decide)

theorem octets_proper (h : req.Clean) : Proper req (octets req) :=
  (ok_proper h).setHeader (by decide) (by decide)

theorem handleInfo_proper (h : req.Clean) : Proper req (handleInfo o req) :=
  .ite (((ok_proper h).setHeader (by decide) (by decide)).withBody _)
    (((ok_proper h).setHeader (by decide) (by decide)).withBody _)

theorem handlePairSetup_proper (h : req.Clean) : Proper req (handlePairSetup o req) :=
  .ite ((octets_proper h).failWith _ (by decide)) ((octets_proper h).withBody _)

theorem handlePairVerify_proper (h : req.Clean) : Proper req (handlePairVerify o req) := by
  rw [handlePairVerify]
  split
  · split
    · split
      · exact (octets_proper h).failWith _ (by decide)
      · exact (octets_proper h).withBody _
    · exact .ite (octets_proper h) ((octets_proper h).failWith _ (by decide))
  · exact (octets_proper h).failWith _ (by decide)

theorem handleFpSetup_proper (h : req.Clean) : Proper req (handleFpSetup o req) := by
  rw [handleFpSetup]
  split
  · exact (octets_proper h).failWith _ (by decide)
  · exact (octets_proper h).withBody _

theorem handleAnnounce_proper (h : req.Clean) : Proper req (handleAnnounce o req) :=
  .ite (ok_proper h) ((ok_proper h).failWith _ (by decide))

theorem sessionId_crlf (o : Backend) : ¬ Bytes.crlf <:+: o.sessionId := decimal_crlf _

theorem setupLegacyPath_proper (h : req.Clean) : Proper req (setupLegacyPath o req) := by
  rw [setupLegacyPath]
  split
  · exact (ok_proper h).failWith _ (by decide)
  · refine ((ok_proper h).setHeader (by decide) (not_crlf_of_not_mem ?_)).setHeader (by decide)
      (sessionId_crlf o)
    have hport (n : Nat) {name : Bytes} (hname : 13 ∉ name) :
        13 ∉ if n ≠ 0 then name ++ Bytes.decimal n else [] := by
      split
      · exact List.not_mem_append hname (not_mem_decimal (by decide) n)
      · exact List.not_mem_nil
    refine List.not_mem_append (by decide) (List.not_mem_append
      (List.not_mem_append (by decide) (not_mem_decimal (by decide) _))
      (List.not_mem_append (hport _ (by decide)) (hport _ (by decide))))

theorem setupAirplay2Path_proper (h : req.Clean) : Proper req (setupAirplay2Path o req) := by
  have hr : Proper req ((ok req).setHeader (bytes "Content-Type")
    (bytes "application/x-apple-binary-plist")) := (ok_proper h).setHeader (by decide) (by decide)
  rw [setupAirplay2Path]
  split
  · exact hr.failWith _ (by decide)
  · exact (hr.failWith _ (by decide)).setHeader (by decide) (by decide)
  · exact hr.failWith _ (by decide)
  · exact (hr.withBody _).setHeader (by decide) (sessionId_crlf o)

theorem handleSetup_proper (h : req.Clean) : Proper req (handleSetup o req) :=
  .ite (setupAirplay2Path_proper h)
    (.ite (.copyCseq h rfl rfl (by decide) (by decide)) (setupLegacyPath_proper h))

theorem handleRecord_proper (h : req.Clean) : Proper req (handleRecord o req) := by
  rw [handleRecord]
  split
  · exact (ok_proper h).failWith _ (by decide)
  · exact (ok_proper h).setHeader (by decide) (sessionId_crlf o)

theorem handleUnimplemented_proper (h : req.Clean) (what : Bytes) :
    Proper req (handleUnimplemented req what) :=
  ((Proper.copyCseq h rfl rfl (by decide) (by decide)).setHeader (by decide)
    (by decide)).withBody _

theorem handleReverse_proper (h : req.Clean) : Proper req (handleReverse req) := by
  have hr : Proper req (((copyCseq req {statusCode := 101, statusText := bytes "Switching Protocols"
                                        version := bytes "HTTP/1.1"}).setHeader
      (bytes "Upgrade") (bytes "PTTH/1.0")).setHeader (bytes "Connection") (bytes "Upgrade")) :=
    ((Proper.copyCseq h rfl rfl (by decide) (by decide)).setHeader (by decide)
      (by decide)).setHeader (by decide) (by decide)
  exact .ite (hr.setHeader (by decide) (h.header _)) hr

theorem handleGetProperty_proper (h : req.Clean) : Proper req (handleGetProperty o req) := by
  rw [handleGetProperty]
  dsimp only
  split
  · split
    · exact ok_proper h
    · exact .ite (((ok_proper h).withBody _).setHeader (by decide) (by decide))
        ((ok_proper h).withBody _)
  · exact ok_proper h

/-- Whatever the route and whatever the rest of the program says. -/
theorem route_proper (o : Backend) (h : req.Clean) : Proper req (route o req) :=
  have hok := ok_proper h
  .ite (handleInfo_proper h) <| .ite (handlePairSetup_proper h) <|
  .ite (handlePairVerify_proper h) <| .ite (handleFpSetup_proper h) <|
  .ite (handleUnimplemented_proper h _) <| .ite hok <|
  .ite (hok.setHeader (by decide) (by decide +kernel)) <| .ite (handleAnnounce_proper h) <|
  .ite (handleSetup_proper h) <| .ite (handleRecord_proper h) <|
  .ite (hok.setHeader (by decide) (by decide)) <|
  .ite ((hok.setHeader (by decide) (by decide)).withBody _) <| .ite hok <| .ite hok <| .ite hok <|
  .ite (handleReverse_proper h) <|
  .ite ((hok.withBody _).setHeader (by decide) (by decide)) <| .ite hok <| .ite hok <| .ite hok <|
  .ite hok <| .ite hok <| .ite hok <| .ite (handleGetProperty_proper h) <|
  .ite ((hok.setHeader (by decide) (by decide)).withBody _) <| .ite hok <|
  handleUnimplemented_proper h _

end Handlers

/-! ### What is read has no CRLF -/

theorem trim_isInfix (v : Bytes) : trim v <:+: v :=
  (List.rdropWhile_prefix _ _).isInfix.trans (List.dropWhile_suffix _).isInfix

theorem addHeader_clean {line : Bytes} (hline : ¬ Bytes.crlf <:+: line)
    {headers : Bytes → Option Bytes}
    (h : ∀ key value, headers key = some value → ¬ Bytes.crlf <:+: value) (key value : Bytes)
    (hvalue : addHeader line headers key = some value) : ¬ Bytes.crlf <:+: value := by
  rw [addHeader] at hvalue
  cases hfind : Bytes.find (bytes ":") line with
  | none =>
    rw [hfind] at hvalue
    exact h key value hvalue
  | some colon =>
    rw [hfind] at hvalue
    dsimp only at hvalue
    by_cases hkey : key = toLower (trim (line.take colon))
    · rw [hkey, Function.update_self] at hvalue
      rw [← Option.some.inj hvalue]
      exact fun hin => hline (hin.trans ((trim_isInfix _).trans (List.drop_suffix _ _).isInfix))
    · rw [Function.update_of_ne hkey] at hvalue
      exact h key value hvalue

theorem headerLoop_clean (room : Nat) (rest : Bytes) {headers : Bytes → Option Bytes}
    (h : ∀ key value, headers key = some value → ¬ Bytes.crlf <:+: value) (key value : Bytes)
    (hvalue : headerLoop room rest headers key = some value) : ¬ Bytes.crlf <:+: value := by
  fun_induction headerLoop room rest headers with
  | case1 => exact h key value hvalue
  | case2 => exact h key value hvalue
  | case3 => exact h key value hvalue
  | case4 => exact h key value hvalue
  | case5 room rest headers hroom line rest' hcut hlong hne ih =>
    exact ih (addHeader_clean (not_crlf_of_cut hcut) h) hvalue

theorem parseHead_clean {buffer : Bytes} {bodyOffset : Nat} {req : Request}
    (h : parseHead buffer bodyOffset = some req) : req.Clean := by
  rw [parseHead] at h
  obtain ⟨⟨method, s⟩, -, h⟩ := Option.bind_eq_some_iff.mp h
  obtain ⟨⟨uri, s'⟩, -, h⟩ := Option.bind_eq_some_iff.mp h
  obtain ⟨⟨version, -⟩, -, rfl⟩ := Option.map_eq_some_iff.mp h
  exact headerLoop_clean _ _ fun key value hvalue => absurd hvalue (Option.some_ne_none _).symm

theorem read_clean {model : DataModel} {r : RequestReader} {req : Request}
    (h : (read model false r).1 = .request req) : req.Clean := by
  have hopen : (read model false r).1 ≠ .closed := by
    rw [h]
    exact Outcome.noConfusion
  obtain ⟨-, req', bodyOffset, filled, hheaders, -, hread⟩ := read_open hopen
  have hparsed : req'.Clean := by
    rw [readHeaders] at hheaders
    cases hfound : findHead r.buffer r.incoming with
    | mk found r' =>
      rw [hfound] at hheaders
      cases found with
      | none => exact absurd hheaders (Option.some_ne_none _).symm
      | some off =>
        obtain ⟨req'', hparse, heq⟩ := Option.map_eq_some_iff.mp hheaders
        rw [← (Prod.mk.inj heq).1]
        exact parseHead_clean hparse
  rw [hread] at h
  split at h
  · rw [← Outcome.request.inj h]
    exact hparsed
  · exact absurd h Outcome.noConfusion

/-! ### A connection -/

section Connection
variable {σ : Type} (model : DataModel) (backend : σ → Request → σ × Backend)

/-- The handlers, behind which the rest of the program changes as it will. -/
def handle (s : σ) (req : Request) : σ × Response :=
  ((backend s req).1, route (backend s req).2 req)

/-- Not a reply of the peer's. -/
def Request.ordinary (req : Request) : Bool := !(bytes "HTTP/").isPrefixOf req.method

/-- The requests that at most `k` reads bring, up to the first that brings none. -/
def readAll : Nat → RequestReader → List Request
  | 0, _ => []
  | k + 1, r =>
    match read model false r with
    | (.request req, r) => req :: readAll k r
    | _ => []

variable {model backend}

theorem turns_dead {c : Connection σ} (halive : c.alive = false) (k : Nat) :
    (turn model (handle backend))^[k] c = c := by
  refine Function.iterate_fixed ?_ k
  rw [turn, halive, if_neg Bool.false_ne_true]

/-- A connection answers what it reads. -/
theorem turns_eq (k : Nat) {c : Connection σ} (halive : c.alive = true) :
    (((turn model (handle backend))^[k] c).session, ((turn model (handle backend))^[k] c).sent) =
      (readAll model k c.reader).foldl (answer (dispatch (handle backend)))
        (c.session, c.sent) := by
  induction k generalizing c with
  | zero => rfl
  | succ k ih =>
    rw [Function.iterate_succ_apply, readAll]
    cases hread : read model false c.reader with
    | mk outcome reader =>
      cases outcome with
      | request req =>
        rw [turn_request halive hread]
        exact ih halive
      | closed =>
        rw [turn, if_pos halive, hread, turns_dead rfl]
        rfl
      | overrun =>
        rw [turn, if_pos halive, hread, turns_dead rfl]
        rfl

theorem readAll_clean (k : Nat) (r : RequestReader) : ∀ req ∈ readAll model k r, req.Clean := by
  induction k generalizing r with
  | zero => exact fun req hreq => absurd hreq List.not_mem_nil
  | succ k ih =>
    rw [readAll]
    cases hread : read model false r with
    | mk outcome reader =>
      cases outcome with
      | request req =>
        exact List.forall_mem_cons.mpr ⟨read_clean (congrArg Prod.fst hread), ih reader⟩
      | closed => exact fun req hreq => absurd hreq List.not_mem_nil
      | overrun => exact fun req hreq => absurd hreq List.not_mem_nil

/-- One proper response is added for each request that is not a reply. -/
theorem answers_proper {reqs : List Request} (hclean : ∀ req ∈ reqs, req.Clean)
    (s : σ × List Response) :
    ∃ new, (reqs.foldl (answer (dispatch (handle backend))) s).2 = s.2 ++ new ∧
      List.Forall₂ Proper (reqs.filter Request.ordinary) new := by
  induction reqs generalizing s with
  | nil => exact ⟨[], (List.append_nil _).symm, .nil⟩
  | cons req reqs ih =>
    obtain ⟨hreq, hreqs⟩ := List.forall_mem_cons.mp hclean
    obtain ⟨new, hsent, hproper⟩ := ih hreqs (answer (dispatch (handle backend)) s req)
    rw [List.foldl_cons, hsent, answer, dispatch]
    cases hreply : (bytes "HTTP/").isPrefixOf req.method with
    | true =>
      refine ⟨new, rfl, ?_⟩
      rwa [List.filter_cons_of_neg (by rw [Request.ordinary, hreply]; exact Bool.false_ne_true)]
    | false =>
      have hres := route_proper (backend s.1 req).2 hreq
      have hspoken : (handle backend s.1 req).2.silent = false := hres.spoken
      refine ⟨(handle backend s.1 req).2 :: new, ?_, ?_⟩
      · simp only [Bool.false_eq_true, if_false, hspoken]
        rw [List.append_assoc]
        rfl
      · rw [List.filter_cons_of_pos (by rw [Request.ordinary, hreply]; rfl)]
        exact .cons hres hproper

end Connection

theorem exists_wires {reqs : List Request} {ress : List Response}
    (h : List.Forall₂ Proper reqs ress) : ∃ wires, List.Forall₂ Response.Serialized ress wires := by
  induction h with
  | nil => exact ⟨[], .nil⟩
  | cons hr _ ih =>
    obtain ⟨order, hkeys⟩ := hr.keys
    obtain ⟨wires, hwires⟩ := ih
    exact ⟨_, .cons ⟨order, hkeys, rfl⟩ hwires⟩

theorem proper_clean {reqs : List Request} {ress : List Response}
    (h : List.Forall₂ Proper reqs ress) : ∀ r ∈ ress, r.Clean := by
  induction h with
  | nil => exact fun r hr => absurd hr List.not_mem_nil
  | cons hr _ ih => exact List.forall_mem_cons.mpr ⟨hr.clean, ih⟩

end AirPlay.Rtsp
