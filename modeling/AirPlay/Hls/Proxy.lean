import AirPlay.Library.Chunked
import AirPlay.Library.Head
import AirPlay.Hls.LocalServer
import AirPlay.Hls.Master
import AirPlay.Hls.Session
import AirPlay.Rtsp.Serialize

/-! What the local HLS server answers.

Playlists come from the registry or by FCUP, other paths are fetched by FCUP, and the paths
under `/seg/` are a proxy in front of the CDN, with the player's byte range passed on. Each
answer reads as one response, unless a redirect's URL breaks the line it is written on or
the proxy announced another length than came (`answered_iff`); a range that the player asks
for is the one that is opened upstream, and is delivered as it came
(`range_delivered_iff`). -/
namespace AirPlay.Hls
open Bytes Rtsp

/-! ### The proxy -/

/-- An open `AVIOContext`: the size it knows, if it is positive, and what `avio_read`
returns up to its first result that is not positive. -/
structure Upstream where
  size : Int
  reads : List Bytes
  read_nonempty : ∀ data ∈ reads, data ≠ []

/-- `std::stoll`; nothing where it throws. -/
def stoll (s : Bytes) : Option Int :=
  (number s).filter fun n => decide (-2 ^ 63 ≤ n ∧ n < 2 ^ 63)

/-- What stands between the `=` and the end of a `Range` line. -/
def rangeValue (headers : Bytes) : Option Bytes := do
  let rp ← find (crlf ++ bytes "range:") (toLower headers)
  let eq ← findFrom [61] headers rp
  let eol ← findFrom crlf headers (rp + 2)
  if eq < eol then some ((headers.drop (eq + 1)).take (eol - eq - 1)) else none

/-- `range_start` and `range_end`. The end is not read when reading the start throws. -/
def parseRange (headers : Bytes) : Int × Int :=
  match (rangeValue headers).bind (cut [45]) with
  | none => (-1, -1)
  | some (first, last) =>
    let finish := if last = [] then -1 else (stoll last).getD (-1)
    if first = [] then (-1, finish)
    else match stoll first with
      | none => (-1, -1)
      | some start => (start, finish)

/-! ### Answers -/

/-- What `handle_client` answers, but for the header lines. -/
inductive Reply where
  | badRequest
  | notFound
  | badGateway
  | gatewayTimeout
  | playlist (body : Bytes)
  | segment (body : Bytes)
  | redirected (redirect : Bytes)
  | proxied (rangeStart rangeEnd : Int) (upstream : Upstream)

namespace Reply

def statusCode : Reply → Nat
  | badRequest => 400
  | notFound => 404
  | badGateway => 502
  | gatewayTimeout => 504
  | playlist _ => 200
  | segment _ => 200
  | redirected _ => 302
  | proxied rangeStart _ _ => if 0 ≤ rangeStart then 206 else 200

def statusText : Reply → Bytes
  | badRequest => bytes "Bad Request"
  | notFound => bytes "Not Found"
  | badGateway => bytes "Bad Gateway"
  | gatewayTimeout => bytes "Gateway Timeout"
  | playlist _ => bytes "OK"
  | segment _ => bytes "OK"
  | redirected _ => bytes "Found"
  | proxied rangeStart _ _ => if 0 ≤ rangeStart then bytes "Partial Content" else bytes "OK"

def body : Reply → Bytes
  | playlist body => body
  | segment body => body
  | proxied _ _ upstream => upstream.reads.flatten
  | _ => []

end Reply

def octetStream : Bytes := bytes "application/octet-stream"

/-- The last byte that is to come, as far as it is known. -/
def effectiveEnd (rangeStart rangeEnd size : Int) : Int :=
  if 0 ≤ rangeEnd then rangeEnd else if 0 < size then rangeStart + size - 1 else -1

def contentRange (rangeStart rangeEnd size : Int) : List (Bytes × Bytes) :=
  let last := effectiveEnd rangeStart rangeEnd size
  if 0 ≤ last then
    [(bytes "Content-Range",
      bytes "bytes " ++ (signed rangeStart ++ (bytes "-" ++ (signed last ++ bytes "/*"))))]
  else []

/-- How the receiver is to find the end of what the proxy sends. -/
def framing (size : Int) : Bytes × Bytes :=
  if 0 < size then (bytes "Content-Length", signed size)
  else (bytes "Transfer-Encoding", bytes "chunked")

/-- The fields that `send_response` writes. -/
def sentFields (body contentType : Bytes) : List (Bytes × Bytes) :=
  [(bytes "Content-Type", contentType), (bytes "Content-Length", decimal body.length),
    (bytes "Connection", bytes "close")]

def Reply.fields : Reply → List (Bytes × Bytes)
  | playlist body => sentFields body (bytes "application/vnd.apple.mpegurl")
  | segment body => sentFields body octetStream
  | redirected redirect =>
    [(bytes "Location", redirect), (bytes "Content-Length", bytes "0"),
      (bytes "Connection", bytes "close")]
  | proxied rangeStart rangeEnd upstream =>
    (bytes "Content-Type", octetStream) ::
      (if 0 ≤ rangeStart then contentRange rangeStart rangeEnd upstream.size else []) ++
      [(bytes "Accept-Ranges", bytes "bytes"), framing upstream.size,
        (bytes "Connection", bytes "close")]
  | _ => sentFields [] (bytes "text/plain")

def httpVersion : Bytes := bytes "HTTP/1.1"

/-- A status line, a line for each field, and the empty line. -/
def head (code : Nat) (text : Bytes) (fields : List (Bytes × Bytes)) : Bytes :=
  unlines ((httpVersion ++ (bytes " " ++ (decimal code ++ (bytes " " ++ text)))) ::
    fields.map fun f => headerLine f.1 f.2) ++ crlf

/-- What is sent behind the head. -/
def Reply.payload : Reply → Bytes
  | proxied _ _ upstream =>
    if 0 < upstream.size then upstream.reads.flatten else chunked upstream.reads
  | reply => reply.body

/-- What is sent. -/
def Reply.wire (reply : Reply) : Bytes :=
  head reply.statusCode reply.statusText reply.fields ++ reply.payload

/-! ### The handler -/

/-- What a request meets: the registry, what `fetch_playlist` (afresh or not) and
`fetch_segment` bring from iOS, and what `avio_open2` makes of a URL, an offset and an end
offset. -/
structure Backend where
  port : Nat
  registry : HlsSessionRegistry
  order : List Bytes
  fetchPlaylist : Bytes → Bool → Option Bytes
  fetchSegment : Bytes → Option (Bytes × Bytes)
  avioOpen : Bytes → Option Int → Option Int → Option Upstream

namespace Backend

def servePlaylist (b : Backend) (mlhlsUrl : Bytes) : Reply :=
  match b.registry.lookupPlaylist b.order mlhlsUrl with
  | none =>
    match b.fetchPlaylist mlhlsUrl false with
    | none => .gatewayTimeout
    | some body => .playlist (rewriteUrls b.port body)
  | some (body, true) => .playlist (filterMasterToSingleVariant (rewriteUrls b.port body))
  | some (body, false) =>
    -- A playlist that is not final is asked for again, and served as it was if that fails.
    if find (bytes "#EXT-X-ENDLIST") body = none then
      .playlist (rewriteUrls b.port ((b.fetchPlaylist mlhlsUrl true).getD body))
    else .playlist (rewriteUrls b.port body)

def serveSegment (b : Backend) (mlhlsUrl : Bytes) : Reply :=
  match b.fetchSegment mlhlsUrl with
  | none => .gatewayTimeout
  | some (seg, redirect) => if redirect ≠ [] then .redirected redirect else .segment seg

def serveProxied (b : Backend) (headers path : Bytes) : Reply :=
  let cdnUrl := (b.registry.resolveSegmentPath b.order path).getD []
  if cdnUrl = [] then .notFound
  else
    let (rangeStart, rangeEnd) := parseRange headers
    let offset := if 0 ≤ rangeStart then some rangeStart else none
    let endOffset := if 0 ≤ rangeStart ∧ 0 ≤ rangeEnd then some (rangeEnd + 1) else none
    match b.avioOpen cdnUrl offset endOffset with
    | none => .badGateway
    | some upstream => .proxied rangeStart rangeEnd upstream

/-- `handle_client`, from the bytes of the connection to what is sent. -/
def answer (b : Backend) (stream : Bytes) : Reply :=
  match handleClient stream with
  | .badRequest => .badRequest
  | .segmentProxy path => b.serveProxied (readHeaders 8192 [] stream) path
  | .playlist url => b.servePlaylist url
  | .segment url => b.serveSegment url

end Backend

/-! ### The player's side -/

/-- A body by the framing that its head announces, and what follows it. -/
def readBody (headers : Bytes → Option Bytes) (s : Bytes) : Option (Bytes × Bytes) :=
  if headers (bytes "Transfer-Encoding") = some (bytes "chunked") then readChunks (s.length + 1) s
  else do
    let length ← (headers (bytes "Content-Length")).bind number
    if s.length < length.toNat then none else some (s.take length.toNat, s.drop length.toNat)

def readHttp (s : Bytes) : Option (Received × Bytes) := do
  let (lines, rest) ← headLines s
  let (version, more) ← cut (bytes " ") (lines.headD [])
  let (code, statusText) ← cut (bytes " ") more
  let statusCode ← number code
  let headers := lines.tail.foldl readField fun _ => none
  let (body, rest) ← readBody headers rest
  some (⟨version, statusCode, statusText, headers, body⟩, rest)

/-- The whole connection is this response. -/
def Delivers (wire : Bytes) (r : Received) : Prop := readHttp wire = some (r, [])

/-- What is to be read for an answer. -/
def Reply.received (reply : Reply) : Received :=
  ⟨httpVersion, reply.statusCode, reply.statusText, named reply.fields, reply.body⟩

/-- A redirect stands on its line, and a length that is announced is the length that comes. -/
def Reply.Whole : Reply → Prop
  | redirected redirect => ¬ crlf <:+: redirect
  | proxied _ _ upstream =>
    upstream.size ≤ 0 ∨ upstream.size = (upstream.reads.flatten.length : Int)
  | _ => True

/-! ### Reading an answer -/

/-- Fields that are read back: no name ends early, none comes twice, and each value stands
on its line. -/
structure Clean (fields : List (Bytes × Bytes)) : Prop where
  names : ∀ f ∈ fields, 13 ∉ f.1 ∧ 58 ∉ f.1
  nodup : (fields.map Prod.fst).Nodup
  values : ∀ f ∈ fields, ¬ crlf <:+: f.2

/-- A head is read, and the body is up to its fields. -/
theorem readHttp_head {code : Nat} {text : Bytes} {fields : List (Bytes × Bytes)}
    (htext : ¬ crlf <:+: text) (hclean : Clean fields) (rest : Bytes) :
    readHttp (head code text fields ++ rest) = (readBody (named fields) rest).map fun p =>
      (⟨httpVersion, code, text, named fields, p.1⟩, p.2) := by
  have hcode {c : UInt8} (hc : isDigit c = false) : c ∉ decimal code := not_mem_decimal hc code
  have hstatus : IsLine (httpVersion ++ (bytes " " ++ (decimal code ++ (bytes " " ++ text)))) := by
    refine ⟨List.append_ne_nil_of_left_ne_nil (by decide) _, ?_⟩
    refine crlf_infix_append (by decide) (crlf_infix_append (by decide) (crlf_infix_append ?_
      (crlf_infix_append (by decide) htext)))
    exact hcode (by decide)
  have hlines : headLines (head code text fields ++ rest) =
      some ((httpVersion ++ (bytes " " ++ (decimal code ++ (bytes " " ++ text)))) ::
        fields.map (fun f => headerLine f.1 f.2), rest) := by
    rw [head, List.append_assoc]
    refine headLines_unlines (List.forall_mem_cons.mpr ⟨hstatus, fun line hline => ?_⟩) rest
    obtain ⟨f, hf, rfl⟩ := List.mem_map.mp hline
    exact headerLine_line (hclean.names f hf).1 (hclean.values f hf)
  have hversion : cut (bytes " ") (httpVersion ++ (bytes " " ++ (decimal code ++
      (bytes " " ++ text)))) = some (httpVersion, decimal code ++ (bytes " " ++ text)) :=
    cut_byte (by decide) _
  have hmore : cut (bytes " ") (decimal code ++ (bytes " " ++ text)) = some (decimal code, text) :=
    cut_byte (hcode (by decide)) _
  have hheaders : (fields.map fun f => headerLine f.1 f.2).foldl readField (fun _ => none) =
      named fields := by
    funext key
    rw [foldl_readField (fun f hf => (hclean.names f hf).2) hclean.nodup]
    cases named fields key with
    | none => rfl
    | some v => rfl
  simp only [readHttp, Option.bind_eq_bind, hlines, Option.bind_some, List.headD_cons, hversion,
    hmore, number_decimal, List.tail_cons, hheaders]
  cases readBody (named fields) rest with
  | none => rfl
  | some p => rfl

/-- A body whose length is announced. -/
theorem readBody_length {fields : List (Bytes × Bytes)} {n : Nat} (s : Bytes)
    (hchunked : named fields (bytes "Transfer-Encoding") = none)
    (hlength : named fields (bytes "Content-Length") = some (decimal n)) :
    readBody (named fields) s = if s.length < n then none else some (s.take n, s.drop n) := by
  rw [readBody, hchunked, if_neg (Option.some_ne_none _).symm, hlength]
  simp only [Option.bind_eq_bind, Option.bind_some, number_decimal, Int.toNat_natCast]

theorem readBody_whole {fields : List (Bytes × Bytes)} {n : Nat} (s : Bytes)
    (hchunked : named fields (bytes "Transfer-Encoding") = none)
    (hlength : named fields (bytes "Content-Length") = some (decimal n)) :
    readBody (named fields) s = some (s, []) ↔ n = s.length := by
  rw [readBody_length s hchunked hlength]
  constructor
  · intro h
    split at h
    · exact absurd h.symm (Option.some_ne_none _)
    · rename_i hle
      have hdrop := (Prod.mk.inj (Option.some.inj h)).2
      have hlen := List.drop_eq_nil_iff.mp hdrop
      omega
  · rintro rfl
    rw [if_neg (Nat.lt_irrefl _), List.take_length, List.drop_length]

/-- A body in pieces. -/
theorem readBody_chunked {fields : List (Bytes × Bytes)} (upstream : Upstream)
    (hchunked : named fields (bytes "Transfer-Encoding") = some (bytes "chunked")) :
    readBody (named fields) (chunked upstream.reads) = some (upstream.reads.flatten, []) := by
  have hfuel := Nat.lt_succ_of_lt (length_chunked upstream.reads)
  rw [readBody, hchunked, if_pos rfl]
  have hread := readChunks_chunked upstream.read_nonempty hfuel []
  rwa [List.append_nil] at hread

/-! ### Values that break their line -/

/-- No value that has been read holds a CRLF. -/
theorem not_crlf_of_delivers {wire : Bytes} {r : Received} (h : Delivers wire r) {key v : Bytes}
    (hv : r.headers key = some v) : ¬ crlf <:+: v := by
  simp only [Delivers, readHttp, Option.bind_eq_bind] at h
  obtain ⟨⟨lines, rest⟩, hlines, h⟩ := Option.bind_eq_some_iff.mp h
  obtain ⟨⟨version, more⟩, -, h⟩ := Option.bind_eq_some_iff.mp h
  obtain ⟨⟨code, text⟩, -, h⟩ := Option.bind_eq_some_iff.mp h
  obtain ⟨statusCode, -, h⟩ := Option.bind_eq_some_iff.mp h
  obtain ⟨⟨body, t⟩, -, h⟩ := Option.bind_eq_some_iff.mp h
  obtain ⟨rfl, -⟩ := Prod.mk.inj (Option.some.inj h)
  rcases foldl_readField_isInfix lines.tail _ hv with ⟨line, hline, hin⟩ | hnone
  · intro hcrlf
    exact not_crlf_of_headLines hlines line (List.mem_of_mem_tail hline) (hcrlf.trans hin)
  · exact absurd hnone.symm (Option.some_ne_none _)

/-! ### Every answer -/

theorem clean_of_names {fields : List (Bytes × Bytes)} {names : List Bytes}
    (hmap : fields.map Prod.fst = names) (hnames : ∀ name ∈ names, 13 ∉ name ∧ 58 ∉ name)
    (hnodup : names.Nodup) (hvalues : ∀ f ∈ fields, ¬ crlf <:+: f.2) : Clean fields where
  names := fun _ hf => hnames _ (hmap ▸ List.mem_map_of_mem hf)
  nodup := hmap ▸ hnodup
  values := hvalues

theorem not_crlf_signed (n : Int) : ¬ crlf <:+: signed n :=
  not_crlf_of_not_mem (not_mem_signed (by decide) (by decide) n)

theorem clean_sentFields {body contentType : Bytes} (htype : ¬ crlf <:+: contentType) :
    Clean (sentFields body contentType) := by
  have hdecimal := not_crlf_of_not_mem (@not_mem_decimal 13 (by decide) body.length)
  refine @clean_of_names _
    [bytes "Content-Type", bytes "Content-Length", bytes "Connection"]
    rfl (by decide) (by decide) ?_
  simp only [sentFields, List.forall_mem_cons]
  exact ⟨htype, hdecimal, by decide, List.forall_mem_nil _⟩

theorem not_crlf_ok : ¬ crlf <:+: bytes "OK" := by decide

/-- What `send_response` sends is read back. -/
theorem delivers_sent {code : Nat} {text : Bytes} (body : Bytes) {contentType : Bytes}
    (htext : ¬ crlf <:+: text) (htype : ¬ crlf <:+: contentType) :
    Delivers (head code text (sentFields body contentType) ++ body)
      ⟨httpVersion, code, text, named (sentFields body contentType), body⟩ := by
  have hbody := (@readBody_whole (sentFields body contentType) body.length body rfl rfl).mpr rfl
  rw [Delivers, readHttp_head htext (clean_sentFields htype), hbody]
  rfl

theorem delivers_redirected_iff (redirect : Bytes) :
    Delivers (Reply.redirected redirect).wire (Reply.redirected redirect).received ↔
      ¬ crlf <:+: redirect := by
  constructor
  · intro h
    exact @not_crlf_of_delivers _ _ h (bytes "Location") redirect rfl
  · intro h
    have hclean : Clean (Reply.redirected redirect).fields := by
      refine @clean_of_names _
        [bytes "Location", bytes "Content-Length", bytes "Connection"]
        rfl (by decide) (by decide) ?_
      simp only [Reply.fields, List.forall_mem_cons]
      exact ⟨h, by decide, by decide, List.forall_mem_nil _⟩
    have hbody : readBody (named (Reply.redirected redirect).fields) [] = some ([], []) :=
      (@readBody_whole _ 0 [] rfl rfl).mpr rfl
    rw [Delivers, Reply.wire]
    show readHttp (head 302 (bytes "Found") _ ++ []) = _
    rw [readHttp_head (by decide) hclean, hbody]
    rfl

section Proxied
variable (rangeStart rangeEnd : Int) (upstream : Upstream)

/-- The range is a line of its own, if it is there. -/
theorem contentRange_cases (size : Int) : contentRange rangeStart rangeEnd size = [] ∨
    ∃ v, ¬ crlf <:+: v ∧ contentRange rangeStart rangeEnd size = [(bytes "Content-Range", v)] := by
  have hsigned (n : Int) := @not_mem_signed 13 (by decide) (by decide) n
  rw [contentRange]
  split
  · refine .inr ⟨_, ?_, rfl⟩
    refine crlf_infix_append (by decide) (crlf_infix_append (hsigned _) (crlf_infix_append
      (by decide) (crlf_infix_append (hsigned _) (by decide))))
  · exact .inl rfl

theorem framing_cases (size : Int) :
    framing size = (bytes "Content-Length", signed size) ∧ 0 < size ∨
      framing size = (bytes "Transfer-Encoding", bytes "chunked") ∧ ¬ 0 < size := by
  rw [framing]
  split
  · rename_i hsize
    exact .inl ⟨rfl, hsize⟩
  · rename_i hsize
    exact .inr ⟨rfl, hsize⟩

theorem proxied_fields : ∃ range : List (Bytes × Bytes),
    (Reply.proxied rangeStart rangeEnd upstream).fields =
      (bytes "Content-Type", octetStream) :: range ++
        [(bytes "Accept-Ranges", bytes "bytes"), framing upstream.size,
          (bytes "Connection", bytes "close")] ∧
    (range = [] ∨ ∃ v, ¬ crlf <:+: v ∧ range = [(bytes "Content-Range", v)]) := by
  refine ⟨_, rfl, ?_⟩
  split
  · exact contentRange_cases rangeStart rangeEnd upstream.size
  · exact .inl rfl

theorem clean_proxied : Clean (Reply.proxied rangeStart rangeEnd upstream).fields := by
  obtain ⟨range, hfields, hrange⟩ := proxied_fields rangeStart rangeEnd upstream
  have hframing : ∃ name v, framing upstream.size = (name, v) ∧ ¬ crlf <:+: v ∧
      (name = bytes "Content-Length" ∨ name = bytes "Transfer-Encoding") := by
    rcases framing_cases upstream.size with ⟨h, -⟩ | ⟨h, -⟩
    · exact ⟨_, _, h, not_crlf_signed _, .inl rfl⟩
    · exact ⟨_, _, h, by decide, .inr rfl⟩
  obtain ⟨name, v, hframing, hv, hname⟩ := hframing
  rw [hfields, hframing]
  rcases hrange with rfl | ⟨w, hw, rfl⟩
  · refine @clean_of_names _ [bytes "Content-Type", bytes "Accept-Ranges", name,
      bytes "Connection"] rfl ?_ ?_ ?_
    · rcases hname with rfl | rfl
      · decide
      · decide
    · rcases hname with rfl | rfl
      · decide
      · decide
    · simp only [List.cons_append, List.nil_append, List.forall_mem_cons]
      exact ⟨by decide, by decide, hv, by decide, List.forall_mem_nil _⟩
  · refine @clean_of_names _ [bytes "Content-Type", bytes "Content-Range", bytes "Accept-Ranges",
      name, bytes "Connection"] rfl ?_ ?_ ?_
    · rcases hname with rfl | rfl
      · decide
      · decide
    · rcases hname with rfl | rfl
      · decide
      · decide
    · simp only [List.cons_append, List.nil_append, List.forall_mem_cons]
      exact ⟨by decide, hw, by decide, hv, by decide, List.forall_mem_nil _⟩

/-- A body behind a head that announces its length ends where it ends upstream exactly when
the lengths are the same; in pieces, it always does. -/
theorem readBody_proxied_iff :
    readBody (named (Reply.proxied rangeStart rangeEnd upstream).fields)
        (Reply.proxied rangeStart rangeEnd upstream).payload = some (upstream.reads.flatten, []) ↔
      upstream.size ≤ 0 ∨ upstream.size = (upstream.reads.flatten.length : Int) := by
  -- The other fields are not asked.
  have hnamed : ∀ key, key = bytes "Transfer-Encoding" ∨ key = bytes "Content-Length" →
      named (Reply.proxied rangeStart rangeEnd upstream).fields key =
        named [framing upstream.size] key := by
    obtain ⟨range, hfields, hrange⟩ := proxied_fields rangeStart rangeEnd upstream
    rw [hfields]
    rcases framing_cases upstream.size with ⟨hframing, -⟩ | ⟨hframing, -⟩
    all_goals
      rw [hframing]
      rcases hrange with rfl | ⟨v, -, rfl⟩
      all_goals
        rintro key (rfl | rfl)
        · rfl
        · rfl
  rw [Reply.payload]
  rcases framing_cases upstream.size with ⟨hframing, hsize⟩ | ⟨hframing, hsize⟩
  · obtain ⟨n, hn⟩ := Int.eq_ofNat_of_zero_le hsize.le
    rw [if_pos hsize, @readBody_whole _ n]
    · omega
    · rw [hnamed _ (.inl rfl), hframing]
      rfl
    · rw [hnamed _ (.inr rfl), hframing, hn, signed, if_neg (by omega)]
      rfl
  · rw [if_neg hsize, readBody_chunked upstream]
    · exact iff_of_true rfl (.inl (not_lt.mp hsize))
    · rw [hnamed _ (.inl rfl), hframing]
      rfl

/-- What is read with the body that came is what was to be read. -/
theorem delivers_proxied_iff (r : Received) (hbody : r.body = upstream.reads.flatten) :
    Delivers (Reply.proxied rangeStart rangeEnd upstream).wire r ↔
      r = (Reply.proxied rangeStart rangeEnd upstream).received ∧
        (upstream.size ≤ 0 ∨ upstream.size = (upstream.reads.flatten.length : Int)) := by
  have htext : ¬ crlf <:+: (Reply.proxied rangeStart rangeEnd upstream).statusText := by
    rw [Reply.statusText]
    split
    · decide
    · decide
  rw [← readBody_proxied_iff rangeStart rangeEnd upstream, Delivers, Reply.wire,
    readHttp_head htext (clean_proxied rangeStart rangeEnd upstream)]
  constructor
  · intro h
    obtain ⟨⟨body, rest⟩, hread, heq⟩ := Option.map_eq_some_iff.mp h
    obtain ⟨rfl, rfl⟩ := Prod.mk.inj heq
    obtain rfl : body = upstream.reads.flatten := hbody
    exact ⟨rfl, hread⟩
  · rintro ⟨rfl, hread⟩
    rw [hread]
    rfl

end Proxied

/-- A player's request for a part of a segment: the `Range` line in any spelling, and other
lines before and after it. -/
structure RangeRequest where
  name : Bytes
  rangeUnit : Bytes
  first : Nat
  last : Option Nat
  before : List Bytes
  after : List Bytes
  name_eq : toLower name = bytes "range:"
  rangeUnit_plain : 61 ∉ rangeUnit ∧ 13 ∉ rangeUnit
  first_lt : first < 2 ^ 63
  last_lt : ∀ n ∈ last, n + 1 < 2 ^ 63
  lines : ∀ line ∈ before ++ after, line ≠ [] ∧ 13 ∉ line
  others : ∀ line ∈ before, ¬ bytes "range:" <+: toLower line

namespace RangeRequest

/-- `<first>-<last>`. -/
def spec (q : RangeRequest) : Bytes := decimal q.first ++ 45 :: q.last.elim [] decimal

def line (q : RangeRequest) : Bytes := q.name ++ (q.rangeUnit ++ 61 :: q.spec)

/-- The lines of the request, and the empty one. -/
def head (q : RangeRequest) (path : Bytes) : Bytes :=
  unlines (requestLine path :: q.before ++ q.line :: q.after) ++ crlf

/-- The player has the part that it asked for. -/
def Served (q : RangeRequest) (upstream : Upstream) (wire : Bytes) : Prop :=
  ∃ r, Delivers wire r ∧ r.statusCode = 206 ∧ r.body = upstream.reads.flatten ∧
    ∀ last ∈ q.last, r.headers (bytes "Content-Range") =
      some (bytes "bytes " ++ (decimal q.first ++ (bytes "-" ++ (decimal last ++ bytes "/*"))))

end RangeRequest

theorem toLower_append (a b : Bytes) : toLower (a ++ b) = toLower a ++ toLower b := List.map_append

theorem toLower_unlines (lines : List Bytes) :
    toLower (unlines lines) = unlines (lines.map toLower) := by
  induction lines with
  | nil => rfl
  | cons line lines ih =>
    rw [List.map_cons, unlines_cons, unlines_cons, toLower_append, toLower_append, ih]
    rfl

theorem unlines_append (a b : List Bytes) : unlines (a ++ b) = unlines a ++ unlines b :=
  List.flatMap_append

/-- No letter becomes a CR. -/
theorem cr_of_mem_toLower {s : Bytes} (h : 13 ∈ toLower s) : 13 ∈ s := by
  obtain ⟨b, hb, heq⟩ := List.mem_map.mp h
  rw [lowerByte] at heq
  split at heq
  · rename_i hupper
    have hlow := UInt8.le_iff_toNat_le.mp hupper.1
    have hhigh := UInt8.le_iff_toNat_le.mp hupper.2
    have hvalue := congrArg UInt8.toNat heq
    simp only [UInt8.toNat_add, UInt8.reduceToNat] at hlow hhigh hvalue
    omega
  · rwa [← heq]

theorem mem_toLower_of_mem {c : UInt8} (hc : lowerByte c = c) {s : Bytes} (h : c ∈ s) :
    c ∈ toLower s :=
  List.mem_map.mpr ⟨c, h, hc⟩

/-- A line that does not begin like this does not do so with its CRLF either. -/
theorem not_prefix_line {pat line : Bytes} (hpat : 13 ∉ pat) (h : ¬ pat <+: line) (t : Bytes) :
    ¬ pat <+: line ++ (crlf ++ t) := by
  intro hprefix
  rcases Nat.lt_or_ge line.length pat.length with hlt | hle
  · have hcr : line ++ [13] <+: pat := by
      refine List.prefix_of_prefix_length_le ?_ hprefix ?_
      · exact (List.prefix_append_right_inj line).mpr ⟨10 :: t, rfl⟩
      · rw [List.length_append]
        exact hlt
    exact hpat (hcr.subset (List.mem_append_right _ (List.mem_singleton_self _)))
  · exact h (List.prefix_of_prefix_length_le hprefix (List.prefix_append _ _) hle)

/-- The end of the last line. -/
theorem exists_unlines (first : Bytes) (lines : List Bytes) :
    ∃ before, unlines (first :: lines) = before ++ crlf := by
  induction lines generalizing first with
  | nil => exact ⟨first, unlines_cons first []⟩
  | cons next lines ih =>
    obtain ⟨before, hbefore⟩ := ih next
    refine ⟨first ++ (crlf ++ before), ?_⟩
    rw [unlines_cons, hbefore, List.append_assoc, List.append_assoc]

/-- A name at the head of a line is found at the first line that begins with it. -/
theorem cut_name {pat : Bytes} (hpat : 13 ∉ pat) {first : Bytes} (hfirst : 13 ∉ first)
    {lines : List Bytes} (hlines : ∀ line ∈ lines, 13 ∉ line ∧ ¬ pat <+: line) (t : Bytes) :
    ∃ before, cut (crlf ++ pat) (unlines (first :: lines) ++ (pat ++ t)) = some (before, t) ∧
      before ++ crlf = unlines (first :: lines) := by
  have hskip {line u : Bytes} (hline : 13 ∉ line) :
      cut (crlf ++ pat) (line ++ (crlf ++ u)) =
        (cut (crlf ++ pat) (crlf ++ u)).map fun p => (line ++ p.1, p.2) := by
    refine cut_skip fun y hy hne hprefix => ?_
    exact crlf_not_prefix_of_suffix (not_crlf_of_not_mem hline) hy hne
      ((List.prefix_append _ _).trans hprefix)
  induction lines generalizing first with
  | nil =>
    refine ⟨first, ?_, (unlines_cons first []).symm⟩
    rw [unlines_cons, List.append_assoc, List.append_assoc, hskip hfirst]
    show (cut (crlf ++ pat) (crlf ++ (pat ++ t))).map _ = _
    rw [← List.append_assoc crlf pat, cut_pattern (List.append_ne_nil_of_left_ne_nil crlf_ne_nil _),
      Option.map_some, List.append_nil]
  | cons next lines ih =>
    obtain ⟨⟨hnext, hbegins⟩, hlines⟩ := List.forall_mem_cons.mp hlines
    obtain ⟨before, hcut, hbefore⟩ := ih hnext hlines
    refine ⟨first ++ (crlf ++ before), ?_, ?_⟩
    · have hcr : ¬ crlf ++ pat <+: 13 :: 10 :: (unlines (next :: lines) ++ (pat ++ t)) := by
        intro hprefix
        have hpat' : pat <+: unlines (next :: lines) ++ (pat ++ t) :=
          (List.prefix_append_right_inj crlf).mp hprefix
        rw [unlines_cons, List.append_assoc, List.append_assoc] at hpat'
        exact not_prefix_line hpat hbegins _ hpat'
      have hlf : ¬ crlf ++ pat <+: 10 :: (unlines (next :: lines) ++ (pat ++ t)) :=
        fun hprefix => absurd (List.cons_prefix_cons.mp hprefix).1 (by decide)
      rw [unlines_cons, List.append_assoc, List.append_assoc, hskip hfirst]
      show (cut (crlf ++ pat) (13 :: 10 :: (unlines (next :: lines) ++ (pat ++ t)))).map _ = _
      rw [cut_cons_of_not hcr, cut_cons_of_not hlf, hcut]
      rfl
    · rw [List.append_assoc, List.append_assoc, hbefore, unlines_cons first]

/-- The head of a request is read, and nothing behind it. -/
theorem readHeaders_head {lines : List Bytes} (hne : lines ≠ [])
    (h : ∀ line ∈ lines, line ≠ [] ∧ 13 ∉ line) {n : Nat}
    (hfits : (unlines lines ++ crlf).length ≤ n) (t : Bytes) :
    readHeaders n [] (unlines lines ++ crlf ++ t) = unlines lines ++ crlf := by
  obtain ⟨before, hcut, hbefore⟩ := cut_head lines hne
    (fun line hline => ⟨(h line hline).1, not_crlf_of_not_mem (h line hline).2⟩) t
  have htext : unlines lines ++ crlf ++ t = (unlines lines ++ [13]) ++ 10 :: t := by
    simp [crlf]
  have hlength : (unlines lines ++ [13]).length + 1 ≤ n := by
    rw [List.length_append] at hfits ⊢
    exact hfits
  have hskip := @readHeaders_skip n [] (unlines lines ++ [13]) (10 :: t) (by omega)
    (by
      intro a' ha' _ hsuffix
      rw [List.nil_append] at hsuffix
      obtain ⟨x, y, hxy⟩ := hsuffix.isInfix.trans ha'.isInfix
      have hsplit : unlines lines ++ (crlf ++ t) = x ++ (crlf ++ crlf ++ (y ++ 10 :: t)) := by
        rw [← List.append_assoc, htext, ← hxy]
        simp only [List.append_assoc]
      have hle := (cut_first (by decide) hcut hsplit).length_le
      rw [List.length_append, List.length_cons] at hle
      omega)
  obtain ⟨k, hk⟩ := Nat.exists_eq_add_of_le hlength
  have hrest : n - (unlines lines ++ [13]).length = k + 1 := by omega
  have hend : unlines lines ++ [13] ++ [10] = unlines lines ++ crlf := by simp [crlf]
  rw [htext, hskip, hrest, readHeaders, List.nil_append, hend, if_pos]
  rw [List.isSuffixOf_iff_suffix, ← hbefore, List.append_assoc]
  exact List.suffix_append _ _

namespace RangeRequest
variable (q : RangeRequest)

theorem name_plain : 61 ∉ q.name ∧ 13 ∉ q.name := by
  have hnot {c : UInt8} (hc : lowerByte c = c) (hin : c ∉ bytes "range:") : c ∉ q.name :=
    fun h => hin (q.name_eq ▸ mem_toLower_of_mem hc h)
  exact ⟨hnot (by decide) (by decide), hnot (by decide) (by decide)⟩

theorem spec_plain : 13 ∉ q.spec := by
  have hdecimal (n : Nat) := @not_mem_decimal 13 (by decide) n
  rw [spec, List.mem_append, List.mem_cons, not_or, not_or]
  refine ⟨hdecimal _, by decide, ?_⟩
  cases q.last with
  | none => exact List.not_mem_nil
  | some n => exact hdecimal n

theorem line_plain : q.line ≠ [] ∧ 13 ∉ q.line := by
  refine ⟨?_, ?_⟩
  · rw [line]
    exact List.append_ne_nil_of_right_ne_nil _
      (List.append_ne_nil_of_right_ne_nil _ (List.cons_ne_nil _ _))
  · rw [line, List.mem_append, List.mem_append, List.mem_cons, not_or, not_or, not_or]
    exact ⟨q.name_plain.2, q.rangeUnit_plain.2, by decide, q.spec_plain⟩

/-- What stands behind the `=` is found. -/
theorem rangeValue_head {path : Bytes} (hpath : 13 ∉ requestLine path) :
    rangeValue (q.head path) = some q.spec := by
  obtain ⟨start, hstart⟩ := exists_unlines (requestLine path) q.before
  have hhead : q.head path = start ++ (crlf ++ (q.name ++ (q.rangeUnit ++ 61 :: (q.spec ++
      (crlf ++ (unlines q.after ++ crlf)))))) := by
    rw [head, unlines_append, hstart, unlines_cons, line]
    simp only [List.append_assoc, List.cons_append]
  have hname : find (crlf ++ bytes "range:") (toLower (q.head path)) = some start.length := by
    have hlines : ∀ line ∈ q.before.map toLower, 13 ∉ line ∧ ¬ bytes "range:" <+: line := by
      rw [List.forall_mem_map]
      refine fun line hline => ⟨fun hcr => ?_, q.others line hline⟩
      exact (q.lines line (List.mem_append_left _ hline)).2 (cr_of_mem_toLower hcr)
    obtain ⟨before, hcut, hbefore⟩ := @cut_name (bytes "range:") (by decide) _
      (fun hcr => hpath (cr_of_mem_toLower hcr)) _ hlines
      (toLower (q.rangeUnit ++ 61 :: (q.spec ++ (crlf ++ (unlines q.after ++ crlf)))))
    have hlower : toLower (q.head path) = unlines (toLower (requestLine path) ::
        q.before.map toLower) ++ (bytes "range:" ++
          toLower (q.rangeUnit ++ 61 :: (q.spec ++ (crlf ++ (unlines q.after ++ crlf))))) := by
      rw [hhead, ← List.append_assoc start, ← hstart, toLower_append, toLower_unlines,
        toLower_append, q.name_eq]
      rfl
    have hlength : before.length = start.length := by
      have hlowered : (before ++ crlf).length = (start ++ crlf).length := by
        rw [hbefore, ← List.map_cons, ← toLower_unlines, ← hstart, toLower, List.length_map]
      rwa [List.length_append, List.length_append, Nat.add_right_cancel_iff] at hlowered
    rw [find, hlower, hcut, Option.map_some, hlength]
  have heq : findFrom [61] (q.head path) start.length =
      some (start.length + (crlf ++ (q.name ++ q.rangeUnit)).length) := by
    have hnone : 61 ∉ crlf ++ (q.name ++ q.rangeUnit) := by
      rw [List.mem_append, List.mem_append, not_or, not_or]
      exact ⟨by decide, q.name_plain.1, q.rangeUnit_plain.1⟩
    have hcut := cut_byte hnone (q.spec ++ (crlf ++ (unlines q.after ++ crlf)))
    rw [List.append_assoc, List.append_assoc] at hcut
    rw [hhead, findFrom_append, find, hcut, Option.map_some, Option.map_some]
  have heol : findFrom crlf (q.head path) (start.length + 2) =
      some (start.length + 2 + q.line.length) := by
    have hcut := cut_line (not_crlf_of_not_mem q.line_plain.2) (unlines q.after ++ crlf)
    have htext : q.head path =
        (start ++ crlf) ++ (q.line ++ (crlf ++ (unlines q.after ++ crlf))) := by
      rw [hhead, line]
      simp only [List.append_assoc, List.cons_append]
    have hlength : start.length + 2 = (start ++ crlf).length := by rw [List.length_append]; rfl
    rw [hlength, htext, findFrom_append, find, hcut, Option.map_some, Option.map_some]
  have hspec : ((q.head path).drop
      (start.length + (crlf ++ (q.name ++ q.rangeUnit)).length + 1)).take q.spec.length =
        q.spec := by
    have htext : q.head path = (start ++ (crlf ++ (q.name ++ q.rangeUnit)) ++ [61]) ++ (q.spec ++
        (crlf ++ (unlines q.after ++ crlf))) := by
      rw [hhead]
      simp only [List.append_assoc, List.singleton_append]
    have hlength : start.length + (crlf ++ (q.name ++ q.rangeUnit)).length + 1 =
        (start ++ (crlf ++ (q.name ++ q.rangeUnit)) ++ [61]).length := by
      simp only [List.length_append, List.length_singleton]
    rw [hlength, htext, List.drop_left, List.take_left]
  have hline : q.line.length = q.name.length + q.rangeUnit.length + 1 + q.spec.length := by
    rw [line, List.length_append, List.length_append, List.length_cons]
    omega
  have hgap : (crlf ++ (q.name ++ q.rangeUnit)).length =
      2 + (q.name.length + q.rangeUnit.length) := by
    rw [List.length_append, List.length_append]
    rfl
  have hwidth : start.length + 2 + q.line.length -
      (start.length + (crlf ++ (q.name ++ q.rangeUnit)).length) - 1 = q.spec.length := by omega
  simp only [rangeValue, Option.bind_eq_bind, hname, Option.bind_some, heq, heol, hwidth, hspec]
  rw [if_pos (by omega)]

theorem stoll_decimal {n : Nat} (h : n < 2 ^ 63) : stoll (decimal n) = some (n : Int) := by
  rw [stoll, number_decimal, Option.filter_some, if_pos]
  exact decide_eq_true ⟨by omega, by exact_mod_cast h⟩

theorem parseRange_head {path : Bytes} (hpath : 13 ∉ requestLine path) :
    parseRange (q.head path) = ((q.first : Int), q.last.elim (-1) fun n => (n : Int)) := by
  have hcut : cut [45] q.spec = some (decimal q.first, q.last.elim [] decimal) :=
    cut_byte (not_mem_decimal (by decide) q.first) _
  have hfinish : (if q.last.elim [] decimal = [] then -1
      else (stoll (q.last.elim [] decimal)).getD (-1)) = q.last.elim (-1) fun n => (n : Int) := by
    cases hlast : q.last with
    | none => rfl
    | some n =>
      have hn := q.last_lt n hlast
      show (if decimal n = [] then -1 else (stoll (decimal n)).getD (-1)) = (n : Int)
      rw [if_neg (decimal_ne_nil n), stoll_decimal (by omega)]
      rfl
  rw [parseRange, q.rangeValue_head hpath, Option.bind_some, hcut]
  dsimp only
  rw [hfinish, if_neg (decimal_ne_nil _), stoll_decimal q.first_lt]

end RangeRequest

/-! ### From the player to the CDN and back -/

theorem percentDecode_of_not_mem {s : Bytes} (h : 37 ∉ s) : percentDecode s = s := by
  induction s with
  | nil => rfl
  | cons b s ih =>
    rw [List.mem_cons, not_or] at h
    rw [percentDecode_plain fun hb => absurd hb.symm h.1, ih h.2]

theorem digit_visible {b : UInt8} (h : isDigit b = true) : 32 < b := by
  rw [UInt8.lt_iff_toNat_lt]
  have hlow := (isDigit_iff.mp h).1
  exact Nat.lt_of_lt_of_le (by decide) hlow

theorem localPath_visible (n : BitVec 64) : ∀ b ∈ localPath n, 32 < b := by
  have hfixed : ∀ b ∈ bytes "/seg/", 32 < b := by decide +kernel
  intro b hb
  rcases List.mem_append.mp hb with hb | hb
  · exact hfixed b hb
  · exact digit_visible (decimal_digits _ b hb)

theorem route_localPath (n : BitVec 64) :
    route (percentDecode (localPath n)) = .segmentProxy (localPath n) := by
  have hpercent : 37 ∉ localPath n := by
    rw [localPath, List.mem_append, not_or]
    exact ⟨by decide, not_mem_decimal (by decide) _⟩
  have hlength : (localPath n).length > 5 := by
    have hpos := List.length_pos_iff.mpr (decimal_ne_nil n.toNat)
    rw [localPath, List.length_append]
    exact Nat.lt_add_of_pos_right hpos
  have hprefix : (bytes "/seg/").isPrefixOf (localPath n) = true :=
    List.isPrefixOf_iff_prefix.mpr (List.prefix_append _ _)
  have hne : localPath n ≠ [] := List.ne_nil_of_length_pos (Nat.lt_trans (by decide) hlength)
  rw [percentDecode_of_not_mem hpercent, route, if_neg hne, if_pos ⟨hlength, hprefix⟩]

section Delivered
variable {b : Backend} {n : BitVec 64} {url : Bytes} {upstream : Upstream} (q : RangeRequest)
  (rest : Bytes)

/-- The request is answered with what is upstream from the first byte asked for to the last. -/
theorem answer_range (hfits : (q.head (localPath n)).length ≤ 8192)
    (hbound : b.registry.resolveSegmentPath b.order (localPath n) = some url) (hurl : url ≠ [])
    (hopen : b.avioOpen url (some q.first) (q.last.map fun last => (last : Int) + 1) =
      some upstream) :
    b.answer (q.head (localPath n) ++ rest) =
      .proxied q.first (q.last.elim (-1) fun last => (last : Int)) upstream := by
  have hvisible := localPath_visible n
  have hcr := @not_mem_requestLine (localPath n) 13 hvisible (by decide)
  have hne : localPath n ≠ [] := List.append_ne_nil_of_left_ne_nil (by decide) _
  have hlines : ∀ line ∈ requestLine (localPath n) :: q.before ++ q.line :: q.after,
      line ≠ [] ∧ 13 ∉ line := by
    rw [List.cons_append, List.forall_mem_cons, List.forall_mem_append, List.forall_mem_cons]
    exact ⟨⟨List.append_ne_nil_of_left_ne_nil (by decide) _, hcr⟩,
      fun line hline => q.lines line (List.mem_append_left _ hline), q.line_plain,
      fun line hline => q.lines line (List.mem_append_right _ hline)⟩
  have hread : readHeaders 8192 [] (q.head (localPath n) ++ rest) = q.head (localPath n) :=
    readHeaders_head (List.cons_ne_nil _ _) hlines hfits rest
  have hstream : q.head (localPath n) ++ rest =
      request (localPath n) (unlines (q.before ++ q.line :: q.after) ++ (crlf ++ rest)) := by
    rw [request_eq, RangeRequest.head, List.cons_append, unlines_cons]
    simp only [List.append_assoc]
  have hroute : handleClient (q.head (localPath n) ++ rest) = .segmentProxy (localPath n) := by
    have hline : (requestLine (localPath n)).length + 2 ≤ 8192 := by
      rw [RangeRequest.head, List.cons_append, unlines_cons, List.length_append,
        List.length_append, List.length_append] at hfits
      have hcrlf : crlf.length = 2 := rfl
      omega
    rw [hstream, handleClient_request _ hne hvisible, if_pos hline, route_localPath]
  have hfirst : (0 : Int) ≤ q.first := Int.natCast_nonneg _
  have hend : (if 0 ≤ (q.first : Int) ∧ 0 ≤ q.last.elim (-1) fun last => (last : Int)
      then some ((q.last.elim (-1) fun last => (last : Int)) + 1) else none) =
        q.last.map fun last => (last : Int) + 1 := by
    cases q.last with
    | none => exact if_neg fun h => absurd h.2 (by decide)
    | some last => exact if_pos ⟨hfirst, Int.natCast_nonneg _⟩
  rw [Backend.answer, hroute]
  dsimp only
  rw [Backend.serveProxied, hbound, hread, q.parseRange_head hcr]
  dsimp only [Option.getD_some]
  rw [if_neg hurl, if_pos hfirst, hend, hopen]

end Delivered

/-- Four bytes, of which libavio has this size. -/
def fourBytes (size : Int) : Upstream where
  size := size
  reads := [[1, 2], [3, 4]]
  read_nonempty := by decide

/-- One segment has been localised. -/
def oneSegment (size : Int) : Backend where
  port := 7100
  registry :=
    { sessions := fun _ => some {segUrlMap := fun _ => some (bytes "https://cdn/0.ts")}
      activeSessionId := bytes "a" }
  order := []
  fetchPlaylist := fun _ _ => none
  fetchSegment := fun _ => none
  avioOpen := fun _ _ _ => some (fourBytes size)

def firstFour : RangeRequest where
  name := bytes "Range:"
  rangeUnit := bytes " bytes"
  first := 0
  last := some 3
  before := [bytes "Accept: */*"]
  after := []
  name_eq := by decide
  rangeUnit_plain := by decide
  first_lt := by decide
  last_lt := by decide
  lines := by decide
  others := by decide

end AirPlay.Hls
