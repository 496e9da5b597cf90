import AirPlay.Rtsp.Reader

/-! What a pipeline of requests is read as.

A peer sends well-formed requests one after the other, and recv cuts their bytes
anywhere. Each read takes one request and leaves the bytes of the next ones, as long as
its body is shorter than what an `unsigned long` counts; a longer one is not read, and
its bytes are taken for the next request (`pipeline_iff`). -/
namespace AirPlay.Rtsp

/-! ### Requests as they are sent -/

/-- A header line; the value has the blanks around it. -/
structure Field where
  name : Bytes
  value : Bytes

def Field.line (f : Field) : Bytes := f.name ++ (bytes ":" ++ f.value)

structure Field.WellFormed (f : Field) : Prop where
  name_trim : trim f.name = f.name
  name_colon : 58 ∉ f.name
  line_crlf : ¬ Bytes.crlf <:+: f.line

/-- A request as it stands on the wire, with the gaps of its first line. -/
structure Message where
  method : Bytes
  gap : Bytes
  uri : Bytes
  gap' : Bytes
  version : Bytes
  fields : List Field
  body : Bytes

namespace Message

def requestLine (m : Message) : Bytes := m.method ++ (m.gap ++ (m.uri ++ (m.gap' ++ m.version)))

def lines (m : Message) : List Bytes := m.requestLine :: m.fields.map Field.line

def head (m : Message) : Bytes := Bytes.unlines m.lines ++ Bytes.crlf

def wire (m : Message) : Bytes := m.head ++ m.body

/-- The last field of a name, which is in lower case, has its value. -/
def headers (m : Message) (key : Bytes) : Option Bytes :=
  (m.fields.reverse.find? fun f => toLower f.name = key).map fun f => trim f.value

/-- The URI without scheme and authority. -/
def path (m : Message) : Bytes :=
  if (bytes "rtsp://").isPrefixOf m.uri || (bytes "http://").isPrefixOf m.uri then
    let path := (m.uri.drop 7).dropWhile (· ≠ 47)
    if path = [] then bytes "/" else path
  else m.uri

def request (m : Message) : Request where
  method := m.method
  uri := m.path
  version := m.version
  headers := m.headers
  body := m.body

/-- What the head says of the request. -/
def headRequest (m : Message) : Request :=
  {method := m.method, uri := m.path, version := m.version, headers := m.headers}

structure WellFormed (m : Message) : Prop where
  words : ∀ w ∈ [m.method, m.uri, m.version], w ≠ [] ∧ ∀ b ∈ w, Bytes.isSpace b = false
  gaps : ∀ g ∈ [m.gap, m.gap'], g ≠ [] ∧ ∀ b ∈ g, isBlank b = true
  fields : ∀ f ∈ m.fields, f.WellFormed
  head_length : m.head.length ≤ 61440
  /-- No length is declared and there is no body, or the length is the body's. -/
  length : match m.headers (bytes "content-length") with
    | none => m.body = []
    | some v => v ≠ [] ∧ (∀ b ∈ v, Bytes.isDigit b = true) ∧ Bytes.natural v = m.body.length

/-- What the head is made of, whatever its length. -/
structure Spelled (m : Message) : Prop where
  words : ∀ w ∈ [m.method, m.uri, m.version], w ≠ [] ∧ ∀ b ∈ w, Bytes.isSpace b = false
  gaps : ∀ g ∈ [m.gap, m.gap'], g ≠ [] ∧ ∀ b ∈ g, isBlank b = true
  fields : ∀ f ∈ m.fields, f.WellFormed

theorem WellFormed.spelled {m : Message} (h : m.WellFormed) : m.Spelled :=
  ⟨h.words, h.gaps, h.fields⟩

/-- The body's length is an `unsigned long`, and the request's a `size_t`. -/
def Fits (model : DataModel) (m : Message) : Prop :=
  m.body.length < 2 ^ model.ulongBits ∧ m.wire.length < 2 ^ 64

end Message

/-! ### One head -/

theorem isSpace_of_isBlank {b : UInt8} (h : isBlank b = true) : Bytes.isSpace b = true := by
  rw [isBlank, Bool.or_eq_true, decide_eq_true_iff, decide_eq_true_iff] at h
  rcases h with rfl | rfl <;> decide

theorem Field.WellFormed.isLine {f : Field} (h : f.WellFormed) : IsLine f.line :=
  ⟨List.append_ne_nil_of_right_ne_nil _ (List.append_ne_nil_of_left_ne_nil (by decide) _),
    h.line_crlf⟩

namespace Message
variable {m : Message}

theorem Spelled.requestLine_crlf (h : m.Spelled) : ¬ Bytes.crlf <:+: m.requestLine := by
  have hword : ∀ w ∈ [m.method, m.uri, m.version], 13 ∉ w := by
    intro w hw hin
    exact absurd ((h.words w hw).2 13 hin) (by decide)
  have hgap : ∀ g ∈ [m.gap, m.gap'], 13 ∉ g := by
    intro g hg hin
    exact absurd ((h.gaps g hg).2 13 hin) (by decide)
  intro hin
  have hcr : 13 ∈ m.requestLine := hin.subset List.mem_cons_self
  simp only [requestLine, List.mem_append] at hcr
  rcases hcr with hcr | hcr | hcr | hcr | hcr
  · exact hword m.method (by simp) hcr
  · exact hgap m.gap (by simp) hcr
  · exact hword m.uri (by simp) hcr
  · exact hgap m.gap' (by simp) hcr
  · exact hword m.version (by simp) hcr

theorem Spelled.isLine (h : m.Spelled) : ∀ line ∈ m.lines, IsLine line := by
  rw [lines, List.forall_mem_cons]
  refine ⟨⟨?_, h.requestLine_crlf⟩, fun line hline => ?_⟩
  · exact List.append_ne_nil_of_left_ne_nil (h.words m.method (by simp)).1 _
  · obtain ⟨f, hf, rfl⟩ := List.mem_map.mp hline
    exact (h.fields f hf).isLine

/-- The three words of the request line. -/
theorem Spelled.tokens (h : m.Spelled) :
    Bytes.token m.requestLine = some (m.method, m.gap ++ (m.uri ++ (m.gap' ++ m.version))) ∧
      Bytes.token (m.gap ++ (m.uri ++ (m.gap' ++ m.version))) =
        some (m.uri, m.gap' ++ m.version) ∧
      Bytes.token (m.gap' ++ m.version) = some (m.version, []) := by
  obtain ⟨hmethod, huri, hversion⟩ := by simpa using h.words
  obtain ⟨hgap, hgap'⟩ := by simpa using h.gaps
  have hhead : ∀ {g rest : Bytes}, (g ≠ [] ∧ ∀ b ∈ g, isBlank b = true) →
      ∀ b ∈ (g ++ rest).head?, Bytes.isSpace b = true := by
    intro g rest hg b hb
    cases g with
    | nil => exact absurd rfl hg.1
    | cons c g =>
      rw [← Option.some.inj hb]
      exact isSpace_of_isBlank (hg.2 c List.mem_cons_self)
  refine ⟨?_, ?_, ?_⟩
  · exact @Bytes.token_word [] m.method _ (by simp) hmethod.1 hmethod.2 (hhead hgap)
  · exact Bytes.token_word (fun b hb => isSpace_of_isBlank (hgap.2 b hb)) huri.1 huri.2
      (hhead hgap')
  · have hlast := @Bytes.token_word m.gap' m.version [] (fun b hb => isSpace_of_isBlank
      (hgap'.2 b hb)) hversion.1 hversion.2 (by simp)
    rwa [List.append_nil] at hlast

/-- What the URI is stripped to. -/
theorem normaliseUri_eq (m : Message) : normaliseUri m.uri = m.path := by
  rw [normaliseUri, path]
  by_cases habs : ((bytes "rtsp://").isPrefixOf m.uri || (bytes "http://").isPrefixOf m.uri) = true
  · have hscheme : Bytes.find (bytes "://") m.uri = some 4 := by
      rw [Bool.or_eq_true, List.isPrefixOf_iff_prefix, List.isPrefixOf_iff_prefix] at habs
      rcases habs with ⟨rest, hrest⟩ | ⟨rest, hrest⟩
      · rw [← hrest]
        rfl
      · rw [← hrest]
        rfl
    rw [if_pos habs, if_pos habs, hscheme]
    have hslash : bytes "/" = [47] := rfl
    simp only [Option.getD_some, Nat.reduceAdd, hslash]
    -- the path begins at the first slash of what follows the scheme
    obtain ⟨hfind, hnone⟩ | ⟨pos, hfind, hdrop, hne⟩ := Bytes.find_byte 47 (m.uri.drop 7)
    · rw [hfind, hnone, if_pos rfl]
    · rw [hfind, ← hdrop, if_neg hne]
      exact List.drop_drop.symm
  · rw [if_neg habs, if_neg habs]

theorem addHeader_line {f : Field} (h : f.WellFormed) (headers : Bytes → Option Bytes) :
    addHeader f.line headers =
      Function.update headers (toLower f.name) (some (trim f.value)) := by
  have hfind : Bytes.find (bytes ":") f.line = some f.name.length := by
    show (Bytes.cut [58] (f.name ++ 58 :: f.value)).map _ = _
    rw [Bytes.cut_byte h.name_colon, Option.map_some]
  have htake : f.line.take f.name.length = f.name := List.take_left
  have hdrop : f.line.drop (f.name.length + 1) = f.value := by
    rw [← List.drop_drop, Field.line, List.drop_left]
    rfl
  rw [addHeader, hfind]
  dsimp only
  rw [htake, hdrop, h.name_trim]

/-- The last field of a name gives the header. -/
theorem headersOf_fields (fields : List Field) (h : ∀ f ∈ fields, f.WellFormed) (key : Bytes) :
    headersOf (fields.map Field.line) key =
      (fields.reverse.find? fun f => toLower f.name = key).map fun f => trim f.value := by
  induction fields using List.reverseRecOn with
  | nil => rfl
  | append_singleton fields f ih =>
    rw [List.forall_mem_append] at h
    have hf := h.2 f List.mem_cons_self
    rw [headersOf, List.map_append, List.foldl_append, ← headersOf, List.reverse_append]
    show addHeader f.line (headersOf (fields.map Field.line)) key =
      ((f :: fields.reverse).find? fun f => toLower f.name = key).map fun f => trim f.value
    rw [addHeader_line hf, List.find?_cons]
    by_cases hkey : toLower f.name = key
    · subst hkey
      simp
    · rw [Function.update_of_ne (Ne.symm hkey), ih h.1]
      simp [hkey]

/-- A head is read as it was sent. -/
theorem Spelled.parseHead_eq (h : m.Spelled) (t : Bytes) :
    parseHead (m.head ++ t) m.head.length = some m.headRequest := by
  obtain ⟨hmethod, huri, hversion⟩ := h.tokens
  have hlines : ∀ line ∈ m.fields.map Field.line, IsLine line :=
    (List.forall_mem_cons.mp h.isLine).2
  have hparse := parseHead_lines h.requestLine_crlf hmethod huri hversion hlines (Bytes.crlf ++ t)
  have hheaders : headersOf (m.fields.map Field.line) = m.headers :=
    funext fun key => headersOf_fields m.fields h.fields key
  rw [head, List.append_assoc, List.length_append]
  exact hparse.trans (by rw [hheaders, normaliseUri_eq]; rfl)

end Message

/-! ### One message -/

/-- No length is declared and there is no body, or the length is the body's. -/
def Declares (length : Option Bytes) (body : Bytes) : Prop :=
  match length with
  | none => body = []
  | some v => v ≠ [] ∧ (∀ b ∈ v, Bytes.isDigit b = true) ∧ Bytes.natural v = body.length

/-- Lines and an empty line, which are parsed to a request; a body of the length that it
declares may follow. -/
structure Framed (head body : Bytes) (req : Request) : Prop where
  lines : ∃ lines, lines ≠ [] ∧ (∀ line ∈ lines, IsLine line) ∧
    head = Bytes.unlines lines ++ Bytes.crlf
  parse : ∀ t, parseHead (head ++ t) head.length = some req
  length : Declares (req.headers (bytes "content-length")) body

/-- A head that the limit of 64 KiB leaves alone however it arrives, with what follows it. -/
def HeadFits (head t : Bytes) : Prop := head.length ≤ 61441 ∨ (head ++ t).length ≤ 64 * 1024

theorem HeadFits.of_append {head t t' : Bytes} (h : HeadFits head (t ++ t')) : HeadFits head t := by
  rw [HeadFits, ← List.append_assoc, @List.length_append _ _ t'] at h
  exact h.imp_right fun h => (Nat.le_add_right _ _).trans h

/-- A length that is an `unsigned long`, and an end that is a `size_t`. -/
def BodyFits (model : DataModel) (head body : Bytes) : Prop :=
  body.length < 2 ^ model.ulongBits ∧ (head ++ body).length < 2 ^ 64

/-- Where the first empty line is. -/
theorem cut_lines {head : Bytes} (h : ∃ lines, lines ≠ [] ∧ (∀ line ∈ lines, IsLine line) ∧
    head = Bytes.unlines lines ++ Bytes.crlf) (t : Bytes) :
    ∃ before, Bytes.cut (Bytes.crlf ++ Bytes.crlf) (head ++ t) = some (before, t) ∧
      head = before ++ (Bytes.crlf ++ Bytes.crlf) := by
  obtain ⟨lines, hne, hlines, rfl⟩ := h
  obtain ⟨before, hcut, hbefore⟩ := Bytes.cut_head lines hne hlines t
  refine ⟨before, by rw [List.append_assoc, hcut], ?_⟩
  rw [← hbefore, List.append_assoc]

/-- A head within the limit is found however it arrives. -/
theorem findHead_head {head t before : Bytes}
    (hcut : Bytes.cut (Bytes.crlf ++ Bytes.crlf) (head ++ t) = some (before, t))
    (hhead : head = before ++ (Bytes.crlf ++ Bytes.crlf)) (hfits : HeadFits head t)
    {buffer : Bytes} {incoming : List Chunk}
    (hstream : buffer ++ incoming.flatMap (·.data) = head ++ t) :
    (findHead buffer incoming).1 = some head.length ∧
      head <+: (findHead buffer incoming).2.buffer := by
  have hpos : before.length + 4 = head.length := by
    rw [hhead, List.length_append]
    rfl
  induction incoming generalizing buffer with
  | nil =>
    have hfound := Bytes.find_arrived (by decide) (hstream ▸ hcut)
    rw [← hhead] at hfound
    rcases hfound with ⟨hfind, hprefix⟩ | ⟨-, hlt⟩
    · rw [findHead, hfind]
      exact ⟨congrArg some hpos, hprefix⟩
    · rw [List.flatMap_nil, List.append_nil] at hstream
      rw [hstream, List.length_append] at hlt
      omega
  | cons chunk rest ih =>
    have hfound := Bytes.find_arrived (by decide) (hstream ▸ hcut)
    rw [← hhead] at hfound
    rcases hfound with ⟨hfind, hprefix⟩ | ⟨hfind, hlt⟩
    · rw [findHead, hfind]
      exact ⟨congrArg some hpos, hprefix⟩
    · rw [stream_chunk] at hstream
      have hsmall : ¬ (buffer ++ chunk.data).length > 64 * 1024 := by
        have hchunk := chunk.small
        have htotal := congrArg List.length hstream
        rw [List.length_append] at htotal
        rw [List.length_append] at htotal ⊢
        rcases hfits with hshort | hshort
        · omega
        · omega
      rw [findHead, hfind]
      dsimp only
      rw [if_neg hsmall]
      exact ih hstream

/-- What `Content-Length` says of a body, as far as an `unsigned long` goes. -/
theorem contentLength_declared {req : Request} {body : Bytes}
    (h : Declares (req.headers (bytes "content-length")) body) (model : DataModel) :
    req.contentLength model = if body.length < 2 ^ model.ulongBits then body.length else 0 := by
  have hheader : req.header (bytes "content-length") =
      (req.headers (bytes "content-length")).getD [] := rfl
  rw [Rtsp.contentLength_eq, hheader]
  cases hv : req.headers (bytes "content-length") with
  | none =>
    rw [hv] at h
    obtain rfl : body = [] := h
    exact (ite_self 0).symm
  | some v =>
    rw [hv] at h
    obtain ⟨hne, hdigits, hnatural⟩ := h
    rw [Option.getD_some, stoul, Bytes.number_digits hne hdigits, Option.bind_some, hnatural,
      Int.natAbs_natCast]
    by_cases hlt : body.length < 2 ^ model.ulongBits
    · rw [if_neg (not_le.mpr hlt), if_pos hlt, Option.getD_some]
      have hmod : ((body.length : Int) % 2 ^ model.ulongBits) = body.length :=
        Int.emod_eq_of_lt (Int.natCast_nonneg _) (by exact_mod_cast hlt)
      rw [hmod, Int.toNat_natCast]
    · rw [if_pos (not_lt.mp hlt), if_neg hlt, Option.getD_none]

namespace Framed
variable {head body : Bytes} {req : Request}

/-- The head of the next message is read, and none of the stream is lost. -/
theorem readHeaders_eq (h : Framed head body req) {r : RequestReader} {t : Bytes}
    (hhead : HeadFits head (body ++ t)) (hstream : r.stream = head ++ (body ++ t)) :
    (readHeaders r).1 = some (req, head.length) ∧
      (readHeaders r).2.stream = head ++ (body ++ t) := by
  obtain ⟨before, hcut, hbefore⟩ := cut_lines h.lines (body ++ t)
  obtain ⟨hfind, hprefix⟩ := findHead_head hcut hbefore hhead hstream
  have hsame := findHead_stream r.buffer r.incoming
  cases hfound : findHead r.buffer r.incoming with
  | mk found r' =>
    rw [hfound] at hfind hprefix hsame
    obtain ⟨y, hy⟩ := hprefix
    dsimp only at hfind hy
    subst hfind
    rw [readHeaders_of_found hfound, ← hy, h.parse]
    exact ⟨rfl, hsame.trans hstream⟩

/-- A message that fits is read, and what follows it is left. -/
theorem read_eq (h : Framed head body req) {model : DataModel} (hfits : BodyFits model head body)
    {r : RequestReader} {t : Bytes} (hhead : HeadFits head (body ++ t))
    (hstream : r.stream = head ++ (body ++ t)) :
    (read model false r).1 = .request {req with body} ∧ (read model false r).2.stream = t := by
  obtain ⟨hread, hsame⟩ := h.readHeaders_eq hhead hstream
  have hlength := contentLength_declared h.length model
  rw [if_pos hfits.1] at hlength
  have hneed : (head.length + body.length) % 2 ^ 64 = (head ++ body).length := by
    rw [← List.length_append, Nat.mod_eq_of_lt hfits.2]
  cases hr : readHeaders r with
  | mk found r' =>
    rw [hr] at hread hsame
    dsimp only at hread hsame
    subst hread
    rw [← List.append_assoc] at hsame
    cases hfill : fill (head ++ body).length r'.buffer r'.incoming with
    | mk ok filled =>
      have hle : (head ++ body).length ≤ (r'.buffer ++ r'.incoming.flatMap (·.data)).length := by
        rw [← RequestReader.stream, hsame, @List.length_append _ (head ++ body)]
        exact Nat.le_add_right _ _
      have hok := fill_of_le hle
      have htrue := fill_true hok
      have hfilled := (fill_stream (head ++ body).length r'.buffer r'.incoming).trans hsame
      rw [hfill] at hok htrue hfilled
      dsimp only at hok htrue hfilled
      subst hok
      -- the buffer holds the message, and what it has beyond begins the rest of the stream
      have hbuffer : filled.buffer <+: head ++ body ++ t := hfilled ▸ List.prefix_append _ _
      obtain ⟨y, hy⟩ : head ++ body <+: filled.buffer :=
        List.prefix_of_prefix_length_le (List.prefix_append (head ++ body) t) hbuffer htrue.1
      have hinside : head.length + body.length ≤ filled.buffer.length := by
        rw [← hy, List.length_append, List.length_append]
        exact Nat.le_add_right _ _
      have hbody : (filled.buffer.drop head.length).take body.length = body := by
        rw [← hy, List.append_assoc, List.drop_left, List.take_left]
      rw [read_of_filled hr (by rw [hlength, hneed]; exact hfill), hlength, hneed, if_pos hinside,
        hbody]
      refine ⟨rfl, ?_⟩
      rw [RequestReader.stream, ← hy, List.append_assoc] at hfilled
      rw [RequestReader.stream, ← hy, List.drop_left]
      exact List.append_cancel_left hfilled

/-- A message that does not fit is not read, or its body is taken for the next message. -/
theorem read_long (h : Framed head body req) {model : DataModel}
    (hfits : ¬ BodyFits model head body) {r : RequestReader} {t : Bytes}
    (hbuffer : r.buffer.length ≤ 64 * 1024) (hhead : HeadFits head (body ++ t))
    (hstream : r.stream = head ++ (body ++ t)) :
    (∀ req', (read model false r).1 ≠ .request req') ∨
      (read model false r).1 = .request {req with body := []} ∧ body ≠ [] ∧
        (read model false r).2.stream = body ++ t := by
  obtain ⟨hread, hsame⟩ := h.readHeaders_eq hhead hstream
  obtain ⟨hle, hsmall⟩ := readHeaders_some hbuffer hread
  have hlength := contentLength_declared h.length model
  by_cases hlt : body.length < 2 ^ model.ulongBits
  · left
    intro req' hreq
    have hopen : (read model false r).1 ≠ .closed := by
      rw [hreq]
      exact Outcome.noConfusion
    obtain ⟨-, req'', bodyOffset, filled, hread', hfill, hout⟩ := read_open hopen
    rw [hread] at hread'
    obtain ⟨rfl, rfl⟩ := Prod.mk.inj (Option.some.inj hread')
    have hfilled := (fill_true (congrArg Prod.fst hfill)).2
    rw [if_pos hlt] at hlength
    have hwire : ¬ (head ++ body).length < 2 ^ 64 := fun hwire => hfits ⟨hlt, hwire⟩
    have hbits : 2 ^ model.ulongBits ≤ 2 ^ 64 := by cases model <;> decide
    -- the sum wraps, so no more was waited for than the head
    rw [List.length_append] at hwire
    rw [hfill, hlength] at hfilled
    rw [hout, hlength] at hreq
    dsimp only at hreq hfilled
    split at hreq
    · omega
    · exact Outcome.noConfusion hreq
  · right
    rw [if_neg hlt] at hlength
    cases hr : readHeaders r with
    | mk found r' =>
      rw [hr] at hread hsame hle hsmall
      dsimp only at hread hsame hle hsmall
      subst hread
      have hneed : (head.length + req.contentLength model) % 2 ^ 64 = head.length := by
        rw [hlength, Nat.add_zero]
        exact Nat.mod_eq_of_lt (by omega)
      have hfill : fill head.length r'.buffer r'.incoming = (true, r') := by
        rw [fill.eq_def, if_pos hle]
      rw [read_of_filled hr (by rw [hneed]; exact hfill), hneed, hlength, if_pos (by exact hle)]
      refine ⟨rfl, ?_, ?_⟩
      · rintro rfl
        exact hlt (Nat.two_pow_pos _)
      · have hdrop := congrArg (List.drop head.length) hsame
        rw [List.drop_left, RequestReader.stream, List.drop_append_of_le_length hle] at hdrop
        exact hdrop

end Framed

/-! ### One request -/

namespace Message
variable {m : Message}

theorem Spelled.framed (h : m.Spelled)
    (hlength : Declares (m.headers (bytes "content-length")) m.body) :
    Framed m.head m.body m.headRequest :=
  ⟨⟨m.lines, List.cons_ne_nil _ _, h.isLine, rfl⟩, h.parseHead_eq, hlength⟩

theorem WellFormed.framed (h : m.WellFormed) : Framed m.head m.body m.headRequest :=
  h.spelled.framed h.length

/-- A request that fits is read, and what follows it is left. -/
theorem WellFormed.read_eq (h : m.WellFormed) {model : DataModel} (hfits : m.Fits model)
    {r : RequestReader} {t : Bytes} (hstream : r.stream = m.wire ++ t) :
    (read model false r).1 = .request m.request ∧ (read model false r).2.stream = t :=
  h.framed.read_eq hfits (.inl (h.head_length.trans (by decide)))
    (hstream.trans (List.append_assoc ..))

/-- A request that does not fit is not read. -/
theorem WellFormed.read_ne (h : m.WellFormed) {model : DataModel} (hfits : ¬ m.Fits model)
    {r : RequestReader} {t : Bytes} (hbuffer : r.buffer.length ≤ 64 * 1024)
    (hstream : r.stream = m.wire ++ t) : (read model false r).1 ≠ .request m.request := by
  rcases h.framed.read_long hfits hbuffer (.inl (h.head_length.trans (by decide)))
    (hstream.trans (List.append_assoc ..)) with hnone | ⟨hread, hbody, -⟩
  · exact hnone m.request
  · rw [hread]
    intro heq
    exact hbody (congrArg Request.body (Outcome.request.inj heq)).symm

end Message

/-! ### The pipeline -/

/-- How successive reads of a connection end. -/
def outcomes (model : DataModel) (r : RequestReader) : Nat → List Outcome
  | 0 => []
  | n + 1 => (read model false r).1 :: outcomes model (read model false r).2 n

theorem outcomes_end (model : DataModel) {r : RequestReader} (hstream : r.stream = []) (n : Nat) :
    outcomes model r n = List.replicate n .closed := by
  have hread : read model false r = (.closed, r) := by
    rw [RequestReader.eq_empty hstream]
    rfl
  induction n with
  | zero => rfl
  | succ n ih => rw [outcomes, hread, ih, List.replicate_succ]

/-- From a buffer that an earlier read has left, the first request first. -/
theorem outcomes_iff (model : DataModel) (ms : List Message) (hms : ∀ m ∈ ms, m.WellFormed)
    {r : RequestReader} (hbuffer : r.buffer.length ≤ 64 * 1024)
    (hstream : r.stream = ms.flatMap Message.wire) :
    (∀ n, outcomes model r (ms.length + n) =
        ms.map (fun m => .request m.request) ++ List.replicate n .closed) ↔
      ∀ m ∈ ms, m.Fits model := by
  induction ms generalizing r with
  | nil =>
    refine iff_of_true (fun n => ?_) fun m hm => absurd hm List.not_mem_nil
    rw [List.length_nil, Nat.zero_add, outcomes_end model hstream]
    rfl
  | cons m ms ih =>
    obtain ⟨hm, hrest⟩ := List.forall_mem_cons.mp hms
    rw [List.flatMap_cons] at hstream
    have hstep : ∀ n, outcomes model r ((m :: ms).length + n) =
        (read model false r).1 :: outcomes model (read model false r).2 (ms.length + n) := by
      intro n
      rw [List.length_cons, Nat.add_right_comm]
      rfl
    rw [List.forall_mem_cons]
    by_cases hfits : m.Fits model
    · obtain ⟨hread, hleft⟩ := hm.read_eq hfits hstream
      have hopen : (read model false r).1 ≠ .closed := by
        rw [hread]
        exact Outcome.noConfusion
      rw [← ih hrest (read_buffer hbuffer hopen) hleft]
      refine ⟨fun h => ⟨hfits, fun n => ?_⟩, fun h n => ?_⟩
      · have hn := h n
        rw [hstep, List.map_cons, List.cons_append] at hn
        exact (List.cons.inj hn).2
      · rw [hstep, hread, h.2, List.map_cons, List.cons_append]
    · refine iff_of_false (fun h => ?_) fun h => hfits h.1
      have hn := h 0
      rw [hstep, List.map_cons, List.cons_append] at hn
      exact hm.read_ne hfits hbuffer hstream (List.cons.inj hn).1

/-- The reads of a connection return the requests of its pipeline in order, and false
only after the last one, exactly when every request fits. -/
theorem pipeline_iff (model : DataModel) (ms : List Message) (hms : ∀ m ∈ ms, m.WellFormed)
    (incoming : List Chunk) (hsent : incoming.flatMap (·.data) = ms.flatMap Message.wire) :
    (∀ n, outcomes model {incoming} (ms.length + n) =
        ms.map (fun m => .request m.request) ++ List.replicate n .closed) ↔
      ∀ m ∈ ms, m.Fits model :=
  outcomes_iff model ms hms (Nat.zero_le _) hsent

/-! ### Two pipelines -/

/-- A request without a body. -/
def optionsMessage : Message where
  method := bytes "OPTIONS"
  gap := bytes " "
  uri := bytes "*"
  gap' := bytes " "
  version := bytes "RTSP/1.0"
  fields := [⟨bytes "CSeq", bytes " 1"⟩]
  body := []

/-- A request with an absolute URI, a declared length and a body. -/
def postMessage (length body : Bytes) : Message where
  method := bytes "POST"
  gap := bytes " "
  uri := bytes "rtsp://host/feedback"
  gap' := bytes " "
  version := bytes "RTSP/1.0"
  fields := [⟨bytes "Content-Length", length⟩]
  body := body

/-- A run of words is checked byte by byte. -/
theorem runs_of_all {p : UInt8 → Bool} {v : Bool} {ws : List Bytes}
    (h : ws.all (fun w => !w.isEmpty && w.all (p · == v)) = true) :
    ∀ w ∈ ws, w ≠ [] ∧ ∀ b ∈ w, p b = v := by
  intro w hw
  have hrun := List.all_eq_true.mp h w hw
  rw [Bool.and_eq_true, Bool.not_eq_true', List.all_eq_true] at hrun
  exact ⟨List.isEmpty_eq_false_iff.mp hrun.1, fun b hb => eq_of_beq (hrun.2 b hb)⟩

theorem optionsMessage_wellFormed : optionsMessage.WellFormed where
  words := runs_of_all (by decide)
  gaps := runs_of_all (by decide)
  fields := List.forall_mem_singleton.mpr ⟨by decide, by decide, by decide⟩
  head_length := by decide
  length := rfl

theorem postMessage_wellFormed {length body : Bytes}
    (hline : ¬ Bytes.crlf <:+: Field.line ⟨bytes "Content-Length", length⟩)
    (hhead : (postMessage length body).head.length ≤ 61440)
    (hlength : trim length ≠ [] ∧ (∀ b ∈ trim length, Bytes.isDigit b = true) ∧
      Bytes.natural (trim length) = body.length) : (postMessage length body).WellFormed where
  words := @runs_of_all _ _ [bytes "POST", bytes "rtsp://host/feedback", bytes "RTSP/1.0"]
    (by decide)
  gaps := @runs_of_all _ _ [bytes " ", bytes " "] (by decide)
  fields := List.forall_mem_singleton.mpr
    ⟨(by decide : trim (bytes "Content-Length") = bytes "Content-Length"),
      (by decide : 58 ∉ bytes "Content-Length"), hline⟩
  head_length := hhead
  length := hlength

def shortPost : Message := postMessage (bytes " 2") [1, 2]

/-- Cut within the empty line of the first request and within the body of the second. -/
def cutPipeline : List Chunk :=
  let sent := optionsMessage.wire ++ shortPost.wire
  [⟨sent.take 29, by decide, by decide⟩, ⟨(sent.drop 29).take 60, by decide, by decide⟩,
    ⟨sent.drop 89, by decide, by decide⟩]

theorem cutPipeline_read :
    outcomes .llp64 {incoming := cutPipeline} 3 =
      [.request optionsMessage.request, .request shortPost.request, .closed] := by
  have hms : ∀ m ∈ [optionsMessage, shortPost], m.WellFormed := by
    rw [List.forall_mem_cons, List.forall_mem_singleton]
    exact ⟨optionsMessage_wellFormed,
      postMessage_wellFormed (by decide) (by decide)
        ⟨by decide, List.all_eq_true.mp (by decide), by decide⟩⟩
  have hfits : ∀ m ∈ [optionsMessage, shortPost], m.Fits .llp64 := by
    rw [List.forall_mem_cons, List.forall_mem_singleton]
    exact ⟨⟨by decide, by decide⟩, ⟨by decide, by decide⟩⟩
  exact (pipeline_iff .llp64 [optionsMessage, shortPost] hms cutPipeline rfl).mpr hfits 1

/-- A body of 4 GiB. -/
def bigPost : Message := postMessage (bytes " 4294967296") (List.replicate (2 ^ 32) 0)

/-- As much of it as one recv brings. -/
def bigChunk : Chunk where
  data := List.replicate 4096 0
  some := fun h => absurd (congrArg List.length h) (by rw [List.length_replicate]; decide)
  small := List.length_replicate.le

def bigPipeline : List Chunk :=
  ⟨bigPost.head, by decide, by decide⟩ :: List.replicate (2 ^ 20) bigChunk

theorem bigPost_wellFormed : bigPost.WellFormed := by
  refine postMessage_wellFormed (by decide) (by decide)
    ⟨by decide, List.all_eq_true.mp (by decide), ?_⟩
  rw [List.length_replicate]
  decide

theorem bigPipeline_sent : bigPipeline.flatMap (·.data) = [bigPost].flatMap Message.wire := by
  have hbody : (List.replicate (2 ^ 20) bigChunk).flatMap (·.data) = bigPost.body := by
    rw [List.flatMap_replicate, bigChunk, List.flatten_replicate_replicate]
    rfl
  rw [bigPipeline, List.flatMap_cons, hbody, List.flatMap_singleton, Message.wire]

/-- Where an `unsigned long` has 32 bits it is not what comes out. -/
theorem big_body_lost :
    bigPost.WellFormed ∧ bigPipeline.flatMap (·.data) = [bigPost].flatMap Message.wire ∧
      outcomes .llp64 {incoming := bigPipeline} [bigPost].length ≠ [.request bigPost.request] := by
  refine ⟨bigPost_wellFormed, bigPipeline_sent, fun h => ?_⟩
  have hfits : ¬ bigPost.Fits .llp64 := by
    rintro ⟨hbody, -⟩
    rw [bigPost, postMessage, List.length_replicate] at hbody
    exact absurd hbody (by decide)
  have hstream : RequestReader.stream {incoming := bigPipeline} = bigPost.wire ++ [] := by
    rw [RequestReader.stream, List.nil_append, bigPipeline_sent, List.flatMap_singleton,
      List.append_nil]
  exact bigPost_wellFormed.read_ne hfits (Nat.zero_le _) hstream (List.cons.inj h).1

end AirPlay.Rtsp
