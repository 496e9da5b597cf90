import Mathlib.Algebra.Ring.Int.Defs
import Mathlib.Algebra.GroupWithZero.Nat
import AirPlay.Library.Text
import AirPlay.Rtsp.Message

/-! Reading requests from a connection.

The reader keeps the bytes that recv has brought and no request has used yet. It grows
them until a head is complete, reads the head, grows them by the body, and leaves what
comes after. `size_t` has 64 bits; `unsigned long`, which `Content-Length` goes
through, has 64 or 32. -/
namespace AirPlay.Rtsp

/-- The widths of the integers: `unsigned long` has 64 bits, or 32 on Windows. -/
inductive DataModel where
  | lp64
  | llp64
deriving DecidableEq

def DataModel.ulongBits : DataModel → Nat
  | lp64 => 64
  | llp64 => 32

/-- What one recv brings. -/
structure Chunk where
  data : Bytes
  some : data ≠ []
  small : data.length ≤ 4096

/-- The bytes that no request has used yet, and those that are still to come. -/
structure RequestReader where
  buffer : Bytes := []
  /-- What recv will bring, until it fails. -/
  incoming : List Chunk := []

/-- What is still to come: buffered, or on its way. -/
def RequestReader.stream (r : RequestReader) : Bytes := r.buffer ++ r.incoming.flatMap (·.data)

/-- With more on its way. -/
def RequestReader.more (later : List Chunk) (r : RequestReader) : RequestReader :=
  {r with incoming := r.incoming ++ later}

def isBlank (b : UInt8) : Bool := b = 32 || b = 9

def trim (s : Bytes) : Bytes := (s.dropWhile isBlank).rdropWhile isBlank

/-- `std::stoul`; none where it throws. -/
def stoul (model : DataModel) (v : Bytes) : Option Nat :=
  (Bytes.number v).bind fun n =>
    if 2 ^ model.ulongBits ≤ n.natAbs then none else some (n % 2 ^ model.ulongBits).toNat

def Request.contentLength (model : DataModel) (req : Request) : Nat :=
  let v := req.header (bytes "content-length")
  if v = [] then 0 else (stoul model v).getD 0

/-- The first loop of `read_headers`: grows the buffer until it has the empty line, and
says where the body begins. -/
def findHead (buffer : Bytes) (incoming : List Chunk) : Option Nat × RequestReader :=
  match Bytes.find (Bytes.crlf ++ Bytes.crlf) buffer with
  | some pos => (some (pos + 4), ⟨buffer, incoming⟩)
  | none => match incoming with
    | [] => (none, ⟨buffer, []⟩)
    | chunk :: rest =>
      let buffer := buffer ++ chunk.data
      if buffer.length > 64 * 1024 then (none, ⟨buffer, rest⟩) else findHead buffer rest

/-- Strips scheme and authority. -/
def normaliseUri (uri : Bytes) : Bytes :=
  if (bytes "rtsp://").isPrefixOf uri || (bytes "http://").isPrefixOf uri then
    let schemeEnd := (Bytes.find (bytes "://") uri).getD uri.length
    match Bytes.find (bytes "/") (uri.drop (schemeEnd + 3)) with
    | none => bytes "/"
    | some pathStart => uri.drop (schemeEnd + 3 + pathStart)
  else uri

def addHeader (line : Bytes) (headers : Bytes → Option Bytes) : Bytes → Option Bytes :=
  match Bytes.find (bytes ":") line with
  | none => headers
  | some colon =>
    Function.update headers (toLower (trim (line.take colon))) (some (trim (line.drop (colon + 1))))

/-- The second loop of `read_headers`; `room` is how far the end of the head still is. -/
def headerLoop (room : Nat) (rest : Bytes) (headers : Bytes → Option Bytes) :
    Bytes → Option Bytes :=
  if room = 0 then headers
  else match _h : Bytes.cut Bytes.crlf rest with
    | none => headers
    | some (line, rest') =>
      if line.length > room then headers
      else if line = [] then headers
      else headerLoop (room - (line.length + 2)) rest' (addHeader line headers)
termination_by rest.length
decreasing_by
  rw [Bytes.cut_eq_some Bytes.crlf_ne_nil _h, List.length_append, List.length_append]
  exact Nat.lt_add_of_pos_left (Nat.add_pos_right _ (by decide))

/-- The request line and the headers; none when the line has less than three words. -/
def parseHead (buffer : Bytes) (bodyOffset : Nat) : Option Request :=
  let lineEnd := (Bytes.find Bytes.crlf buffer).getD buffer.length
  (Bytes.token (buffer.take lineEnd)).bind fun (method, s) =>
    (Bytes.token s).bind fun (uri, s) =>
      (Bytes.token s).map fun (version, _) =>
        {method, uri := normaliseUri uri, version
         headers := headerLoop (bodyOffset - 2 - (lineEnd + 2)) (buffer.drop (lineEnd + 2))
           fun _ => none}

def readHeaders (r : RequestReader) : Option (Request × Nat) × RequestReader :=
  match findHead r.buffer r.incoming with
  | (none, r) => (none, r)
  | (some bodyOffset, r) =>
    ((parseHead r.buffer bodyOffset).map fun req => (req, bodyOffset), r)

def fill (need : Nat) (buffer : Bytes) (incoming : List Chunk) : Bool × RequestReader :=
  if need ≤ buffer.length then (true, ⟨buffer, incoming⟩)
  else match incoming with
    | [] => (false, ⟨buffer, []⟩)
    | chunk :: rest => fill need (buffer ++ chunk.data) rest

/-- How a read ends: it returns false, or a request, or it copies a body from outside
of the buffer. -/
inductive Outcome where
  | closed
  | request (req : Request)
  | overrun

def read (model : DataModel) (cancelled : Bool) (r : RequestReader) : Outcome × RequestReader :=
  if cancelled then (.closed, r)
  else match readHeaders r with
    | (none, r) => (.closed, r)
    | (some (req, bodyOffset), r) =>
      let clen := req.contentLength model
      let need := (bodyOffset + clen) % 2 ^ 64
      match fill need r.buffer r.incoming with
      | (false, r) => (.closed, r)
      | (true, r) =>
        (if bodyOffset + clen ≤ r.buffer.length then
            .request {req with body := (r.buffer.drop bodyOffset).take clen}
          else .overrun,
          {r with buffer := r.buffer.drop need})

/-! ### What the loops do -/

theorem contentLength_eq (model : DataModel) (req : Request) :
    req.contentLength model =
      (stoul model (req.header (bytes "content-length"))).getD 0 := by
  rw [Request.contentLength]
  split
  · rename_i hnil
    rw [hnil]
    rfl
  · rfl

theorem stream_chunk (buffer : Bytes) (chunk : Chunk) (rest : List Chunk) :
    buffer ++ (chunk :: rest).flatMap (·.data) =
      buffer ++ chunk.data ++ rest.flatMap (·.data) := by
  rw [List.flatMap_cons, List.append_assoc]

/-- A chunk is not empty. -/
theorem RequestReader.eq_empty {r : RequestReader} (h : r.stream = []) : r = {} := by
  obtain ⟨buffer, incoming⟩ := r
  obtain ⟨rfl, hincoming⟩ := List.append_eq_nil_iff.mp h
  cases incoming with
  | nil => rfl
  | cons chunk rest => exact absurd (List.append_eq_nil_iff.mp hincoming).1 chunk.some

/-- Looking for the head loses nothing. -/
theorem findHead_stream (buffer : Bytes) (incoming : List Chunk) :
    (findHead buffer incoming).2.stream = buffer ++ incoming.flatMap (·.data) := by
  induction incoming generalizing buffer with
  | nil =>
    rw [findHead]
    split <;> rfl
  | cons chunk rest ih =>
    rw [findHead]
    split
    · rfl
    dsimp only
    split
    · exact (stream_chunk buffer chunk rest).symm
    · rw [ih, stream_chunk]

/-- A head is found in a buffer of at most 64 KiB, where the empty line first is. -/
theorem findHead_some {buffer : Bytes} {incoming : List Chunk} {bodyOffset : Nat}
    (hbuffer : buffer.length ≤ 64 * 1024)
    (h : (findHead buffer incoming).1 = some bodyOffset) :
    (findHead buffer incoming).2.buffer.length ≤ 64 * 1024 ∧
      ∃ before after, (findHead buffer incoming).2.buffer =
          before ++ (Bytes.crlf ++ Bytes.crlf) ++ after ∧ bodyOffset = before.length + 4 := by
  induction incoming generalizing buffer with
  | nil =>
    rw [findHead] at h ⊢
    cases hfind : Bytes.find (Bytes.crlf ++ Bytes.crlf) buffer with
    | none =>
      rw [hfind] at h
      exact absurd h (Option.some_ne_none _).symm
    | some pos =>
      rw [hfind] at h
      obtain ⟨before, after, hbefore, hpos⟩ := Bytes.find_eq_some (by decide) hfind
      exact ⟨hbuffer, before, after, hbefore, by rw [← Option.some.inj h, hpos]⟩
  | cons chunk rest ih =>
    rw [findHead] at h ⊢
    cases hfind : Bytes.find (Bytes.crlf ++ Bytes.crlf) buffer with
    | some pos =>
      rw [hfind] at h
      obtain ⟨before, after, hbefore, hpos⟩ := Bytes.find_eq_some (by decide) hfind
      exact ⟨hbuffer, before, after, hbefore, by rw [← Option.some.inj h, hpos]⟩
    | none =>
      rw [hfind] at h
      dsimp only at h ⊢
      split at h
      · exact absurd h (Option.some_ne_none _).symm
      · rename_i hsmall
        rw [if_neg hsmall]
        exact ih (not_lt.mp hsmall) h

/-- Waiting for the body loses nothing. -/
theorem fill_stream (need : Nat) (buffer : Bytes) (incoming : List Chunk) :
    (fill need buffer incoming).2.stream = buffer ++ incoming.flatMap (·.data) := by
  induction incoming generalizing buffer with
  | nil =>
    rw [fill]
    split <;> rfl
  | cons chunk rest ih =>
    rw [fill]
    split
    · rfl
    · rw [ih, stream_chunk]

theorem fill_true {need : Nat} {buffer : Bytes} {incoming : List Chunk}
    (h : (fill need buffer incoming).1 = true) :
    need ≤ (fill need buffer incoming).2.buffer.length ∧
      (fill need buffer incoming).2.buffer.length ≤ max buffer.length (need + 4096) := by
  induction incoming generalizing buffer with
  | nil =>
    rw [fill] at h ⊢
    split at h
    · rename_i hneed
      rw [if_pos hneed]
      exact ⟨hneed, le_max_left ..⟩
    · exact absurd h Bool.false_ne_true
  | cons chunk rest ih =>
    rw [fill] at h ⊢
    split at h
    · rename_i hneed
      rw [if_pos hneed]
      exact ⟨hneed, le_max_left ..⟩
    · rename_i hneed
      rw [if_neg hneed]
      obtain ⟨hle, hmax⟩ := ih h
      refine ⟨hle, hmax.trans ?_⟩
      have hchunk := chunk.small
      rw [List.length_append]
      omega

/-- A body that comes is waited for. -/
theorem fill_of_le {need : Nat} {buffer : Bytes} {incoming : List Chunk}
    (h : need ≤ (buffer ++ incoming.flatMap (·.data)).length) :
    (fill need buffer incoming).1 = true := by
  induction incoming generalizing buffer with
  | nil =>
    rw [List.flatMap_nil, List.append_nil] at h
    rw [fill, if_pos h]
  | cons chunk rest ih =>
    rw [fill]
    split
    · rfl
    · exact ih (by rwa [stream_chunk] at h)

/-- A head that is found needs nothing of what comes later. -/
theorem findHead_later {buffer : Bytes} {incoming : List Chunk} {bodyOffset : Nat}
    (h : (findHead buffer incoming).1 = some bodyOffset) (later : List Chunk) :
    findHead buffer (incoming ++ later) =
      (some bodyOffset, (findHead buffer incoming).2.more later) := by
  induction incoming generalizing buffer with
  | nil =>
    rw [findHead.eq_def] at h ⊢
    rw [findHead.eq_def]
    cases hfind : Bytes.find (Bytes.crlf ++ Bytes.crlf) buffer with
    | none =>
      rw [hfind] at h
      exact absurd h (Option.some_ne_none _).symm
    | some pos =>
      rw [hfind] at h
      rw [← h]
      rfl
  | cons chunk rest ih =>
    rw [List.cons_append, findHead]
    rw [findHead] at h ⊢
    cases hfind : Bytes.find (Bytes.crlf ++ Bytes.crlf) buffer with
    | some pos =>
      rw [hfind] at h
      rw [← h]
      rfl
    | none =>
      rw [hfind] at h
      dsimp only at h ⊢
      split at h
      · exact absurd h (Option.some_ne_none _).symm
      · rename_i hsmall
        rw [if_neg hsmall, if_neg hsmall]
        exact ih h

/-- Without its end within 64 KiB a head is not found. -/
theorem findHead_overflow {buffer : Bytes} {incoming rest : List Chunk} {chunk : Chunk}
    (hnone : ∀ arrived, arrived <+: buffer ++ incoming.flatMap (·.data) →
      Bytes.find (Bytes.crlf ++ Bytes.crlf) arrived = none)
    (hsmall : (buffer ++ incoming.flatMap (·.data)).length ≤ 64 * 1024)
    (hlarge : 64 * 1024 < (buffer ++ incoming.flatMap (·.data) ++ chunk.data).length) :
    (findHead buffer (incoming ++ chunk :: rest)).1 = none := by
  induction incoming generalizing buffer with
  | nil =>
    rw [List.flatMap_nil, List.append_nil] at hnone hlarge
    rw [List.nil_append, findHead, hnone buffer (List.prefix_refl _)]
    dsimp only
    rw [if_pos hlarge]
  | cons first incoming ih =>
    rw [stream_chunk] at hnone hsmall hlarge
    have hfirst : ¬ (buffer ++ first.data).length > 64 * 1024 := by
      rw [List.length_append] at hsmall
      omega
    rw [List.cons_append, findHead, hnone buffer ((List.prefix_append _ _).trans
      (List.prefix_append _ _))]
    dsimp only
    rw [if_neg hfirst]
    exact ih hnone hsmall hlarge

theorem fill_later {need : Nat} {buffer : Bytes} {incoming : List Chunk}
    (h : (fill need buffer incoming).1 = true) (later : List Chunk) :
    fill need buffer (incoming ++ later) =
      (true, (fill need buffer incoming).2.more later) := by
  induction incoming generalizing buffer with
  | nil =>
    rw [fill.eq_def] at h ⊢
    rw [fill.eq_def]
    split at h
    · rename_i hneed
      rw [if_pos hneed, if_pos hneed]
      rfl
    · exact absurd h Bool.false_ne_true
  | cons chunk rest ih =>
    rw [List.cons_append, fill]
    rw [fill] at h ⊢
    split at h
    · rename_i hneed
      rw [if_pos hneed, if_pos hneed]
      rfl
    · rename_i hneed
      rw [if_neg hneed, if_neg hneed]
      exact ih h

/-- The headers of lines, the last of a name to stand. -/
def headersOf (lines : List Bytes) : Bytes → Option Bytes :=
  lines.foldl (fun headers line => addHeader line headers) fun _ => none

/-- A line that is not empty and holds no CRLF. -/
def IsLine (line : Bytes) : Prop := line ≠ [] ∧ ¬ Bytes.crlf <:+: line

instance (line : Bytes) : Decidable (IsLine line) :=
  inferInstanceAs (Decidable (line ≠ [] ∧ ¬ Bytes.crlf <:+: line))

/-- The loop takes the lines up to the end of the head one by one. -/
theorem headerLoop_lines (lines : List Bytes) (h : ∀ line ∈ lines, IsLine line) (t : Bytes)
    (headers : Bytes → Option Bytes) :
    headerLoop (Bytes.unlines lines).length (Bytes.unlines lines ++ t) headers =
      lines.foldl (fun headers line => addHeader line headers) headers := by
  induction lines generalizing headers with
  | nil =>
    rw [headerLoop]
    rfl
  | cons line lines ih =>
    obtain ⟨⟨hne, hcrlf⟩, hlines⟩ := List.forall_mem_cons.mp h
    have hcut := Bytes.cut_line hcrlf (Bytes.unlines lines ++ t)
    have hlength : (Bytes.unlines (line :: lines)).length =
        line.length + 2 + (Bytes.unlines lines).length := by
      rw [Bytes.unlines_cons, List.length_append, List.length_append, ← Nat.add_assoc]
      rfl
    rw [headerLoop, hlength, if_neg (by omega), Bytes.unlines_cons, List.append_assoc,
      List.append_assoc]
    split
    · rename_i hnone
      exact absurd (hcut.symm.trans hnone) (Option.some_ne_none _)
    · rename_i line' rest hsome
      obtain ⟨rfl, rfl⟩ := Prod.mk.inj (Option.some.inj (hsome.symm.trans hcut))
      rw [if_neg (by omega), if_neg hne, Nat.add_sub_cancel_left, ih hlines]
      rfl

/-- A head: a first line, header lines, an empty line. -/
theorem parseHead_line {line : Bytes} {lines : List Bytes} (hcrlf : ¬ Bytes.crlf <:+: line)
    (h : ∀ line ∈ lines, IsLine line) (t : Bytes) :
    parseHead (Bytes.unlines (line :: lines) ++ t) ((Bytes.unlines (line :: lines)).length + 2) =
      (Bytes.token line).bind fun (method, s) =>
        (Bytes.token s).bind fun (uri, s) =>
          (Bytes.token s).map fun (version, _) =>
            {method, uri := normaliseUri uri, version, headers := headersOf lines} := by
  have hbuffer : Bytes.unlines (line :: lines) ++ t =
      line ++ (Bytes.crlf ++ (Bytes.unlines lines ++ t)) := by
    rw [Bytes.unlines_cons, List.append_assoc, List.append_assoc]
  have hfind : Bytes.find Bytes.crlf (Bytes.unlines (line :: lines) ++ t) = some line.length := by
    rw [hbuffer, Bytes.find, Bytes.cut_line hcrlf, Option.map_some]
  have htake : (Bytes.unlines (line :: lines) ++ t).take line.length = line := by
    rw [hbuffer, List.take_left]
  have hdrop : (Bytes.unlines (line :: lines) ++ t).drop (line.length + 2) =
      Bytes.unlines lines ++ t := by
    rw [hbuffer, ← List.drop_drop, List.drop_left]
    rfl
  have hroom : (Bytes.unlines (line :: lines)).length + 2 - 2 - (line.length + 2) =
      (Bytes.unlines lines).length := by
    rw [Bytes.unlines_cons, List.length_append, List.length_append]
    simp only [Bytes.crlf, List.length_cons, List.length_nil]
    omega
  rw [parseHead, hfind, Option.getD_some, htake, hdrop, hroom, headerLoop_lines lines h]
  rfl

/-- A first line of three words and maybe more. -/
theorem parseHead_lines {requestLine method uri version s₁ s₂ s₃ : Bytes} {lines : List Bytes}
    (hcrlf : ¬ Bytes.crlf <:+: requestLine)
    (hmethod : Bytes.token requestLine = some (method, s₁))
    (huri : Bytes.token s₁ = some (uri, s₂)) (hversion : Bytes.token s₂ = some (version, s₃))
    (h : ∀ line ∈ lines, IsLine line) (t : Bytes) :
    parseHead (Bytes.unlines (requestLine :: lines) ++ t)
        ((Bytes.unlines (requestLine :: lines)).length + 2) =
      some {method, uri := normaliseUri uri, version, headers := headersOf lines} := by
  rw [parseHead_line hcrlf h, hmethod, Option.bind_some]
  dsimp only
  rw [huri, Option.bind_some]
  dsimp only
  rw [hversion, Option.map_some]

theorem readHeaders_of_found {r r' : RequestReader} {bodyOffset : Nat}
    (h : findHead r.buffer r.incoming = (some bodyOffset, r')) :
    readHeaders r = ((parseHead r'.buffer bodyOffset).map fun req => (req, bodyOffset), r') := by
  rw [readHeaders, h]

theorem readHeaders_eq_none {r : RequestReader} (h : (findHead r.buffer r.incoming).1 = none) :
    (readHeaders r).1 = none := by
  cases hfound : findHead r.buffer r.incoming with
  | mk found r' =>
    rw [hfound] at h
    dsimp only at h
    subst h
    rw [readHeaders, hfound]

/-- A head that is read ends in the buffer, which has at most 64 KiB then. -/
theorem readHeaders_some {r : RequestReader} {req : Request} {bodyOffset : Nat}
    (hbuffer : r.buffer.length ≤ 64 * 1024)
    (h : (readHeaders r).1 = some (req, bodyOffset)) :
    bodyOffset ≤ (readHeaders r).2.buffer.length ∧
      (readHeaders r).2.buffer.length ≤ 64 * 1024 := by
  have hfound := fun off => @findHead_some r.buffer r.incoming off hbuffer
  rw [readHeaders] at h ⊢
  cases hhead : findHead r.buffer r.incoming with
  | mk found r' =>
    rw [hhead] at h hfound
    cases found with
    | none => exact absurd h (Option.some_ne_none _).symm
    | some off =>
      obtain ⟨req', -, heq⟩ := Option.map_eq_some_iff.mp h
      obtain ⟨hle, before, after, hsplit, hoff⟩ := hfound off rfl
      refine ⟨?_, hle⟩
      dsimp only at hsplit ⊢
      rw [← (Prod.mk.inj heq).2, hoff, hsplit]
      simp only [List.length_append, Bytes.crlf, List.length_cons, List.length_nil]
      omega

/-- A read whose head and body have come. -/
theorem read_of_filled {model : DataModel} {r r' filled : RequestReader} {req : Request}
    {bodyOffset : Nat} (hread : readHeaders r = (some (req, bodyOffset), r'))
    (hfill : fill ((bodyOffset + req.contentLength model) % 2 ^ 64) r'.buffer r'.incoming =
      (true, filled)) :
    read model false r =
      (if bodyOffset + req.contentLength model ≤ filled.buffer.length then
          .request {req with
            body := (filled.buffer.drop bodyOffset).take (req.contentLength model)}
        else .overrun,
        {filled with
          buffer := filled.buffer.drop ((bodyOffset + req.contentLength model) % 2 ^ 64)}) := by
  rw [read, if_neg Bool.false_ne_true, hread]
  dsimp only
  rw [hfill]

/-- A read that does not return false has read a head and waited for the body. -/
theorem read_open {model : DataModel} {r : RequestReader} {cancelled : Bool}
    (h : (read model cancelled r).1 ≠ .closed) :
    cancelled = false ∧ ∃ req bodyOffset filled, (readHeaders r).1 = some (req, bodyOffset) ∧
      fill ((bodyOffset + req.contentLength model) % 2 ^ 64) (readHeaders r).2.buffer
        (readHeaders r).2.incoming = (true, filled) ∧
      read model cancelled r =
        (if bodyOffset + req.contentLength model ≤ filled.buffer.length then
            .request {req with
              body := (filled.buffer.drop bodyOffset).take (req.contentLength model)}
          else .overrun,
          {filled with
            buffer := filled.buffer.drop ((bodyOffset + req.contentLength model) % 2 ^ 64)}) := by
  cases cancelled with
  | true => exact absurd rfl h
  | false =>
    refine ⟨rfl, ?_⟩
    rw [read, if_neg Bool.false_ne_true] at h
    cases hread : readHeaders r with
    | mk head r' =>
      rw [hread] at h
      cases head with
      | none => exact absurd rfl h
      | some p =>
        obtain ⟨req, bodyOffset⟩ := p
        dsimp only at h
        cases hfill : fill ((bodyOffset + req.contentLength model) % 2 ^ 64) r'.buffer
          r'.incoming with
        | mk ok filled =>
          rw [hfill] at h
          cases ok with
          | false => exact absurd rfl h
          | true => exact ⟨req, bodyOffset, filled, rfl, hfill, read_of_filled hread hfill⟩

/-- A read that does not return false needs nothing of what comes later. -/
theorem read_later {model : DataModel} {r : RequestReader}
    (h : (read model false r).1 ≠ .closed) (later : List Chunk) :
    read model false (r.more later) =
      ((read model false r).1, (read model false r).2.more later) := by
  obtain ⟨-, req, bodyOffset, filled, hread, hfill, hout⟩ := read_open h
  cases hfound : findHead r.buffer r.incoming with
  | mk found r' =>
    cases found with
    | none =>
      rw [readHeaders, hfound] at hread
      exact absurd hread (Option.some_ne_none _).symm
    | some off =>
      rw [readHeaders_of_found hfound] at hread hfill
      have hlater : readHeaders (r.more later) = (some (req, bodyOffset), r'.more later) := by
        have hmore := findHead_later (congrArg Prod.fst hfound) later
        rw [hfound] at hmore
        rw [readHeaders_of_found (r := r.more later) hmore]
        exact Prod.ext hread rfl
      have hmore := fill_later (congrArg Prod.fst hfill) later
      rw [hfill] at hmore
      rw [hout, read_of_filled hlater hmore]
      rfl

/-- What is left in the buffer for the next read has at most 64 KiB. -/
theorem read_buffer {model : DataModel} {r : RequestReader} {cancelled : Bool}
    (hbuffer : r.buffer.length ≤ 64 * 1024) (h : (read model cancelled r).1 ≠ .closed) :
    (read model cancelled r).2.buffer.length ≤ 64 * 1024 := by
  obtain ⟨-, req, bodyOffset, filled, hread, hfill, hout⟩ := read_open h
  obtain ⟨-, hsmall⟩ := readHeaders_some hbuffer hread
  have hmax := (fill_true (congrArg Prod.fst hfill)).2
  rw [hfill] at hmax
  rw [hout, List.length_drop]
  dsimp only at hmax ⊢
  omega

end AirPlay.Rtsp
