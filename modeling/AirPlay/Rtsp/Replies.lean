import AirPlay.Rtsp.Framing

/-! Replies on a reverse connection.

A connection that has sent POST /reverse carries the peer's replies to our own requests
between its ordinary requests. The reader takes a reply for a request whose method is the
protocol version, and `dispatch` drops those in silence. A status line is three words to
the reader, so a reply without a reason phrase is none, and ends the connection
(`absorbed_iff`). -/
namespace AirPlay.Rtsp

/-! ### The loop of a connection -/

section Loop
variable {σ : Type} (model : DataModel) (handle : σ → Request → σ × Response)

/-- A connection, with a session that its handlers work on. -/
structure Connection (σ : Type) where
  reader : RequestReader
  session : σ
  sent : List Response := []
  alive : Bool := true

/-- `handle` is what stands behind the filter of replies. -/
def dispatch (session : σ) (req : Request) : σ × Response :=
  if (bytes "HTTP/").isPrefixOf req.method then
    (session, {make 200 (bytes "OK") with silent := true})
  else handle session req

/-- A request is handled, and answered unless in silence; `s` is the session and what has
been sent. -/
def answer (s : σ × List Response) (req : Request) : σ × List Response :=
  let (session, res) := handle s.1 req
  (session, if res.silent then s.2 else s.2 ++ [res])

/-- One turn of the loop of `handle_client`, which nobody cancels and whose sends succeed. -/
def turn (c : Connection σ) : Connection σ :=
  if c.alive then
    match read model false c.reader with
    | (.request req, reader) =>
      let (session, sent) := answer (dispatch handle) (c.session, c.sent) req
      {c with reader, session, sent}
    | (_, reader) => {c with reader, alive := false}
  else c

end Loop

/-! ### Replies as they are sent -/

/-- `HTTP/1.x NNN reason`, header lines and a body. -/
structure Reply where
  minor : UInt8
  code : Bytes
  reason : Bytes
  fields : List Field
  body : Bytes

namespace Reply

def statusLine (r : Reply) : Bytes :=
  bytes "HTTP/1." ++ [r.minor] ++ (bytes " " ++ (r.code ++ (bytes " " ++ r.reason)))

def lines (r : Reply) : List Bytes := r.statusLine :: r.fields.map Field.line

def head (r : Reply) : Bytes := Bytes.unlines r.lines ++ Bytes.crlf

/-- The last field of a name, which is in lower case, has its value. -/
def headers (r : Reply) (key : Bytes) : Option Bytes :=
  (r.fields.reverse.find? fun f => toLower f.name = key).map fun f => trim f.value

/-- The reason phrase has blanks and visible bytes only, and may be empty. -/
structure WellFormed (r : Reply) : Prop where
  minor : Bytes.isDigit r.minor = true
  code : r.code.length = 3 ∧ ∀ b ∈ r.code, Bytes.isDigit b = true
  reason : ∀ b ∈ r.reason, b = 9 ∨ 32 ≤ b ∧ b ≠ 127
  fields : ∀ f ∈ r.fields, f.WellFormed
  length : Declares (r.headers (bytes "content-length")) r.body

/-- The reason phrase has something other than blanks. -/
def Named (r : Reply) : Prop := ∃ b ∈ r.reason, Bytes.isSpace b = false

end Reply

/-- What a peer sends: an ordinary request, or a reply. -/
inductive Item where
  | request (m : Message)
  | reply (r : Reply)

namespace Item

def head : Item → Bytes
  | request m => m.head
  | reply r => r.head

def body : Item → Bytes
  | request m => m.body
  | reply r => r.body

def wire (x : Item) : Bytes := x.head ++ x.body

/-- The requests among what is sent. -/
def requests : Item → List Request
  | request m => [m.request]
  | reply _ => []

def WellFormed : Item → Prop
  | request m => m.Spelled ∧ Declares (m.headers (bytes "content-length")) m.body ∧
      ¬ bytes "HTTP/" <+: m.method
  | reply r => r.WellFormed

def Named : Item → Prop
  | request _ => True
  | reply r => r.Named

end Item

/-- The first items of a connection are done: it is open, stands where the requests among
them alone have brought it, and has the rest before it. -/
structure Kept {σ : Type} (handle : σ → Request → σ × Response) (s : σ × List Response)
    (done rest : List Item) (c : Connection σ) : Prop where
  alive : c.alive = true
  answered : (c.session, c.sent) = (done.flatMap Item.requests).foldl (answer handle) s
  stream : c.reader.stream = rest.flatMap Item.wire

/-- However the items arrive, each takes one turn, and the replies leave no trace. -/
def Absorbed {σ : Type} (model : DataModel) (handle : σ → Request → σ × Response)
    (s : σ × List Response) (items : List Item) : Prop :=
  ∀ incoming : List Chunk, incoming.flatMap (·.data) = items.flatMap Item.wire →
    ∀ k ≤ items.length, Kept handle s (items.take k) (items.drop k)
      ((turn model handle)^[k] {reader := {incoming}, session := s.1, sent := s.2})

/-- Every reply has a reason, every body a length that counts, and every head is within
64 KiB, or all that is still to come is. -/
def Readable (model : DataModel) : List Item → Prop
  | [] => True
  | x :: rest => (x.Named ∧ BodyFits model x.head x.body ∧
      HeadFits x.head (x.body ++ rest.flatMap Item.wire)) ∧ Readable model rest

/-! ### One item -/

namespace Reply
variable {r : Reply}

theorem isSpace_of_isDigit {b : UInt8} (h : Bytes.isDigit b = true) : Bytes.isSpace b = false := by
  rw [Bytes.isDigit, Bool.and_eq_true, decide_eq_true_iff, decide_eq_true_iff] at h
  rw [Bytes.isSpace, Bool.or_eq_false_iff, Bool.and_eq_false_iff, decide_eq_false_iff_not,
    decide_eq_false_iff_not, decide_eq_false_iff_not]
  refine ⟨?_, .inr ?_⟩
  · rintro rfl
    exact absurd h.1 (by decide)
  · exact fun hle => absurd (UInt8.le_trans h.1 hle) (by decide)

/-- The first two words of the status line, and the reason behind them. -/
theorem WellFormed.tokens (h : r.WellFormed) :
    Bytes.token r.statusLine =
        some (bytes "HTTP/1." ++ [r.minor], bytes " " ++ (r.code ++ (bytes " " ++ r.reason))) ∧
      Bytes.token (bytes " " ++ (r.code ++ (bytes " " ++ r.reason))) =
        some (r.code, bytes " " ++ r.reason) := by
  have hspace : ∀ {rest : Bytes}, ∀ b ∈ (bytes " " ++ rest).head?, Bytes.isSpace b = true := by
    intro rest b hb
    rw [← Option.some.inj hb]
    decide
  refine ⟨?_, ?_⟩
  · refine @Bytes.token_word [] (bytes "HTTP/1." ++ [r.minor]) _ (by simp)
      (List.append_ne_nil_of_left_ne_nil (by decide) _) (fun b hb => ?_) hspace
    rcases List.mem_append.mp hb with hb | hb
    · exact (runs_of_all (by decide) _ (List.mem_singleton_self (bytes "HTTP/1."))).2 b hb
    · rw [List.mem_singleton.mp hb]
      exact isSpace_of_isDigit h.minor
  · have hblank : ∀ b ∈ bytes " ", Bytes.isSpace b = true := List.forall_mem_singleton.mpr rfl
    refine Bytes.token_word hblank ?_ (fun b hb => isSpace_of_isDigit (h.code.2 b hb)) hspace
    intro hnil
    exact absurd (hnil ▸ h.code.1) (by decide)

theorem WellFormed.statusLine_crlf (h : r.WellFormed) : ¬ Bytes.crlf <:+: r.statusLine := by
  intro hin
  have hcr : 13 ∈ r.statusLine := hin.subset List.mem_cons_self
  simp only [statusLine, List.mem_append, List.mem_singleton] at hcr
  rcases hcr with (hcr | hcr) | hcr | hcr | hcr | hcr
  · exact absurd hcr (by decide)
  · exact absurd (hcr ▸ h.minor) (by decide)
  · exact absurd hcr (by decide)
  · exact absurd (h.code.2 13 hcr) (by decide)
  · exact absurd hcr (by decide)
  · exact absurd (h.reason 13 hcr) (by decide)

theorem WellFormed.fieldLines (h : r.WellFormed) : ∀ line ∈ r.fields.map Field.line, IsLine line :=
  fun _ hline => by
    obtain ⟨f, hf, rfl⟩ := List.mem_map.mp hline
    exact (h.fields f hf).isLine

theorem WellFormed.isLines (h : r.WellFormed) : ∃ lines, lines ≠ [] ∧
    (∀ line ∈ lines, IsLine line) ∧ r.head = Bytes.unlines lines ++ Bytes.crlf :=
  ⟨r.lines, List.cons_ne_nil _ _, List.forall_mem_cons.mpr
    ⟨⟨List.append_ne_nil_of_left_ne_nil (List.append_ne_nil_of_left_ne_nil (by decide) _) _,
      h.statusLine_crlf⟩, h.fieldLines⟩, rfl⟩

/-- How a reply is parsed depends on the first word of its reason. -/
theorem WellFormed.parseHead_eq (h : r.WellFormed) (t : Bytes) :
    parseHead (r.head ++ t) r.head.length =
      (Bytes.token (bytes " " ++ r.reason)).map fun (version, _) =>
        {method := bytes "HTTP/1." ++ [r.minor], uri := normaliseUri r.code, version,
         headers := r.headers} := by
  obtain ⟨hversion, hcode⟩ := h.tokens
  have hheaders : headersOf (r.fields.map Field.line) = r.headers :=
    funext fun key => Message.headersOf_fields r.fields h.fields key
  have hparse := parseHead_line h.statusLine_crlf h.fieldLines (Bytes.crlf ++ t)
  rw [hversion, Option.bind_some] at hparse
  dsimp only at hparse
  rw [hcode, Option.bind_some] at hparse
  dsimp only at hparse
  rw [head, List.append_assoc, List.length_append, ← hheaders]
  exact hparse

/-- The status line has a third word exactly when the reason is not blank. -/
theorem token_reason (r : Reply) : (Bytes.token (bytes " " ++ r.reason)).isSome ↔ r.Named := by
  rw [Named, Option.isSome_iff_ne_none, ne_eq, Bytes.token_eq_none_iff, not_forall]
  constructor
  · rintro ⟨b, hb⟩
    rw [Classical.not_imp, Bool.not_eq_true] at hb
    rcases List.mem_append.mp hb.1 with hblank | hreason
    · rw [List.mem_singleton.mp hblank] at hb
      exact absurd hb.2 (by decide)
    · exact ⟨b, hreason, hb.2⟩
  · rintro ⟨b, hreason, hb⟩
    exact ⟨b, fun hall => absurd (hall (List.mem_append_right _ hreason)) (by rw [hb]; decide)⟩

/-- A reply with a reason is taken for a request, whose method is the version. -/
theorem WellFormed.framed (h : r.WellFormed) (hnamed : r.Named) :
    ∃ req, Framed r.head r.body req ∧ req.method = bytes "HTTP/1." ++ [r.minor] := by
  obtain ⟨⟨version, rest⟩, htoken⟩ := Option.isSome_iff_exists.mp (r.token_reason.mpr hnamed)
  let req : Request :=
    {method := bytes "HTTP/1." ++ [r.minor], uri := normaliseUri r.code, version,
     headers := r.headers}
  have hparse : ∀ t, parseHead (r.head ++ t) r.head.length = some req := by
    intro t
    rw [h.parseHead_eq, htoken, Option.map_some]
  exact ⟨req, ⟨h.isLines, hparse, h.length⟩, rfl⟩

/-- A reply without one is no request. -/
theorem WellFormed.parseHead_none (h : r.WellFormed) (hnamed : ¬ r.Named) (t : Bytes) :
    parseHead (r.head ++ t) r.head.length = none := by
  have hnone := Option.not_isSome_iff_eq_none.mp (mt r.token_reason.mp hnamed)
  rw [h.parseHead_eq, hnone, Option.map_none]

end Reply

namespace Item
variable {σ : Type} {x : Item}

theorem WellFormed.isLines (h : x.WellFormed) : ∃ lines, lines ≠ [] ∧
    (∀ line ∈ lines, IsLine line) ∧ x.head = Bytes.unlines lines ++ Bytes.crlf := by
  cases x with
  | request m => exact ⟨m.lines, List.cons_ne_nil _ _, h.1.isLine, rfl⟩
  | reply r => exact Reply.WellFormed.isLines h

/-- What is read for an item is answered as the requests among it are. -/
theorem WellFormed.framed (h : x.WellFormed) (handle : σ → Request → σ × Response)
    (hnamed : x.Named) : ∃ req, Framed x.head x.body req ∧ ∀ s : σ × List Response,
      answer (dispatch handle) s {req with body := x.body} =
        x.requests.foldl (answer handle) s := by
  cases x with
  | request m =>
    obtain ⟨hspelled, hlength, hmethod⟩ := h
    refine ⟨m.headRequest, hspelled.framed hlength, fun s => ?_⟩
    have hordinary : ¬ (bytes "HTTP/").isPrefixOf m.request.method = true := by
      rwa [List.isPrefixOf_iff_prefix]
    show answer (dispatch handle) s m.request = answer handle s m.request
    rw [answer, answer, dispatch, if_neg hordinary]
  | reply r =>
    obtain ⟨req, hframed, hmethod⟩ := Reply.WellFormed.framed h hnamed
    refine ⟨req, hframed, fun s => ?_⟩
    have hreply : (bytes "HTTP/").isPrefixOf req.method = true := by
      rw [hmethod, List.isPrefixOf_iff_prefix]
      exact ⟨bytes "1." ++ [r.minor], rfl⟩
    rw [answer, dispatch, if_pos hreply]
    rfl

end Item

/-- Without a reason a reply ends its connection. -/
theorem Item.WellFormed.read_ne {model : DataModel} {x : Item} {r : RequestReader} {t : Bytes}
    (h : x.WellFormed) (hnamed : ¬ x.Named) (hhead : HeadFits x.head (x.body ++ t))
    (hstream : r.stream = x.head ++ (x.body ++ t)) (req : Request) :
    (read model false r).1 ≠ .request req := by
  obtain ⟨before, hcut, hbefore⟩ := cut_lines h.isLines (x.body ++ t)
  obtain ⟨hfind, y, hy⟩ := findHead_head hcut hbefore hhead hstream
  cases x with
  | request m => exact absurd trivial hnamed
  | reply reply =>
    intro hread
    have hopen : (read model false r).1 ≠ .closed := by
      rw [hread]
      exact Outcome.noConfusion
    obtain ⟨-, req', off, -, hheaders, -⟩ := read_open hopen
    have hnone := Reply.WellFormed.parseHead_none h hnamed y
    rw [readHeaders_of_found (Prod.ext hfind rfl), ← hy] at hheaders
    dsimp only [Item.head] at hheaders
    rw [hnone] at hheaders
    exact absurd hheaders (Option.some_ne_none _).symm

/-! ### One turn -/

section Turn
variable {σ : Type} {model : DataModel} {handle : σ → Request → σ × Response}
  {c : Connection σ} {x : Item} {t : Bytes}

theorem turn_request {req : Request} {reader : RequestReader} (halive : c.alive = true)
    (hread : read model false c.reader = (.request req, reader)) :
    turn model handle c =
      {c with
        reader
        session := (answer (dispatch handle) (c.session, c.sent) req).1
        sent := (answer (dispatch handle) (c.session, c.sent) req).2} := by
  rw [turn, if_pos halive, hread]

theorem turn_ended (hread : ∀ req, (read model false c.reader).1 ≠ .request req) :
    (turn model handle c).alive = false := by
  rw [turn]
  split
  · cases hr : read model false c.reader with
    | mk outcome reader =>
      rw [hr] at hread
      cases outcome with
      | request req => exact absurd rfl (hread req)
      | closed => rfl
      | overrun => rfl
  · rename_i hended
    exact Bool.not_eq_true _ ▸ hended

/-- An item that can be read takes one turn. -/
theorem turn_item (handle : σ → Request → σ × Response) (hx : x.WellFormed)
    (hnamed : x.Named) (hbody : BodyFits model x.head x.body)
    (hhead : HeadFits x.head (x.body ++ t)) (halive : c.alive = true)
    (hbuffer : c.reader.buffer.length ≤ 64 * 1024)
    (hstream : c.reader.stream = x.head ++ (x.body ++ t)) :
    (turn model handle c).alive = true ∧
      ((turn model handle c).session, (turn model handle c).sent) =
        x.requests.foldl (answer handle) (c.session, c.sent) ∧
      (turn model handle c).reader.stream = t ∧
      (turn model handle c).reader.buffer.length ≤ 64 * 1024 := by
  obtain ⟨req, hframed, hanswer⟩ := hx.framed handle hnamed
  obtain ⟨hread, hleft⟩ := hframed.read_eq hbody hhead hstream
  have hopen : (read model false c.reader).1 ≠ .closed := by
    rw [hread]
    exact Outcome.noConfusion
  rw [turn_request halive (Prod.ext hread rfl)]
  exact ⟨halive, hanswer (c.session, c.sent), hleft, read_buffer hbuffer hopen⟩

end Turn

/-! ### Arrivals -/

/-- Each byte by itself. -/
def singles (b : Bytes) : List Chunk :=
  b.map fun x => ⟨[x], List.cons_ne_nil _ _, by rw [List.length_singleton]; decide⟩

theorem singles_data (b : Bytes) : (singles b).flatMap (·.data) = b := by
  induction b with
  | nil => rfl
  | cons x b ih =>
    show [x] ++ (singles b).flatMap (·.data) = x :: b
    rw [ih]
    rfl

/-- A head that does not fit is lost where it comes up to its last byte and then, in one
chunk, over the limit. -/
theorem exists_overflow {head t : Bytes} (hlines : ∃ lines, lines ≠ [] ∧
    (∀ line ∈ lines, IsLine line) ∧ head = Bytes.unlines lines ++ Bytes.crlf)
    (h : ¬ HeadFits head t) :
    ∃ incoming : List Chunk, incoming.flatMap (·.data) = head ++ t ∧
      (findHead [] incoming).1 = none := by
  rw [HeadFits, not_or, not_le, not_le] at h
  obtain ⟨hlong, htotal⟩ := h
  obtain ⟨before, hcut, hbefore⟩ := cut_lines hlines t
  obtain ⟨p, hp⟩ : ∃ p, p < head.length ∧ p ≤ 64 * 1024 ∧ 64 * 1024 < p + 4096 :=
    ⟨min (head.length - 1) (64 * 1024), by omega⟩
  generalize head ++ t = stream at htotal hcut ⊢
  have hfirst : (stream.take p).length = p := by
    rw [List.length_take]
    omega
  have hsecond : ((stream.drop p).take (64 * 1024 + 1 - p)).length = 64 * 1024 + 1 - p := by
    rw [List.length_take, List.length_drop]
    omega
  let chunk : Chunk := ⟨(stream.drop p).take (64 * 1024 + 1 - p),
    List.ne_nil_of_length_pos (by omega), by omega⟩
  refine ⟨singles (stream.take p) ++
    chunk :: singles ((stream.drop p).drop (64 * 1024 + 1 - p)), ?_, ?_⟩
  · rw [List.flatMap_append, List.flatMap_cons, singles_data, singles_data,
      List.take_append_drop, List.take_append_drop]
  · refine findHead_overflow (fun arrived harrived => ?_) ?_ ?_
    · rw [List.nil_append, singles_data] at harrived
      have hshort := harrived.length_le
      obtain ⟨rest, hrest⟩ := harrived.trans (List.take_prefix p stream)
      rw [← hrest] at hcut
      rcases Bytes.find_arrived (by decide) hcut with ⟨-, hprefix⟩ | ⟨hnone, -⟩
      · have hle := hprefix.length_le
        rw [← hbefore] at hle
        omega
      · exact hnone
    · rw [List.nil_append, singles_data]
      omega
    · rw [List.nil_append, singles_data, List.length_append]
      show 64 * 1024 < (stream.take p).length + ((stream.drop p).take (64 * 1024 + 1 - p)).length
      omega

/-! ### Whole connections -/

section Absorbed
variable {σ : Type} {model : DataModel} {handle : σ → Request → σ × Response}
  {s : σ × List Response} {x : Item} {items : List Item}

/-- Readable items are done one by one, from whatever an earlier turn has buffered. -/
theorem kept_of_readable (hitems : ∀ x ∈ items, x.WellFormed) (hreadable : Readable model items)
    {c : Connection σ} (halive : c.alive = true) (hbuffer : c.reader.buffer.length ≤ 64 * 1024)
    (hstream : c.reader.stream = items.flatMap Item.wire) {k : Nat} (hk : k ≤ items.length) :
    Kept handle (c.session, c.sent) (items.take k) (items.drop k)
      ((turn model handle)^[k] c) := by
  induction items generalizing c k with
  | nil =>
    obtain rfl : k = 0 := Nat.le_zero.mp hk
    exact ⟨halive, rfl, hstream⟩
  | cons x items ih =>
    cases k with
    | zero => exact ⟨halive, rfl, hstream⟩
    | succ k =>
      obtain ⟨hx, hrest⟩ := List.forall_mem_cons.mp hitems
      obtain ⟨⟨hnamed, hbody, hhead⟩, hreadable⟩ := hreadable
      rw [List.flatMap_cons, Item.wire, List.append_assoc] at hstream
      obtain ⟨halive', hanswered, hstream', hbuffer'⟩ :=
        turn_item handle hx hnamed hbody hhead halive hbuffer hstream
      have hkept := ih hrest hreadable halive' hbuffer' hstream' (Nat.le_of_succ_le_succ hk)
      refine ⟨hkept.alive, ?_, hkept.stream⟩
      rw [Function.iterate_succ_apply, hkept.answered, hanswered, ← List.foldl_append]
      rfl

theorem Absorbed.first (h : Absorbed model handle s (x :: items)) {incoming : List Chunk}
    (hsent : incoming.flatMap (·.data) = x.head ++ (x.body ++ items.flatMap Item.wire)) :
    Kept handle s [x] items
      (turn model handle {reader := {incoming}, session := s.1, sent := s.2}) :=
  h incoming (by rw [hsent, List.flatMap_cons, Item.wire, List.append_assoc]) 1
    (Nat.le_add_left 1 _)

theorem Absorbed.first_read (h : Absorbed model handle s (x :: items)) {incoming : List Chunk}
    (hsent : incoming.flatMap (·.data) = x.head ++ (x.body ++ items.flatMap Item.wire)) :
    ∃ req, (read model false {incoming}).1 = .request req := by
  by_contra hnone
  have hended := @turn_ended σ model handle {reader := {incoming}, session := s.1, sent := s.2}
    (not_exists.mp hnone)
  rw [(h.first hsent).alive] at hended
  exact Bool.false_ne_true hended.symm

/-- The first item was read, from its bytes one by one as from the worst split. -/
theorem Absorbed.readable_first (h : Absorbed model handle s (x :: items)) (hx : x.WellFormed) :
    x.Named ∧ BodyFits model x.head x.body ∧
      HeadFits x.head (x.body ++ items.flatMap Item.wire) := by
  have hhead : HeadFits x.head (x.body ++ items.flatMap Item.wire) := by
    by_contra hlong
    obtain ⟨incoming, hsent, hnone⟩ := exists_overflow hx.isLines hlong
    obtain ⟨req, hread⟩ := h.first_read hsent
    have hopen : (read model false {incoming}).1 ≠ .closed := by
      rw [hread]
      exact Outcome.noConfusion
    obtain ⟨-, req', off, -, hheaders, -⟩ := read_open hopen
    rw [readHeaders_eq_none hnone] at hheaders
    exact absurd hheaders (Option.some_ne_none _).symm
  have hsingles := singles_data (x.head ++ (x.body ++ items.flatMap Item.wire))
  let r : RequestReader := {incoming := singles (x.head ++ (x.body ++ items.flatMap Item.wire))}
  have hstream : r.stream = x.head ++ (x.body ++ items.flatMap Item.wire) := hsingles
  have hnamed : x.Named := by
    by_contra hnamed
    obtain ⟨req, hread⟩ := h.first_read hsingles
    exact hx.read_ne hnamed hhead hstream req hread
  refine ⟨hnamed, ?_, hhead⟩
  by_contra hbody
  obtain ⟨req, hframed, -⟩ := hx.framed handle hnamed
  rcases hframed.read_long hbody (Nat.zero_le _) hhead hstream with hnone | ⟨hread, hne, hleft⟩
  · obtain ⟨req, hread⟩ := h.first_read hsingles
    exact hnone req hread
  · have hkept := h.first hsingles
    rw [turn_request rfl (Prod.ext hread rfl)] at hkept
    have hsame := congrArg List.length (hleft.symm.trans hkept.stream)
    rw [List.length_append] at hsame
    exact hne (List.eq_nil_of_length_eq_zero (by omega))

/-- The other items are absorbed when the first one comes in chunks of its own. -/
theorem Absorbed.rest (h : Absorbed model handle s (x :: items)) (hx : x.WellFormed)
    (hnamed : x.Named) (hbody : BodyFits model x.head x.body) (hhead : HeadFits x.head x.body) :
    Absorbed model handle (x.requests.foldl (answer handle) s) items := by
  intro incoming hsent k hk
  obtain ⟨req, hframed, hanswer⟩ := hx.framed handle hnamed
  let r : RequestReader := {incoming := singles x.wire}
  have hstream : r.stream = x.head ++ (x.body ++ []) :=
    (singles_data _).trans (by rw [List.append_nil, Item.wire])
  obtain ⟨hread, hleft⟩ := hframed.read_eq hbody (by rwa [List.append_nil]) hstream
  have hopen : (read model false r).1 ≠ .closed := by
    rw [hread]
    exact Outcome.noConfusion
  -- the turn leaves what has not come yet
  have hmore : read model false (r.more incoming) =
      (.request {req with body := x.body}, {incoming}) := by
    rw [read_later hopen, hread, RequestReader.eq_empty hleft]
    rfl
  have hkept := h (singles x.wire ++ incoming)
    (by rw [List.flatMap_append, singles_data, hsent, List.flatMap_cons]) (k + 1)
    (Nat.succ_le_succ hk)
  rw [Function.iterate_succ_apply, turn_request rfl hmore] at hkept
  refine ⟨?_, ?_, ?_⟩
  · rw [← hanswer]
    exact hkept.alive
  · have hanswered := hkept.answered
    rw [List.take_succ_cons, List.flatMap_cons, List.foldl_append] at hanswered
    rw [← hanswered, ← hanswer]
  · rw [← hanswer]
    exact hkept.stream

/-- Replies are absorbed in every sequence of items that can be read, and in no other. -/
theorem absorbed_iff (model : DataModel) (handle : σ → Request → σ × Response)
    (s : σ × List Response) (items : List Item) (hitems : ∀ x ∈ items, x.WellFormed) :
    Absorbed model handle s items ↔ Readable model items := by
  refine ⟨fun h => ?_, fun h incoming hsent k hk => ?_⟩
  · induction items generalizing s with
    | nil => trivial
    | cons x items ih =>
      obtain ⟨hx, hrest⟩ := List.forall_mem_cons.mp hitems
      obtain ⟨hnamed, hbody, hhead⟩ := h.readable_first hx
      exact ⟨⟨hnamed, hbody, hhead⟩, ih _ hrest (h.rest hx hnamed hbody hhead.of_append)⟩
  · exact @kept_of_readable _ _ _ _ hitems h
      {reader := {incoming}, session := s.1, sent := s.2} rfl (Nat.zero_le _) hsent _ hk

end Absorbed

/-! ### Two connections -/

/-- It opens the channel. -/
def reverseMessage : Message where
  method := bytes "POST"
  gap := bytes " "
  uri := bytes "/reverse"
  gap' := bytes " "
  version := bytes "HTTP/1.1"
  fields := [⟨bytes "X-Apple-Session-ID", bytes " 1bd6ceeb"⟩, ⟨bytes "Upgrade", bytes " PTTH/1.0"⟩]
  body := []

def okReply (reason : Bytes) : Reply where
  minor := 49
  code := bytes "200"
  reason := reason
  fields := [⟨bytes "Content-Length", bytes " 2"⟩]
  body := [1, 2]

/-- A reply between two requests. -/
def reverseItems (reason : Bytes) : List Item :=
  [.request reverseMessage, .reply (okReply reason), .request optionsMessage]

/-- A handler that counts its requests. -/
def acknowledge (n : Nat) (req : Request) : Nat × Response :=
  (n + 1, copyCseq req (make 200 (bytes "OK")))

theorem okReply_wellFormed {reason : Bytes} (h : ∀ b ∈ reason, b = 9 ∨ 32 ≤ b ∧ b ≠ 127) :
    (okReply reason).WellFormed where
  minor := (by decide : Bytes.isDigit 49 = true)
  code := ⟨rfl, List.all_eq_true.mp (by decide : (bytes "200").all Bytes.isDigit = true)⟩
  reason := h
  fields := List.forall_mem_singleton.mpr
    ⟨(by decide : trim (bytes "Content-Length") = bytes "Content-Length"),
      (by decide : 58 ∉ bytes "Content-Length"),
      (by decide : ¬ Bytes.crlf <:+: Field.line ⟨bytes "Content-Length", bytes " 2"⟩)⟩
  length := by
    show Declares (some (bytes "2")) [1, 2]
    exact ⟨by decide, List.forall_mem_singleton.mpr rfl, by decide⟩

theorem reverseItems_wellFormed {reason : Bytes} (h : ∀ b ∈ reason, b = 9 ∨ 32 ≤ b ∧ b ≠ 127) :
    ∀ x ∈ reverseItems reason, x.WellFormed := by
  have hreverse : reverseMessage.Spelled :=
    ⟨runs_of_all (by decide), runs_of_all (by decide), List.forall_mem_cons.mpr
      ⟨⟨by decide, by decide, by decide⟩,
        List.forall_mem_singleton.mpr ⟨by decide, by decide, by decide⟩⟩⟩
  refine List.forall_mem_cons.mpr ⟨⟨hreverse, rfl, by decide⟩, List.forall_mem_cons.mpr
    ⟨okReply_wellFormed h, List.forall_mem_singleton.mpr ?_⟩⟩
  exact ⟨optionsMessage_wellFormed.spelled, rfl, by decide⟩

/-- A reply with a reason is absorbed. -/
theorem ok_absorbed : Absorbed .llp64 acknowledge (0, []) (reverseItems (bytes "OK")) := by
  have hreason : ∀ b ∈ bytes "OK", b = 9 ∨ 32 ≤ b ∧ b ≠ 127 :=
    List.forall_mem_cons.mpr ⟨by decide, List.forall_mem_singleton.mpr (by decide)⟩
  have hitems := reverseItems_wellFormed hreason
  refine (absorbed_iff .llp64 acknowledge (0, []) _ hitems).mpr ?_
  refine ⟨⟨trivial, ⟨by decide, by decide⟩, .inl (by decide)⟩,
    ⟨⟨79, by decide, by decide⟩, ⟨by decide, by decide⟩, .inl (by decide)⟩,
    ⟨trivial, ⟨by decide, by decide⟩, .inl (by decide)⟩, trivial⟩

/-- The same reply without one ends the connection. -/
theorem unnamed_ends : (∀ x ∈ reverseItems [], x.WellFormed) ∧
    ¬ Absorbed .llp64 acknowledge (0, []) (reverseItems []) := by
  have hitems := reverseItems_wellFormed fun b hb => absurd hb List.not_mem_nil
  refine ⟨hitems, fun h => ?_⟩
  obtain ⟨hreverse, hrest⟩ := List.forall_mem_cons.mp hitems
  have hreply := h.rest hreverse trivial ⟨by decide, by decide⟩ (.inl (by decide))
  obtain ⟨⟨b, hb, -⟩, -⟩ := hreply.readable_first (hrest _ List.mem_cons_self)
  exact List.not_mem_nil hb

end AirPlay.Rtsp
