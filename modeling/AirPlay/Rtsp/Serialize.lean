import AirPlay.Library.Head
import AirPlay.Rtsp.Replies

/-! Responses on the wire.

A response is a status line, a line for each header, its length and a body. The headers
are gone through in the order of a hash table, which is any order. `readResponse` is how
a peer takes a response off a stream; as long as no line holds a CRLF and no name a
colon, what is written one after the other is read back one by one. -/
namespace AirPlay.Rtsp

open Bytes

/-! ### Writing -/

/-- The keys of the headers, each once. -/
def Response.Keys (res : Response) (order : List Bytes) : Prop :=
  order.Nodup ∧ ∀ key, key ∈ order ↔ (res.headers key).isSome

def Response.statusLine (res : Response) : Bytes :=
  res.version ++ (bytes " " ++ (signed res.statusCode ++ (bytes " " ++ res.statusText)))

def Response.serialize (order : List Bytes) (res : Response) : Bytes :=
  res.statusLine ++ crlf ++
    unlines (order.map fun key => headerLine key ((res.headers key).getD [])) ++
    headerLine (bytes "Content-Length") (decimal res.body.length) ++ crlf ++ crlf ++ res.body

/-- What may be written for a response. -/
def Response.Serialized (res : Response) (wire : Bytes) : Prop :=
  ∃ order, res.Keys order ∧ wire = res.serialize order

/-! ### Reading -/

/-- A response as its receiver has it. -/
structure Received where
  version : Bytes
  statusCode : Int
  statusText : Bytes
  headers : Bytes → Option Bytes
  body : Bytes

def readResponse (s : Bytes) : Option (Received × Bytes) := do
  let (lines, rest) ← headLines s
  let (version, more) ← cut (bytes " ") (lines.headD [])
  let (code, statusText) ← cut (bytes " ") more
  let statusCode ← number code
  let headers := lines.tail.foldl readField fun _ => none
  let length ← (headers (bytes "Content-Length")).bind number
  if rest.length < length.toNat then none
  else some (⟨version, statusCode, statusText, headers, rest.take length.toNat⟩,
    rest.drop length.toNat)

theorem readResponse_nil : readResponse [] = none := by
  have hlines : headLines [] = none := by
    rw [headLines]
    rfl
  rw [readResponse, hlines]
  rfl

/-- A stream is these responses one after the other. -/
def Reads (s : Bytes) (rs : List Received) : Prop := Parses readResponse s rs

/-- There is one way to read a stream. -/
theorem Reads.unique {s : Bytes} {rs rs' : List Received} (h : Reads s rs) (h' : Reads s rs') :
    rs = rs' := Parses.unique readResponse_nil h h'

/-! ### One response -/

/-- Nothing in the head of a response can be taken for the end of a line or of a name. -/
structure Response.Clean (res : Response) : Prop where
  version : 32 ∉ res.version ∧ 13 ∉ res.version
  text : ¬ crlf <:+: res.statusText
  keys : ∀ key value, res.headers key = some value →
    13 ∉ key ∧ 58 ∉ key ∧ key ≠ bytes "Content-Length"
  values : ∀ key value, res.headers key = some value → ¬ crlf <:+: value

/-- What is to be read for a response. -/
def Response.received (res : Response) : Received where
  version := res.version
  statusCode := res.statusCode
  statusText := res.statusText
  headers := Function.update res.headers (bytes "Content-Length") (some (decimal res.body.length))
  body := res.body

namespace Response
variable {res : Response} {order : List Bytes}

/-- The lines of a head. -/
def lines (res : Response) (order : List Bytes) : List Bytes :=
  res.statusLine :: order.map (fun key => headerLine key ((res.headers key).getD [])) ++
    [headerLine (bytes "Content-Length") (decimal res.body.length)]

theorem serialize_eq (res : Response) (order : List Bytes) :
    res.serialize order = unlines (res.lines order) ++ (crlf ++ res.body) := by
  simp only [serialize, lines, unlines, List.cons_append, List.flatMap_cons, List.flatMap_append,
    List.flatMap_nil, List.append_nil, List.append_assoc]

theorem Keys.value (hkeys : res.Keys order) {key : Bytes} (hkey : key ∈ order) :
    res.headers key = some ((res.headers key).getD []) := by
  obtain ⟨value, hvalue⟩ := Option.isSome_iff_exists.mp ((hkeys.2 key).mp hkey)
  rw [hvalue]
  rfl

theorem Clean.statusLine_isLine (h : res.Clean) : IsLine res.statusLine := by
  refine ⟨List.append_ne_nil_of_right_ne_nil _
    (List.append_ne_nil_of_left_ne_nil (by decide) _), ?_⟩
  refine crlf_infix_append h.version.2 (crlf_infix_append (by decide) (crlf_infix_append ?_
    (crlf_infix_append (by decide) h.text)))
  exact not_mem_signed (by decide) (by decide) _

theorem Clean.isLine (h : res.Clean) (hkeys : res.Keys order) :
    ∀ line ∈ res.lines order, IsLine line := by
  rw [lines, List.cons_append, List.forall_mem_cons, List.forall_mem_append,
    List.forall_mem_singleton]
  refine ⟨h.statusLine_isLine, fun line hline => ?_, ?_⟩
  · obtain ⟨key, hkey, rfl⟩ := List.mem_map.mp hline
    have hvalue := hkeys.value hkey
    exact headerLine_line (h.keys key _ hvalue).1 (h.values key _ hvalue)
  · refine headerLine_line (by decide) (not_crlf_of_not_mem ?_)
    exact not_mem_decimal (by decide) _

/-- The headers in the order in which they are written. -/
def fields (res : Response) (order : List Bytes) : List (Bytes × Bytes) :=
  order.map fun key => (key, (res.headers key).getD [])

theorem Keys.named_fields (hkeys : res.Keys order) : named (res.fields order) = res.headers := by
  funext key
  have hlookup : ∀ keys : List Bytes, (keys.map fun key => (key, (res.headers key).getD [])).lookup
      key = if key ∈ keys then some ((res.headers key).getD []) else none := by
    intro keys
    induction keys with
    | nil => rfl
    | cons k keys ih =>
      rw [List.map_cons, List.lookup_cons, ih]
      by_cases hk : key = k
      · subst hk
        rw [beq_self_eq_true, if_pos List.mem_cons_self]
      · rw [beq_eq_false_iff_ne.mpr hk]
        simp only [List.mem_cons, hk, false_or]
  rw [named, fields, hlookup]
  split
  · rename_i hkey
    exact (hkeys.value hkey).symm
  · rename_i hkey
    exact (Option.not_isSome_iff_eq_none.mp (mt (hkeys.2 key).mpr hkey)).symm

/-- The lines of the headers give back the headers, and the length. -/
theorem Clean.headers_read (h : res.Clean) (hkeys : res.Keys order) :
    (res.lines order).tail.foldl readField (fun _ => none) = res.received.headers := by
  have hcolon : ∀ f ∈ res.fields order, 58 ∉ f.1 := by
    intro f hf
    obtain ⟨key, hkey, rfl⟩ := List.mem_map.mp hf
    exact (h.keys key _ (hkeys.value hkey)).2.1
  have hnodup : ((res.fields order).map Prod.fst).Nodup := by
    rw [fields, List.map_map, Function.comp_def, List.map_id']
    exact hkeys.1
  have hlines : order.map (fun key => headerLine key ((res.headers key).getD [])) =
      (res.fields order).map fun f => headerLine f.1 f.2 := by
    rw [fields, List.map_map]
    rfl
  rw [lines, List.cons_append, List.tail_cons, List.foldl_append, List.foldl_cons, List.foldl_nil,
    readField_line (by decide), hlines]
  show Function.update _ _ _ = Function.update _ _ _
  congr 1
  funext key
  rw [foldl_readField hcolon hnodup, hkeys.named_fields]
  cases res.headers key <;> rfl

/-- A response is read back, and what follows it is left. -/
theorem Clean.read_eq (h : res.Clean) (hkeys : res.Keys order) (t : Bytes) :
    readResponse (res.serialize order ++ t) = some (res.received, t) := by
  have hlines : headLines (res.serialize order ++ t) = some (res.lines order, res.body ++ t) := by
    rw [serialize_eq, List.append_assoc, List.append_assoc]
    exact headLines_unlines (h.isLine hkeys) (res.body ++ t)
  have hversion : cut (bytes " ") ((res.lines order).headD []) =
      some (res.version, signed res.statusCode ++ (bytes " " ++ res.statusText)) :=
    cut_byte h.version.1 _
  have hcode : cut (bytes " ") (signed res.statusCode ++ (bytes " " ++ res.statusText)) =
      some (signed res.statusCode, res.statusText) :=
    cut_byte (not_mem_signed (by decide) (by decide) _) _
  have hlength : (res.received.headers (bytes "Content-Length")).bind number =
      some (res.body.length : Int) := by
    have hself : res.received.headers (bytes "Content-Length") =
        some (decimal res.body.length) := by
      simp only [received, Function.update_self]
    rw [hself, Option.bind_some, number_decimal]
  simp only [readResponse, Option.bind_eq_bind]
  rw [hlines, Option.bind_some]
  dsimp only
  rw [hversion, Option.bind_some]
  dsimp only
  rw [hcode, Option.bind_some]
  dsimp only
  rw [number_signed, Option.bind_some, h.headers_read hkeys, hlength, Option.bind_some,
    Int.toNat_natCast, List.length_append, if_neg (by omega), List.take_left, List.drop_left]
  rfl

/-- Responses one after the other are read back one by one, in any order of their headers. -/
theorem reads_serialized {ress : List Response} {wires : List Bytes} (h : ∀ res ∈ ress, res.Clean)
    (hwires : List.Forall₂ Serialized ress wires) :
    Reads wires.flatten (ress.map received) := by
  refine parses_flatten (fun res hres wire hwire t => ?_) hwires
  obtain ⟨order, hkeys, rfl⟩ := hwire
  exact (h res hres).read_eq hkeys t

end Response

end AirPlay.Rtsp
