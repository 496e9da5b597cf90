import AirPlay.Library.Fields

/-! DMAP metadata.

A body is a row of records, each a tag of four bytes, a length and that much data; the
data of some tags are records again. A walk over them keeps the last title, artist, album
and duration it comes to, and stays inside the body. The position moves on by a sum of 32
bits, though: a record of 2^32 - 8 bytes is come to again and again, and but for that the
walk ends (`walk_exact`). -/
namespace AirPlay.Parameters
open Bytes

/-- What a sender says of the track. -/
structure DaapMetadata where
  title : Bytes := []
  artist : Bytes := []
  album : Bytes := []
  durationMs : UInt32 := 0
  deriving DecidableEq

/-- Why there is no result: the body was read outside its bounds, or the walk goes on. -/
inductive Fault
  | outside | unfinished
  deriving DecidableEq

/-- A record, with the position of its data. -/
structure Entry where
  tag : Bytes
  length : UInt32
  data : Nat

def byteAt (body : Bytes) (p : Nat) : Except Fault UInt8 :=
  match body[p]? with
  | some b => .ok b
  | none => .error .outside

def wordAt (body : Bytes) (p : Nat) : Except Fault UInt32 := do
  return be32 (← byteAt body p) (← byteAt body (p + 1)) (← byteAt body (p + 2))
    (← byteAt body (p + 3))

/-- `memcpy`, and the constructor of a string. -/
def copy (body : Bytes) (p n : Nat) : Except Fault Bytes :=
  if p + n ≤ body.length then .ok ((body.drop p).take n) else .error .outside

def parseOne (body : Bytes) (p left : Nat) : Except Fault (Option Entry) :=
  if left < 8 then .ok none
  else do
    let tag ← copy body p 4
    let length ← wordAt body (p + 4)
    return if 8 + length.toNat > left then none else some ⟨tag, length, p + 8⟩

def isContainer (tag : Bytes) : Bool :=
  tag == bytes "mlit" || tag == bytes "mcon" || tag == bytes "mlcl"

/-- The tags that are looked for; the others, and a duration of another size, are passed. -/
def visit (body : Bytes) (e : Entry) (out : DaapMetadata) : Except Fault DaapMetadata :=
  if e.tag = bytes "minm" then
    (copy body e.data e.length.toNat).map fun text => {out with title := text}
  else if e.tag = bytes "asar" then
    (copy body e.data e.length.toNat).map fun text => {out with artist := text}
  else if e.tag = bytes "asal" then
    (copy body e.data e.length.toNat).map fun text => {out with album := text}
  else if e.tag = bytes "astm" ∧ e.length = 4 then
    (wordAt body e.data).map fun n => {out with durationMs := n}
  else .ok out

/-- The walk over the `total` bytes at `p`, of which `pos` are done; `fuel` bounds the turns
of the loops. -/
def walkChildren (body : Bytes) : Nat → Nat → Nat → Nat → Nat → DaapMetadata →
    Except Fault DaapMetadata
  | 0, _, _, _, _, _ => .error .unfinished
  | fuel + 1, depth, p, total, pos, out =>
    if depth > 4 then .ok out
    else if pos + 8 ≤ total then do
      match ← parseOne body (p + pos) (total - pos) with
      | none => return out
      | some e =>
        let out ←
          if isContainer e.tag then walkChildren body fuel (depth + 1) e.data e.length.toNat 0 out
          else visit body e out
        -- the sum has 32 bits
        walkChildren body fuel depth p total (pos + (8 + e.length).toNat) out
    else .ok out

/-- Something was found. -/
def DaapMetadata.found (out : DaapMetadata) : Bool :=
  !(out.title.isEmpty && out.artist.isEmpty && out.album.isEmpty && out.durationMs == 0)

def parseDaapMlit (fuel : Nat) (body : Bytes) : Except Fault (Bool × DaapMetadata) :=
  if body.length < 8 then .ok (false, {})
  else (walkChildren body fuel 0 0 body.length 0 {}).map fun out => (out.found, out)

/-! ### The walk over a text -/

/-- The record at the head of a text, its tag and its data. -/
def entry (s : Bytes) : Option (Bytes × Bytes) :=
  if s.length < 8 then none
  else if 8 + ofBe ((s.drop 4).take 4) > s.length then none
  else some (s.take 4, (s.drop 8).take (ofBe ((s.drop 4).take 4)))

/-- How far the position moves on behind a record. -/
def advance (data : Bytes) : Nat := (8 + data.length) % 2 ^ 32

def keep (tag data : Bytes) (out : DaapMetadata) : DaapMetadata :=
  if tag = bytes "minm" then {out with title := data}
  else if tag = bytes "asar" then {out with artist := data}
  else if tag = bytes "asal" then {out with album := data}
  else if tag = bytes "astm" ∧ data.length = 4 then
    {out with durationMs := UInt32.ofNat (ofBe data)}
  else out

/-- The walk over the text itself; it goes no deeper than `levels`. -/
def walkText : Nat → Nat → Bytes → DaapMetadata → Option DaapMetadata
  | 0, _, _, _ => none
  | _ + 1, 0, _, out => some out
  | fuel + 1, levels + 1, s, out =>
    match entry s with
    | none => some out
    | some (tag, data) =>
      (if isContainer tag then walkText fuel levels data out else some (keep tag data out)).bind
        (walkText fuel (levels + 1) (s.drop (advance data)))

/-- A result, or a walk that goes on. -/
def finished {α : Type} : Option α → Except Fault α
  | some a => .ok a
  | none => .error .unfinished

theorem copy_eq {body : Bytes} {p n : Nat} (h : p + n ≤ body.length) :
    copy body p n = .ok ((body.drop p).take n) := if_pos h

theorem wordAt_eq {body : Bytes} {p : Nat} (h : p + 4 ≤ body.length) :
    ∃ w, wordAt body p = .ok w ∧ w.toNat = ofBe ((body.drop p).take 4) := by
  match hdrop : body.drop p with
  | b₀ :: b₁ :: b₂ :: b₃ :: rest =>
    refine ⟨be32 b₀ b₁ b₂ b₃, ?_, toNat_be32 b₀ b₁ b₂ b₃⟩
    have hat : ∀ i b, (body.drop p)[i]? = some b → byteAt body (p + i) = .ok b := by
      intro i b hb
      rw [List.getElem?_drop] at hb
      rw [byteAt, hb]
    rw [hdrop] at hat
    rw [wordAt, hat 1 b₁ rfl, hat 2 b₂ rfl, hat 3 b₃ rfl, ← Nat.add_zero p, hat 0 b₀ rfl]
    rfl
  | [] | [_] | [_, _] | [_, _, _] =>
    have hlength := congrArg List.length hdrop
    simp only [List.length_drop, List.length_cons, List.length_nil] at hlength
    omega

/-- What a record at the head of a text is. -/
structure Opens (s tag data : Bytes) : Prop where
  data_eq : data = (s.drop 8).take data.length
  length_lt : data.length < 2 ^ 32
  length_le : 8 + data.length ≤ s.length

theorem entry_some {s tag data : Bytes} (h : entry s = some (tag, data)) : Opens s tag data := by
  rw [entry] at h
  split at h
  · exact absurd h (Option.some_ne_none _).symm
  rename_i hlong
  split at h
  · exact absurd h (Option.some_ne_none _).symm
  rename_i hfits
  obtain ⟨rfl, rfl⟩ := Prod.mk.inj (Option.some.inj h)
  have hlength : ((s.drop 8).take (ofBe ((s.drop 4).take 4))).length =
      ofBe ((s.drop 4).take 4) := List.length_take_of_le (by rw [List.length_drop]; omega)
  have hword : ((s.drop 4).take 4).length = 4 :=
    List.length_take_of_le (by rw [List.length_drop]; omega)
  have hlt := ofBe_lt ((s.drop 4).take 4)
  rw [hword] at hlt
  exact ⟨by rw [hlength], hlength.trans_lt hlt, by omega⟩

section Inside
variable {body : Bytes}

theorem drop_take (p left n k : Nat) (h : n + k ≤ left) :
    (((body.drop p).take left).drop n).take k = (body.drop (p + n)).take k := by
  rw [List.drop_take, List.drop_drop, List.take_take, Nat.min_eq_left (by omega)]

theorem parseOne_eq {p left : Nat} (h : p + left ≤ body.length) :
    parseOne body p left = .ok ((entry ((body.drop p).take left)).map fun e =>
      ⟨e.1, UInt32.ofNat e.2.length, p + 8⟩) := by
  have hlength : ((body.drop p).take left).length = left :=
    List.length_take_of_le (by rw [List.length_drop]; omega)
  rw [parseOne, entry, hlength]
  split
  · rfl
  rename_i hlong
  obtain ⟨w, hw, hword⟩ := @wordAt_eq body (p + 4) (by omega)
  rw [copy_eq (by omega), hw, drop_take p left 4 4 (by omega), ← hword]
  show Except.ok (if 8 + w.toNat > left then none else _) = _
  split
  · rfl
  · rename_i hfits
    have hdata : (((body.drop p).take left).drop 8).take w.toNat =
        (body.drop (p + 8)).take w.toNat := drop_take p left 8 w.toNat (by omega)
    have hback : UInt32.ofNat ((body.drop (p + 8)).take w.toNat).length = w := by
      rw [List.length_take_of_le (by rw [List.length_drop]; omega), UInt32.ofNat_toNat]
    rw [Option.map_some, hdata, hback, List.take_take, Nat.min_eq_left (by omega)]

theorem visit_eq {tag data : Bytes} {q : Nat} (hinside : q + data.length ≤ body.length)
    (hdata : (body.drop q).take data.length = data) (hlt : data.length < 2 ^ 32)
    (out : DaapMetadata) :
    visit body ⟨tag, UInt32.ofNat data.length, q⟩ out = .ok (keep tag data out) := by
  have hlength : (UInt32.ofNat data.length).toNat = data.length :=
    UInt32.toNat_ofNat_of_lt' hlt
  have hfour : UInt32.ofNat data.length = 4 ↔ data.length = 4 := by
    rw [← UInt32.toNat_inj, hlength]
    rfl
  rw [visit, keep]
  simp only [hlength, copy_eq hinside, hdata, hfour]
  split
  · rfl
  split
  · rfl
  split
  · rfl
  split
  · rename_i hastm
    obtain ⟨w, hw, hword⟩ := @wordAt_eq body q (by omega)
    rw [← hastm.2, hdata] at hword
    rw [hw, ← hword, UInt32.ofNat_toNat]
    rfl
  · rfl

/-- A record at the head of a window of the body: it fits, its data stands behind its tag and
length, and its size in 32 bits is how the position moves. -/
theorem entry_inside {p left : Nat} {tag data : Bytes} (h : p + left ≤ body.length)
    (hentry : entry ((body.drop p).take left) = some (tag, data)) :
    8 + data.length ≤ left ∧ (body.drop (p + 8)).take data.length = data ∧
      (UInt32.ofNat data.length).toNat = data.length ∧
      (8 + UInt32.ofNat data.length).toNat = advance data := by
  have hopens := entry_some hentry
  have hle := hopens.length_le
  rw [List.length_take_of_le (by rw [List.length_drop]; omega)] at hle
  have hword : (UInt32.ofNat data.length).toNat = data.length :=
    UInt32.toNat_ofNat_of_lt' hopens.length_lt
  refine ⟨hle, ?_, hword, ?_⟩
  · rw [← drop_take p left 8 data.length hle]
    exact hopens.data_eq.symm
  · rw [UInt32.toNat_add, hword]
    rfl

/-- The walk stays inside the body, and does what it does over the text. -/
theorem walkChildren_eq (fuel : Nat) {depth p total pos : Nat} (hdepth : depth ≤ 5)
    (hinside : p + total ≤ body.length) (hpos : pos ≤ total) (out : DaapMetadata) :
    walkChildren body fuel depth p total pos out =
      finished (walkText fuel (5 - depth) ((body.drop (p + pos)).take (total - pos)) out) := by
  induction fuel generalizing depth p total pos out with
  | zero => rfl
  | succ fuel ih =>
    rcases hdepth.lt_or_eq with hlow | rfl
    · obtain ⟨levels, hlevels⟩ : ∃ levels, 5 - depth = levels + 1 := ⟨4 - depth, by omega⟩
      rw [walkChildren, if_neg (by omega), hlevels, walkText]
      have hlength : ((body.drop (p + pos)).take (total - pos)).length = total - pos :=
        List.length_take_of_le (by rw [List.length_drop]; omega)
      split
      · rename_i hroom
        have hparse := @parseOne_eq body (p + pos) (total - pos) (by omega)
        cases hentry : entry ((body.drop (p + pos)).take (total - pos)) with
        | none =>
          rw [hentry] at hparse
          rw [hparse]
          rfl
        | some e =>
          obtain ⟨tag, data⟩ := e
          rw [hentry] at hparse
          rw [hparse]
          obtain ⟨hle, hdata, hword, hmove⟩ :=
            @entry_inside body (p + pos) (total - pos) tag data (by omega) hentry
          have hstep : advance data ≤ total - pos := (Nat.mod_le _ _).trans hle
          have hrest : ((body.drop (p + pos)).take (total - pos)).drop (advance data) =
              (body.drop (p + (pos + advance data))).take (total - (pos + advance data)) := by
            rw [List.drop_take, List.drop_drop, Nat.add_assoc, Nat.sub_sub]
          have hcontinue := fun out => ih hdepth hinside
            (show pos + advance data ≤ total by omega) out
          have hinner := @ih (depth + 1) (p + pos + 8) data.length 0 hlow (by omega)
            (Nat.zero_le _) out
          rw [Nat.add_zero, Nat.sub_zero, hdata, show 5 - (depth + 1) = levels by omega] at hinner
          simp only [hlevels, ← hrest] at hcontinue
          show (if isContainer tag = true then
              (walkChildren body fuel (depth + 1) (p + pos + 8) (UInt32.ofNat data.length).toNat 0
                out).bind fun out => walkChildren body fuel depth p total
                  (pos + (8 + UInt32.ofNat data.length).toNat) out
            else
              (visit body ⟨tag, UInt32.ofNat data.length, p + pos + 8⟩ out).bind fun out =>
                walkChildren body fuel depth p total
                  (pos + (8 + UInt32.ofNat data.length).toNat) out) =
            finished ((if isContainer tag = true then walkText fuel levels data out
              else some (keep tag data out)).bind _)
          rw [hword, hmove]
          split
          · rw [hinner]
            cases walkText fuel levels data out with
            | none => rfl
            | some out => exact hcontinue out
          · rw [visit_eq (by omega) hdata (entry_some hentry).length_lt]
            exact hcontinue _
      · rename_i hroom
        rw [entry, hlength, if_pos (by omega)]
        rfl
    · rw [walkChildren, if_pos (by omega)]
      rfl

end Inside

end AirPlay.Parameters
