import AirPlay.Library.Bytes

/-! Playlists: the child playlists a master names, and what a media playlist is made
of when its URLs are to be replaced. -/
namespace AirPlay.Hls

/-- The loop of `extract_media_uris`; `out` is what it has found. -/
def extractLoop : Nat → Bytes → List Bytes → List Bytes
  | 0, _, out => out
  | fuel + 1, master, out =>
    match Bytes.cut (bytes "mlhls://localhost/") master with
    | none => out
    | some (_, rest) =>
      match Bytes.cut (bytes ".m3u8") (bytes "mlhls://localhost/" ++ rest) with
      | none => out
      | some (before, after) =>
        let uri := before ++ bytes ".m3u8"
        extractLoop fuel after (if uri ∈ out then out else out ++ [uri])

/-- Every `mlhls://localhost/….m3u8` of a master playlist, in order, without duplicates. -/
def extractMediaUris (master : Bytes) : List Bytes := extractLoop (master.length + 1) master []

/-- A playlist is text that stays and URLs that are replaced. -/
inductive Piece where
  | text (b : Bytes)
  | url (u : Bytes)

/-- What a tag's URI has to begin with to be replaced. -/
def isLocalisable (raw : Bytes) : Bool :=
  (bytes "http://").isPrefixOf raw || (bytes "https://").isPrefixOf raw ||
    (bytes "mlhls://").isPrefixOf raw || (bytes "/").isPrefixOf raw

/-- The loop of `rewrite_segments_to_local` over the `URI="…"` attributes of a tag. -/
def tagPieces : Nat → Bytes → List Piece
  | 0, tagged => [.text tagged]
  | fuel + 1, tagged =>
    match Bytes.cut (bytes "URI=\"") tagged with
    | none => [.text tagged]
    | some (before, rest) =>
      match Bytes.cut (bytes "\"") rest with
      | none => [.text tagged]
      | some (raw, after) =>
        if raw ≠ [] ∧ isLocalisable raw then
          .text (before ++ bytes "URI=\"") :: .url raw :: tagPieces fuel (bytes "\"" ++ after)
        else .text (before ++ bytes "URI=\"" ++ raw ++ bytes "\"") :: tagPieces fuel after

/-- A URI line begins with neither `#` nor a blank. -/
def isUri (line : Bytes) : Bool :=
  match line with
  | [] => false
  | b :: _ => b ≠ 35 && b ≠ 32 && b ≠ 9 && b ≠ 13

/-- The carriage return of a Windows line end goes. -/
def stripCr (line : Bytes) : Bytes := if line.getLast? = some 13 then line.dropLast else line

/-- What `rewrite_segments_to_local` makes of a line. -/
def linePieces (line : Bytes) (ended : Bool) : List Piece :=
  (if isUri line then [.url (stripCr line)] else tagPieces (line.length + 1) line) ++
    if ended then [.text [10]] else []

def playlistPieces (expanded : Bytes) : List Piece :=
  (Bytes.lines expanded).flatMap fun l => linePieces l.1 l.2

end AirPlay.Hls
