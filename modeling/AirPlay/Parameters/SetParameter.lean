import AirPlay.Library.Text
import AirPlay.Rtsp.Message
import AirPlay.Parameters.Daap

/-! SET_PARAMETER.

iOS sends the volume, the rate and the progress of playback as text, cover art as an
image and the names of the track as records. The progress is three stamps of the RTP
clock, which starts anywhere and has 32 bits; they are compared as numbers of 64. -/
namespace AirPlay.Parameters
open Bytes Rtsp

/-- What SET_PARAMETER uses of its connection. -/
structure ClientSession where
  streams : Bool := true
  renderer : Bool := true
  lastProgressStart : UInt64 := 0
  lastProgressCurr : UInt64 := 0

/-- What the handler makes happen outside its session; `φ` is the type of its floats. -/
inductive Effect (φ : Type)
  | setAudioVolumeDb (db : φ)
  | setAudioTrack (track : Bytes)
  | saveCoverArt (data : Bytes)
  | pushProgress (elapsedMs totalMs : UInt32)
  | pushPlaybackRate (rate : φ)
  | pushCoverArt (data : Bytes)
  | pushMetadata (title artist album : Bytes)
  deriving DecidableEq

/-- `%llu`: what is out of range is the largest number, and a sign turns the number round. -/
def scanUnsigned (s : Bytes) : Option (UInt64 × Bytes) :=
  let (negative, s) := sign (s.dropWhile isSpace)
  let digits := s.takeWhile isDigit
  if digits = [] then none
  else
    let n := natural digits
    some (if n ≥ 2 ^ 64 then -1 else if negative then -UInt64.ofNat n else UInt64.ofNat n,
      s.dropWhile isDigit)

def scanSlash : Bytes → Option Bytes
  | 47 :: s => some s
  | _ => none

/-- `sscanf` with " %llu/%llu/%llu", where it fills all three. -/
def scanProgress (s : Bytes) : Option (UInt64 × UInt64 × UInt64) := do
  let (start, s) ← scanUnsigned (s.dropWhile isSpace)
  let (curr, s) ← scanUnsigned (← scanSlash s)
  let (finish, _) ← scanUnsigned (← scanSlash s)
  return (start, curr, finish)

def ticksToMs (ticks : UInt64) : UInt32 := (ticks * 1000 / 44100).toUInt32

/-- `c_str()`. -/
def cString (s : Bytes) : Bytes := s.takeWhile (· ≠ 0)

section
variable {φ : Type}

def handleProgress (session : ClientSession) (body : Bytes) : ClientSession × List (Effect φ) :=
  match scanProgress (cString (body.drop 9)) with
  | some (start, curr, finish) =>
    if finish ≥ start then
      let elapsed := if curr > start then curr - start else 0
      let total := finish - start
      ({session with lastProgressStart := start, lastProgressCurr := curr},
        if session.renderer then [.pushProgress (ticksToMs elapsed) (ticksToMs total)] else [])
    else (session, [])
  | none => (session, [])

/-- text/parameters; `stof` has no result where it throws. -/
def handleText (stof : Bytes → Option φ) (session : ClientSession) (body : Bytes) :
    ClientSession × List (Effect φ) :=
  if bytes "volume:" <+: body then
    match stof (body.drop 7) with
    | some db => (session, if session.streams then [.setAudioVolumeDb db] else [])
    | none => (session, [])
  else if bytes "progress:" <+: body then handleProgress session body
  else if bytes "rate:" <+: body then
    match stof (body.drop 5) with
    | some rate => (session, if session.renderer then [.pushPlaybackRate rate] else [])
    | none => (session, [])
  else (session, [])

def handleDmap (fuel : Nat) (session : ClientSession) (body : Bytes) :
    Except Fault (List (Effect φ)) := do
  let (parsed, md) ← parseDaapMlit fuel body
  return if parsed then
    (if session.streams ∧ md.title ≠ [] then
      [.setAudioTrack (md.title ++ [10] ++ md.artist ++ [10] ++ md.album)]
    else []) ++
      if session.renderer then [.pushMetadata md.title md.artist md.album] else []
  else []

/-- The handler, up to `fuel` turns of the walk over records. -/
def handleSetParameter (stof : Bytes → Option φ) (fuel : Nat) (session : ClientSession)
    (req : Request) : Except Fault (Response × ClientSession × List (Effect φ)) :=
  let r := copyCseq req (make 200 (bytes "OK"))
  let ctype := req.header (bytes "content-type")
  if req.body = [] then .ok (r, session, [])
  else if (find (bytes "text/parameters") ctype).isSome ∨ ctype = [] then
    .ok (r, handleText stof session (req.body.take 256))
  else if (find (bytes "image/") ctype).isSome then
    .ok (r, session, .saveCoverArt req.body ::
      if session.renderer then [.pushCoverArt req.body] else [])
  else if (find (bytes "dmap") ctype).isSome ∨ bytes "mlit" <+: req.body then
    (handleDmap fuel session req.body).map fun effects => (r, session, effects)
  else .ok (r, session, [])

end

/-! ### Reading the stamps -/

theorem dropWhile_decimal (n : Nat) (t : Bytes) :
    (decimal n ++ t).dropWhile isSpace = decimal n ++ t := by
  cases hdigits : decimal n with
  | nil => exact absurd hdigits (decimal_ne_nil n)
  | cons b digits => exact dropWhile_digit (decimal_digits n b (hdigits ▸ List.mem_cons_self)) _

theorem scanUnsigned_decimal {n : Nat} (h : n < 2 ^ 64) {t : Bytes}
    (ht : ∀ b ∈ t.head?, isDigit b = false) :
    scanUnsigned (decimal n ++ t) = some (UInt64.ofNat n, t) := by
  obtain ⟨htake, hleft⟩ := span_append (decimal_digits n) ht
  have hsign : sign (decimal n ++ t) = (false, decimal n ++ t) := by
    cases hdigits : decimal n with
    | nil => exact absurd hdigits (decimal_ne_nil n)
    | cons b digits => exact sign_digit (decimal_digits n b (hdigits ▸ List.mem_cons_self)) _
  rw [scanUnsigned, dropWhile_decimal, hsign]
  simp only [htake, hleft, natural_decimal]
  rw [if_neg (decimal_ne_nil n), if_neg (by omega), if_neg Bool.false_ne_true]

/-- Three stamps, as they are written behind a blank. -/
def stamps (start curr finish : Nat) : Bytes :=
  32 :: decimal start ++ 47 :: decimal curr ++ 47 :: decimal finish

theorem scanProgress_stamps {start curr finish : Nat} (hstart : start < 2 ^ 64)
    (hcurr : curr < 2 ^ 64) (hfinish : finish < 2 ^ 64) {t : Bytes}
    (ht : ∀ b ∈ t.head?, isDigit b = false) :
    scanProgress (stamps start curr finish ++ t) =
      some (UInt64.ofNat start, UInt64.ofNat curr, UInt64.ofNat finish) := by
  have hslash : ∀ s : Bytes, ∀ b ∈ (47 :: s).head?, isDigit b = false := by
    intro s b hb
    obtain rfl := Option.some.inj hb
    rfl
  have hblank : (stamps start curr finish ++ t).dropWhile isSpace =
      decimal start ++ 47 :: (decimal curr ++ 47 :: (decimal finish ++ t)) := by
    rw [← dropWhile_decimal start, stamps]
    simp only [List.append_assoc, List.cons_append]
    exact List.dropWhile_cons_of_pos (by decide)
  rw [scanProgress, hblank, scanUnsigned_decimal hstart (hslash _)]
  show (scanUnsigned (decimal curr ++ 47 :: (decimal finish ++ t))).bind _ = _
  rw [scanUnsigned_decimal hcurr (hslash _)]
  show (scanUnsigned (decimal finish ++ t)).bind _ = _
  rw [scanUnsigned_decimal hfinish ht]
  rfl

/-! ### The progress of a track -/

/-- The stamps of a track of less than 2^31 ticks: it is played from `start` on, is at
`curr` and comes to `finish`, modulo 2^32. -/
structure Track where
  start : BitVec 32
  curr : BitVec 32
  finish : BitVec 32
  reached : (curr - start).toNat ≤ (finish - start).toNat
  short : (finish - start).toNat < 2 ^ 31

/-- "progress: start/curr/end". -/
def Track.text (t : Track) : Bytes :=
  bytes "progress:" ++ stamps t.start.toNat t.curr.toNat t.finish.toNat

/-- The request tells the progress of the track, and maybe more behind it. -/
structure Tells (t : Track) (req : Request) : Prop where
  type : req.header (bytes "content-type") = [] ∨
    (find (bytes "text/parameters") (req.header (bytes "content-type"))).isSome
  text : ∃ more, req.body = t.text ++ more ∧ ∀ b ∈ more.head?, isDigit b = false

/-- The milliseconds of a number of ticks at 44100 Hz. -/
def milliseconds (ticks : BitVec 32) : UInt32 := UInt32.ofNat (ticks.toNat * 1000 / 44100)

/-- The renderer gets how far the track is, and how long. -/
def Shown {φ : Type} (t : Track)
    (result : Except Fault (Response × ClientSession × List (Effect φ))) : Prop :=
  ∃ r session, result = .ok (r, session,
    [.pushProgress (milliseconds (t.curr - t.start)) (milliseconds (t.finish - t.start))])

theorem ticksToMs_eq {n : Nat} (h : n < 2 ^ 32) :
    ticksToMs (UInt64.ofNat n) = UInt32.ofNat (n * 1000 / 44100) := by
  have hn : (UInt64.ofNat n).toNat = n := UInt64.toNat_ofNat_of_lt' (h.trans (by decide))
  apply UInt32.toNat_inj.mp
  rw [ticksToMs, UInt64.toNat_toUInt32, UInt64.toNat_div, UInt64.toNat_mul, hn, UInt32.toNat_ofNat']
  show n * 1000 % 2 ^ 64 / 44100 % 2 ^ 32 = _
  rw [Nat.mod_eq_of_lt (show n * 1000 < 2 ^ 64 by omega)]

theorem stamps_length (start curr finish : BitVec 32) :
    (stamps start.toNat curr.toNat finish.toNat).length ≤ 33 := by
  have hlength : ∀ x : BitVec 32, (decimal x.toNat).length ≤ 10 := by
    intro x
    rw [decimal, List.length_map, Nat.length_toDigits_le_iff (by decide) (by decide)]
    exact x.isLt.trans (by decide)
  have hstart := hlength start
  have hcurr := hlength curr
  have hfinish := hlength finish
  rw [stamps]
  simp only [List.length_append, List.length_cons]
  omega

/-- The text fits the 256 bytes that are looked at, and no zero ends it. -/
theorem cString_text (t : Track) {more : Bytes} (hmore : ∀ b ∈ more.head?, isDigit b = false) :
    ∃ more', cString (((t.text ++ more).take 256).drop 9) =
        stamps t.start.toNat t.curr.toNat t.finish.toNat ++ more' ∧
      ∀ b ∈ more'.head?, isDigit b = false := by
  have hlength := stamps_length t.start t.curr t.finish
  have htext : t.text.length ≤ 256 := by
    rw [Track.text, List.length_append]
    exact (Nat.add_le_add_left hlength _).trans (by decide)
  have hdrop : ((t.text ++ more).take 256).drop 9 =
      stamps t.start.toNat t.curr.toNat t.finish.toNat ++ more.take (256 - t.text.length) := by
    rw [List.take_append, List.take_of_length_le htext, Track.text, List.append_assoc]
    rfl
  have hnonzero :
      ∀ b ∈ stamps t.start.toNat t.curr.toNat t.finish.toNat, decide (b ≠ 0) = true := by
    have hdigits : ∀ n, ∀ b ∈ decimal n, b ≠ 0 := by
      rintro n b hb rfl
      exact absurd (decimal_digits n 0 hb) (by decide)
    intro b hb
    rw [decide_eq_true_iff]
    simp only [stamps, List.mem_append, List.mem_cons] at hb
    obtain (⟨rfl | hb⟩ | rfl | hb) | rfl | hb := hb
    · decide
    · exact hdigits _ b hb
    · decide
    · exact hdigits _ b hb
    · decide
    · exact hdigits _ b hb
  refine ⟨_, by rw [cString, hdrop, List.takeWhile_append_of_pos hnonzero], fun b hb => ?_⟩
  apply hmore
  have hprefix :=
    (List.takeWhile_prefix (· ≠ 0)).trans (List.take_prefix (256 - t.text.length) more)
  cases hhead : (more.take (256 - t.text.length)).takeWhile (· ≠ 0) with
  | nil =>
    rw [hhead] at hb
    exact absurd hb (Option.not_mem_none b)
  | cons c s =>
    rw [hhead] at hb hprefix
    obtain rfl := Option.some.inj hb
    obtain ⟨rest, hrest⟩ := hprefix
    rw [← hrest]
    rfl

theorem ofNat_toNat (x : BitVec 32) : (UInt64.ofNat x.toNat).toNat = x.toNat :=
  UInt64.toNat_ofNat_of_lt' (x.isLt.trans (by decide))

theorem ofNat_le_iff (x y : BitVec 32) :
    UInt64.ofNat x.toNat ≤ UInt64.ofNat y.toNat ↔ x ≤ y := by
  rw [UInt64.le_iff_toNat_le, ofNat_toNat, ofNat_toNat, BitVec.le_def]

theorem ticksToMs_sub {x y : BitVec 32} (h : x ≤ y) :
    ticksToMs (UInt64.ofNat y.toNat - UInt64.ofNat x.toNat) = milliseconds (y - x) := by
  have hdiff : (y - x).toNat = y.toNat - x.toNat := BitVec.toNat_sub_of_le h
  rw [milliseconds, ← ticksToMs_eq (y - x).isLt, hdiff, UInt64.ofNat_sub h]

/-- Without a rollover before the end there is none before the current position. -/
theorem Track.start_le_curr {t : Track} (h : t.start ≤ t.finish) : t.start ≤ t.curr := by
  have hreached := t.reached
  rw [BitVec.toNat_sub_of_le h, BitVec.toNat_sub] at hreached
  rw [BitVec.le_def] at h ⊢
  have := t.finish.isLt
  omega

section Shown
variable {φ : Type} (stof : Bytes → Option φ) (fuel : Nat) (session : ClientSession)
  {t : Track} {req : Request}

theorem handleProgress_text {more : Bytes} (hmore : ∀ b ∈ more.head?, isDigit b = false) :
    @handleProgress φ session ((t.text ++ more).take 256) =
      if t.start ≤ t.finish then
        ({session with
            lastProgressStart := UInt64.ofNat t.start.toNat
            lastProgressCurr := UInt64.ofNat t.curr.toNat},
          if session.renderer then
            [.pushProgress (milliseconds (t.curr - t.start)) (milliseconds (t.finish - t.start))]
          else [])
      else (session, []) := by
  obtain ⟨more', hcut, hmore'⟩ := cString_text t hmore
  have hwide : ∀ x : BitVec 32, x.toNat < 2 ^ 64 := fun x => x.isLt.trans (by decide)
  rw [handleProgress, hcut, scanProgress_stamps (hwide _) (hwide _) (hwide _) hmore']
  simp only [ge_iff_le, ofNat_le_iff]
  split
  · rename_i hfinish
    have hcurr := Track.start_le_curr hfinish
    have helapsed : (if UInt64.ofNat t.curr.toNat > UInt64.ofNat t.start.toNat then
        UInt64.ofNat t.curr.toNat - UInt64.ofNat t.start.toNat else 0) =
          UInt64.ofNat t.curr.toNat - UInt64.ofNat t.start.toNat := by
      split
      · rfl
      · rename_i hlt
        rw [UInt64.le_antisymm (UInt64.not_lt.mp hlt) ((ofNat_le_iff _ _).mpr hcurr),
          UInt64.sub_self]
    rw [helapsed, ticksToMs_sub hcurr, ticksToMs_sub hfinish]
  · rfl

/-- What comes of the stamps of a track. -/
theorem handleSetParameter_tells (h : Tells t req) :
    handleSetParameter stof fuel session req =
      .ok (copyCseq req (make 200 (bytes "OK")),
        if t.start ≤ t.finish then
          ({session with
              lastProgressStart := UInt64.ofNat t.start.toNat
              lastProgressCurr := UInt64.ofNat t.curr.toNat},
            if session.renderer then
              [.pushProgress (milliseconds (t.curr - t.start)) (milliseconds (t.finish - t.start))]
            else [])
        else (session, [])) := by
  obtain ⟨more, hbody, hmore⟩ := h.text
  have hhead : req.body.take 256 = bytes "progress:" ++
      (stamps t.start.toNat t.curr.toNat t.finish.toNat ++ more).take 247 := by
    rw [hbody, Track.text, List.append_assoc, List.take_append]
    rfl
  have hvolume : ¬ bytes "volume:" <+: req.body.take 256 := by
    rintro ⟨rest, hrest⟩
    have hfirst : (118 : UInt8) = 112 := Option.some.inj (congrArg List.head? (hrest.trans hhead))
    exact absurd hfirst (by decide)
  have hne : req.body ≠ [] := by
    rw [hbody]
    exact List.append_ne_nil_of_left_ne_nil (List.append_ne_nil_of_left_ne_nil (by decide) _) _
  rw [handleSetParameter, if_neg hne, if_pos h.type.symm, handleText, if_neg hvolume,
    if_pos ⟨_, hhead.symm⟩, hbody, handleProgress_text session hmore]

/-- The renderer gets the progress of the tracks whose stamps do not roll over before the
end, and of no others. -/
theorem shown_iff (hrenderer : session.renderer = true) (h : Tells t req) :
    Shown t (handleSetParameter stof fuel session req) ↔ t.start ≤ t.finish := by
  rw [handleSetParameter_tells stof fuel session h, if_pos hrenderer]
  split
  · rename_i hfinish
    exact iff_of_true ⟨_, _, rfl⟩ hfinish
  · rename_i hfinish
    refine iff_of_false ?_ hfinish
    rintro ⟨r, session', heq⟩
    cases heq

end Shown

/-- A track of ten seconds, four of which are played; the stamps roll over in the first. -/
def rolling : Track where
  start := -1
  curr := 176399
  finish := 440999
  reached := by decide
  short := by decide

theorem tells_text (t : Track) : Tells t {body := t.text} where
  type := .inl rfl
  text := ⟨[], (List.append_nil _).symm, fun b hb => absurd hb (Option.not_mem_none b)⟩

/-- The same without the roll-over. -/
def played : Track where
  start := 0
  curr := 176400
  finish := 441000
  reached := by decide
  short := by decide

/-- The one is shown and the other is not. -/
theorem shown_iff_rolling :
    Shown played (handleSetParameter (fun _ => (none : Option Int)) 0 {} {body := played.text}) ∧
      ¬ Shown rolling
        (handleSetParameter (fun _ => (none : Option Int)) 0 {} {body := rolling.text}) :=
  ⟨(shown_iff _ 0 {} rfl (tells_text played)).mpr (by decide),
    fun h => absurd ((shown_iff _ 0 {} rfl (tells_text rolling)).mp h) (by decide)⟩

/-- Its progress is dropped. -/
theorem rolling_dropped :
    Tells rolling {body := rolling.text} ∧
      ¬ Shown rolling
        (handleSetParameter (fun _ => (none : Option Int)) 0 {} {body := rolling.text}) := by
  refine ⟨tells_text rolling, ?_⟩
  rw [handleSetParameter_tells _ 0 {} (tells_text rolling), if_neg (by decide)]
  rintro ⟨r, session, heq⟩
  cases heq

end AirPlay.Parameters
