import Mathlib.Data.List.DropRight
import Mathlib.Algebra.GroupWithZero.Nat
import AirPlay.Library.Text
import AirPlay.Rtsp.Message
import AirPlay.Audio.Steps

/-! FLUSH.

The RTP-Info header of a FLUSH says from which RTP stamp on the audio is to be kept. Its
fields stand between semicolons and commas, and the first that begins with "rtptime=" has the
stamp; where there is none, or it is no number of 32 bits, everything is flushed. -/
namespace AirPlay.Audio.RtpFlush
open Bytes Rtsp

/-! ### The header -/

/-- `find_first_of`, from `pos` on. -/
def findFirstOf (set s : Bytes) (pos : Nat) : Option Nat :=
  ((s.drop pos).findIdx? fun b => set.contains b).map (pos + ·)

/-- The errors of `std::from_chars`. -/
inductive Errc
  | invalidArgument
  | resultOutOfRange

/-- `std::from_chars` of a `uint32_t`, and what it leaves: digits are read even where they are
too many. -/
def fromChars (s : Bytes) : Except Errc (BitVec 32) × Bytes :=
  let digits := s.takeWhile isDigit
  if digits = [] then (.error .invalidArgument, s)
  else if natural digits ≥ 2 ^ 32 then (.error .resultOutOfRange, s.dropWhile isDigit)
  else (.ok (BitVec.ofNat 32 (natural digits)), s.dropWhile isDigit)

def key : Bytes := bytes "rtptime="

/-- The field without the blanks around it. -/
def trimmed (field : Bytes) : Bytes := (field.dropWhile (· = 32)).rdropWhile (· = 32)

/-- The loop over the fields, from `pos` on. -/
def flushTimestampFrom (info : Bytes) (pos : Nat) : Option (BitVec 32) :=
  if pos < info.length then
    let stop := findFirstOf (bytes ";,") info pos
    let field := trimmed ((info.drop pos).take (stop.getD info.length - pos))
    if field.take key.length = key then
      match fromChars (field.drop key.length) with
      | (.ok value, []) => some value
      | _ => none
    else match hstop : stop with
      | none => none
      | some stop => flushTimestampFrom info (stop + 1)
  else none
termination_by info.length - pos
decreasing_by
  obtain ⟨i, -, hi⟩ := Option.map_eq_some_iff.mp hstop
  omega

def flushTimestamp (info : Bytes) : Option (BitVec 32) := flushTimestampFrom info 0

/-! ### The request -/

/-- The streams of a connection, with the receiver among them that plays. -/
structure ClientSession (α : Type) where
  streams : Option (Option (AudioReceiver α))
  renderer : Bool := true

def ClientSession.audio {α : Type} (session : ClientSession α) : Option (AudioReceiver α) :=
  session.streams.join

/-- What the renderer is told. -/
inductive Effect
  | noteFlush
  | pushPlaybackRate (rate : Float32)

def flushAudio {α : Type} (boundary : Option (BitVec 32)) (now : Int)
    (audio : Option (AudioReceiver α)) : Option (AudioReceiver α) :=
  audio.map fun audio => audio.flush boundary now

/-- What `dispatch` does for FLUSH, and for PAUSE. -/
def handleFlush {α : Type} (now : Int) (session : ClientSession α) (req : Request) :
    Response × ClientSession α × List Effect :=
  let rtpInfo := req.header (bytes "rtp-info")
  (copyCseq req (make 200 (bytes "OK")),
    {session with streams := session.streams.map (flushAudio (flushTimestamp rtpInfo) now)},
    if session.renderer then [.noteFlush, .pushPlaybackRate 0] else [])

/-! ### The grammar -/

/-- What stands between semicolons and commas, without blanks around it. -/
def fields (info : Bytes) : List Bytes := (info.splitOnP fun b => b = 59 ∨ b = 44).map trimmed

/-- The first field of the key goes on with digits, and with nothing else, that denote `v`. -/
def Denotes (info : Bytes) (v : BitVec 32) : Prop :=
  ∃ digits, (fields info).find? key.isPrefixOf = some (key ++ digits) ∧ digits ≠ [] ∧
    (∀ b ∈ digits, isDigit b = true) ∧ natural digits = v.toNat

/-- Nothing is kept, and nothing that comes is cut. -/
structure Emptied {α : Type} (r : AudioReceiver α) : Prop where
  queue : r.pcmQueue = []
  samples : r.queuedSamples = 0
  paused : r.pausedPcm = []
  boundary : r.flushBoundary = none

/-- The number of a field, if it is one. -/
def stamp (field : Bytes) : Option (BitVec 32) :=
  match fromChars (field.drop key.length) with
  | (.ok value, []) => some value
  | _ => none

theorem fromChars_iff {s : Bytes} {v : BitVec 32} :
    fromChars s = (.ok v, []) ↔
      s ≠ [] ∧ (∀ b ∈ s, isDigit b = true) ∧ natural s = v.toNat := by
  constructor
  · intro h
    rw [fromChars] at h
    split at h
    · cases h
    rename_i hne
    split at h
    · cases h
    rename_i hlt
    obtain ⟨hvalue, hrest⟩ := Prod.mk.inj h
    have hall : ∀ b ∈ s, isDigit b = true := List.dropWhile_eq_nil_iff.mp hrest
    have htake : s.takeWhile isDigit = s := List.takeWhile_eq_self_iff.mpr hall
    rw [htake] at hne hlt hvalue
    refine ⟨hne, hall, ?_⟩
    rw [← Except.ok.inj hvalue, BitVec.toNat_ofNat, Nat.mod_eq_of_lt (Nat.not_le.mp hlt)]
  · rintro ⟨hne, hall, hvalue⟩
    have htake : s.takeWhile isDigit = s := List.takeWhile_eq_self_iff.mpr hall
    have hdrop : s.dropWhile isDigit = [] := List.dropWhile_eq_nil_iff.mpr hall
    have hlt : ¬ natural s ≥ 2 ^ 32 := by
      rw [hvalue]
      exact Nat.not_le.mpr v.isLt
    rw [fromChars, htake, hdrop, if_neg hne, if_neg hlt, hvalue, BitVec.ofNat_toNat,
      BitVec.setWidth_eq]

theorem stamp_iff {digits : Bytes} {v : BitVec 32} :
    stamp (key ++ digits) = some v ↔
      digits ≠ [] ∧ (∀ b ∈ digits, isDigit b = true) ∧ natural digits = v.toNat := by
  rw [← fromChars_iff, stamp, List.drop_left]
  split
  · rename_i value heq
    rw [heq, Option.some.injEq, Prod.mk.injEq, Except.ok.injEq]
    exact (and_iff_left rfl).symm
  · rename_i hother
    exact iff_of_false (Option.some_ne_none v).symm (hother v)

/-! ### The loop reads the grammar -/

theorem contains_iff (b : UInt8) : (bytes ";,").contains b = decide (b = 59 ∨ b = 44) := by
  show List.elem b [59, 44] = _
  simp

theorem fields_word {w : Bytes} (h : ∀ b ∈ w, (bytes ";,").contains b = false) :
    fields w = [trimmed w] := by
  rw [fields, List.splitOnP_eq_singleton fun b hb => (contains_iff b).symm.trans (h b hb)]
  rfl

theorem fields_append {w : Bytes} {c : UInt8} (h : ∀ b ∈ w, (bytes ";,").contains b = false)
    (hc : (bytes ";,").contains c = true) (rest : Bytes) :
    fields (w ++ c :: rest) = trimmed w :: fields rest := by
  rw [fields, List.splitOnP_append_cons_of_forall_mem
    (fun b hb => (contains_iff b).symm.trans (h b hb)) c ((contains_iff c).symm.trans hc)]
  rfl

/-- The first of the bytes stands behind bytes that are none of them. -/
theorem findFirstOf_some {set s : Bytes} {pos stop : Nat}
    (h : findFirstOf set s pos = some stop) :
    ∃ c, s.drop pos = (s.drop pos).take (stop - pos) ++ c :: s.drop (stop + 1) ∧
      (∀ b ∈ (s.drop pos).take (stop - pos), set.contains b = false) ∧
        set.contains c = true := by
  obtain ⟨i, hfind, rfl⟩ := Option.map_eq_some_iff.mp h
  obtain ⟨hi, hc, hbefore⟩ := List.findIdx?_eq_some_iff_getElem.mp hfind
  rw [Nat.add_sub_cancel_left, Nat.add_assoc, ← List.drop_drop]
  refine ⟨(s.drop pos)[i], ?_, fun b hb => ?_, hc⟩
  · rw [← List.drop_eq_getElem_cons hi, List.take_append_drop]
  · obtain ⟨j, hj, rfl⟩ := List.mem_take_iff_getElem.mp hb
    exact Bool.eq_false_of_not_eq_true (hbefore j (by omega))

theorem findFirstOf_none {set s : Bytes} {pos : Nat} (h : findFirstOf set s pos = none) :
    ∀ b ∈ s.drop pos, set.contains b = false :=
  List.findIdx?_eq_none_iff.mp (Option.map_eq_none_iff.mp h)

theorem take_key_iff (field : Bytes) :
    field.take key.length = key ↔ key.isPrefixOf field = true := by
  rw [List.isPrefixOf_iff_prefix, List.prefix_iff_eq_take, eq_comm]

theorem find_stamp_cons (field : Bytes) (rest : List Bytes) :
    ((field :: rest).find? key.isPrefixOf).bind stamp =
      if field.take key.length = key then stamp field
      else (rest.find? key.isPrefixOf).bind stamp := by
  rw [List.find?_cons]
  split
  · rename_i hkey
    rw [if_pos ((take_key_iff field).mpr hkey), Option.bind_some]
  · rename_i hkey
    rw [if_neg (mt (take_key_iff field).mp (Bool.not_eq_true _ ▸ hkey))]

/-- A turn of the loop has the first of the fields that are left. -/
theorem fields_drop (info : Bytes) (pos : Nat) :
    fields (info.drop pos) =
      trimmed ((info.drop pos).take
          ((findFirstOf (bytes ";,") info pos).getD info.length - pos)) ::
        (findFirstOf (bytes ";,") info pos).elim [] fun stop => fields (info.drop (stop + 1)) := by
  cases hstop : findFirstOf (bytes ";,") info pos with
  | none =>
    rw [fields_word (findFirstOf_none hstop), Option.getD_none, Option.elim_none,
      List.take_of_length_le (List.length_drop ▸ le_rfl)]
  | some stop =>
    obtain ⟨c, hsplit, hword, hc⟩ := findFirstOf_some hstop
    rw [Option.getD_some, Option.elim_some, ← fields_append hword hc, ← hsplit]

/-- The loop stops at the first field of the key. -/
theorem flushTimestampFrom_eq (info : Bytes) (pos : Nat) :
    flushTimestampFrom info pos =
      ((fields (info.drop pos)).find? key.isPrefixOf).bind stamp := by
  fun_induction flushTimestampFrom info pos with
  | case1 pos hpos stop field hkey value hchars =>
    rw [fields_drop, find_stamp_cons, if_pos hkey, stamp, hchars]
  | case2 pos hpos stop field hkey hother =>
    rw [fields_drop, find_stamp_cons, if_pos hkey, stamp]
    split
    · rename_i value hchars
      exact absurd hchars (hother value)
    · rfl
  | case3 pos hpos stop field hkey hstop =>
    have hlast : findFirstOf (bytes ";,") info pos = none := hstop
    rw [fields_drop, find_stamp_cons, if_neg hkey, hlast]
    rfl
  | case4 pos hpos stop' field hkey stop hstop ih =>
    have hnext : findFirstOf (bytes ";,") info pos = some stop := hstop
    rw [fields_drop, find_stamp_cons, if_neg hkey, hnext]
    exact ih
  | case5 pos hpos =>
    rw [List.drop_eq_nil_of_le (Nat.not_lt.mp hpos)]
    rfl

theorem flushTimestamp_eq_some {info : Bytes} {v : BitVec 32} :
    flushTimestamp info = some v ↔ Denotes info v := by
  rw [flushTimestamp, flushTimestampFrom_eq, List.drop_zero, Option.bind_eq_some_iff]
  constructor
  · rintro ⟨field, hfind, hstamp⟩
    obtain ⟨digits, rfl⟩ := List.isPrefixOf_iff_prefix.mp (List.find?_some hfind)
    exact ⟨digits, hfind, stamp_iff.mp hstamp⟩
  · rintro ⟨digits, hfind, hdigits⟩
    exact ⟨_, hfind, stamp_iff.mpr hdigits⟩

example : flushTimestamp (bytes " rtptime=4294967295 ;seq=1") = some 0xffffffff := by
  decide +kernel

example : flushTimestamp (bytes "rtptime=42junk") = none := by decide +kernel

/-! ### What a FLUSH leaves -/

section Flush
variable {α : Type}

theorem emptied_flush (now : Int) (r : AudioReceiver α) : Emptied (r.flush none now) := by
  rw [AudioReceiver.flush_none]
  exact ⟨rfl, rfl, rfl, rfl⟩

theorem flushBoundary_flush (v : BitVec 32) (now : Int) (r : AudioReceiver α) :
    (r.flush (some v) now).flushBoundary = some v := by
  rw [AudioReceiver.flush_some]

theorem audio_handleFlush (now : Int) (session : ClientSession α) (req : Request) :
    (handleFlush now session req).2.1.audio =
      session.audio.map fun r => r.flush (flushTimestamp (req.header (bytes "rtp-info"))) now := by
  cases hstreams : session.streams with
  | none => simp [handleFlush, ClientSession.audio, hstreams]
  | some audio => simp [handleFlush, ClientSession.audio, hstreams, flushAudio]

/-- The header is read by its grammar; the receiver is flushed up to the stamp, and emptied
where there is none. -/
theorem flushTimestamp_iff (info : Bytes) :
    (∀ v, flushTimestamp info = some v ↔ Denotes info v) ∧
      (flushTimestamp info = none ↔ ∀ v, ¬ Denotes info v) ∧
      ∀ (now : Int) (session : ClientSession α) (req : Request),
        req.header (bytes "rtp-info") = info →
          (∀ v, Denotes info v → (handleFlush now session req).2.1.audio =
              session.audio.map fun r => r.flush (some v) now) ∧
            ((∀ v, ¬ Denotes info v) → (handleFlush now session req).2.1.audio =
              session.audio.map fun r => r.flush none now) ∧
            ∀ r ∈ (handleFlush now session req).2.1.audio,
              (∀ v, Denotes info v → r.flushBoundary = some v) ∧
                ((∀ v, ¬ Denotes info v) → Emptied r) := by
  have hnone : flushTimestamp info = none ↔ ∀ v, ¬ Denotes info v := by
    simp only [← flushTimestamp_eq_some]
    exact Option.eq_none_iff_forall_ne_some
  refine ⟨fun v => flushTimestamp_eq_some, hnone, fun now session req hinfo => ?_⟩
  rw [audio_handleFlush, hinfo]
  refine ⟨fun v hv => ?_, fun hno => ?_, fun r hr => ?_⟩
  · rw [flushTimestamp_eq_some.mpr hv]
  · rw [hnone.mpr hno]
  · obtain ⟨r, -, rfl⟩ := Option.map_eq_some_iff.mp hr
    refine ⟨fun v hv => ?_, fun hno => ?_⟩
    · rw [flushTimestamp_eq_some.mpr hv]
      exact flushBoundary_flush v now r
    · rw [hnone.mpr hno]
      exact emptied_flush now r

end Flush

end AirPlay.Audio.RtpFlush
