import AirPlay.Library.Machine
import AirPlay.Rtsp.Reader

/-! Body lengths that a peer declares.

`Content-Length` goes through `std::stoul`, which takes a sign, and its value is added
to the length of the head without a check. Where `unsigned long` has 64 bits a small
negative number, or one just below 2^64, makes the sum wrap; nothing else does, and
where it has 32 bits nothing does (`safe_iff`). -/
namespace AirPlay.Rtsp

/-- A connection's loop: it reads until a read brings no request. -/
def serving (model : DataModel) : Machine (Option RequestReader) Bool :=
  ⟨fun r cancelled => r.bind fun r => match read model cancelled r with
    | (.request _, r) => some r
    | _ => none⟩

/-- The end of the body is a `size_t`, the body is copied from inside the buffer, and a
request that is returned has a body of its content length. -/
structure SafeRead (model : DataModel) (r : RequestReader) (cancelled : Bool) : Prop where
  noWrap : ∀ req bodyOffset, cancelled = false → (readHeaders r).1 = some (req, bodyOffset) →
    bodyOffset + req.contentLength model < 2 ^ 64
  inside : (read model cancelled r).1 ≠ .overrun
  exact : ∀ req, (read model cancelled r).1 = .request req →
    req.body.length = req.contentLength model

/-- The head declares no negative length down to its own size, nor one so close to 2^64;
with 32 bits it may. -/
def SaneLength (model : DataModel) (r : RequestReader) (cancelled : Bool) : Prop :=
  ∀ req bodyOffset n, cancelled = false → (readHeaders r).1 = some (req, bodyOffset) →
    Bytes.number (req.header (bytes "content-length")) = some n → model = .lp64 →
    ¬ (-(bodyOffset : Int) ≤ n ∧ n < 0 ∨ 2 ^ 64 - (bodyOffset : Int) ≤ n ∧ n < 2 ^ 64)

/-- The sum wraps exactly at the lengths of `SaneLength`. -/
theorem noWrap_iff {model : DataModel} {req : Request} {bodyOffset : Nat}
    (h : bodyOffset ≤ 64 * 1024) :
    bodyOffset + req.contentLength model < 2 ^ 64 ↔
      ∀ n, Bytes.number (req.header (bytes "content-length")) = some n → model = .lp64 →
        ¬ (-(bodyOffset : Int) ≤ n ∧ n < 0 ∨ 2 ^ 64 - (bodyOffset : Int) ≤ n ∧ n < 2 ^ 64) := by
  rw [contentLength_eq, stoul]
  cases Bytes.number (req.header (bytes "content-length")) with
  | none =>
    refine iff_of_true ?_ fun n hn => absurd hn (Option.some_ne_none n).symm
    rw [Option.bind_none, Option.getD_none]
    omega
  | some n =>
    rw [Option.bind_some]
    cases model with
    | llp64 =>
      refine iff_of_true ?_ fun n _ hmodel => DataModel.noConfusion hmodel
      rw [DataModel.ulongBits]
      split
      · rw [Option.getD_none]
        omega
      · rw [Option.getD_some]
        omega
    | lp64 =>
      rw [DataModel.ulongBits]
      have hall : (∀ m, some n = some m → DataModel.lp64 = .lp64 →
          ¬ (-(bodyOffset : Int) ≤ m ∧ m < 0 ∨ 2 ^ 64 - (bodyOffset : Int) ≤ m ∧ m < 2 ^ 64)) ↔
          ¬ (-(bodyOffset : Int) ≤ n ∧ n < 0 ∨ 2 ^ 64 - (bodyOffset : Int) ≤ n ∧ n < 2 ^ 64) :=
        ⟨fun hm => hm n rfl rfl, fun hn m hm _ => Option.some.inj hm ▸ hn⟩
      rw [hall]
      split
      · rw [Option.getD_none]
        omega
      · rw [Option.getD_some]
        omega

/-- A read is safe exactly when the sum does not wrap. -/
theorem safeRead_iff {model : DataModel} {r : RequestReader} {cancelled : Bool}
    (hbuffer : r.buffer.length ≤ 64 * 1024) :
    SafeRead model r cancelled ↔ SaneLength model r cancelled := by
  have hwrap : ∀ {req bodyOffset}, (readHeaders r).1 = some (req, bodyOffset) →
      bodyOffset ≤ 64 * 1024 := by
    intro req bodyOffset hread
    obtain ⟨hle, hsmall⟩ := readHeaders_some hbuffer hread
    exact hle.trans hsmall
  constructor
  · intro h req bodyOffset n hcancelled hread hnumber hmodel
    exact (noWrap_iff (hwrap hread)).mp (h.noWrap req bodyOffset hcancelled hread) n hnumber hmodel
  · intro h
    have hnoWrap : ∀ req bodyOffset, cancelled = false →
        (readHeaders r).1 = some (req, bodyOffset) →
        bodyOffset + req.contentLength model < 2 ^ 64 := fun req bodyOffset hcancelled hread =>
      (noWrap_iff (hwrap hread)).mpr fun n => h req bodyOffset n hcancelled hread
    by_cases hclosed : (read model cancelled r).1 = .closed
    · refine ⟨hnoWrap, ?_, fun req hreq => ?_⟩
      · rw [hclosed]
        exact Outcome.noConfusion
      · rw [hclosed] at hreq
        exact Outcome.noConfusion hreq
    · obtain ⟨hcancelled, req, bodyOffset, filled, hread, hfill, hout⟩ := read_open hclosed
      have hfits := hnoWrap req bodyOffset hcancelled hread
      -- nothing wraps, so the body is in the buffer that was waited for
      have hinside : bodyOffset + req.contentLength model ≤ filled.buffer.length := by
        have hneed := (fill_true (congrArg Prod.fst hfill)).1
        rwa [hfill, Nat.mod_eq_of_lt hfits] at hneed
      rw [if_pos hinside] at hout
      refine ⟨hnoWrap, ?_, fun req' hreq => ?_⟩
      · rw [hout]
        exact Outcome.noConfusion
      · rw [hout] at hreq
        rw [← Outcome.request.inj hreq]
        show ((filled.buffer.drop bodyOffset).take (req.contentLength model)).length =
          req.contentLength model
        rw [List.length_take_of_le]
        rw [List.length_drop]
        omega

/-- All the reads of a connection are safe exactly when no head that is read declares a
length that wraps. -/
theorem safe_iff (model : DataModel) (incoming : List Chunk) (calls : List Bool) :
    (serving model).Meets (fun r cancelled => ∀ r' ∈ r, SafeRead model r' cancelled)
        (some {incoming}) calls ↔
      (serving model).Meets (fun r cancelled => ∀ r' ∈ r, SaneLength model r' cancelled)
        (some {incoming}) calls := by
  apply @Machine.meets_congr _ _ _ fun r => ∀ r' ∈ r, r'.buffer.length ≤ 64 * 1024
  · rintro r cancelled hbuffer r' hr'
    obtain ⟨r, rfl, hnext⟩ := Option.bind_eq_some_iff.mp hr'
    split at hnext
    · rename_i req next hread
      rw [← Option.some.inj hnext]
      have hopen : (read model cancelled r).1 ≠ .closed := by
        rw [hread]
        exact Outcome.noConfusion
      have hnext' := read_buffer (hbuffer r rfl) hopen
      rwa [hread] at hnext'
    · exact absurd hnext (Option.some_ne_none _).symm
  · exact fun r cancelled hbuffer => forall₂_congr fun r' hr' => safeRead_iff (hbuffer r' hr')
  · rintro r' hr'
    rw [← Option.some.inj hr']
    exact Nat.zero_le _

/-- A head with a negative length. -/
def negativeHead : Bytes :=
  Bytes.unlines [bytes "OPTIONS / RTSP/1.0", bytes "Content-Length: -1"] ++ Bytes.crlf

def negativeRequest : RequestReader := {incoming := [⟨negativeHead, by decide, by decide⟩]}

/-- What is read of it. -/
def negativeParsed : Request where
  method := bytes "OPTIONS"
  uri := normaliseUri (bytes "/")
  version := bytes "RTSP/1.0"
  headers := headersOf [bytes "Content-Length: -1"]

/-- The end of the body wraps, and the body is copied from outside the buffer. -/
theorem negative_length_wraps :
    ¬ (serving .lp64).Meets (fun r cancelled => ∀ r' ∈ r, SafeRead .lp64 r' cancelled)
        (some negativeRequest) [false] ∧
      (read .lp64 false negativeRequest).1 = .overrun := by
  have hfind : findHead [] negativeRequest.incoming = (some 42, ⟨negativeHead, []⟩) := rfl
  have hparse : parseHead negativeHead 42 = some negativeParsed :=
    @parseHead_lines (bytes "OPTIONS / RTSP/1.0") _ _ _ _ _ _ [bytes "Content-Length: -1"]
      (by decide) rfl rfl rfl (by decide) Bytes.crlf
  have hread : readHeaders negativeRequest = (some (negativeParsed, 42), ⟨negativeHead, []⟩) := by
    rw [readHeaders_of_found hfind, hparse]
    rfl
  have hlength : negativeParsed.contentLength .lp64 = 2 ^ 64 - 1 := by decide
  have hoverrun : (read .lp64 false negativeRequest).1 = .overrun := by
    rw [read, if_neg Bool.false_ne_true, hread]
    dsimp only
    rw [hlength]
    rfl
  exact ⟨fun h => (h.1 negativeRequest rfl).inside hoverrun, hoverrun⟩

end AirPlay.Rtsp
