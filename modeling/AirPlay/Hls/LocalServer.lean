import AirPlay.Library.Percent
import AirPlay.Library.Text

/-! The local HLS server's URLs.

A playlist's `mlhls://localhost/` URLs are rewritten to the local server's, and a request
for one of these is turned back into the `mlhls` URL that iOS knows. The player may spell
the path with escapes; the server decodes every escape, and keeps the paths under `/seg/`
for itself (`served_iff`). -/
namespace AirPlay.Hls
open Bytes

def kFrom : Bytes := bytes "mlhls://localhost/"

/-- The server's own URLs, up to the path. -/
def localOrigin (port : Nat) : Bytes := bytes "http://localhost:" ++ decimal port

/-- The loop of `rewrite_urls`. -/
def rewriteUrlsLoop (port : Nat) : Nat → Bytes → Bytes → Bytes
  | 0, content, out => out ++ content
  | fuel + 1, content, out =>
    match cut kFrom content with
    | none => out ++ content
    | some (before, rest) =>
      rewriteUrlsLoop port fuel rest (out ++ before ++ (localOrigin port ++ bytes "/"))

def rewriteUrls (port : Nat) (content : Bytes) : Bytes :=
  rewriteUrlsLoop port (content.length + 1) content []

/-! ### A request -/

/-- Reads byte by byte up to the empty line; at most `n` bytes more. -/
def readHeaders : Nat → Bytes → Bytes → Bytes
  | 0, headers, _ => headers
  | _ + 1, headers, [] => headers
  | n + 1, headers, b :: stream =>
    if (crlf ++ crlf).isSuffixOf (headers ++ [b]) then headers ++ [b]
    else readHeaders n (headers ++ [b]) stream

/-- The URI of a GET request line, or nothing. -/
def requestUri (headers : Bytes) : Bytes :=
  match cut crlf headers with
  | none => []
  | some (line, _) =>
    match token line with
    | none => []
    | some (method, line) =>
      match token line with
      | none => []
      | some (uri, line) => if (token line).isSome ∧ method = bytes "GET" then uri else []

/-- What the local server takes a path for. -/
inductive Route where
  | badRequest
  | segmentProxy (path : Bytes)
  | playlist (mlhlsUrl : Bytes)
  | segment (mlhlsUrl : Bytes)
  deriving DecidableEq

/-- What a path is served by. -/
def route (path : Bytes) : Route :=
  let mlhlsUrl := kFrom ++ if path.head? = some 47 then path.drop 1 else path
  if path = [] then .badRequest
  else if path.length > 5 ∧ (bytes "/seg/").isPrefixOf path then .segmentProxy path
  else if path.length ≥ 5 ∧ (bytes ".m3u8").isSuffixOf path then .playlist mlhlsUrl
  else .segment mlhlsUrl

/-- `handle_client`, as far as the route. -/
def handleClient (stream : Bytes) : Route :=
  route (percentDecode (requestUri (readHeaders 8192 [] stream)))

/-- The request that a player sends; `fields` are its header fields and the empty line. -/
def request (path fields : Bytes) : Bytes :=
  bytes "GET " ++ (path ++ (bytes " HTTP/1.1" ++ (crlf ++ fields)))

/-- The request goes to the playlist or the FCUP path with this URL. -/
def ServedAs (url : Bytes) (r : Route) : Prop := r = .playlist url ∨ r = .segment url

instance (url : Bytes) (r : Route) : Decidable (ServedAs url r) :=
  inferInstanceAs (Decidable (_ ∨ _))

/-! ### Reading the request -/

theorem readHeaders_prefix (n : Nat) (headers stream : Bytes) :
    headers <+: readHeaders n headers stream := by
  induction n generalizing headers stream with
  | zero => exact List.prefix_refl headers
  | succ n ih =>
    cases stream with
    | nil => exact List.prefix_refl headers
    | cons b stream =>
      rw [readHeaders]
      split
      · exact List.prefix_append headers [b]
      · exact (List.prefix_append headers [b]).trans (ih _ stream)

/-- Bytes before the empty line are read one by one. -/
theorem readHeaders_skip {n : Nat} {headers a : Bytes} (stream : Bytes) (hlength : a.length ≤ n)
    (h : ∀ a', a' <+: a → a' ≠ [] → ¬ crlf ++ crlf <:+ headers ++ a') :
    readHeaders n headers (a ++ stream) = readHeaders (n - a.length) (headers ++ a) stream := by
  induction a generalizing n headers with
  | nil => rw [List.nil_append, List.append_nil, List.length_nil, Nat.sub_zero]
  | cons b a ih =>
    cases n with
    | zero => exact absurd hlength (Nat.not_succ_le_zero _)
    | succ n =>
      have hb : ¬ (crlf ++ crlf).isSuffixOf (headers ++ [b]) = true := by
        rw [List.isSuffixOf_iff_suffix]
        exact h [b] (List.cons_prefix_cons.mpr ⟨rfl, List.nil_prefix⟩) (List.cons_ne_nil b [])
      have hmore : ∀ a', a' <+: a → a' ≠ [] → ¬ crlf ++ crlf <:+ headers ++ [b] ++ a' := by
        intro a' ha' _
        rw [List.append_assoc]
        exact h (b :: a') (List.cons_prefix_cons.mpr ⟨rfl, ha'⟩) (List.cons_ne_nil b a')
      rw [List.cons_append, readHeaders, if_neg hb, ih (Nat.le_of_succ_le_succ hlength) hmore,
        List.append_assoc, List.length_cons, Nat.add_sub_add_right]
      rfl

section Line
variable {line : Bytes} (hcr : 13 ∉ line)
include hcr

/-- A line and its CRLF do not hold the empty line. -/
theorem line_no_head {a : Bytes} (ha : a <+: line ++ crlf) : ¬ crlf ++ crlf <:+ a := by
  intro hsuffix
  have htwo : 2 ≤ a.count 13 := hsuffix.sublist.count_le 13
  have hone : a.count 13 ≤ (line ++ crlf).count 13 := ha.sublist.count_le 13
  rw [List.count_append, List.count_eq_zero_of_not_mem hcr] at hone
  exact absurd (htwo.trans hone) (by decide)

theorem line_no_crlf : ¬ crlf <:+: line := fun hin => hcr (hin.subset List.mem_cons_self)

/-- A request line that fits is found. -/
theorem cut_readHeaders {n : Nat} (fields : Bytes) (hfits : line.length + 2 ≤ n) :
    ∃ t, cut crlf (readHeaders n [] (line ++ (crlf ++ fields))) = some (line, t) := by
  have hskip := @readHeaders_skip n [] (line ++ crlf) fields
    (by rw [List.length_append]; exact hfits) fun a' ha' _ => line_no_head hcr ha'
  rw [List.append_assoc] at hskip
  obtain ⟨t, ht⟩ := readHeaders_prefix (n - (line ++ crlf).length) ([] ++ (line ++ crlf)) fields
  refine ⟨t, ?_⟩
  rw [hskip, ← ht, List.nil_append, List.append_assoc]
  exact cut_line (line_no_crlf hcr) t

/-- Of a longer one no line is found. -/
theorem cut_readHeaders_none {n : Nat} (fields : Bytes) (hlf : 10 ∉ line)
    (hlong : n < line.length + 2) :
    cut crlf (readHeaders n [] (line ++ (crlf ++ fields))) = none := by
  have hlength : ((line ++ crlf).take n).length = n := by
    refine List.length_take_of_le ?_
    rw [List.length_append]
    exact hlong.le
  have hskip := @readHeaders_skip n [] ((line ++ crlf).take n) ((line ++ crlf).drop n ++ fields)
    hlength.le fun a' ha' _ => line_no_head hcr (ha'.trans (List.take_prefix n _))
  rw [hlength, Nat.sub_self, readHeaders, List.nil_append, ← List.append_assoc,
    List.take_append_drop, List.append_assoc] at hskip
  rw [hskip]
  cases hcut : cut crlf ((line ++ crlf).take n) with
  | none => rfl
  | some p =>
    have hsplit := cut_eq_some crlf_ne_nil (x := p.1) (y := p.2) hcut
    -- What is read ends before the line feed.
    have hshort : (line ++ crlf).take n <+: line ++ [13] := by
      refine List.prefix_of_prefix_length_le (List.take_prefix n _) ?_ ?_
      · exact (List.prefix_append_right_inj line).mpr ⟨[10], rfl⟩
      · rw [hlength, List.length_append]
        exact Nat.le_of_lt_succ hlong
    have hmem : 10 ∈ line ++ [13] := by
      refine hshort.subset ?_
      rw [hsplit]
      simp [crlf]
    rcases List.mem_append.mp hmem with hmem | hmem
    · exact absurd hmem hlf
    · exact absurd (List.mem_singleton.mp hmem) (by decide)

end Line

/-- The URI of a request line is its second word. -/
theorem requestUri_line {path headers t : Bytes} (hne : path ≠ [])
    (hpath : ∀ b ∈ path, isSpace b = false)
    (h : cut crlf headers = some (bytes "GET " ++ (path ++ bytes " HTTP/1.1"), t)) :
    requestUri headers = path := by
  have hmethod : token (bytes "GET " ++ (path ++ bytes " HTTP/1.1")) =
      some (bytes "GET", bytes " " ++ (path ++ bytes " HTTP/1.1")) :=
    @token_word [] (bytes "GET") _ (by simp) (List.cons_ne_nil _ _) (by decide +kernel)
      (fun b hb => by obtain rfl := Option.some.inj hb; rfl)
  have huri : token (bytes " " ++ (path ++ bytes " HTTP/1.1")) = some (path, bytes " HTTP/1.1") :=
    token_word (by decide +kernel) hne hpath (fun b hb => by obtain rfl := Option.some.inj hb; rfl)
  rw [requestUri, h]
  dsimp only
  rw [hmethod]
  dsimp only
  rw [huri]
  exact if_pos ⟨by decide, rfl⟩

/-! ### The round trip -/

/-- A URL's suffix has no white space, control character, quote or `#`. -/
def Valid (x : Bytes) : Prop := ∀ b ∈ x, 32 < b ∧ b ≠ 127 ∧ b ≠ 34 ∧ b ≠ 35

/-- Where a playlist lists `mlhls://localhost/x`, the rewritten one has the local URL. -/
def Turned (port : Nat) (before x after : Bytes) : Prop :=
  ∃ after', rewriteUrls port (before ++ (kFrom ++ (x ++ after))) =
    rewriteUrls port before ++ (localOrigin port ++ (47 :: (x ++ after')))

/-- The server's own paths for segments. -/
def Reserved (x : Bytes) : Prop := bytes "seg/" <+: x ∧ 4 < x.length

instance (x : Bytes) : Decidable (Reserved x) := inferInstanceAs (Decidable (_ ∧ _))

def requestLine (path : Bytes) : Bytes := bytes "GET " ++ (path ++ bytes " HTTP/1.1")

theorem request_eq (path fields : Bytes) :
    request path fields = requestLine path ++ (crlf ++ fields) := by
  simp only [request, requestLine, List.append_assoc]

theorem hex_visible {c v : UInt8} (h : hex c = some v) : 32 < c := by
  rw [UInt8.lt_iff_toNat_lt]
  by_contra hle
  have hsmall : c.toNat ≤ 32 := not_lt.mp hle
  have hnone : hex c = none := by
    have h₁ : ¬ (48 ≤ c ∧ c ≤ 57) := fun hc =>
      absurd ((UInt8.le_iff_toNat_le.mp hc.1).trans hsmall) (by decide)
    have h₂ : ¬ (97 ≤ c ∧ c ≤ 102) := fun hc =>
      absurd ((UInt8.le_iff_toNat_le.mp hc.1).trans hsmall) (by decide)
    have h₃ : ¬ (65 ≤ c ∧ c ≤ 70) := fun hc =>
      absurd ((UInt8.le_iff_toNat_le.mp hc.1).trans hsmall) (by decide)
    rw [hex, if_neg h₁, if_neg h₂, if_neg h₃]
  exact absurd (hnone.symm.trans h) (Option.some_ne_none v).symm

/-- A spelling is visible text. -/
theorem spelling_visible {ls : List Letter} (h : Valid (spelled ls)) :
    ∀ b ∈ spelling ls, 32 < b := by
  intro b hb
  obtain ⟨letter, hletter, hb⟩ := List.mem_flatMap.mp hb
  cases letter with
  | plain c =>
    obtain rfl := List.mem_singleton.mp hb
    exact (h _ (List.mem_map_of_mem hletter)).1
  | escaped d e c digits =>
    obtain ⟨hi, hhi, hlo⟩ := Option.bind_eq_some_iff.mp digits
    obtain ⟨lo, hlo, -⟩ := Option.map_eq_some_iff.mp hlo
    rcases List.mem_cons.mp hb with rfl | hb
    · decide
    rcases List.mem_cons.mp hb with rfl | hb
    · exact hex_visible hhi
    · rw [List.mem_singleton.mp hb]
      exact hex_visible hlo

theorem visible_not_space {b : UInt8} (h : 32 < b) : isSpace b = false := by
  have hlt : 32 < b.toNat := UInt8.lt_iff_toNat_lt.mp h
  rw [isSpace, Bool.or_eq_false_iff, Bool.and_eq_false_iff, decide_eq_false_iff_not,
    decide_eq_false_iff_not, decide_eq_false_iff_not, UInt8.le_iff_toNat_le, UInt8.le_iff_toNat_le]
  refine ⟨?_, .inr fun hle => ?_⟩
  · rintro rfl
    exact absurd hlt (Nat.lt_irrefl _)
  · exact absurd (hlt.trans_le hle) (by decide)

theorem not_mem_requestLine {path : Bytes} {c : UInt8} (hpath : ∀ b ∈ path, 32 < b) (hc : c < 32) :
    c ∉ requestLine path := by
  have hfixed : ∀ b ∈ bytes "GET " ++ bytes " HTTP/1.1", ¬ b < 32 := by decide +kernel
  intro hmem
  rw [requestLine, List.mem_append, List.mem_append] at hmem
  rcases hmem with hmem | hmem | hmem
  · exact hfixed c (List.mem_append_left _ hmem) hc
  · exact absurd (UInt8.lt_trans (hpath c hmem) hc) (UInt8.lt_irrefl _)
  · exact hfixed c (List.mem_append_right _ hmem) hc

/-- A request is read if its first line fits into what the server reads. -/
theorem handleClient_request {path : Bytes} (fields : Bytes) (hne : path ≠ [])
    (hpath : ∀ b ∈ path, 32 < b) :
    handleClient (request path fields) =
      if (requestLine path).length + 2 ≤ 8192 then route (percentDecode path) else .badRequest := by
  have hcr := @not_mem_requestLine path 13 hpath (by decide)
  rw [handleClient, request_eq]
  split
  · rename_i hfits
    obtain ⟨t, hcut⟩ := cut_readHeaders hcr fields hfits
    rw [requestUri_line hne (fun b hb => visible_not_space (hpath b hb)) hcut]
  · rename_i hlong
    have hlf := @not_mem_requestLine path 10 hpath (by decide)
    rw [requestUri, cut_readHeaders_none hcr fields hlf (not_le.mp hlong)]
    rfl

theorem servedAs_route (x y : Bytes) :
    ServedAs (kFrom ++ x) (route (47 :: y)) ↔ y = x ∧ ¬ Reserved y := by
  have hproxy : ((47 :: y).length > 5 ∧ (bytes "/seg/").isPrefixOf (47 :: y) = true) ↔
      Reserved y := by
    rw [Reserved, List.isPrefixOf_iff_prefix, and_comm, List.length_cons]
    refine and_congr ?_ ?_
    · show 47 :: bytes "seg/" <+: 47 :: y ↔ _
      rw [List.cons_prefix_cons, and_iff_right rfl]
    · omega
  have hurl : (kFrom ++ if (47 :: y).head? = some 47 then (47 :: y).drop 1 else 47 :: y) =
      kFrom ++ y := rfl
  rw [route, if_neg (List.cons_ne_nil 47 y), hurl, ServedAs]
  by_cases hreserved : Reserved y
  · rw [if_pos (hproxy.mpr hreserved)]
    simp [hreserved]
  · rw [if_neg (mt hproxy.mp hreserved)]
    have hcancel : kFrom ++ y = kFrom ++ x ↔ y = x := List.append_cancel_left_eq kFrom y x ▸ Iff.rfl
    split
    · simp [hreserved]
    · simp [hreserved]

/-- The player's request for the local URL comes back as the URL that iOS listed exactly
when no escape of it is left as it is, its path is not one of the server's own and the
request line fits. -/
theorem served_iff {port : Nat} {before x after fields : Bytes} {ls : List Letter}
    (hvalid : Valid x) (hspelled : spelled ls = x) :
    (Turned port before x after →
        ServedAs (kFrom ++ x) (handleClient (request (47 :: spelling ls) fields))) ↔
      (Turned port before x after →
        ¬ Verbatim ls ∧ ¬ Reserved x ∧ (requestLine (47 :: spelling ls)).length + 2 ≤ 8192) := by
  refine forall_congr' fun _ => ?_
  have hpath : ∀ b ∈ 47 :: spelling ls, 32 < b :=
    List.forall_mem_cons.mpr ⟨by decide, spelling_visible (hspelled ▸ hvalid)⟩
  have hslash : percentDecode (47 :: spelling ls) = 47 :: percentDecode (spelling ls) :=
    percentDecode_plain fun h => absurd h (by decide)
  rw [handleClient_request fields (List.cons_ne_nil _ _) hpath]
  split
  · rename_i hfits
    rw [hslash, servedAs_route, ← hspelled, percentDecode_letters]
    constructor
    · rintro ⟨hdecoded, hreserved⟩
      rw [(percentDecode_letters ls).mpr hdecoded] at hreserved
      exact ⟨hdecoded, hreserved, hfits⟩
    · rintro ⟨hdecoded, hreserved, -⟩
      rw [(percentDecode_letters ls).mpr hdecoded]
      exact ⟨hdecoded, hreserved⟩
  · rename_i hlong
    refine iff_of_false ?_ fun h => hlong h.2.2
    rintro (h | h)
    · exact Route.noConfusion h
    · exact Route.noConfusion h

/-- `/a%3D.m3u8`. -/
def escapedEquals : List Letter :=
  [.plain 97, .escaped 51 68 61 rfl, .plain 46, .plain 109, .plain 51, .plain 117, .plain 56]

theorem served_iff_equals :
    ServedAs (kFrom ++ bytes "a=.m3u8")
      (handleClient (request (47 :: spelling escapedEquals) (crlf ++ crlf))) := by
  have hturned : Turned 7100 [] (bytes "a=.m3u8") [10] := ⟨[10], by decide +kernel⟩
  refine (@served_iff 7100 [] (bytes "a=.m3u8") [10] (crlf ++ crlf) escapedEquals
    (by unfold Valid; decide +kernel) rfl).mpr (fun _ => ⟨?_, by decide, by decide⟩) hturned
  exact (percentDecode_letters escapedEquals).mp (by decide)

/-- A literal escape is lost when the player asks for the URL as it is listed. -/
theorem literal_escape_decoded :
    Turned 7100 [] (bytes "a%41.m3u8") [10] ∧
      ¬ ServedAs (bytes "mlhls://localhost/a%41.m3u8")
        (handleClient (request (bytes "/a%41.m3u8") (crlf ++ crlf))) :=
  ⟨⟨[10], by decide +kernel⟩, by decide +kernel⟩

end AirPlay.Hls
