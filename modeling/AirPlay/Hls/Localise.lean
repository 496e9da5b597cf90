import AirPlay.Library.Registry
import AirPlay.Library.Text
import AirPlay.Hls.Segments

/-! Localising a playlist.

Every URL of a playlist, on a line of its own or in a tag's attribute, gives way to a
fresh local path. The rewriter edits each tag in the string it is searching; what it makes
of a text is what its pieces say (`rewriteSegments_pieces`), and the paths of one session
are never given out twice (`rewriteAll_localised`). -/
namespace AirPlay.Hls
open Bytes

/-! ### The rewriter -/

/-- The session, and how many URLs have been rewritten. -/
structure Rewriter where
  session : HlsSession
  count : Nat := 0

/-- A URL gets a local one. -/
def Rewriter.register (localPort : Nat) (url : Bytes) (r : Rewriter) : Bytes × Rewriter :=
  (localUrl localPort (registerLocal url r.session).1,
    {session := (registerLocal url r.session).2, count := r.count + 1})

def uriKey : Bytes := bytes "URI=\""

def quote : Bytes := bytes "\""

theorem uriKey_ne_nil : uriKey ≠ [] := List.cons_ne_nil _ _

theorem quote_ne_nil : quote ≠ [] := List.cons_ne_nil _ _

/-- The loop over the `URI="…"` attributes of a tag, which is edited in place. -/
def rewriteTag (localPort : Nat) (tagged : Bytes) (p : Nat) (r : Rewriter) : Bytes × Rewriter :=
  match _hkey : findFrom uriKey tagged p with
  | none => (tagged, r)
  | some key =>
    match _hquote : findFrom quote tagged (key + 5) with
    | none => (tagged, r)
    | some v₁ =>
      let raw := (tagged.drop (key + 5)).take (v₁ - (key + 5))
      if raw ≠ [] ∧ isLocalisable raw then
        let t := r.register localPort raw
        rewriteTag localPort (tagged.take (key + 5) ++ t.1 ++ tagged.drop v₁)
          (key + 5 + t.1.length) t.2
      else rewriteTag localPort tagged (v₁ + 1) r
termination_by tagged.length - p
decreasing_by
  all_goals
    have hkey := findFrom_bounds uriKey_ne_nil _hkey
    have hquote := findFrom_bounds quote_ne_nil _hquote
  · simp only [List.length_append, List.length_take, List.length_drop]
    omega
  · omega

/-- One line of the loop of `rewrite_segments_to_local`. -/
def rewriteLine (localPort : Nat) (line : Bytes) (r : Rewriter) : Bytes × Rewriter :=
  if isUri line then r.register localPort (stripCr line) else rewriteTag localPort line 0 r

def rewriteLines (localPort : Nat) : List (Bytes × Bool) → Rewriter → Bytes × Rewriter
  | [], r => ([], r)
  | (line, ended) :: lines, r =>
    let t := rewriteLine localPort line r
    let ts := rewriteLines localPort lines t.2
    (t.1 ++ (if ended then [10] else []) ++ ts.1, ts.2)

/-- The rewritten playlist, the count and the session. -/
def rewriteSegmentsToLocal (localPort : Nat) (expanded : Bytes) (session : HlsSession) :
    Bytes × Nat × HlsSession :=
  let t := rewriteLines localPort (lines expanded) {session}
  (t.1, t.2.count, t.2.session)

/-! ### What is to be replaced -/

/-- The text of a tag, cut at its `URI="…"` attributes from the left: the values that are
URLs, and the text that stays. An attribute without a closing quote is text. -/
inductive TagText : Bytes → List Piece → Prop
  | rest {t : Bytes}
      (hnone : ∀ before raw after, t ≠ before ++ (uriKey ++ (raw ++ (quote ++ after)))) :
      TagText t [.text t]
  | other {before raw after : Bytes} {ps : List Piece}
      (hfirst : cut uriKey (before ++ (uriKey ++ (raw ++ (quote ++ after)))) =
        some (before, raw ++ (quote ++ after)))
      (hraw : 34 ∉ raw) (hurl : isLocalisable raw = false) (hafter : TagText after ps) :
      TagText (before ++ (uriKey ++ (raw ++ (quote ++ after))))
        (.text (before ++ (uriKey ++ (raw ++ quote))) :: ps)
  | value {before raw after : Bytes} {ps : List Piece}
      (hfirst : cut uriKey (before ++ (uriKey ++ (raw ++ (quote ++ after)))) =
        some (before, raw ++ (quote ++ after)))
      (hraw : 34 ∉ raw) (hurl : isLocalisable raw = true) (hafter : TagText (quote ++ after) ps) :
      TagText (before ++ (uriKey ++ (raw ++ (quote ++ after))))
        (.text (before ++ uriKey) :: .url raw :: ps)

/-- A line that begins with neither `#` nor a blank is a URL, less its carriage return;
another line is the text of a tag. -/
inductive LineText : Bytes → List Piece → Prop
  | url {u : Bytes} (huri : isUri u = true) (hcr : u.getLast? ≠ some 13) : LineText u [.url u]
  | urlCr {u : Bytes} (huri : isUri (u ++ [13]) = true) : LineText (u ++ [13]) [.url u]
  | tag {line : Bytes} {ps : List Piece} (huri : isUri line = false) (htag : TagText line ps) :
      LineText line ps

/-- A playlist, line by line; the last line need not be ended. -/
inductive PlaylistText : Bytes → List Piece → Prop
  | nil : PlaylistText [] []
  | line {line rest : Bytes} {ps more : List Piece} (hline : 10 ∉ line) (hps : LineText line ps)
      (hmore : PlaylistText rest more) :
      PlaylistText (line ++ 10 :: rest) (ps ++ .text [10] :: more)
  | last {line : Bytes} {ps : List Piece} (hne : line ≠ []) (hline : 10 ∉ line)
      (hps : LineText line ps) : PlaylistText line ps

/-! ### Pieces and their paths -/

/-- The URLs that are replaced, in order. -/
def urls (ps : List Piece) : List Bytes :=
  ps.filterMap fun p => match p with
    | .text _ => none
    | .url u => some u

/-- The paths from a number on, one for each URL. -/
def bindings : BitVec 64 → List Bytes → List (Bytes × Bytes)
  | _, [] => []
  | n, u :: us => (localPath n, u) :: bindings (n + 1) us

/-- The text with the paths in place of the URLs. -/
def render (localPort : Nat) : List Piece → List Bytes → Bytes
  | .text b :: ps, paths => b ++ render localPort ps paths
  | .url _ :: ps, path :: paths => localUrl localPort path ++ render localPort ps paths
  | _, _ => []

/-- What localising pieces makes of the session. -/
def Rewriter.bind (us : List Bytes) (r : Rewriter) : Rewriter where
  session := {r.session with
    segUrlMap := Registry.enter r.session.segUrlMap (bindings r.session.segUrlCounter us)
    segUrlCounter := r.session.segUrlCounter + BitVec.ofNat 64 us.length}
  count := r.count + us.length

/-- The pieces with fresh paths, and the session that knows them. -/
def Rewriter.localise (localPort : Nat) (ps : List Piece) (r : Rewriter) : Bytes × Rewriter :=
  (render localPort ps ((bindings r.session.segUrlCounter (urls ps)).map Prod.fst),
    r.bind (urls ps))

section Localise
variable {localPort : Nat} {r : Rewriter}

theorem bind_nil : r.bind [] = r := by
  rw [Rewriter.bind]
  simp [bindings, Registry.enter]

theorem bind_cons (u : Bytes) (us : List Bytes) :
    r.bind (u :: us) = (r.register localPort u).2.bind us := by
  have hcounter : r.session.segUrlCounter + BitVec.ofNat 64 (us.length + 1) =
      r.session.segUrlCounter + 1 + BitVec.ofNat 64 us.length := by
    rw [BitVec.ofNat_add, BitVec.add_assoc, BitVec.add_comm (BitVec.ofNat 64 _)]
    rfl
  simp only [Rewriter.bind, Rewriter.register, registerLocal, bindings, Registry.enter,
    List.foldl_cons, List.length_cons, Nat.add_assoc, Nat.add_comm 1, hcounter]

theorem localise_text (b : Bytes) (ps : List Piece) :
    r.localise localPort (.text b :: ps) =
      (b ++ (r.localise localPort ps).1, (r.localise localPort ps).2) := rfl

theorem localise_url (u : Bytes) (ps : List Piece) :
    r.localise localPort (.url u :: ps) =
      ((r.register localPort u).1 ++ ((r.register localPort u).2.localise localPort ps).1,
        ((r.register localPort u).2.localise localPort ps).2) := by
  have hurls : urls (.url u :: ps) = u :: urls ps := rfl
  simp only [Rewriter.localise, hurls, @bind_cons localPort r u (urls ps)]
  rfl

theorem localise_append (ps qs : List Piece) :
    r.localise localPort (ps ++ qs) =
      ((r.localise localPort ps).1 ++ ((r.localise localPort ps).2.localise localPort qs).1,
        ((r.localise localPort ps).2.localise localPort qs).2) := by
  induction ps generalizing r with
  | nil =>
    have hnil : r.localise localPort [] = ([], r) := by
      rw [Rewriter.localise]
      exact congrArg _ bind_nil
    rw [hnil]
    rfl
  | cons p ps ih =>
    cases p with
    | text b => rw [List.cons_append, localise_text, localise_text, ih, List.append_assoc]
    | url u => rw [List.cons_append, localise_url, localise_url, ih, List.append_assoc]

end Localise

/-! ### The loops -/

section Loops
variable {localPort : Nat} {r : Rewriter}

theorem find_quote {raw : Bytes} (h : 34 ∉ raw) (after : Bytes) :
    find quote (raw ++ (quote ++ after)) = some raw.length := find_of_cut (cut_byte h after)

/-- One attribute. -/
theorem rewriteTag_attribute {before raw after : Bytes} (start : Bytes)
    (hfirst : cut uriKey (before ++ (uriKey ++ (raw ++ (quote ++ after)))) =
      some (before, raw ++ (quote ++ after))) (hraw : 34 ∉ raw) :
    rewriteTag localPort (start ++ (before ++ (uriKey ++ (raw ++ (quote ++ after)))))
        start.length r =
      if isLocalisable raw then
        rewriteTag localPort
          ((start ++ (before ++ (uriKey ++ (r.register localPort raw).1))) ++ (quote ++ after))
          (start ++ (before ++ (uriKey ++ (r.register localPort raw).1))).length
          (r.register localPort raw).2
      else
        rewriteTag localPort ((start ++ (before ++ (uriKey ++ (raw ++ quote)))) ++ after)
          (start ++ (before ++ (uriKey ++ (raw ++ quote)))).length r := by
  have hfive : (start ++ (before ++ uriKey)).length = start.length + before.length + 5 := by
    rw [List.length_append, List.length_append, ← Nat.add_assoc]
    rfl
  have htext : start ++ (before ++ (uriKey ++ (raw ++ (quote ++ after)))) =
      (start ++ (before ++ uriKey)) ++ (raw ++ (quote ++ after)) := by
    simp only [List.append_assoc]
  have hkey := findFrom_append uriKey start (before ++ (uriKey ++ (raw ++ (quote ++ after))))
  rw [find_of_cut hfirst, Option.map_some] at hkey
  have hquote := findFrom_append quote (start ++ (before ++ uriKey)) (raw ++ (quote ++ after))
  rw [find_quote hraw, Option.map_some, hfive, ← htext] at hquote
  have htake : (start ++ (before ++ (uriKey ++ (raw ++ (quote ++ after))))).take
      (start.length + before.length + 5) = start ++ (before ++ uriKey) := by
    rw [htext, ← hfive, List.take_left]
  have hdrop : (start ++ (before ++ (uriKey ++ (raw ++ (quote ++ after))))).drop
      (start.length + before.length + 5) = raw ++ (quote ++ after) := by
    rw [htext, ← hfive, List.drop_left]
  have hrest : (start ++ (before ++ (uriKey ++ (raw ++ (quote ++ after))))).drop
      (start.length + before.length + 5 + raw.length) = quote ++ after := by
    rw [← List.drop_drop, hdrop, List.drop_left]
  conv => lhs; rw [rewriteTag]
  split
  · rename_i hnone
    exact absurd (hnone.symm.trans hkey) (Option.some_ne_none _).symm
  rename_i key hkey'
  obtain rfl := Option.some.inj (hkey'.symm.trans hkey)
  split
  · rename_i hnone
    exact absurd (hnone.symm.trans hquote) (Option.some_ne_none _).symm
  rename_i v₁ hquote'
  obtain rfl := Option.some.inj (hquote'.symm.trans hquote)
  dsimp only
  rw [Nat.add_sub_cancel_left, hdrop, List.take_left, hrest, htake]
  have hlocal : raw ≠ [] ∧ isLocalisable raw = true ↔ isLocalisable raw = true := by
    refine and_iff_right_of_imp ?_
    rintro hurl rfl
    exact absurd hurl (by decide)
  simp only [hlocal]
  split
  · simp only [List.append_assoc, List.length_append, Nat.add_assoc]
    rfl
  · simp only [List.append_assoc, List.length_append, Nat.add_assoc]
    rfl

/-- The loop does with the text behind its position what its pieces say. -/
theorem rewriteTag_pieces {t : Bytes} {ps : List Piece} (h : TagText t ps) (start : Bytes) :
    rewriteTag localPort (start ++ t) start.length r =
      (start ++ (r.localise localPort ps).1, (r.localise localPort ps).2) := by
  induction h generalizing start r with
  | @rest t hnone =>
    have hpieces : r.localise localPort [.text t] = (t, r) := by
      rw [localise_text, Rewriter.localise]
      simp only [urls, render, List.append_nil, List.filterMap_nil, bind_nil]
    have hkey := findFrom_append uriKey start t
    rw [rewriteTag, hpieces]
    split
    · rfl
    rename_i key hkey'
    split
    · rfl
    rename_i v₁ hquote'
    rw [hkey', eq_comm, Option.map_eq_some_iff] at hkey
    obtain ⟨k, hk, rfl⟩ := hkey
    obtain ⟨before, rest, rfl, rfl⟩ := find_eq_some uriKey_ne_nil hk
    have hfive : start.length + before.length + 5 = (start ++ (before ++ uriKey)).length := by
      rw [List.length_append, List.length_append, ← Nat.add_assoc]
      rfl
    have hquote := findFrom_append quote (start ++ (before ++ uriKey)) rest
    rw [← hfive, List.append_assoc, List.append_assoc] at hquote
    rw [List.append_assoc] at hquote'
    rw [hquote', eq_comm, Option.map_eq_some_iff] at hquote
    obtain ⟨k, hk, -⟩ := hquote
    obtain ⟨raw, after, rfl, -⟩ := find_eq_some quote_ne_nil hk
    exact absurd (by simp only [List.append_assoc]) (hnone before raw after)
  | other hfirst hraw hurl _ ih =>
    rw [rewriteTag_attribute start hfirst hraw, hurl, if_neg Bool.false_ne_true, ih, localise_text,
      List.append_assoc]
  | value hfirst hraw hurl _ ih =>
    rw [rewriteTag_attribute start hfirst hraw, hurl, if_pos rfl, ih, localise_text, localise_url]
    simp only [List.append_assoc]

theorem rewriteLine_pieces {line : Bytes} {ps : List Piece} (h : LineText line ps) :
    rewriteLine localPort line r = r.localise localPort ps := by
  have hurl : ∀ u, r.localise localPort [.url u] = r.register localPort u := by
    intro u
    rw [localise_url, Rewriter.localise]
    simp only [urls, render, List.append_nil, List.filterMap_nil, bind_nil]
  rw [rewriteLine]
  cases h with
  | @url u huri hcr => rw [if_pos huri, stripCr, if_neg hcr, hurl]
  | @urlCr u huri =>
    rw [if_pos huri, stripCr, if_pos List.getLast?_concat, List.dropLast_concat, hurl]
  | tag huri htag =>
    rw [huri, if_neg Bool.false_ne_true]
    exact rewriteTag_pieces htag []

theorem rewriteLines_pieces {t : Bytes} {ps : List Piece} (h : PlaylistText t ps) :
    rewriteLines localPort (lines t) r = r.localise localPort ps := by
  induction h generalizing r with
  | nil =>
    rw [Rewriter.localise]
    exact congrArg _ bind_nil.symm
  | line hline hps _ ih =>
    rw [lines_line hline, rewriteLines, rewriteLine_pieces hps, localise_append, localise_text, ih,
      List.append_assoc]
    rfl
  | last hne hline hps =>
    rw [lines_last hline hne, rewriteLines, rewriteLine_pieces hps]
    exact Prod.ext (by simp [rewriteLines]) rfl

end Loops

/-! ### The pieces of a text -/

theorem tagText_tagPieces {fuel : Nat} {t : Bytes} (h : t.length < fuel) :
    TagText t (tagPieces fuel t) := by
  induction fuel generalizing t with
  | zero => exact absurd h (Nat.not_lt_zero _)
  | succ fuel ih =>
    rw [tagPieces]
    cases hkey : cut (bytes "URI=\"") t with
    | none =>
      refine .rest fun before raw after ht => ?_
      have hin : uriKey <:+: t := ⟨before, raw ++ (quote ++ after), by rw [ht, List.append_assoc]⟩
      exact (cut_eq_none_iff uriKey_ne_nil).mp hkey hin
    | some p =>
      obtain ⟨before, rest⟩ := p
      dsimp only
      have ht := (cut_eq_some uriKey_ne_nil hkey).trans (List.append_assoc before uriKey rest)
      cases hquote : cut (bytes "\"") rest with
      | none =>
        refine .rest fun before' raw after ht' => ?_
        have hin : quote <:+: rest := by
          have hsuffix := cut_first uriKey_ne_nil hkey ht'
          have hquotes : quote <:+: raw ++ (quote ++ after) :=
            ⟨raw, after, by rw [List.append_assoc]⟩
          exact hquotes.trans hsuffix.isInfix
        exact (cut_eq_none_iff quote_ne_nil).mp hquote hin
      | some q =>
        obtain ⟨raw, after⟩ := q
        have hrest := (cut_eq_some quote_ne_nil hquote).trans (List.append_assoc raw quote after)
        have hraw : 34 ∉ raw := not_mem_of_cut hquote
        rw [hrest] at ht hkey
        have hlength : before.length + (5 + (raw.length + (1 + after.length))) < fuel + 1 := by
          rw [ht] at h
          simp only [List.length_append] at h
          exact h
        rw [ht] at hkey ⊢
        dsimp only
        split
        · rename_i hurl
          refine .value hkey hraw hurl.2 (ih ?_)
          rw [List.length_append]
          exact show 1 + after.length < fuel by omega
        · rename_i hurl
          have hfalse : isLocalisable raw = false := by
            by_contra htrue
            rw [Bool.not_eq_false] at htrue
            refine hurl ⟨?_, htrue⟩
            rintro rfl
            exact absurd htrue (by decide)
          rw [List.append_assoc, List.append_assoc]
          refine .other hkey hraw hfalse (ih ?_)
          omega

theorem lineText_pieces (line : Bytes) :
    LineText line
      (if isUri line then [.url (stripCr line)] else tagPieces (line.length + 1) line) := by
  by_cases huri : isUri line = true
  · rw [if_pos huri, stripCr]
    by_cases hcr : line.getLast? = some 13
    · rw [if_pos hcr]
      obtain ⟨u, rfl⟩ := List.getLast?_eq_some_iff.mp hcr
      rw [List.dropLast_concat]
      exact .urlCr huri
    · rw [if_neg hcr]
      exact .url huri hcr
  · rw [if_neg huri]
    exact .tag (Bool.not_eq_true _ ▸ huri) (tagText_tagPieces (Nat.lt_succ_self _))

/-- Every text is cut into its pieces. -/
theorem playlistText_pieces (t : Bytes) : PlaylistText t (playlistPieces t) := by
  induction hn : t.length using Nat.strongRecOn generalizing t with
  | ind n ih =>
    rcases lines_cases t with rfl | ⟨line, rest, rfl, hline⟩ | ⟨hne, hline⟩
    · exact .nil
    · have hshorter : rest.length < n := by
        rw [← hn, List.length_append, List.length_cons]
        omega
      have hpieces : playlistPieces (line ++ 10 :: rest) =
          (if isUri line then [.url (stripCr line)] else tagPieces (line.length + 1) line) ++
            .text [10] :: playlistPieces rest := by
        rw [playlistPieces, lines_line hline, List.flatMap_cons, linePieces, if_pos rfl,
          List.append_assoc]
        rfl
      rw [hpieces]
      exact .line hline (lineText_pieces line) (ih _ hshorter rest rfl)
    · have hpieces : playlistPieces t =
          if isUri t then [.url (stripCr t)] else tagPieces (t.length + 1) t := by
        rw [playlistPieces, lines_last hline hne, List.flatMap_singleton, linePieces]
        exact List.append_nil _
      rw [hpieces]
      exact .last hne hline (lineText_pieces t)

/-- What the handler of a delivery does with the pieces one by one is what the rewriter
does with the text. -/
theorem rewriteSegments_pieces (localPort : Nat) (expanded : Bytes) (session : HlsSession) :
    rewriteSegmentsToLocal localPort expanded session =
      let t := Rewriter.localise localPort (playlistPieces expanded) {session}
      (t.1, t.2.count, t.2.session) := by
  rw [rewriteSegmentsToLocal, rewriteLines_pieces (playlistText_pieces expanded)]

/-! ### A session's calls -/

/-- A call of `rewrite_segments_to_local`: the server's port and the playlist. -/
structure Call where
  localPort : Nat
  expanded : Bytes

/-- Calls for one session, one after the other: the results, and the session. -/
def rewriteAll : List Call → HlsSession → List (Bytes × Nat) × HlsSession
  | [], s => ([], s)
  | c :: cs, s =>
    let t := rewriteSegmentsToLocal c.localPort c.expanded s
    let ts := rewriteAll cs t.2.2
    ((t.1, t.2.1) :: ts.1, ts.2)

/-- How many URLs the calls have rewritten. -/
def rewrites : List (Bytes × Nat) → Nat
  | [] => 0
  | result :: results => result.2 + rewrites results

/-- The text is the playlist with paths in place of these URLs, and the count theirs. -/
structure Localised (c : Call) (result : Bytes × Nat) (entries : List (Bytes × Bytes)) : Prop where
  text : ∃ ps, PlaylistText c.expanded ps ∧ urls ps = entries.map Prod.snd ∧
    result.1 = render c.localPort ps (entries.map Prod.fst)
  count : result.2 = entries.length

/-- The paths that the calls have given out, each with the URL it stands for. -/
inductive Logged : List Call → List (Bytes × Nat) → List (Bytes × Bytes) → Prop
  | nil : Logged [] [] []
  | call {c : Call} {cs : List Call} {result : Bytes × Nat} {results : List (Bytes × Nat)}
      {entries more : List (Bytes × Bytes)} (hcall : Localised c result entries)
      (hmore : Logged cs results more) : Logged (c :: cs) (result :: results) (entries ++ more)

theorem map_snd_bindings (n : BitVec 64) (us : List Bytes) : (bindings n us).map Prod.snd = us := by
  induction us generalizing n with
  | nil => rfl
  | cons u us ih => rw [bindings, List.map_cons, ih]

theorem length_bindings (n : BitVec 64) (us : List Bytes) : (bindings n us).length = us.length := by
  rw [← @List.length_map _ _ (bindings n us) Prod.snd, map_snd_bindings]

theorem bindings_append (n : BitVec 64) (us vs : List Bytes) :
    bindings n (us ++ vs) = bindings n us ++ bindings (n + BitVec.ofNat 64 us.length) vs := by
  induction us generalizing n with
  | nil => rw [List.nil_append, List.length_nil, BitVec.add_zero]; rfl
  | cons u us ih =>
    rw [List.cons_append, bindings, ih, bindings, List.cons_append, List.length_cons,
      BitVec.ofNat_add, BitVec.add_assoc, BitVec.add_comm (BitVec.ofNat 64 _)]
    rfl

/-- The numbers of the paths go up one by one. -/
theorem mem_bindings {n : BitVec 64} {us : List Bytes} {path : Bytes}
    (h : path ∈ (bindings n us).map Prod.fst) :
    ∃ i < us.length, path = localPath (n + BitVec.ofNat 64 i) := by
  induction us generalizing n with
  | nil => exact absurd h List.not_mem_nil
  | cons u us ih =>
    rcases List.mem_cons.mp h with rfl | h
    · exact ⟨0, Nat.succ_pos _, by rw [BitVec.add_zero]⟩
    · obtain ⟨i, hi, rfl⟩ := ih h
      refine ⟨i + 1, Nat.succ_lt_succ hi, ?_⟩
      rw [BitVec.ofNat_add, BitVec.add_assoc, BitVec.add_comm (BitVec.ofNat 64 i)]
      rfl

theorem bindings_nodup (n : BitVec 64) (us : List Bytes) (h : us.length < 2 ^ 64) :
    ((bindings n us).map Prod.fst).Nodup := by
  induction us generalizing n with
  | nil => exact List.nodup_nil
  | cons u us ih =>
    rw [List.length_cons] at h
    refine List.nodup_cons.mpr ⟨fun hmem => ?_, ih (n + 1) (by omega)⟩
    obtain ⟨i, hi, heq⟩ := mem_bindings hmem
    have hnumber := congrArg BitVec.toNat (localPath_injective heq)
    have hn := n.isLt
    have hone : (1 : BitVec 64).toNat = 1 := rfl
    rw [BitVec.toNat_add, BitVec.toNat_add, BitVec.toNat_ofNat, hone] at hnumber
    omega

/-- What one call does, by the URLs it replaces. -/
theorem rewriteSegments_localised (c : Call) (s : HlsSession) :
    ∃ us : List Bytes, Localised c ((rewriteSegmentsToLocal c.localPort c.expanded s).1,
        (rewriteSegmentsToLocal c.localPort c.expanded s).2.1) (bindings s.segUrlCounter us) ∧
      (rewriteSegmentsToLocal c.localPort c.expanded s).2.2.segUrlMap =
        Registry.enter s.segUrlMap (bindings s.segUrlCounter us) ∧
      (rewriteSegmentsToLocal c.localPort c.expanded s).2.2.segUrlCounter =
        s.segUrlCounter + BitVec.ofNat 64 us.length := by
  have hcall := rewriteSegments_pieces c.localPort c.expanded s
  generalize hps : playlistPieces c.expanded = ps at hcall
  have htext : PlaylistText c.expanded ps := hps ▸ playlistText_pieces c.expanded
  have hsession : (rewriteSegmentsToLocal c.localPort c.expanded s).2.2 =
      (Rewriter.bind (urls ps) {session := s}).session := by
    rw [hcall]
    rfl
  refine ⟨urls ps, ⟨⟨ps, htext, (map_snd_bindings _ _).symm, ?_⟩, ?_⟩, ?_, ?_⟩
  · rw [hcall]
    rfl
  · rw [hcall, length_bindings]
    exact Nat.zero_add _
  · rw [hsession]
    rfl
  · rw [hsession]
    rfl

/-- What the calls have done, by the URLs they have replaced. -/
theorem rewriteAll_entries (calls : List Call) (s : HlsSession) :
    ∃ us : List Bytes, Logged calls (rewriteAll calls s).1 (bindings s.segUrlCounter us) ∧
      (rewriteAll calls s).2.segUrlMap =
        Registry.enter s.segUrlMap (bindings s.segUrlCounter us) ∧
      (rewriteAll calls s).2.segUrlCounter = s.segUrlCounter + BitVec.ofNat 64 us.length ∧
      rewrites (rewriteAll calls s).1 = us.length := by
  induction calls generalizing s with
  | nil => exact ⟨[], .nil, rfl, (BitVec.add_zero _).symm, rfl⟩
  | cons c calls ih =>
    obtain ⟨us, hlocal, hmap, hcounter⟩ := rewriteSegments_localised c s
    obtain ⟨us', hlogged, hmap', hcounter', hcount⟩ :=
      ih (rewriteSegmentsToLocal c.localPort c.expanded s).2.2
    rw [hcounter] at hlogged hmap' hcounter'
    rw [hmap, ← Registry.enter_append, ← bindings_append] at hmap'
    refine ⟨us ++ us', ?_, hmap', ?_, ?_⟩
    · rw [bindings_append]
      exact .call hlocal hlogged
    · rw [List.length_append, BitVec.ofNat_add, ← BitVec.add_assoc]
      exact hcounter'
    · rw [List.length_append, ← hcount, ← length_bindings s.segUrlCounter us, ← hlocal.count]
      rfl

theorem rewriteAll_append (calls calls' : List Call) (s : HlsSession) :
    (rewriteAll (calls ++ calls') s).1 =
        (rewriteAll calls s).1 ++ (rewriteAll calls' (rewriteAll calls s).2).1 ∧
      (rewriteAll (calls ++ calls') s).2 = (rewriteAll calls' (rewriteAll calls s).2).2 := by
  induction calls generalizing s with
  | nil => exact ⟨rfl, rfl⟩
  | cons c calls ih =>
    obtain ⟨hresults, hsession⟩ := ih (rewriteSegmentsToLocal c.localPort c.expanded s).2.2
    exact ⟨congrArg _ hresults, hsession⟩

/-- Whatever a session's calls rewrite, each text has fresh paths in place of its URLs and
is the same elsewhere, and the session knows each path for the URL it stands for, from the
call on that gave it out. -/
theorem rewriteAll_localised (calls : List Call) (s : HlsSession)
    (hfresh : s.segUrlMap = (fun _ => none) ∧ s.segUrlCounter = 0)
    (hfew : rewrites (rewriteAll calls s).1 < 2 ^ 64) :
    (∃ entries, Logged calls (rewriteAll calls s).1 entries ∧ (entries.map Prod.fst).Nodup ∧
        ∀ e ∈ entries, (rewriteAll calls s).2.segUrlMap e.1 = some e.2) ∧
      ∀ earlier path u, earlier <+: calls → (rewriteAll earlier s).2.segUrlMap path = some u →
        (rewriteAll calls s).2.segUrlMap path = some u := by
  constructor
  · obtain ⟨us, hlogged, hmap, -, hcount⟩ := rewriteAll_entries calls s
    have hnodup := bindings_nodup s.segUrlCounter us (hcount ▸ hfew)
    exact ⟨_, hlogged, hnodup, fun e he => hmap ▸ Registry.enter_of_mem hnodup he⟩
  · rintro earlier path u ⟨later, rfl⟩ hpath
    obtain ⟨us, -, hmap, hcounter, hcount⟩ := rewriteAll_entries earlier s
    obtain ⟨us', -, hmap', -, hcount'⟩ := rewriteAll_entries later (rewriteAll earlier s).2
    obtain ⟨hresults, hsession⟩ := rewriteAll_append earlier later s
    have hknown : path ∈ (bindings s.segUrlCounter us).map Prod.fst := by
      by_contra hnot
      rw [hmap, Registry.enter_of_not_mem hnot, hfresh.1] at hpath
      exact absurd hpath (Option.some_ne_none u).symm
    have htotal : (us ++ us').length < 2 ^ 64 := by
      have hsum : ∀ rs rs' : List (Bytes × Nat),
          rewrites (rs ++ rs') = rewrites rs + rewrites rs' := by
        intro rs rs'
        induction rs with
        | nil => exact (Nat.zero_add _).symm
        | cons r rs ih => rw [List.cons_append, rewrites, ih, rewrites, Nat.add_assoc]
      rw [hresults, hsum, hcount, hcount'] at hfew
      rwa [List.length_append]
    have hnodup := bindings_nodup s.segUrlCounter (us ++ us') htotal
    rw [bindings_append, List.map_append, ← hcounter] at hnodup
    have hlater := (List.nodup_append.mp hnodup).2.2 path hknown
    rw [hsession, hmap', Registry.enter_of_not_mem fun hmem => hlater path hmem rfl]
    exact hpath

theorem rewriteAll_localised_two :
    (rewriteAll [⟨8080, bytes "a\n"⟩, ⟨8080, bytes "b"⟩] {}).2.segUrlMap (bytes "/seg/0") =
      some (bytes "a") :=
  (rewriteAll_localised [⟨8080, bytes "a\n"⟩, ⟨8080, bytes "b"⟩] {} ⟨rfl, rfl⟩ (by decide)).2
    [⟨8080, bytes "a\n"⟩] _ _ (List.prefix_append _ _) (by decide)

end AirPlay.Hls
