import AirPlay.Hls.Expansion

/-! The two shapes of a condensed chunk.

A chunk has the values of the parameters alone (model A) or each behind its parameter's name
(model B), the last value possibly missing. The two take different loops, which come to the
same URL (`models_agree`), as long as a slash in a parameter's name does not take the name
apart. -/
namespace AirPlay.Hls
open Bytes

/-! ### The shapes -/

/-- Each name with its value, as far as there are values. -/
def paired : List Bytes → List Bytes → List Bytes
  | [], _ => []
  | key :: keys, [] => key :: paired keys []
  | key :: keys, value :: values => key :: value :: paired keys values

/-- The words with a separator behind each. -/
def ended (ws : List Bytes) : Bytes := ws.flatMap (· ++ [47])

/-- How values are written as a chunk: alone or with the names, and with a slash at the end
when the last one is missing. A slash may come first. -/
inductive Written (keys values : List Bytes) : Bytes → Prop
  | values {lead : Bytes} (hlead : lead = [] ∨ lead = [47]) (hfull : values.length = keys.length) :
      Written keys values (lead ++ joined 47 values)
  | pairs {lead : Bytes} (hlead : lead = [] ∨ lead = [47]) (hfull : values.length = keys.length) :
      Written keys values (lead ++ joined 47 (paired keys values))
  | valuesEnded {lead : Bytes} (hlead : lead = [] ∨ lead = [47])
      (hmissing : values.length + 1 = keys.length) : Written keys values (lead ++ ended values)
  | pairsEnded {lead : Bytes} (hlead : lead = [] ∨ lead = [47])
      (hmissing : values.length + 1 = keys.length) :
      Written keys values (lead ++ ended (paired keys values))

/-- Values that neither hold a slash nor are the first parameter. -/
def Values (h : Header) (values : List Bytes) : Prop :=
  ∀ v ∈ values, v ≠ [] ∧ 47 ∉ v ∧ v ≠ h.keys.headD []

/-- Two chunks behind the same text: the same one, or the same values. -/
structure SameChunk (h : Header) (c c' : ChunkLine h.chunkPrefix) : Prop where
  text : c.text = c'.text
  chunk : c.chunk = c'.chunk ∨
    ∃ values, Values h values ∧ Written h.keys values c.chunk ∧ Written h.keys values c'.chunk

/-- Two playlists that differ at most in how values are written. -/
inductive Rewritten (h : Header) : List (ChunkLine h.chunkPrefix) → Ending h.chunkPrefix →
    List (ChunkLine h.chunkPrefix) → Ending h.chunkPrefix → Prop
  | text {t : Bytes} {hnone : NoChunk h.chunkPrefix t} :
      Rewritten h [] (.text t hnone) [] (.text t hnone)
  | last {c c' : ChunkLine h.chunkPrefix} (hsame : SameChunk h c c') :
      Rewritten h [] (.chunk c) [] (.chunk c')
  | chunk {c c' : ChunkLine h.chunkPrefix} {lines lines' : List (ChunkLine h.chunkPrefix)}
      {ending ending' : Ending h.chunkPrefix} (hsame : SameChunk h c c')
      (hmore : Rewritten h lines ending lines' ending') :
      Rewritten h (c :: lines) ending (c' :: lines') ending'

/-- A name none of whose components is empty. -/
def Components (key : Bytes) : Prop :=
  ∃ ws, ws ≠ [] ∧ (∀ w ∈ ws, w ≠ [] ∧ 47 ∉ w) ∧ key = joined 47 ws

/-! ### Parts of the shapes -/

section Words
variable {keys values ws : List Bytes}

theorem behind_cons (w : Bytes) (ws : List Bytes) :
    behind 47 (w :: ws) = 47 :: (w ++ behind 47 ws) :=
  List.flatMap_cons

theorem behind_append (ws vs : List Bytes) : behind 47 (ws ++ vs) = behind 47 ws ++ behind 47 vs :=
  List.flatMap_append

/-- The parts of joined words are the words' parts. -/
theorem parts_joined_flatMap (ws : List Bytes) :
    parts 47 (joined 47 ws) = ws.flatMap (parts 47) := by
  cases ws with
  | nil => rfl
  | cons w ws =>
    induction ws generalizing w with
    | nil => simp [joined, behind]
    | cons v ws ih =>
      have hjoined : joined 47 (w :: v :: ws) = w ++ 47 :: joined 47 (v :: ws) := by
        rw [joined, behind_cons, joined]
      rw [hjoined, parts_append, ih]
      rfl

theorem parts_ended_flatMap (ws : List Bytes) : parts 47 (ended ws) = ws.flatMap (parts 47) := by
  induction ws with
  | nil => rfl
  | cons w ws ih =>
    have hended : ended (w :: ws) = w ++ 47 :: ended ws := by
      rw [ended, List.flatMap_cons, List.append_assoc]
      rfl
    rw [hended, parts_append, ih, List.flatMap_cons]

theorem parts_lead {lead : Bytes} (hlead : lead = [] ∨ lead = [47]) (s : Bytes) :
    parts 47 (lead ++ s) = parts 47 s := by
  rcases hlead with rfl | rfl
  · rfl
  · exact parts_cons s

theorem words_flatMap_parts (ws : List Bytes) :
    ∀ w ∈ ws.flatMap (parts 47), w ≠ [] ∧ 47 ∉ w := by
  intro w hw
  obtain ⟨v, -, hv⟩ := List.mem_flatMap.mp hw
  exact words_parts v w hv

theorem flatMap_parts_values (h : ∀ v ∈ values, v ≠ [] ∧ 47 ∉ v) :
    values.flatMap (parts 47) = values := by
  induction values with
  | nil => rfl
  | cons v values ih =>
    obtain ⟨⟨hne, hfree⟩, hvalues⟩ := List.forall_mem_cons.mp h
    rw [List.flatMap_cons, parts_word hfree hne, ih hvalues]
    rfl

/-- A name of components comes out of its parts again. -/
theorem behind_parts {key : Bytes} (h : Components key) : behind 47 (parts 47 key) = 47 :: key := by
  obtain ⟨ws, hne, hws, rfl⟩ := h
  rw [parts_joined hws]
  cases ws with
  | nil => exact absurd rfl hne
  | cons w ws => exact behind_cons w ws

theorem behind_flatMap_parts (h : ∀ w ∈ ws, Components w) :
    behind 47 (ws.flatMap (parts 47)) = behind 47 ws := by
  induction ws with
  | nil => rfl
  | cons w ws ih =>
    obtain ⟨hw, hws⟩ := List.forall_mem_cons.mp h
    rw [List.flatMap_cons, behind_append, behind_parts hw, ih hws, behind_cons]
    rfl

theorem components_value {v : Bytes} (hne : v ≠ []) (hfree : 47 ∉ v) : Components v := by
  refine ⟨[v], List.cons_ne_nil v [], fun w hw => ?_, (List.append_nil v).symm⟩
  rw [List.mem_singleton.mp hw]
  exact ⟨hne, hfree⟩

theorem behind_paired (hfull : values.length = keys.length) :
    behind 47 (paired keys values) = interleave keys values := by
  induction keys generalizing values with
  | nil => rfl
  | cons key keys ih =>
    cases values with
    | nil => exact absurd hfull.symm (Nat.succ_ne_zero _)
    | cons v values =>
      rw [paired, behind_cons, behind_cons, ih (Nat.succ.inj hfull)]
      rfl

theorem behind_paired_missing (hmissing : values.length + 1 = keys.length) :
    behind 47 (paired keys values) ++ [47] = interleave keys values := by
  induction keys generalizing values with
  | nil => exact absurd hmissing (Nat.succ_ne_zero _)
  | cons key keys ih =>
    cases values with
    | nil =>
      obtain rfl := List.length_eq_zero_iff.mp (Nat.succ.inj hmissing).symm
      simp [paired, behind, interleave]
    | cons v values =>
      have hmore := ih (Nat.succ.inj hmissing)
      rw [paired, behind_cons, behind_cons, interleave, List.headD_cons, List.tail_cons, ← hmore]
      simp only [List.cons_append, List.append_assoc]

theorem components_paired (hkeys : ∀ key ∈ keys, Components key)
    (hvalues : ∀ v ∈ values, v ≠ [] ∧ 47 ∉ v) : ∀ w ∈ paired keys values, Components w := by
  induction keys generalizing values with
  | nil => exact fun w hw => absurd hw List.not_mem_nil
  | cons key keys ih =>
    obtain ⟨hkey, hkeys⟩ := List.forall_mem_cons.mp hkeys
    cases values with
    | nil => exact List.forall_mem_cons.mpr ⟨hkey, ih hkeys hvalues⟩
    | cons v values =>
      obtain ⟨⟨hne, hfree⟩, hvalues⟩ := List.forall_mem_cons.mp hvalues
      exact List.forall_mem_cons.mpr ⟨hkey,
        List.forall_mem_cons.mpr ⟨components_value hne hfree, ih hkeys hvalues⟩⟩

/-- Words behind separators do not end with one. -/
theorem getLast?_behind (h : ∀ w ∈ ws, w ≠ [] ∧ 47 ∉ w) : (behind 47 ws).getLast? ≠ some 47 := by
  rcases List.eq_nil_or_concat ws with rfl | ⟨ws, w, rfl⟩
  · exact (Option.some_ne_none _).symm
  · rw [List.concat_eq_append] at h ⊢
    obtain ⟨hne, hfree⟩ := h w (List.mem_append_right _ List.mem_cons_self)
    have hbehind : behind 47 (ws ++ [w]) = (behind 47 ws ++ [47]) ++ w := by
      simp [behind]
    have hlast : (behind 47 (ws ++ [w])).getLast? = w.getLast? := by
      rw [hbehind, List.getLast?_append_of_ne_nil _ hne]
    rw [hlast]
    exact fun h => hfree (List.mem_of_getLast? h)

/-- Nor do words with separators between them. -/
theorem getLast?_lead_joined {lead : Bytes} (hne : ws ≠ []) (h : ∀ w ∈ ws, Components w) :
    (lead ++ joined 47 ws).getLast? ≠ some 47 := by
  have hlast := getLast?_behind (words_flatMap_parts ws)
  rw [behind_flatMap_parts h] at hlast
  cases ws with
  | nil => exact absurd rfl hne
  | cons w ws =>
    have hcons : behind 47 (w :: ws) = [47] ++ joined 47 (w :: ws) := List.flatMap_cons
    rw [hcons] at hlast
    have hjoined : joined 47 (w :: ws) ≠ [] := by
      intro hnil
      rw [hnil] at hlast
      exact hlast rfl
    rw [List.getLast?_append_of_ne_nil _ hjoined] at hlast ⊢
    exact hlast

theorem getLast?_lead_ended {lead : Bytes} (hne : ws ≠ []) :
    (lead ++ ended ws).getLast? = some 47 := by
  obtain ⟨ws, w, rfl⟩ := (List.eq_nil_or_concat ws).resolve_left hne
  have hended : ended (ws ++ [w]) = ended ws ++ w ++ [47] := by
    simp [ended]
  rw [List.concat_eq_append, hended, ← List.append_assoc]
  exact List.getLast?_concat

end Words

/-! ### The shapes come to the same -/

section Agree
variable {h : Header} (hfirst : 47 ∉ h.keys.headD []) (hkeys : ∀ key ∈ h.keys, Components key)
  (hne : h.keys ≠ [])
include hfirst hkeys hne

/-- With names the first parameter is found. -/
theorem first_mem_parts (values : List Bytes) :
    h.keys.headD [] ∈ (paired h.keys values).flatMap (parts 47) := by
  cases hh : h.keys with
  | nil => exact absurd hh hne
  | cons key keys =>
    rw [hh] at hfirst hkeys
    obtain ⟨ws, hws, hwords, hjoined⟩ := hkeys key List.mem_cons_self
    have hkey : key ≠ [] := by
      rintro rfl
      have hparts := parts_joined hwords
      rw [← hjoined] at hparts
      exact hws hparts.symm
    refine List.mem_flatMap.mpr ⟨key, ?_, ?_⟩
    · cases values with
      | nil => exact List.mem_cons_self
      | cons v values => exact List.mem_cons_self
    · rw [List.headD_cons] at hfirst ⊢
      rw [parts_word hfirst hkey]
      exact List.mem_cons_self

/-- However values are written as a chunk, its path is the parameters with the values. -/
theorem chunkPath_written {values : List Bytes} {chunk : Bytes} (hvalues : Values h values)
    (hw : Written h.keys values chunk) : chunkPath h chunk = interleave h.keys values := by
  have hwords : ∀ v ∈ values, v ≠ [] ∧ 47 ∉ v := fun v hv => ⟨(hvalues v hv).1, (hvalues v hv).2.1⟩
  have hnot : h.keys.headD [] ∉ values := fun hmem => (hvalues _ hmem).2.2 rfl
  have hcomponents := components_paired hkeys hwords
  have hpairs : ∀ {s}, parts 47 s = (paired h.keys values).flatMap (parts 47) →
      chunkBody h s = behind 47 (paired h.keys values) := by
    intro s hs
    have hmem := List.contains_iff_mem.mpr (first_mem_parts hfirst hkeys hne values)
    rw [chunkBody, hs, if_pos hmem, behind_flatMap_parts hcomponents]
  have hbare : ∀ {s}, parts 47 s = values → chunkBody h s = interleave h.keys values := by
    intro s hs
    rw [chunkBody, hs, if_neg fun hmem => hnot (List.contains_iff_mem.mp hmem)]
  have hnames : paired h.keys values ≠ [] := by
    intro hnil
    have hmem := first_mem_parts hfirst hkeys hne values
    rw [hnil] at hmem
    exact absurd hmem List.not_mem_nil
  rw [chunkPath]
  cases hw with
  | @values lead hlead hfull =>
    have hsome : values ≠ [] := by
      rintro rfl
      exact hne (List.length_eq_zero_iff.mp hfull.symm)
    have hlast := @getLast?_lead_joined values lead hsome
      fun v hv => components_value (hwords v hv).1 (hwords v hv).2
    rw [hbare ((parts_lead hlead _).trans (parts_joined hwords)), preserveSlash,
      if_neg fun hslash => hlast hslash.1]
  | @pairs lead hlead hfull =>
    have hlast := @getLast?_lead_joined _ lead hnames hcomponents
    rw [hpairs ((parts_lead hlead _).trans (parts_joined_flatMap _)), preserveSlash,
      if_neg fun hslash => hlast hslash.1, behind_paired hfull]
  | @valuesEnded lead hlead hmissing =>
    have hlast : (interleave h.keys values).getLast? = some 47 := by
      rw [← behind_paired_missing hmissing]
      exact List.getLast?_concat
    rw [hbare ((parts_lead hlead _).trans ((parts_ended_flatMap _).trans
      (flatMap_parts_values hwords))), preserveSlash, if_neg fun hslash => hslash.2 hlast]
  | @pairsEnded lead hlead hmissing =>
    have hbody : (behind 47 (paired h.keys values)).getLast? ≠ some 47 := by
      rw [← behind_flatMap_parts hcomponents]
      exact getLast?_behind (words_flatMap_parts _)
    rw [hpairs ((parts_lead hlead _).trans (parts_ended_flatMap _)), preserveSlash,
      if_pos ⟨getLast?_lead_ended hnames, hbody⟩, behind_paired_missing hmissing]

theorem expandChunk_same (hparams : h.params ≠ []) {c c' : ChunkLine h.chunkPrefix}
    (hsame : SameChunk h c c') : expandChunk h c.chunk = expandChunk h c'.chunk := by
  rcases hsame.chunk with heq | ⟨values, hvalues, hw, hw'⟩
  · rw [heq]
  · rw [expandChunk_eq hparams, expandChunk_eq hparams,
      chunkPath_written hfirst hkeys hne hvalues hw, chunkPath_written hfirst hkeys hne hvalues hw']

/-- Chunk line by chunk line the loop writes the same. -/
theorem expandLoop_rewritten (honline : h.OnLine) {lines lines' : List (ChunkLine h.chunkPrefix)}
    {ending ending' : Ending h.chunkPrefix} (hrewritten : Rewritten h lines ending lines' ending')
    (hclear : AllClear lines ending) {fuel fuel' : Nat}
    (hfuel : (playlist lines ending).length < fuel)
    (hfuel' : (playlist lines' ending').length < fuel') :
    expandLoop h fuel (playlist lines ending) = expandLoop h fuel' (playlist lines' ending') := by
  have hfound := honline.chunkPrefix_ne
  obtain ⟨fuel, rfl⟩ := Nat.exists_eq_succ_of_ne_zero (Nat.ne_zero_of_lt hfuel)
  obtain ⟨fuel', rfl⟩ := Nat.exists_eq_succ_of_ne_zero (Nat.ne_zero_of_lt hfuel')
  induction hrewritten generalizing fuel fuel' with
  | @text t hnone =>
    have hloop : ∀ fuel, expandLoop h fuel t = t := expandLoop_clear hfound hclear.2
    rw [playlist, Ending.render, hloop, hloop]
  | @last c c' hsame =>
    have hclear' : Clear h.chunkPrefix c'.text := hsame.text ▸ hclear.2
    rw [playlist, playlist, Ending.render, Ending.render,
      expandLoop_last hfound honline.chunkPrefix c hclear.2,
      expandLoop_last hfound honline.chunkPrefix c' hclear',
      expandChunk_same hfirst hkeys hne honline.params_ne hsame, hsame.text]
  | @chunk c c' lines lines' ending ending' hsame _ ih =>
    obtain ⟨hlines, hending⟩ := hclear
    obtain ⟨hc, hlines⟩ := List.forall_mem_cons.mp hlines
    have hc' : Clear h.chunkPrefix c'.text := hsame.text ▸ hc
    have hmore := length_playlist_lt hfuel
    have hmore' := length_playlist_lt hfuel'
    obtain ⟨fuel, rfl⟩ := Nat.exists_eq_succ_of_ne_zero (Nat.ne_zero_of_lt hmore)
    obtain ⟨fuel', rfl⟩ := Nat.exists_eq_succ_of_ne_zero (Nat.ne_zero_of_lt hmore')
    rw [playlist, playlist, expandLoop_chunk hfound honline.chunkPrefix c hc,
      expandLoop_chunk hfound honline.chunkPrefix c' hc',
      expandChunk_same hfirst hkeys hne honline.params_ne hsame, hsame.text,
      ih ⟨hlines, hending⟩ fuel hmore fuel' hmore']

end Agree

/-- Playlists that write the same values in either shape expand to the same text, when the
first parameter has no slash and no parameter an empty component. -/
theorem models_agree (h : Header) (hfirst : 47 ∉ h.keys.headD [])
    (hkeys : ∀ key ∈ h.keys, Components key) (lines lines' : List (ChunkLine h.chunkPrefix))
    (ending ending' : Ending h.chunkPrefix) (hheader : HasHeader h (playlist lines ending))
    (hheader' : HasHeader h (playlist lines' ending')) (hclear : AllClear lines ending)
    (hrewritten : Rewritten h lines ending lines' ending') :
    expandYtCondensedPlaylist (playlist lines ending) =
      expandYtCondensedPlaylist (playlist lines' ending') := by
  have honline := hheader.onLine
  rw [expand_eq_loop hheader, expand_eq_loop hheader']
  exact expandLoop_rewritten hfirst hkeys (keys_ne_nil honline.params_ne) honline hrewritten hclear
    (Nat.lt_succ_self _) (Nat.lt_succ_self _)

/-- A chunk line further down. -/
def tagLine (chunk : Bytes) (hchunk : 10 ∉ chunk) : ChunkLine exampleHeader.chunkPrefix where
  text := bytes "#EXTINF:5.0,\n"
  chunk := chunk
  htag := ⟨[], bytes ":5.0,\n", by decide +kernel, .inl rfl⟩
  hline := by decide +kernel
  hfirst := noChunk_of_not_infix (by decide +kernel)
  hchunk := hchunk

/-- Values alone in the first chunk line and at the end, the second with names, where the
last value is missing. -/
def exampleLines : List (ChunkLine exampleHeader.chunkPrefix) :=
  [exampleLine (bytes "/0/5600") (by decide), tagLine (bytes "s/1/slices/") (by decide)]

/-- The same in the other shape. -/
def exampleLines' : List (ChunkLine exampleHeader.chunkPrefix) :=
  [exampleLine (bytes "s/0/slices/5600") (by decide), tagLine (bytes "/1/") (by decide)]

theorem example_values : Values exampleHeader [bytes "0", bytes "5600"] ∧
    Values exampleHeader [bytes "1"] ∧ Values exampleHeader [bytes "2", bytes "7"] := by
  unfold Values
  decide +kernel

theorem example_rewritten :
    Rewritten exampleHeader exampleLines (.chunk (tagLine (bytes "2/7") (by decide)))
      exampleLines' (.chunk (tagLine (bytes "/s/2/slices/7") (by decide))) := by
  obtain ⟨hfirst, hsecond, hlast⟩ := example_values
  have hkeys : exampleHeader.keys.length = 2 := by decide +kernel
  refine .chunk ⟨rfl, .inr ⟨_, hfirst, ?_, ?_⟩⟩ (.chunk ⟨rfl, .inr ⟨_, hsecond, ?_, ?_⟩⟩
    (.last ⟨rfl, .inr ⟨_, hlast, ?_, ?_⟩⟩))
  · exact .values (.inr rfl) hkeys.symm
  · exact .pairs (.inl rfl) hkeys.symm
  · exact .pairsEnded (.inl rfl) hkeys.symm
  · exact .valuesEnded (.inr rfl) hkeys.symm
  · exact .values (.inl rfl) hkeys.symm
  · exact .pairs (.inr rfl) hkeys.symm

theorem exampleLines_clear {chunk : Bytes} (hchunk : 10 ∉ chunk) :
    AllClear exampleLines (.chunk (tagLine chunk hchunk)) := by
  have htag : cut extinf (bytes "#EXTINF:5.0,\n") = some ([], bytes ":5.0,\n") := by
    decide +kernel
  have hclear : Clear exampleHeader.chunkPrefix (bytes "#EXTINF:5.0,\n") :=
    clear_of_cut htag (by decide +kernel)
  exact ⟨List.forall_mem_cons.mpr ⟨exampleText_clear, List.forall_mem_singleton.mpr hclear⟩, hclear⟩

theorem exampleLines_hasHeader {chunk : Bytes} (hchunk : 10 ∉ chunk)
    (lines : List (ChunkLine exampleHeader.chunkPrefix))
    (ending : Ending exampleHeader.chunkPrefix) :
    HasHeader exampleHeader (playlist (exampleLine chunk hchunk :: lines) ending) := by
  have hheader := exampleHeader_hasHeader (bytes "#EXTINF:5.0,\n" ++
    (exampleHeader.chunkPrefix ++ (chunk ++ 10 :: playlist lines ending)))
  rwa [← List.cons_append, ← List.append_assoc exampleAttributes, ← List.append_assoc] at hheader

theorem models_agree_example :
    expandYtCondensedPlaylist
        (playlist exampleLines (.chunk (tagLine (bytes "2/7") (by decide)))) =
      expandYtCondensedPlaylist
        (playlist exampleLines' (.chunk (tagLine (bytes "/s/2/slices/7") (by decide)))) := by
  have hkeys : exampleHeader.keys = [bytes "s", bytes "slices"] := by decide +kernel
  have hcomponents : ∀ key ∈ exampleHeader.keys, Components key := by
    rw [hkeys, List.forall_mem_cons, List.forall_mem_singleton]
    exact ⟨components_value (by decide) (by decide), components_value (by decide) (by decide)⟩
  exact models_agree exampleHeader (by decide +kernel) hcomponents _ _ _ _
    (exampleLines_hasHeader (by decide) _ _) (exampleLines_hasHeader (by decide) _ _)
    (exampleLines_clear (by decide)) example_rewritten

/-! ### A parameter with a slash -/

def slashHeader : Header where
  baseUri := bytes "b"
  params := bytes "a/b"
  chunkPrefix := bytes "p"

def slashAttributes : Bytes := bytes ":BASE-URI=\"b\",PARAMS=\"a/b\",PREFIX=\"p\""

def slashLine (chunk : Bytes) (hchunk : 10 ∉ chunk) : ChunkLine slashHeader.chunkPrefix where
  text := headerTag ++ (slashAttributes ++ 10 :: bytes "#EXTINF:\n")
  chunk := chunk
  htag := ⟨headerTag ++ (slashAttributes ++ [10]), bytes ":\n", by decide +kernel,
    .inr (by decide +kernel)⟩
  hline := by decide +kernel
  hfirst := noChunk_of_not_infix (by decide +kernel)
  hchunk := hchunk

theorem slash_hasHeader {chunk : Bytes} (hchunk : 10 ∉ chunk) :
    HasHeader slashHeader (playlist [] (.chunk (slashLine chunk hchunk))) := by
  have hline : HeaderLine slashHeader (headerTag ++ slashAttributes) := {
    baseUri := ⟨⟨by decide, bytes "#YT-EXT-CONDENSED-URL:",
      bytes ",PARAMS=\"a/b\",PREFIX=\"p\"", by decide +kernel⟩, by decide⟩
    params := ⟨⟨by decide, bytes "#YT-EXT-CONDENSED-URL:BASE-URI=\"b\",",
      bytes ",PREFIX=\"p\"", by decide +kernel⟩, by decide⟩
    chunkPrefix := ⟨⟨by decide, bytes "#YT-EXT-CONDENSED-URL:BASE-URI=\"b\",PARAMS=\"a/b\",",
      [], by decide +kernel⟩, by decide⟩
    ended := by decide +kernel}
  have hheader := hasHeader_line hline (bytes "#EXTINF:\n" ++ (slashHeader.chunkPrefix ++ chunk))
  rwa [← List.cons_append, ← List.append_assoc slashAttributes, ← List.append_assoc] at hheader

/-- A name with a slash is not found among the parts, and its components are taken for
values. -/
theorem slash_disagrees :
    ¬ ∀ (h : Header) (lines lines' : List (ChunkLine h.chunkPrefix))
      (ending ending' : Ending h.chunkPrefix), (∀ key ∈ h.keys, key ≠ []) →
      HasHeader h (playlist lines ending) → HasHeader h (playlist lines' ending') →
      AllClear lines ending → Rewritten h lines ending lines' ending' →
      expandYtCondensedPlaylist (playlist lines ending) =
        expandYtCondensedPlaylist (playlist lines' ending') := by
  intro hall
  have hclear : AllClear [] (Ending.chunk (slashLine (bytes "v") (by decide))) := by
    have htag : cut extinf (headerTag ++ (slashAttributes ++ 10 :: bytes "#EXTINF:\n")) =
        some (headerTag ++ (slashAttributes ++ [10]), bytes ":\n") := by decide +kernel
    exact ⟨fun c hc => absurd hc List.not_mem_nil, clear_of_cut htag (by decide +kernel)⟩
  have hvalues : Values slashHeader [bytes "v"] := by
    unfold Values
    decide +kernel
  have hnamed : bytes "a/b/v" = [] ++ joined 47 (paired slashHeader.keys [bytes "v"]) := by
    decide +kernel
  have hrewritten : Rewritten slashHeader [] (.chunk (slashLine (bytes "v") (by decide)))
      [] (.chunk (slashLine (bytes "a/b/v") (by decide))) := by
    refine .last ⟨rfl, .inr ⟨_, hvalues, ?_, ?_⟩⟩
    · exact .values (.inl rfl) (by decide +kernel)
    · show Written slashHeader.keys _ (bytes "a/b/v")
      rw [hnamed]
      exact .pairs (.inl rfl) (by decide +kernel)
  have hsame := hall slashHeader [] [] _ _ (by decide +kernel) (slash_hasHeader (by decide))
    (slash_hasHeader (by decide)) hclear hrewritten
  exact absurd hsame (by decide +kernel)

end AirPlay.Hls
