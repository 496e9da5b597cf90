import AirPlay.Library.Split
import AirPlay.Hls.Localise

/-! Condensed playlists.

A condensed playlist names a base URI, the parameters of its URLs and the text its chunk
lines begin with; each chunk line has the values of the parameters, or the parameters and
their values. The expander looks for `#EXTINF` and then for the beginning of a chunk line,
anywhere in the text; where the latter does not come up earlier it takes a playlist chunk
line by chunk line (`expandLoop_chunk`). -/
namespace AirPlay.Hls
open Bytes

/-! ### The expander -/

def extractQuotedAttr (src key : Bytes) : Bytes :=
  match find key src with
  | none => []
  | some kp => between 34 src (kp + key.length)

/-- What the header of a condensed playlist says. -/
structure Header where
  baseUri : Bytes
  params : Bytes
  chunkPrefix : Bytes

/-- The parameters, which commas separate. -/
def Header.keys (h : Header) : List Bytes := split 44 h.params

def headerTag : Bytes := bytes "#YT-EXT-CONDENSED-URL"

def extinf : Bytes := bytes "#EXTINF"

def baseUriKey : Bytes := bytes "BASE-URI="

def paramsKey : Bytes := bytes "PARAMS="

def prefixKey : Bytes := bytes "PREFIX="

/-- The header, which a line feed has to end and none of whose attributes may be empty. -/
def readHeader (playlist : Bytes) : Option Header :=
  match find headerTag playlist with
  | none => none
  | some hdrPos =>
    match findFrom [10] playlist hdrPos with
    | none => none
    | some hdrEol =>
      let hdrLine := (playlist.drop hdrPos).take (hdrEol - hdrPos)
      let h : Header :=
        {baseUri := extractQuotedAttr hdrLine baseUriKey
         params := extractQuotedAttr hdrLine paramsKey
         chunkPrefix := extractQuotedAttr hdrLine prefixKey}
      if h.baseUri = [] ∨ h.params = [] ∨ h.chunkPrefix = [] then none else some h

/-- A slash at the end of the source is kept, unless there is one. -/
def preserveSlash (condensed out : Bytes) : Bytes :=
  if condensed.getLast? = some 47 ∧ out.getLast? ≠ some 47 then out ++ [47] else out

/-- Each parameter with its value, or with an empty one when there are too few. -/
def interleave : List Bytes → List Bytes → Bytes
  | [], _ => []
  | key :: keys, values => 47 :: (key ++ 47 :: (values.headD [] ++ interleave keys values.tail))

/-- The parameters' names are among the parts when the first is (model B); otherwise the
parts are values alone (model A). -/
def expandChunk (h : Header) (condensed : Bytes) : Bytes :=
  let ps := parts 47 condensed
  if ps.contains (h.keys.headD []) then preserveSlash condensed (h.baseUri ++ behind 47 ps)
  else preserveSlash condensed (h.baseUri ++ interleave h.keys ps)

/-- The loop over the chunks, from a position on. -/
def expandLoop (h : Header) : Nat → Bytes → Bytes
  | 0, rest => rest
  | fuel + 1, rest =>
    match find extinf rest with
    | none => rest
    | some tag =>
      match findFrom h.chunkPrefix rest tag with
      | none => rest
      | some chunkLine =>
        let line := rest.drop chunkLine
        let urlEnd := (find [10] line).getD line.length
        rest.take chunkLine ++ (expandChunk h ((line.take urlEnd).drop h.chunkPrefix.length) ++
          10 :: expandLoop h fuel (line.drop (urlEnd + 1)))

def expandYtCondensedPlaylist (playlist : Bytes) : Bytes :=
  match readHeader playlist with
  | none => playlist
  | some h => expandLoop h (playlist.length + 1) playlist

/-! ### Condensed playlists -/

/-- The first occurrence of a key is the name of a quoted attribute. -/
def HasAttribute (line key value : Bytes) : Prop :=
  34 ∉ value ∧ ∃ a b, cut key line = some (a, quote ++ (value ++ (quote ++ b)))

/-- The first header line of a playlist. -/
structure HeaderLine (h : Header) (line : Bytes) : Prop where
  baseUri : HasAttribute line baseUriKey h.baseUri ∧ h.baseUri ≠ []
  params : HasAttribute line paramsKey h.params ∧ h.params ≠ []
  chunkPrefix : HasAttribute line prefixKey h.chunkPrefix ∧ h.chunkPrefix ≠ []
  ended : 10 ∉ line

def HasHeader (h : Header) (playlist : Bytes) : Prop :=
  ∃ before rest after, cut headerTag playlist = some (before, rest ++ 10 :: after) ∧
    HeaderLine h (headerTag ++ rest)

/-- Between an `#EXTINF` tag and the end of the text no line begins as a chunk line does. -/
def NoChunk (chunkPrefix text : Bytes) : Prop :=
  ∀ before after, text = before ++ (extinf ++ after) → (before = [] ∨ before.getLast? = some 10) →
    ¬ 10 :: chunkPrefix <:+: after

theorem noChunk_of_not_infix {chunkPrefix text : Bytes} (h : ¬ 10 :: chunkPrefix <:+: text) :
    NoChunk chunkPrefix text := by
  rintro before after rfl - hin
  refine h (hin.trans ?_)
  exact (List.suffix_append extinf after).isInfix.trans (List.suffix_append before _).isInfix

/-- The text has an `#EXTINF` tag. -/
def HasTag (text : Bytes) : Prop :=
  ∃ before after, text = before ++ (extinf ++ after) ∧ (before = [] ∨ before.getLast? = some 10)

/-- A chunk line and the text before it, which has an `#EXTINF` tag and no chunk line. -/
structure ChunkLine (chunkPrefix : Bytes) where
  text : Bytes
  chunk : Bytes
  htag : HasTag text
  hline : text.getLast? = some 10
  hfirst : NoChunk chunkPrefix text
  hchunk : 10 ∉ chunk

/-- The text after the chunk lines that are ended: it has none, or the last, which is not. -/
inductive Ending (chunkPrefix : Bytes) where
  | text (text : Bytes) (hnone : NoChunk chunkPrefix text)
  | chunk (line : ChunkLine chunkPrefix)

def Ending.render {chunkPrefix : Bytes} : Ending chunkPrefix → Bytes
  | .text s _ => s
  | .chunk line => line.text ++ (chunkPrefix ++ line.chunk)

/-- The playlist that has these chunk lines. -/
def playlist {chunkPrefix : Bytes} : List (ChunkLine chunkPrefix) → Ending chunkPrefix → Bytes
  | [], ending => ending.render
  | line :: lines, ending =>
    line.text ++ (chunkPrefix ++ (line.chunk ++ 10 :: playlist lines ending))

theorem length_playlist_lt {chunkPrefix : Bytes} {c : ChunkLine chunkPrefix}
    {lines : List (ChunkLine chunkPrefix)} {ending : Ending chunkPrefix} {n : Nat}
    (h : (playlist (c :: lines) ending).length < n + 1) : (playlist lines ending).length < n := by
  simp only [playlist, List.length_append, List.length_cons] at h
  omega

/-- Before a line that begins as chunk lines do, behind a tag, there is a first. -/
theorem exists_first {chunkPrefix u v : Bytes} (hne : chunkPrefix ≠ [])
    (htag : HasTag u) (hline : u.getLast? = some 10) :
    ∃ u' v', u ++ (chunkPrefix ++ v) = u' ++ (chunkPrefix ++ v') ∧ NoChunk chunkPrefix u' ∧
      u'.getLast? = some 10 ∧ HasTag u' := by
  induction hn : u.length using Nat.strongRecOn generalizing u v with
  | ind n ih =>
    by_cases hnone : NoChunk chunkPrefix u
    · exact ⟨u, v, rfl, hnone, hline, htag⟩
    · unfold NoChunk at hnone
      push Not at hnone
      obtain ⟨before, after, rfl, hstart, p, s, rfl⟩ := hnone
      have hpos := List.length_pos_of_ne_nil hne
      have hlast : (before ++ (extinf ++ (p ++ [10]))).getLast? = some 10 := by
        rw [← List.append_assoc, ← List.append_assoc]
        exact List.getLast?_concat
      obtain ⟨u', v', heq, hfirst⟩ := ih (before ++ (extinf ++ (p ++ [10]))).length
        (by simp only [← hn, List.length_append, List.length_cons, List.length_nil]; omega)
        (v := s ++ (chunkPrefix ++ v)) ⟨before, p ++ [10], rfl, hstart⟩ hlast rfl
      refine ⟨u', v', ?_, hfirst⟩
      rw [← heq]
      simp only [List.append_assoc, List.cons_append, List.nil_append]

/-- Every text is a playlist. -/
theorem exists_playlist {chunkPrefix : Bytes} (hne : chunkPrefix ≠ []) (text : Bytes) :
    ∃ (lines : List (ChunkLine chunkPrefix)) (ending : Ending chunkPrefix),
      text = playlist lines ending := by
  induction hn : text.length using Nat.strongRecOn generalizing text with
  | ind n ih =>
    by_cases hnone : NoChunk chunkPrefix text
    · exact ⟨[], .text text hnone, rfl⟩
    · unfold NoChunk at hnone
      push Not at hnone
      obtain ⟨before, after, rfl, hstart, p, s, rfl⟩ := hnone
      have hlast : (before ++ (extinf ++ (p ++ [10]))).getLast? = some 10 := by
        rw [← List.append_assoc, ← List.append_assoc]
        exact List.getLast?_concat
      obtain ⟨u, v, heq, hfirst, hline, htag⟩ := @exists_first chunkPrefix
        (before ++ (extinf ++ (p ++ [10]))) s hne ⟨before, p ++ [10], rfl, hstart⟩ hlast
      have htext : before ++ (extinf ++ (p ++ 10 :: chunkPrefix ++ s)) =
          u ++ (chunkPrefix ++ v) := by
        rw [← heq]
        simp only [List.append_assoc, List.cons_append, List.nil_append]
      rw [htext] at hn ⊢
      by_cases hended : 10 ∈ v
      · obtain ⟨chunk, rest, rfl, hchunk⟩ := List.eq_append_cons_of_mem hended
        have hshorter : rest.length < n := by
          simp only [← hn, List.length_append, List.length_cons]
          omega
        obtain ⟨lines, ending, rfl⟩ := ih _ hshorter rest rfl
        exact ⟨⟨u, chunk, htag, hline, hfirst, hchunk⟩ :: lines, ending, rfl⟩
      · exact ⟨[], .chunk ⟨u, v, htag, hline, hfirst, hended⟩, rfl⟩

/-! ### The header -/

theorem extractQuotedAttr_eq {line key value : Bytes} (hkey : key ≠ [])
    (h : HasAttribute line key value) : extractQuotedAttr line key = value := by
  obtain ⟨hfree, a, b, hcut⟩ := h
  have hline : line = (a ++ key) ++ ([] ++ 34 :: (value ++ 34 :: b)) := cut_eq_some hkey hcut
  unfold extractQuotedAttr
  simp only [find_of_cut hcut]
  rw [← List.length_append, hline]
  exact between_append (a ++ key) List.not_mem_nil hfree b

/-- The header is read as it stands. -/
theorem readHeader_eq {h : Header} {text : Bytes} (hheader : HasHeader h text) :
    readHeader text = some h := by
  obtain ⟨before, rest, after, hcut, hline⟩ := hheader
  have htext : text = before ++ ((headerTag ++ rest) ++ 10 :: after) := by
    rw [cut_eq_some (by decide) hcut]
    simp only [List.append_assoc]
  have heol : findFrom [10] text before.length =
      some (before.length + (headerTag ++ rest).length) := by
    rw [htext, findFrom_append, find_of_cut (cut_byte hline.ended after), Option.map_some]
  have htake : (text.drop before.length).take (before.length + (headerTag ++ rest).length -
      before.length) = headerTag ++ rest := by
    rw [Nat.add_sub_cancel_left, htext, List.drop_left, List.take_left]
  have hbase := extractQuotedAttr_eq (by decide) hline.baseUri.1
  have hparams := extractQuotedAttr_eq (by decide) hline.params.1
  have hprefix := extractQuotedAttr_eq (by decide) hline.chunkPrefix.1
  unfold readHeader
  simp only [find_of_cut hcut, heol, htake, hbase, hparams, hprefix]
  rw [if_neg]
  rintro (h | h | h)
  · exact hline.baseUri.2 h
  · exact hline.params.2 h
  · exact hline.chunkPrefix.2 h

/-- A playlist may begin with its header line. -/
theorem hasHeader_line {h : Header} {attributes : Bytes}
    (hline : HeaderLine h (headerTag ++ attributes)) (rest : Bytes) :
    HasHeader h (headerTag ++ (attributes ++ 10 :: rest)) :=
  ⟨[], attributes, rest, cut_pattern (by decide), hline⟩

/-- What a line has as an attribute's value is a piece of it. -/
theorem HasAttribute.not_mem {line key value : Bytes} {c : UInt8} (hkey : key ≠ [])
    (h : HasAttribute line key value) (hc : c ∉ line) : c ∉ value := by
  obtain ⟨-, a, b, hcut⟩ := h
  intro hmem
  rw [cut_eq_some hkey hcut] at hc
  simp only [List.mem_append, not_or] at hc
  exact hc.2.2.1 hmem

/-- A header whose attributes stand on one line, none of them empty. -/
structure Header.OnLine (h : Header) : Prop where
  baseUri : 10 ∉ h.baseUri
  params : 10 ∉ h.params
  chunkPrefix : 10 ∉ h.chunkPrefix
  params_ne : h.params ≠ []
  chunkPrefix_ne : h.chunkPrefix ≠ []

theorem HasHeader.onLine {h : Header} {text : Bytes} (hheader : HasHeader h text) : h.OnLine := by
  obtain ⟨before, rest, after, -, hline⟩ := hheader
  exact {
    baseUri := hline.baseUri.1.not_mem (by decide) hline.ended
    params := hline.params.1.not_mem (by decide) hline.ended
    chunkPrefix := hline.chunkPrefix.1.not_mem (by decide) hline.ended
    params_ne := hline.params.2
    chunkPrefix_ne := hline.chunkPrefix.2}

/-! ### Chunks -/

section Chunks
variable {h : Header}

theorem keys_ne_nil (hparams : h.params ≠ []) : h.keys ≠ [] := by
  rw [Header.keys]
  cases hp : h.params with
  | nil => exact absurd hp hparams
  | cons b rest =>
    rw [split]
    split
    · exact List.cons_ne_nil _ _
    · split
      · exact List.cons_ne_nil _ _
      · exact List.cons_ne_nil _ _

/-- The parts, or the parameters and the parts. -/
def chunkBody (h : Header) (condensed : Bytes) : Bytes :=
  if (parts 47 condensed).contains (h.keys.headD []) then behind 47 (parts 47 condensed)
  else interleave h.keys (parts 47 condensed)

/-- What an expanded chunk line has behind the base URI. -/
def chunkPath (h : Header) (condensed : Bytes) : Bytes :=
  preserveSlash condensed (chunkBody h condensed)

theorem behind_ne_nil {ws : List Bytes} (hne : ws ≠ []) : ∃ s, behind 47 ws = 47 :: s := by
  cases ws with
  | nil => exact absurd rfl hne
  | cons w ws => exact ⟨_, List.flatMap_cons⟩

theorem preserveSlash_append {condensed base s : Bytes} (hs : s ≠ []) :
    preserveSlash condensed (base ++ s) = base ++ preserveSlash condensed s := by
  rw [preserveSlash, preserveSlash, List.getLast?_append_of_ne_nil _ hs]
  split
  · exact List.append_assoc _ _ _
  · rfl

theorem chunkBody_cons (hparams : h.params ≠ []) (condensed : Bytes) :
    ∃ s, chunkBody h condensed = 47 :: s := by
  rw [chunkBody]
  split
  · rename_i hmem
    exact behind_ne_nil (List.ne_nil_of_mem (List.contains_iff_mem.mp hmem))
  · cases hkeys : h.keys with
    | nil => exact absurd hkeys (keys_ne_nil hparams)
    | cons key keys => exact ⟨_, rfl⟩

theorem expandChunk_eq (hparams : h.params ≠ []) (condensed : Bytes) :
    expandChunk h condensed = h.baseUri ++ chunkPath h condensed := by
  obtain ⟨s, hs⟩ := chunkBody_cons hparams condensed
  rw [chunkPath, ← preserveSlash_append (hs ▸ List.cons_ne_nil _ _)]
  unfold expandChunk chunkBody
  dsimp only
  split
  · rfl
  · rfl

theorem not_mem_behind {ws : List Bytes} {s : Bytes} (hws : ∀ w ∈ ws, w <:+: s) (hs : 10 ∉ s) :
    10 ∉ behind 47 ws := by
  intro hmem
  obtain ⟨w, hw, hten⟩ := List.mem_flatMap.mp hmem
  rcases List.mem_cons.mp hten with hten | hten
  · exact absurd hten (by decide)
  · exact hs ((hws w hw).subset hten)

theorem not_mem_interleave {keys ws : List Bytes} (hkeys : ∀ key ∈ keys, 10 ∉ key)
    (hws : ∀ w ∈ ws, 10 ∉ w) : 10 ∉ interleave keys ws := by
  induction keys generalizing ws with
  | nil => exact List.not_mem_nil
  | cons key keys ih =>
    obtain ⟨hkey, hkeys⟩ := List.forall_mem_cons.mp hkeys
    rw [interleave]
    simp only [List.mem_cons, List.mem_append, not_or]
    refine ⟨by decide, hkey, by decide, ?_, ih hkeys fun w hw => hws w (List.mem_of_mem_tail hw)⟩
    cases ws with
    | nil => exact List.not_mem_nil
    | cons w ws => exact hws w List.mem_cons_self

/-- An expanded chunk is one line. -/
theorem not_mem_expandChunk (honline : h.OnLine) {condensed : Bytes} (hchunk : 10 ∉ condensed) :
    10 ∉ expandChunk h condensed := by
  have hparts : ∀ w ∈ parts 47 condensed, w <:+: condensed := fun w hw => (mem_parts hw).2.2
  have hkeys : ∀ key ∈ h.keys, 10 ∉ key := fun key hkey hten =>
    honline.params ((mem_split hkey).2.subset hten)
  have hbody : 10 ∉ chunkBody h condensed := by
    rw [chunkBody]
    split
    · exact not_mem_behind hparts hchunk
    · exact not_mem_interleave hkeys fun w hw hten => hchunk ((hparts w hw).subset hten)
  rw [expandChunk_eq honline.params_ne, chunkPath, preserveSlash, List.mem_append, not_or]
  refine ⟨honline.baseUri, ?_⟩
  split
  · rw [List.mem_append, not_or]
    exact ⟨hbody, by decide⟩
  · exact hbody

end Chunks

/-! ### The loop -/

/-- Behind the first `#EXTINF` of a text its chunk lines' beginning does not come up. -/
def Clear (chunkPrefix text : Bytes) : Prop :=
  ∀ before after, cut extinf text = some (before, after) → ¬ chunkPrefix <:+: extinf ++ after

theorem clear_of_cut {chunkPrefix text before after : Bytes}
    (hcut : cut extinf text = some (before, after)) (h : ¬ chunkPrefix <:+: extinf ++ after) :
    Clear chunkPrefix text := by
  intro before' after' hcut'
  obtain ⟨-, rfl⟩ := Prod.mk.inj (Option.some.inj (hcut.symm.trans hcut'))
  exact h

theorem clear_nil {chunkPrefix : Bytes} : Clear chunkPrefix [] := fun before after hcut =>
  absurd ((cut_nil (by decide)).symm.trans hcut) (Option.some_ne_none (before, after)).symm

theorem ChunkLine.cut_tag {chunkPrefix : Bytes} (c : ChunkLine chunkPrefix) :
    ∃ before after, cut extinf c.text = some (before, after) ∧
      c.text = before ++ (extinf ++ after) := by
  obtain ⟨a, b, htext, -⟩ := c.htag
  have hin : extinf <:+: c.text := ⟨a, b, by rw [htext, List.append_assoc]⟩
  obtain ⟨⟨before, after⟩, hcut⟩ := Option.isSome_iff_exists.mp (cut_isSome (by decide) hin)
  exact ⟨before, after, hcut, (cut_eq_some (by decide) hcut).trans (List.append_assoc _ _ _)⟩

section Loop
variable {h : Header} (hne : h.chunkPrefix ≠ [])
include hne

theorem expandLoop_clear {text : Bytes} (hclear : Clear h.chunkPrefix text) (fuel : Nat) :
    expandLoop h fuel text = text := by
  cases fuel with
  | zero => rfl
  | succ fuel =>
    rw [expandLoop]
    split
    · rfl
    · rename_i tag htag
      obtain ⟨⟨before, after⟩, hcut, rfl⟩ := Option.map_eq_some_iff.mp htag
      have htext := (cut_eq_some (by decide) hcut).trans (List.append_assoc before extinf after)
      have hfind : findFrom h.chunkPrefix text before.length = none := by
        rw [htext, findFrom_append, find, (cut_eq_none_iff hne).mpr (hclear before after hcut)]
        rfl
      simp only [hfind]

/-- A chunk line is found where it begins. -/
theorem expandLoop_found (hlf : 10 ∉ h.chunkPrefix) (c : ChunkLine h.chunkPrefix)
    (hclear : Clear h.chunkPrefix c.text) (fuel : Nat) (t : Bytes) :
    expandLoop h (fuel + 1) (c.text ++ (h.chunkPrefix ++ t)) =
      let urlEnd := (find [10] (h.chunkPrefix ++ t)).getD (h.chunkPrefix ++ t).length
      c.text ++ (expandChunk h (((h.chunkPrefix ++ t).take urlEnd).drop h.chunkPrefix.length) ++
        10 :: expandLoop h fuel ((h.chunkPrefix ++ t).drop (urlEnd + 1))) := by
  obtain ⟨before, after, hcut, htext⟩ := c.cut_tag
  have htag : find extinf (c.text ++ (h.chunkPrefix ++ t)) = some before.length :=
    find_of_cut (cut_append (by decide) hcut _)
  have hskip : ∀ y, y <:+ extinf ++ after → y ≠ [] →
      ¬ h.chunkPrefix <+: y ++ (h.chunkPrefix ++ t) := by
    intro y hy hyne hp
    rcases List.prefix_or_prefix_of_prefix hp (List.prefix_append y _) with hp | hp
    · exact hclear before after hcut (hp.isInfix.trans hy.isInfix)
    · have hlast : y.getLast? = some 10 := by
        obtain ⟨z, hz⟩ := hy
        rw [← c.hline, htext, ← hz, ← List.append_assoc, List.getLast?_append_of_ne_nil _ hyne]
      exact hlf (hp.subset (List.mem_of_getLast? hlast))
  have hchunk : findFrom h.chunkPrefix (c.text ++ (h.chunkPrefix ++ t)) before.length =
      some c.text.length := by
    have hfind : find h.chunkPrefix ((extinf ++ after) ++ (h.chunkPrefix ++ t)) =
        some (extinf ++ after).length := by
      rw [find, cut_skip hskip, cut_pattern hne, Option.map_some, List.append_nil, Option.map_some]
    rw [htext, List.append_assoc before, findFrom_append, hfind, Option.map_some]
    exact congrArg some List.length_append.symm
  rw [expandLoop]
  simp only [htag, hchunk, List.drop_left, List.take_left]

theorem expandLoop_chunk (hlf : 10 ∉ h.chunkPrefix) (c : ChunkLine h.chunkPrefix)
    (hclear : Clear h.chunkPrefix c.text) (fuel : Nat) (rest : Bytes) :
    expandLoop h (fuel + 1) (c.text ++ (h.chunkPrefix ++ (c.chunk ++ 10 :: rest))) =
      c.text ++ (expandChunk h c.chunk ++ 10 :: expandLoop h fuel rest) := by
  have hfree : 10 ∉ h.chunkPrefix ++ c.chunk := by
    rw [List.mem_append, not_or]
    exact ⟨hlf, c.hchunk⟩
  have heol := find_of_cut (cut_byte hfree rest)
  rw [List.append_assoc] at heol
  rw [expandLoop_found hne hlf c hclear, heol, Option.getD_some]
  dsimp only
  rw [← List.append_assoc h.chunkPrefix, List.take_left, List.drop_left, ← List.drop_drop,
    List.drop_left, List.drop_one, List.tail_cons]

theorem expandLoop_last (hlf : 10 ∉ h.chunkPrefix) (c : ChunkLine h.chunkPrefix)
    (hclear : Clear h.chunkPrefix c.text) (fuel : Nat) :
    expandLoop h (fuel + 1) (c.text ++ (h.chunkPrefix ++ c.chunk)) =
      c.text ++ (expandChunk h c.chunk ++ [10]) := by
  have hfree : 10 ∉ h.chunkPrefix ++ c.chunk := by
    rw [List.mem_append, not_or]
    exact ⟨hlf, c.hchunk⟩
  have hrest : expandLoop h fuel [] = [] := expandLoop_clear hne clear_nil fuel
  have heol : find [10] (h.chunkPrefix ++ c.chunk) = none := by
    rw [find, cut_byte_none hfree, Option.map_none]
  rw [expandLoop_found hne hlf c hclear, heol, Option.getD_none]
  dsimp only
  rw [List.take_length, List.drop_left, List.drop_eq_nil_of_le (Nat.le_succ _), hrest]

/-- Where the beginning of a chunk line comes up earlier, the base URI takes its place. -/
theorem expandLoop_unclear (hparams : h.params ≠ []) {text : Bytes}
    (hclear : ¬ Clear h.chunkPrefix text) :
    ∃ a z, text = a ++ (h.chunkPrefix ++ z) ∧
      ∀ fuel t, ∃ w, expandLoop h (fuel + 1) (text ++ t) = a ++ (h.baseUri ++ w) := by
  unfold Clear at hclear
  push Not at hclear
  obtain ⟨before, after, hcut, hin⟩ := hclear
  obtain ⟨⟨x, z⟩, hfound⟩ := Option.isSome_iff_exists.mp (cut_isSome hne hin)
  have htext := (cut_eq_some (by decide) hcut).trans (List.append_assoc before extinf after)
  have hsplit : text = (before ++ x) ++ (h.chunkPrefix ++ z) := by
    rw [htext, cut_eq_some hne hfound]
    simp only [List.append_assoc]
  refine ⟨before ++ x, z, hsplit, fun fuel t => ?_⟩
  have htag : find extinf (text ++ t) = some before.length :=
    find_of_cut (cut_append (by decide) hcut t)
  have hchunk : findFrom h.chunkPrefix (text ++ t) before.length = some (before ++ x).length := by
    rw [htext, List.append_assoc, findFrom_append, find_of_cut (cut_append hne hfound t),
      Option.map_some, List.length_append]
  have htake : (text ++ t).take (before ++ x).length = before ++ x := by
    rw [hsplit, List.append_assoc (before ++ x), List.take_left]
  rw [expandLoop]
  simp only [htag, hchunk, htake, expandChunk_eq hparams]
  exact ⟨_, congrArg (before ++ x ++ ·) (List.append_assoc _ _ _)⟩

end Loop

end AirPlay.Hls
