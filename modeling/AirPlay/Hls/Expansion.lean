import Mathlib.Data.List.Perm.Subperm
import AirPlay.Hls.Condensed

/-! What expanding a condensed playlist loses.

An expanded chunk line is to begin with the base URI and to have the parts of the chunk
among those of its path, in order, and the text around the chunk lines is to stay. With the
parameters' names among its parts a chunk is expanded whole; without them the parts beyond
the number of parameters are dropped (`lossless_iff`), which can go unnoticed only where they
are parameters' names themselves. -/
namespace AirPlay.Hls
open Bytes

/-- The line begins with the base URI and has the parts of the chunk, in order, in the path
behind it. -/
def Complete (h : Header) (chunk line : Bytes) : Prop :=
  10 ∉ line ∧ ∃ path, line = h.baseUri ++ 47 :: path ∧
    (parts 47 chunk).Sublist (parts 47 path)

/-- Each chunk line has become a complete one, and the text around them is the same; a chunk
line at the end may have got a line feed. -/
def Lossless (h : Header) :
    List (ChunkLine h.chunkPrefix) → Ending h.chunkPrefix → Bytes → Prop
  | [], .text t _, out => out = t
  | [], .chunk c, out => ∃ line, Complete h c.chunk line ∧
      (out = c.text ++ line ∨ out = c.text ++ (line ++ [10]))
  | c :: lines, ending, out => ∃ line more, Complete h c.chunk line ∧
      out = c.text ++ (line ++ 10 :: more) ∧ Lossless h lines ending more

/-- The text before the last chunk line that is not ended, or all that is left. -/
def Ending.before {chunkPrefix : Bytes} : Ending chunkPrefix → Bytes
  | .text t _ => t
  | .chunk c => c.text

def Ending.chunks {chunkPrefix : Bytes} : Ending chunkPrefix → List Bytes
  | .text _ _ => []
  | .chunk c => [c.chunk]

/-- Everywhere the beginning of a chunk line comes up first at a chunk line. -/
def AllClear {chunkPrefix : Bytes} (lines : List (ChunkLine chunkPrefix))
    (ending : Ending chunkPrefix) : Prop :=
  (∀ c ∈ lines, Clear chunkPrefix c.text) ∧ Clear chunkPrefix ending.before

/-- The first parameter is named among the parts, or there are not more parts than
parameters. -/
def Enough (h : Header) (chunk : Bytes) : Prop :=
  h.keys.headD [] ∈ parts 47 chunk ∨ (parts 47 chunk).length ≤ h.keys.length

/-- The parts beyond the number of parameters are parameters' names, and there is a
parameter whose name is its own value and the next one. -/
structure Chance (h : Header) (chunk : Bytes) : Prop where
  names : ((parts 47 chunk).drop h.keys.length).Subperm (h.keys.flatMap (parts 47))
  repeats : (∀ key ∈ h.keys, 47 ∉ key) → ∃ i key, h.keys[i + 1]? = some key ∧
    (parts 47 chunk)[i + 1]? = some key ∧ (parts 47 chunk)[i + 2]? = some key

/-- Every chunk of the playlist. -/
def EachChunk (P : Bytes → Prop) {chunkPrefix : Bytes} (lines : List (ChunkLine chunkPrefix))
    (ending : Ending chunkPrefix) : Prop :=
  (∀ c ∈ lines, P c.chunk) ∧ ∀ chunk ∈ ending.chunks, P chunk

/-! ### One chunk -/

section Chunk
variable {h : Header}

theorem parts_preserveSlash (condensed s : Bytes) :
    parts 47 (preserveSlash condensed s) = parts 47 s := by
  rw [preserveSlash]
  split
  · exact parts_concat s
  · rfl

theorem words_parts (s : Bytes) : ∀ w ∈ parts 47 s, w ≠ [] ∧ 47 ∉ w := fun _ hw =>
  ⟨(mem_parts hw).1, (mem_parts hw).2.1⟩

/-- A parameter and its value are components of the path. -/
theorem parts_interleave (key : Bytes) {w : Bytes} (hw : w ≠ [] ∧ 47 ∉ w)
    (keys ws : List Bytes) : parts 47 (interleave (key :: keys) (w :: ws)) =
      parts 47 key ++ w :: parts 47 (interleave keys ws) := by
  have hparts : parts 47 (w ++ interleave keys ws) = w :: parts 47 (interleave keys ws) := by
    cases keys with
    | nil =>
      rw [interleave, List.append_nil, parts_word hw.2 hw.1]
      rfl
    | cons key' keys =>
      rw [interleave, parts_append, parts_word hw.2 hw.1, parts_cons]
      rfl
  rw [interleave, parts_cons, parts_append, List.headD_cons, List.tail_cons, hparts]

/-- With a parameter for each there is a place for every part. -/
theorem sublist_interleave {keys ws : List Bytes} (hws : ∀ w ∈ ws, w ≠ [] ∧ 47 ∉ w)
    (hlength : ws.length ≤ keys.length) : ws.Sublist (parts 47 (interleave keys ws)) := by
  induction keys generalizing ws with
  | nil => rw [List.length_eq_zero_iff.mp (Nat.le_zero.mp hlength)]; exact List.nil_sublist _
  | cons key keys ih =>
    cases ws with
    | nil => exact List.nil_sublist _
    | cons w ws =>
      obtain ⟨hw, hws⟩ := List.forall_mem_cons.mp hws
      rw [parts_interleave key hw]
      exact ((ih hws (Nat.le_of_succ_le_succ hlength)).cons_cons w).trans
        (List.sublist_append_right _ _)

/-- What is written of more parts than there are parameters. -/
theorem interleave_perm {keys ws : List Bytes} (hws : ∀ w ∈ ws, w ≠ [] ∧ 47 ∉ w)
    (hlength : keys.length ≤ ws.length) :
    (parts 47 (interleave keys ws)).Perm (ws.take keys.length ++ keys.flatMap (parts 47)) := by
  induction keys generalizing ws with
  | nil => exact List.Perm.refl _
  | cons key keys ih =>
    cases ws with
    | nil => exact absurd hlength (Nat.not_succ_le_zero _)
    | cons w ws =>
      obtain ⟨hw, hws⟩ := List.forall_mem_cons.mp hws
      have hmore := ih hws (Nat.le_of_succ_le_succ hlength)
      rw [parts_interleave key hw, List.length_cons, List.take_succ_cons, List.flatMap_cons,
        List.cons_append]
      calc parts 47 key ++ w :: parts 47 (interleave keys ws)
          |>.Perm (w :: (parts 47 key ++ parts 47 (interleave keys ws))) := List.perm_middle
        _ |>.Perm (w :: (parts 47 key ++ (ws.take keys.length ++ keys.flatMap (parts 47)))) :=
          (hmore.append_left _).cons w
        _ |>.Perm (w :: (ws.take keys.length ++ (parts 47 key ++ keys.flatMap (parts 47)))) :=
          (List.perm_append_comm_assoc _ _ _).cons w

/-- A part is found early only where a parameter's name is its value and the next one. -/
theorem repeats_of_sublist {keys ws : List Bytes} (hws : ∀ w ∈ ws, w ≠ [] ∧ 47 ∉ w)
    (hkeys : ∀ key ∈ keys, 47 ∉ key) (hlength : keys.length < ws.length)
    (hsub : ws.Sublist (parts 47 (interleave keys ws))) :
    ∃ (i : Nat) (key : Bytes), keys[i]? = some key ∧ ws[i]? = some key ∧
      ws[i + 1]? = some key := by
  induction keys generalizing ws with
  | nil =>
    rw [List.sublist_nil.mp hsub] at hlength
    exact absurd hlength (Nat.lt_irrefl 0)
  | cons key keys ih =>
    obtain ⟨hkey, hkeys⟩ := List.forall_mem_cons.mp hkeys
    cases ws with
    | nil => exact absurd hlength (Nat.not_lt_zero _)
    | cons w ws =>
      obtain ⟨hw, hws⟩ := List.forall_mem_cons.mp hws
      have hless := Nat.lt_of_succ_lt_succ hlength
      have hrest : ws.Sublist (parts 47 (interleave keys ws)) → ∃ (i : Nat) (k : Bytes),
          (key :: keys)[i]? = some k ∧ (w :: ws)[i]? = some k ∧ (w :: ws)[i + 1]? = some k := by
        intro h
        obtain ⟨i, k, hi⟩ := ih hws hkeys hless h
        exact ⟨i + 1, k, hi⟩
      rw [parts_interleave key hw] at hsub
      by_cases hnone : key = []
      · subst hnone
        exact hrest (List.cons_sublist_cons.mp hsub)
      rw [parts_word hkey hnone, List.singleton_append] at hsub
      by_cases hsame : w = key
      · subst hsame
        cases ws with
        | nil => exact absurd hless (Nat.not_lt_zero _)
        | cons w' ws =>
          by_cases hnext : w' = w
          · exact ⟨0, w, rfl, rfl, congrArg some hnext⟩
          · exact hrest ((List.cons_sublist_cons.mp hsub).of_cons_of_ne hnext)
      · exact hrest (List.cons_sublist_cons.mp (hsub.of_cons_of_ne hsame))

theorem chunkPath_cons (hparams : h.params ≠ []) (chunk : Bytes) :
    ∃ path, chunkPath h chunk = 47 :: path := by
  obtain ⟨path, hpath⟩ := chunkBody_cons hparams chunk
  rw [chunkPath, hpath, preserveSlash]
  split
  · exact ⟨path ++ [47], rfl⟩
  · exact ⟨path, rfl⟩

theorem complete_iff_sublist (honline : h.OnLine) {chunk : Bytes} (hchunk : 10 ∉ chunk) :
    Complete h chunk (expandChunk h chunk) ↔
      (parts 47 chunk).Sublist (parts 47 (chunkBody h chunk)) := by
  obtain ⟨path, hpath⟩ := chunkPath_cons honline.params_ne chunk
  have hparts : parts 47 path = parts 47 (chunkBody h chunk) := by
    rw [← parts_cons path, ← hpath, chunkPath, parts_preserveSlash]
  have honly := not_mem_expandChunk honline hchunk
  rw [Complete]
  rw [expandChunk_eq honline.params_ne, hpath] at honly ⊢
  constructor
  · rintro ⟨-, path', heq, hsub⟩
    rwa [← hparts, (List.cons.inj (List.append_cancel_left heq)).2]
  · exact fun hsub => ⟨honly, path, rfl, hparts.symm ▸ hsub⟩

/-- With room for its parts a chunk is expanded to a complete line. -/
theorem complete_of_enough (honline : h.OnLine) {chunk : Bytes} (hchunk : 10 ∉ chunk)
    (henough : Enough h chunk) : Complete h chunk (expandChunk h chunk) := by
  have hwords := words_parts chunk
  rw [complete_iff_sublist honline hchunk, chunkBody]
  split
  · rw [parts_behind hwords]
  · rename_i hmem
    rcases henough with hmem' | hlength
    · exact absurd (List.contains_iff_mem.mpr hmem') hmem
    · exact sublist_interleave hwords hlength

/-- Without it the line is complete by chance at most. -/
theorem chance_of_complete (honline : h.OnLine) {chunk : Bytes} (hchunk : 10 ∉ chunk)
    (henough : ¬ Enough h chunk) (hcomplete : Complete h chunk (expandChunk h chunk)) :
    Chance h chunk := by
  have hwords := words_parts chunk
  obtain ⟨hmem, hlength⟩ := not_or.mp henough
  have hless := Nat.lt_of_not_le hlength
  rw [complete_iff_sublist honline hchunk, chunkBody,
    if_neg (mt List.contains_iff_mem.mp hmem)] at hcomplete
  refine ⟨?_, fun hkeys => ?_⟩
  · have hsub := hcomplete.subperm.trans (interleave_perm hwords hless.le).subperm
    nth_rewrite 1 [← List.take_append_drop h.keys.length (parts 47 chunk)] at hsub
    exact (List.subperm_append_left _).mp hsub
  · obtain ⟨i, key, hkey, hvalue, hnext⟩ := repeats_of_sublist hwords hkeys hless hcomplete
    cases i with
    | zero =>
      have hfirst : h.keys.headD [] = key := by
        rw [List.headD_eq_head?_getD, List.head?_eq_getElem?, hkey]
        rfl
      exact absurd (List.mem_of_getElem? (hfirst.symm ▸ hvalue)) hmem
    | succ i => exact ⟨i, key, hkey, hvalue, hnext⟩

end Chunk

/-! ### The playlist -/

section Playlist
variable {h : Header}

/-- An unended chunk line has become a complete one if its expansion is. -/
theorem lossless_last (c : ChunkLine h.chunkPrefix) :
    Lossless h [] (.chunk c) (c.text ++ (expandChunk h c.chunk ++ [10])) ↔
      Complete h c.chunk (expandChunk h c.chunk) := by
  rw [Lossless]
  constructor
  · rintro ⟨line, hline, heq | heq⟩
    · have hlf : 10 ∈ line := by
        rw [← List.append_cancel_left heq]
        exact List.mem_append_right _ List.mem_cons_self
      exact absurd hlf hline.1
    · rwa [List.append_cancel_right (List.append_cancel_left heq)]
  · exact fun hline => ⟨_, hline, .inr rfl⟩

variable (honline : h.OnLine)
include honline

theorem lossless_chunk (c : ChunkLine h.chunkPrefix) (lines : List (ChunkLine h.chunkPrefix))
    (ending : Ending h.chunkPrefix) (more : Bytes) :
    Lossless h (c :: lines) ending (c.text ++ (expandChunk h c.chunk ++ 10 :: more)) ↔
      Complete h c.chunk (expandChunk h c.chunk) ∧ Lossless h lines ending more := by
  rw [Lossless]
  constructor
  · rintro ⟨line, more', hline, heq, hmore⟩
    obtain ⟨rfl, rfl⟩ := eq_of_append_cons (not_mem_expandChunk honline c.hchunk) hline.1
      (List.append_cancel_left heq)
    exact ⟨hline, hmore⟩
  · rintro ⟨hline, hmore⟩
    exact ⟨_, more, hline, rfl, hmore⟩

/-- Where all is clear, nothing is lost if and only if each chunk is expanded to a complete
line. -/
theorem lossless_loop_iff (lines : List (ChunkLine h.chunkPrefix)) (ending : Ending h.chunkPrefix)
    (hclear : AllClear lines ending) {fuel : Nat} (hfuel : (playlist lines ending).length < fuel) :
    Lossless h lines ending (expandLoop h fuel (playlist lines ending)) ↔
      EachChunk (fun chunk => Complete h chunk (expandChunk h chunk)) lines ending := by
  rw [EachChunk]
  induction lines generalizing fuel with
  | nil =>
    obtain ⟨fuel, rfl⟩ := Nat.exists_eq_succ_of_ne_zero (Nat.ne_zero_of_lt hfuel)
    cases ending with
    | text t hnone =>
      have hloop : expandLoop h (fuel + 1) t = t :=
        expandLoop_clear honline.chunkPrefix_ne hclear.2 (fuel + 1)
      rw [playlist, Ending.render, hloop]
      exact ⟨fun _ => ⟨fun c hc => absurd hc List.not_mem_nil,
        fun chunk hchunk => absurd hchunk List.not_mem_nil⟩, fun _ => rfl⟩
    | chunk c =>
      rw [playlist, Ending.render,
        expandLoop_last honline.chunkPrefix_ne honline.chunkPrefix c hclear.2,
        lossless_last, Ending.chunks, List.forall_mem_singleton]
      exact ⟨fun h => ⟨fun c hc => absurd hc List.not_mem_nil, h⟩, fun h => h.2⟩
  | cons c lines ih =>
    obtain ⟨fuel, rfl⟩ := Nat.exists_eq_succ_of_ne_zero (Nat.ne_zero_of_lt hfuel)
    obtain ⟨hlines, hending⟩ := hclear
    obtain ⟨hc, hlines⟩ := List.forall_mem_cons.mp hlines
    rw [playlist, expandLoop_chunk honline.chunkPrefix_ne honline.chunkPrefix c hc,
      lossless_chunk honline, ih ⟨hlines, hending⟩ (length_playlist_lt hfuel),
      List.forall_mem_cons, and_assoc]

/-- Text that is not clear is lost: the base URI stands where a chunk line began. -/
theorem expandLoop_differs (hbase : ¬ h.baseUri <+: h.chunkPrefix)
    (hchunk : ¬ h.chunkPrefix <+: h.baseUri) {text : Bytes} (hclear : ¬ Clear h.chunkPrefix text)
    (fuel : Nat) (t out : Bytes) : expandLoop h (fuel + 1) (text ++ t) ≠ text ++ out := by
  intro heq
  obtain ⟨a, z, htext, hloop⟩ :=
    expandLoop_unclear honline.chunkPrefix_ne honline.params_ne hclear
  obtain ⟨w, hw⟩ := hloop fuel t
  rw [hw, htext, List.append_assoc] at heq
  have hsame := List.append_cancel_left heq
  have hprefix := List.prefix_append h.baseUri w
  rw [hsame, List.append_assoc] at hprefix
  rcases List.prefix_or_prefix_of_prefix hprefix (List.prefix_append h.chunkPrefix _) with h | h
  · exact hbase h
  · exact hchunk h

/-- Where nothing is lost and the base URI differs from the beginning of the chunk lines,
all is clear. -/
theorem allClear_of_lossless (hbase : ¬ h.baseUri <+: h.chunkPrefix)
    (hchunk : ¬ h.chunkPrefix <+: h.baseUri) (lines : List (ChunkLine h.chunkPrefix))
    (ending : Ending h.chunkPrefix) {fuel : Nat} (hfuel : (playlist lines ending).length < fuel)
    (hlossless : Lossless h lines ending (expandLoop h fuel (playlist lines ending))) :
    AllClear lines ending := by
  induction lines generalizing fuel with
  | nil =>
    obtain ⟨fuel, rfl⟩ := Nat.exists_eq_succ_of_ne_zero (Nat.ne_zero_of_lt hfuel)
    refine ⟨fun c hc => absurd hc List.not_mem_nil, ?_⟩
    by_contra hclear
    cases ending with
    | text t hnone =>
      have hloop : expandLoop h (fuel + 1) (t ++ []) = t ++ [] := by
        rw [List.append_nil]
        exact hlossless
      exact expandLoop_differs honline hbase hchunk hclear fuel [] [] hloop
    | chunk c =>
      obtain ⟨line, -, heq | heq⟩ := hlossless
      · exact expandLoop_differs honline hbase hchunk hclear fuel _ _ heq
      · exact expandLoop_differs honline hbase hchunk hclear fuel _ _ heq
  | cons c lines ih =>
    obtain ⟨fuel, rfl⟩ := Nat.exists_eq_succ_of_ne_zero (Nat.ne_zero_of_lt hfuel)
    obtain ⟨line, more, hline, heq, hmore⟩ := hlossless
    have hc : Clear h.chunkPrefix c.text := by
      by_contra hclear
      exact expandLoop_differs honline hbase hchunk hclear fuel _ _ heq
    rw [playlist, expandLoop_chunk honline.chunkPrefix_ne honline.chunkPrefix c hc] at heq
    obtain ⟨-, rfl⟩ := eq_of_append_cons (not_mem_expandChunk honline c.hchunk) hline.1
      (List.append_cancel_left heq)
    obtain ⟨hlines, hending⟩ := ih (length_playlist_lt hfuel) hmore
    exact ⟨List.forall_mem_cons.mpr ⟨hc, hlines⟩, hending⟩

end Playlist

theorem expand_eq_loop {h : Header} {text : Bytes} (hheader : HasHeader h text) :
    expandYtCondensedPlaylist text = expandLoop h (text.length + 1) text := by
  unfold expandYtCondensedPlaylist
  rw [readHeader_eq hheader]

/-- Where the beginning of the chunk lines first comes up at them, expanding loses nothing
if there is room for the parts of each chunk, and but by chance only then. Where it comes up
earlier something is lost, if the base URI is not to be confused with it. -/
theorem lossless_iff (h : Header) (lines : List (ChunkLine h.chunkPrefix))
    (ending : Ending h.chunkPrefix) (hheader : HasHeader h (playlist lines ending)) :
    (AllClear lines ending → EachChunk (Enough h) lines ending →
        Lossless h lines ending (expandYtCondensedPlaylist (playlist lines ending))) ∧
      (AllClear lines ending →
        Lossless h lines ending (expandYtCondensedPlaylist (playlist lines ending)) →
        EachChunk (fun chunk => Enough h chunk ∨ Chance h chunk) lines ending) ∧
      (¬ h.baseUri <+: h.chunkPrefix → ¬ h.chunkPrefix <+: h.baseUri →
        Lossless h lines ending (expandYtCondensedPlaylist (playlist lines ending)) →
        AllClear lines ending) := by
  have honline := hheader.onLine
  have hending : ∀ chunk ∈ ending.chunks, 10 ∉ chunk := by
    cases ending with
    | text => exact List.forall_mem_nil _
    | chunk c => exact List.forall_mem_singleton.mpr c.hchunk
  have hchance : ∀ chunk, 10 ∉ chunk → Complete h chunk (expandChunk h chunk) →
      Enough h chunk ∨ Chance h chunk := fun chunk hchunk hcomplete =>
    (Classical.em _).imp_right fun henough => chance_of_complete honline hchunk henough hcomplete
  rw [expand_eq_loop hheader]
  refine ⟨fun hclear henough => ?_, fun hclear hlossless => ?_, fun hbase hchunk =>
    allClear_of_lossless honline hbase hchunk lines ending (Nat.lt_succ_self _)⟩
  · refine (lossless_loop_iff honline lines ending hclear (Nat.lt_succ_self _)).mpr ⟨?_, ?_⟩
    · exact fun c hc => complete_of_enough honline c.hchunk (henough.1 c hc)
    · exact fun chunk hchunk => complete_of_enough honline (hending chunk hchunk)
        (henough.2 chunk hchunk)
  · obtain ⟨hlines, hlast⟩ :=
      (lossless_loop_iff honline lines ending hclear (Nat.lt_succ_self _)).mp hlossless
    exact ⟨fun c hc => hchance c.chunk c.hchunk (hlines c hc),
      fun chunk hchunk => hchance chunk (hending chunk hchunk) (hlast chunk hchunk)⟩

/-! ### The example of the source -/

def exampleHeader : Header where
  baseUri := bytes "https://cdn/"
  params := bytes "s,slices"
  chunkPrefix := bytes "mlhls://localhost"

def exampleAttributes : Bytes :=
  bytes ":BASE-URI=\"https://cdn/\",PARAMS=\"s,slices\",PREFIX=\"mlhls://localhost\""

/-- The header and a tag. -/
def exampleText : Bytes := headerTag ++ (exampleAttributes ++ 10 :: bytes "#EXTINF:5.0,\n")

/-- A chunk line behind them. -/
def exampleLine (chunk : Bytes) (hchunk : 10 ∉ chunk) : ChunkLine exampleHeader.chunkPrefix where
  text := exampleText
  chunk := chunk
  htag := ⟨headerTag ++ (exampleAttributes ++ [10]), bytes ":5.0,\n", by decide +kernel,
    .inr (by decide +kernel)⟩
  hline := by decide +kernel
  hfirst := noChunk_of_not_infix (by decide +kernel)
  hchunk := hchunk

theorem exampleHeader_hasHeader (rest : Bytes) :
    HasHeader exampleHeader (headerTag ++ (exampleAttributes ++ 10 :: rest)) := by
  have hline : HeaderLine exampleHeader (headerTag ++ exampleAttributes) := {
    baseUri := ⟨⟨by decide, bytes "#YT-EXT-CONDENSED-URL:",
      bytes ",PARAMS=\"s,slices\",PREFIX=\"mlhls://localhost\"", by decide +kernel⟩, by decide⟩
    params := ⟨⟨by decide, bytes "#YT-EXT-CONDENSED-URL:BASE-URI=\"https://cdn/\",",
      bytes ",PREFIX=\"mlhls://localhost\"", by decide +kernel⟩, by decide⟩
    chunkPrefix := ⟨⟨by decide,
      bytes "#YT-EXT-CONDENSED-URL:BASE-URI=\"https://cdn/\",PARAMS=\"s,slices\",", [],
      by decide +kernel⟩, by decide⟩
    ended := by decide +kernel}
  exact hasHeader_line hline rest

theorem example_hasHeader {chunk : Bytes} (hchunk : 10 ∉ chunk) :
    HasHeader exampleHeader (playlist [] (.chunk (exampleLine chunk hchunk))) := by
  have hheader := exampleHeader_hasHeader
    (bytes "#EXTINF:5.0,\n" ++ (exampleHeader.chunkPrefix ++ chunk))
  rwa [← List.cons_append, ← List.append_assoc exampleAttributes, ← List.append_assoc] at hheader

theorem exampleText_clear : Clear exampleHeader.chunkPrefix exampleText := by
  have htag : cut extinf exampleText =
      some (headerTag ++ (exampleAttributes ++ [10]), bytes ":5.0,\n") := by decide +kernel
  exact clear_of_cut htag (by decide +kernel)

theorem example_clear {chunk : Bytes} (hchunk : 10 ∉ chunk) :
    AllClear [] (Ending.chunk (exampleLine chunk hchunk)) :=
  ⟨fun _ hc => absurd hc List.not_mem_nil, exampleText_clear⟩

theorem lossless_iff_example :
    Lossless exampleHeader [] (.chunk (exampleLine (bytes "/0/5600") (by decide)))
        (expandYtCondensedPlaylist
          (playlist [] (.chunk (exampleLine (bytes "/0/5600") (by decide))))) ∧
      AllClear [] (.chunk (exampleLine (bytes "/0/5600") (by decide))) := by
  have hiff := lossless_iff exampleHeader [] (.chunk (exampleLine (bytes "/0/5600") (by decide)))
    (example_hasHeader (by decide))
  have henough : Enough exampleHeader (bytes "/0/5600") := by
    unfold Enough
    decide +kernel
  have hlossless := hiff.1 (example_clear (by decide))
    ⟨fun c hc => absurd hc List.not_mem_nil, List.forall_mem_singleton.mpr henough⟩
  exact ⟨hlossless, hiff.2.2 (by decide) (by decide) hlossless⟩

/-- The chunk of the source's example has more parts than there are parameters, and the last
two are lost. -/
theorem example_loses :
    ¬ ∀ (h : Header) (lines : List (ChunkLine h.chunkPrefix)) (ending : Ending h.chunkPrefix),
      HasHeader h (playlist lines ending) →
      Lossless h lines ending (expandYtCondensedPlaylist (playlist lines ending)) := by
  intro hall
  have hchunk : 10 ∉ bytes "/0/5600/0-62329/0" := by decide
  have hheader := example_hasHeader hchunk
  have hlossless := hall exampleHeader [] _ hheader
  rw [expand_eq_loop hheader, lossless_loop_iff hheader.onLine [] _ (example_clear hchunk)
    (Nat.lt_succ_self _)] at hlossless
  have hcomplete : Complete exampleHeader (bytes "/0/5600/0-62329/0")
      (expandChunk exampleHeader (bytes "/0/5600/0-62329/0")) := hlossless.2 _ List.mem_cons_self
  have hchance := chance_of_complete hheader.onLine hchunk
    (by unfold Enough; decide +kernel) hcomplete
  have hname : bytes "0-62329" ∈ exampleHeader.keys.flatMap (parts 47) :=
    hchance.names.subset (by decide +kernel)
  exact absurd hname (by decide +kernel)

end AirPlay.Hls
