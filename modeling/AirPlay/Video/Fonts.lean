import Mathlib.Data.List.SplitBy
import AirPlay.Parameters.SetParameter
import AirPlay.Settings.ReceiverName

/-! Drawing a text with several fonts.

No font has every character that a title may hold. A text is cut where the font changes,
each piece is drawn with its own font, and the pictures are put side by side.

`text_drawn`: whatever the bytes are, nothing of a text is lost and the pieces are as
long as they can be; no character of a text in UTF-8 is cut, and each is in a piece of
the first font that provides it. The pictures stand side by side without a gap. -/
namespace AirPlay.Video

/-! ### UTF-8 -/

/-- The loop over the bytes behind a lead byte. -/
def utf8Tail : Nat → UInt32 → Bytes → UInt32 × Bytes
  | 0, cp, s => (cp, s)
  | _ + 1, _, [] => (0xfffd, [])
  | n + 1, cp, c :: s =>
    if c &&& 0xc0 ≠ 0x80 then (0xfffd, c :: s)
    else utf8Tail n ((cp <<< 6) ||| (c &&& 0x3f).toUInt32) s

/-- The code point at the front, and what stands behind it. -/
def utf8Next : Bytes → UInt32 × Bytes
  | [] => (0, [])
  | c0 :: s =>
    if c0 < 0x80 then (c0.toUInt32, s)
    else if c0 &&& 0xe0 = 0xc0 then utf8Tail 1 (c0 &&& 0x1f).toUInt32 s
    else if c0 &&& 0xf0 = 0xe0 then utf8Tail 2 (c0 &&& 0x0f).toUInt32 s
    else if c0 &&& 0xf8 = 0xf0 then utf8Tail 3 (c0 &&& 0x07).toUInt32 s
    else (0xfffd, s)

theorem utf8Tail_suffix (n : Nat) (cp : UInt32) (s : Bytes) : (utf8Tail n cp s).2 <:+ s := by
  induction n generalizing cp s with
  | zero => exact List.suffix_refl s
  | succ n ih =>
    cases s with
    | nil => exact List.suffix_refl []
    | cons c s =>
      rw [utf8Tail]
      split
      · exact List.suffix_refl (c :: s)
      · exact (ih _ s).trans (List.suffix_cons c s)

theorem utf8Next_suffix (c0 : UInt8) (s : Bytes) : (utf8Next (c0 :: s)).2 <:+ s := by
  rw [utf8Next]
  split
  · exact List.suffix_refl s
  split
  · exact utf8Tail_suffix 1 _ s
  split
  · exact utf8Tail_suffix 2 _ s
  split
  · exact utf8Tail_suffix 3 _ s
  · exact List.suffix_refl s

theorem utf8Next_length (c0 : UInt8) (s : Bytes) :
    (utf8Next (c0 :: s)).2.length < (c0 :: s).length :=
  Nat.lt_succ_of_le (utf8Next_suffix c0 s).length_le

/-- Where the receiver's name may go on, a text does too. -/
theorem utf8Tail_continuation {n : Nat} {cp w : UInt32} {s rest : Bytes}
    (h : Settings.continuation n cp s = some (w, rest)) : utf8Tail n cp s = (w, rest) := by
  induction n generalizing cp s with
  | zero => exact Option.some.inj h
  | succ n ih =>
    cases s with
    | nil => exact absurd h (Option.some_ne_none _).symm
    | cons c s =>
      rw [Settings.continuation] at h
      rw [utf8Tail]
      split at h
      · exact absurd h (Option.some_ne_none _).symm
      · rename_i hfollows
        rw [if_neg hfollows]
        exact ih h

theorem lead_masks {c : UInt8} :
    (c &&& 0xe0 = 0xc0 ↔ 0xc0 ≤ c.toNat ∧ c.toNat < 0xe0) ∧
      (c &&& 0xf0 = 0xe0 ↔ 0xe0 ≤ c.toNat ∧ c.toNat < 0xf0) ∧
        (c &&& 0xf8 = 0xf0 ↔ 0xf0 ≤ c.toNat ∧ c.toNat < 0xf8) := by
  have hall : ∀ v : BitVec 8, (v &&& 0xe0 = 0xc0 ↔ 0xc0 ≤ v.toNat ∧ v.toNat < 0xe0) ∧
      (v &&& 0xf0 = 0xe0 ↔ 0xe0 ≤ v.toNat ∧ v.toNat < 0xf0) ∧
        (v &&& 0xf8 = 0xf0 ↔ 0xf0 ≤ v.toNat ∧ v.toNat < 0xf8) := by
    decide +kernel
  rw [← UInt8.toBitVec_inj, ← UInt8.toBitVec_inj, ← UInt8.toBitVec_inj]
  exact hall c.toBitVec

theorem encode_ne_nil (ch : Char) : String.utf8EncodeChar ch ≠ [] := by
  by_cases h : ch.toNat < 0x80
  · rw [Utf8.encode_ascii h]
    exact List.cons_ne_nil _ _
  · obtain ⟨w, hw, hleast, hlimit⟩ := Utf8.exists_width (Nat.le_of_not_lt h)
    rw [Utf8.encode_long hw hleast hlimit]
    exact List.cons_ne_nil _ _

theorem utf8Next_encode (ch : Char) (rest : Bytes) :
    utf8Next (String.utf8EncodeChar ch ++ rest) = (ch.val, rest) := by
  by_cases hascii : ch.toNat < 0x80
  · have hbyte : (UInt8.ofNat ch.toNat).toNat = ch.toNat :=
      UInt8.toNat_ofNat_of_lt' (hascii.trans (by decide))
    have hlow : UInt8.ofNat ch.toNat < 0x80 := UInt8.lt_iff_toNat_lt.mpr (hbyte.symm ▸ hascii)
    rw [Utf8.encode_ascii hascii, List.singleton_append, utf8Next, if_pos hlow, Prod.mk.injEq,
      ← UInt32.toNat_inj, UInt8.toNat_toUInt32, hbyte]
    exact ⟨rfl, rfl⟩
  · have hhigh := Nat.le_of_not_lt hascii
    obtain ⟨c0, s, hs⟩ := List.exists_cons_of_ne_nil
      (List.append_ne_nil_of_left_ne_nil (encode_ne_nil ch) rest)
    obtain ⟨w, hw, -, hlimit, hmark, htail⟩ := Settings.encode_high hhigh hs.symm
    obtain ⟨value, hvalue⟩ : ∃ value : UInt32, value.toNat = ch.toNat / 64 ^ w.count :=
      ⟨.ofNat _, UInt32.toNat_ofNat_of_lt' ((Nat.div_le_self _ _).trans_lt ch.val.toNat_lt)⟩
    rw [← hvalue] at hmark
    have hread : utf8Tail w.count value s = (ch.val, rest) :=
      utf8Tail_continuation ((Settings.continuation_iff (Settings.width_room hw
        (hvalue.symm ▸ Nat.div_le_div_right (Nat.le_sub_one_of_lt hlimit)))).mpr
          ⟨htail, hvalue.symm⟩)
    have hc : ¬ c0 < 0x80 := by
      rw [UInt8.lt_iff_toNat_lt, hmark]
      rcases Utf8.mem_widths.mp hw with rfl | rfl | rfl <;>
        simp only [UInt8.reduceToNat] <;> omega
    rw [hs, utf8Next, if_neg hc]
    obtain ⟨htwo, hthree, hfour⟩ := @lead_masks c0
    rcases Utf8.mem_widths.mp hw with rfl | rfl | rfl
    · simp only at hmark hlimit hvalue hread
      rw [if_pos (htwo.mpr (by omega)), ← hread]
      exact congrArg (utf8Tail 1 · s) ((@Settings.mask_iff c0 value 5 0xc0 (by decide)
        (by decide) (by omega) (by omega)).mpr hmark).symm
    · simp only at hmark hlimit hvalue hread
      rw [if_neg (mt htwo.mp (by omega)), if_pos (hthree.mpr (by omega)), ← hread]
      exact congrArg (utf8Tail 2 · s) ((@Settings.mask_iff c0 value 4 0xe0 (by decide)
        (by decide) (by omega) (by omega)).mpr hmark).symm
    · simp only at hmark hlimit hvalue hread
      rw [if_neg (mt htwo.mp (by omega)), if_neg (mt hthree.mp (by omega)),
        if_pos (hfour.mpr (by omega)), ← hread]
      exact congrArg (utf8Tail 3 · s) ((@Settings.mask_iff c0 value 3 0xf0 (by decide)
        (by decide) (by omega) (by omega)).mpr hmark).symm


/-! ### Fonts -/

/-- What the font library answers: which code points a font provides, and the picture
of a text in it. -/
structure TTF (Font Surface : Type) where
  glyphIsProvided : Font → UInt32 → Bool
  render : Font → Bytes → Option Surface
  width : Surface → Nat
  height : Surface → Nat

/-- A part of a text, and its font. -/
structure Run (Font : Type) where
  font : Option Font
  text : Bytes
  deriving DecidableEq

/-- Where a picture goes. -/
structure Blit (Surface : Type) where
  x : Nat
  y : Nat
  surface : Surface

/-- The picture of a single run, or one of the size that is given with others in it. -/
inductive Drawn (Surface : Type) where
  | whole (s : Surface)
  | joined (width height : Nat) (blits : List (Blit Surface))

section
variable {Font Surface : Type} [DecidableEq Font] (ttf : TTF Font Surface)

/-- The first font that provides the code point, or else the first font. -/
def pickFontFor (cp : UInt32) (fonts : List Font) : Option Font :=
  match fonts.find? (ttf.glyphIsProvided · cp) with
  | some f => some f
  | none => fonts.head?

/-- What is kept of a run that ends. -/
def closeRun (curFont : Option Font) (curText : Bytes) : List (Run Font) :=
  if curText = [] then [] else [⟨curFont, curText⟩]

def splitRuns (fonts : List Font) (curFont : Option Font) (curText : Bytes) :
    Bytes → List (Run Font)
  | [] => closeRun curFont curText
  | c :: s =>
    let next := utf8Next (c :: s)
    let f := pickFontFor ttf next.1 fonts
    let read := (c :: s).take ((c :: s).length - next.2.length)
    if f ≠ curFont then closeRun curFont curText ++ splitRuns fonts f read next.2
    else splitRuns fonts curFont (curText ++ read) next.2
termination_by s => s.length
decreasing_by all_goals exact utf8Next_length c s

/-- The loop over the heights. -/
def tallest : Nat → List Surface → Nat
  | maxH, [] => maxH
  | maxH, s :: rest => tallest (max maxH (ttf.height s)) rest

/-- The loop that puts the pictures side by side, their lower edges on one line. -/
def blitLoop (maxH : Nat) : Nat → List Surface → List (Blit Surface)
  | _, [] => []
  | x, s :: rest => ⟨x, maxH - ttf.height s, s⟩ :: blitLoop maxH (x + ttf.width s) rest

def Run.render (r : Run Font) : Option Surface :=
  r.font.bind fun f => ttf.render f (Parameters.cString r.text)

/-- `created`: the surface for several pictures can be had. -/
def renderMultiFont (created : Bool) (fonts : List Font) (utf8 : Bytes) :
    Option (Drawn Surface) :=
  if fonts = [] ∨ utf8 = [] then none
  else match splitRuns ttf fonts none [] utf8 with
  | [⟨some f, text⟩] => (ttf.render f (Parameters.cString text)).map .whole
  | runs =>
    let surfs := runs.filterMap (Run.render ttf)
    let totalW := (surfs.map ttf.width).sum
    let maxH := tallest ttf 0 surfs
    if totalW = 0 ∨ created = false then none
    else some (.joined totalW maxH (blitLoop ttf maxH 0 surfs))

end

/-! ### Groups -/

/-- A list in groups, as long as they can be, of what has the same key. -/
structure Grouped {α κ : Type} (key : α → κ) (ts : List α) (groups : List (κ × List α)) :
    Prop where
  whole : groups.flatMap (·.2) = ts
  inhabited : ∀ g ∈ groups, g.2 ≠ []
  keyed : ∀ g ∈ groups, ∀ a ∈ g.2, key a = g.1
  apart : groups.IsChain fun g h => g.1 ≠ h.1

theorem Grouped.one {α κ : Type} {key : α → κ} {k : κ} {ts : List α} (hts : ts ≠ [])
    (hkey : ∀ a ∈ ts, key a = k) : Grouped key ts [(k, ts)] where
  whole := List.flatMap_singleton _ _
  inhabited := List.forall_mem_singleton.mpr hts
  keyed := List.forall_mem_singleton.mpr hkey
  apart := List.isChain_singleton _

theorem Grouped.cons {α κ : Type} {key : α → κ} {k : κ} {pre ts : List α}
    {groups : List (κ × List α)} (h : Grouped key ts groups) (hpre : pre ≠ [])
    (hkey : ∀ a ∈ pre, key a = k) (hnext : ∀ g ∈ groups.head?, k ≠ g.1) :
    Grouped key (pre ++ ts) ((k, pre) :: groups) where
  whole := by rw [List.flatMap_cons, h.whole]
  inhabited := List.forall_mem_cons.mpr ⟨hpre, h.inhabited⟩
  keyed := List.forall_mem_cons.mpr ⟨hkey, h.keyed⟩
  apart := List.isChain_cons.mpr ⟨hnext, h.apart⟩

section
variable {α : Type} (cp : α → UInt32) (text : α → Bytes)

/-- The texts of a list are read one by one. -/
def Reads : List α → Prop
  | [] => True
  | a :: ts => text a ≠ [] ∧ utf8Next (text a ++ ts.flatMap text) = (cp a, ts.flatMap text) ∧
      Reads ts

theorem reads_chars (cs : List Char) : Reads Char.val String.utf8EncodeChar cs := by
  induction cs with
  | nil => trivial
  | cons c cs ih => exact ⟨encode_ne_nil c, utf8Next_encode c _, ih⟩

variable {cp text} in
theorem Reads.inhabited {ts : List α} (h : Reads cp text ts) : ∀ a ∈ ts, text a ≠ [] := by
  induction ts with
  | nil => exact List.forall_mem_nil _
  | cons a ts ih => exact List.forall_mem_cons.mpr ⟨h.1, ih h.2.2⟩

theorem exists_reads (s : Bytes) : ∃ ts : List (UInt32 × Bytes),
    Reads Prod.fst Prod.snd ts ∧ ts.flatMap Prod.snd = s := by
  induction hn : s.length using Nat.strong_induction_on generalizing s with
  | h n ih =>
    cases s with
    | nil => exact ⟨[], trivial, rfl⟩
    | cons c s =>
      obtain ⟨read, hread⟩ := utf8Next_suffix c s
      obtain ⟨ts, hts, hrest⟩ := ih _ (hn ▸ utf8Next_length c s) (utf8Next (c :: s)).2 rfl
      have hwhole : c :: read ++ (utf8Next (c :: s)).2 = c :: s := congrArg (c :: ·) hread
      refine ⟨((utf8Next (c :: s)).1, c :: read) :: ts, ⟨List.cons_ne_nil _ _, ?_, hts⟩, ?_⟩
      · rw [hrest, hwhole]
      · rw [List.flatMap_cons, hrest, hwhole]

variable {cp text} {Font Surface : Type} [DecidableEq Font] (ttf : TTF Font Surface)
  {fonts : List Font}

theorem splitRuns_read {curFont : Option Font} {curText read rest : Bytes} {c : UInt32}
    (hread : read ≠ []) (hnext : utf8Next (read ++ rest) = (c, rest)) :
    splitRuns ttf fonts curFont curText (read ++ rest) =
      if pickFontFor ttf c fonts ≠ curFont then
        closeRun curFont curText ++ splitRuns ttf fonts (pickFontFor ttf c fonts) read rest
      else splitRuns ttf fonts curFont (curText ++ read) rest := by
  obtain ⟨b, read, rfl⟩ := List.exists_cons_of_ne_nil hread
  have htaken : (b :: read ++ rest).take ((b :: read ++ rest).length - rest.length) =
      b :: read := by
    rw [List.length_append, Nat.add_sub_cancel, List.take_left]
  rw [List.cons_append] at hnext htaken ⊢
  rw [splitRuns, hnext]
  simp only [htaken]

def Run.of (g : Option Font × List α) (text : α → Bytes) : Run Font := ⟨g.1, g.2.flatMap text⟩

theorem splitRuns_grouped_from {ts : List α} (h : Reads cp text ts) {pre : List α}
    {curFont : Option Font} (hpre : pre ≠ []) (hne : ∀ a ∈ pre, text a ≠ [])
    (hfont : ∀ a ∈ pre, pickFontFor ttf (cp a) fonts = curFont) :
    ∃ groups, splitRuns ttf fonts curFont (pre.flatMap text) (ts.flatMap text) =
        groups.map (Run.of · text) ∧
      Grouped (fun a => pickFontFor ttf (cp a) fonts) (pre ++ ts) groups ∧
        groups.head?.map (·.1) = some curFont := by
  have htext : pre.flatMap text ≠ [] := by
    obtain ⟨a, pre, rfl⟩ := List.exists_cons_of_ne_nil hpre
    rw [List.flatMap_cons]
    exact List.append_ne_nil_of_left_ne_nil (hne a List.mem_cons_self) _
  induction ts generalizing pre curFont with
  | nil =>
    refine ⟨[(curFont, pre)], ?_, ?_, rfl⟩
    · rw [List.flatMap_nil, splitRuns, closeRun, if_neg htext]
      rfl
    · rw [List.append_nil]
      exact .one hpre hfont
  | cons a ts ih =>
    obtain ⟨hread, hnext, hreads⟩ := h
    rw [List.flatMap_cons, splitRuns_read ttf hread hnext]
    split
    · rename_i hother
      have hsingle : [a].flatMap text = text a := List.flatMap_singleton _ _
      obtain ⟨groups, hruns, hgroups, hhead⟩ := @ih hreads [a] _ (List.cons_ne_nil _ _)
        (List.forall_mem_singleton.mpr hread) (List.forall_mem_singleton.mpr rfl)
        (hsingle.symm ▸ hread)
      refine ⟨(curFont, pre) :: groups, ?_, ?_, rfl⟩
      · rw [closeRun, if_neg htext, ← hsingle, hruns]
        rfl
      · refine hgroups.cons hpre hfont fun g hg => ?_
        rw [Option.mem_def.mp hg] at hhead
        have hfirst : g.1 = pickFontFor ttf (cp a) fonts := Option.some.inj hhead
        rw [hfirst]
        exact Ne.symm hother
    · rename_i hsame
      rw [not_not] at hsame
      have happend : (pre ++ [a]).flatMap text = pre.flatMap text ++ text a := by
        rw [List.flatMap_append, List.flatMap_singleton]
      obtain ⟨groups, hruns, hgroups, hhead⟩ := @ih hreads (pre ++ [a]) curFont
        (List.append_ne_nil_of_left_ne_nil hpre _)
        (List.forall_mem_append.mpr ⟨hne, List.forall_mem_singleton.mpr hread⟩)
        (List.forall_mem_append.mpr ⟨hfont, List.forall_mem_singleton.mpr hsame⟩)
        (happend.symm ▸ List.append_ne_nil_of_left_ne_nil htext _)
      rw [happend] at hruns
      rw [List.append_assoc] at hgroups
      exact ⟨groups, hruns, hgroups, hhead⟩

omit [DecidableEq Font] in
theorem pickFontFor_isSome (hfonts : fonts ≠ []) (c : UInt32) :
    (pickFontFor ttf c fonts).isSome = true := by
  rw [pickFontFor]
  split
  · rfl
  · rw [List.isSome_head?]
    exact hfonts

theorem splitRuns_grouped (hfonts : fonts ≠ []) {ts : List α} (h : Reads cp text ts) :
    ∃ groups, splitRuns ttf fonts none [] (ts.flatMap text) = groups.map (Run.of · text) ∧
      Grouped (fun a => pickFontFor ttf (cp a) fonts) ts groups := by
  cases ts with
  | nil =>
    refine ⟨[], ?_, ⟨rfl, List.forall_mem_nil _, List.forall_mem_nil _, List.isChain_nil⟩⟩
    rw [List.flatMap_nil, splitRuns]
    rfl
  | cons a ts =>
    obtain ⟨hread, hnext, hreads⟩ := h
    have hfont : pickFontFor ttf (cp a) fonts ≠ none :=
      Option.isSome_iff_ne_none.mp (pickFontFor_isSome ttf hfonts _)
    have hsingle : [a].flatMap text = text a := List.flatMap_singleton _ _
    obtain ⟨groups, hruns, hgroups, -⟩ := splitRuns_grouped_from ttf hreads
      (List.cons_ne_nil a []) (List.forall_mem_singleton.mpr hread)
      (List.forall_mem_singleton.mpr rfl)
    refine ⟨groups, ?_, hgroups⟩
    rw [List.flatMap_cons, splitRuns_read ttf hread hnext, if_pos hfont, ← hsingle, hruns]
    rfl

/-- Whatever the bytes are. -/
theorem splitRuns_sound (hfonts : fonts ≠ []) (utf8 : Bytes) :
    (splitRuns ttf fonts none [] utf8).flatMap (·.text) = utf8 ∧
      (∀ r ∈ splitRuns ttf fonts none [] utf8, r.text ≠ [] ∧ r.font.isSome = true) ∧
        (splitRuns ttf fonts none [] utf8).IsChain fun r t => r.font ≠ t.font := by
  obtain ⟨parts, hreads, rfl⟩ := exists_reads utf8
  obtain ⟨groups, hruns, hgroups⟩ := splitRuns_grouped ttf hfonts hreads
  rw [hruns]
  refine ⟨?_, List.forall_mem_map.mpr fun g hg => ?_, (List.isChain_map _).mpr hgroups.apart⟩
  · rw [List.flatMap_map, ← hgroups.whole, List.flatMap_assoc]
    rfl
  · obtain ⟨a, ha⟩ := List.exists_mem_of_ne_nil _ (hgroups.inhabited g hg)
    have hmem : a ∈ parts := hgroups.whole ▸ List.mem_flatMap.mpr ⟨g, hg, ha⟩
    refine ⟨fun hnil => hreads.inhabited a hmem (List.flatMap_eq_nil_iff.mp hnil a ha), ?_⟩
    have hfont : pickFontFor ttf a.1 fonts = g.1 := hgroups.keyed g hg a ha
    show g.1.isSome = true
    exact hfont ▸ pickFontFor_isSome ttf hfonts a.1

end

/-! ### Pictures -/

section
variable {Font Surface : Type} (ttf : TTF Font Surface)

def Blit.covers (x : Nat) (b : Blit Surface) : Bool :=
  decide (b.x ≤ x ∧ x < b.x + ttf.width b.surface)

/-- The pictures stand on the lower edge and fill each column once. -/
def Drawn.Tiled : Drawn Surface → Prop
  | .whole _ => True
  | .joined width height blits =>
    (∀ x, blits.countP (Blit.covers ttf x) = if x < width then 1 else 0) ∧
      (∀ b ∈ blits, b.y + ttf.height b.surface = height) ∧
        blits.Pairwise fun b c => b.x + ttf.width b.surface ≤ c.x

def Drawn.surfaces : Drawn Surface → List Surface
  | .whole s => [s]
  | .joined _ _ blits => blits.map (·.surface)

theorem blitLoop_surfaces (maxH x : Nat) (surfs : List Surface) :
    (blitLoop ttf maxH x surfs).map (·.surface) = surfs := by
  induction surfs generalizing x with
  | nil => rfl
  | cons s surfs ih => rw [blitLoop, List.map_cons, ih]

theorem blitLoop_right {maxH x : Nat} {surfs : List Surface} :
    ∀ b ∈ blitLoop ttf maxH x surfs, x ≤ b.x := by
  induction surfs generalizing x with
  | nil => exact List.forall_mem_nil _
  | cons s surfs ih =>
    rw [blitLoop]
    exact List.forall_mem_cons.mpr
      ⟨Nat.le_refl x, fun b hb => (Nat.le_add_right _ _).trans (ih b hb)⟩

theorem blitLoop_columns (maxH x c : Nat) (surfs : List Surface) :
    (blitLoop ttf maxH x surfs).countP (Blit.covers ttf c) =
      if x ≤ c ∧ c < x + (surfs.map ttf.width).sum then 1 else 0 := by
  induction surfs generalizing x with
  | nil =>
    rw [blitLoop, List.countP_nil, if_neg]
    exact fun h => absurd h.2 (Nat.not_lt.mpr h.1)
  | cons s surfs ih =>
    rw [blitLoop, List.countP_cons, ih, List.map_cons, List.sum_cons, Blit.covers]
    simp only [decide_eq_true_eq]
    split <;> split <;> split <;> omega

theorem blitLoop_pairwise (maxH x : Nat) (surfs : List Surface) :
    (blitLoop ttf maxH x surfs).Pairwise fun b c => b.x + ttf.width b.surface ≤ c.x := by
  induction surfs generalizing x with
  | nil => exact List.Pairwise.nil
  | cons s surfs ih =>
    rw [blitLoop]
    exact List.pairwise_cons.mpr ⟨fun b hb => blitLoop_right ttf b hb, ih _⟩

theorem blitLoop_bottom {maxH : Nat} (x : Nat) {surfs : List Surface}
    (h : ∀ s ∈ surfs, ttf.height s ≤ maxH) :
    ∀ b ∈ blitLoop ttf maxH x surfs, b.y + ttf.height b.surface = maxH := by
  induction surfs generalizing x with
  | nil => exact List.forall_mem_nil _
  | cons s surfs ih =>
    obtain ⟨hs, hrest⟩ := List.forall_mem_cons.mp h
    rw [blitLoop]
    exact List.forall_mem_cons.mpr ⟨Nat.sub_add_cancel hs, ih _ hrest⟩

theorem le_tallest (maxH : Nat) (surfs : List Surface) :
    maxH ≤ tallest ttf maxH surfs ∧ ∀ s ∈ surfs, ttf.height s ≤ tallest ttf maxH surfs := by
  induction surfs generalizing maxH with
  | nil => exact ⟨Nat.le_refl _, List.forall_mem_nil _⟩
  | cons s surfs ih =>
    obtain ⟨hmax, hrest⟩ := ih (max maxH (ttf.height s))
    exact ⟨(Nat.le_max_left _ _).trans hmax,
      List.forall_mem_cons.mpr ⟨(Nat.le_max_right _ _).trans hmax, hrest⟩⟩

variable [DecidableEq Font]

/-- What comes of a text is what the runs give, side by side. -/
theorem renderMultiFont_some {created : Bool} {fonts : List Font} {utf8 : Bytes}
    {d : Drawn Surface} (h : renderMultiFont ttf created fonts utf8 = some d) :
    d.surfaces = (splitRuns ttf fonts none [] utf8).filterMap (Run.render ttf) ∧
      d.Tiled ttf := by
  rw [renderMultiFont] at h
  split at h
  · exact absurd h (Option.some_ne_none _).symm
  split at h
  · rename_i f text hruns
    obtain ⟨s, hs, rfl⟩ := Option.map_eq_some_iff.mp h
    have hrender : Run.render ttf ⟨some f, text⟩ = some s := hs
    rw [hruns, List.filterMap_cons_some hrender]
    exact ⟨rfl, trivial⟩
  · simp only at h
    split at h
    · exact absurd h (Option.some_ne_none _).symm
    · obtain rfl := Option.some.inj h
      refine ⟨blitLoop_surfaces ttf _ 0 _, fun x => ?_,
        blitLoop_bottom ttf 0 (le_tallest ttf 0 _).2, blitLoop_pairwise ttf _ 0 _⟩
      rw [blitLoop_columns]
      simp only [Nat.zero_le, true_and, Nat.zero_add]

/-- Nothing comes of a text if nothing comes of its only run, or nothing wide of several. -/
theorem renderMultiFont_none {created : Bool} {fonts : List Font} (hfonts : fonts ≠ [])
    (utf8 : Bytes) :
    renderMultiFont ttf created fonts utf8 = none ↔
      let surfs := (splitRuns ttf fonts none [] utf8).filterMap (Run.render ttf)
      if (splitRuns ttf fonts none [] utf8).length = 1 then surfs = []
      else (surfs.map ttf.width).sum = 0 ∨ created = false := by
  obtain ⟨hwhole, hsound, -⟩ := splitRuns_sound ttf hfonts utf8
  rw [renderMultiFont]
  split
  · rename_i hempty
    obtain rfl := hempty.resolve_left hfonts
    rw [splitRuns]
    exact iff_of_true rfl (.inl rfl)
  split
  · rename_i f text hruns
    have hrender : Run.render ttf ⟨some f, text⟩ = ttf.render f (Parameters.cString text) := rfl
    rw [hruns, Option.map_eq_none_iff, ← hrender]
    simp only [List.length_singleton, if_pos]
    cases hsome : Run.render ttf ⟨some f, text⟩ with
    | none => exact iff_of_true rfl (List.filterMap_cons_none hsome)
    | some s =>
      rw [List.filterMap_cons_some hsome]
      exact iff_of_false (Option.some_ne_none s) (List.cons_ne_nil _ _)
  · rename_i hother
    have hlength : (splitRuns ttf fonts none [] utf8).length ≠ 1 := by
      intro hone
      obtain ⟨⟨font, text⟩, hrun⟩ := List.length_eq_one_iff.mp hone
      obtain ⟨f, hf⟩ := Option.isSome_iff_exists.mp
        (hsound ⟨font, text⟩ (hrun ▸ List.mem_singleton_self _)).2
      simp only at hf
      exact hother f text (hf ▸ hrun)
    simp only [if_neg hlength]
    split
    · rename_i hnothing
      exact iff_of_true rfl hnothing
    · rename_i hsomething
      exact iff_of_false (Option.some_ne_none _) hsomething

/-- A text is cut where its font changes and nowhere in a character, nothing of it is
lost, and what is drawn of it stands side by side. -/
theorem text_drawn (created : Bool) (f : Font) (rest : List Font) :
    (∀ utf8, (splitRuns ttf (f :: rest) none [] utf8).flatMap (·.text) = utf8 ∧
      (∀ r ∈ splitRuns ttf (f :: rest) none [] utf8, r.text ≠ [] ∧ r.font.isSome = true) ∧
      (splitRuns ttf (f :: rest) none [] utf8).IsChain fun r t => r.font ≠ t.font) ∧
    (∀ cs : List Char, ∃ groups,
      splitRuns ttf (f :: rest) none [] (cs.flatMap String.utf8EncodeChar) =
        groups.map (Run.of · String.utf8EncodeChar) ∧
      Grouped (fun c => pickFontFor ttf c.val (f :: rest)) cs groups) ∧
    (∀ utf8 d, renderMultiFont ttf created (f :: rest) utf8 = some d →
      d.surfaces = (splitRuns ttf (f :: rest) none [] utf8).filterMap (Run.render ttf) ∧
        d.Tiled ttf) ∧
    ∀ utf8, renderMultiFont ttf created (f :: rest) utf8 = none ↔
      let surfs := (splitRuns ttf (f :: rest) none [] utf8).filterMap (Run.render ttf)
      if (splitRuns ttf (f :: rest) none [] utf8).length = 1 then surfs = []
      else (surfs.map ttf.width).sum = 0 ∨ created = false := by
  have hfonts : f :: rest ≠ [] := List.cons_ne_nil f rest
  exact ⟨splitRuns_sound ttf hfonts, fun cs => splitRuns_grouped ttf hfonts (reads_chars cs),
    fun utf8 d => renderMultiFont_some ttf, renderMultiFont_none ttf hfonts⟩

/-- Two fonts, of which the first has nothing beyond ASCII. -/
def twoFonts : TTF Bool Nat where
  glyphIsProvided f cp := f || cp < 0x80
  render _ text := some text.length
  width s := s
  height _ := 20

def title : Bytes := ['a', 'é', 'b'].flatMap String.utf8EncodeChar

theorem title_drawn : ∃ d, renderMultiFont twoFonts true [false, true] title = some d ∧
    d.surfaces = [1, 2, 1] ∧ d.Tiled twoFonts := by
  have hruns : splitRuns twoFonts [false, true] none [] title =
      [⟨some false, [97]⟩, ⟨some true, [0xc3, 0xa9]⟩, ⟨some false, [98]⟩] := by
    decide +kernel
  obtain ⟨-, -, hsome, hnone⟩ := text_drawn twoFonts true false [true]
  cases hd : renderMultiFont twoFonts true [false, true] title with
  | none =>
    have hnothing := (hnone title).mp hd
    rw [hruns] at hnothing
    exact absurd hnothing (by decide)
  | some d =>
    obtain ⟨hsurfaces, htiled⟩ := hsome title d hd
    refine ⟨d, rfl, ?_, htiled⟩
    rw [hsurfaces, hruns]
    rfl

end

end AirPlay.Video
