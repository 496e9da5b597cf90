import Mathlib.Data.Int.Order.Basic
import AirPlay.Library.Scan
import AirPlay.Rtsp.Message
import AirPlay.Hls.Localise

/-! Reducing a master playlist to one variant and one audio rendition.

The filter goes over the lines twice: it takes the group of the first variant and the best
audio rendition of it, then writes the lines again without the rest. Its lines are those of
the playlist less what it is to drop (`filterMaster_reduces_iff`), except that a blank last
line is lost: the last line is written without a line feed. -/
namespace AirPlay.Hls
open Bytes Rtsp

/-! ### The filter -/

/-- The quoted string behind the first occurrence of a key. -/
def quoted (line key : Bytes) : Bytes :=
  match find key line with
  | none => []
  | some p => between 34 line p

/-- What ends an attribute that is not quoted: one of `,\r\n ` in the source. -/
def isDelimiter (b : UInt8) : Bool := b = 44 || b = 13 || b = 10 || b = 32

def bareAttr (line key : Bytes) : Bytes :=
  match find key line with
  | none => []
  | some p => (line.drop (p + key.length)).takeWhile fun b => !isDelimiter b

def splitLines (s : Bytes) : List Bytes := (lines s).map fun l => stripCr l.1

def streamInfTag : Bytes := bytes "#EXT-X-STREAM-INF:"

def mediaTag : Bytes := bytes "#EXT-X-MEDIA:"

def typeKey : Bytes := bytes "TYPE="

def groupKey : Bytes := bytes "GROUP-ID="

def audioKey : Bytes := bytes "AUDIO="

def audio : Bytes := bytes "AUDIO"

/-- The first pass: the audio group of the first variant. -/
def audioGroup (ls : List Bytes) : Bytes :=
  match ls.find? streamInfTag.isPrefixOf with
  | none => []
  | some l => quoted l audioKey

def isYes (s : Bytes) : Bool := s = bytes "YES" || s = bytes "yes" || s = bytes "1"

/-- What a language and a name in lower case are to look like. -/
def isFrench (lang name : Bytes) : Bool :=
  lang = bytes "fr" || lang = bytes "fra" || lang = bytes "fre" ||
    (bytes "fr-").isPrefixOf lang || (find (bytes "franc") name).isSome ||
    (find (bytes "french") name).isSome

def looksFrench (line : Bytes) : Bool :=
  isFrench (toLower (quoted line (bytes "LANGUAGE="))) (toLower (quoted line (bytes "NAME=")))

/-- Whether a line comes into question as the audio rendition. -/
def candidate (group l : Bytes) : Bool :=
  mediaTag.isPrefixOf l && bareAttr l typeKey = audio && (group = [] || quoted l groupKey = group)

def score (l : Bytes) : Int :=
  1 + (if isYes (quoted l (bytes "AUTOSELECT=")) then 10 else 0) +
    (if isYes (quoted l (bytes "DEFAULT=")) then 20 else 0) + (if looksFrench l then 100 else 0)

/-- The line of the audio rendition that is kept. -/
def chosenAudio (ls : List Bytes) : Option Nat :=
  (Scan.scan (candidate (audioGroup ls)) score 0 ls {score := -1, index := none}).index

/-- The second pass, from line `i` on. -/
def emit (chosen : Option Nat) : Nat → Bool → List Bytes → Bytes
  | _, _, [] => []
  | i, emitted, l :: ls =>
    if mediaTag.isPrefixOf l then
      (if bareAttr l typeKey = audio ∧ some i = chosen then l ++ [10] else []) ++
        emit chosen (i + 1) emitted ls
    else if streamInfTag.isPrefixOf l then
      match ls with
      | [] => if emitted then [] else l ++ [10]
      | uri :: ls =>
        (if emitted then [] else l ++ 10 :: (uri ++ [10])) ++ emit chosen (i + 2) true ls
    else l ++ (if ls = [] then [] else [10]) ++ emit chosen (i + 1) emitted ls

def filterMasterToSingleVariant (master : Bytes) : Bytes :=
  emit (chosenAudio (splitLines master)) 0 false (splitLines master)

/-! ### Master playlists -/

/-- A variant is a `#EXT-X-STREAM-INF` line and the line of its URI. -/
inductive Item where
  | variant (inf uri : Bytes) (htag : streamInfTag <+: inf) (huri : uri ≠ [] ∧ ¬ [35] <+: uri)
  | media (line : Bytes) (htag : mediaTag <+: line)
  | other (line : Bytes) (htag : ¬ streamInfTag <+: line ∧ ¬ mediaTag <+: line)

def Item.lines : Item → List Bytes
  | .variant inf uri _ _ => [inf, uri]
  | .media line _ => [line]
  | .other line _ => [line]

def Item.isVariant : Item → Bool
  | .variant .. => true
  | .media .. => false
  | .other .. => false

def mediaLines : List Item → List Bytes
  | [] => []
  | .variant _ _ _ _ :: items => mediaLines items
  | .media line _ :: items => line :: mediaLines items
  | .other _ _ :: items => mediaLines items

def firstVariant : List Item → Option Bytes
  | [] => none
  | .variant inf _ _ _ :: _ => some inf
  | .media _ _ :: items => firstVariant items
  | .other _ _ :: items => firstVariant items

/-- The line has this quoted string behind the key. -/
def HasQuoted (line key value : Bytes) : Prop :=
  34 ∉ value ∧ ∃ a b, line = a ++ (key ++ (quote ++ (value ++ (quote ++ b))))

/-- The line has this value behind the key, up to a comma or a blank. -/
def HasBare (line key value : Bytes) : Prop :=
  ∃ a b, line = a ++ (key ++ (value ++ b)) ∧ ∀ c ∈ b.head?, isDelimiter c = true

/-- The key is in the line as the name of a quoted attribute, or not at all. -/
structure NamesQuoted (line key : Bytes) : Prop where
  once : Once key line
  quoted : ∀ a b, line = a ++ (key ++ b) →
    ∃ value c, b = quote ++ (value ++ (quote ++ c)) ∧ 34 ∉ value

/-- The keys are in the lines as the names of attributes only. -/
structure WellNamed (items : List Item) : Prop where
  type : ∀ line ∈ mediaLines items, Once typeKey line
  group : ∀ line ∈ mediaLines items, NamesQuoted line groupKey
  audio : ∀ inf ∈ firstVariant items, NamesQuoted inf audioKey

/-- An audio rendition, of the group that the first variant names if it does. -/
def Eligible (items : List Item) (line : Bytes) : Prop :=
  HasBare line typeKey audio ∧
    ∀ inf ∈ firstVariant items, ∀ group, group ≠ [] → HasQuoted inf audioKey group →
      HasQuoted line groupKey group

/-- The lines without renditions and later variants; `seen` is whether there was one. -/
def reduced : Bool → List Item → List Bytes
  | _, [] => []
  | seen, .variant inf uri _ _ :: items => (if seen then [] else [inf, uri]) ++ reduced true items
  | seen, .media _ _ :: items => reduced seen items
  | seen, .other line _ :: items => line :: reduced seen items

/-- The playlist less its later variants and all renditions but an eligible one, which is
kept when there is one. -/
inductive Reduction (items : List Item) : List Bytes → Prop
  | kept {pre post : List Item} {line : Bytes} {htag : mediaTag <+: line}
      (hitems : items = pre ++ .media line htag :: post) (heligible : Eligible items line) :
      Reduction items (reduced false pre ++ line :: reduced (pre.any Item.isVariant) post)
  | none (hnone : ∀ line ∈ mediaLines items, ¬ Eligible items line) :
      Reduction items (reduced false items)

/-! ### Attributes -/

section Attributes
variable {line key value : Bytes}

theorem quoted_of_none (hcut : cut key line = none) : quoted line key = [] := by
  simp only [quoted, find, hcut, Option.map_none]

theorem namesQuoted_of_has (honce : Once key line) (h : HasQuoted line key value) :
    NamesQuoted line key where
  once := honce
  quoted a b hline := by
    obtain ⟨hfree, a', b', hline'⟩ := h
    obtain rfl := honce hline hline'
    have hb := List.append_cancel_left (List.append_cancel_left (hline.symm.trans hline'))
    exact ⟨value, b', hb, hfree⟩

variable (hkey : key ≠ [])
include hkey

theorem quoted_eq (hquote : 34 ∉ key) (line : Bytes) :
    quoted line key = (after key line).elim [] (enclosed 34) := by
  cases hcut : cut key line with
  | none => rw [quoted_of_none hcut, after, hcut, Option.map_none, Option.elim_none]
  | some p =>
    obtain ⟨a, rest⟩ := p
    have hline := (cut_eq_some hkey hcut).trans (List.append_assoc a key rest)
    rw [after, hcut, Option.map_some, Option.elim_some, ← enclosed_skip hquote,
      ← between_start 34 a, ← hline]
    simp only [quoted, find_of_cut hcut]

theorem bareAttr_eq (line : Bytes) :
    bareAttr line key = (after key line).elim [] (List.takeWhile fun b => !isDelimiter b) := by
  cases hcut : cut key line with
  | none => simp only [bareAttr, find, after, hcut, Option.map_none, Option.elim_none]
  | some p =>
    obtain ⟨a, rest⟩ := p
    have hline : line = (a ++ key) ++ rest := cut_eq_some hkey hcut
    have hdrop : line.drop (a.length + key.length) = rest := by
      rw [← List.length_append, hline, List.drop_left]
    simp only [bareAttr, find_of_cut hcut, hdrop, after, hcut, Option.map_some, Option.elim_some]

theorem quoted_of_cut {a b : Bytes} (hquote : 34 ∉ key) (hvalue : 34 ∉ value)
    (hcut : cut key line = some (a, quote ++ (value ++ (quote ++ b)))) :
    quoted line key = value := by
  rw [quoted_eq hkey hquote, after, hcut, Option.map_some, Option.elim_some]
  exact enclosed_append List.not_mem_nil hvalue b

/-- A quoted attribute is read as it stands. -/
theorem quoted_iff (hquote : 34 ∉ key) (hnames : NamesQuoted line key) (hne : value ≠ []) :
    quoted line key = value ↔ HasQuoted line key value := by
  constructor
  · intro hread
    cases hcut : cut key line with
    | none => exact absurd (hread.symm.trans (quoted_of_none hcut)) hne
    | some p =>
      obtain ⟨a, rest⟩ := p
      have hline := (cut_eq_some hkey hcut).trans (List.append_assoc a key rest)
      obtain ⟨value', b, rfl, hfree⟩ := hnames.quoted a rest hline
      obtain rfl := hread.symm.trans (quoted_of_cut hkey hquote hfree hcut)
      exact ⟨hfree, a, b, hline⟩
  · rintro ⟨hfree, a, b, hline⟩
    exact quoted_of_cut hkey hquote hfree (cut_of_once hkey hnames.once hline)

/-- And so is one that is not quoted. -/
theorem bareAttr_iff (honce : Once key line) (hne : value ≠ [])
    (hfree : ∀ c ∈ value, isDelimiter c = false) :
    bareAttr line key = value ↔ HasBare line key value := by
  have hread : ∀ {a rest}, cut key line = some (a, rest) →
      bareAttr line key = rest.takeWhile fun b => !isDelimiter b := by
    intro a rest hcut
    rw [bareAttr_eq hkey, after, hcut, Option.map_some, Option.elim_some]
  constructor
  · intro hvalue
    cases hcut : cut key line with
    | none =>
      rw [bareAttr_eq hkey, after, hcut, Option.map_none, Option.elim_none] at hvalue
      exact absurd hvalue.symm hne
    | some p =>
      obtain ⟨a, rest⟩ := p
      have hline := (cut_eq_some hkey hcut).trans (List.append_assoc a key rest)
      rw [← List.takeWhile_append_dropWhile (p := fun b => !isDelimiter b) (l := rest),
        ← hread hcut, hvalue] at hline
      refine ⟨a, rest.dropWhile fun b => !isDelimiter b, hline, fun c hc => ?_⟩
      have hstop := List.head?_dropWhile_not (fun b => !isDelimiter b) rest
      rw [Option.mem_def.mp hc] at hstop
      simpa using hstop
  · rintro ⟨a, b, hline, hstop⟩
    rw [hread (cut_of_once hkey honce hline), List.takeWhile_append_of_pos]
    · cases b with
      | nil => exact List.append_nil value
      | cons c b =>
        rw [List.takeWhile_cons_of_neg, List.append_nil]
        rw [hstop c rfl]
        exact Bool.false_ne_true
    · intro c hc
      rw [hfree c hc]
      rfl

end Attributes

/-! ### The second pass -/

section Emission
variable {chosen : Option Nat} {items : List Item}

theorem not_media_of_variant {inf : Bytes} (htag : streamInfTag <+: inf) : ¬ mediaTag <+: inf := by
  intro hmedia
  rcases List.prefix_or_prefix_of_prefix htag hmedia with h | h
  · exact absurd h (by decide)
  · exact absurd h (by decide)

/-- A blank last line, which leaves no trace. -/
def blankEnd (ls : List Bytes) : List Bytes := if ls.getLast? = some [] then [[]] else []

theorem blankEnd_cons {l : Bytes} {ls : List Bytes} (h : l ≠ [] ∨ ls ≠ []) :
    blankEnd (l :: ls) = blankEnd ls := by
  cases ls with
  | nil =>
    rcases h with h | h
    · rw [blankEnd, List.getLast?_singleton, if_neg fun heq => h (Option.some.inj heq)]
      rfl
    · exact absurd rfl h
  | cons l' ls => rw [blankEnd, List.getLast?_cons_cons, blankEnd]

theorem emit_media {i : Nat} {emitted : Bool} {l : Bytes} {ls : List Bytes}
    (htag : mediaTag <+: l) :
    emit chosen i emitted (l :: ls) =
      (if bareAttr l typeKey = audio ∧ some i = chosen then l ++ [10] else []) ++
        emit chosen (i + 1) emitted ls := by
  have hmedia := List.isPrefixOf_iff_prefix.mpr htag
  cases ls with
  | nil => rw [emit.eq_2, if_pos hmedia]
  | cons l' ls => rw [emit, if_pos hmedia]

theorem emit_variant {i : Nat} {emitted : Bool} {inf uri : Bytes} {ls : List Bytes}
    (htag : streamInfTag <+: inf) :
    emit chosen i emitted (inf :: uri :: ls) =
      (if emitted then [] else inf ++ 10 :: (uri ++ [10])) ++ emit chosen (i + 2) true ls := by
  rw [emit, if_neg, if_pos (List.isPrefixOf_iff_prefix.mpr htag)]
  exact fun hmedia => not_media_of_variant htag (List.isPrefixOf_iff_prefix.mp hmedia)

theorem emit_other {i : Nat} {emitted : Bool} {l : Bytes} {ls : List Bytes}
    (htag : ¬ streamInfTag <+: l ∧ ¬ mediaTag <+: l) :
    emit chosen i emitted (l :: ls) =
      l ++ (if ls = [] then [] else [10]) ++ emit chosen (i + 1) emitted ls := by
  have hinf : ¬ streamInfTag.isPrefixOf l = true := fun h =>
    htag.1 (List.isPrefixOf_iff_prefix.mp h)
  have hmedia : ¬ mediaTag.isPrefixOf l = true := fun h => htag.2 (List.isPrefixOf_iff_prefix.mp h)
  cases ls with
  | nil => rw [emit.eq_2, if_neg hmedia, if_neg hinf]
  | cons l' ls => rw [emit, if_neg hmedia, if_neg hinf]

theorem map_lines_line {l : Bytes} (h : 10 ∉ l) (t : Bytes) :
    (lines (l ++ 10 :: t)).map Prod.fst = l :: (lines t).map Prod.fst := by
  rw [lines_line h, List.map_cons]

theorem reduced_cons (seen : Bool) (item : Item) (items : List Item) :
    reduced seen (item :: items) =
      reduced seen [item] ++ reduced (seen || item.isVariant) items := by
  cases item with
  | variant inf uri htag huri =>
    rw [reduced, reduced, reduced, List.append_nil, Item.isVariant, Bool.or_true]
  | media line htag => rw [reduced, reduced, reduced, Item.isVariant, Bool.or_false]; rfl
  | other line htag => rw [reduced, reduced, reduced, Item.isVariant, Bool.or_false]; rfl

/-- What the second pass makes of one item that it does not keep a rendition of. -/
theorem lines_emit_item (item : Item) (ls : List Bytes) (hlines : ∀ l ∈ item.lines, 10 ∉ l)
    (i : Nat) (emitted : Bool) (hchosen : ∀ k ∈ chosen, k < i ∨ i + item.lines.length ≤ k) :
    (lines (emit chosen i emitted (item.lines ++ ls))).map Prod.fst ++
        blankEnd (item.lines ++ ls) =
      reduced emitted [item] ++
        ((lines (emit chosen (i + item.lines.length) (emitted || item.isVariant) ls)).map
          Prod.fst ++ blankEnd ls) := by
  cases item with
  | variant inf uri htag huri =>
    have hinf : inf ≠ [] := htag.ne_nil (by decide)
    show (lines (emit chosen i emitted (inf :: uri :: ls))).map Prod.fst ++
      blankEnd (inf :: uri :: ls) = _
    rw [emit_variant htag, blankEnd_cons (.inl hinf), blankEnd_cons (.inl huri.1), reduced,
      reduced, List.append_nil, Item.isVariant, Bool.or_true]
    cases emitted with
    | true => rfl
    | false =>
      have hinf' : 10 ∉ inf := hlines inf List.mem_cons_self
      have huri' : 10 ∉ uri := hlines uri (List.mem_cons_of_mem _ List.mem_cons_self)
      rw [if_neg Bool.false_ne_true, if_neg Bool.false_ne_true, List.append_assoc,
        List.cons_append, List.append_assoc, map_lines_line hinf', List.singleton_append,
        map_lines_line huri']
      rfl
  | media line htag =>
    have hline : line ≠ [] := htag.ne_nil (by decide)
    have hskip : ¬ (bareAttr line typeKey = audio ∧ some i = chosen) := by
      rintro ⟨-, hi⟩
      have hk := hchosen i (Option.mem_def.mpr hi.symm)
      simp only [Item.lines, List.length_singleton] at hk
      omega
    show (lines (emit chosen i emitted (line :: ls))).map Prod.fst ++ blankEnd (line :: ls) = _
    rw [emit_media htag, blankEnd_cons (.inl hline), if_neg hskip, reduced, reduced,
      Item.isVariant, Bool.or_false]
    rfl
  | other line htag =>
    have hline : 10 ∉ line := hlines line List.mem_cons_self
    show (lines (emit chosen i emitted (line :: ls))).map Prod.fst ++ blankEnd (line :: ls) = _
    rw [emit_other htag, reduced, reduced, Item.isVariant, Bool.or_false]
    by_cases hlast : ls = []
    · rw [hlast, if_pos rfl, emit]
      by_cases hblank : line = []
      · subst hblank
        rfl
      · rw [blankEnd_cons (.inl hblank), List.append_nil, List.append_nil,
          lines_last hline hblank]
        rfl
    · rw [if_neg hlast, blankEnd_cons (.inr hlast), List.append_assoc, List.singleton_append,
        map_lines_line hline]
      rfl

/-- Where no rendition is kept, the lines are those that the playlist is reduced to. -/
theorem lines_emit (chosen : Option Nat) (items : List Item) (ls : List Bytes)
    (hlines : ∀ l ∈ items.flatMap Item.lines, 10 ∉ l) (i : Nat) (emitted : Bool)
    (hchosen : ∀ k ∈ chosen, k < i ∨ i + (items.flatMap Item.lines).length ≤ k) :
    (lines (emit chosen i emitted (items.flatMap Item.lines ++ ls))).map Prod.fst ++
        blankEnd (items.flatMap Item.lines ++ ls) =
      reduced emitted items ++
        ((lines (emit chosen (i + (items.flatMap Item.lines).length)
          (emitted || items.any Item.isVariant) ls)).map Prod.fst ++ blankEnd ls) := by
  induction items generalizing i emitted with
  | nil => rw [List.any_nil, Bool.or_false]; rfl
  | cons item items ih =>
    rw [List.flatMap_cons] at hlines hchosen ⊢
    rw [List.length_append, ← Nat.add_assoc] at hchosen
    have hitem : ∀ k ∈ chosen, k < i ∨ i + item.lines.length ≤ k :=
      fun k hk => (hchosen k hk).imp_right (by omega)
    have hrest : ∀ k ∈ chosen, k < i + item.lines.length ∨
        i + item.lines.length + (items.flatMap Item.lines).length ≤ k :=
      fun k hk => (hchosen k hk).imp_left (by omega)
    rw [List.append_assoc,
      lines_emit_item item _ (fun l hl => hlines l (List.mem_append_left _ hl)) i emitted hitem,
      ih (fun l hl => hlines l (List.mem_append_right _ hl)) _ _ hrest,
      reduced_cons emitted item items, List.any_cons, List.length_append, Bool.or_assoc,
      List.append_assoc, Nat.add_assoc]

theorem lines_emit_nil (chosen : Option Nat) (i : Nat) (emitted : Bool) :
    (lines (emit chosen i emitted [])).map Prod.fst ++ blankEnd [] = [] := by
  rw [emit]
  rfl

end Emission

/-! ### The first pass -/

section Choice
variable {items : List Item}

theorem find_variant (items : List Item) :
    (items.flatMap Item.lines).find? streamInfTag.isPrefixOf = firstVariant items := by
  induction items with
  | nil => rfl
  | cons item items ih =>
    rw [List.flatMap_cons]
    cases item with
    | variant inf uri htag huri =>
      exact List.find?_cons_of_pos (List.isPrefixOf_iff_prefix.mpr htag)
    | media line htag =>
      refine Eq.trans (List.find?_cons_of_neg fun hinf => ?_) ih
      exact not_media_of_variant (List.isPrefixOf_iff_prefix.mp hinf) htag
    | other line htag =>
      refine Eq.trans (List.find?_cons_of_neg fun hinf => ?_) ih
      exact htag.1 (List.isPrefixOf_iff_prefix.mp hinf)

theorem tag_of_mem_mediaLines {line : Bytes} (h : line ∈ mediaLines items) :
    mediaTag <+: line := by
  induction items with
  | nil => exact absurd h List.not_mem_nil
  | cons item items ih =>
    cases item with
    | variant => exact ih h
    | media line' htag =>
      rcases List.mem_cons.mp h with rfl | h
      · exact htag
      · exact ih h
    | other => exact ih h

theorem tag_of_candidate {group line : Bytes} (h : candidate group line = true) :
    mediaTag <+: line ∧ bareAttr line typeKey = audio := by
  rw [candidate, Bool.and_eq_true, Bool.and_eq_true, decide_eq_true_iff] at h
  exact ⟨List.isPrefixOf_iff_prefix.mp h.1.1, h.1.2⟩

/-- What the first pass takes for candidates are the eligible lines. -/
theorem candidate_iff (hnamed : WellNamed items) {line : Bytes} (hline : line ∈ mediaLines items) :
    candidate (audioGroup (items.flatMap Item.lines)) line = true ↔ Eligible items line := by
  have htype : bareAttr line typeKey = audio ↔ HasBare line typeKey audio :=
    bareAttr_iff (by decide) (hnamed.type line hline) (by decide) (by decide +kernel)
  have hgroup : ∀ value, value ≠ [] →
      (quoted line groupKey = value ↔ HasQuoted line groupKey value) := fun value hne =>
    quoted_iff (by decide) (by decide) (hnamed.group line hline) hne
  have hmedia := List.isPrefixOf_iff_prefix.mpr (tag_of_mem_mediaLines hline)
  rw [candidate, Eligible, hmedia, Bool.true_and, Bool.and_eq_true, decide_eq_true_iff, htype,
    Bool.or_eq_true, decide_eq_true_iff, decide_eq_true_iff]
  refine and_congr_right fun _ => ?_
  rw [audioGroup, find_variant]
  cases hfirst : firstVariant items with
  | none => exact ⟨fun _ inf hinf => absurd hinf (Option.not_mem_none inf), fun _ => .inl rfl⟩
  | some inf =>
    have hread : ∀ value, value ≠ [] →
        (quoted inf audioKey = value ↔ HasQuoted inf audioKey value) := fun value hne =>
      quoted_iff (by decide) (by decide) (hnamed.audio inf hfirst) hne
    dsimp only
    constructor
    · rintro h inf' hinf' group hne hhas
      obtain rfl := Option.some.inj hinf'
      have hread' := (hread group hne).mpr hhas
      rw [hread'] at h
      exact (hgroup group hne).mp (h.resolve_left hne)
    · intro h
      by_cases hne : quoted inf audioKey = []
      · exact .inl hne
      · exact .inr ((hgroup _ hne).mpr (h inf rfl _ hne ((hread _ hne).mp rfl)))

/-- A rendition's line is an item. -/
theorem exists_media {pre post : List Bytes} {line : Bytes}
    (h : items.flatMap Item.lines = pre ++ line :: post) (htag : mediaTag <+: line) :
    ∃ before after, items = before ++ .media line htag :: after ∧
      before.flatMap Item.lines = pre ∧ after.flatMap Item.lines = post := by
  induction items generalizing pre with
  | nil => simp at h
  | cons item items ih =>
    rw [List.flatMap_cons] at h
    cases item with
    | variant inf uri htag' huri =>
      match pre with
      | [] => exact absurd ((List.cons.inj h).1 ▸ htag) (not_media_of_variant htag')
      | [inf'] =>
        have huri' : uri = line := (List.cons.inj (List.cons.inj h).2).1
        exact absurd (huri' ▸ (List.prefix_append [35] _).trans htag) huri.2
      | inf' :: uri' :: pre =>
        have hinf' : inf = inf' := (List.cons.inj h).1
        have huri' : uri = uri' := (List.cons.inj (List.cons.inj h).2).1
        subst hinf' huri'
        obtain ⟨before, after, rfl, rfl, rfl⟩ := ih (List.cons.inj (List.cons.inj h).2).2
        exact ⟨.variant inf uri htag' huri :: before, after, rfl, rfl, rfl⟩
    | media line' htag' =>
      cases pre with
      | nil =>
        have hline : line' = line := (List.cons.inj h).1
        subst hline
        exact ⟨[], items, rfl, rfl, (List.cons.inj h).2⟩
      | cons l pre =>
        have hl : line' = l := (List.cons.inj h).1
        subst hl
        obtain ⟨before, after, rfl, rfl, rfl⟩ := ih (List.cons.inj h).2
        exact ⟨.media line' htag' :: before, after, rfl, rfl, rfl⟩
    | other line' htag' =>
      cases pre with
      | nil => exact absurd ((List.cons.inj h).1 ▸ htag) htag'.2
      | cons l pre =>
        have hl : line' = l := (List.cons.inj h).1
        subst hl
        obtain ⟨before, after, rfl, rfl, rfl⟩ := ih (List.cons.inj h).2
        exact ⟨.other line' htag' :: before, after, rfl, rfl, rfl⟩

theorem mediaLines_append (items more : List Item) :
    mediaLines (items ++ more) = mediaLines items ++ mediaLines more := by
  induction items with
  | nil => rfl
  | cons item items ih =>
    cases item with
    | variant => exact ih
    | media line htag => exact congrArg (line :: ·) ih
    | other => exact ih

theorem mediaLines_sublist (items : List Item) :
    (mediaLines items).Sublist (items.flatMap Item.lines) := by
  induction items with
  | nil => exact List.Sublist.slnil
  | cons item items ih =>
    cases item with
    | variant inf uri => exact (ih.cons uri).cons inf
    | media line => exact ih.cons_cons line
    | other line => exact ih.cons line

end Choice

/-! ### The filter's output -/

section Output
variable {master : Bytes} {items : List Item}

theorem splitLines_free {l : Bytes} (h : l ∈ splitLines master) : 10 ∉ l := by
  obtain ⟨⟨line, ended⟩, hline, rfl⟩ := List.mem_map.mp h
  refine fun hl => not_mem_of_mem_lines hline ?_
  rw [stripCr] at hl
  split at hl
  · exact List.mem_of_mem_dropLast hl
  · exact hl

theorem score_pos (l : Bytes) : 0 < score l := by
  unfold score
  split_ifs <;> decide

/-- The lines that are written, up to a blank at the end: those of the playlist without its
renditions, or with the first of the best among the candidates. -/
theorem filterMaster_lines (hlines : splitLines master = items.flatMap Item.lines) :
    ((∀ l ∈ splitLines master, candidate (audioGroup (splitLines master)) l = false) ∧
        (lines (filterMasterToSingleVariant master)).map Prod.fst ++ blankEnd (splitLines master) =
          reduced false items) ∨
      ∃ before line htag after, items = before ++ .media line htag :: after ∧
        Scan.FirstBest (candidate (audioGroup (splitLines master))) score
          (before.flatMap Item.lines) line (after.flatMap Item.lines) ∧
        (lines (filterMasterToSingleVariant master)).map Prod.fst ++ blankEnd (splitLines master) =
          reduced false before ++ line :: reduced (before.any Item.isVariant) after := by
  have hfree : ∀ l ∈ splitLines master, 10 ∉ l := fun l hl => splitLines_free hl
  rw [filterMasterToSingleVariant, chosenAudio]
  rcases Scan.scan_cases (candidate (audioGroup (splitLines master))) score 0 (splitLines master)
    {score := -1, index := none} with
    ⟨hnone, hscan⟩ | ⟨pre, line, post, hsplit, hbest, -, hscan⟩
  · refine .inl ⟨fun l hl => ?_, ?_⟩
    · by_contra hcandidate
      have hle := hnone l hl (Bool.not_eq_false _ ▸ hcandidate)
      have hpos := score_pos l
      dsimp only at hle
      omega
    · rw [hlines] at hfree
      have hemit := lines_emit none items [] hfree 0 false
        fun k hk => absurd hk (Option.not_mem_none k)
      rw [List.append_nil, lines_emit_nil, List.append_nil] at hemit
      rw [hscan, hlines, hemit]
  · obtain ⟨htag, htype⟩ := tag_of_candidate hbest.holds
    obtain ⟨before, after, hitems, rfl, rfl⟩ := exists_media (hlines.symm.trans hsplit) htag
    have hne : line ≠ [] := htag.ne_nil (by decide)
    rw [hsplit, List.forall_mem_append, List.forall_mem_cons] at hfree
    generalize hk : 0 + (before.flatMap Item.lines).length = k at hscan
    have hbefore := lines_emit (some k) before (line :: after.flatMap Item.lines) hfree.1 0 false
      fun k' hk' => .inr (hk.le.trans_eq (Option.mem_some.mp hk'))
    have hafter := lines_emit (some k) after [] hfree.2.2 (k + 1) (before.any Item.isVariant)
      fun k' hk' => .inl (Nat.lt_succ_of_le (Option.mem_some.mp hk').symm.le)
    rw [List.append_nil, lines_emit_nil, List.append_nil] at hafter
    refine .inr ⟨before, line, htag, after, hitems, hbest, ?_⟩
    rw [hscan, hsplit, hbefore, hk, Bool.false_or, emit_media htag, if_pos ⟨htype, rfl⟩,
      List.append_assoc, List.singleton_append, map_lines_line hfree.2.1, blankEnd_cons (.inl hne),
      List.cons_append, hafter]

/-- The lines that are written are a reduction of the playlist, but for a blank at its end. -/
theorem filterMaster_reduction (hlines : splitLines master = items.flatMap Item.lines)
    (hnamed : WellNamed items) :
    Reduction items ((lines (filterMasterToSingleVariant master)).map Prod.fst ++
      blankEnd (splitLines master)) := by
  rcases filterMaster_lines hlines with
    ⟨hnone, hout⟩ | ⟨before, line, htag, after, hitems, hbest, hout⟩
  · rw [hout]
    rw [hlines] at hnone
    refine .none fun line hline heligible => ?_
    have hcandidate := (candidate_iff hnamed hline).mpr heligible
    rw [hnone line ((mediaLines_sublist items).subset hline)] at hcandidate
    exact absurd hcandidate Bool.false_ne_true
  · have hline : line ∈ mediaLines items := by
      rw [hitems, mediaLines_append]
      exact List.mem_append_right _ List.mem_cons_self
    have hcandidate := hbest.holds
    rw [hlines] at hcandidate
    rw [hout]
    exact .kept hitems ((candidate_iff hnamed hline).mp hcandidate)

/-- Neither variants nor renditions are blank lines. -/
theorem count_reduced (items : List Item) (seen : Bool) :
    (reduced seen items).count [] = (items.flatMap Item.lines).count [] := by
  induction items generalizing seen with
  | nil => rfl
  | cons item items ih =>
    rw [List.flatMap_cons, List.count_append, ← ih (seen || item.isVariant)]
    cases item with
    | variant inf uri htag huri =>
      have hinf : inf ≠ [] := htag.ne_nil (by decide)
      have hnone : [inf, uri].count [] = 0 := by
        rw [List.count_cons_of_ne hinf, List.count_cons_of_ne huri.1, List.count_nil]
      rw [reduced, List.count_append, Item.lines, hnone, Item.isVariant, Bool.or_true]
      cases seen with
      | true => rfl
      | false => exact congrArg (· + _) hnone
    | media line htag =>
      have hline : line ≠ [] := htag.ne_nil (by decide)
      rw [reduced, Item.lines, List.count_cons_of_ne hline, List.count_nil, Nat.zero_add,
        Item.isVariant, Bool.or_false]
    | other line htag =>
      rw [reduced, Item.lines, Item.isVariant, Bool.or_false, ← List.singleton_append,
        List.count_append]

theorem count_reduction {out : List Bytes} (h : Reduction items out) :
    out.count [] = (items.flatMap Item.lines).count [] := by
  cases h with
  | @kept pre post line htag hitems heligible =>
    have hline : line ≠ [] := htag.ne_nil (by decide)
    rw [hitems, List.flatMap_append, List.flatMap_cons, Item.lines, List.singleton_append,
      List.count_append, List.count_append, List.count_cons_of_ne hline,
      List.count_cons_of_ne hline, count_reduced, count_reduced]
  | none => exact count_reduced items false

/-- A blank last line is lost. -/
theorem not_reduction_of_blank (hlines : splitLines master = items.flatMap Item.lines)
    (hnamed : WellNamed items) (hblank : (splitLines master).getLast? = some []) :
    ¬ Reduction items ((lines (filterMasterToSingleVariant master)).map Prod.fst) := by
  intro hreduction
  have hwritten := count_reduction (filterMaster_reduction hlines hnamed)
  rw [blankEnd, if_pos hblank, List.count_append, count_reduction hreduction] at hwritten
  exact absurd hwritten (Nat.succ_ne_self _)

/-- What the filter writes is the reduction of a playlist if and only if the last line of
the playlist is not blank. -/
theorem filterMaster_reduces_iff (master : Bytes) (items : List Item)
    (hlines : splitLines master = items.flatMap Item.lines) (hnamed : WellNamed items) :
    Reduction items ((lines (filterMasterToSingleVariant master)).map Prod.fst) ↔
      (splitLines master).getLast? ≠ some [] := by
  constructor
  · exact fun h hblank => not_reduction_of_blank hlines hnamed hblank h
  · intro hblank
    have hwritten := filterMaster_reduction hlines hnamed
    rwa [blankEnd, if_neg hblank, List.append_nil] at hwritten

theorem isUri_u : bytes "u" ≠ [] ∧ ¬ [35] <+: bytes "u" := by decide

/-- A rendition's line of these examples. -/
def renditionLine (type group : Bytes) : Bytes :=
  bytes "#EXT-X-MEDIA:TYPE=" ++ type ++ bytes ",GROUP-ID=\"" ++ group ++ bytes "\""

/-- A master playlist with subtitles, two audio groups and a variant for each of them. -/
def twoGroups : List Item :=
  [.other (bytes "#EXTM3U") (by decide),
    .media (renditionLine (bytes "SUBTITLES") (bytes "s")) (by decide),
    .media (renditionLine audio (bytes "b")) (by decide),
    .media (renditionLine audio (bytes "a")) (by decide),
    .variant (bytes "#EXT-X-STREAM-INF:AUDIO=\"a\"") (bytes "u") (by decide) isUri_u,
    .variant (bytes "#EXT-X-STREAM-INF:AUDIO=\"b\"") (bytes "v") (by decide) (by decide)]

def twoGroupsText : Bytes := bytes "#EXTM3U\r\n" ++
  (renditionLine (bytes "SUBTITLES") (bytes "s") ++ 10 :: (renditionLine audio (bytes "b") ++
    10 :: (renditionLine audio (bytes "a") ++ bytes
      "\n#EXT-X-STREAM-INF:AUDIO=\"a\"\nu\n#EXT-X-STREAM-INF:AUDIO=\"b\"\nv\n")))

theorem twoGroups_wellNamed : WellNamed twoGroups where
  type line hline := by
    have hlines : ∀ line ∈ mediaLines twoGroups, ∃ p, cut typeKey line = some p ∧
        cut typeKey (typeKey ++ p.2).tail = none := by
      simp only [twoGroups, mediaLines, List.forall_mem_cons]
      exact ⟨⟨_, rfl, rfl⟩, ⟨_, rfl, rfl⟩, ⟨_, rfl, rfl⟩, fun _ h => absurd h List.not_mem_nil⟩
    obtain ⟨⟨x, y⟩, hcut, hagain⟩ := hlines line hline
    intro x₁ y₁ x₂ y₂ h₁ h₂
    exact once_of_cut (by decide) hcut hagain h₁ h₂
  group line hline := by
    have hlines : ∀ line ∈ mediaLines twoGroups, ∃ value, HasQuoted line groupKey value ∧
        ∃ p, cut groupKey line = some p ∧ cut groupKey (groupKey ++ p.2).tail = none := by
      simp only [twoGroups, mediaLines, List.forall_mem_cons]
      exact ⟨⟨bytes "s", ⟨by decide, bytes "#EXT-X-MEDIA:TYPE=SUBTITLES,", [], rfl⟩, _, rfl, rfl⟩,
        ⟨bytes "b", ⟨by decide, bytes "#EXT-X-MEDIA:TYPE=AUDIO,", [], rfl⟩, _, rfl, rfl⟩,
        ⟨bytes "a", ⟨by decide, bytes "#EXT-X-MEDIA:TYPE=AUDIO,", [], rfl⟩, _, rfl, rfl⟩,
        fun _ h => absurd h List.not_mem_nil⟩
    obtain ⟨value, hgroup, ⟨x, y⟩, hcut, hagain⟩ := hlines line hline
    exact namesQuoted_of_has (once_of_cut (by decide) hcut hagain) hgroup
  audio inf hinf := by
    obtain rfl := Option.mem_some.mp hinf
    have hgroup : HasQuoted (bytes "#EXT-X-STREAM-INF:AUDIO=\"a\"") audioKey (bytes "a") :=
      ⟨by decide, bytes "#EXT-X-STREAM-INF:", [], rfl⟩
    exact namesQuoted_of_has (once_of_cut (by decide) rfl rfl) hgroup

/-- The subtitles, the group of the second variant and that variant go. -/
theorem filterMaster_reduces_iff_twoGroups :
    Reduction twoGroups ((lines (filterMasterToSingleVariant twoGroupsText)).map Prod.fst) ∧
      (lines (filterMasterToSingleVariant twoGroupsText)).map Prod.fst =
        [bytes "#EXTM3U", renditionLine audio (bytes "a"),
          bytes "#EXT-X-STREAM-INF:AUDIO=\"a\"", bytes "u"] :=
  ⟨(filterMaster_reduces_iff twoGroupsText twoGroups (by decide) twoGroups_wellNamed).mpr
    (by decide), by decide⟩

/-- A header and a blank line come out as the header alone. -/
theorem blank_line_lost :
    ¬ ∀ (master : Bytes) (items : List Item), splitLines master = items.flatMap Item.lines →
      WellNamed items →
      Reduction items ((lines (filterMasterToSingleVariant master)).map Prod.fst) := by
  intro h
  have hnamed : WellNamed [.other (bytes "#EXTM3U") (by decide), .other [] (by decide)] :=
    {type := fun _ h => absurd h List.not_mem_nil, group := fun _ h => absurd h List.not_mem_nil
     audio := fun _ h => absurd h (Option.not_mem_none _)}
  have hlines : splitLines (bytes "#EXTM3U\n\n") = List.flatMap Item.lines
      [.other (bytes "#EXTM3U") (by decide), .other [] (by decide)] := by decide
  exact not_reduction_of_blank hlines hnamed (by decide) (h _ _ hlines hnamed)

end Output

end AirPlay.Hls
