import AirPlay.Library.Attributes
import AirPlay.Hls.Master

/-! Which audio rendition is kept.

The filter is to prefer French, then the default, then what may be selected automatically,
then anything, and the first of equals. It searches the lines for names, and reads `DEFAULT`
and `AUTOSELECT` as if they were quoted: what it takes for their value is the next quoted
string of the line. It keeps the preferred rendition exactly where no other is ahead of it
by these strings, which on plain lines is where it speaks French or is the first of its
group (`keeps_preferred_iff`). -/
namespace AirPlay.Hls
open Bytes Attributes Rtsp

/-! ### Renditions -/

/-- The attributes of a rendition: enumerated strings stand as they are, strings are
quoted. -/
structure Rendition extends AttributeList where
  henumerated : ∀ a ∈ attributes, a.name ∈ [bytes "TYPE", bytes "DEFAULT", bytes "AUTOSELECT"] →
    a.value.isQuoted = false
  hstrings : ∀ a ∈ attributes,
    a.name ∈ [bytes "LANGUAGE", bytes "NAME", bytes "GROUP-ID", bytes "URI"] →
    a.value.isQuoted = true

namespace Rendition

/-- The rendition's line. -/
def text (r : Rendition) : Bytes := mediaTag ++ r.toAttributeList.text

def enumerated (r : Rendition) (name : Bytes) : Option Bytes := bareValue r.attributes name

def string (r : Rendition) (name : Bytes) : Option Bytes := quotedValue r.attributes name

def speaksFrench (r : Rendition) : Bool :=
  isFrench (toLower ((r.string (bytes "LANGUAGE")).getD []))
    (toLower ((r.string (bytes "NAME")).getD []))

def isDefault (r : Rendition) : Bool := r.enumerated (bytes "DEFAULT") = some (bytes "YES")

def isAutoselect (r : Rendition) : Bool := r.enumerated (bytes "AUTOSELECT") = some (bytes "YES")

/-- French before the default, before what may be selected automatically, before anything. -/
def rank (r : Rendition) : Int :=
  if r.speaksFrench then 3 else if r.isDefault then 2 else if r.isAutoselect then 1 else 0

/-- An audio rendition, of the group if one is named. -/
def eligible (group : Option Bytes) (r : Rendition) : Bool :=
  r.enumerated (bytes "TYPE") = some audio && (group = none || r.string (bytes "GROUP-ID") = group)

/-- The next quoted string behind a name: what is read for a string, and for what is not
quoted as well. -/
def readString (r : Rendition) (name : Bytes) : Bytes :=
  (search name r.attributes).elim [] Found.quoted

/-- What stands behind a name, up to a comma or a blank. -/
def readEnumerated (r : Rendition) (name : Bytes) : Bytes :=
  (search name r.attributes).elim [] fun f => f.text.takeWhile fun b => !isDelimiter b

def readsFrench (r : Rendition) : Bool :=
  isFrench (toLower (r.readString (bytes "LANGUAGE"))) (toLower (r.readString (bytes "NAME")))

def readsDefault (r : Rendition) : Bool := isYes (r.readString (bytes "DEFAULT"))

def readsAutoselect (r : Rendition) : Bool := isYes (r.readString (bytes "AUTOSELECT"))

/-- An audio rendition of the group, or of any if that is empty, by what stands behind the
names. -/
def readsEligible (group : Bytes) (r : Rendition) : Bool :=
  r.readEnumerated (bytes "TYPE") = audio &&
    (group = [] || r.readString (bytes "GROUP-ID") = group)

/-- By what stands behind the names, one rendition is French and the other is not, or they
are alike in this and it is the default, or also in that and it is selected automatically. -/
def Ahead (r r' : Rendition) : Prop :=
  (r.readsFrench = true ∧ r'.readsFrench = false) ∨
    (r.readsFrench = r'.readsFrench ∧
      ((r.readsDefault = true ∧ r'.readsDefault = false) ∨
        (r.readsDefault = r'.readsDefault ∧ r.readsAutoselect = true ∧
          r'.readsAutoselect = false)))

instance (r r' : Rendition) : Decidable (r.Ahead r') := inferInstanceAs (Decidable (_ ∨ _))

theorem rank_le_french {r : Rendition} (h : r.speaksFrench = true) (r' : Rendition) :
    r'.rank ≤ r.rank := by
  rw [rank, rank, if_pos h]
  split_ifs <;> decide

theorem rank_lt_french {r r' : Rendition} (h : r.speaksFrench = true)
    (h' : r'.speaksFrench = false) : r'.rank < r.rank := by
  rw [rank, rank, if_pos h, if_neg (by rw [h']; exact Bool.false_ne_true)]
  split_ifs <;> decide

theorem text_injective {r r' : Rendition} (h : r.text = r'.text) : r = r' := by
  have hattributes := Attributes.text_injective r.hvalid r'.hvalid (List.append_cancel_left h)
  obtain ⟨⟨as, _, _⟩, _, _⟩ := r
  obtain ⟨⟨as', _, _⟩, _, _⟩ := r'
  dsimp only at hattributes
  subst hattributes
  rfl

end Rendition

/-- A master playlist by what its first variant and its renditions say. -/
structure Playlist where
  items : List Item
  variant : Option AttributeList
  renditions : List Rendition
  hvariant : firstVariant items = variant.map fun v => streamInfTag ++ v.text
  hmedia : mediaLines items = renditions.map Rendition.text

namespace Playlist

/-- The audio group of the first variant. -/
def group (p : Playlist) : Option Bytes := p.variant.bind fun v => quotedValue v.attributes audio

/-- The next quoted string behind `AUDIO=` in the first variant. -/
def readGroup (p : Playlist) : Bytes :=
  (p.variant.bind fun v => search audio v.attributes).elim [] Found.quoted

/-- The attributes that are searched for are not mentioned elsewhere, no string is a yes,
and the first variant names its group between quotes. -/
structure Plain (p : Playlist) : Prop where
  clear : ∀ r ∈ p.renditions, ∀ name ∈ [bytes "TYPE", bytes "LANGUAGE", bytes "NAME",
    bytes "GROUP-ID", bytes "DEFAULT", bytes "AUTOSELECT"], Attributes.Clear name r.attributes
  strings : ∀ r ∈ p.renditions, ∀ a ∈ r.attributes, a.value.isQuoted = true →
    isYes a.value.content = false
  variant : ∀ v ∈ p.variant, Attributes.Clear audio v.attributes ∧
    ∀ a ∈ v.attributes, a.name = audio → a.value.isQuoted = true ∧ a.value.content ≠ []

end Playlist

/-- The rendition that is to be kept: the first of the best class, if there is one. -/
inductive Preferred (p : Playlist) : List Bytes → Prop
  | first {pre post : List Rendition} {r : Rendition} (hsplit : p.renditions = pre ++ r :: post)
      (hbest : Scan.FirstBest (Rendition.eligible p.group) Rendition.rank pre r post) :
      Preferred p [r.text]
  | none (hnone : ∀ r ∈ p.renditions, r.eligible p.group = false) : Preferred p []

/-- By what stands behind the names, the rendition is eligible and ahead of the eligible ones
before it, and none behind it is ahead. -/
structure ReadAhead (group : Bytes) (pre : List Rendition) (r : Rendition) (post : List Rendition) :
    Prop where
  holds : r.readsEligible group = true
  before : ∀ r' ∈ pre, r'.readsEligible group = true → r.Ahead r'
  after : ∀ r' ∈ post, r'.readsEligible group = true → ¬ r'.Ahead r

/-- The preferred rendition stands so among the others; where there is none, none is eligible
by what stands behind the names. -/
structure ReadInOrder (p : Playlist) : Prop where
  first : ∀ {pre r post}, p.renditions = pre ++ r :: post →
    Scan.FirstBest (Rendition.eligible p.group) Rendition.rank pre r post →
    ReadAhead p.readGroup pre r post
  none : (∀ r ∈ p.renditions, r.eligible p.group = false) →
    ∀ r ∈ p.renditions, r.readsEligible p.readGroup = false

/-- The preferred rendition speaks French, or none of its group stands before it. -/
def FrenchOrFirst (p : Playlist) : Prop :=
  ∀ {pre r post}, p.renditions = pre ++ r :: post →
    Scan.FirstBest (Rendition.eligible p.group) Rendition.rank pre r post →
    r.speaksFrench = true ∨ ∀ r' ∈ pre, r'.eligible p.group = false

/-- The renditions' lines that the filter writes. -/
def writtenMedia (master : Bytes) : List Bytes :=
  ((lines (filterMasterToSingleVariant master)).map Prod.fst).filter mediaTag.isPrefixOf

/-! ### What is read -/

/-- Nothing is found in a tag. -/
theorem after_tag {name tag : Bytes} (hname : ∀ b ∈ name, isNameByte b = true) (htag : 61 ∉ tag)
    (as : AttributeList) :
    after (name ++ [61]) (tag ++ 58 :: as.text) = (search name as.attributes).map Found.text := by
  have hne : name ++ [61] ≠ [] := by simp
  rw [after_separated hne (key_free hname (by decide) (by decide))
    (after_of_not_mem hne (List.mem_append_right name List.mem_cons_self) htag), AttributeList.text,
    after_text hname as.hvalid]

theorem quoted_tag {name tag : Bytes} (hname : ∀ b ∈ name, isNameByte b = true) (htag : 61 ∉ tag)
    (as : AttributeList) : quoted (tag ++ 58 :: as.text) (name ++ [61]) =
      (search name as.attributes).elim [] Found.quoted := by
  rw [quoted_eq (by simp) (key_free hname (by decide) (by decide)), after_tag hname htag,
    ← enclosed_search hname as.hvalid, after_text hname as.hvalid]

namespace Rendition

theorem text_eq (r : Rendition) :
    r.text = bytes "#EXT-X-MEDIA" ++ 58 :: r.toAttributeList.text := by
  rw [text, List.append_cons]
  rfl

theorem quoted_text (r : Rendition) {name : Bytes} (hname : ∀ b ∈ name, isNameByte b = true) :
    quoted r.text (name ++ [61]) = r.readString name := by
  rw [text_eq, quoted_tag hname (by decide), readString]

theorem candidate_text (r : Rendition) (group : Bytes) :
    candidate group r.text = r.readsEligible group := by
  have htag : mediaTag.isPrefixOf r.text = true :=
    List.isPrefixOf_iff_prefix.mpr (List.prefix_append mediaTag _)
  have htype : bareAttr r.text typeKey = r.readEnumerated (bytes "TYPE") := by
    have hkey : typeKey = bytes "TYPE" ++ [61] := by decide
    have hname : ∀ b ∈ bytes "TYPE", isNameByte b = true := by decide +kernel
    rw [hkey, bareAttr_eq (by simp), text_eq, after_tag hname (by decide), readEnumerated,
      Option.elim_map]
    rfl
  have hgroup : quoted r.text groupKey = r.readString (bytes "GROUP-ID") := by
    have hkey : groupKey = bytes "GROUP-ID" ++ [61] := by decide
    rw [hkey, r.quoted_text (by decide +kernel)]
  rw [candidate, htag, htype, hgroup, readsEligible, Bool.true_and]

theorem score_text (r : Rendition) :
    score r.text = 1 + (if r.readsAutoselect then 10 else 0) + (if r.readsDefault then 20 else 0) +
      (if r.readsFrench then 100 else 0) := by
  have hstring : ∀ name key, name.all isNameByte = true → key = name ++ [61] →
      quoted r.text key = r.readString name := by
    rintro name _ hname rfl
    exact r.quoted_text (List.all_eq_true.mp hname)
  have hautoselect := hstring (bytes "AUTOSELECT") (bytes "AUTOSELECT=") (by decide) (by decide)
  have hdefault := hstring (bytes "DEFAULT") (bytes "DEFAULT=") (by decide) (by decide)
  have hlanguage := hstring (bytes "LANGUAGE") (bytes "LANGUAGE=") (by decide) (by decide)
  have hname := hstring (bytes "NAME") (bytes "NAME=") (by decide) (by decide)
  rw [score, looksFrench, hautoselect, hdefault, hlanguage, hname, readsAutoselect, readsDefault,
    readsFrench]

def readScore (r : Rendition) : Int := score r.text

/-- The scores are ordered by French first, then the default, then automatic selection. -/
theorem readScore_lt_iff (r r' : Rendition) : r'.readScore < r.readScore ↔ r.Ahead r' := by
  rw [readScore, readScore, score_text, score_text, Ahead]
  cases r.readsFrench <;> cases r'.readsFrench <;> cases r.readsDefault <;>
    cases r'.readsDefault <;> cases r.readsAutoselect <;> cases r'.readsAutoselect <;> simp

theorem firstBest_iff {group : Bytes} {pre post : List Rendition} {r : Rendition} :
    Scan.FirstBest (readsEligible group) readScore pre r post ↔ ReadAhead group pre r post := by
  constructor
  · intro h
    refine
      { holds := h.holds
        before := fun r' hr' heligible => ?_
        after := fun r' hr' heligible => ?_ }
    · exact (readScore_lt_iff r r').mp (h.before r' hr' heligible)
    · exact fun hahead =>
        not_le.mpr ((readScore_lt_iff r' r).mpr hahead) (h.after r' hr' heligible)
  · intro h
    refine
      { holds := h.holds
        before := fun r' hr' heligible => ?_
        after := fun r' hr' heligible => ?_ }
    · exact (readScore_lt_iff r r').mpr (h.before r' hr' heligible)
    · exact not_lt.mp fun hlt => h.after r' hr' heligible ((readScore_lt_iff r' r).mp hlt)

end Rendition

/-! ### What is written -/

section Written
variable {p : Playlist} {master : Bytes}

theorem filter_reduced (items : List Item) (seen : Bool) :
    (reduced seen items).filter mediaTag.isPrefixOf = [] := by
  induction items generalizing seen with
  | nil => rfl
  | cons item items ih =>
    cases item with
    | variant inf uri htag huri =>
      have hinf : ¬ mediaTag.isPrefixOf inf = true := fun h =>
        not_media_of_variant htag (List.isPrefixOf_iff_prefix.mp h)
      have huri' : ¬ mediaTag.isPrefixOf uri = true := fun h =>
        huri.2 ((List.prefix_append [35] _).trans (List.isPrefixOf_iff_prefix.mp h))
      rw [reduced, List.filter_append, ih, List.append_nil]
      cases seen with
      | true => rfl
      | false =>
        rw [if_neg Bool.false_ne_true, List.filter_cons_of_neg hinf, List.filter_cons_of_neg huri']
        rfl
    | media => exact ih seen
    | other line htag =>
      rw [reduced, List.filter_cons_of_neg, ih]
      exact fun h => htag.2 (List.isPrefixOf_iff_prefix.mp h)

theorem filter_blankEnd (ls : List Bytes) : (blankEnd ls).filter mediaTag.isPrefixOf = [] := by
  rw [blankEnd]
  split
  · rfl
  · rfl

theorem readGroup_eq (hlines : splitLines master = p.items.flatMap Item.lines) :
    audioGroup (splitLines master) = p.readGroup := by
  rw [audioGroup, hlines, find_variant, p.hvariant, Playlist.readGroup]
  cases p.variant with
  | none => rfl
  | some v =>
    have hname : ∀ b ∈ audio, isNameByte b = true := by decide +kernel
    have htag : 61 ∉ bytes "#EXT-X-STREAM-INF" := by decide
    exact quoted_tag hname htag v

/-- The rendition that is written is the first of the best as the lines are read. -/
theorem written_cases (hlines : splitLines master = p.items.flatMap Item.lines) :
    ((∀ r ∈ p.renditions, r.readsEligible p.readGroup = false) ∧ writtenMedia master = []) ∨
      ∃ pre r post, p.renditions = pre ++ r :: post ∧
        Scan.FirstBest (Rendition.readsEligible p.readGroup) Rendition.readScore pre r post ∧
        writtenMedia master = [r.text] := by
  have hwritten : writtenMedia master = (((lines (filterMasterToSingleVariant master)).map
      Prod.fst) ++ blankEnd (splitLines master)).filter mediaTag.isPrefixOf := by
    rw [List.filter_append, filter_blankEnd, List.append_nil, writtenMedia]
  have hcases := filterMaster_lines hlines
  rw [readGroup_eq hlines] at hcases
  rcases hcases with ⟨hnone, hout⟩ | ⟨before, line, htag, after, hitems, hbest, hout⟩
  · rw [hwritten, hout, filter_reduced]
    refine .inl ⟨fun r hr => (r.candidate_text _).symm.trans (hnone r.text ?_), rfl⟩
    rw [hlines]
    exact (mediaLines_sublist p.items).subset (p.hmedia ▸ List.mem_map_of_mem hr)
  · have hmedia : p.renditions.map Rendition.text =
        mediaLines before ++ line :: mediaLines after := by
      rw [← p.hmedia, hitems, mediaLines_append]
      rfl
    obtain ⟨pre, rest, hrenditions, hpre, hrest⟩ := List.map_eq_append_iff.mp hmedia
    obtain ⟨r, post, rfl, rfl, hpost⟩ := List.map_eq_cons_iff.mp hrest
    refine .inr ⟨pre, r, post, hrenditions, ?_, ?_⟩
    · have hread : ∀ x : Rendition, x.readsEligible p.readGroup = true →
          candidate p.readGroup x.text = true := fun x h => (x.candidate_text _).trans h
      refine
        { holds := (r.candidate_text _).symm.trans hbest.holds
          before := fun x hx heligible => ?_
          after := fun x hx heligible => ?_ }
      · refine hbest.before x.text ((mediaLines_sublist before).subset ?_) (hread x heligible)
        exact hpre ▸ List.mem_map_of_mem hx
      · refine hbest.after x.text ((mediaLines_sublist after).subset ?_) (hread x heligible)
        exact hpost ▸ List.mem_map_of_mem hx
    · rw [hwritten, hout, List.filter_append, filter_reduced, List.filter_cons_of_pos,
        filter_reduced]
      · rfl
      · exact List.isPrefixOf_iff_prefix.mpr htag

/-- There is a rendition to be kept, or none is eligible. -/
theorem preferred_cases (p : Playlist) :
    (∀ r ∈ p.renditions, r.eligible p.group = false) ∨
      ∃ pre r post, p.renditions = pre ++ r :: post ∧
        Scan.FirstBest (Rendition.eligible p.group) Rendition.rank pre r post := by
  have hrank : ∀ r : Rendition, 0 ≤ r.rank := by
    intro r
    unfold Rendition.rank
    split_ifs <;> decide
  rcases Scan.scan_cases (Rendition.eligible p.group) Rendition.rank 0 p.renditions
    {score := -1, index := none} with ⟨hnone, -⟩ | ⟨pre, r, post, hsplit, hbest, -, -⟩
  · refine .inl fun r hr => ?_
    by_contra heligible
    have hle := hnone r hr (Bool.not_eq_false _ ▸ heligible)
    have hpos := hrank r
    dsimp only at hle
    omega
  · exact .inr ⟨pre, r, post, hsplit, hbest⟩

theorem readInOrder_of_preferred (hlines : splitLines master = p.items.flatMap Item.lines)
    (hpreferred : Preferred p (writtenMedia master)) : ReadInOrder p := by
  rcases written_cases hlines with ⟨hnone, hwritten⟩ | ⟨pre, r, post, hsplit, hread, hwritten⟩
  · rw [hwritten] at hpreferred
    cases hpreferred with
    | none hnone' =>
      refine {first := fun {pre r post} hsplit hbest => ?_, none := fun _ => hnone}
      have hr := hnone' r (by rw [hsplit]; simp)
      exact absurd (hr.symm.trans hbest.holds) Bool.false_ne_true
  · rw [hwritten] at hpreferred
    generalize hout : [r.text] = out at hpreferred
    cases hpreferred with
    | @first pre' post' r' hsplit' hbest =>
      obtain rfl := Rendition.text_injective (List.cons.inj hout).1
      obtain ⟨rfl, rfl⟩ :=
        eq_of_append_cons hread.not_mem hbest.not_mem (hsplit.symm.trans hsplit')
      refine {first := fun {pre₁ r₁ post₁} hsplit₁ hbest₁ => ?_, none := fun hnone => ?_}
      · obtain ⟨rfl, rfl, rfl⟩ := hbest.unique hbest₁ (hsplit.symm.trans hsplit₁)
        exact Rendition.firstBest_iff.mp hread
      · have hr := hnone r (by rw [hsplit]; simp)
        exact absurd (hr.symm.trans hbest.holds) Bool.false_ne_true
    | none => exact absurd hout (List.cons_ne_nil _ _)

theorem preferred_of_readInOrder (hlines : splitLines master = p.items.flatMap Item.lines)
    (horder : ReadInOrder p) : Preferred p (writtenMedia master) := by
  rcases preferred_cases p with hnone | ⟨pre, r, post, hsplit, hbest⟩
  · rcases written_cases hlines with ⟨-, hwritten⟩ | ⟨pre, r, post, hsplit, hread, -⟩
    · exact hwritten ▸ .none hnone
    · have hr := horder.none hnone r (by rw [hsplit]; simp)
      exact absurd (hr.symm.trans hread.holds) Bool.false_ne_true
  · have hread := Rendition.firstBest_iff.mpr (horder.first hsplit hbest)
    rcases written_cases hlines with ⟨hnone, -⟩ | ⟨pre', r', post', hsplit', hread', hwritten⟩
    · have hr := hnone r (by rw [hsplit]; simp)
      exact absurd (hr.symm.trans hread.holds) Bool.false_ne_true
    · obtain ⟨-, rfl, -⟩ := hread.unique hread' (hsplit.symm.trans hsplit')
      exact hwritten ▸ .first hsplit hbest

end Written

/-! ### Plain lines -/

/-- A value that is not quoted is read up to the comma behind it. -/
theorem takeWhile_more {v : Bytes} (h : (Value.bare v).valid = true) (as : List Attribute) :
    (v ++ more as).takeWhile (fun b => !isDelimiter b) = v := by
  have hword : ∀ b ∈ v, (!isDelimiter b) = true := by
    intro b hb
    have hvalid := List.all_eq_true.mp (Bool.and_eq_true_iff.mp h).2 b hb
    by_contra hdelimiter
    have hcases : b = 44 ∨ b = 13 ∨ b = 10 ∨ b = 32 := by
      rw [Bool.not_eq_true, Bool.not_eq_false'] at hdelimiter
      simpa only [isDelimiter, Bool.or_eq_true, decide_eq_true_iff, or_assoc] using hdelimiter
    rcases hcases with rfl | rfl | rfl | rfl <;> exact absurd hvalid (by decide)
  rw [List.takeWhile_append_of_pos hword]
  rcases more_cases as with hmore | ⟨s, hmore⟩
  · rw [hmore, List.takeWhile_nil, List.append_nil]
  · rw [hmore, List.takeWhile_cons_of_neg (by decide), List.append_nil]

theorem readGroup_plain {p : Playlist} (hplain : p.Plain) :
    p.readGroup = p.group.getD [] ∧ p.group ≠ some [] := by
  rw [Playlist.readGroup, Playlist.group]
  cases hvariant : p.variant with
  | none => exact ⟨rfl, (Option.some_ne_none _).symm⟩
  | some v =>
    obtain ⟨hclear, hquoted⟩ := hplain.variant v hvariant
    rw [Option.bind_some, Option.bind_some, quotedValue]
    rcases search_clear hclear with ⟨hvalue, hsearch⟩ | ⟨w, behind, hvalue, hsearch, -⟩
    · rw [hvalue, hsearch]
      exact ⟨rfl, (Option.some_ne_none _).symm⟩
    · obtain ⟨a, ha, hname, rfl⟩ := value_mem hvalue
      obtain ⟨hisQuoted, hne⟩ := hquoted a ha hname
      rw [hvalue, hsearch]
      cases hv : a.value with
      | bare w =>
        exact absurd ((congrArg Value.isQuoted hv).symm.trans hisQuoted) Bool.false_ne_true
      | quoted w =>
        rw [hv] at hne
        exact ⟨rfl, fun h => hne (Option.some.inj h)⟩

section PlainLines
variable {p : Playlist} (hplain : p.Plain) {r : Rendition} (hr : r ∈ p.renditions)
include hplain hr

/-- A string is read as it stands. -/
theorem readString_string {name : Bytes}
    (hname : name ∈ [bytes "LANGUAGE", bytes "NAME", bytes "GROUP-ID"]) :
    r.readString name = (r.string name).getD [] := by
  have hstring : name ∈ [bytes "LANGUAGE", bytes "NAME", bytes "GROUP-ID", bytes "URI"] :=
    List.mem_append_left [bytes "URI"] hname
  have hclear : Attributes.Clear name r.attributes := by
    refine hplain.clear r hr name ?_
    simp only [List.mem_cons, List.not_mem_nil, or_false] at hname ⊢
    tauto
  rw [Rendition.readString, Rendition.string, quotedValue]
  rcases search_clear hclear with ⟨hvalue, hsearch⟩ | ⟨v, behind, hvalue, hsearch, -⟩
  · rw [hvalue, hsearch]
    rfl
  · obtain ⟨a, ha, rfl, rfl⟩ := value_mem hvalue
    have hquoted := r.hstrings a ha hstring
    rw [hvalue, hsearch]
    cases hv : a.value with
    | bare v => exact absurd ((congrArg Value.isQuoted hv).symm.trans hquoted) Bool.false_ne_true
    | quoted v => rfl

/-- An enumerated string is not read, and what is read for it is no yes. -/
theorem readString_enumerated {name : Bytes}
    (hname : name ∈ [bytes "DEFAULT", bytes "AUTOSELECT"]) : isYes (r.readString name) = false := by
  have hclear : Attributes.Clear name r.attributes := by
    refine hplain.clear r hr name ?_
    simp only [List.mem_cons, List.not_mem_nil, or_false] at hname ⊢
    tauto
  rw [Rendition.readString]
  rcases search_clear hclear with ⟨-, hsearch⟩ | ⟨v, behind, hvalue, hsearch, hbehind⟩
  · rw [hsearch]
    rfl
  · obtain ⟨a, ha, rfl, rfl⟩ := value_mem hvalue
    have hbare := r.henumerated a ha (List.mem_cons_of_mem _ hname)
    rw [hsearch, Option.elim_some]
    cases hv : a.value with
    | quoted v =>
      exact absurd ((congrArg Value.isQuoted hv).symm.trans hbare).symm Bool.false_ne_true
    | bare v =>
      rw [Found.quoted]
      cases hnext : nextQuoted behind with
      | none => rfl
      | some q =>
        obtain ⟨b, hb, hquoted⟩ := nextQuoted_mem hnext
        have hno := hplain.strings r hr b (hbehind.subset hb) (congrArg Value.isQuoted hquoted)
        exact (congrArg (isYes ∘ Value.content) hquoted).symm.trans hno

theorem readEnumerated_type : r.readEnumerated (bytes "TYPE") = audio ↔
    r.enumerated (bytes "TYPE") = some audio := by
  have hclear : Attributes.Clear (bytes "TYPE") r.attributes :=
    hplain.clear r hr _ List.mem_cons_self
  rw [Rendition.readEnumerated, Rendition.enumerated, bareValue]
  rcases search_clear hclear with ⟨hvalue, hsearch⟩ | ⟨v, behind, hvalue, hsearch, -⟩
  · rw [hvalue, hsearch]
    exact ⟨fun h => absurd h (by decide), fun h => absurd h (Option.some_ne_none _).symm⟩
  · obtain ⟨a, ha, hname, rfl⟩ := value_mem hvalue
    have hbare := r.henumerated a ha (hname ▸ List.mem_cons_self)
    have hvalid := (Attribute.valid_iff.mp (r.hvalid a ha)).2.2
    rw [hvalue, hsearch, Option.elim_some, Option.bind_some]
    cases hv : a.value with
    | quoted v =>
      exact absurd ((congrArg Value.isQuoted hv).symm.trans hbare).symm Bool.false_ne_true
    | bare v =>
      rw [Found.text, Value.text, takeWhile_more (hv ▸ hvalid), Option.some_inj]

theorem readsEligible_plain : r.readsEligible p.readGroup = r.eligible p.group := by
  obtain ⟨hgroup, hne⟩ := readGroup_plain hplain
  rw [Bool.eq_iff_iff, Rendition.readsEligible, Rendition.eligible, Bool.and_eq_true,
    Bool.and_eq_true, decide_eq_true_iff, decide_eq_true_iff, readEnumerated_type hplain hr,
    readString_string hplain hr (by simp), hgroup]
  refine and_congr_right fun _ => ?_
  cases hg : p.group with
  | none => simp
  | some g =>
    have hg' : g ≠ [] := fun h => hne (hg.trans (congrArg some h))
    cases hs : r.string (bytes "GROUP-ID") with
    | none => simp [hg', hg'.symm]
    | some s => simp [hg']

theorem readsFrench_plain : r.readsFrench = r.speaksFrench := by
  rw [Rendition.readsFrench, Rendition.speaksFrench, readString_string hplain hr (by simp),
    readString_string hplain hr (by simp)]

end PlainLines

/-- On plain lines one rendition is ahead of another only if it is French. -/
theorem ahead_plain {p : Playlist} (hplain : p.Plain) {r r' : Rendition} (hr : r ∈ p.renditions)
    (hr' : r' ∈ p.renditions) :
    r.Ahead r' ↔ r.speaksFrench = true ∧ r'.speaksFrench = false := by
  have hdefault : r.readsDefault = false := readString_enumerated hplain hr (by simp)
  have hautoselect : r.readsAutoselect = false := readString_enumerated hplain hr (by simp)
  rw [Rendition.Ahead, hdefault, hautoselect, readsFrench_plain hplain hr,
    readsFrench_plain hplain hr']
  simp

theorem readInOrder_plain {p : Playlist} (hplain : p.Plain) : ReadInOrder p ↔ FrenchOrFirst p := by
  constructor
  · intro horder pre r post hsplit hbest
    have hr : r ∈ p.renditions := by simp [hsplit]
    have hread := horder.first hsplit hbest
    by_cases hfrench : r.speaksFrench = true
    · exact .inl hfrench
    · refine .inr fun r' hr' => ?_
      have hmem : r' ∈ p.renditions := by simp [hsplit, hr']
      by_contra heligible
      rw [← readsEligible_plain hplain hmem, Bool.not_eq_false] at heligible
      exact hfrench ((ahead_plain hplain hr hmem).mp (hread.before r' hr' heligible)).1
  · intro hserved
    refine {first := fun {pre r post} hsplit hbest => ?_, none := fun hnone r hr => ?_}
    · have hr : r ∈ p.renditions := by simp [hsplit]
      refine
        { holds := (readsEligible_plain hplain hr).trans hbest.holds
          before := fun r' hr' heligible => ?_
          after := fun r' hr' heligible => ?_ }
      · have hmem : r' ∈ p.renditions := by simp [hsplit, hr']
        rw [readsEligible_plain hplain hmem] at heligible
        have hlt := hbest.before r' hr' heligible
        rcases hserved hsplit hbest with hfrench | hfirst
        · refine (ahead_plain hplain hr hmem).mpr ⟨hfrench, ?_⟩
          by_contra hfrench'
          have hle := Rendition.rank_le_french (Bool.not_eq_false _ ▸ hfrench') r
          exact absurd hlt (not_lt.mpr hle)
        · exact absurd ((hfirst r' hr').symm.trans heligible) Bool.false_ne_true
      · have hmem : r' ∈ p.renditions := by simp [hsplit, hr']
        rw [readsEligible_plain hplain hmem] at heligible
        intro hahead
        obtain ⟨hfrench', hfrench⟩ := (ahead_plain hplain hmem hr).mp hahead
        have hlt := Rendition.rank_lt_french hfrench' hfrench
        exact absurd (hbest.after r' hr' heligible) (not_le.mpr hlt)
    · exact (readsEligible_plain hplain hr).trans (hnone r hr)

/-- The rendition that is written is the one to be kept if and only if no other is ahead of
it by what stands behind the names; on plain lines, if and only if it speaks French or is
the first of its group. -/
theorem keeps_preferred_iff (master : Bytes) (p : Playlist)
    (hlines : splitLines master = p.items.flatMap Item.lines) :
    (Preferred p (writtenMedia master) ↔ ReadInOrder p) ∧
      (p.Plain → (Preferred p (writtenMedia master) ↔ FrenchOrFirst p)) := by
  have hiff : Preferred p (writtenMedia master) ↔ ReadInOrder p :=
    ⟨readInOrder_of_preferred hlines, preferred_of_readInOrder hlines⟩
  exact ⟨hiff, fun hplain => hiff.trans (readInOrder_plain hplain)⟩

/-! ### Two renditions, the second the default -/

def plain : Rendition where
  attributes := [⟨bytes "TYPE", .bare audio⟩, ⟨bytes "GROUP-ID", .quoted (bytes "a")⟩,
    ⟨bytes "NAME", .quoted (bytes "x")⟩, ⟨bytes "DEFAULT", .bare (bytes "NO")⟩]
  hvalid := by decide
  hdistinct := by decide
  henumerated := by decide
  hstrings := by decide

def byDefault : Rendition where
  attributes := [⟨bytes "TYPE", .bare audio⟩, ⟨bytes "GROUP-ID", .quoted (bytes "a")⟩,
    ⟨bytes "NAME", .quoted (bytes "y")⟩, ⟨bytes "DEFAULT", .bare (bytes "YES")⟩]
  hvalid := by decide
  hdistinct := by decide
  henumerated := by decide
  hstrings := by decide

def firstGroup : AttributeList where
  attributes := [⟨bytes "BANDWIDTH", .bare (bytes "1")⟩, ⟨audio, .quoted (bytes "a")⟩]
  hvalid := by decide
  hdistinct := by decide

def twoRenditions : Playlist where
  items := [.media plain.text (List.prefix_append _ _),
    .media byDefault.text (List.prefix_append _ _),
    .variant (streamInfTag ++ firstGroup.text) (bytes "u") (List.prefix_append _ _) isUri_u]
  variant := some firstGroup
  renditions := [plain, byDefault]
  hvariant := rfl
  hmedia := rfl

def twoRenditionsText : Bytes :=
  plain.text ++ 10 :: (byDefault.text ++ 10 :: (streamInfTag ++ (firstGroup.text ++ bytes "\nu\n")))

theorem twoRenditions_lines :
    splitLines twoRenditionsText = twoRenditions.items.flatMap Item.lines := by decide

def french : Rendition where
  attributes := [⟨bytes "TYPE", .bare audio⟩, ⟨bytes "GROUP-ID", .quoted (bytes "a")⟩,
    ⟨bytes "LANGUAGE", .quoted (bytes "fr")⟩, ⟨bytes "DEFAULT", .bare (bytes "NO")⟩,
    ⟨bytes "NAME", .quoted (bytes "z")⟩]
  hvalid := by decide
  hdistinct := by decide
  henumerated := by decide
  hstrings := by decide

/-- The same with a French rendition behind them. -/
def threeRenditions : Playlist where
  items := twoRenditions.items ++ [.media french.text (List.prefix_append _ _)]
  variant := some firstGroup
  renditions := [plain, byDefault, french]
  hvariant := rfl
  hmedia := rfl

def threeRenditionsText : Bytes := twoRenditionsText ++ french.text

theorem threeRenditions_lines :
    splitLines threeRenditionsText = threeRenditions.items.flatMap Item.lines := by decide

theorem twoRenditions_best : Scan.FirstBest (Rendition.eligible twoRenditions.group) Rendition.rank
    [plain] byDefault [] := {holds := by decide, before := by decide, after := by decide}

theorem twoRenditions_behind : ¬ ReadInOrder twoRenditions := fun h =>
  absurd ((h.first rfl twoRenditions_best).before plain List.mem_cons_self (by decide)) (by decide)

theorem threeRenditions_plain : threeRenditions.Plain :=
  {clear := by decide, strings := by decide, variant := by decide}

theorem threeRenditions_french : FrenchOrFirst threeRenditions := by
  intro pre r post hsplit hbest
  have hfrench : Scan.FirstBest (Rendition.eligible threeRenditions.group) Rendition.rank
      [plain, byDefault] french [] := {holds := by decide, before := by decide, after := by decide}
  obtain ⟨-, rfl, -⟩ := hfrench.unique hbest hsplit
  exact .inl (by decide)

/-- `DEFAULT=YES` is not read and the first of the two is kept; the French one of the three
is kept. -/
theorem keeps_preferred_iff_two : ¬ Preferred twoRenditions (writtenMedia twoRenditionsText) ∧
    Preferred threeRenditions (writtenMedia threeRenditionsText) :=
  ⟨fun h => twoRenditions_behind
    ((keeps_preferred_iff twoRenditionsText twoRenditions twoRenditions_lines).1.mp h),
    ((keeps_preferred_iff threeRenditionsText threeRenditions threeRenditions_lines).2
      threeRenditions_plain).mpr threeRenditions_french⟩

/-- `DEFAULT=YES` is not read, and the first rendition is kept. -/
theorem default_not_kept :
    ¬ ∀ (master : Bytes) (p : Playlist), splitLines master = p.items.flatMap Item.lines →
      Preferred p (writtenMedia master) := fun h =>
  twoRenditions_behind (readInOrder_of_preferred twoRenditions_lines
    (h twoRenditionsText twoRenditions twoRenditions_lines))

end AirPlay.Hls
