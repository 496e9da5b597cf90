import AirPlay.Library.Text

/-! Attribute lists: names and values, with commas between them.

A value stands as it is or between quotes. A list is read from its text in one way only
(`text_injective`): an equals sign ends a name, and a quote or a comma ends a value. A
program that searches the text for a name instead finds other things as well; what it finds
is said in terms of the list (`after_text`, `enclosed_text`). -/
namespace Attributes
open Bytes

/-- A value, without quotes or between them. -/
inductive Value where
  | bare (text : Bytes)
  | quoted (text : Bytes)
  deriving DecidableEq

/-- A name with its value. -/
structure Attribute where
  name : Bytes
  value : Value

def Value.text : Value → Bytes
  | .bare v => v
  | .quoted v => 34 :: (v ++ [34])

def Attribute.text (a : Attribute) : Bytes := a.name ++ 61 :: a.value.text

/-- The attributes after the first. -/
def more : List Attribute → Bytes
  | [] => []
  | a :: as => 44 :: (a.text ++ more as)

def text : List Attribute → Bytes
  | [] => []
  | a :: as => a.text ++ more as

/-- Names are capital letters, digits and hyphens. -/
def isNameByte (b : UInt8) : Bool := (65 ≤ b && b ≤ 90) || (48 ≤ b && b ≤ 57) || b = 45

/-- A quoted value has no quote and no line end, another one no quote, comma or white space. -/
def Value.valid : Value → Bool
  | .bare v => v ≠ [] && v.all fun b => b ≠ 34 && b ≠ 44 && !isSpace b
  | .quoted v => v.all fun b => b ≠ 34 && b ≠ 10 && b ≠ 13

def Attribute.valid (a : Attribute) : Bool := a.name ≠ [] && a.name.all isNameByte && a.value.valid

def Value.isQuoted : Value → Bool
  | .bare _ => false
  | .quoted _ => true

/-- The value less its quotes. -/
def Value.content : Value → Bytes
  | .bare v => v
  | .quoted v => v

/-- The value of the attribute that has a name. -/
def value (as : List Attribute) (name : Bytes) : Option Value :=
  (as.find? (·.name = name)).map Attribute.value

def bareValue (as : List Attribute) (name : Bytes) : Option Bytes :=
  (value as name).bind fun v => match v with
    | .bare v => some v
    | .quoted _ => none

def quotedValue (as : List Attribute) (name : Bytes) : Option Bytes :=
  (value as name).bind fun v => match v with
    | .bare _ => none
    | .quoted v => some v

/-! ### One way to read a list -/

theorem Attribute.valid_iff {a : Attribute} : a.valid = true ↔
    a.name ≠ [] ∧ (∀ b ∈ a.name, isNameByte b = true) ∧ a.value.valid = true := by
  rw [Attribute.valid, Bool.and_eq_true, Bool.and_eq_true, decide_eq_true_iff, List.all_eq_true,
    and_assoc]

/-- What is not in any name is not in this one. -/
theorem name_free {a : Attribute} (h : a.valid = true) {c : UInt8} (hc : isNameByte c = false) :
    c ∉ a.name := fun hmem =>
  absurd (((Attribute.valid_iff.mp h).2.1 c hmem).symm.trans hc) Bool.false_ne_true.symm

theorem bare_free {v : Bytes} (h : (Value.bare v).valid = true) : v ≠ [] ∧ 34 ∉ v ∧ 44 ∉ v := by
  rw [Value.valid, Bool.and_eq_true, decide_eq_true_iff] at h
  refine ⟨h.1, fun hmem => ?_, fun hmem => ?_⟩
  · exact absurd (List.all_eq_true.mp h.2 34 hmem) (by decide)
  · exact absurd (List.all_eq_true.mp h.2 44 hmem) (by decide)

theorem quoted_free {v : Bytes} (h : (Value.quoted v).valid = true) : 34 ∉ v := by
  intro hmem
  exact absurd (List.all_eq_true.mp h 34 hmem) (by decide)

theorem content_free {v : Value} (h : v.valid = true) : 34 ∉ v.content := by
  cases v with
  | bare v => exact (bare_free h).2.1
  | quoted v => exact quoted_free h

/-- What comes behind a value is nothing or begins with a comma. -/
theorem more_cases (as : List Attribute) : more as = [] ∨ ∃ s, more as = 44 :: s := by
  cases as with
  | nil => exact .inl rfl
  | cons a as => exact .inr ⟨_, rfl⟩

theorem bare_append {v w : Bytes} {as bs : List Attribute} (hv : 44 ∉ v) (hw : 44 ∉ w)
    (h : v ++ more as = w ++ more bs) : v = w ∧ more as = more bs := by
  rcases more_cases as with has | ⟨s, has⟩
  · rcases more_cases bs with hbs | ⟨t, hbs⟩
    · rw [has, hbs, List.append_nil, List.append_nil] at h
      exact ⟨h, has.trans hbs.symm⟩
    · rw [has, hbs, List.append_nil] at h
      exact absurd (h ▸ List.mem_append_right w List.mem_cons_self) hv
  · rcases more_cases bs with hbs | ⟨t, hbs⟩
    · rw [has, hbs, List.append_nil] at h
      exact absurd (h ▸ List.mem_append_right v List.mem_cons_self) hw
    · rw [has, hbs] at h ⊢
      obtain ⟨rfl, rfl⟩ := eq_of_append_cons hv hw h
      exact ⟨rfl, rfl⟩

theorem bare_ne_quoted {v s t : Bytes} (hv : (Value.bare v).valid = true) :
    v ++ s ≠ 34 :: t := by
  obtain ⟨hne, hfree, -⟩ := bare_free hv
  cases v with
  | nil => exact absurd rfl hne
  | cons b v =>
    intro h
    exact hfree ((List.cons.inj h).1 ▸ List.mem_cons_self)

theorem value_append {v w : Value} {as bs : List Attribute} (hv : v.valid = true)
    (hw : w.valid = true) (h : v.text ++ more as = w.text ++ more bs) :
    v = w ∧ more as = more bs := by
  cases v with
  | bare v =>
    cases w with
    | bare w =>
      obtain ⟨rfl, hmore⟩ := bare_append (bare_free hv).2.2 (bare_free hw).2.2 h
      exact ⟨rfl, hmore⟩
    | quoted w => exact absurd h (bare_ne_quoted hv)
  | quoted v =>
    cases w with
    | bare w => exact absurd h.symm (bare_ne_quoted hw)
    | quoted w =>
      have h' : v ++ [34] ++ more as = w ++ [34] ++ more bs := (List.cons.inj h).2
      rw [List.append_assoc, List.append_assoc] at h'
      obtain ⟨rfl, hmore⟩ := eq_of_append_cons (quoted_free hv) (quoted_free hw) h'
      exact ⟨rfl, hmore⟩

theorem attribute_append {a b : Attribute} {as bs : List Attribute} (ha : a.valid = true)
    (hb : b.valid = true) (h : a.text ++ more as = b.text ++ more bs) :
    a = b ∧ more as = more bs := by
  obtain ⟨name, value⟩ := a
  obtain ⟨name', value'⟩ := b
  rw [Attribute.text, Attribute.text, List.append_assoc, List.append_assoc] at h
  obtain ⟨rfl, hvalue⟩ := eq_of_append_cons (name_free ha rfl) (name_free hb rfl) h
  obtain ⟨rfl, hmore⟩ := value_append (Attribute.valid_iff.mp ha).2.2
    (Attribute.valid_iff.mp hb).2.2 hvalue
  exact ⟨rfl, hmore⟩

theorem more_injective {as bs : List Attribute} (ha : ∀ a ∈ as, a.valid = true)
    (hb : ∀ b ∈ bs, b.valid = true) (h : more as = more bs) : as = bs := by
  induction as generalizing bs with
  | nil =>
    cases bs with
    | nil => rfl
    | cons b bs => exact absurd h (List.cons_ne_nil _ _).symm
  | cons a as ih =>
    cases bs with
    | nil => exact absurd h (List.cons_ne_nil _ _)
    | cons b bs =>
      obtain ⟨ha, has⟩ := List.forall_mem_cons.mp ha
      obtain ⟨hb, hbs⟩ := List.forall_mem_cons.mp hb
      obtain ⟨rfl, hmore⟩ := attribute_append ha hb (List.cons.inj h).2
      rw [ih has hbs hmore]

/-- A list is read from its text in one way. -/
theorem text_injective {as bs : List Attribute} (ha : ∀ a ∈ as, a.valid = true)
    (hb : ∀ b ∈ bs, b.valid = true) (h : text as = text bs) : as = bs := by
  refine more_injective ha hb ?_
  cases as with
  | nil =>
    cases bs with
    | nil => rfl
    | cons b bs =>
      have hlength := congrArg List.length h
      simp [text, Attribute.text] at hlength
  | cons a as =>
    cases bs with
    | nil =>
      have hlength := congrArg List.length h
      simp [text, Attribute.text] at hlength
    | cons b bs => exact congrArg (44 :: ·) h

/-! ### Searching for a name

The text is searched for a name and an equals sign, wherever attributes begin and end. The
search ends at the first attribute whose name ends in the name, or earlier inside a value. -/

/-- Where the search ends. -/
inductive Found where
  /-- Before a value, or what is left of one without quotes, and the attributes behind it. -/
  | value (v : Value) (as : List Attribute)
  /-- In a quoted value of which this is left, and the attributes behind it. -/
  | inside (rest : Bytes) (as : List Attribute)

/-- The text from there on. -/
def Found.text : Found → Bytes
  | .value v as => v.text ++ more as
  | .inside rest as => rest ++ 34 :: more as

/-- What is left of the value. -/
def Found.left : Found → Bytes
  | .value v _ => v.content
  | .inside rest _ => rest

def Found.behind : Found → List Attribute
  | .value _ as => as
  | .inside _ as => as

def search (name : Bytes) : List Attribute → Option Found
  | [] => none
  | a :: as =>
    if name <:+ a.name then some (.value a.value as)
    else match after (name ++ [61]) a.value.content with
      | none => search name as
      | some rest => some (if a.value.isQuoted then .inside rest as else .value (.bare rest) as)

/-- The value of the first quoted attribute, and what stands before its quotes. -/
def nextQuoted : List Attribute → Option (Bytes × Bytes)
  | [] => none
  | a :: as => match a.value with
    | .bare _ => (nextQuoted as).map fun p => (44 :: (a.text ++ p.1), p.2)
    | .quoted v => some (44 :: (a.name ++ [61]), v)

/-- What stands between the next two quotes: behind a value without quotes it is the next
quoted value, and inside a quoted value what stands between it and the next. -/
def Found.quoted : Found → Bytes
  | .value (.quoted v) _ => v
  | .value (.bare _) as => (nextQuoted as).elim [] Prod.snd
  | .inside _ as => (nextQuoted as).elim [] Prod.fst

theorem nextQuoted_cases {as : List Attribute} (h : ∀ a ∈ as, a.valid = true) :
    (nextQuoted as = none ∧ 34 ∉ more as) ∨
      ∃ gap v rest, nextQuoted as = some (gap, v) ∧ more as = gap ++ 34 :: (v ++ 34 :: rest) ∧
        34 ∉ gap ∧ 34 ∉ v := by
  induction as with
  | nil => exact .inl ⟨rfl, List.not_mem_nil⟩
  | cons a as ih =>
    obtain ⟨ha, has⟩ := List.forall_mem_cons.mp h
    have hname : 34 ∉ a.name := name_free ha rfl
    have hvalue := (Attribute.valid_iff.mp ha).2.2
    obtain ⟨name, value⟩ := a
    cases value with
    | bare v =>
      have hv : 34 ∉ v := (bare_free hvalue).2.1
      have hfree : 34 ∉ (44 :: (name ++ 61 :: v) : Bytes) := by
        simp [hname, hv]
      rcases ih has with ⟨hnone, hmore⟩ | ⟨gap, w, rest, hsome, hmore, hgap, hw⟩
      · refine .inl ⟨by rw [nextQuoted, hnone, Option.map_none], ?_⟩
        show 34 ∉ (44 :: (name ++ 61 :: v)) ++ more as
        rw [List.mem_append, not_or]
        exact ⟨hfree, hmore⟩
      · refine .inr ⟨_, w, rest, by rw [nextQuoted, hsome, Option.map_some], ?_, ?_, hw⟩
        · rw [more, hmore, List.cons_append, List.append_assoc]
        · show 34 ∉ (44 :: (name ++ 61 :: v)) ++ gap
          rw [List.mem_append, not_or]
          exact ⟨hfree, hgap⟩
    | quoted v =>
      refine .inr ⟨_, v, more as, rfl, ?_, by simp [hname], quoted_free hvalue⟩
      simp [more, Attribute.text, Value.text]

theorem nextQuoted_mem {as : List Attribute} {p : Bytes × Bytes} (h : nextQuoted as = some p) :
    ∃ a ∈ as, a.value = .quoted p.2 := by
  induction as generalizing p with
  | nil => exact absurd h (Option.some_ne_none p).symm
  | cons a as ih =>
    obtain ⟨name, value⟩ := a
    cases value with
    | bare v =>
      obtain ⟨q, hq, rfl⟩ := Option.map_eq_some_iff.mp h
      obtain ⟨a, ha, hvalue⟩ := ih hq
      exact ⟨a, List.mem_cons_of_mem _ ha, hvalue⟩
    | quoted v =>
      obtain rfl := Option.some.inj h
      exact ⟨_, List.mem_cons_self, rfl⟩

theorem enclosed_more {v : Bytes} {as : List Attribute} (hv : 34 ∉ v)
    (h : ∀ a ∈ as, a.valid = true) :
    enclosed 34 (v ++ more as) = (nextQuoted as).elim [] Prod.snd := by
  rcases nextQuoted_cases h with ⟨hnone, hmore⟩ | ⟨gap, w, rest, hsome, hmore, hgap, hw⟩
  · rw [hnone, Option.elim_none, enclosed_of_not_mem]
    rw [List.mem_append, not_or]
    exact ⟨hv, hmore⟩
  · rw [hsome, hmore, ← List.append_assoc, enclosed_append _ hw, Option.elim_some]
    rw [List.mem_append, not_or]
    exact ⟨hv, hgap⟩

/-- The string between the next two quotes. -/
theorem enclosed_text {f : Found} (hleft : 34 ∉ f.left) (h : ∀ a ∈ f.behind, a.valid = true) :
    enclosed 34 f.text = f.quoted := by
  cases f with
  | value v as =>
    cases v with
    | bare v => exact enclosed_more hleft h
    | quoted v =>
      have hv : 34 ∉ v := hleft
      have htext : (Found.value (.quoted v) as).text = [] ++ 34 :: (v ++ 34 :: more as) := by
        simp [Found.text, Value.text]
      rw [htext, enclosed_append List.not_mem_nil hv, Found.quoted]
  | inside rest as =>
    have hrest : 34 ∉ rest := hleft
    have has : ∀ a ∈ as, a.valid = true := h
    rw [Found.text, enclosed, after_byte hrest, Option.bind_some, Found.quoted]
    rcases nextQuoted_cases has with ⟨hnone, hmore⟩ | ⟨gap, w, t, hsome, hmore, hgap, -⟩
    · rw [hnone, cut_byte_none hmore, Option.elim_none]
    · rw [hsome, hmore, cut_byte hgap, Option.elim_some, Option.elim_some]

/-- What is left of a value has no quote. -/
theorem search_valid {name : Bytes} {as : List Attribute} (h : ∀ a ∈ as, a.valid = true) {f : Found}
    (hsearch : search name as = some f) : 34 ∉ f.left ∧ ∀ a ∈ f.behind, a.valid = true := by
  induction as with
  | nil => exact absurd hsearch (Option.some_ne_none f).symm
  | cons a as ih =>
    obtain ⟨ha, has⟩ := List.forall_mem_cons.mp h
    have hcontent : 34 ∉ a.value.content := content_free (Attribute.valid_iff.mp ha).2.2
    rw [search] at hsearch
    split at hsearch
    · obtain rfl := Option.some.inj hsearch
      exact ⟨hcontent, has⟩
    · split at hsearch
      next => exact ih has hsearch
      next rest hafter =>
        have hrest : 34 ∉ rest := fun hmem =>
          hcontent ((after_suffix (by simp) hafter).subset hmem)
        obtain rfl := Option.some.inj hsearch
        split
        · exact ⟨hrest, has⟩
        · exact ⟨hrest, has⟩

section Search
variable {name : Bytes} (hname : ∀ b ∈ name, isNameByte b = true)
include hname

theorem key_free {c : UInt8} (hc : isNameByte c = false) (hne : c ≠ 61) : c ∉ name ++ [61] := by
  intro hmem
  rcases List.mem_append.mp hmem with hmem | hmem
  · exact absurd ((hname c hmem).symm.trans hc) Bool.false_ne_true.symm
  · exact hne (List.mem_singleton.mp hmem)

/-- A comma or a quote is not part of what is searched for. -/
theorem after_more (v : Bytes) (as : List Attribute) (h : after (name ++ [61]) v = none) :
    after (name ++ [61]) (v ++ more as) = after (name ++ [61]) (text as) := by
  have hne : name ++ [61] ≠ [] := by simp
  cases as with
  | nil => rw [more, List.append_nil, h, text, after, cut_nil hne, Option.map_none]
  | cons a as => exact after_separated hne (key_free hname (by decide) (by decide)) h _

/-- The text behind the name that is searched for. -/
theorem after_text {as : List Attribute} (h : ∀ a ∈ as, a.valid = true) :
    after (name ++ [61]) (text as) = (search name as).map Found.text := by
  have hne : name ++ [61] ≠ [] := by simp
  have hquote : 34 ∉ name ++ [61] := key_free hname (by decide) (by decide)
  have hequals : 61 ∉ name := fun hmem => absurd (hname 61 hmem) (by decide)
  have hnil : after (name ++ [61]) [] = none := by rw [after, cut_nil hne, Option.map_none]
  induction as with
  | nil => exact hnil
  | cons a as ih =>
    obtain ⟨ha, has⟩ := List.forall_mem_cons.mp h
    have htext : text (a :: as) = a.name ++ 61 :: (a.value.text ++ more as) := by
      rw [text, Attribute.text, List.append_assoc, List.cons_append]
    rw [htext, after_named hequals (name_free ha rfl), search]
    split
    · rfl
    · obtain ⟨_, value⟩ := a
      cases value with
      | bare v =>
        cases hafter : after (name ++ [61]) v with
        | none =>
          simp only [Value.text, Value.content, hafter]
          rw [after_more hname v as hafter, ih has]
        | some rest =>
          simp only [Value.text, Value.content, hafter]
          exact after_append hne hafter (more as)
      | quoted v =>
        have hopening : after (name ++ [61]) (34 :: (v ++ 34 :: more as)) =
            after (name ++ [61]) (v ++ 34 :: more as) := after_separated hne hquote hnil _
        have hquoted : (Value.quoted v).text ++ more as = 34 :: (v ++ 34 :: more as) := by
          simp [Value.text]
        rw [hquoted, hopening]
        cases hafter : after (name ++ [61]) v with
        | none =>
          simp only [Value.content, hafter]
          rw [after_separated hne hquote hafter, ← ih has]
          exact after_more hname [] as hnil
        | some rest =>
          simp only [Value.content, hafter]
          exact after_append hne hafter (34 :: more as)

/-- The next quoted string behind the name that is searched for. -/
theorem enclosed_search {as : List Attribute} (h : ∀ a ∈ as, a.valid = true) :
    (after (name ++ [61]) (text as)).elim [] (enclosed 34) =
      (search name as).elim [] Found.quoted := by
  rw [after_text hname h]
  cases hsearch : search name as with
  | none => rfl
  | some f =>
    obtain ⟨hleft, hbehind⟩ := search_valid h hsearch
    exact enclosed_text hleft hbehind

end Search

/-- No other attribute has a name that ends in this one, and no value mentions it. -/
def Clear (name : Bytes) (as : List Attribute) : Prop :=
  ∀ a ∈ as, (name <:+ a.name → a.name = name) ∧ after (name ++ [61]) a.value.content = none

instance (name : Bytes) (as : List Attribute) : Decidable (Clear name as) :=
  inferInstanceAs (Decidable (∀ a ∈ as, _ ∧ _))

theorem value_mem {name : Bytes} {as : List Attribute} {v : Value} (h : value as name = some v) :
    ∃ a ∈ as, a.name = name ∧ a.value = v := by
  obtain ⟨a, hfind, rfl⟩ := Option.map_eq_some_iff.mp h
  exact ⟨a, List.mem_of_find?_eq_some hfind, by simpa using List.find?_some hfind, rfl⟩

theorem value_cons (a : Attribute) (as : List Attribute) (name : Bytes) :
    value (a :: as) name = if a.name = name then some a.value else value as name := by
  by_cases hnamed : a.name = name
  · simp [value, hnamed]
  · simp [value, hnamed]

/-- Then the search comes to the attribute that has the name, or to nothing. -/
theorem search_clear {name : Bytes} {as : List Attribute} (h : Clear name as) :
    (value as name = none ∧ search name as = none) ∨
      ∃ v behind, value as name = some v ∧ search name as = some (.value v behind) ∧
        behind <:+ as := by
  induction as with
  | nil => exact .inl ⟨rfl, rfl⟩
  | cons a as ih =>
    obtain ⟨⟨hname, hvalue⟩, has⟩ := List.forall_mem_cons.mp h
    rw [value_cons, search, hvalue]
    by_cases hnamed : a.name = name
    · rw [if_pos hnamed, if_pos (hnamed ▸ List.suffix_refl _)]
      exact .inr ⟨a.value, as, rfl, rfl, List.suffix_cons a as⟩
    · rw [if_neg hnamed, if_neg fun hs => hnamed (hname hs)]
      rcases ih has with hnone | ⟨v, behind, hv, hsearch, hbehind⟩
      · exact .inl hnone
      · exact .inr ⟨v, behind, hv, hsearch, hbehind.trans (List.suffix_cons a as)⟩

/-- A list with different names. -/
structure AttributeList where
  attributes : List Attribute
  hvalid : ∀ a ∈ attributes, a.valid = true
  hdistinct : (attributes.map Attribute.name).Nodup

def AttributeList.text (as : AttributeList) : Bytes := Attributes.text as.attributes

end Attributes
