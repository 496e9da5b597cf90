import AirPlay.Library.Text

/-! Text cut at a separator.

`split` gives the fields between separators, `parts` those of them that are not empty. The
parts of two texts with a separator between them are the parts of one and of the other
(`parts_append`), so that separators more or less make no difference. -/
namespace Bytes

/-- The fields that the separator ends; an empty rest is none. -/
def split (sep : UInt8) : Bytes → List Bytes
  | [] => []
  | b :: rest =>
    if b = sep then [] :: split sep rest
    else match split sep rest with
      | [] => [[b]]
      | w :: ws => (b :: w) :: ws

/-- The fields that are not empty. -/
def parts (sep : UInt8) (s : Bytes) : List Bytes := (split sep s).filter (· ≠ [])

/-- The words, each behind a separator. -/
def behind (sep : UInt8) (ws : List Bytes) : Bytes := ws.flatMap (sep :: ·)

/-- The words with separators between them. -/
def joined (sep : UInt8) : List Bytes → Bytes
  | [] => []
  | w :: ws => w ++ behind sep ws

/-- A text is free of the separator, or a field before another text. -/
theorem field_induction (sep : UInt8) {motive : Bytes → Prop} (word : ∀ w, sep ∉ w → motive w)
    (field : ∀ w rest, sep ∉ w → motive rest → motive (w ++ sep :: rest)) (s : Bytes) :
    motive s := by
  induction hn : s.length using Nat.strongRecOn generalizing s with
  | ind n ih =>
    by_cases hmem : sep ∈ s
    · obtain ⟨w, rest, rfl, hw⟩ := List.eq_append_cons_of_mem hmem
      refine field w rest hw (ih rest.length ?_ rest rfl)
      rw [← hn, List.length_append, List.length_cons]
      omega
    · exact word s hmem

section Split
variable {sep : UInt8}

theorem split_field {w : Bytes} (h : sep ∉ w) (t : Bytes) :
    split sep (w ++ sep :: t) = w :: split sep t := by
  induction w with
  | nil => rw [List.nil_append, split, if_pos rfl]
  | cons b w ih =>
    rw [List.mem_cons, not_or] at h
    rw [List.cons_append, split, if_neg (Ne.symm h.1), ih h.2]

theorem split_word {w : Bytes} (h : sep ∉ w) (hne : w ≠ []) : split sep w = [w] := by
  induction w with
  | nil => exact absurd rfl hne
  | cons b w ih =>
    rw [List.mem_cons, not_or] at h
    rw [split, if_neg (Ne.symm h.1)]
    cases w with
    | nil => rfl
    | cons c w => rw [ih h.2 (List.cons_ne_nil c w)]

/-- A field is a piece of the text, free of the separator. -/
theorem mem_split {s w : Bytes} (h : w ∈ split sep s) : sep ∉ w ∧ w <:+: s := by
  induction s using field_induction sep with
  | word v hv =>
    by_cases hne : v = []
    · subst hne
      exact absurd h List.not_mem_nil
    · rw [split_word hv hne, List.mem_singleton] at h
      subst h
      exact ⟨hv, List.infix_refl _⟩
  | field v rest hv ih =>
    rw [split_field hv] at h
    rcases List.mem_cons.mp h with rfl | h
    · exact ⟨hv, (List.prefix_append _ _).isInfix⟩
    · obtain ⟨hfree, hin⟩ := ih h
      refine ⟨hfree, hin.trans ?_⟩
      exact (List.suffix_cons sep rest).isInfix.trans (List.suffix_append _ _).isInfix

theorem parts_word {w : Bytes} (h : sep ∉ w) (hne : w ≠ []) : parts sep w = [w] := by
  rw [parts, split_word h hne]
  simp [hne]

theorem parts_field {w : Bytes} (h : sep ∉ w) (t : Bytes) :
    parts sep (w ++ sep :: t) = parts sep w ++ parts sep t := by
  rw [parts, split_field h, List.filter_cons]
  by_cases hne : w = []
  · subst hne
    rfl
  · rw [if_pos (decide_eq_true hne), parts_word h hne]
    rfl

/-- A separator keeps the parts of two texts apart. -/
theorem parts_append (s t : Bytes) : parts sep (s ++ sep :: t) = parts sep s ++ parts sep t := by
  induction s using field_induction sep with
  | word w hw => exact parts_field hw t
  | field w rest hw ih =>
    rw [List.append_assoc, List.cons_append, parts_field hw, parts_field hw, ih, List.append_assoc]

theorem parts_cons (s : Bytes) : parts sep (sep :: s) = parts sep s := parts_append [] s

theorem parts_concat (s : Bytes) : parts sep (s ++ [sep]) = parts sep s := by
  rw [parts_append]
  exact List.append_nil _

/-- A part is a piece of the text, not empty and free of the separator. -/
theorem mem_parts {s w : Bytes} (h : w ∈ parts sep s) : w ≠ [] ∧ sep ∉ w ∧ w <:+: s := by
  obtain ⟨hmem, hne⟩ := List.mem_filter.mp h
  exact ⟨of_decide_eq_true hne, mem_split hmem⟩

/-- Words are read back from behind separators. -/
theorem parts_behind {ws : List Bytes} (h : ∀ w ∈ ws, w ≠ [] ∧ sep ∉ w) :
    parts sep (behind sep ws) = ws := by
  induction ws with
  | nil => rfl
  | cons w ws ih =>
    obtain ⟨⟨hne, hfree⟩, hws⟩ := List.forall_mem_cons.mp h
    have hbehind : behind sep (w :: ws) = sep :: (w ++ behind sep ws) := List.flatMap_cons ..
    rw [hbehind, parts_cons]
    cases ws with
    | nil => rw [behind, List.flatMap_nil, List.append_nil, parts_word hfree hne]
    | cons v ws =>
      have hnext : behind sep (v :: ws) = sep :: (v ++ behind sep ws) := List.flatMap_cons ..
      rw [hnext, parts_cons] at ih
      rw [hnext, parts_append, parts_word hfree hne, ih hws]
      rfl

theorem parts_joined {ws : List Bytes} (h : ∀ w ∈ ws, w ≠ [] ∧ sep ∉ w) :
    parts sep (joined sep ws) = ws := by
  cases ws with
  | nil => rfl
  | cons w ws =>
    have hbehind : behind sep (w :: ws) = sep :: joined sep (w :: ws) := List.flatMap_cons ..
    have hparts := parts_behind h
    rwa [hbehind, parts_cons] at hparts

end Split
end Bytes
