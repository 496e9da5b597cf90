import AirPlay.Library.Bytes

/-! Percent-encoding.

Decoding replaces each `%` that two hexadecimal digits follow. A text is spelled letter by
letter, each as it is or as an escape; the spelling is decoded to the text exactly when no
escape of the text itself stands in it letter for letter (`percentDecode_letters`). -/
namespace Bytes

/-- The value of a hexadecimal digit. -/
def hex (c : UInt8) : Option UInt8 :=
  if 48 ≤ c ∧ c ≤ 57 then some (c - 48)
  else if 97 ≤ c ∧ c ≤ 102 then some (10 + c - 97)
  else if 65 ≤ c ∧ c ≤ 70 then some (10 + c - 65)
  else none

/-- The byte that two digits write. -/
def octet (h l : UInt8) : Option UInt8 :=
  (hex h).bind fun hi => (hex l).map fun lo => hi <<< 4 ||| lo

/-- What a `%` before this text stands for. -/
def escape : Bytes → Option UInt8
  | h :: l :: _ => octet h l
  | _ => none

/-- The loop of a decoder; `skip` bytes belong to an escape that has been decoded. -/
def percentDecodeFrom : Nat → Bytes → Bytes
  | _, [] => []
  | skip + 1, _ :: rest => percentDecodeFrom skip rest
  | 0, b :: rest =>
    match if b = 37 then escape rest else none with
    | some c => c :: percentDecodeFrom 2 rest
    | none => b :: percentDecodeFrom 0 rest

def percentDecode (s : Bytes) : Bytes := percentDecodeFrom 0 s

theorem percentDecode_plain {b : UInt8} {rest : Bytes} (h : b = 37 → escape rest = none) :
    percentDecode (b :: rest) = b :: percentDecode rest := by
  rw [percentDecode, percentDecodeFrom]
  by_cases hb : b = 37
  · rw [if_pos hb, h hb]
    rfl
  · rw [if_neg hb]
    rfl

theorem percentDecode_escape {h l c : UInt8} (hc : octet h l = some c) (rest : Bytes) :
    percentDecode (37 :: h :: l :: rest) = c :: percentDecode rest := by
  rw [percentDecode, percentDecodeFrom, if_pos rfl, escape, hc]
  rfl

/-! ### Spellings -/

/-- A byte as it is, or as an escape. -/
inductive Letter where
  | plain (b : UInt8)
  | escaped (h l b : UInt8) (digits : octet h l = some b)

namespace Letter

def byte : Letter → UInt8
  | plain b => b
  | escaped _ _ b _ => b

def text : Letter → Bytes
  | plain b => [b]
  | escaped h l _ _ => [37, h, l]

end Letter

def spelled (ls : List Letter) : Bytes := ls.map Letter.byte

def spelling (ls : List Letter) : Bytes := ls.flatMap Letter.text

/-- An escape of the text stands in the spelling letter for letter. -/
def Verbatim (ls : List Letter) : Prop :=
  ∃ h l, [.plain 37, .plain h, .plain l] <:+: ls ∧ (octet h l).isSome = true

theorem hex_percent : hex 37 = none := rfl

/-- The letters of an escape that the decoder finds are plain ones. -/
theorem escape_spelling {ls : List Letter} {c : UInt8} (h : escape (spelling ls) = some c) :
    ∃ h l ls', ls = .plain h :: .plain l :: ls' ∧ octet h l = some c := by
  match ls with
  | [] => exact absurd h (Option.some_ne_none c).symm
  | .escaped h₁ l₁ b₁ _ :: ls =>
    have hnone : octet 37 h₁ = none := by rw [octet, hex_percent, Option.bind_none]
    exact absurd (hnone.symm.trans h) (Option.some_ne_none c).symm
  | [.plain h₁] => exact absurd h (Option.some_ne_none c).symm
  | .plain h₁ :: .escaped h₂ l₂ b₂ _ :: ls =>
    have hnone : octet h₁ 37 = none := by
      rw [octet, hex_percent]
      cases hex h₁ <;> rfl
    exact absurd (hnone.symm.trans h) (Option.some_ne_none c).symm
  | .plain h₁ :: .plain l₁ :: ls => exact ⟨h₁, l₁, ls, rfl, h⟩

/-- A letter that begins no verbatim escape. -/
theorem verbatim_cons {a : Letter} {ls : List Letter}
    (h : ∀ h l ls', a = .plain 37 → ls = .plain h :: .plain l :: ls' → octet h l = none) :
    Verbatim (a :: ls) ↔ Verbatim ls := by
  constructor
  · rintro ⟨x, y, hin, hsome⟩
    refine ⟨x, y, (List.infix_cons_iff.mp hin).resolve_left fun hp => ?_, hsome⟩
    obtain ⟨ha, hrest⟩ := List.cons_prefix_cons.mp hp
    obtain ⟨ls', hls⟩ := hrest
    rw [h x y ls' ha.symm hls.symm] at hsome
    exact absurd hsome Bool.false_ne_true
  · rintro ⟨x, y, hin, hsome⟩
    exact ⟨x, y, List.infix_cons hin, hsome⟩

/-- A spelling is decoded to as many bytes as it has letters, unless escapes of the text
stand in it verbatim; those are decoded too. -/
theorem percentDecode_cases (ls : List Letter) :
    (¬ Verbatim ls ∧ percentDecode (spelling ls) = spelled ls) ∨
      (Verbatim ls ∧ (percentDecode (spelling ls)).length < ls.length) := by
  induction hn : ls.length using Nat.strongRecOn generalizing ls with
  | ind n ih =>
    -- A letter that is decoded by itself.
    have hstep : ∀ (a : Letter) (rest : List Letter), ls = a :: rest →
        percentDecode (spelling (a :: rest)) = a.byte :: percentDecode (spelling rest) →
        (Verbatim (a :: rest) ↔ Verbatim rest) →
        (¬ Verbatim ls ∧ percentDecode (spelling ls) = spelled ls) ∨
          (Verbatim ls ∧ (percentDecode (spelling ls)).length < n) := by
      rintro a rest rfl hdecode hverbatim
      rw [hdecode, hverbatim]
      rcases ih rest.length (by rw [← hn]; exact Nat.lt_succ_self _) rest rfl with
        ⟨hnot, heq⟩ | ⟨hyes, hlt⟩
      · exact .inl ⟨hnot, by rw [heq]; rfl⟩
      · refine .inr ⟨hyes, ?_⟩
        rw [← hn]
        exact Nat.succ_lt_succ hlt
    match ls with
    | [] =>
      refine .inl ⟨?_, rfl⟩
      rintro ⟨x, y, hin, -⟩
      exact absurd (List.eq_nil_of_infix_nil hin) (List.cons_ne_nil _ _)
    | .escaped h l b digits :: rest =>
      refine hstep _ rest rfl (percentDecode_escape digits (spelling rest)) (verbatim_cons ?_)
      exact fun _ _ _ ha => by simp at ha
    | .plain b :: rest =>
      by_cases hesc : b = 37 ∧ escape (spelling rest) ≠ none
      · obtain ⟨rfl, hsome⟩ := hesc
        obtain ⟨c, hc⟩ := Option.ne_none_iff_exists'.mp hsome
        obtain ⟨h, l, ls', rfl, hoctet⟩ := escape_spelling hc
        refine .inr ⟨⟨h, l, (List.prefix_append _ ls').isInfix, by rw [hoctet]; rfl⟩, ?_⟩
        have hdecode : percentDecode (spelling (.plain 37 :: .plain h :: .plain l :: ls')) =
            c :: percentDecode (spelling ls') := percentDecode_escape hoctet (spelling ls')
        have hlength : ls'.length + 3 = n := hn
        have hle : (percentDecode (spelling ls')).length ≤ ls'.length := by
          rcases ih ls'.length (by omega) ls' rfl with ⟨-, heq⟩ | ⟨-, hlt⟩
          · rw [heq, spelled, List.length_map]
          · exact hlt.le
        rw [hdecode, List.length_cons]
        omega
      · rw [not_and, not_not] at hesc
        refine hstep _ rest rfl (percentDecode_plain hesc) (verbatim_cons fun h l ls' ha hls => ?_)
        have hnone := hesc (by simpa using ha)
        rw [hls] at hnone
        exact hnone

/-- A spelling is decoded to its text exactly when it has no escape of the text verbatim. -/
theorem percentDecode_letters (ls : List Letter) :
    percentDecode (spelling ls) = spelled ls ↔ ¬ Verbatim ls := by
  rcases percentDecode_cases ls with ⟨hnot, heq⟩ | ⟨hyes, hlt⟩
  · exact iff_of_true heq hnot
  · refine iff_of_false (fun heq => ?_) (not_not_intro hyes)
    rw [heq, spelled, List.length_map] at hlt
    exact absurd hlt (Nat.lt_irrefl _)

end Bytes
