import AirPlay.Mirror.Sps

/-! Emulation prevention.

An encoder puts a 03 wherever two zeros would stand before a byte up to 3, or at the end, so
that no start code appears in a NAL unit (`Prevented`). It counts the zeros that it has
written; the parser looks at three bytes at a time. What the parser makes of the encoder's
bytes are the raw ones, and the encoder's are the only bytes without a start code that it
makes them of (`unescape_escape`). -/
namespace AirPlay.Mirror

/-! ### Taking the bytes out -/

/-- A 03 goes before a byte up to 3 behind two zeros, and behind two zeros at the end;
`zeros` are the ones just written. -/
def escape : Nat → Bytes → Bytes
  | zeros, [] => if 2 ≤ zeros then [3] else []
  | zeros, b :: rest =>
    if 2 ≤ zeros ∧ b ≤ 3 then 3 :: b :: escape (if b = 0 then 1 else 0) rest
    else b :: escape (if b = 0 then zeros + 1 else 0) rest

/-- Anything but 00 00 03 is kept byte by byte. -/
theorem ebspToRbsp_cons {b : UInt8} {rest : Bytes}
    (h : ∀ rest', b :: rest ≠ 0 :: 0 :: 3 :: rest') :
    ebspToRbsp (b :: rest) = b :: ebspToRbsp rest := by
  rw [ebspToRbsp]
  rintro rest' rfl rfl
  exact h rest' rfl

theorem ebspToRbsp_byte {b : UInt8} (hb : b ≠ 0) (rest : Bytes) :
    ebspToRbsp (b :: rest) = b :: ebspToRbsp rest :=
  ebspToRbsp_cons fun _ h => hb (List.cons.inj h).1

theorem ebspToRbsp_zero {b : UInt8} (hb : b ≠ 0) (rest : Bytes) :
    ebspToRbsp (0 :: b :: rest) = 0 :: b :: ebspToRbsp rest := by
  rw [ebspToRbsp_cons fun _ h => hb (List.cons.inj (List.cons.inj h).2).1, ebspToRbsp_byte hb]

/-- The zeros that stand before are kept, too. -/
theorem ebspToRbsp_zeros (r : Bytes) (zeros : Nat) (h : zeros ≤ 2) :
    ebspToRbsp (List.replicate zeros 0 ++ escape zeros r) = List.replicate zeros 0 ++ r := by
  induction r generalizing zeros with
  | nil =>
    obtain rfl | rfl | rfl : zeros = 0 ∨ zeros = 1 ∨ zeros = 2 := by omega
    all_goals rfl
  | cons b rest ih =>
    by_cases hb : b = 0
    · subst hb
      obtain rfl | rfl | rfl : zeros = 0 ∨ zeros = 1 ∨ zeros = 2 := by omega
      · exact ih 1 (by decide)
      · exact ih 2 (by decide)
      · exact congrArg (fun r => 0 :: 0 :: r) (ih 1 (by decide))
    · have hrest := ih 0 (by decide)
      obtain rfl | rfl | rfl : zeros = 0 ∨ zeros = 1 ∨ zeros = 2 := by omega
      · rw [escape, if_neg (by omega), if_neg hb]
        exact (ebspToRbsp_byte hb _).trans (congrArg _ hrest)
      · rw [escape, if_neg (by omega), if_neg hb]
        exact (ebspToRbsp_zero hb _).trans (congrArg (fun r => 0 :: b :: r) hrest)
      · rw [escape, if_neg hb, if_neg hb]
        split
        · show 0 :: 0 :: ebspToRbsp (b :: escape 0 rest) = 0 :: 0 :: b :: rest
          rw [ebspToRbsp_byte hb]
          exact congrArg (fun r => 0 :: 0 :: b :: r) hrest
        · rename_i hlarge
          have hthree : b ≠ 3 := by
            rintro rfl
            exact hlarge ⟨le_rfl, by decide⟩
          show ebspToRbsp (0 :: 0 :: b :: escape 0 rest) = 0 :: 0 :: b :: rest
          rw [ebspToRbsp_cons fun _ h =>
              hthree (List.cons.inj (List.cons.inj (List.cons.inj h).2).2).1,
            ebspToRbsp_zero hb]
          exact congrArg (fun r => 0 :: 0 :: b :: r) hrest

/-! ### No start codes -/

/-- Two zeros stand neither before a byte up to 2 nor at the end; behind them a 03 stands
before a byte up to 3, or at the end. -/
structure Prevented (e : Bytes) : Prop where
  code : ∀ b, [0, 0, b] <:+: e → 3 ≤ b
  inserted : ∀ b, [0, 0, 3, b] <:+: e → b ≤ 3
  ending : ¬ [0, 0] <:+ e

namespace Prevented
variable {e : Bytes}

theorem suffix (h : Prevented e) {s : Bytes} (hs : s <:+ e) : Prevented s where
  code b hb := h.code b (hb.trans hs.isInfix)
  inserted b hb := h.inserted b (hb.trans hs.isInfix)
  ending hend := h.ending (hend.trans hs)

theorem nil : Prevented [] where
  code _ hb := absurd (List.infix_nil.mp hb) (List.cons_ne_nil _ _)
  inserted _ hb := absurd (List.infix_nil.mp hb) (List.cons_ne_nil _ _)
  ending hend := absurd (List.suffix_nil.mp hend) (List.cons_ne_nil _ _)

/-- A byte that is not the first of two zeros makes no difference. -/
theorem cons (h : Prevented e) {b : UInt8} (hb : ¬ [0, 0] <+: b :: e) : Prevented (b :: e) where
  code c hc := by
    rcases List.infix_cons_iff.mp hc with hc | hc
    · exact absurd ((List.prefix_append [0, 0] [c]).trans hc) hb
    · exact h.code c hc
  inserted c hc := by
    rcases List.infix_cons_iff.mp hc with hc | hc
    · exact absurd ((List.prefix_append [0, 0] [3, c]).trans hc) hb
    · exact h.inserted c hc
  ending hend := by
    rcases List.suffix_cons_iff.mp hend with hend | hend
    · exact hb (hend ▸ List.prefix_refl _)
    · exact h.ending hend

/-- What may stand behind two zeros. -/
theorem zeros {b : UInt8} {rest : Bytes} (h : Prevented (0 :: b :: rest)) (hb : 3 ≤ b)
    (hnext : b = 3 → ∀ c ∈ rest.head?, c ≤ 3) : Prevented (0 :: 0 :: b :: rest) where
  code c hc := by
    rcases List.infix_cons_iff.mp hc with hc | hc
    · simp only [List.cons_prefix_cons] at hc
      rw [hc.2.2.1]
      exact hb
    · exact h.code c hc
  inserted c hc := by
    rcases List.infix_cons_iff.mp hc with hc | hc
    · simp only [List.cons_prefix_cons] at hc
      obtain ⟨-, -, hthree, t, rfl⟩ := hc
      exact hnext hthree.symm c rfl
    · exact h.inserted c hc
  ending hend := by
    rcases List.suffix_cons_iff.mp hend with hend | hend
    · cases hend
    · exact h.ending hend

/-- Behind a byte the zeros up to it are counted anew. -/
theorem behind {b : UInt8} {rest : Bytes} {k : Nat}
    (h : Prevented (List.replicate k 0 ++ b :: rest)) :
    Prevented (List.replicate (if b = 0 then k + 1 else 0) 0 ++ rest) := by
  by_cases hb : b = 0
  · subst hb
    rwa [if_pos rfl, List.replicate_succ', ← List.append_cons]
  · rw [if_neg hb]
    exact h.suffix ((List.suffix_cons b rest).trans (List.suffix_append _ _))

end Prevented

/-- Bytes other than zero stand anywhere but behind two zeros. -/
theorem prevented_byte {e : Bytes} (h : Prevented e) {b : UInt8} (hb : b ≠ 0) :
    Prevented (b :: e) ∧ Prevented (0 :: b :: e) := by
  have hbyte : Prevented (b :: e) :=
    h.cons fun hzeros => hb (List.cons_prefix_cons.mp hzeros).1.symm
  refine ⟨hbyte, hbyte.cons fun hzeros => hb ?_⟩
  exact (List.cons_prefix_cons.mp (List.cons_prefix_cons.mp hzeros).2).1.symm

/-- A 03 behind two zeros. -/
theorem prevented_three {e : Bytes} (h : Prevented e) (hnext : ∀ c ∈ e.head?, c ≤ 3) :
    Prevented (0 :: 0 :: 3 :: e) :=
  (prevented_byte h (by decide)).2.zeros (by decide) fun _ => hnext

/-- What an encoder writes behind zeros makes no start code with them. -/
theorem prevented_zeros (r : Bytes) (zeros : Nat) (h : zeros ≤ 2) :
    Prevented (List.replicate zeros 0 ++ escape zeros r) := by
  induction r generalizing zeros with
  | nil =>
    have hzero : Prevented [0] := Prevented.nil.cons (by decide)
    obtain rfl | rfl | rfl : zeros = 0 ∨ zeros = 1 ∨ zeros = 2 := by omega
    · exact .nil
    · exact hzero
    · exact prevented_three .nil nofun
  | cons b rest ih =>
    by_cases hb : b = 0
    · subst hb
      obtain rfl | rfl | rfl : zeros = 0 ∨ zeros = 1 ∨ zeros = 2 := by omega
      · exact ih 1 (by decide)
      · exact ih 2 (by decide)
      · refine prevented_three (ih 1 (by decide)) fun c hc => ?_
        rw [← Option.some.inj hc]
        decide
    · have hrest := prevented_byte (ih 0 (by decide)) hb
      obtain rfl | rfl | rfl : zeros = 0 ∨ zeros = 1 ∨ zeros = 2 := by omega
      · rw [escape, if_neg (by omega), if_neg hb]
        exact hrest.1
      · rw [escape, if_neg (by omega), if_neg hb]
        exact hrest.2
      · rw [escape, if_neg hb, if_neg hb]
        split
        · rename_i hsmall
          refine prevented_three hrest.1 fun c hc => ?_
          rw [← Option.some.inj hc]
          exact hsmall.2
        · rename_i hlarge
          have hfour : 3 < b := UInt8.not_le.mp fun hle => hlarge ⟨le_rfl, hle⟩
          exact hrest.2.zeros (UInt8.le_of_lt hfour) fun hthree =>
            absurd (hthree ▸ hfour) (by decide)

/-- Bytes without a start code are an encoder's, also behind zeros. -/
theorem exists_escape {e : Bytes} {zeros : Nat} (hzeros : zeros ≤ 2)
    (h : Prevented (List.replicate zeros 0 ++ e)) : ∃ r, e = escape zeros r := by
  induction hn : e.length using Nat.strongRecOn generalizing e zeros with
  | ind n ih =>
    have hsuffix : e <:+ List.replicate zeros 0 ++ e := List.suffix_append _ _
    have hcount : ∀ {b : UInt8} {k : Nat}, k ≤ 1 → (if b = 0 then k + 1 else 0) ≤ 2 := by
      intro b k hk
      split <;> omega
    cases e with
    | nil =>
      have hfew : ¬ 2 ≤ zeros := fun htwo => by
        obtain rfl := Nat.le_antisymm hzeros htwo
        exact h.ending (List.suffix_refl _)
      exact ⟨[], by rw [escape, if_neg hfew]⟩
    | cons b rest =>
      rw [List.length_cons] at hn
      by_cases htwo : zeros = 2
      · subst htwo
        have hb : 3 ≤ b := h.code b (List.prefix_append [0, 0, b] rest).isInfix
        by_cases hthree : b = 3
        · subst hthree
          cases rest with
          | nil => exact ⟨[], rfl⟩
          | cons c rest =>
            -- the 03 was put in before `c`
            rw [List.length_cons] at hn
            have hc : c ≤ 3 := h.inserted c (List.prefix_append [0, 0, 3, c] rest).isInfix
            have hprevented : Prevented (List.replicate 0 0 ++ c :: rest) :=
              h.suffix ((List.suffix_cons 3 _).trans hsuffix)
            obtain ⟨r, hr⟩ := ih _ (by omega) (hcount (Nat.zero_le 1)) hprevented.behind rfl
            exact ⟨c :: r, by rw [escape, if_pos ⟨le_rfl, hc⟩, hr]⟩
        · have hlarge : ¬ b ≤ 3 := fun hle => hthree (UInt8.le_antisymm hle hb)
          have hne : b ≠ 0 := by
            rintro rfl
            exact hlarge (by decide)
          have hprevented : Prevented (List.replicate 0 0 ++ b :: rest) := h.suffix hsuffix
          obtain ⟨r, hr⟩ := ih _ (by omega) (hcount (Nat.zero_le 1)) hprevented.behind rfl
          refine ⟨b :: r, ?_⟩
          rw [escape, if_neg fun hboth => hlarge hboth.2, hr, if_neg hne, if_neg hne]
      · obtain ⟨r, hr⟩ := ih _ (by omega) (hcount (by omega)) h.behind rfl
        exact ⟨b :: r, by rw [escape, if_neg (by omega), hr]⟩

/-- The parser takes out what an encoder puts in. The encoder's bytes have no start code, and
no other bytes without one are read as the same. -/
theorem unescape_escape (r : Bytes) :
    ebspToRbsp (escape 0 r) = r ∧ Prevented (escape 0 r) ∧
      ∀ e, Prevented e → ebspToRbsp e = r → e = escape 0 r := by
  refine ⟨ebspToRbsp_zeros r 0 (Nat.zero_le 2), prevented_zeros r 0 (Nat.zero_le 2), ?_⟩
  intro e he hread
  obtain ⟨r', rfl⟩ := @exists_escape e 0 (Nat.zero_le 2) he
  have hsame : ebspToRbsp (escape 0 r') = r' := ebspToRbsp_zeros r' 0 (Nat.zero_le 2)
  rw [← hread, hsame]

end AirPlay.Mirror
