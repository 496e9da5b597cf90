import Mathlib.Data.List.DropRight
import AirPlay.Library.Bytes

/-! Delimited text: first occurrences, lines that CRLF ends, tokens and numbers.

What matters for a protocol that frames its messages with such text is that the first
occurrence of a delimiter does not move when more text arrives (`cut_append`), and that
lines free of the delimiter are found again one by one (`cut_line`, `cut_head`). -/
namespace Bytes

/-- `std::string::find`. -/
def find (pat s : Bytes) : Option Nat := (cut pat s).map fun p => p.1.length

/-- The pattern is in the text at one place at most. -/
def Once (pat s : Bytes) : Prop :=
  ∀ {x y x' y' : Bytes}, s = x ++ (pat ++ y) → s = x' ++ (pat ++ y') → x = x'

/-- `std::string::find` from a position on. -/
def findFrom (pat s : Bytes) (p : Nat) : Option Nat := (find pat (s.drop p)).map (p + ·)

/-- What stands between the next two `c` from a position on. -/
def between (c : UInt8) (s : Bytes) (p : Nat) : Bytes :=
  match findFrom [c] s p with
  | none => []
  | some opening =>
    match findFrom [c] s (opening + 1) with
    | none => []
    | some closing => (s.drop (opening + 1)).take (closing - opening - 1)

/-- What follows the first occurrence of a pattern. -/
def after (pat s : Bytes) : Option Bytes := (cut pat s).map Prod.snd

/-- What stands between the first two `c`. -/
def enclosed (c : UInt8) (s : Bytes) : Bytes := ((after [c] s).bind (cut [c])).elim [] Prod.fst

def crlf : Bytes := [13, 10]

/-- `std::isspace` in the C locale. -/
def isSpace (b : UInt8) : Bool := b = 32 || (9 ≤ b && b ≤ 13)

def isDigit (b : UInt8) : Bool := 48 ≤ b && b ≤ 57

/-- `>>` into a string: the next run of bytes that are no white space, and what follows. -/
def token (s : Bytes) : Option (Bytes × Bytes) :=
  let s := s.dropWhile isSpace
  if s = [] then none
  else some (s.takeWhile fun b => !isSpace b, s.dropWhile fun b => !isSpace b)

/-- The value of a run of digits. -/
def natural (digits : Bytes) : Nat := digits.foldl (fun n b => 10 * n + (b.toNat - 48)) 0

/-- Whether the number is negative, and what follows its sign. -/
def sign : Bytes → Bool × Bytes
  | 45 :: rest => (true, rest)
  | 43 :: rest => (false, rest)
  | s => (false, s)

/-- `std::to_string` of a number that may be negative. -/
def signed (n : Int) : Bytes := if n < 0 then 45 :: decimal n.natAbs else decimal n.natAbs

/-- The number that `strtoul` reads in base ten: white space and a sign may stand before
its digits, and anything may follow them. -/
def number (s : Bytes) : Option Int :=
  let (negative, s) := sign (s.dropWhile isSpace)
  let digits := s.takeWhile isDigit
  if digits = [] then none else some (if negative then -natural digits else natural digits)

/-! ### First occurrences -/

/-- What stands before the first `a`, and behind it. -/
theorem eq_of_append_cons {α : Type*} {a : α} {x y s t : List α} (hx : a ∉ x) (hy : a ∉ y)
    (h : x ++ a :: s = y ++ a :: t) : x = y ∧ s = t := by
  induction x generalizing y with
  | nil =>
    cases y with
    | nil => exact ⟨rfl, (List.cons.inj h).2⟩
    | cons b y => exact absurd ((List.cons.inj h).1 ▸ List.mem_cons_self) hy
  | cons b x ih =>
    rw [List.mem_cons, not_or] at hx
    cases y with
    | nil => exact absurd (List.cons.inj h).1.symm hx.1
    | cons c y =>
      rw [List.mem_cons, not_or] at hy
      obtain ⟨rfl, hxy⟩ := List.cons.inj h
      obtain ⟨rfl, hst⟩ := ih hx.2 hy.2 hxy
      exact ⟨rfl, hst⟩

theorem cut_pattern {pat t : Bytes} (hne : pat ≠ []) : cut pat (pat ++ t) = some ([], t) := by
  cases pat with
  | nil => exact absurd rfl hne
  | cons b pat =>
    rw [List.cons_append, cut, if_pos]
    · rw [← List.cons_append, List.drop_left]
    · exact List.isPrefixOf_iff_prefix.mpr (List.prefix_append (b :: pat) t)

theorem cut_cons_of_not {pat s : Bytes} {b : UInt8} (h : ¬ pat <+: b :: s) :
    cut pat (b :: s) = (cut pat s).map fun p => (b :: p.1, p.2) := by
  rw [cut, if_neg]
  rwa [List.isPrefixOf_iff_prefix]

/-- Where the pattern does not begin, it is not found. -/
theorem cut_skip {pat a t : Bytes} (h : ∀ y, y <:+ a → y ≠ [] → ¬ pat <+: y ++ t) :
    cut pat (a ++ t) = (cut pat t).map fun p => (a ++ p.1, p.2) := by
  induction a with
  | nil => exact (congrFun Option.map_id (cut pat t)).symm
  | cons b a ih =>
    have hb : ¬ pat <+: b :: (a ++ t) := h (b :: a) (List.suffix_refl _) (List.cons_ne_nil _ _)
    show cut pat (b :: (a ++ t)) = _
    rw [cut_cons_of_not hb, ih fun y hy => h y (hy.trans (List.suffix_cons b a)), Option.map_map]
    rfl

theorem after_cons_of_not {pat s : Bytes} {b : UInt8} (h : ¬ pat <+: b :: s) :
    after pat (b :: s) = after pat s := by
  rw [after, cut_cons_of_not h, Option.map_map]
  rfl

section Found
variable {pat : Bytes} (hne : pat ≠ [])
include hne

/-- A text that is cut has the pattern at its head, or is cut further on. -/
theorem cut_cons_eq_some {b : UInt8} {s x y : Bytes} (h : cut pat (b :: s) = some (x, y)) :
    (x = [] ∧ b :: s = pat ++ y) ∨
      ¬ pat <+: b :: s ∧ ∃ x', x = b :: x' ∧ cut pat s = some (x', y) := by
  by_cases hb : pat <+: b :: s
  · obtain ⟨t, ht⟩ := hb
    rw [← ht, cut_pattern hne] at h
    obtain ⟨rfl, rfl⟩ := Prod.mk.inj (Option.some.inj h)
    exact .inl ⟨rfl, ht.symm⟩
  · rw [cut_cons_of_not hb, Option.map_eq_some_iff] at h
    obtain ⟨⟨x', y'⟩, hcut, heq⟩ := h
    obtain ⟨rfl, rfl⟩ := Prod.mk.inj heq
    exact .inr ⟨hb, x', rfl, hcut⟩

theorem cut_nil : cut pat [] = none := by rw [cut, if_neg hne]

theorem cut_eq_some {s x y : Bytes} (h : cut pat s = some (x, y)) : s = x ++ pat ++ y := by
  induction s generalizing x with
  | nil => exact absurd ((cut_nil hne).symm.trans h) (Option.some_ne_none _).symm
  | cons b s ih =>
    rcases cut_cons_eq_some hne h with ⟨rfl, hs⟩ | ⟨-, x', rfl, hcut⟩
    · exact hs
    · rw [ih hcut]
      rfl

/-- What follows any occurrence is an end of what follows the first. -/
theorem cut_first {s x y x' y' : Bytes} (h : cut pat s = some (x, y)) (hs : s = x' ++ (pat ++ y')) :
    y' <:+ y := by
  induction s generalizing x x' with
  | nil => exact absurd ((cut_nil hne).symm.trans h) (Option.some_ne_none _).symm
  | cons b s ih =>
    rcases cut_cons_eq_some hne h with ⟨-, hy⟩ | ⟨hb, x₁, -, hcut⟩
    · have hsuffix : y' <:+ pat ++ y := by
        rw [← hy, hs, ← List.append_assoc]
        exact List.suffix_append _ _
      refine List.suffix_of_suffix_length_le hsuffix (List.suffix_append pat y) ?_
      have hlength := congrArg List.length (hy.symm.trans hs)
      rw [List.length_append, List.length_append, List.length_append] at hlength
      omega
    · cases x' with
      | nil => exact absurd (hs ▸ List.prefix_append pat y') hb
      | cons c x' => exact ih hcut (List.cons.inj hs).2

theorem cut_isSome {s : Bytes} (h : pat <:+: s) : (cut pat s).isSome = true := by
  induction s with
  | nil => exact absurd (List.eq_nil_of_infix_nil h) hne
  | cons b s ih =>
    by_cases hb : pat <+: b :: s
    · obtain ⟨t, ht⟩ := hb
      rw [← ht, cut_pattern hne]
      rfl
    · rw [cut_cons_of_not hb, Option.isSome_map]
      rcases List.infix_cons_iff.mp h with hp | hs
      · exact absurd hp hb
      · exact ih hs

theorem cut_eq_none_iff {s : Bytes} : cut pat s = none ↔ ¬ pat <:+: s := by
  constructor
  · intro hnone hin
    have hsome := cut_isSome hne hin
    rw [hnone] at hsome
    exact Bool.false_ne_true hsome
  · intro hin
    cases hcut : cut pat s with
    | none => rfl
    | some p => exact absurd ⟨p.1, p.2, (cut_eq_some hne hcut).symm⟩ hin

/-- An only occurrence is where the text is cut. -/
theorem cut_of_once {s x y : Bytes} (honce : Once pat s) (hs : s = x ++ (pat ++ y)) :
    cut pat s = some (x, y) := by
  have hin : pat <:+: s := ⟨x, y, by rw [hs, List.append_assoc]⟩
  obtain ⟨⟨x', y'⟩, hcut⟩ := Option.isSome_iff_exists.mp (cut_isSome hne hin)
  have hs' := (cut_eq_some hne hcut).trans (List.append_assoc x' pat y')
  obtain rfl := honce hs' hs
  rw [hcut, List.append_cancel_left (List.append_cancel_left (hs'.symm.trans hs))]

/-- What is not found again behind its first byte is there once. -/
theorem once_of_cut {s x y : Bytes} (h : cut pat s = some (x, y))
    (hagain : cut pat (pat ++ y).tail = none) : Once pat s := by
  have hs : s = x ++ (pat ++ y) := (cut_eq_some hne h).trans (List.append_assoc x pat y)
  have hfirst : ∀ {x' y'}, s = x' ++ (pat ++ y') → x' = x := by
    intro x' y' hs'
    have hle := (cut_first hne h hs').length_le
    have hlength := congrArg List.length (hs.symm.trans hs')
    simp only [List.length_append] at hlength
    rcases List.append_eq_append_iff.mp (hs'.symm.trans hs) with ⟨mid, hx, -⟩ | ⟨mid, hx, hmid⟩
    · have hmid := congrArg List.length hx
      rw [List.length_append] at hmid
      have : mid = [] := List.length_eq_zero_iff.mp (by omega)
      rw [hx, this, List.append_nil]
    · cases mid with
      | nil => rw [hx, List.append_nil]
      | cons b mid =>
        have hin : pat <:+: (pat ++ y).tail := ⟨mid, y', by rw [hmid, List.append_assoc]; rfl⟩
        exact absurd hin ((cut_eq_none_iff hne).mp hagain)
  intro x₁ y₁ x₂ y₂ hs₁ hs₂
  exact (hfirst hs₁).trans (hfirst hs₂).symm

/-- The first occurrence stays the first when more text arrives. -/
theorem cut_append {s x y : Bytes} (h : cut pat s = some (x, y)) (t : Bytes) :
    cut pat (s ++ t) = some (x, y ++ t) := by
  induction s generalizing x with
  | nil => exact absurd ((cut_nil hne).symm.trans h) (Option.some_ne_none _).symm
  | cons b s ih =>
    rcases cut_cons_eq_some hne h with ⟨rfl, hs⟩ | ⟨hb, x', rfl, hcut⟩
    · rw [hs, List.append_assoc, cut_pattern hne]
    · have hlen : pat.length ≤ (b :: s).length := by
        rw [cut_eq_some hne hcut]
        simp only [List.length_cons, List.length_append]
        omega
      have hmore : ¬ pat <+: b :: (s ++ t) := fun hp =>
        hb (List.prefix_of_prefix_length_le hp (List.prefix_append (b :: s) t) hlen)
      show cut pat (b :: (s ++ t)) = _
      rw [cut_cons_of_not hmore, ih hcut]
      rfl

theorem after_suffix {s y : Bytes} (h : after pat s = some y) : y <:+ s := by
  obtain ⟨⟨x, _⟩, hcut, rfl⟩ := Option.map_eq_some_iff.mp h
  exact ⟨x ++ pat, (cut_eq_some hne hcut).symm⟩

theorem after_append {s y : Bytes} (h : after pat s = some y) (t : Bytes) :
    after pat (s ++ t) = some (y ++ t) := by
  obtain ⟨⟨x, _⟩, hcut, rfl⟩ := Option.map_eq_some_iff.mp h
  rw [after, cut_append hne hcut t, Option.map_some]

theorem after_of_not_mem {c : UInt8} {s : Bytes} (hc : c ∈ pat) (h : c ∉ s) :
    after pat s = none :=
  Option.map_eq_none_iff.mpr ((cut_eq_none_iff hne).mpr fun hin => h (hin.subset hc))

/-- Behind a byte that the pattern does not have it is looked for afresh. -/
theorem after_separated {c : UInt8} {a : Bytes} (hc : c ∉ pat) (h : after pat a = none)
    (t : Bytes) : after pat (a ++ c :: t) = after pat t := by
  have hin : ¬ pat <:+: a := (cut_eq_none_iff hne).mp (Option.map_eq_none_iff.mp h)
  have hhead : ∀ {y}, y <:+: a → ¬ pat <+: y ++ c :: t := by
    intro y hy hp
    rw [List.append_cons] at hp
    rcases List.prefix_or_prefix_of_prefix hp (List.prefix_append (y ++ [c]) t) with hp | hp
    · rcases List.prefix_concat_iff.mp hp with rfl | hp
      · exact hc (List.mem_append_right y List.mem_cons_self)
      · exact hin (hp.isInfix.trans hy)
    · exact hc (hp.subset (List.mem_append_right y List.mem_cons_self))
  have hskip := after_cons_of_not (hhead a.nil_infix)
  rw [after, cut_skip (fun y hy _ => hhead hy.isInfix), Option.map_map]
  exact hskip

end Found

/-- A name before an equals sign is found where it ends what stands there. -/
theorem after_named {e : UInt8} {name n : Bytes} (hname : e ∉ name) (hn : e ∉ n) (v : Bytes) :
    after (name ++ [e]) (n ++ e :: v) =
      if name <:+ n then some v else after (name ++ [e]) v := by
  have hpattern : ∀ t, after (name ++ [e]) (name ++ e :: t) = some t := by
    intro t
    rw [List.append_cons name e t, after, cut_pattern (by simp), Option.map_some]
  have hstarts : ∀ {m}, e ∉ m → (name ++ [e] <+: m ++ e :: v ↔ name = m) := by
    intro m hm
    constructor
    · rintro ⟨t, ht⟩
      rw [List.append_assoc, List.singleton_append] at ht
      exact (eq_of_append_cons hname hm ht).1
    · rintro rfl
      exact ⟨v, (List.append_cons name e v).symm⟩
  induction n with
  | nil =>
    by_cases hnil : name = []
    · subst hnil
      rw [if_pos (List.suffix_refl [])]
      exact hpattern v
    · rw [if_neg (fun hs => hnil (List.suffix_nil.mp hs))]
      exact after_cons_of_not fun hp => hnil ((hstarts List.not_mem_nil).mp hp)
  | cons b n ih =>
    have hn' : e ∉ n := fun h => hn (List.mem_cons_of_mem b h)
    by_cases hwhole : name = b :: n
    · rw [if_pos (hwhole ▸ List.suffix_refl _), ← hwhole, hpattern]
    · have hiff : name <:+ b :: n ↔ name <:+ n :=
        List.suffix_cons_iff.trans (or_iff_right hwhole)
      simp only [hiff, ← ih hn']
      exact after_cons_of_not fun hp => hwhole ((hstarts hn).mp hp)

theorem find_of_cut {pat s before rest : Bytes} (h : cut pat s = some (before, rest)) :
    find pat s = some before.length := by rw [find, h, Option.map_some]

theorem find_eq_some {pat s : Bytes} {pos : Nat} (hne : pat ≠ []) (h : find pat s = some pos) :
    ∃ before after, s = before ++ pat ++ after ∧ pos = before.length := by
  obtain ⟨⟨before, after⟩, hcut, rfl⟩ := Option.map_eq_some_iff.mp h
  exact ⟨before, after, cut_eq_some hne hcut, rfl⟩

theorem findFrom_append (pat a t : Bytes) :
    findFrom pat (a ++ t) a.length = (find pat t).map (a.length + ·) := by
  rw [findFrom, List.drop_left]

/-- What is found lies behind where the search began, and before the end. -/
theorem findFrom_bounds {pat s : Bytes} {p pos : Nat} (hne : pat ≠ [])
    (h : findFrom pat s p = some pos) : p ≤ pos ∧ pos + pat.length ≤ s.length := by
  obtain ⟨k, hk, rfl⟩ := Option.map_eq_some_iff.mp h
  obtain ⟨before, after, hs, rfl⟩ := find_eq_some hne hk
  have hlength := congrArg List.length hs
  have hpos := List.length_pos_of_ne_nil hne
  rw [List.length_drop, List.length_append, List.length_append] at hlength
  omega

/-- The first occurrence in a stream is found in what has arrived of it as soon as all
of the occurrence has. -/
theorem find_arrived {pat before after buffer rest : Bytes} (hne : pat ≠ [])
    (hcut : cut pat (buffer ++ rest) = some (before, after)) :
    find pat buffer = some before.length ∧ before ++ pat <+: buffer ∨
      find pat buffer = none ∧ buffer.length < (before ++ pat).length := by
  cases hfind : cut pat buffer with
  | some p =>
    have hmore := cut_append (x := p.1) (y := p.2) hne hfind rest
    rw [hcut] at hmore
    obtain ⟨hbefore, -⟩ := Prod.mk.inj (Option.some.inj hmore)
    refine .inl ⟨by rw [find, hfind, Option.map_some, hbefore], ?_⟩
    rw [cut_eq_some (x := p.1) (y := p.2) hne hfind, hbefore]
    exact List.prefix_append _ _
  | none =>
    refine .inr ⟨by rw [find, hfind, Option.map_none], ?_⟩
    by_contra hle
    have hstarts : before ++ pat <+: buffer := List.prefix_of_prefix_length_le
      (cut_eq_some hne hcut ▸ List.prefix_append (before ++ pat) after)
      (List.prefix_append buffer rest) (not_lt.mp hle)
    have hin : pat <:+: buffer := (List.suffix_append before pat).isInfix.trans hstarts.isInfix
    exact absurd hin ((cut_eq_none_iff hne).mp hfind)

/-- A single byte is found behind what does not hold it. -/
theorem cut_byte {c : UInt8} {a : Bytes} (h : c ∉ a) (t : Bytes) :
    cut [c] (a ++ c :: t) = some (a, t) := by
  rw [cut_skip, cut]
  · simp
  · intro y hy hne hp
    cases y with
    | nil => exact hne rfl
    | cons b y =>
      obtain ⟨rfl, -⟩ := List.cons_prefix_cons.mp hp
      exact h (hy.subset List.mem_cons_self)

/-- What a byte is found behind does not hold it. -/
theorem not_mem_of_cut {c : UInt8} {s a t : Bytes} (h : cut [c] s = some (a, t)) : c ∉ a := by
  intro hc
  obtain ⟨a₁, a₂, rfl, -⟩ := List.eq_append_cons_of_mem hc
  have hsplit : s = a₁ ++ ([c] ++ (a₂ ++ ([c] ++ t))) := by
    rw [cut_eq_some (List.cons_ne_nil c []) h]
    simp only [List.append_assoc, List.cons_append, List.nil_append]
  have hle := (cut_first (List.cons_ne_nil c []) h hsplit).length_le
  rw [List.length_append, List.length_append, List.length_singleton] at hle
  omega

theorem cut_byte_none {c : UInt8} {s : Bytes} (h : c ∉ s) : cut [c] s = none := by
  cases hcut : cut [c] s with
  | none => rfl
  | some p =>
    have hs := cut_eq_some (List.cons_ne_nil c []) (x := p.1) (y := p.2) hcut
    exact absurd (by rw [hs]; simp) h

theorem between_start (c : UInt8) (start s : Bytes) :
    between c (start ++ s) start.length = enclosed c s := by
  have hopening : findFrom [c] (start ++ s) start.length = (find [c] s).map (start.length + ·) :=
    findFrom_append [c] start s
  unfold between
  cases hcut : cut [c] s with
  | none => simp only [hopening, find, enclosed, after, hcut, Option.map_none, Option.bind_none,
      Option.elim_none]
  | some p =>
    obtain ⟨gap, t⟩ := p
    have hs : s = gap ++ [c] ++ t := cut_eq_some (List.cons_ne_nil c []) hcut
    have htext : start ++ s = (start ++ (gap ++ [c])) ++ t := by
      rw [hs, List.append_assoc, List.append_assoc, List.append_assoc]
    have hlength : (start ++ (gap ++ [c])).length = start.length + gap.length + 1 := by
      rw [List.length_append, List.length_append, ← Nat.add_assoc]
      rfl
    have hclosing : findFrom [c] (start ++ s) (start.length + gap.length + 1) =
        (find [c] t).map (start.length + gap.length + 1 + ·) := by
      rw [htext, ← hlength, findFrom_append]
    have hdrop : (start ++ s).drop (start.length + gap.length + 1) = t := by
      rw [htext, ← hlength, List.drop_left]
    simp only [hopening, find_of_cut hcut, Option.map_some, hclosing, hdrop, enclosed, after,
      hcut, Option.bind_some]
    cases hcut' : cut [c] t with
    | none => simp only [find, hcut', Option.map_none, Option.elim_none]
    | some p =>
      obtain ⟨value, b⟩ := p
      have ht : t = value ++ [c] ++ b := cut_eq_some (List.cons_ne_nil c []) hcut'
      have hwidth : start.length + gap.length + 1 + value.length -
          (start.length + gap.length) - 1 = value.length := by omega
      simp only [find_of_cut hcut', Option.map_some, Option.elim_some, hwidth]
      rw [ht, List.append_assoc, List.take_left]

theorem after_byte {c : UInt8} {a : Bytes} (h : c ∉ a) (t : Bytes) :
    after [c] (a ++ c :: t) = some t := by rw [after, cut_byte h, Option.map_some]

theorem enclosed_of_not_mem {c : UInt8} {s : Bytes} (h : c ∉ s) : enclosed c s = [] := by
  rw [enclosed, after, cut_byte_none h, Option.map_none, Option.bind_none, Option.elim_none]

theorem enclosed_skip {c : UInt8} {a : Bytes} (h : c ∉ a) (s : Bytes) :
    enclosed c (a ++ s) = enclosed c s := by
  have hskip : cut [c] (a ++ s) = (cut [c] s).map fun p => (a ++ p.1, p.2) := by
    refine cut_skip fun y hy hne hp => ?_
    cases y with
    | nil => exact hne rfl
    | cons b y =>
      obtain ⟨rfl, -⟩ := List.cons_prefix_cons.mp hp
      exact h (hy.subset List.mem_cons_self)
  rw [enclosed, enclosed, after, after, hskip, Option.map_map]
  rfl

theorem enclosed_append {c : UInt8} {gap value : Bytes} (hgap : c ∉ gap) (hvalue : c ∉ value)
    (b : Bytes) : enclosed c (gap ++ c :: (value ++ c :: b)) = value := by
  rw [enclosed, after_byte hgap, Option.bind_some, cut_byte hvalue, Option.elim_some]

/-- The first two `c` behind a position. -/
theorem between_append {c : UInt8} (start : Bytes) {gap value : Bytes} (hgap : c ∉ gap)
    (hvalue : c ∉ value) (b : Bytes) :
    between c (start ++ (gap ++ c :: (value ++ c :: b))) start.length = value :=
  (between_start c start _).trans (enclosed_append hgap hvalue b)

/-- A byte is found where the bytes before it end, or not at all. -/
theorem find_byte (c : UInt8) (s : Bytes) :
    (find [c] s = none ∧ s.dropWhile (· ≠ c) = []) ∨
      ∃ pos, find [c] s = some pos ∧ s.drop pos = s.dropWhile (· ≠ c) ∧ s.drop pos ≠ [] := by
  by_cases hc : c ∈ s
  · obtain ⟨a, t, rfl, ha⟩ := List.eq_append_cons_of_mem hc
    refine .inr ⟨a.length, ?_, ?_, ?_⟩
    · rw [find, cut_byte ha, Option.map_some]
    · rw [List.drop_left, List.dropWhile_append_of_pos, List.dropWhile_cons_of_neg (by simp)]
      exact fun b hb => decide_eq_true fun hbc => ha (hbc ▸ hb)
    · rw [List.drop_left]
      exact List.cons_ne_nil c t
  · refine .inl ⟨?_, List.dropWhile_eq_nil_iff.mpr fun b hb => ?_⟩
    · rw [find, cut_byte_none hc, Option.map_none]
    · exact decide_eq_true fun hbc => hc (hbc ▸ hb)

/-! ### Lines -/

theorem lines_line {line : Bytes} (h : 10 ∉ line) (rest : Bytes) :
    lines (line ++ 10 :: rest) = (line, true) :: lines rest := by
  induction line with
  | nil => rfl
  | cons b line ih =>
    rw [List.mem_cons, not_or] at h
    rw [List.cons_append, lines, if_neg (Ne.symm h.1), ih h.2]

theorem lines_last {line : Bytes} (h : 10 ∉ line) (hne : line ≠ []) :
    lines line = [(line, false)] := by
  induction line with
  | nil => exact absurd rfl hne
  | cons b line ih =>
    rw [List.mem_cons, not_or] at h
    rw [lines, if_neg (Ne.symm h.1)]
    cases line with
    | nil => rfl
    | cons c line => rw [ih h.2 (List.cons_ne_nil c line)]

/-- A text is empty, or begins with a line that is ended, or is its last line. -/
theorem lines_cases (s : Bytes) :
    s = [] ∨ (∃ line rest, s = line ++ 10 :: rest ∧ 10 ∉ line) ∨ s ≠ [] ∧ 10 ∉ s := by
  by_cases hnl : 10 ∈ s
  · obtain ⟨line, rest, rfl, hline⟩ := List.eq_append_cons_of_mem hnl
    exact .inr (.inl ⟨line, rest, rfl, hline⟩)
  · by_cases hs : s = []
    · exact .inl hs
    · exact .inr (.inr ⟨hs, hnl⟩)

theorem not_mem_of_mem_lines {s line : Bytes} {ended : Bool} (h : (line, ended) ∈ lines s) :
    10 ∉ line := by
  induction hn : s.length using Nat.strongRecOn generalizing s with
  | ind n ih =>
    rcases lines_cases s with rfl | ⟨first, rest, rfl, hfirst⟩ | ⟨hne, hs⟩
    · exact absurd h List.not_mem_nil
    · rw [lines_line hfirst] at h
      rcases List.mem_cons.mp h with heq | h
      · rwa [(Prod.mk.inj heq).1]
      · refine ih rest.length ?_ h rfl
        rw [← hn, List.length_append, List.length_cons]
        omega
    · rw [lines_last hs hne] at h
      rwa [(Prod.mk.inj (List.mem_singleton.mp h)).1]

theorem crlf_ne_nil : crlf ≠ [] := List.cons_ne_nil _ _

/-- A CRLF does not begin within a line that holds none, even at its last byte. -/
theorem crlf_not_prefix {line t : Bytes} (h : ¬ crlf <:+: line) (hne : line ≠ []) :
    ¬ crlf <+: line ++ (crlf ++ t) := by
  intro hp
  match line with
  | [] => exact hne rfl
  | [b] =>
    have hten : (10 : UInt8) = 13 := (List.cons_prefix_cons.mp (List.cons_prefix_cons.mp hp).2).1
    exact absurd hten (by decide)
  | b :: c :: line =>
    obtain ⟨rfl, hc⟩ := List.cons_prefix_cons.mp hp
    obtain ⟨rfl, -⟩ := List.cons_prefix_cons.mp hc
    exact h (List.prefix_append crlf line).isInfix

theorem crlf_not_prefix_of_suffix {line y t : Bytes} (h : ¬ crlf <:+: line) (hy : y <:+ line)
    (hne : y ≠ []) : ¬ crlf <+: y ++ (crlf ++ t) :=
  crlf_not_prefix (fun hin => h (hin.trans hy.isInfix)) hne

/-- A line that holds no CRLF, and the CRLF that ends it. -/
theorem cut_line {line : Bytes} (h : ¬ crlf <:+: line) (t : Bytes) :
    cut crlf (line ++ (crlf ++ t)) = some (line, t) := by
  rw [cut_skip fun y hy hne => crlf_not_prefix_of_suffix h hy hne, cut_pattern crlf_ne_nil,
    Option.map_some, List.append_nil]

/-- A line before the empty one. -/
theorem cut_head_line {line t : Bytes} (h : ¬ crlf <:+: line) (ht : ¬ crlf <+: t) :
    cut (crlf ++ crlf) (line ++ (crlf ++ t)) =
      (cut (crlf ++ crlf) t).map fun p => (line ++ (crlf ++ p.1), p.2) := by
  have hline : ∀ y, y <:+ line → y ≠ [] → ¬ crlf ++ crlf <+: y ++ (crlf ++ t) :=
    fun y hy hne hp => crlf_not_prefix_of_suffix h hy hne ((List.prefix_append _ _).trans hp)
  have hcr : ¬ crlf ++ crlf <+: 13 :: 10 :: t :=
    fun hp => ht (List.prefix_append_right_inj crlf |>.mp hp)
  have hlf : ¬ crlf ++ crlf <+: 10 :: t :=
    fun hp => absurd (List.cons_prefix_cons.mp hp).1 (by decide)
  rw [cut_skip hline]
  show (cut (crlf ++ crlf) (13 :: 10 :: t)).map _ = _
  rw [cut_cons_of_not hcr, cut_cons_of_not hlf, Option.map_map, Option.map_map]
  rfl

/-- Lines, each with its CRLF. -/
def unlines (lines : List Bytes) : Bytes := lines.flatMap (· ++ crlf)

theorem unlines_cons (line : Bytes) (lines : List Bytes) :
    unlines (line :: lines) = line ++ (crlf ++ unlines lines) := by
  rw [unlines, List.flatMap_cons, ← unlines, List.append_assoc]

/-- The empty line after non-empty ones is where CRLF first comes twice. -/
theorem cut_head (lines : List Bytes) (hne : lines ≠ [])
    (h : ∀ line ∈ lines, line ≠ [] ∧ ¬ crlf <:+: line) (t : Bytes) :
    ∃ before, cut (crlf ++ crlf) (unlines lines ++ (crlf ++ t)) = some (before, t) ∧
      before ++ crlf = unlines lines := by
  induction lines with
  | nil => exact absurd rfl hne
  | cons line lines ih =>
    obtain ⟨⟨-, hline⟩, hlines⟩ := List.forall_mem_cons.mp h
    rw [unlines_cons, List.append_assoc, List.append_assoc]
    cases lines with
    | nil =>
      refine ⟨line, ?_, rfl⟩
      rw [cut_skip fun y hy hne hp => ?_]
      · show (cut (crlf ++ crlf) (crlf ++ crlf ++ t)).map _ = _
        rw [cut_pattern (List.append_ne_nil_of_left_ne_nil crlf_ne_nil _), Option.map_some,
          List.append_nil]
      · exact crlf_not_prefix_of_suffix hline hy hne ((List.prefix_append _ _).trans hp)
    | cons next lines =>
      obtain ⟨before, hcut, hbefore⟩ := ih (List.cons_ne_nil _ _) hlines
      obtain ⟨⟨hnext, hcrlf⟩, -⟩ := List.forall_mem_cons.mp hlines
      refine ⟨line ++ (crlf ++ before), ?_, ?_⟩
      · rw [cut_head_line hline, hcut]
        · rfl
        · rw [unlines_cons, List.append_assoc, List.append_assoc]
          exact crlf_not_prefix hcrlf hnext
      · rw [List.append_assoc, List.append_assoc, hbefore, ← List.append_assoc]

/-! ### Tokens and numbers -/

/-- A run of bytes of one kind, where no such byte follows. -/
theorem span_append {p : UInt8 → Bool} {word rest : Bytes} (hword : ∀ b ∈ word, p b = true)
    (hrest : ∀ b ∈ rest.head?, p b = false) :
    (word ++ rest).takeWhile p = word ∧ (word ++ rest).dropWhile p = rest := by
  rw [List.takeWhile_append_of_pos hword, List.dropWhile_append_of_pos hword]
  cases rest with
  | nil => exact ⟨List.append_nil word, rfl⟩
  | cons b rest =>
    have hb : ¬ p b = true := by
      rw [hrest b rfl]
      exact Bool.false_ne_true
    rw [List.takeWhile_cons_of_neg hb, List.dropWhile_cons_of_neg hb]
    exact ⟨List.append_nil word, rfl⟩

theorem token_eq_none_iff {s : Bytes} : token s = none ↔ ∀ b ∈ s, isSpace b = true := by
  rw [token, ← List.dropWhile_eq_nil_iff]
  by_cases hnil : s.dropWhile isSpace = []
  · rw [if_pos hnil]
    exact iff_of_true rfl hnil
  · rw [if_neg hnil]
    exact iff_of_false (Option.some_ne_none _) hnil

/-- A word after blanks, up to more white space. -/
theorem token_word {blanks word rest : Bytes} (hblanks : ∀ b ∈ blanks, isSpace b = true)
    (hne : word ≠ []) (hword : ∀ b ∈ word, isSpace b = false)
    (hrest : ∀ b ∈ rest.head?, isSpace b = true) :
    token (blanks ++ (word ++ rest)) = some (word, rest) := by
  have hdrop : (blanks ++ (word ++ rest)).dropWhile isSpace = word ++ rest := by
    rw [List.dropWhile_append_of_pos hblanks]
    cases word with
    | nil => exact absurd rfl hne
    | cons b word =>
      rw [List.cons_append, List.dropWhile_cons_of_neg]
      rw [hword b List.mem_cons_self]
      exact Bool.false_ne_true
  obtain ⟨htake, hleft⟩ := @span_append (fun b => !isSpace b) word rest
    (fun b hb => by rw [hword b hb]; rfl) (fun b hb => by rw [hrest b hb]; rfl)
  rw [token, hdrop, if_neg (List.append_ne_nil_of_left_ne_nil hne _), htake, hleft]

theorem isDigit_iff {b : UInt8} : isDigit b = true ↔ 48 ≤ b.toNat ∧ b.toNat ≤ 57 := by
  rw [isDigit, Bool.and_eq_true, decide_eq_true_iff, decide_eq_true_iff, UInt8.le_iff_toNat_le,
    UInt8.le_iff_toNat_le]
  rfl

theorem dropWhile_digit {b : UInt8} (h : isDigit b = true) (rest : Bytes) :
    (b :: rest).dropWhile isSpace = b :: rest := by
  have hb : 48 ≤ b.toNat := (isDigit_iff.mp h).1
  have hspace : ¬ isSpace b = true := by
    rw [isSpace, Bool.or_eq_true, Bool.and_eq_true, decide_eq_true_iff, decide_eq_true_iff,
      decide_eq_true_iff]
    rintro (rfl | ⟨-, hle⟩)
    · exact absurd hb (by decide)
    · exact absurd (hb.trans (UInt8.le_iff_toNat_le.mp hle)) (by decide)
  exact List.dropWhile_cons_of_neg hspace

theorem sign_digit {b : UInt8} (h : isDigit b = true) (rest : Bytes) :
    sign (b :: rest) = (false, b :: rest) := by
  have hb : 48 ≤ b.toNat := (isDigit_iff.mp h).1
  rw [sign.eq_3]
  · rintro rest heq
    rw [(List.cons.inj heq).1] at hb
    exact absurd hb (by decide)
  · rintro rest heq
    rw [(List.cons.inj heq).1] at hb
    exact absurd hb (by decide)

/-- Digits alone are read as they stand. -/
theorem number_digits {digits : Bytes} (hne : digits ≠ []) (h : ∀ b ∈ digits, isDigit b = true) :
    number digits = some (natural digits : Int) := by
  cases digits with
  | nil => exact absurd rfl hne
  | cons b digits =>
    have hall : (b :: digits).takeWhile isDigit = b :: digits := List.takeWhile_eq_self_iff.mpr h
    have hb := h b List.mem_cons_self
    rw [number, dropWhile_digit hb, sign_digit hb]
    simp only [hall]
    rfl

theorem decimal_ne_nil (n : Nat) : decimal n ≠ [] := by
  rw [decimal, Ne, List.map_eq_nil_iff]
  exact Nat.toDigits_ne_nil

private theorem toNat_digit {n : Nat} {c : Char} (hc : c ∈ Nat.toDigits 10 n) :
    (UInt8.ofNat c.toNat).toNat = c.toNat ∧ 48 ≤ c.toNat ∧ c.toNat ≤ 57 := by
  have hdigit := Nat.isDigit_of_mem_toDigits (by decide) (by decide) hc
  rw [Char.isDigit, Bool.and_eq_true, decide_eq_true_iff, decide_eq_true_iff] at hdigit
  have hle : c.toNat ≤ 57 := hdigit.2
  refine ⟨?_, hdigit.1, hle⟩
  rw [UInt8.toNat_ofNat', Nat.mod_eq_of_lt (by omega)]

theorem decimal_digits (n : Nat) : ∀ b ∈ decimal n, isDigit b = true := by
  intro b hb
  obtain ⟨c, hc, rfl⟩ := List.mem_map.mp hb
  obtain ⟨hback, hdigit⟩ := toNat_digit hc
  rwa [isDigit_iff, hback]

/-- What is printed is read back. -/
theorem natural_decimal (n : Nat) : natural (decimal n) = n := by
  have hfold : ∀ (cs : List Char) (m : Nat), cs ⊆ Nat.toDigits 10 n →
      (cs.map fun c => UInt8.ofNat c.toNat).foldl (fun n b => 10 * n + (b.toNat - 48)) m =
        Nat.ofDigitChars 10 cs m := by
    intro cs
    induction cs with
    | nil => exact fun m _ => rfl
    | cons c cs ih =>
      intro m hcs
      obtain ⟨hc, hcs⟩ := List.cons_subset.mp hcs
      rw [List.map_cons, List.foldl_cons, (toNat_digit hc).1, ih _ hcs, Nat.ofDigitChars_cons]
      rfl
  rw [natural, decimal, hfold _ _ (List.Subset.refl _), Nat.ofDigitChars_ten_toDigits]

/-- A number that is printed is read back. -/
theorem number_signed (n : Int) : number (signed n) = some n := by
  rw [signed]
  split
  · have hall : (decimal n.natAbs).takeWhile isDigit = decimal n.natAbs :=
      List.takeWhile_eq_self_iff.mpr (decimal_digits _)
    have hvalue : -(n.natAbs : Int) = n := by omega
    rw [number, List.dropWhile_cons_of_neg (by decide), sign]
    simp only [hall]
    rw [if_neg (decimal_ne_nil _), if_pos trivial, natural_decimal, hvalue]
  · rw [number_digits (decimal_ne_nil _) (decimal_digits _), natural_decimal]
    congr 1
    omega

theorem decimal_injective : Function.Injective decimal := by
  intro m n h
  rw [← natural_decimal m, h, natural_decimal]

end Bytes
