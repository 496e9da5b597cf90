import Mathlib.Logic.Function.Basic
import AirPlay.Library.Text

/-! Heads of messages, as their receiver reads them.

A head is lines up to an empty one, and behind the first of them each line is a field: a name,
a colon, a blank and a value. `Parses` reads a stream of messages, given how one is taken off
its front. -/
namespace Bytes

/-- The line of a field, without its end. -/
def headerLine (key value : Bytes) : Bytes := key ++ (bytes ": " ++ value)

/-- The lines up to an empty one, and what follows it. -/
def headLines (s : Bytes) : Option (List Bytes × Bytes) :=
  match _h : cut crlf s with
  | none => none
  | some (line, rest) =>
    if line = [] then some ([], rest)
    else (headLines rest).map fun p => (line :: p.1, p.2)
termination_by s.length
decreasing_by
  rw [cut_eq_some crlf_ne_nil _h, List.length_append, List.length_append]
  exact Nat.lt_add_of_pos_left (Nat.add_pos_right _ (by decide))

def readField (headers : Bytes → Option Bytes) (line : Bytes) : Bytes → Option Bytes :=
  match cut (bytes ": ") line with
  | none => headers
  | some (key, value) => Function.update headers key (some value)

/-- The value of a field. -/
def named (fields : List (Bytes × Bytes)) (key : Bytes) : Option Bytes := fields.lookup key

/-! ### Lines -/

/-- Text without a CR in front adds no CRLF. -/
theorem crlf_infix_append {a v : Bytes} (ha : 13 ∉ a) (hv : ¬ crlf <:+: v) :
    ¬ crlf <:+: a ++ v := by
  induction a with
  | nil => exact hv
  | cons b a ih =>
    rw [List.mem_cons, not_or] at ha
    rw [List.cons_append, List.infix_cons_iff, not_or]
    exact ⟨fun hprefix => ha.1 (List.cons_prefix_cons.mp hprefix).1, ih ha.2⟩

theorem not_crlf_of_not_mem {a : Bytes} (ha : 13 ∉ a) : ¬ crlf <:+: a :=
  fun hin => ha (hin.subset List.mem_cons_self)

/-- What stands before the first CRLF holds none. -/
theorem not_crlf_of_cut {s line rest : Bytes} (h : cut crlf s = some (line, rest)) :
    ¬ crlf <:+: line := by
  rintro ⟨x, y, hline⟩
  have hs : s = x ++ (crlf ++ (y ++ (crlf ++ rest))) := by
    rw [cut_eq_some crlf_ne_nil h, ← hline]
    simp only [List.append_assoc]
  have hlength := (cut_first crlf_ne_nil h hs).length_le
  rw [List.length_append, List.length_append] at hlength
  have hpos : 0 < crlf.length := by decide
  omega

theorem headerLine_line {key value : Bytes} (hkey : 13 ∉ key) (hvalue : ¬ crlf <:+: value) :
    headerLine key value ≠ [] ∧ ¬ crlf <:+: headerLine key value := by
  refine ⟨List.append_ne_nil_of_right_ne_nil _
    (List.append_ne_nil_of_left_ne_nil (by decide) _), ?_⟩
  exact crlf_infix_append hkey (crlf_infix_append (by decide) hvalue)

/-- The digits of a number, and its sign. -/
theorem signed_bytes (n : Int) : ∀ b ∈ signed n, b = 45 ∨ isDigit b = true := by
  intro b hb
  rw [signed] at hb
  split at hb
  · rcases List.mem_cons.mp hb with rfl | hb
    · exact Or.inl rfl
    · exact Or.inr (decimal_digits _ b hb)
  · exact Or.inr (decimal_digits _ b hb)

theorem not_mem_signed {c : UInt8} (hsign : c ≠ 45) (hdigit : isDigit c = false) (n : Int) :
    c ∉ signed n := by
  intro hc
  rcases signed_bytes n c hc with rfl | hdigit'
  · exact hsign rfl
  · exact Bool.false_ne_true (hdigit.symm.trans hdigit')

theorem not_mem_decimal {c : UInt8} (hdigit : isDigit c = false) (n : Nat) : c ∉ decimal n :=
  fun hc => Bool.false_ne_true (hdigit.symm.trans (decimal_digits n c hc))

theorem number_decimal (n : Nat) : number (decimal n) = some (n : Int) := by
  have hsigned := number_signed n
  rwa [signed, if_neg (by omega), Int.natAbs_natCast] at hsigned

/-- Lines that are none of them empty are read up to the empty one. -/
theorem headLines_unlines {lines : List Bytes} (h : ∀ line ∈ lines, line ≠ [] ∧ ¬ crlf <:+: line)
    (t : Bytes) : headLines (unlines lines ++ (crlf ++ t)) = some (lines, t) := by
  induction lines with
  | nil =>
    have hcut : cut crlf (unlines [] ++ (crlf ++ t)) = some ([], t) := cut_pattern crlf_ne_nil
    rw [headLines]
    split
    · rename_i hnone
      exact absurd (hcut.symm.trans hnone) (Option.some_ne_none _)
    · rename_i line rest hsome
      obtain ⟨rfl, rfl⟩ := Prod.mk.inj (Option.some.inj (hsome.symm.trans hcut))
      rfl
  | cons line lines ih =>
    obtain ⟨⟨hne, hcrlf⟩, hlines⟩ := List.forall_mem_cons.mp h
    have hcut : cut crlf (unlines (line :: lines) ++ (crlf ++ t)) =
        some (line, unlines lines ++ (crlf ++ t)) := by
      rw [unlines_cons, List.append_assoc, List.append_assoc]
      exact cut_line hcrlf _
    rw [headLines]
    split
    · rename_i hnone
      exact absurd (hcut.symm.trans hnone) (Option.some_ne_none _)
    · rename_i line' rest hsome
      obtain ⟨rfl, rfl⟩ := Prod.mk.inj (Option.some.inj (hsome.symm.trans hcut))
      rw [if_neg hne, ih hlines]
      rfl

theorem not_crlf_of_headLines {s rest : Bytes} {lines : List Bytes}
    (h : headLines s = some (lines, rest)) : ∀ line ∈ lines, ¬ crlf <:+: line := by
  induction hn : s.length using Nat.strong_induction_on generalizing s lines with
  | h n ih =>
    rw [headLines] at h
    split at h
    · exact absurd h.symm (Option.some_ne_none _)
    · rename_i line rest' hcut
      split at h
      · obtain ⟨rfl, -⟩ := Prod.mk.inj (Option.some.inj h)
        exact fun _ hmem => absurd hmem List.not_mem_nil
      · obtain ⟨⟨lines', t⟩, htail, heq⟩ := Option.map_eq_some_iff.mp h
        obtain ⟨rfl, rfl⟩ := Prod.mk.inj heq
        have hlt : rest'.length < n := by
          rw [← hn, cut_eq_some crlf_ne_nil hcut, List.length_append, List.length_append]
          exact Nat.lt_add_of_pos_left (Nat.add_pos_right _ (by decide))
        exact List.forall_mem_cons.mpr ⟨not_crlf_of_cut hcut, ih _ hlt htail rfl⟩

/-! ### Fields -/

/-- A name ends at the first colon. -/
theorem readField_line {key value : Bytes} (hkey : 58 ∉ key) (headers : Bytes → Option Bytes) :
    readField headers (headerLine key value) = Function.update headers key (some value) := by
  have hcut : cut (bytes ": ") (headerLine key value) = some (key, value) := by
    refine (cut_skip fun y hy hne hprefix => ?_).trans ?_
    · cases y with
      | nil => exact absurd rfl hne
      | cons b y =>
        have hb : (58 : UInt8) = b := (List.cons_prefix_cons.mp hprefix).1
        exact hkey (hb ▸ hy.subset List.mem_cons_self)
    · rw [cut_pattern (by decide)]
      simp
  rw [readField, hcut]

/-- Fields of different names are read as they are. -/
theorem foldl_readField {fields : List (Bytes × Bytes)} (hnames : ∀ f ∈ fields, 58 ∉ f.1)
    (hnodup : (fields.map Prod.fst).Nodup) (headers : Bytes → Option Bytes) (key : Bytes) :
    (fields.map fun f => headerLine f.1 f.2).foldl readField headers key =
      (named fields key <|> headers key) := by
  induction fields generalizing headers with
  | nil => rfl
  | cons f fields ih =>
    obtain ⟨hname, hnames⟩ := List.forall_mem_cons.mp hnames
    obtain ⟨hfresh, hnodup⟩ := List.nodup_cons.mp hnodup
    rw [List.map_cons, List.foldl_cons, readField_line hname, ih hnames hnodup, named, named]
    by_cases hkey : key = f.1
    · subst hkey
      have hnone : fields.lookup f.1 = none := by
        rw [List.lookup_eq_none_iff]
        intro p hp
        refine bne_iff_ne.mpr fun heq => ?_
        exact hfresh (List.mem_map.mpr ⟨p, hp, heq.symm⟩)
      rw [hnone, Function.update_self, List.lookup_cons_self]
      rfl
    · have hne : (key == f.1) = false := beq_eq_false_iff_ne.mpr hkey
      rw [Function.update_of_ne hkey]
      show _ = ((match key == f.1 with | true => some f.2 | false => fields.lookup key) <|> _)
      rw [hne]

/-- A value is part of a line. -/
theorem foldl_readField_isInfix (lines : List Bytes) (headers : Bytes → Option Bytes)
    {key v : Bytes} (h : lines.foldl readField headers key = some v) :
    (∃ line ∈ lines, v <:+: line) ∨ headers key = some v := by
  induction lines generalizing headers with
  | nil => exact .inr h
  | cons line lines ih =>
    rcases ih (readField headers line) h with ⟨line', hmem, hin⟩ | hhead
    · exact .inl ⟨line', List.mem_cons_of_mem _ hmem, hin⟩
    · cases hcut : cut (bytes ": ") line with
      | none =>
        rw [readField, hcut] at hhead
        exact .inr hhead
      | some p =>
        rw [readField, hcut] at hhead
        dsimp only at hhead
        by_cases hkey : key = p.1
        · rw [hkey, Function.update_self, Option.some.injEq] at hhead
          refine .inl ⟨line, List.mem_cons_self, ?_⟩
          rw [@cut_eq_some (bytes ": ") (by decide) line p.1 p.2 hcut, ← hhead]
          exact (List.suffix_append _ _).isInfix
        · rw [Function.update_of_ne hkey] at hhead
          exact .inr hhead

/-! ### Messages -/

/-- A stream is these messages, one after the other. -/
inductive Parses {α : Type} (read : Bytes → Option (α × Bytes)) : Bytes → List α → Prop
  | nil : Parses read [] []
  | cons {s rest : Bytes} {m : α} {ms : List α} (head : read s = some (m, rest))
      (tail : Parses read rest ms) : Parses read s (m :: ms)

section Messages
variable {α β : Type} {read : Bytes → Option (α × Bytes)}

/-- There is one way to read a stream. -/
theorem Parses.unique (hnil : read [] = none) {s : Bytes} {ms ms' : List α}
    (h : Parses read s ms) (h' : Parses read s ms') : ms = ms' := by
  induction h generalizing ms' with
  | nil =>
    cases h' with
    | nil => rfl
    | cons head tail => exact absurd (hnil.symm.trans head) (Option.some_ne_none _).symm
  | cons head tail ih =>
    cases h' with
    | nil => exact absurd (hnil.symm.trans head) (Option.some_ne_none _).symm
    | cons head' tail' =>
      obtain ⟨rfl, rfl⟩ := Prod.mk.inj (Option.some.inj (head.symm.trans head'))
      rw [ih tail']

/-- What is read whole whatever follows it is read one after the other. -/
theorem parses_flatten {xs : List β} {wire : β → Bytes → Prop} {m : β → α} {wires : List Bytes}
    (hread : ∀ x ∈ xs, ∀ w, wire x w → ∀ t, read (w ++ t) = some (m x, t))
    (hwires : List.Forall₂ wire xs wires) : Parses read wires.flatten (xs.map m) := by
  induction hwires with
  | nil => exact .nil
  | cons hwire htail ih =>
    obtain ⟨hx, hxs⟩ := List.forall_mem_cons.mp hread
    rw [List.flatten_cons, List.map_cons]
    exact .cons (hx _ hwire _) (ih hxs)

end Messages

end Bytes
