import Mathlib.Data.List.Pairwise
import Mathlib.Data.Int.Cast.Basic
import Mathlib.Algebra.Ring.Int.Defs

/-! Items on a timeline.

A block is a starting position and the items that follow one another from there.
A list of blocks lays its items out at positions (`laid`). Cutting a block at a
position keeps exactly the items on one side of it, whatever the block's
alignment, and blocks that do not overlap lay their items out in strictly
increasing positions. -/

namespace Timeline
variable {P Q β : Type*}

/-- Items at consecutive positions from `p` on. -/
def stamps [Add P] [One P] (p : P) : List β → List (P × β)
  | [] => []
  | x :: xs => (p, x) :: stamps (p + 1) xs

/-- The items of a list of blocks, each at its position. -/
def laid [Add P] [One P] (blocks : List (P × List β)) : List (P × β) :=
  blocks.flatMap fun b => stamps b.1 b.2

section Positions
variable [Add P] [One P] [Add Q] [One Q]

@[simp] theorem stamps_nil (p : P) : stamps p ([] : List β) = [] := rfl

@[simp] theorem laid_nil : laid ([] : List (P × List β)) = [] := rfl

@[simp] theorem laid_cons (b : P × List β) (rest : List (P × List β)) :
    laid (b :: rest) = stamps b.1 b.2 ++ laid rest := rfl

@[simp] theorem laid_append (a b : List (P × List β)) : laid (a ++ b) = laid a ++ laid b :=
  List.flatMap_append

/-- A change of positions that respects succession commutes with laying out. -/
theorem stamps_map (f : P → Q) (hf : ∀ p, f (p + 1) = f p + 1) (p : P) (xs : List β) :
    (stamps p xs).map (Prod.map f id) = stamps (f p) xs := by
  induction xs generalizing p with
  | nil => rfl
  | cons x xs ih => simp only [stamps, List.map_cons, ih, hf, Prod.map_apply, id_eq]

theorem laid_map (f : P → Q) (hf : ∀ p, f (p + 1) = f p + 1) (blocks : List (P × List β)) :
    (laid blocks).map (Prod.map f id) = laid (blocks.map (Prod.map f id)) := by
  induction blocks with
  | nil => rfl
  | cons b rest ih =>
    simp only [laid_cons, List.map_append, stamps_map f hf, ih, List.map_cons, Prod.map_fst,
      Prod.map_snd, id_eq]

end Positions

/-! ### Integer positions -/

/-- Every item of a block lies between its start and its end. -/
theorem stamps_bounds {p : Int} {xs : List β} {s : Int × β} (h : s ∈ stamps p xs) :
    p ≤ s.1 ∧ s.1 < p + xs.length := by
  induction xs generalizing p with
  | nil => cases h
  | cons x xs ih =>
    simp only [stamps, List.mem_cons, List.length_cons] at h ⊢
    rcases h with rfl | h
    · exact ⟨Int.le_refl _, by omega⟩
    · have := ih h
      omega

/-- The items from position `b` on are the block without its first `b - p`. -/
theorem stamps_from (b p : Int) (xs : List β) :
    (stamps p xs).filter (fun s => b ≤ s.1) =
      stamps (p + (min (b - p).toNat xs.length : Nat)) (xs.drop (min (b - p).toNat xs.length)) := by
  induction xs generalizing p with
  | nil => simp
  | cons x xs ih =>
    by_cases hb : b ≤ p
    · have hzero : min (b - p).toNat (x :: xs).length = 0 := by omega
      rw [hzero]
      simp only [Int.natCast_zero, Int.add_zero, List.drop_zero]
      refine List.filter_eq_self.mpr fun s hs => ?_
      have := (stamps_bounds hs).1
      simpa using (by omega : b ≤ s.1)
    · have hstep : min (b - p).toNat (x :: xs).length = min (b - (p + 1)).toNat xs.length + 1 := by
        simp only [List.length_cons]
        omega
      rw [hstep]
      simp only [stamps, List.filter_cons, hb, decide_false, Bool.false_eq_true, if_false, ih,
        List.drop_succ_cons, Int.natCast_add, Int.natCast_one]
      congr 1
      omega

/-- The items before position `b` are the first `b - p` of the block. -/
theorem stamps_before (b p : Int) (xs : List β) :
    (stamps p xs).filter (fun s => s.1 < b) = stamps p (xs.take (b - p).toNat) := by
  induction xs generalizing p with
  | nil => simp
  | cons x xs ih =>
    by_cases hb : p < b
    · have hstep : (b - p).toNat = (b - (p + 1)).toNat + 1 := by omega
      simp only [hstep, stamps, List.filter_cons, hb, decide_true, if_true, ih, List.take_succ_cons]
    · have hzero : (b - p).toNat = 0 := by omega
      rw [hzero, List.take_zero, stamps_nil]
      refine List.filter_eq_nil_iff.mpr fun s hs => ?_
      have := (stamps_bounds hs).1
      simpa using (by omega : b ≤ s.1)

/-- Blocks in order, none reaching into the next. -/
def Ordered (blocks : List (Int × List β)) : Prop :=
  blocks.Pairwise fun a b => a.1 + (a.2.length : Int) ≤ b.1

instance (blocks : List (Int × List β)) : Decidable (Ordered blocks) :=
  inferInstanceAs (Decidable (List.Pairwise _ _))

/-- Blocks that follow one another without a gap from position `p` on. -/
def Contiguous : Int → List (Int × List β) → Prop
  | _, [] => True
  | p, b :: rest => b.1 = p ∧ Contiguous (p + b.2.length) rest

instance decidableContiguous : (p : Int) → (blocks : List (Int × List β)) →
    Decidable (Contiguous p blocks)
  | _, [] => isTrue trivial
  | _, _ :: _ => @instDecidableAnd _ _ _ (decidableContiguous _ _)

theorem mem_laid {blocks : List (Int × List β)} {s : Int × β} :
    s ∈ laid blocks ↔ ∃ b ∈ blocks, s ∈ stamps b.1 b.2 := by
  simp [laid]

theorem stamps_increasing (p : Int) (xs : List β) :
    (stamps p xs).Pairwise fun s t => s.1 < t.1 := by
  induction xs generalizing p with
  | nil => exact List.Pairwise.nil
  | cons x xs ih =>
    refine List.pairwise_cons.mpr ⟨fun s hs => ?_, ih (p + 1)⟩
    have := (stamps_bounds hs).1
    show p < s.1
    omega

/-- Ordered blocks lay their items out in strictly increasing positions. -/
theorem laid_increasing {blocks : List (Int × List β)} (h : Ordered blocks) :
    (laid blocks).Pairwise fun s t => s.1 < t.1 := by
  induction blocks with
  | nil => exact List.Pairwise.nil
  | cons b rest ih =>
    obtain ⟨hhead, hrest⟩ := List.pairwise_cons.mp h
    refine List.pairwise_append.mpr ⟨stamps_increasing _ _, ih hrest, fun s hs t ht => ?_⟩
    obtain ⟨c, hc, ht⟩ := mem_laid.mp ht
    have := hhead c hc
    have := (stamps_bounds hs).2
    have := (stamps_bounds ht).1
    omega

theorem stamps_length (p : Int) (xs : List β) : (stamps p xs).length = xs.length := by
  induction xs generalizing p with
  | nil => rfl
  | cons x xs ih => simp only [stamps, List.length_cons, ih]

/-- Contiguous blocks go on where the first of them end. -/
theorem contiguous_append {p : Int} {a b : List (Int × List β)} :
    Contiguous p (a ++ b) ↔ Contiguous p a ∧ Contiguous (p + (laid a).length) b := by
  induction a generalizing p with
  | nil => simp [Contiguous]
  | cons c rest ih =>
    simp only [List.cons_append, Contiguous, ih, and_assoc, laid_cons, List.length_append,
      stamps_length, Int.natCast_add, Int.add_assoc]

/-- Contiguous blocks start and end between the start of the first and the end of
the last. -/
theorem contiguous_block {p : Int} {blocks : List (Int × List β)} (h : Contiguous p blocks)
    {b : Int × List β} (hb : b ∈ blocks) :
    p ≤ b.1 ∧ b.1 + b.2.length ≤ p + (laid blocks).length := by
  obtain ⟨before, after, rfl⟩ := List.append_of_mem hb
  obtain ⟨hstart, -⟩ := (contiguous_append.mp h).2
  rw [laid_append, laid_cons, List.length_append, List.length_append, stamps_length]
  omega

/-- So do their items. -/
theorem contiguous_bounds {p : Int} {blocks : List (Int × List β)} (h : Contiguous p blocks)
    {s : Int × β} (hs : s ∈ laid blocks) : p ≤ s.1 ∧ s.1 < p + (laid blocks).length := by
  obtain ⟨b, hb, hs⟩ := mem_laid.mp hs
  have hblock := contiguous_block h hb
  have hitem := stamps_bounds hs
  omega

end Timeline
