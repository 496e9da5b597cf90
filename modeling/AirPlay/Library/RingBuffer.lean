import Mathlib.Data.List.Induction
import Mathlib.Algebra.GroupWithZero.Nat

/-! A ring of slots.

Writes go round `n` slots, so the ring holds the last `n` of them, each at its number
modulo `n`. The write counter may wrap: what matters is its remainder, and that
survives wherever `n` divides the counter's range. -/

/-- `n` slots and a counter of `w` bits. -/
structure RingBuffer (α : Type*) (n w : Nat) where
  slots : Vector α n
  next : BitVec w := 0

namespace RingBuffer
variable {α : Type*} {n w : Nat} [NeZero n]

def push (x : α) (r : RingBuffer α n w) : RingBuffer α n w where
  slots := r.slots.set (r.next.toNat % n) x (Nat.mod_lt _ (Nat.pos_of_neZero n))
  next := r.next + 1

theorem mem_push {x y : α} {r : RingBuffer α n w} (h : y ∈ (r.push x).slots) :
    y ∈ r.slots ∨ y = x :=
  @Vector.mem_or_eq_of_mem_set α n r.slots (r.next.toNat % n) y x
    (Nat.mod_lt _ (Nat.pos_of_neZero n)) h

/-- Writes one after the other into slots that hold `d`. -/
def pushAll (d : α) (xs : List α) : RingBuffer α n w :=
  xs.foldl (fun r x => r.push x) ⟨Vector.replicate n d, 0⟩

theorem pushAll_concat (d : α) (xs : List α) (x : α) :
    (pushAll d (xs ++ [x]) : RingBuffer α n w) = (pushAll d xs).push x := by
  rw [pushAll, List.foldl_append]
  rfl

theorem pushAll_next (d : α) (xs : List α) :
    (pushAll d xs : RingBuffer α n w).next = BitVec.ofNat w xs.length := by
  induction xs using List.reverseRecOn with
  | nil => rfl
  | append_singleton xs x ih =>
    rw [pushAll_concat, List.length_append]
    show (pushAll d xs : RingBuffer α n w).next + 1 = _
    rw [ih]
    exact (BitVec.ofNat_add _ 1).symm

/-- A slot holds the last write to it, and what it held at first before any. -/
theorem slots_eq (hw : n ∣ 2 ^ w) (d : α) (xs : List α) (i : Nat) (hi : i < n) :
    (pushAll d xs : RingBuffer α n w).slots[i] = d ∧ xs.length ≤ i ∨
      ∃ j, ∃ hj : j < xs.length, xs.length ≤ j + n ∧ j % n = i ∧
        (pushAll d xs : RingBuffer α n w).slots[i] = xs[j] := by
  induction xs using List.reverseRecOn with
  | nil => exact Or.inl ⟨Vector.getElem_replicate hi, Nat.zero_le i⟩
  | append_singleton xs x ih =>
    have hset : (pushAll d (xs ++ [x]) : RingBuffer α n w).slots[i] =
        if xs.length % n = i then x else (pushAll d xs : RingBuffer α n w).slots[i] := by
      have hslot : ((pushAll d xs : RingBuffer α n w).next.toNat) % n = xs.length % n := by
        rw [pushAll_next, BitVec.toNat_ofNat, Nat.mod_mod_of_dvd _ hw]
      simp only [pushAll_concat, push, Vector.getElem_set, hslot]
    rw [hset]
    by_cases hi' : xs.length % n = i
    · right
      refine ⟨xs.length, by simp, ?_, hi', ?_⟩
      · have := Nat.pos_of_neZero n
        simp only [List.length_append, List.length_singleton]
        omega
      · rw [if_pos hi', List.getElem_concat_length rfl]
    · rw [if_neg hi']
      rcases ih with ⟨hd, hle⟩ | ⟨j, hj, hle, hmod, hslot⟩
      · left
        refine ⟨hd, ?_⟩
        have hne : xs.length ≠ i := by
          rintro rfl
          exact hi' (Nat.mod_eq_of_lt hi)
        simp only [List.length_append, List.length_singleton]
        omega
      · right
        refine ⟨j, by simp; omega, ?_, hmod, ?_⟩
        · have hne : xs.length ≠ j + n := by
            intro h
            exact hi' (by rw [h, Nat.add_mod_right, hmod])
          simp only [List.length_append, List.length_singleton]
          omega
        · rw [hslot, List.getElem_append_left]

/-- What the ring holds is one of the last `n` writes, or was there before. -/
theorem mem_slots (hw : n ∣ 2 ^ w) {d x : α} {xs : List α}
    (hx : x ∈ (pushAll d xs : RingBuffer α n w).slots) : x = d ∨ x ∈ xs.drop (xs.length - n) := by
  obtain ⟨i, hi, rfl⟩ := Vector.mem_iff_getElem.mp hx
  rcases slots_eq hw d xs i hi with ⟨hd, -⟩ | ⟨j, hj, hle, -, hslot⟩
  · exact Or.inl hd
  · right
    rw [hslot]
    exact List.mem_drop_iff_getElem.mpr ⟨j - (xs.length - n), by omega, by
      congr 1
      omega⟩

/-- The last `n` writes are in the ring. -/
theorem slots_mem (hw : n ∣ 2 ^ w) {d x : α} {xs : List α}
    (hx : x ∈ xs.drop (xs.length - n)) : x ∈ (pushAll d xs : RingBuffer α n w).slots := by
  obtain ⟨k, hk, rfl⟩ := List.mem_drop_iff_getElem.mp hx
  have hpos := Nat.pos_of_neZero n
  have hmod := Nat.mod_lt (xs.length - n + k) hpos
  rcases slots_eq hw d xs _ hmod with ⟨-, hle⟩ | ⟨j, hj, hle, hsame, hslot⟩
  · have := Nat.mod_le (xs.length - n + k) n
    omega
  · -- two of the last `n` numbers with one remainder are one
    have heq : j = xs.length - n + k := by
      have hge := Nat.sub_mod_eq_zero_of_mod_eq hsame
      have hle := Nat.sub_mod_eq_zero_of_mod_eq hsame.symm
      rw [Nat.mod_eq_of_lt (by omega)] at hge hle
      omega
    refine Vector.mem_iff_getElem.mpr ⟨_, hmod, hslot.trans ?_⟩
    simp only [heq]

end RingBuffer
