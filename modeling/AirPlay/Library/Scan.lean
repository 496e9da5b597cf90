import Mathlib.Data.List.Basic
import Mathlib.Order.Lattice

/-! A scan that keeps the best so far.

An element is taken when it is eligible and scores more than what was taken before it, so
that of equal elements the first stays (`scan_cases`). -/
namespace Scan

/-- The best score so far, and where it was. -/
structure Best (β : Type*) where
  score : β
  index : Option Nat

section Scan
variable {α β : Type*} [LinearOrder β] (eligible : α → Bool) (score : α → β)

def step (i : Nat) (a : α) (b : Best β) : Best β :=
  if eligible a = true ∧ b.score < score a then {score := score a, index := some i} else b

def scan : Nat → List α → Best β → Best β
  | _, [], b => b
  | i, a :: as, b => scan (i + 1) as (step eligible score i a b)

/-- Between `pre` and `post`, `a` is the first of the best. -/
structure FirstBest (pre : List α) (a : α) (post : List α) : Prop where
  holds : eligible a = true
  before : ∀ x ∈ pre, eligible x = true → score x < score a
  after : ∀ x ∈ post, eligible x = true → score x ≤ score a

/-- Nothing beats what the scan begins with, or the first of the best does. -/
theorem scan_cases (i : Nat) (as : List α) (b : Best β) :
    ((∀ a ∈ as, eligible a = true → score a ≤ b.score) ∧ scan eligible score i as b = b) ∨
      ∃ pre a post, as = pre ++ a :: post ∧ FirstBest eligible score pre a post ∧
        b.score < score a ∧
        scan eligible score i as b = {score := score a, index := some (i + pre.length)} := by
  induction as generalizing i b with
  | nil => exact .inl ⟨fun a ha => absurd ha List.not_mem_nil, rfl⟩
  | cons x as ih =>
    rw [scan]
    by_cases htake : eligible x = true ∧ b.score < score x
    · rw [step, if_pos htake]
      rcases ih (i + 1) {score := score x, index := some i} with
        ⟨hall, hscan⟩ | ⟨pre, a, post, rfl, hbest, hbetter, hscan⟩
      · have hfirst : FirstBest eligible score [] x as :=
          {holds := htake.1, before := fun y hy => absurd hy List.not_mem_nil, after := hall}
        exact .inr ⟨[], x, as, rfl, hfirst, htake.2, hscan⟩
      · refine .inr ⟨x :: pre, a, post, rfl, ?_, lt_trans htake.2 hbetter, ?_⟩
        · exact {hbest with before := List.forall_mem_cons.mpr ⟨fun _ => hbetter, hbest.before⟩}
        · rw [hscan, List.length_cons, Nat.add_assoc, Nat.add_comm 1]
    · rw [step, if_neg htake]
      have hx : eligible x = true → score x ≤ b.score := fun hx =>
        not_lt.mp fun hlt => htake ⟨hx, hlt⟩
      rcases ih (i + 1) b with ⟨hall, hscan⟩ | ⟨pre, a, post, rfl, hbest, hbetter, hscan⟩
      · exact .inl ⟨List.forall_mem_cons.mpr ⟨hx, hall⟩, hscan⟩
      · refine .inr ⟨x :: pre, a, post, rfl, ?_, hbetter, ?_⟩
        · have hbefore : eligible x = true → score x < score a :=
            fun h => lt_of_le_of_lt (hx h) hbetter
          exact {hbest with before := List.forall_mem_cons.mpr ⟨hbefore, hbest.before⟩}
        · rw [hscan, List.length_cons, Nat.add_assoc, Nat.add_comm 1]

variable {eligible score}

/-- There is one first of the best. -/
theorem FirstBest.unique {pre pre' post post' : List α} {a a' : α}
    (h : FirstBest eligible score pre a post) (h' : FirstBest eligible score pre' a' post')
    (heq : pre ++ a :: post = pre' ++ a' :: post') : pre = pre' ∧ a = a' ∧ post = post' := by
  rcases List.append_eq_append_iff.mp heq with ⟨mid, hpre, hpost⟩ | ⟨mid, hpre, hpost⟩
  · cases mid with
    | nil => exact ⟨(hpre.trans (List.append_nil pre)).symm, List.cons.inj hpost⟩
    | cons m mid =>
      obtain ⟨rfl, rfl⟩ := List.cons.inj hpost
      have hlt := h'.before a (by rw [hpre]; simp) h.holds
      exact absurd (h.after a' (by simp) h'.holds) (not_le.mpr hlt)
  · cases mid with
    | nil => exact ⟨hpre.trans (List.append_nil pre'), List.cons.inj hpost.symm⟩
    | cons m mid =>
      obtain ⟨rfl, rfl⟩ := List.cons.inj hpost
      have hlt := h.before a' (by rw [hpre]; simp) h'.holds
      exact absurd (h'.after a (by simp) h.holds) (not_le.mpr hlt)

theorem FirstBest.not_mem {pre post : List α} {a : α} (h : FirstBest eligible score pre a post) :
    a ∉ pre := fun hmem => lt_irrefl _ (h.before a hmem h.holds)

end Scan
end Scan
