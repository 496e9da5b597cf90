import Mathlib.Data.List.Basic
import Mathlib.Logic.Function.Basic

/-! What a key was last registered for.

Owners register keys and withdraw with all of their registrations. The list holds
the registrations of the owners that have not withdrawn, the newest first; the
newest of a key's registrations is the one that counts. -/

namespace Registry

variable {κ α : Type*}

/-- The owner that registered the key last. -/
def latest [DecidableEq κ] (k : κ) : List (κ × α) → Option α
  | [] => none
  | (k', a) :: rest => if k' = k then some a else latest k rest

/-- The owner goes, and its registrations with it. -/
def withdraw [DecidableEq α] (a : α) (l : List (κ × α)) : List (κ × α) := l.filter (·.2 ≠ a)

section Keys
variable [DecidableEq κ]

@[simp] theorem latest_nil (k : κ) : latest k ([] : List (κ × α)) = none := rfl

theorem latest_cons (k k' : κ) (a : α) (l : List (κ × α)) :
    latest k ((k', a) :: l) = if k' = k then some a else latest k l := rfl

theorem latest_mem {k : κ} {a : α} {l : List (κ × α)} (h : latest k l = some a) :
    (k, a) ∈ l := by
  induction l with
  | nil => exact absurd h (by simp)
  | cons r rest ih =>
    rw [latest_cons] at h
    split at h
    · rename_i hk
      rw [← hk, ← Option.some.inj h]
      exact List.mem_cons_self
    · exact List.mem_cons_of_mem _ (ih h)

theorem latest_eq_none {k : κ} {l : List (κ × α)} :
    latest k l = none ↔ ∀ a, (k, a) ∉ l := by
  induction l with
  | nil => simp
  | cons r rest ih =>
    rw [latest_cons]
    split
    · rename_i hk
      exact iff_of_false (Option.some_ne_none _) fun h =>
        h r.2 (by rw [← hk]; exact List.mem_cons_self)
    · rename_i hk
      rw [ih]
      refine forall_congr' fun a => not_congr ?_
      rw [List.mem_cons, or_iff_right]
      exact fun h => hk (congrArg Prod.fst h).symm

end Keys

theorem mem_withdraw [DecidableEq α] {a : α} {l : List (κ × α)} {r : κ × α} :
    r ∈ withdraw a l ↔ r ∈ l ∧ r.2 ≠ a := by
  rw [withdraw, List.mem_filter, decide_eq_true_iff]

section Owners
variable [DecidableEq κ] [DecidableEq α]

/-- Whoever is not the newest goes unnoticed. -/
theorem latest_withdraw {k : κ} {a : α} {l : List (κ × α)} (h : latest k l ≠ some a) :
    latest k (withdraw a l) = latest k l := by
  induction l with
  | nil => rfl
  | cons r rest ih =>
    rw [latest_cons] at h
    rw [latest_cons, withdraw, List.filter_cons]
    by_cases hk : r.1 = k
    · rw [if_pos hk] at h
      have hne : r.2 ≠ a := fun he => h (congrArg some he)
      rw [if_pos (decide_eq_true hne), latest_cons, if_pos hk, if_pos hk]
    · rw [if_neg hk] at h ⊢
      have hrest : latest k (rest.filter (·.2 ≠ a)) = latest k rest := ih h
      split
      · rw [latest_cons, if_neg hk, hrest]
      · exact hrest

/-- Nobody who has gone is found. -/
theorem latest_withdraw_ne (k : κ) (a : α) (l : List (κ × α)) :
    latest k (withdraw a l) ≠ some a :=
  fun h => (mem_withdraw.mp (latest_mem h)).2 rfl

theorem latest_withdraw_iff {k : κ} {a : α} {l : List (κ × α)} :
    latest k (withdraw a l) = latest k l ↔ latest k l ≠ some a :=
  ⟨fun h => h ▸ latest_withdraw_ne k a l, latest_withdraw⟩

end Owners

/-! ### Maps of what is present -/

/-- What an updated map holds is the new entry or an old one of another key. -/
theorem update_eq_some [DecidableEq κ] {f : κ → Option α} {k k' : κ} {v : Option α} {a : α} :
    Function.update f k v k' = some a ↔ k' = k ∧ v = some a ∨ k' ≠ k ∧ f k' = some a := by
  by_cases h : k' = k
  · subst h
    simp
  · simp [h]

/-- The map after entries have been made one by one. -/
def enter [DecidableEq κ] (f : κ → Option α) (entries : List (κ × α)) : κ → Option α :=
  entries.foldl (fun f e => Function.update f e.1 (some e.2)) f

section Enter
variable [DecidableEq κ] {f : κ → Option α}

theorem enter_append (es es' : List (κ × α)) : enter f (es ++ es') = enter (enter f es) es' :=
  List.foldl_append

/-- A key that is not entered keeps what it had. -/
theorem enter_of_not_mem {es : List (κ × α)} {k : κ} (h : k ∉ es.map Prod.fst) :
    enter f es k = f k := by
  induction es generalizing f with
  | nil => rfl
  | cons e es ih =>
    rw [List.map_cons, List.mem_cons, not_or] at h
    exact (ih h.2).trans (Function.update_of_ne h.1 _ _)

/-- A key that is entered once keeps what it is entered for. -/
theorem enter_of_mem {es : List (κ × α)} (h : (es.map Prod.fst).Nodup) {e : κ × α} (he : e ∈ es) :
    enter f es e.1 = some e.2 := by
  induction es generalizing f with
  | nil => exact absurd he List.not_mem_nil
  | cons e' es ih =>
    obtain ⟨hnot, hnodup⟩ := List.nodup_cons.mp h
    rcases List.mem_cons.mp he with rfl | he
    · exact (enter_of_not_mem hnot).trans (Function.update_self _ _ _)
    · exact ih hnodup he

end Enter

/-! ### A preferred entry, and a scan of the others -/

/-- Where what the preferred entry gives is right and what a scan gives in its place
never is, everything found is right exactly if the preferred entry gives something or
the scan finds nothing. -/
theorem fallback_iff {first : Option α} {order : List κ} {f : κ → Option α} {Right : α → Prop}
    (hfirst : ∀ a, first = some a → Right a)
    (hscan : first = none → ∀ k ∈ order, ∀ a, f k = some a → ¬ Right a) :
    (∀ a, (first <|> order.findSome? f) = some a → Right a) ↔
      first.isSome ∨ ∀ k ∈ order, f k = none := by
  cases first with
  | some a =>
    exact iff_of_true (fun b hb => hfirst b hb) (.inl rfl)
  | none =>
    show (∀ a, order.findSome? f = some a → Right a) ↔ _
    constructor
    · intro h
      refine .inr (List.findSome?_eq_none_iff.mp ?_)
      cases hfound : order.findSome? f with
      | none => rfl
      | some a =>
        obtain ⟨k, hk, hka⟩ := List.exists_of_findSome?_eq_some hfound
        exact absurd (h a hfound) (hscan rfl k hk a hka)
    · rintro (h | h) a ha
      · exact absurd h (by simp)
      · rw [List.findSome?_eq_none_iff.mpr h] at ha
        exact absurd ha (Option.some_ne_none a).symm

end Registry
