import Mathlib.Order.Basic
import Mathlib.Tactic.Linarith
import AirPlay.Library.Machine

/-! Values that are kept once they come to rest.

A watcher looks at a value from time to time. It stores one that differs from what it stored
last and has been the same for a while; an attempt may fail, and the next is made after as
long a while. -/

/-- A look at the value, and whether it would be stored. -/
structure Sight (α : Type*) where
  now : Int
  value : α
  stored : Bool

/-- What was stored last, what was seen last, and since when: since it is seen, or since the
last attempt. -/
@[ext] structure Debounce (α : Type*) where
  kept : α
  seen : α
  since : Int

namespace Debounce
variable {α : Type*} [DecidableEq α] {quiet : Int} {d : Debounce α} {e first : Sight α}
  {es : List (Sight α)}

def begin (e : Sight α) : Debounce α := ⟨e.value, e.value, e.now⟩

/-- Since when the value that is seen now is there. -/
def resting (d : Debounce α) (e : Sight α) : Int := if e.value ≠ d.seen then e.now else d.since

/-- An attempt is made to store the value. -/
def Due (quiet : Int) (d : Debounce α) (e : Sight α) : Prop :=
  e.value ≠ d.kept ∧ quiet ≤ e.now - d.resting e

instance : Decidable (Due quiet d e) := inferInstanceAs (Decidable (_ ∧ _))

def machine (quiet : Int) : Machine (Debounce α) (Sight α) where
  step d e :=
    if Due quiet d e then ⟨if e.stored then e.value else d.kept, e.value, e.now⟩
    else ⟨d.kept, e.value, d.resting e⟩

/-- The last look, the first one included. -/
def latest (first : Sight α) (es : List (Sight α)) : Sight α := es.getLast?.getD first

/-- The looks come one after the other. -/
def Ordered (es : List (Sight α)) : Prop := es.Pairwise fun a b => a.now ≤ b.now

theorem step_due (h : Due quiet d e) :
    (machine quiet).step d e = ⟨if e.stored then e.value else d.kept, e.value, e.now⟩ := if_pos h

theorem step_not_due (h : ¬ Due quiet d e) :
    (machine quiet).step d e = ⟨d.kept, e.value, d.resting e⟩ := if_neg h

theorem step_seen : ((machine quiet).step d e).seen = e.value := by
  by_cases h : Due quiet d e
  · rw [step_due h]
  · rw [step_not_due h]

theorem resting_of_seen (h : e.value = d.seen) : d.resting e = d.since := if_neg (not_not.mpr h)

theorem resting_of_ne (h : e.value ≠ d.seen) : d.resting e = e.now := if_pos h

/-- What is stored was seen before. -/
theorem seen_of_due (hquiet : 0 < quiet) (h : Due quiet d e) : e.value = d.seen := by
  by_contra hne
  have hle := h.2
  rw [resting_of_ne hne, sub_self] at hle
  exact absurd hle (not_le.mpr hquiet)

omit [DecidableEq α] in
theorem latest_concat (first : Sight α) (es : List (Sight α)) (e : Sight α) :
    latest first (es ++ [e]) = e := by
  rw [latest, List.getLast?_concat, Option.getD_some]

omit [DecidableEq α] in
theorem latest_mem (first : Sight α) (es : List (Sight α)) : latest first es ∈ first :: es := by
  rcases List.eq_nil_or_concat es with rfl | ⟨rest, e, rfl⟩
  · exact List.mem_cons_self
  · rw [List.concat_eq_append, latest_concat]
    exact List.mem_cons_of_mem _ (List.mem_append_right _ (List.mem_singleton_self e))

omit [DecidableEq α] in
theorem latest_le (h : Ordered (first :: es ++ [e])) : (latest first es).now ≤ e.now :=
  (List.pairwise_append.mp h).2.2 _ (latest_mem first es) _ (List.mem_singleton_self e)

/-! ### What the state says about the looks -/

theorem run_concat (quiet : Int) (d : Debounce α) (es : List (Sight α)) (e : Sight α) :
    (machine quiet).run d (es ++ [e]) = (machine quiet).step ((machine quiet).run d es) e := by
  rw [Machine.run_append]
  rfl

/-- At rest, without an attempt, nothing changes. -/
theorem run_resting {es : List (Sight α)} (hseen : ∀ e ∈ es, e.value = d.seen)
    (h : (machine quiet).Meets (fun d e => ¬ Due quiet d e) d es) :
    (machine quiet).run d es = d := by
  induction es with
  | nil => rfl
  | cons e rest ih =>
    have he := hseen e List.mem_cons_self
    have hstep : (machine quiet).step d e = d := by
      rw [step_not_due h.1, resting_of_seen he, he]
    obtain ⟨-, hrest⟩ := h
    rw [hstep] at hrest
    show (machine quiet).run ((machine quiet).step d e) rest = d
    rw [hstep]
    exact ih (fun e' he' => hseen e' (List.mem_cons_of_mem _ he')) hrest

theorem run_seen (quiet : Int) (first : Sight α) (es : List (Sight α)) :
    ((machine quiet).run (begin first) es).seen = (latest first es).value := by
  rcases List.eq_nil_or_concat es with rfl | ⟨rest, e, rfl⟩
  · rfl
  · rw [List.concat_eq_append, run_concat, step_seen, latest_concat]

theorem run_since_le (h : Ordered (first :: es)) :
    ((machine quiet).run (begin first) es).since ≤ (latest first es).now := by
  induction es using List.reverseRecOn with
  | nil => exact le_refl _
  | append_singleton rest e ih =>
    rw [← List.cons_append] at h
    rw [run_concat, latest_concat]
    by_cases hdue : Due quiet ((machine quiet).run (begin first) rest) e
    · rw [step_due hdue]
    · rw [step_not_due hdue]
      show resting _ e ≤ e.now
      rw [resting]
      split
      · exact le_refl _
      · exact (ih (List.pairwise_append.mp h).1).trans (latest_le h)

/-- The value was first seen, or an attempt to store it was made, at one of the looks; those
behind it saw the same, and made none. -/
theorem run_since (quiet : Int) (first : Sight α) (es : List (Sight α)) :
    ∃ before after, es = before ++ after ∧
      (∀ e ∈ after, e.value = (latest first before).value) ∧
      (machine quiet).Meets (fun d e => ¬ Due quiet d e)
        ((machine quiet).run (begin first) before) after ∧
      ((machine quiet).run (begin first) es).since = (latest first before).now := by
  induction es using List.reverseRecOn with
  | nil => exact ⟨[], [], rfl, fun e he => absurd he List.not_mem_nil, trivial, rfl⟩
  | append_singleton rest e ih =>
    have hfresh : ((machine quiet).step ((machine quiet).run (begin first) rest) e).since = e.now →
        ∃ before after, rest ++ [e] = before ++ after ∧
          (∀ e ∈ after, e.value = (latest first before).value) ∧
          (machine quiet).Meets (fun d e => ¬ Due quiet d e)
            ((machine quiet).run (begin first) before) after ∧
          ((machine quiet).run (begin first) (rest ++ [e])).since = (latest first before).now := by
      intro hnow
      refine ⟨rest ++ [e], [], (List.append_nil _).symm,
        fun e he => absurd he List.not_mem_nil, trivial, ?_⟩
      rw [run_concat, latest_concat, hnow]
    by_cases hdue : Due quiet ((machine quiet).run (begin first) rest) e
    · exact hfresh (by rw [step_due hdue])
    by_cases hseen : e.value = ((machine quiet).run (begin first) rest).seen
    · obtain ⟨before, after, rfl, hsame, hmeets, hsince⟩ := ih
      refine ⟨before, after ++ [e], List.append_assoc _ _ _, ?_, ?_, ?_⟩
      · intro e' he'
        rcases List.mem_append.mp he' with he' | he'
        · exact hsame e' he'
        · rw [List.mem_singleton.mp he', hseen, Machine.run_append,
            run_resting (fun e he => (hsame e he).trans (run_seen _ _ _).symm) hmeets, run_seen]
      · refine Machine.meets_append.mpr ⟨hmeets, ?_, trivial⟩
        rw [← Machine.run_append]
        exact hdue
      · rw [run_concat, step_not_due hdue]
        show resting _ e = _
        rw [resting_of_seen hseen, hsince]
    · refine hfresh ?_
      rw [step_not_due hdue]
      exact resting_of_ne hseen

/-- An attempt is made when the value is not what was stored, and for a while the looks have
seen it and made none. -/
theorem due_iff (hquiet : 0 < quiet) (hordered : Ordered (first :: es)) :
    Due quiet ((machine quiet).run (begin first) es) e ↔
      e.value ≠ ((machine quiet).run (begin first) es).kept ∧
      ∃ before after, es = before ++ after ∧
        (∀ x ∈ latest first before :: after, x.value = e.value) ∧
        (machine quiet).Meets (fun d x => ¬ Due quiet d x)
          ((machine quiet).run (begin first) before) after ∧
        quiet ≤ e.now - (latest first before).now := by
  constructor
  · intro h
    obtain ⟨before, after, heq, hsame, hmeets, hsince⟩ := run_since quiet first es
    have hseen := seen_of_due hquiet h
    have hlast : (latest first before).value = e.value := by
      rw [hseen, heq, Machine.run_append,
        run_resting (fun x hx => (hsame x hx).trans (run_seen _ _ _).symm) hmeets, run_seen]
    refine ⟨h.1, before, after, heq, ?_, hmeets, ?_⟩
    · exact List.forall_mem_cons.mpr ⟨hlast, fun x hx => (hsame x hx).trans hlast⟩
    · have hwhile := h.2
      rw [resting_of_seen hseen, hsince] at hwhile
      exact hwhile
  · rintro ⟨hkept, before, after, rfl, hsame, hmeets, hwhile⟩
    obtain ⟨hlast, hafter⟩ := List.forall_mem_cons.mp hsame
    have hprefix : Ordered (first :: before) :=
      hordered.sublist (List.cons_sublist_cons.mpr (List.sublist_append_left _ _))
    have hrun : (machine quiet).run (begin first) (before ++ after) =
        (machine quiet).run (begin first) before := by
      rw [Machine.run_append]
      exact run_resting (fun x hx => by rw [hafter x hx, run_seen, hlast]) hmeets
    refine ⟨hkept, ?_⟩
    have hseen : e.value = ((machine quiet).run (begin first) before).seen := by
      rw [run_seen, hlast]
    have hsince := @run_since_le _ _ quiet _ _ hprefix
    rw [hrun, resting_of_seen hseen]
    linarith

/-! ### What is kept -/

/-- A value is kept, or has been there since a time. -/
def Settling (v : α) (since : Int) (d : Debounce α) : Prop :=
  d.kept = v ∨ d.seen = v ∧ d.since ≤ since

theorem settling_step {v : α} {since : Int} (hv : e.value = v) (hstored : e.stored = true)
    (h : Settling v since d) : Settling v since ((machine quiet).step d e) := by
  by_cases hdue : Due quiet d e
  · rw [step_due hdue, hstored]
    exact .inl hv
  · rw [step_not_due hdue]
    rcases h with hkept | ⟨hseen, hsince⟩
    · exact .inl hkept
    · exact .inr ⟨hv, (resting_of_seen (hv.trans hseen.symm)).le.trans hsince⟩

/-- After a while, a value that would be stored is. -/
theorem kept_of_settling {v : α} {since : Int} (hv : e.value = v) (hstored : e.stored = true)
    (hwhile : quiet ≤ e.now - since) (h : Settling v since d) :
    ((machine quiet).step d e).kept = v := by
  by_cases hdue : Due quiet d e
  · rw [step_due hdue, hstored]
    exact hv
  · rw [step_not_due hdue]
    rcases h with hkept | ⟨hseen, hsince⟩
    · exact hkept
    by_contra hne
    refine hdue ⟨hv.trans_ne (Ne.symm hne), ?_⟩
    rw [resting_of_seen (hv.trans hseen.symm)]
    linarith

/-- A value that is seen for a while, at looks that would all store it, is kept. -/
theorem kept_of_seen (hquiet : 0 < quiet) {before after : List (Sight α)} {u : Sight α} {v : α}
    (hordered : Ordered (first :: before ++ [u])) (hsame : ∀ e ∈ u :: after, e.value = v)
    (hstored : ∀ e ∈ u :: after, e.stored = true)
    (hwhile : quiet ≤ (latest u after).now - u.now) :
    ((machine quiet).run (begin first) (before ++ u :: after)).kept = v := by
  obtain ⟨hu, hafter⟩ := List.forall_mem_cons.mp hsame
  obtain ⟨hustored, hstoredAfter⟩ := List.forall_mem_cons.mp hstored
  rcases List.eq_nil_or_concat after with rfl | ⟨rest, e, rfl⟩
  · rw [latest, List.getLast?_nil, Option.getD_none, sub_self] at hwhile
    exact absurd hwhile (not_le.mpr hquiet)
  rw [List.concat_eq_append] at hafter hstoredAfter hwhile ⊢
  rw [latest_concat] at hwhile
  have hfirst : Settling v u.now ((machine quiet).run (begin first) (before ++ [u])) := by
    rw [run_concat]
    by_cases hdue : Due quiet ((machine quiet).run (begin first) before) u
    · rw [step_due hdue, hustored]
      exact .inl hu
    · rw [step_not_due hdue]
      refine .inr ⟨hu, ?_⟩
      show resting _ u ≤ u.now
      rw [resting]
      split
      · exact le_refl _
      · exact (run_since_le (List.pairwise_append.mp hordered).1).trans (latest_le hordered)
  have hrest : ∀ xs : List (Sight α), (∀ x ∈ xs, x.value = v) → (∀ x ∈ xs, x.stored = true) →
      ∀ d : Debounce α, Settling v u.now d → Settling v u.now ((machine quiet).run d xs) := by
    intro xs
    induction xs with
    | nil => exact fun _ _ d hd => hd
    | cons x xs ih =>
      intro hvalue hstore d hd
      exact ih (fun y hy => hvalue y (List.mem_cons_of_mem _ hy))
        (fun y hy => hstore y (List.mem_cons_of_mem _ hy)) _
        (settling_step (hvalue x List.mem_cons_self) (hstore x List.mem_cons_self) hd)
  have heq : before ++ u :: (rest ++ [e]) = (before ++ [u]) ++ rest ++ [e] := by
    simp only [List.append_assoc, List.cons_append, List.nil_append]
  rw [heq, run_concat, Machine.run_append]
  refine kept_of_settling (hafter e ?_) (hstoredAfter e ?_) hwhile
    (hrest rest (fun x hx => hafter x (List.mem_append_left _ hx))
      (fun x hx => hstoredAfter x (List.mem_append_left _ hx)) _ hfirst)
  · exact List.mem_append_right _ (List.mem_singleton_self e)
  · exact List.mem_append_right _ (List.mem_singleton_self e)

end Debounce
