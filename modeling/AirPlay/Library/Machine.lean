import Mathlib.Data.List.Infix

/-! Machines that take one event at a time.

A machine is a step function; a history is a list of events. What a component
promises is either an invariant of every state a history reaches, or a property
that holds along a history exactly when every event meets a condition in the
state it finds. Both are proved here once, from a fact about one step. -/

/-- A machine is its step. -/
structure Machine (σ ε : Type*) where
  step : σ → ε → σ

namespace Machine
variable {σ ε : Type*} (m : Machine σ ε)

def run (s : σ) : List ε → σ
  | [] => s
  | e :: rest => run (m.step s e) rest

theorem run_append (s : σ) (a b : List ε) : m.run s (a ++ b) = m.run (m.run s a) b := by
  induction a generalizing s with
  | nil => rfl
  | cons e rest ih => exact ih _

/-- Every event of the history meets `P` in the state it finds. -/
def Meets (P : σ → ε → Prop) (s : σ) : List ε → Prop
  | [] => True
  | e :: rest => P s e ∧ Meets P (m.step s e) rest

instance decidableMeets {P : σ → ε → Prop} [∀ s e, Decidable (P s e)] :
    ∀ s es, Decidable (m.Meets P s es)
  | _, [] => isTrue trivial
  | s, e :: rest => @instDecidableAnd _ _ _ (decidableMeets (m.step s e) rest)

/-- `Q` holds in every state the history passes through, the first included. -/
def Always (Q : σ → Prop) (s : σ) : List ε → Prop
  | [] => Q s
  | e :: rest => Q s ∧ Always Q (m.step s e) rest

/-- What a machine can reach from a state `init` allows. -/
def Reachable (init : σ → Prop) (s : σ) : Prop := ∃ s₀ es, init s₀ ∧ m.run s₀ es = s

variable {m}

theorem always_iff_prefix {Q : σ → Prop} {s : σ} {es : List ε} :
    m.Always Q s es ↔ ∀ pre, pre <+: es → Q (m.run s pre) := by
  induction es generalizing s with
  | nil =>
    constructor
    · intro h pre hpre
      rw [List.prefix_nil.mp hpre]
      exact h
    · intro h
      exact h [] (List.prefix_refl [])
  | cons e rest ih =>
    constructor
    · rintro ⟨hs, hrest⟩ pre hpre
      cases pre with
      | nil => exact hs
      | cons e' pre' =>
        obtain ⟨rfl, hpre'⟩ := List.cons_prefix_cons.mp hpre
        exact ih.mp hrest pre' hpre'
    · intro h
      refine ⟨h [] (List.nil_prefix), ih.mpr fun pre hpre => ?_⟩
      exact h (e :: pre) (List.cons_prefix_cons.mpr ⟨rfl, hpre⟩)

theorem meets_true {s : σ} (es : List ε) : m.Meets (fun _ _ => True) s es := by
  induction es generalizing s with
  | nil => trivial
  | cons e rest ih => exact ⟨trivial, ih⟩

theorem meets_append {P : σ → ε → Prop} {s : σ} {a b : List ε} :
    m.Meets P s (a ++ b) ↔ m.Meets P s a ∧ m.Meets P (m.run s a) b := by
  induction a generalizing s with
  | nil => exact (iff_of_eq (true_and _)).symm
  | cons e rest ih => exact (and_congr_right fun _ => ih).trans and_assoc.symm

/-- A condition on the events alone is met by a history of events that meet it. -/
theorem meets_forall {P : ε → Prop} {s : σ} {es : List ε} :
    m.Meets (fun _ e => P e) s es ↔ ∀ e ∈ es, P e := by
  induction es generalizing s with
  | nil => exact iff_of_true trivial fun e he => absurd he List.not_mem_nil
  | cons e rest ih => exact (and_congr_right fun _ => ih).trans List.forall_mem_cons.symm

theorem Meets.mono {P P' : σ → ε → Prop} (h : ∀ s e, P s e → P' s e) {s : σ} {es : List ε}
    (hm : m.Meets P s es) : m.Meets P' s es := by
  induction es generalizing s with
  | nil => trivial
  | cons e rest ih => exact ⟨h s e hm.1, ih hm.2⟩

/-- Conditions that agree wherever an invariant holds are met by the same histories. -/
theorem meets_congr {Inv : σ → Prop} {P P' : σ → ε → Prop}
    (keeps : ∀ s e, Inv s → Inv (m.step s e)) (agree : ∀ s e, Inv s → (P s e ↔ P' s e)) {s : σ}
    (es : List ε) (hs : Inv s) : m.Meets P s es ↔ m.Meets P' s es := by
  induction es generalizing s with
  | nil => exact Iff.rfl
  | cons e rest ih => exact and_congr (agree s e hs) (ih (keeps s e hs))

theorem run_keeps {Inv : σ → Prop} (keeps : ∀ s e, Inv s → Inv (m.step s e)) {s : σ}
    (es : List ε) (hs : Inv s) : Inv (m.run s es) := by
  induction es generalizing s with
  | nil => exact hs
  | cons e rest ih => exact ih (keeps s e hs)

/-- What no step raises and some events lower is used up by enough of these. -/
theorem run_exhausts {Inv : σ → Prop} {left : σ → Nat} {turn : ε → Bool}
    (keeps : ∀ s e, Inv s → Inv (m.step s e))
    (lowers : ∀ s e, Inv s → left (m.step s e) ≤ left s - (turn e).toNat) {s : σ} (es : List ε)
    (hs : Inv s) (h : left s ≤ es.countP turn) : left (m.run s es) = 0 := by
  induction es generalizing s with
  | nil => exact Nat.le_zero.mp h
  | cons e rest ih =>
    refine ih (keeps s e hs) ((lowers s e hs).trans ?_)
    cases ht : turn e with
    | false =>
      rw [List.countP_cons_of_neg (by rw [ht]; exact Bool.false_ne_true)] at h
      exact h
    | true =>
      rw [List.countP_cons_of_pos ht] at h
      exact Nat.sub_le_of_le_add h

theorem Reachable.invariant {init Inv : σ → Prop} (start : ∀ s, init s → Inv s)
    (keeps : ∀ s e, Inv s → Inv (m.step s e)) {s : σ} (h : m.Reachable init s) : Inv s := by
  obtain ⟨s₀, es, h₀, rfl⟩ := h
  exact run_keeps keeps es (start s₀ h₀)

/-- What every step keeps that meets its condition holds throughout a history whose
steps all do. -/
theorem always_of_meets {Inv : σ → Prop} {P : σ → ε → Prop}
    (keeps : ∀ s e, Inv s → P s e → Inv (m.step s e)) {s : σ} {es : List ε} (hs : Inv s)
    (hm : m.Meets P s es) : m.Always Inv s es := by
  induction es generalizing s with
  | nil => exact hs
  | cons e rest ih => exact ⟨hs, ih (keeps s e hs hm.1) hm.2⟩

/-- Steps that meet their condition, and with it keep an invariant, meet what follows from
both. -/
theorem Meets.under {Inv : σ → Prop} {P P' : σ → ε → Prop}
    (keeps : ∀ s e, Inv s → P s e → Inv (m.step s e)) (h : ∀ s e, Inv s → P s e → P' s e) {s : σ}
    {es : List ε} (hs : Inv s) (hm : m.Meets P s es) : m.Meets P' s es := by
  induction es generalizing s with
  | nil => trivial
  | cons e rest ih => exact ⟨h s e hs hm.1, ih (keeps s e hs hm.1) hm.2⟩

theorem Always.last {Q : σ → Prop} {s : σ} {es : List ε} (hq : m.Always Q s es) : Q (m.run s es) :=
  always_iff_prefix.mp hq es (List.prefix_refl es)

theorem Always.mono {Q Q' : σ → Prop} (h : ∀ s, Q s → Q' s) {s : σ} {es : List ε}
    (hq : m.Always Q s es) : m.Always Q' s es :=
  always_iff_prefix.mpr fun pre hpre => h _ <| always_iff_prefix.mp hq pre hpre

theorem Always.head {Q : σ → Prop} {s : σ} {es : List ε} (hq : m.Always Q s es) : Q s := by
  cases es with
  | nil => exact hq
  | cons e rest => exact hq.1

/-- What holds in every state of a history holds where an event finds it. -/
theorem Always.meets {Q : σ → Prop} {P : σ → ε → Prop} (h : ∀ s e, Q s → P s e) {s : σ}
    {es : List ε} (hq : m.Always Q s es) : m.Meets P s es := by
  induction es generalizing s with
  | nil => trivial
  | cons e rest ih => exact ⟨h s e hq.1, ih hq.2⟩

/-- Events that must meet `P` to leave `Q` do, where `Q` holds throughout. -/
theorem Always.needs {Q : σ → Prop} {P : σ → ε → Prop} (h : ∀ s e, Q (m.step s e) → P s e)
    {s : σ} {es : List ε} (hq : m.Always Q s es) : m.Meets P s es := by
  induction es generalizing s with
  | nil => trivial
  | cons e rest ih => exact ⟨h s e hq.2.head, ih hq.2⟩

/-- Where, under an invariant, a step keeps `Q` exactly when it meets `P`, a history
keeps `Q` throughout exactly when every one of its steps meets `P`. -/
theorem always_iff_meets {Inv Q : σ → Prop} {H P : σ → ε → Prop}
    (keeps : ∀ s e, Inv s → H s e → Inv (m.step s e))
    (exact : ∀ s e, Inv s → H s e → Q s → (Q (m.step s e) ↔ P s e)) {s : σ} {es : List ε}
    (hs : Inv s) (hq : Q s) (hh : m.Meets H s es) : m.Always Q s es ↔ m.Meets P s es := by
  induction es generalizing s with
  | nil => exact ⟨fun _ => trivial, fun _ => hq⟩
  | cons e rest ih =>
    have hstep := exact s e hs hh.1 hq
    have hnext := fun hq' => ih (keeps s e hs hh.1) hq' hh.2
    constructor
    · rintro ⟨_, hrest⟩
      have hq' : Q (m.step s e) := hrest.head
      exact ⟨hstep.mp hq', (hnext hq').mp hrest⟩
    · rintro ⟨hp, hrest⟩
      have hq' := hstep.mpr hp
      exact ⟨hq, (hnext hq').mpr hrest⟩

/-- The machine that takes no event once `P` holds. -/
def halted (P : σ → Prop) [DecidablePred P] (m : Machine σ ε) : Machine σ ε :=
  ⟨fun s e => if P s then s else m.step s e⟩

/-- Where it halts, the machine has passed through. -/
theorem halted_run {P : σ → Prop} [DecidablePred P] (s : σ) (es : List ε) :
    ∃ pre, pre <+: es ∧ (m.halted P).run s es = m.run s pre := by
  induction es generalizing s with
  | nil => exact ⟨[], List.prefix_refl [], rfl⟩
  | cons e rest ih =>
    by_cases hs : P s
    · have hstays : ∀ es', (m.halted P).run s es' = s := by
        intro es'
        induction es' with
        | nil => rfl
        | cons e' rest' ih' =>
          show (m.halted P).run (if P s then s else m.step s e') rest' = s
          rw [if_pos hs, ih']
      exact ⟨[], List.nil_prefix, hstays _⟩
    · obtain ⟨pre, hprefix, hpre⟩ := ih (m.step s e)
      refine ⟨e :: pre, List.cons_prefix_cons.mpr ⟨rfl, hprefix⟩, ?_⟩
      show (m.halted P).run (if P s then s else m.step s e) rest = _
      rw [if_neg hs, hpre]
      rfl

/-! ### History variables

A machine watched by a variable it does not read: what happened on the way to a
state, next to the state. -/

/-- The machine with a variable that follows its steps. -/
def watched {γ : Type*} (m : Machine σ ε) (next : σ → ε → γ → γ) : Machine (σ × γ) ε :=
  ⟨fun w e => (m.step w.1 e, next w.1 e w.2)⟩

/-- Watching changes nothing. -/
theorem watched_run {γ : Type*} (next : σ → ε → γ → γ) (w : σ × γ) (es : List ε) :
    ((m.watched next).run w es).1 = m.run w.1 es := by
  induction es generalizing w with
  | nil => rfl
  | cons e rest ih => exact ih _

theorem watched_meets {γ : Type*} {next : σ → ε → γ → γ} {P : σ → ε → Prop} {w : σ × γ}
    {es : List ε} : (m.watched next).Meets (fun w e => P w.1 e) w es ↔ m.Meets P w.1 es := by
  induction es generalizing w with
  | nil => exact Iff.rfl
  | cons e rest ih => exact and_congr_right fun _ => ih

/-- What the events of a history leave in a log. -/
def logged (m : Machine σ ε) {γ : Type*} (entry : σ → ε → List γ) : Machine (σ × List γ) ε :=
  m.watched fun s e log => log ++ entry s e

theorem logged_run {γ : Type*} (entry : σ → ε → List γ) (w : σ × List γ) (es : List ε) :
    ((m.logged entry).run w es).1 = m.run w.1 es := watched_run _ w es

/-- A log is empty when no event has an entry. -/
theorem logged_eq_nil {γ : Type*} {entry : σ → ε → List γ} {w : σ × List γ} (es : List ε) :
    ((m.logged entry).run w es).2 = [] ↔ w.2 = [] ∧ m.Meets (fun s e => entry s e = []) w.1 es := by
  induction es generalizing w with
  | nil => exact (and_iff_left trivial).symm
  | cons e rest ih =>
    refine ih.trans ?_
    show w.2 ++ entry w.1 e = [] ∧ _ ↔ _
    rw [List.append_eq_nil_iff, and_assoc]
    rfl

end Machine
