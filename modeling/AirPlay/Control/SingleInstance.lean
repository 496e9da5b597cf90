import Mathlib.Data.List.Basic
import AirPlay.Library.Machine

/-! One receiver at a time.

Every process opens an event and then a mutex, both by name. The first to open the mutex runs the
receiver and looks at the event from time to time; another that finds the mutex there sets the
event and ends. The kernel counts handles: an object is there as long as a process has one,
and a process that ends, in whatever way, has none.

In no order of steps and crashes do two processes run the receiver (`single_primary`), and what
a second process asks for is seen by the first one's next look (`activation_seen`). -/
namespace AirPlay.Control.SingleInstance

/-- Where a process stands in `acquire`, and what it was told. -/
inductive Stage where
  | launched
  /-- It has the event. -/
  | evented
  /-- It has the mutex as well, which was there. -/
  | present
  | primary
  | secondary
  | error
  | gone
  deriving DecidableEq

/-- A process of the program: where it stands, and the handles that it holds. -/
structure Process where
  stage : Stage := .launched
  event : Bool := false
  mutex : Bool := false
  deriving DecidableEq

/-- `signaled` is the event's, while there is one. -/
structure State where
  processes : List Process := []
  signaled : Bool := false

/-- What the processes do, one step at a time. -/
inductive Event where
  | launch
  /-- The next step of a process in `acquire`, and whether the call it makes succeeds. -/
  | next (i : Nat) (ok : Bool)
  | poll (i : Nat)
  /-- A process ends. -/
  | exit (i : Nat)
  deriving DecidableEq

def State.put (i : Nat) (p : Process) (s : State) : State :=
  {s with processes := s.processes.set i p}

/-- A process goes on in `acquire`. A new event is not signaled. -/
def acquire (i : Nat) (ok : Bool) (p : Process) (s : State) : State :=
  match p.stage with
  | .launched =>
    if ok then
      {s.put i {p with stage := .evented, event := true} with
        signaled := s.processes.any (·.event) && s.signaled}
    else s.put i {p with stage := .error}
  | .evented =>
    if ok then
      s.put i {p with
        stage := if s.processes.any (·.mutex) then .present else .primary
        mutex := true}
    else s.put i {p with stage := .error}
  | .present =>
    if ok then {s.put i {p with stage := .secondary} with signaled := true}
    else s.put i {p with stage := .error}
  | .primary | .secondary | .error | .gone => s

/-- What `activation_requested` returns; a process that is not the receiver does not ask. -/
def activationRequested (s : State) (i : Nat) : Bool :=
  match s.processes[i]? with
  | some p => p.stage = .primary && p.event && s.signaled
  | none => false

def step (s : State) : Event → State
  | .launch => {s with processes := s.processes ++ [{}]}
  | .next i ok =>
    match s.processes[i]? with
    | none => s
    | some p => acquire i ok p s
  | .poll i => if activationRequested s i then {s with signaled := false} else s
  | .exit i => s.put i {stage := .gone}

def machine : Machine State Event := ⟨step⟩

/-! ### One process -/

def Primary (s : State) (i : Nat) : Prop := ∃ p, s.processes[i]? = some p ∧ p.stage = .primary

def AtMostOne (s : State) : Prop := ∀ i j, Primary s i → Primary s j → i = j

/-- It has the handles that it has opened on the way. -/
structure Process.Holds (p : Process) : Prop where
  primary : p.stage = .primary → p.event = true ∧ p.mutex = true
  evented : p.stage = .evented → p.event = true

structure Inv (s : State) : Prop where
  holds : ∀ p ∈ s.processes, p.Holds
  single : AtMostOne s

section Processes
variable {s : State} {i j : Nat} {p : Process}

theorem get_put (s : State) (i j : Nat) (p : Process) :
    (s.put i p).processes[j]? =
      if i = j then (if i < s.processes.length then some p else none) else s.processes[j]? :=
  List.getElem?_set

/-- A process that is not told to run the receiver leaves the others as they are. -/
theorem primary_put (hp : p.stage ≠ .primary) (h : Primary (s.put i p) j) : Primary s j := by
  obtain ⟨q, hq, hprimary⟩ := h
  rw [get_put] at hq
  split at hq
  · split at hq
    · obtain rfl := Option.some.inj hq
      exact absurd hprimary hp
    · exact absurd hq.symm (Option.some_ne_none _)
  · exact ⟨q, hq, hprimary⟩

theorem Inv.put (h : Inv s) (hp : p.stage ≠ .primary)
    (hevented : p.stage = .evented → p.event = true) (signaled : Bool) :
    Inv {s.put i p with signaled} := by
  refine ⟨fun q hq => ?_, fun j k hj hk => ?_⟩
  · rcases List.mem_or_eq_of_mem_set hq with hmem | rfl
    · exact h.holds q hmem
    · exact ⟨fun hprimary => absurd hprimary hp, hevented⟩
  · exact h.single j k (primary_put hp hj) (primary_put hp hk)

/-- The receiver holds the mutex, so a process that finds none is the only one. -/
theorem Inv.primary (h : Inv s) (hmutex : s.processes.any (·.mutex) = false)
    (hevent : p.event = true) : Inv (s.put i {p with stage := .primary, mutex := true}) := by
  have hnone : ∀ j, ¬ Primary s j := by
    rintro j ⟨q, hq, hprimary⟩
    have hmem := List.mem_of_getElem? hq
    exact Bool.false_ne_true (hmutex.symm.trans
      (List.any_eq_true.mpr ⟨q, hmem, ((h.holds q hmem).primary hprimary).2⟩))
  have hself : ∀ j, Primary (s.put i {p with stage := .primary, mutex := true}) j → i = j := by
    rintro j ⟨q, hq, hprimary⟩
    rw [get_put] at hq
    by_contra hne
    rw [if_neg hne] at hq
    exact hnone j ⟨q, hq, hprimary⟩
  refine ⟨fun q hq => ?_, fun j k hj hk => (hself j hj).symm.trans (hself k hk)⟩
  rcases List.mem_or_eq_of_mem_set hq with hmem | rfl
  · exact h.holds q hmem
  · exact ⟨fun _ => ⟨hevent, rfl⟩, fun _ => hevent⟩

theorem Inv.acquire (h : Inv s) (hp : p ∈ s.processes) (ok : Bool) :
    Inv (acquire i ok p s) := by
  have hfails : Inv (s.put i {p with stage := .error}) :=
    h.put Stage.noConfusion Stage.noConfusion s.signaled
  rw [SingleInstance.acquire]
  split
  · cases ok with
    | true => exact h.put Stage.noConfusion (fun _ => rfl) _
    | false => exact hfails
  · rename_i hstage
    cases ok with
    | true =>
      rw [if_pos rfl]
      cases hmutex : s.processes.any (·.mutex) with
      | true => exact h.put Stage.noConfusion Stage.noConfusion s.signaled
      | false => exact h.primary hmutex ((h.holds p hp).evented hstage)
    | false => exact hfails
  · cases ok with
    | true => exact h.put Stage.noConfusion Stage.noConfusion true
    | false => exact hfails
  · exact h
  · exact h
  · exact h
  · exact h

theorem Inv.step (h : Inv s) (e : Event) : Inv (step s e) := by
  cases e with
  | launch =>
    have hold : ∀ j, Primary (SingleInstance.step s .launch) j → Primary s j := by
      rintro j ⟨q, hq, hprimary⟩
      have hget : (s.processes ++ [({} : Process)])[j]? = some q := hq
      rw [List.getElem?_append] at hget
      split at hget
      · exact ⟨q, hget, hprimary⟩
      · rw [List.mem_singleton.mp (List.mem_of_getElem? hget)] at hprimary
        exact Stage.noConfusion hprimary
    refine ⟨fun q hq => ?_, fun j k hj hk => h.single j k (hold j hj) (hold k hk)⟩
    rcases List.mem_append.mp hq with hq | hq
    · exact h.holds q hq
    · rw [List.mem_singleton.mp hq]
      exact ⟨Stage.noConfusion, Stage.noConfusion⟩
  | next i ok =>
    rw [SingleInstance.step]
    split
    · exact h
    · rename_i p hp
      exact h.acquire (List.mem_of_getElem? hp) ok
  | poll i =>
    rw [SingleInstance.step]
    split
    · exact ⟨h.holds, h.single⟩
    · exact h
  | exit i => exact h.put Stage.noConfusion Stage.noConfusion s.signaled

end Processes

theorem reachable_inv (es : List Event) : Inv (machine.run {} es) := by
  have hstart : Inv {} := by
    refine ⟨fun _ hp => absurd hp List.not_mem_nil, ?_⟩
    rintro i j ⟨p, hp, -⟩
    exact absurd hp.symm (Option.some_ne_none _)
  exact @Machine.run_keeps _ _ machine Inv (fun _ e h => h.step e) _ es hstart

/-- No two processes run the receiver, whatever order processes start, go on and end in. -/
theorem single_primary (es : List Event) : AtMostOne (machine.run {} es) := by
  exact (reachable_inv es).single

/-! ### Activation -/

/-- The event is signaled, and the receiver has a handle of it. -/
def Asked (i : Nat) (s : State) : Prop := Primary s i ∧ s.signaled = true

variable {s : State} {i : Nat}

theorem asked_put {j : Nat} {p : Process} {signaled : Bool} (hne : j ≠ i)
    (hsignaled : signaled = true) (h : Primary s i) : Asked i {s.put j p with signaled} := by
  obtain ⟨q, hq, hprimary⟩ := h
  refine ⟨⟨q, ?_, hprimary⟩, hsignaled⟩
  show (s.put j p).processes[i]? = some q
  rw [get_put, if_neg hne]
  exact hq

/-- Only the receiver's own look, or its end, makes the event be forgotten. -/
theorem asked_step (hinv : Inv s) (h : Asked i s) {e : Event} (hpoll : e ≠ .poll i)
    (hexit : e ≠ .exit i) : Asked i (step s e) := by
  obtain ⟨⟨q, hq, hprimary⟩, hsignaled⟩ := h
  have hmem := List.mem_of_getElem? hq
  have hevent : s.processes.any (·.event) = true :=
    List.any_eq_true.mpr ⟨q, hmem, ((hinv.holds q hmem).primary hprimary).1⟩
  cases e with
  | launch =>
    refine ⟨⟨q, ?_, hprimary⟩, hsignaled⟩
    exact (List.getElem?_append_left (List.getElem?_eq_some_iff.mp hq).1).trans hq
  | next j ok =>
    rw [step]
    split
    · exact ⟨⟨q, hq, hprimary⟩, hsignaled⟩
    rename_i p hp
    by_cases hne : j = i
    · subst hne
      obtain rfl := Option.some.inj (hp.symm.trans hq)
      rw [acquire, hprimary]
      exact ⟨⟨p, hq, hprimary⟩, hsignaled⟩
    · have hput : ∀ p', Asked i (s.put j p') := fun p' =>
        asked_put hne hsignaled ⟨q, hq, hprimary⟩
      rw [acquire]
      split
      · cases ok with
        | true =>
          refine asked_put hne ?_ ⟨q, hq, hprimary⟩
          rw [hevent, hsignaled]
          rfl
        | false => exact hput _
      · cases ok with
        | true => exact hput _
        | false => exact hput _
      · cases ok with
        | true => exact asked_put hne rfl ⟨q, hq, hprimary⟩
        | false => exact hput _
      all_goals exact ⟨⟨q, hq, hprimary⟩, hsignaled⟩
  | poll j =>
    rw [step]
    split
    · rename_i hrequested
      have hj : Primary s j := by
        rw [activationRequested] at hrequested
        split at hrequested
        · rename_i p hp
          rw [Bool.and_eq_true, Bool.and_eq_true, decide_eq_true_eq] at hrequested
          exact ⟨p, hp, hrequested.1.1⟩
        · exact absurd hrequested Bool.false_ne_true
      exact absurd (congrArg Event.poll (hinv.single j i hj ⟨q, hq, hprimary⟩)) hpoll
    · exact ⟨⟨q, hq, hprimary⟩, hsignaled⟩
  | exit j => exact asked_put (fun hj => hexit (congrArg Event.exit hj)) hsignaled ⟨q, hq, hprimary⟩

/-- Where a second process has set the event while the first runs the receiver, the first one's
next look sees it, whatever other processes do in between. -/
theorem activation_seen {before mid : List Event} {i j : Nat} {p : Process}
    (hprimary : Primary (machine.run {} before) i)
    (hp : (machine.run {} before).processes[j]? = some p) (hpresent : p.stage = .present)
    (hmid : ∀ e ∈ mid, e ≠ .poll i ∧ e ≠ .exit i) :
    activationRequested (machine.run {} (before ++ .next j true :: mid)) i = true := by
  have hne : j ≠ i := by
    rintro rfl
    obtain ⟨q, hq, hstage⟩ := hprimary
    obtain rfl := Option.some.inj (hp.symm.trans hq)
    exact Stage.noConfusion (hpresent.symm.trans hstage)
  have hset : Asked i (machine.run {} (before ++ [.next j true])) := by
    rw [Machine.run_append]
    show Asked i (step (machine.run {} before) (.next j true))
    rw [step, hp]
    show Asked i (acquire j true p (machine.run {} before))
    rw [acquire, hpresent]
    exact asked_put hne rfl hprimary
  have hkept : ∀ es : List Event, (∀ e ∈ es, e ≠ .poll i ∧ e ≠ .exit i) →
      ∀ s, Inv s → Asked i s → Asked i (machine.run s es) := by
    intro es
    induction es with
    | nil => exact fun _ _ _ h => h
    | cons e rest ih =>
      intro hes s hinv h
      obtain ⟨⟨hpoll, hexit⟩, hrest⟩ := List.forall_mem_cons.mp hes
      exact ih hrest _ (hinv.step e) (asked_step hinv h hpoll hexit)
  have hsplit : before ++ .next j true :: mid = (before ++ [.next j true]) ++ mid := by
    rw [List.append_assoc, List.singleton_append]
  have hasked : Asked i (machine.run {} (before ++ .next j true :: mid)) := by
    rw [hsplit, Machine.run_append]
    exact hkept mid hmid _ (reachable_inv _) hset
  obtain ⟨⟨q, hq, hstage⟩, hsignaled⟩ := hasked
  have hevent := (((reachable_inv _).holds q (List.mem_of_getElem? hq)).primary hstage).1
  rw [activationRequested, hq, hsignaled]
  simp only [hstage, hevent, decide_true, Bool.and_self]

/-- The first process is still busy when a second one asks, and a third ends at once. -/
theorem second_seen :
    activationRequested (machine.run {} ([.launch, .next 0 true, .next 0 true, .launch,
      .next 1 true, .next 1 true] ++ .next 1 true :: [.exit 1, .launch, .exit 2])) 0 = true :=
  activation_seen ⟨⟨.primary, true, true⟩, rfl, rfl⟩ rfl rfl (by decide)

end AirPlay.Control.SingleInstance
