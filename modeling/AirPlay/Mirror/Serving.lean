import AirPlay.Library.Machine
import AirPlay.Library.Descriptors

/-! The sockets of the mirror listener.

One thread accepts a sender and reads its stream, one sender at a time. `stop` comes from
another thread: it wakes the reader through `client_sock_`, waits for the thread and then
closes the listener. Meanwhile the rest of the program opens and closes descriptors of its
own, and is given numbers again that the listener has just closed. -/
namespace AirPlay.Mirror

/-- Where the accept thread stands between two steps. -/
inductive Thread where
  /-- Not started, or joined. -/
  | idle
  | looping | selecting | accepting
  /-- `accept` has returned, the lock has not been taken. -/
  | accepted (client : Handle)
  | reading (client : Handle)
  /-- `reader_loop` has returned. -/
  | returned (client : Handle)
  | exited

/-- Where `stop` stands between two steps. -/
inductive Stopping where
  | idle | shutting | joining | closing
  deriving DecidableEq

/-! ### Where the thread is -/

/-- The client's socket that the thread has to close. -/
def Thread.held : Thread → List Handle
  | .accepted client | .reading client | .returned client => [client]
  | .idle | .looping | .selecting | .accepting | .exited => []

/-- The client's socket that `stop` may find. -/
def Thread.published : Thread → Option Handle
  | .reading client | .returned client => some client
  | .idle | .looping | .selecting | .accepting | .accepted _ | .exited => none

def Thread.isIdle : Thread → Bool
  | .idle => true
  | _ => false

def Thread.isExited : Thread → Bool
  | .exited => true
  | _ => false

/-- How many steps the thread of a stopped listener is from its end. -/
def Thread.left : Thread → Nat
  | .idle | .exited => 0
  | .looping | .accepted _ => 1
  | .accepting | .returned _ => 2
  | .selecting | .reading _ => 3

/-- How many steps `stop` is from its return, once the thread has ended. -/
def Stopping.left : Stopping → Nat
  | .shutting => 3
  | .joining => 2
  | .closing => 1
  | .idle => 0

/-! ### The listener -/

/-- `others` are the descriptors of the rest of the program; `clients` and `shut` are not in
the code, they are the sockets accepted so far and what each `shutdown` has reached. -/
structure Serving where
  running : Bool := false
  listenSock : Option Handle := none
  thread : Thread := .idle
  clientSock : Option Handle := none
  stop : Stopping := .idle
  sockets : Descriptors := {}
  others : List Handle := []
  clients : List Nat := []
  shut : List (List Nat) := []

namespace Serving

/-- What the listener's callers and its thread do, and other users of the descriptors. -/
inductive Event where
  /-- `fd` is what `socket` returns, `listening` whether it could be bound. -/
  | start (fd : Option Nat) (listening : Bool)
  | stop
  /-- The next step of `stop`. -/
  | control
  /-- The thread's next step: what `select` says, what `accept` returns, whether the stream
  has come to its end. -/
  | thread (ready : Bool) (accepted : Option Nat) (ended : Bool)
  | opened (fd : Nat)
  | closed (i : Nat)

/-- A listener is started once, and again only when `stop` has returned. -/
def start (fd : Option Nat) (listening : Bool) (s : Serving) : Serving :=
  match fd with
  | none => s
  | some fd =>
    if s.running || s.stop ≠ .idle || !s.sockets.isFree fd then s
    else if !listening then {s with sockets := (s.sockets.take fd).close fd}
    else {s with
      running := true
      listenSock := some (s.sockets.next fd)
      thread := .looping
      sockets := s.sockets.take fd}

def stopping (s : Serving) : Serving :=
  match s.stop with
  | .idle => s
  | .shutting =>
    {s with
      stop := .joining
      shut := s.shut ++ s.clientSock.toList.map fun c => s.sockets.refers c.fd}
  | .joining =>
    match s.thread with
    | .exited => {s with thread := .idle, stop := .closing}
    | _ => s
  | .closing =>
    {s with
      sockets := s.listenSock.elim s.sockets fun l => s.sockets.close l.fd
      listenSock := none
      stop := .idle}

/-- `accept_loop`, up to the next point where it waits or takes the lock. The system gives
out no number that is in use. -/
def acceptLoop (ready : Bool) (accepted : Option Nat) (ended : Bool) (s : Serving) : Serving :=
  match s.thread with
  | .idle => s
  | .looping => {s with thread := if s.running then .selecting else .exited}
  | .selecting =>
    {s with thread :=
      if !ready then .looping else if s.listenSock.isNone then .exited else .accepting}
  | .accepting =>
    match accepted with
    | none => {s with thread := .looping}
    | some fd =>
      if s.sockets.isFree fd then
        {s with
          thread := .accepted (s.sockets.next fd)
          sockets := s.sockets.take fd
          clients := s.clients ++ [(s.sockets.next fd).id]}
      else {s with thread := .looping}
  | .accepted client =>
    if s.running then {s with thread := .reading client, clientSock := some client}
    else {s with thread := .exited, sockets := s.sockets.close client.fd}
  | .reading client => if s.running && !ended then s else {s with thread := .returned client}
  | .returned client =>
    {s with thread := .looping, clientSock := none, sockets := s.sockets.close client.fd}
  | .exited => s

def step (s : Serving) : Event → Serving
  | .start fd listening => s.start fd listening
  | .stop => if s.running then {s with running := false, stop := .shutting} else s
  | .control => s.stopping
  | .thread ready accepted ended => s.acceptLoop ready accepted ended
  | .opened fd =>
    if s.sockets.isFree fd then
      {s with sockets := s.sockets.take fd, others := s.sockets.next fd :: s.others}
    else s
  | .closed i =>
    match s.others[i]? with
    | none => s
    | some h => {s with sockets := s.sockets.close h.fd, others := s.others.eraseIdx i}

def machine : Machine Serving Event := ⟨step⟩

/-! ### What is held -/

/-- The listener's own descriptors. -/
def own (s : Serving) : List Handle := s.listenSock.toList ++ s.thread.held

structure Inv (s : Serving) : Prop where
  held : s.sockets.Holds (s.own ++ s.others)
  published : s.clientSock = s.thread.published
  accepted : ∀ c ∈ s.thread.held, c.id ∈ s.clients
  running : s.running = true → s.stop = .idle ∧ s.thread.isExited = false
  thread : s.thread.isIdle = true ↔
    s.stop = .closing ∨ s.stop = .idle ∧ s.running = false
  listener : s.listenSock.isSome = (s.running || s.stop ≠ .idle)
  shut : ∀ ids ∈ s.shut, ∃ id ∈ s.clients, ids = [id]

variable {s : Serving}

theorem inv_initial : Inv {} where
  held := Descriptors.holds_empty
  published := rfl
  accepted := fun _ h => absurd h List.not_mem_nil
  running := fun h => absurd h (by decide)
  thread := ⟨fun _ => .inr ⟨rfl, rfl⟩, fun _ => rfl⟩
  listener := rfl
  shut := fun _ h => absurd h List.not_mem_nil

/-- Nobody has stopped a listener that is running, or one that has not been started. -/
theorem Inv.at_rest (h : Inv s) (hrunning : s.running = false) (hstop : s.stop = .idle) :
    s.listenSock = none ∧ s.thread = .idle := by
  refine ⟨?_, ?_⟩
  · have hlistener := h.listener
    rw [hrunning, hstop] at hlistener
    exact Option.isSome_eq_false_iff.mp hlistener |> Option.isNone_iff_eq_none.mp
  · have hthread := h.thread.mpr (.inr ⟨hstop, hrunning⟩)
    cases hs : s.thread with
    | idle => rfl
    | _ => rw [hs] at hthread; exact absurd hthread Bool.false_ne_true

theorem Inv.start (h : Inv s) (fd : Option Nat) (listening : Bool) :
    Inv (s.start fd listening) := by
  cases fd with
  | none => exact h
  | some fd =>
    rw [Serving.start]
    split
    · exact h
    · rename_i hmay
      rw [Bool.or_eq_true, Bool.or_eq_true, not_or, not_or, Bool.not_eq_true, decide_eq_true_eq,
        not_ne_iff, Bool.not_eq_true', Bool.not_eq_false] at hmay
      obtain ⟨⟨hrunning, hstop⟩, hfree⟩ := hmay
      obtain ⟨hnone, hthread⟩ := h.at_rest hrunning hstop
      have htaken := h.held.take hfree
      split
      · exact {h with held := htaken.close}
      · refine ⟨?_, ?_, ?_, ?_, ?_, ?_, h.shut⟩
        · rw [own, hnone, hthread] at htaken
          exact htaken
        · rw [h.published, hthread]
          rfl
        · exact fun _ hc => absurd hc List.not_mem_nil
        · exact fun _ => ⟨hstop, rfl⟩
        · refine ⟨fun h' => absurd h' Bool.false_ne_true, ?_⟩
          rintro (hclosing | ⟨-, hfalse⟩)
          · exact absurd (hstop.symm.trans hclosing) (by decide)
          · exact absurd hfalse.symm Bool.false_ne_true
        · rfl

theorem Inv.stopped (h : Inv s) (hrunning : s.running = true) :
    Inv {s with running := false, stop := .shutting} := by
  obtain ⟨hstop, -⟩ := h.running hrunning
  have hthread := h.thread
  rw [hstop, hrunning] at hthread
  refine {h with running := fun h' => absurd h' Bool.false_ne_true, thread := ?_, listener := ?_}
  · exact hthread.trans (by simp)
  · rw [h.listener, hrunning]
    rfl

/-- The client that `stop` finds is the one that the thread reads from. -/
theorem Inv.client_held (h : Inv s) {c : Handle} (hc : c ∈ s.clientSock.toList) :
    c ∈ s.thread.held := by
  rw [h.published] at hc
  cases hs : s.thread <;> rw [hs] at hc <;> first | exact absurd hc List.not_mem_nil | exact hc

theorem Inv.refers_own (h : Inv s) {c : Handle} (hc : c ∈ s.own) :
    s.sockets.refers c.fd = [c.id] :=
  h.held.refers_mem (List.mem_append_left _ hc)

theorem Inv.stopping (h : Inv s) : Inv s.stopping := by
  have hstill : s.stop ≠ .idle → s.running = false := by
    intro hstop
    cases hrunning : s.running with
    | false => rfl
    | true => exact absurd (h.running hrunning).1 hstop
  rw [Serving.stopping]
  split
  · exact h
  · rename_i hstop
    have hrunning := hstill (by rw [hstop]; decide)
    have hthread := h.thread
    have hlistener := h.listener
    rw [hstop, hrunning] at hthread hlistener
    refine {h with running := ?_, thread := ?_, listener := hlistener.trans ?_, shut := ?_}
    · exact fun h' => absurd (hrunning.symm.trans h') Bool.false_ne_true
    · rw [hrunning]
      exact hthread.trans (by simp)
    · rw [hrunning]
      rfl
    · intro ids hids
      rcases List.mem_append.mp hids with hids | hids
      · exact h.shut ids hids
      · obtain ⟨c, hc, rfl⟩ := List.mem_map.mp hids
        have hheld := h.client_held hc
        exact ⟨c.id, h.accepted c hheld, h.refers_own (List.mem_append_right _ hheld)⟩
  · rename_i hstop
    split
    · rename_i hexited
      have hrunning := hstill (by rw [hstop]; decide)
      have hlistener := h.listener
      have hheld := h.held
      have hpublished := h.published
      rw [hstop, hrunning] at hlistener
      rw [own, hexited] at hheld
      rw [hexited] at hpublished
      refine ⟨hheld, hpublished, fun _ hc => absurd hc List.not_mem_nil, ?_,
        iff_of_true rfl (.inl rfl), hlistener.trans ?_, h.shut⟩
      · exact fun h' => absurd (hrunning.symm.trans h') Bool.false_ne_true
      · rw [hrunning]
        rfl
    · exact h
  · rename_i hstop
    have hrunning := hstill (by rw [hstop]; decide)
    have hnone := h.thread.mpr (.inl hstop)
    refine {h with
      held := ?_, running := ?_, thread := iff_of_true hnone (.inr ⟨rfl, hrunning⟩), listener := ?_}
    · have hheld := h.held
      rw [own] at hheld ⊢
      cases hl : s.listenSock with
      | none =>
        rw [hl] at hheld
        exact hheld
      | some l =>
        rw [hl] at hheld
        exact hheld.close
    · exact fun h' => absurd (hrunning.symm.trans h') Bool.false_ne_true
    · rw [hrunning]
      rfl

/-- The thread goes on with the sockets it has. -/
theorem Inv.move (h : Inv s) {thread : Thread} (hheld : thread.held = s.thread.held)
    (hpublished : thread.published = s.thread.published)
    (hnone : thread.isIdle = s.thread.isIdle)
    (hexited : s.running = true → thread.isExited = false) :
    Inv {s with thread} where
  held := by
    show s.sockets.Holds (s.listenSock.toList ++ thread.held ++ s.others)
    rw [hheld]
    exact h.held
  published := h.published.trans hpublished.symm
  accepted := by
    show ∀ c ∈ thread.held, c.id ∈ s.clients
    rw [hheld]
    exact h.accepted
  running := fun hrunning => ⟨(h.running hrunning).1, hexited hrunning⟩
  thread := by
    show thread.isIdle = true ↔ _
    rw [hnone]
    exact h.thread
  listener := h.listener
  shut := h.shut

/-- A client has been accepted. -/
theorem Inv.accept (h : Inv s) (hat : s.thread = .accepting) {fd : Nat}
    (hfree : s.sockets.isFree fd = true) :
    Inv {s with
      thread := .accepted (s.sockets.next fd)
      sockets := s.sockets.take fd
      clients := s.clients ++ [(s.sockets.next fd).id]} where
  held := by
    have htaken := h.held.take hfree
    rw [own, hat, Thread.held, List.append_nil] at htaken
    show (s.sockets.take fd).Holds (s.listenSock.toList ++ [s.sockets.next fd] ++ s.others)
    rw [List.append_assoc]
    exact htaken.change (List.perm_middle.symm)
  published := by
    rw [h.published, hat]
    rfl
  accepted := fun c hc => List.mem_append_right _ (by rw [List.mem_singleton.mp hc]; simp)
  running := fun hrunning => ⟨(h.running hrunning).1, rfl⟩
  thread := by
    have hthread := h.thread
    rw [hat] at hthread
    exact hthread
  listener := h.listener
  shut := fun ids hids =>
    have ⟨id, hid, heq⟩ := h.shut ids hids
    ⟨id, List.mem_append_left _ hid, heq⟩

/-- The thread closes its client. -/
theorem Inv.close (h : Inv s) {client : Handle} (hat : s.thread.held = [client])
    {thread : Thread} (hheld : thread.held = [])
    (hpublished : thread.published = none) (hnone : thread.isIdle = false)
    (hexited : s.running = true → thread.isExited = false) :
    Inv {s with thread, clientSock := none, sockets := s.sockets.close client.fd} where
  held := by
    have hbefore := h.held
    rw [own, hat, List.append_assoc] at hbefore
    show (s.sockets.close client.fd).Holds (s.listenSock.toList ++ thread.held ++ s.others)
    rw [hheld, List.append_nil]
    exact (hbefore.change List.perm_middle).close
  published := hpublished.symm
  accepted := by
    show ∀ c ∈ thread.held, c.id ∈ s.clients
    rw [hheld]
    exact fun _ hc => absurd hc List.not_mem_nil
  running := fun hrunning => ⟨(h.running hrunning).1, hexited hrunning⟩
  thread := by
    have hbusy : s.thread.isIdle = false := by
      cases hs : s.thread <;> rw [hs] at hat <;>
        first | rfl | exact absurd hat.symm (by simp [Thread.held])
    have hthread := h.thread
    rw [hbusy] at hthread
    show thread.isIdle = true ↔ _
    rw [hnone]
    exact hthread
  listener := h.listener
  shut := h.shut

theorem Inv.acceptLoop (h : Inv s) (ready : Bool) (accepted : Option Nat) (ended : Bool) :
    Inv (s.acceptLoop ready accepted ended) := by
  have hlistener := h.listener
  rw [Serving.acceptLoop.eq_def]
  split
  · exact h
  · rename_i hat
    refine h.move ?_ ?_ ?_ fun hrunning => ?_
    · rw [hat]
      split <;> rfl
    · rw [hat]
      split <;> rfl
    · rw [hat]
      split <;> rfl
    · rw [if_pos hrunning]
      rfl
  · rename_i hat
    refine h.move ?_ ?_ ?_ fun hrunning => ?_
    · rw [hat]
      split_ifs <;> rfl
    · rw [hat]
      split_ifs <;> rfl
    · rw [hat]
      split_ifs <;> rfl
    · -- a listener that runs has its socket
      rw [hrunning, Bool.true_or, Option.isSome_iff_ne_none] at hlistener
      rw [Option.isNone_eq_false_iff.mpr (Option.isSome_iff_ne_none.mpr hlistener)]
      split_ifs <;> first | rfl | contradiction
  · rename_i hat
    split
    · exact h.move (by rw [hat]; rfl) (by rw [hat]; rfl) (by rw [hat]; rfl) fun _ => rfl
    · split
      · rename_i hfree
        exact h.accept hat hfree
      · exact h.move (by rw [hat]; rfl) (by rw [hat]; rfl) (by rw [hat]; rfl) fun _ => rfl
  · rename_i client hat
    split
    · have hbefore := h.held
      have haccepted := h.accepted
      have hthread := h.thread
      rw [own, hat] at hbefore
      rw [hat] at haccepted hthread
      exact ⟨hbefore, rfl, haccepted, fun hrunning => ⟨(h.running hrunning).1, rfl⟩, hthread,
        h.listener, h.shut⟩
    · rename_i hrunning
      have hnone : s.clientSock = none := by
        rw [h.published, hat]
        rfl
      have hclosed := @Inv.close s h client (by rw [hat]; rfl) .exited rfl rfl rfl
        fun h' => absurd h' hrunning
      rw [← hnone] at hclosed
      exact hclosed
  · rename_i client hat
    split
    · exact h
    · exact h.move (by rw [hat]; rfl) (by rw [hat]; rfl) (by rw [hat]; rfl) fun _ => rfl
  · rename_i client hat
    exact h.close (by rw [hat]; rfl) rfl rfl rfl fun _ => rfl
  · exact h

theorem Inv.step (s : Serving) (e : Event) (h : Inv s) : Inv (step s e) := by
  cases e with
  | start fd listening => exact h.start fd listening
  | stop =>
    rw [Serving.step]
    split
    · rename_i hrunning
      exact h.stopped hrunning
    · exact h
  | control => exact h.stopping
  | thread ready accepted ended => exact h.acceptLoop ready accepted ended
  | opened fd =>
    rw [Serving.step]
    split
    · rename_i hfree
      exact {h with held := (h.held.take hfree).change List.perm_middle.symm}
    · exact h
  | closed i =>
    rw [Serving.step]
    split
    · exact h
    · rename_i hd hi
      obtain ⟨hlt, rfl⟩ := List.getElem?_eq_some_iff.mp hi
      have hfirst : (s.own ++ s.others).Perm
          (s.others[i] :: (s.own ++ s.others.eraseIdx i)) :=
        ((List.getElem_cons_eraseIdx_perm hlt).symm.append_left s.own).trans List.perm_middle
      exact {h with held := (h.held.change hfirst).close}

/-! ### Every run -/

/-- What the sockets of a listener are worth, whatever the order of its starts and stops,
of its thread's steps and of what else is opened and closed: no descriptor is closed twice,
what others have opened stays theirs, `stop` wakes nobody but a client of the listener's,
the thread waits on the listener's own socket, and a listener that has been stopped has
nothing open. -/
theorem serving_sound (es : List Event) :
    let s := machine.run {} es
    s.sockets.ledger.closed.Nodup ∧
      (∀ h ∈ s.others, s.sockets.refers h.fd = [h.id]) ∧
      (∀ ids ∈ s.shut, ∃ id ∈ s.clients, ids = [id]) ∧
      (s.thread.isIdle = false → ∃ l, s.listenSock = some l ∧
        s.sockets.refers l.fd = [l.id]) ∧
      (s.stop = .idle → s.running = false → s.sockets.table.Perm s.others) := by
  intro s
  have h : Inv s := Machine.run_keeps Inv.step es inv_initial
  refine ⟨h.held.balanced.nodup, fun hd hmem => h.held.refers_mem (List.mem_append_right _ hmem),
    h.shut, fun hthread => ?_, fun hstop hrunning => ?_⟩
  · have hbusy := mt h.thread.mpr (by rw [hthread]; exact Bool.false_ne_true)
    have hopen : (s.running || decide (s.stop ≠ .idle)) = true := by
      by_contra hnot
      rw [Bool.or_eq_true, not_or, decide_eq_true_eq, not_ne_iff, Bool.not_eq_true] at hnot
      exact hbusy (.inr ⟨hnot.2, hnot.1⟩)
    obtain ⟨l, hl⟩ := Option.isSome_iff_exists.mp (h.listener.trans hopen)
    refine ⟨l, hl, h.refers_own (List.mem_append_left _ ?_)⟩
    rw [hl]
    exact List.mem_singleton.mpr rfl
  · obtain ⟨hnone, hthread⟩ := h.at_rest hrunning hstop
    have hperm := h.held.perm
    rw [own, hnone, hthread] at hperm
    exact hperm

/-! ### Stopping -/

def Event.ofThread : Event → Bool
  | .thread .. => true
  | _ => false

def Event.ofStop : Event → Bool
  | .control => true
  | _ => false

/-- Until `stop` returns. -/
def stopMachine : Machine Serving Event := machine.halted fun s => s.stop = .idle

/-- A `stop` is under way, or has returned. -/
def Stopped (s : Serving) : Prop := Inv s ∧ s.running = false

/-- What the steps of the others do to a `stop` that is under way: nothing. -/
theorem step_other {e : Event} (hstop : s.stop ≠ .idle) (hrunning : s.running = false)
    (hthread : e.ofThread = false) (hcontrol : e.ofStop = false) :
    (step s e).running = false ∧ (step s e).stop = s.stop ∧ (step s e).thread = s.thread := by
  cases e with
  | start fd listening =>
    cases fd with
    | none => exact ⟨hrunning, rfl, rfl⟩
    | some fd =>
      rw [step, Serving.start, if_pos (by simp [hstop])]
      exact ⟨hrunning, rfl, rfl⟩
  | stop =>
    rw [step, if_neg (by rw [hrunning]; exact Bool.false_ne_true)]
    exact ⟨hrunning, rfl, rfl⟩
  | control => exact absurd hcontrol.symm Bool.false_ne_true
  | thread ready accepted ended => exact absurd hthread.symm Bool.false_ne_true
  | opened fd =>
    rw [step]
    split <;> exact ⟨hrunning, rfl, rfl⟩
  | closed i =>
    rw [step]
    split <;> exact ⟨hrunning, rfl, rfl⟩

/-- A step of the thread brings it nearer to its end. -/
theorem acceptLoop_left (hrunning : s.running = false) (ready : Bool) (accepted : Option Nat)
    (ended : Bool) :
    (s.acceptLoop ready accepted ended).running = false ∧
      (s.acceptLoop ready accepted ended).stop = s.stop ∧
      (s.acceptLoop ready accepted ended).thread.left ≤ s.thread.left - 1 := by
  have hstill : ¬ s.running = true := by rw [hrunning]; exact Bool.false_ne_true
  rw [Serving.acceptLoop.eq_def]
  split <;> rename_i hat
  · exact ⟨hrunning, rfl, by rw [hat]; exact Nat.le_refl _⟩
  · rw [hat, if_neg hstill]
    exact ⟨hrunning, rfl, Nat.le_refl _⟩
  · refine ⟨hrunning, rfl, ?_⟩
    rw [hat]
    dsimp only
    split_ifs <;> decide
  · rw [hat]
    split
    · exact ⟨hrunning, rfl, Nat.le_refl _⟩
    · split <;> exact ⟨hrunning, rfl, Nat.le_refl _⟩
  · rw [hat, if_neg hstill]
    exact ⟨hrunning, rfl, Nat.le_refl _⟩
  · rw [hat, if_neg (by simp [hrunning])]
    exact ⟨hrunning, rfl, Nat.le_refl _⟩
  · rw [hat]
    exact ⟨hrunning, rfl, Nat.le_refl _⟩
  · exact ⟨hrunning, rfl, by rw [hat]; exact Nat.le_refl _⟩

/-- A step of `stop`. -/
theorem stopping_left (h : Inv s) (hstop : s.stop ≠ .idle) (hrunning : s.running = false) :
    s.stopping.running = false ∧ s.stopping.thread.left ≤ s.thread.left ∧
      (s.thread.left = 0 → s.stopping.stop.left ≤ s.stop.left - 1) := by
  rw [Serving.stopping]
  split <;> rename_i hat
  · exact absurd hat hstop
  · exact ⟨hrunning, Nat.le_refl _, fun _ => by rw [hat]; exact Nat.le_refl _⟩
  · split
    · rename_i hexited
      exact ⟨hrunning, Nat.zero_le _, fun _ => by rw [hat]; exact Nat.le_refl _⟩
    · rename_i hexited
      refine ⟨hrunning, Nat.le_refl _, fun hleft => ?_⟩
      -- the thread of a `stop` that waits has been started
      have hthread := h.thread
      rw [hat] at hthread
      cases hs : s.thread with
      | idle => rw [hs] at hthread; exact absurd (hthread.mp rfl) (by simp)
      | exited => exact absurd hs hexited
      | _ => rw [hs] at hleft; exact absurd hleft (by simp [Thread.left])
  · exact ⟨hrunning, Nat.le_refl _, fun _ => by rw [hat]; exact Nat.le_refl _⟩

/-- How far the thread of a `stop` that is under way is from its end. -/
def threadLeft (s : Serving) : Nat := if s.stop = .idle then 0 else s.thread.left

/-- What a step does to a `stop` that is under way. -/
theorem stopped_step (s : Serving) (e : Event) (h : Stopped s) :
    Stopped (stopMachine.step s e) ∧
      (stopMachine.step s e).threadLeft ≤ s.threadLeft - e.ofThread.toNat ∧
      (s.threadLeft = 0 →
        (stopMachine.step s e).stop.left ≤ s.stop.left - e.ofStop.toNat) := by
  obtain ⟨hinv, hrunning⟩ := h
  by_cases hstop : s.stop = .idle
  · have hstays : stopMachine.step s e = s := if_pos hstop
    rw [hstays]
    refine ⟨⟨hinv, hrunning⟩, ?_, fun _ => ?_⟩
    · rw [threadLeft, if_pos hstop]
      exact Nat.zero_le _
    · rw [hstop]
      exact Nat.zero_le _
  have hmoves : stopMachine.step s e = step s e := if_neg hstop
  rw [hmoves]
  have hleft : s.threadLeft = s.thread.left := if_neg hstop
  have hbelow : (step s e).threadLeft ≤ (step s e).thread.left := by
    rw [threadLeft]
    split
    · exact Nat.zero_le _
    · exact Nat.le_refl _
  rw [hleft]
  have hother : e.ofThread = false → e.ofStop = false → Stopped (step s e) ∧
      (step s e).threadLeft ≤ s.thread.left - e.ofThread.toNat ∧
      (s.thread.left = 0 → (step s e).stop.left ≤ s.stop.left - e.ofStop.toNat) := by
    intro hthread hcontrol
    obtain ⟨hrunning', hsame, hstays⟩ := step_other hstop hrunning hthread hcontrol
    rw [hthread, hcontrol]
    exact ⟨⟨Inv.step s e hinv, hrunning'⟩, hbelow.trans (congrArg Thread.left hstays).le,
      fun _ => (congrArg Stopping.left hsame).le⟩
  cases e with
  | control =>
    obtain ⟨hrunning', hthread, hcontrol⟩ := stopping_left hinv hstop hrunning
    exact ⟨⟨hinv.stopping, hrunning'⟩, hbelow.trans hthread, hcontrol⟩
  | thread ready accepted ended =>
    obtain ⟨hrunning', hsame, hthread⟩ := @acceptLoop_left s hrunning ready accepted ended
    exact ⟨⟨hinv.acceptLoop ready accepted ended, hrunning'⟩, hbelow.trans hthread,
      fun _ => (congrArg Stopping.left hsame).le⟩
  | _ => exact hother rfl rfl

/-- A `stop` returns: once its thread has had three steps and it has had three after
them, whatever else happens in between. -/
theorem stop_returns (es a b : List Event) (hstop : (machine.run {} es).stop ≠ .idle)
    (ha : 3 ≤ a.countP Event.ofThread) (hb : 3 ≤ b.countP Event.ofStop) :
    ∃ pre, pre <+: a ++ b ∧ (machine.run {} (es ++ pre)).stop = .idle := by
  have h : Inv (machine.run {} es) := Machine.run_keeps Inv.step es inv_initial
  have hrunning : (machine.run {} es).running = false := by
    cases hs : (machine.run {} es).running with
    | false => rfl
    | true => exact absurd (h.running hs).1 hstop
  generalize hs : machine.run {} es = s at h hrunning
  have hfirst : Stopped (stopMachine.run s a) ∧ (stopMachine.run s a).threadLeft = 0 := by
    refine ⟨Machine.run_keeps (fun s e hs => (stopped_step s e hs).1) a ⟨h, hrunning⟩, ?_⟩
    refine Machine.run_exhausts (fun s e hs => (stopped_step s e hs).1)
      (fun s e hs => (stopped_step s e hs).2.1) a ⟨h, hrunning⟩ (le_trans ?_ ha)
    rw [threadLeft]
    split
    · exact Nat.zero_le 3
    · cases s.thread <;> simp [Thread.left]
  have hkeeps : ∀ s e, Stopped s ∧ s.threadLeft = 0 →
      Stopped (stopMachine.step s e) ∧ (stopMachine.step s e).threadLeft = 0 := by
    rintro s e ⟨hs, hleft⟩
    obtain ⟨hnext, hthread, -⟩ := stopped_step s e hs
    exact ⟨hnext, Nat.le_zero.mp (hthread.trans (hleft ▸ Nat.sub_le _ _))⟩
  have hlast : (stopMachine.run (stopMachine.run s a) b).stop.left = 0 := by
    refine @Machine.run_exhausts _ _ stopMachine _ (fun s => s.stop.left) Event.ofStop hkeeps
      (fun s e hs => (stopped_step s e hs.1).2.2 hs.2) _ b hfirst (le_trans ?_ hb)
    cases (stopMachine.run s a).stop <;> decide
  obtain ⟨pre, hprefix, hpre⟩ :=
    @Machine.halted_run _ _ machine (fun s => s.stop = .idle) _ s (a ++ b)
  refine ⟨pre, hprefix, ?_⟩
  rw [Machine.run_append, hs, ← hpre]
  rw [← Machine.run_append] at hlast
  cases hidle : (stopMachine.run s (a ++ b)).stop with
  | idle => exact hidle
  | _ => rw [hidle] at hlast; exact absurd hlast (by decide)

/-- A listener that is stopped while it reads from a client. -/
def reading : List Event :=
  [.start (some 5) true, .thread false none false, .thread true none false,
    .thread true (some 6) false, .thread true none false, .stop]

/-- The reader ends, the loop sees the flag, the listener is closed. -/
theorem reading_stopped :
    ∃ pre, pre <+: List.replicate 3 (.thread false none false) ++ List.replicate 3 .control ∧
      (machine.run {} (reading ++ pre)).stop = .idle :=
  stop_returns reading (List.replicate 3 (.thread false none false)) (List.replicate 3 .control)
    (by decide) (by decide) (by decide)

end Serving
end AirPlay.Mirror
