import AirPlay.Net.TcpServer

/-! Draining the TCP server.

The callback of `close_all_clients` runs under the lock, when nobody is tracked: then no
handler runs and none is about to. A client that was accepted in the meantime is refused,
and when `stop` has returned nothing is left. -/
namespace AirPlay.Net

namespace TcpServer

/-! ### The calls -/

/-- `close_all_clients` has cancelled the clients, and its callback has not finished. -/
def draining : Call → Bool
  | .waiting _ | .callback => true
  | _ => false

def stopping : Call → Bool
  | .joining | .closing | .collecting | .waiting .stop => true
  | _ => false

/-- The client's flag is set, and its socket has been shut down. -/
def told (s : TcpServer) (c : ClientSocket) : Prop := c.id ∈ s.cancelled ∧ c.id ∈ s.shut

/-- What a call has done by the place where it is, and what no call leaves behind. -/
structure Phased (s : TcpServer) : Prop where
  disconnects : s.disconnecting = draining s.call
  cancels : draining s.call → ∀ c ∈ s.activeClients, s.told c
  drained : s.call = .callback ∨ s.call = .collecting → s.activeClients = []
  stops : stopping s.call → s.running = false
  joined : s.running = false → s.call ≠ .joining → s.acceptor = .none
  collected : s.running = false → stopping s.call = false → s.workers = []

/-- The accept thread and the workers leave the calls alone. A client is added to those
that are tracked by the accept thread, when nobody disconnects them. -/
def Turn (s s' : TcpServer) : Prop :=
  ∃ acceptor workers active sockets,
    s' = {s with
      acceptor := acceptor, workers := workers, activeClients := active, sockets := sockets} ∧
      (active ⊆ s.activeClients ∨ s.acceptor ≠ .none ∧ s.disconnecting = false) ∧
      (s.acceptor = .none → acceptor = .none ∧ (s.workers = [] → workers = []))

section Turn
variable {s : TcpServer}

theorem Turn.refl (s : TcpServer) : s.Turn s :=
  ⟨_, _, _, _, rfl, .inl (List.Subset.refl _), fun hnone => ⟨hnone, fun hw => hw⟩⟩

theorem turn_thread (hat : s.acceptor ≠ .none) (acceptor : Acceptor) (workers : List Worker)
    (sockets : Descriptors) :
    s.Turn {s with acceptor := acceptor, workers := workers, sockets := sockets} :=
  ⟨_, _, _, _, rfl, .inl (List.Subset.refl _), fun hnone => absurd hnone hat⟩

theorem turn_worker (i : Nat) (w : Worker) {active : List ClientSocket} (sockets : Descriptors)
    (hactive : active ⊆ s.activeClients) :
    s.Turn {s with workers := s.workers.set i w, activeClients := active, sockets := sockets} := by
  refine ⟨_, _, _, _, rfl, .inl hactive, fun hnone => ⟨hnone, ?_⟩⟩
  intro hw
  rw [hw]
  rfl

theorem accept_turn (result : Option Nat) (s : TcpServer) : s.Turn (s.accept result) := by
  unfold accept
  split
  · exact Turn.refl s
  rename_i hphase
  have hat : s.acceptor ≠ .none := by
    simp [not_not.mp hphase]
  split
  · exact turn_thread hat _ _ _
  · split
    · exact turn_thread hat _ _ _
    · exact Turn.refl s

theorem track_turn (client : ClientSocket) (hat : s.acceptor ≠ .none) :
    s.Turn (s.track client) := by
  rw [track]
  split
  · exact turn_thread hat _ _ _
  · rename_i hgo
    refine ⟨_, _, _, _, rfl, .inr ⟨hat, ?_⟩, fun hnone => absurd hnone hat⟩
    cases hdis : s.disconnecting
    · rfl
    · simp [hdis] at hgo

theorem reap_turn (client : ClientSocket) (next : Nat) (hat : s.acceptor ≠ .none) :
    s.Turn (s.reap client next) := by
  rw [reap]
  split
  · split
    · exact turn_thread hat _ _ _
    · exact turn_thread hat _ _ _
  · exact turn_thread hat _ _ _

theorem acceptLoop_turn (s : TcpServer) : s.Turn s.acceptLoop := by
  by_cases hat : s.acceptor = .none
  · rw [acceptLoop, hat]
    exact Turn.refl s
  rw [acceptLoop]
  split
  · exact turn_thread hat _ _ _
  · split
    · exact Turn.refl s
    · exact track_turn _ hat
  · exact reap_turn _ _ hat
  · exact Turn.refl s
  · exact Turn.refl s
  · exact Turn.refl s

theorem work_turn (i : Nat) (s : TcpServer) : s.Turn (s.work i) := by
  rw [work]
  split
  · exact turn_worker i _ _ (List.Subset.refl _)
  · split
    · exact Turn.refl s
    · exact turn_worker i _ _ (List.filter_subset_self _)
  · exact turn_worker i _ _ (List.Subset.refl _)
  · exact Turn.refl s
  · exact Turn.refl s

theorem Turn.active {s' : TcpServer} (h : s.Turn s') (hdis : s.disconnecting = true) :
    s'.activeClients ⊆ s.activeClients := by
  obtain ⟨_, _, _, _, rfl, hactive, _⟩ := h
  rcases hactive with hless | ⟨_, hoff⟩
  · exact hless
  · exact absurd (hoff.symm.trans hdis) Bool.false_ne_true

theorem Turn.told {s' : TcpServer} {c : ClientSocket} (h : s.Turn s') (hc : s.told c) :
    s'.told c := by
  obtain ⟨_, _, _, _, rfl, _⟩ := h
  exact hc

theorem Turn.phased {s' : TcpServer} (hturn : s.Turn s') (h : s.Phased) : s'.Phased := by
  have hless := hturn.active
  obtain ⟨acceptor, workers, active, sockets, rfl, hactive, hkeeps⟩ := hturn
  refine ⟨h.disconnects, ?_, ?_, h.stops, ?_, ?_⟩
  · intro hdrain c hc
    exact h.cancels hdrain c (hless (h.disconnects.trans hdrain) hc)
  · intro hcall
    have hsub : active ⊆ s.activeClients := by
      rcases hcall with hback | hcoll
      · exact hless (h.disconnects.trans (by rw [show s.call = _ from hback]; rfl))
      -- The accept thread has been joined, and it alone adds clients.
      · have hrun := h.stops (by rw [show s.call = _ from hcoll]; rfl)
        have hnone := h.joined hrun (by simp [show s.call = _ from hcoll])
        exact hactive.resolve_right fun hadds => hadds.1 hnone
    rw [h.drained hcall] at hsub
    exact List.subset_nil.mp hsub
  · intro hrun hcall
    exact (hkeeps (h.joined hrun hcall)).1
  · intro hrun hstop
    have hcall : s.call ≠ .joining := by
      intro hjoin
      have hoff : stopping s.call = false := hstop
      simp [hjoin, stopping] at hoff
    have hnone := h.joined hrun hcall
    exact (hkeeps hnone).2 (h.collected hrun hstop)

end Turn

section Phased
variable {s : TcpServer}

/-- Between the calls. -/
theorem phased_idle (hidle : s.call = .idle) (hdis : s.disconnecting = false)
    (hjoined : s.running = false → s.acceptor = .none)
    (hcollected : s.running = false → s.workers = []) : s.Phased where
  disconnects := by
    rw [hdis, hidle]
    rfl
  cancels := by simp [hidle, draining]
  drained := by simp [hidle]
  stops := by simp [hidle, stopping]
  joined := fun hrun _ => hjoined hrun
  collected := fun hrun _ => hcollected hrun

/-- A wait begins, and goes on, with every client that is tracked cancelled. -/
theorem drain_phased {caller : Caller} (hdis : s.disconnecting)
    (htold : ∀ c ∈ s.activeClients, s.told c)
    (hjoined : s.running = false → s.acceptor = .none) (hstop : caller = .stop → s.running = false)
    (huser : caller ≠ .stop → s.running = false → s.workers = []) : (s.drain caller).Phased := by
  unfold drain
  split
  · refine ⟨hdis, fun _ => htold, ?_, ?_, fun hrun _ => hjoined hrun, ?_⟩
    · simp
    · intro hst
      apply hstop
      cases caller with
      | user onDrained => exact absurd hst Bool.false_ne_true
      | stop => rfl
    · intro hrun hst
      refine huser ?_ hrun
      rintro rfl
      exact absurd hst.symm Bool.false_ne_true
  · rename_i hnone
    rw [not_not] at hnone
    split
    · exact ⟨hdis, fun _ => htold, fun _ => hnone, by simp [stopping], fun hrun _ => hjoined hrun,
        fun hrun _ => huser (by simp) hrun⟩
    · exact phased_idle rfl rfl hjoined (huser (by simp))
    · exact ⟨rfl, by simp [draining], fun _ => hnone, fun _ => hstop rfl,
        fun hrun _ => hjoined hrun, by simp [stopping]⟩

/-- What the clients are told: the descriptor of each still names its own socket. -/
theorem cancelClients_tells (ho : s.Owned) : ∀ c ∈ s.activeClients, s.cancelClients.told c := by
  intro c hc
  have hrefers := ho.sockets.refers_mem
    (List.mem_append_right (pending s.acceptor) (ho.active.mem_iff.mp hc))
  constructor
  · exact List.mem_append_right _ (List.mem_map_of_mem hc)
  · apply List.mem_append_right
    refine List.mem_flatMap.mpr ⟨c, hc, ?_⟩
    rw [hrefers]
    exact List.mem_singleton.mpr rfl

theorem closeAllClients_phased {caller : Caller} (ho : s.Owned)
    (hjoined : s.running = false → s.acceptor = .none) (hstop : caller = .stop → s.running = false)
    (huser : caller ≠ .stop → s.running = false → s.workers = []) :
    (s.closeAllClients caller).Phased :=
  drain_phased rfl (cancelClients_tells ho) hjoined hstop huser

theorem control_phased (ho : s.Owned) (h : s.Phased) : s.control.Phased := by
  rw [control]
  split
  · exact h
  · rename_i caller hcall
    have hon : draining s.call := by rw [hcall]; rfl
    refine drain_phased (h.disconnects.trans hon) (h.cancels hon) ?_ ?_ ?_
    · exact fun hrun => h.joined hrun (by simp [hcall])
    · rintro rfl
      exact h.stops (by rw [hcall]; rfl)
    · intro huser hrun
      refine h.collected hrun ?_
      rw [hcall]
      cases caller with
      | user onDrained => rfl
      | stop => exact absurd rfl huser
  · rename_i hcall
    refine phased_idle rfl rfl ?_ ?_
    · exact fun hrun => h.joined hrun (by simp [hcall])
    · exact fun hrun => h.collected hrun (by rw [hcall]; rfl)
  · rename_i hcall
    have hrun := h.stops (by rw [hcall]; rfl)
    split
    · refine ⟨?_, by simp [draining], by simp, fun _ => hrun, fun _ _ => rfl, by simp [stopping]⟩
      show s.disconnecting = false
      rw [h.disconnects, hcall]
      rfl
    · exact h
  · rename_i hcall
    have hrun := h.stops (by rw [hcall]; rfl)
    refine closeAllClients_phased ho ?_ (fun _ => hrun) fun hne => absurd rfl hne
    exact fun hrun => h.joined hrun (by simp [hcall])
  · rename_i hcall
    split
    · refine phased_idle rfl ?_ ?_ fun _ => rfl
      · show s.disconnecting = false
        rw [h.disconnects, hcall]
        rfl
      · exact fun hrun => h.joined hrun (by simp [hcall])
    · exact h

end Phased

/-! ### Every run -/

/-- Every socket that is open, and every client that is tracked, has somebody to close it. -/
structure Coherent (s : TcpServer) : Prop where
  owned : s.Owned
  phased : s.Phased

theorem start_coherent (listening : Bool) {s : TcpServer} (hidle : s.call = .idle)
    (h : s.Coherent) : (s.start listening).Coherent := by
  rw [start]
  split
  · exact h
  rename_i hgo
  have hrun : s.running = false := by
    cases hrun : s.running
    · rfl
    · simp [hrun] at hgo
  have hnone := h.phased.joined hrun (by simp [hidle])
  constructor
  · refine h.owned.move rfl rfl ?_ ?_
    · rw [hnone]
      rfl
    · rw [tracked, hnone]
      exact List.Perm.refl _
  · refine phased_idle hidle ?_ (by simp) (by simp)
    show s.disconnecting = false
    rw [h.phased.disconnects, hidle]
    rfl

theorem stop_coherent {s : TcpServer} (hidle : s.call = .idle) (h : s.Coherent) :
    s.stop.Coherent := by
  rw [stop]
  split
  · refine ⟨⟨h.owned.sockets, h.owned.active⟩, ?_, by simp [draining], by simp, fun _ => rfl,
      fun _ hne => absurd rfl hne, by simp [stopping]⟩
    show s.disconnecting = false
    rw [h.phased.disconnects, hidle]
    rfl
  · exact h

theorem step_coherent (s : TcpServer) (e : Event) (h : s.Coherent) : (s.step e).Coherent := by
  have hcalls : ∀ f : TcpServer → TcpServer, (s.call = .idle → (f s).Coherent) →
      (s.calls f).Coherent := by
    intro f hf
    rw [calls]
    split
    · exact hf ‹_›
    · exact h
  cases e with
  | start listening => exact hcalls _ fun hidle => start_coherent listening hidle h
  | stop => exact hcalls _ fun hidle => stop_coherent hidle h
  | closeAllClients onDrained =>
    apply hcalls
    intro hidle
    refine ⟨closeAllClients_owned _ h.owned, closeAllClients_phased h.owned ?_ (by simp) ?_⟩
    · exact fun hrun => h.phased.joined hrun (by simp [hidle])
    · exact fun _ hrun => h.phased.collected hrun (by rw [hidle]; rfl)
  | control => exact ⟨control_owned h.owned, control_phased h.owned h.phased⟩
  | accept result =>
    exact ⟨accept_owned result h.owned, (accept_turn result s).phased h.phased⟩
  | acceptLoop => exact ⟨acceptLoop_owned h.owned, (acceptLoop_turn s).phased h.phased⟩
  | work i => exact ⟨work_owned i h.owned, (work_turn i s).phased h.phased⟩

theorem run_coherent (es : List Event) : (machine.run {} es).Coherent := by
  apply machine.run_keeps step_coherent
  exact ⟨⟨Descriptors.holds_empty, List.Perm.refl []⟩,
    phased_idle rfl rfl (fun _ => rfl) fun _ => rfl⟩

/-! ### What the callback finds -/

section Drain
variable {s : TcpServer}

theorem drain_active (caller : Caller) (s : TcpServer) :
    (s.drain caller).activeClients = s.activeClients := by
  unfold drain
  split
  · rfl
  · split <;> rfl

theorem calls_busy (f : TcpServer → TcpServer) (hdrain : draining s.call) : s.calls f = s := by
  rw [calls, if_neg]
  intro hidle
  simp [hidle, draining] at hdrain

/-- While the clients are disconnected none is added to those that are tracked. -/
theorem step_active (e : Event) (h : s.Phased) (hdrain : draining s.call) :
    (s.step e).activeClients ⊆ s.activeClients := by
  have hbusy : ∀ f, (s.calls f).activeClients ⊆ s.activeClients := by
    intro f
    rw [calls_busy f hdrain]
    exact List.Subset.refl _
  cases e with
  | start listening => exact hbusy _
  | stop => exact hbusy _
  | closeAllClients onDrained => exact hbusy _
  | control =>
    show s.control.activeClients ⊆ s.activeClients
    rw [control]
    split
    · exact List.Subset.refl _
    · rw [drain_active]
      exact List.Subset.refl _
    · exact List.Subset.refl _
    all_goals
      rename_i hcall
      simp [hcall, draining] at hdrain
  | accept result => exact (accept_turn result s).active (h.disconnects.trans hdrain)
  | acceptLoop => exact (acceptLoop_turn s).active (h.disconnects.trans hdrain)
  | work i => exact (work_turn i s).active (h.disconnects.trans hdrain)

theorem drain_told {c : ClientSocket} (caller : Caller) (h : s.told c) :
    (s.drain caller).told c := by
  unfold drain
  split
  · exact h
  · split <;> exact h

theorem closeAllClients_told {c : ClientSocket} (caller : Caller) (h : s.told c) :
    (s.closeAllClients caller).told c :=
  drain_told caller ⟨List.mem_append_left _ h.1, List.mem_append_left _ h.2⟩

/-- A client that has been cancelled stays so. -/
theorem step_told {c : ClientSocket} (s : TcpServer) (e : Event) (h : s.told c) :
    (s.step e).told c := by
  have hcalls : ∀ f : TcpServer → TcpServer, (f s).told c → (s.calls f).told c := by
    intro f hf
    rw [calls]
    split
    · exact hf
    · exact h
  cases e with
  | start listening =>
    apply hcalls
    rw [start]
    split <;> exact h
  | stop =>
    apply hcalls
    rw [stop]
    split <;> exact h
  | closeAllClients onDrained => exact hcalls _ (closeAllClients_told _ h)
  | control =>
    show s.control.told c
    rw [control]
    split
    · exact h
    · exact drain_told _ h
    · exact h
    · split <;> exact h
    · exact closeAllClients_told _ h
    · split <;> exact h
  | accept result => exact (accept_turn result s).told h
  | acceptLoop => exact (acceptLoop_turn s).told h
  | work i => exact (work_turn i s).told h

/-- No handler runs, and none is about to: no client is left without its worker. -/
def Quiet (s : TcpServer) : Prop :=
  s.activeClients = [] ∧ handed s.acceptor = [] ∧ ∀ w ∈ s.workers, w.phase ≠ .handling

/-- Nothing is left, and every socket that was accepted has been closed once. -/
def Stopped (s : TcpServer) : Prop :=
  s.acceptor = .none ∧ s.workers = [] ∧ s.activeClients = [] ∧ s.sockets.ledger.Settled

theorem Owned.quiet (h : s.Owned) (hnone : s.activeClients = []) : s.Quiet := by
  have htracked : s.tracked = [] := by
    have hactive := h.active
    rw [hnone] at hactive
    exact List.nil_perm.mp hactive
  obtain ⟨hhanded, hholding⟩ := List.append_eq_nil_iff.mp htracked
  refine ⟨hnone, hhanded, ?_⟩
  intro w hw hrun
  have hno := List.flatMap_eq_nil_iff.mp hholding w hw
  rw [holding, if_pos (.inl hrun)] at hno
  exact absurd hno (List.cons_ne_nil _ _)

theorem Coherent.stopped (h : s.Coherent) (hrun : s.running = false)
    (hover : stopping s.call = false) : s.Stopped := by
  have hacc : s.acceptor = .none := by
    refine h.phased.joined hrun ?_
    intro hjoin
    simp [hjoin, stopping] at hover
  have hworkers := h.phased.collected hrun hover
  have htracked : s.tracked = [] := by
    rw [tracked, hacc, hworkers]
    rfl
  have hactive := h.owned.active
  have hsockets := h.owned.sockets
  rw [htracked] at hactive hsockets
  rw [hacc] at hsockets
  exact ⟨hacc, hworkers, hactive.eq_nil, hsockets.balanced.settled_iff_nil.mpr rfl⟩

/-- A handler that a call waits for has been told to return. -/
theorem Coherent.handlers (h : s.Coherent) (hdrain : draining s.call) :
    ∀ w ∈ s.workers, w.phase = .handling → s.told w.client := by
  intro w hw hrun
  apply h.phased.cancels hdrain
  apply h.owned.active.mem_iff.mpr
  apply List.mem_append_right
  refine List.mem_flatMap.mpr ⟨w, hw, ?_⟩
  rw [holding, if_pos (.inl hrun)]
  exact List.mem_singleton.mpr rfl

/-! ### The wait ends

What is left to do for the clients that are tracked is finite, and the accept thread and
the workers can do it while the caller waits. -/

/-- What a worker still has before it until its client is forgotten. -/
def ahead (w : Worker) : List Phase :=
  match w.phase with
  | .handling => [.returned, .closed]
  | .returned => [.closed]
  | .closed | .finished => []

/-- A client that has no worker yet comes after those that the accept thread looks at. -/
def handing (s : TcpServer) : Nat :=
  match s.acceptor with
  | .reaping _ next => s.workers.length - next + 3
  | _ => 0

def left (s : TcpServer) : Nat := s.handing + (s.workers.flatMap ahead).length

theorem ahead_at {i : Nat} {w : Worker} (hw : s.workers[i]? = some w) (w' : Worker) :
    (s.workers.flatMap ahead).length =
        (ahead w).length + ((s.workers.eraseIdx i).flatMap ahead).length ∧
      ((s.workers.set i w').flatMap ahead).length =
        (ahead w').length + ((s.workers.eraseIdx i).flatMap ahead).length := by
  obtain ⟨hbefore, hafter⟩ := workers_at ahead hw w'
  rw [hbefore.length_eq, hafter.length_eq, List.length_append, List.length_append]
  exact ⟨rfl, rfl⟩

theorem reap_left {client : ClientSocket} {next : Nat} (hat : s.acceptor = .reaping client next) :
    s.acceptLoop.left < s.left := by
  rw [acceptLoop, hat]
  show (s.reap client next).left < s.left
  have hleft : s.left = s.workers.length - next + 3 + (s.workers.flatMap ahead).length := by
    rw [left, handing, hat]
  rw [hleft, reap]
  split
  · rename_i w hw
    obtain ⟨hi, -⟩ := List.getElem?_eq_some_iff.mp hw
    split
    · rename_i hfin
      have hsame := (ahead_at hw w).1
      have hlen := List.length_eraseIdx_of_lt hi
      rw [left, handing]
      simp only [hat]
      omega
    · show s.workers.length - (next + 1) + 3 + (s.workers.flatMap ahead).length < _
      omega
  · show 0 + ((s.workers ++ [(⟨client, .handling⟩ : Worker)]).flatMap ahead).length < _
    rw [List.flatMap_append, List.length_append]
    show 0 + (_ + 2) < _
    omega

theorem work_left {i : Nat} {w : Worker} (hw : s.workers[i]? = some w) (hbusy : holding w ≠ [])
    (hfree : s.call ≠ .callback) : (s.work i).left < s.left := by
  obtain ⟨c, phase⟩ := w
  have hset : ∀ (w' : Worker) (active : List ClientSocket) (sockets : Descriptors),
      (ahead w').length < (ahead ⟨c, phase⟩).length → ({s with
        workers := s.workers.set i w', activeClients := active, sockets := sockets} :
          TcpServer).left < s.left := by
    intro w' active sockets hless
    obtain ⟨hbefore, hafter⟩ := ahead_at hw w'
    have hhanding : ({s with
        workers := s.workers.set i w', activeClients := active, sockets := sockets} :
          TcpServer).handing = s.handing := by
      rw [handing, handing, List.length_set]
    rw [left, left, hhanding, hbefore, hafter]
    omega
  rw [work, hw]
  cases phase with
  | handling => exact hset _ _ _ (Nat.lt_succ_self _)
  | returned =>
    dsimp only
    rw [if_neg hfree]
    exact hset _ _ _ (Nat.lt_succ_self _)
  | closed => exact absurd rfl hbusy
  | finished => exact absurd rfl hbusy

/-- While somebody is tracked there is a turn that leaves less to do. -/
theorem turn_left (ho : s.Owned) (hfree : s.call ≠ .callback) (hsome : s.activeClients ≠ []) :
    s.acceptLoop.left < s.left ∨ ∃ i, (s.work i).left < s.left := by
  obtain ⟨c, hc⟩ := List.exists_mem_of_ne_nil _ hsome
  rcases List.mem_append.mp (ho.active.mem_iff.mp hc) with hhanded | hheld
  · left
    cases hat : s.acceptor with
    | reaping client next => exact reap_left hat
    | _ =>
      rw [hat] at hhanded
      exact absurd hhanded List.not_mem_nil
  · right
    obtain ⟨w, hw, hcw⟩ := List.mem_flatMap.mp hheld
    obtain ⟨i, hi⟩ := List.getElem?_of_mem hw
    exact ⟨i, work_left hi (List.ne_nil_of_mem hcw) hfree⟩

theorem Turn.call {s' : TcpServer} (h : s.Turn s') : s'.call = s.call := by
  obtain ⟨_, _, _, _, rfl, _⟩ := h
  rfl

/-- With nobody tracked the caller's next step is out of its wait. -/
theorem control_waits (hnone : s.activeClients = []) (caller : Caller) :
    s.control.call ≠ .waiting caller := by
  rw [control]
  split
  · rename_i hidle
    rw [hidle]
    exact Call.noConfusion
  · unfold drain
    rw [if_neg (not_not.mpr hnone)]
    split <;> exact Call.noConfusion
  · exact Call.noConfusion
  · rename_i hjoin
    split
    · exact Call.noConfusion
    · rw [hjoin]
      exact Call.noConfusion
  · have hcancelled : s.cancelClients.activeClients = [] := hnone
    rw [closeAllClients, drain, if_neg (not_not.mpr hcancelled)]
    exact Call.noConfusion
  · rename_i hcollect
    split
    · exact Call.noConfusion
    · rw [hcollect]
      exact Call.noConfusion

theorem wait_ends (h : s.Coherent) (hfree : s.call ≠ .callback) :
    ∃ turns, (∀ e ∈ turns, e = .acceptLoop ∨ ∃ i, e = .work i) ∧
      (machine.run s turns).call = s.call ∧ (machine.run s turns).activeClients = [] ∧
      ∀ caller, (machine.run s turns).control.call ≠ .waiting caller := by
  generalize hn : s.left = n
  induction n using Nat.strongRecOn generalizing s with
  | ind n ih =>
    by_cases hnone : s.activeClients = []
    · exact ⟨[], fun _ he => absurd he List.not_mem_nil, rfl, hnone, control_waits hnone⟩
    have hstep : ∃ e, (e = .acceptLoop ∨ ∃ i, e = .work i) ∧
        (s.step e).call = s.call ∧ (s.step e).left < n := by
      rcases turn_left h.owned hfree hnone with hless | ⟨i, hless⟩
      · exact ⟨.acceptLoop, .inl rfl, (acceptLoop_turn s).call, hn ▸ hless⟩
      · exact ⟨.work i, .inr ⟨i, rfl⟩, (work_turn i s).call, hn ▸ hless⟩
    obtain ⟨e, he, hcall, hless⟩ := hstep
    obtain ⟨turns, hturns, hcalls, hgone⟩ :=
      ih _ hless (step_coherent s e h) (by rwa [hcall]) rfl
    exact ⟨e :: turns, List.forall_mem_cons.mpr ⟨he, hturns⟩, hcalls.trans hcall, hgone⟩

/-- Whatever clients, handlers and calls do, in any order: the callback finds no handler
running; a client that was tracked when the call began has been cancelled from then on; a
handler that a call waits for has been told to return, and no client is added before the
callback has finished; no socket is closed twice; when the server has stopped each has been
closed, and no worker and no client is left; and if the handlers return, the accept thread
and the workers have a way to go on, with the call where it is, after which nobody is
tracked and the caller's next step is out of its wait. -/
theorem drains (es : List Event) :
    let s := machine.run {} es
    (s.call = .callback → s.Quiet) ∧
      (∀ onDrained rest, s.call = .idle → ∀ c ∈ s.activeClients,
        (machine.run s (.closeAllClients onDrained :: rest)).told c) ∧
      (draining s.call →
        (∀ w ∈ s.workers, w.phase = .handling → s.told w.client) ∧
          ∀ e, (machine.step s e).activeClients ⊆ s.activeClients) ∧
      s.sockets.ledger.closed.Nodup ∧
      (s.running = false → stopping s.call = false → s.Stopped) ∧
      (s.call ≠ .callback → ∃ turns, (∀ e ∈ turns, e = .acceptLoop ∨ ∃ i, e = .work i) ∧
        (machine.run s turns).call = s.call ∧ (machine.run s turns).activeClients = [] ∧
        ∀ caller, (machine.run s turns).control.call ≠ .waiting caller) := by
  have h := run_coherent es
  refine ⟨?_, ?_, ?_, h.owned.sockets.balanced.nodup, h.stopped, wait_ends h⟩
  · intro hback
    exact h.owned.quiet (h.phased.drained (.inl hback))
  · intro onDrained rest hidle c hc
    have htold : (machine.step (machine.run {} es) (.closeAllClients onDrained)).told c := by
      show ((machine.run {} es).calls _).told c
      rw [calls, if_pos hidle]
      exact drain_told _ (cancelClients_tells h.owned c hc)
    exact machine.run_keeps step_told rest htold
  · exact fun hdrain => ⟨h.handlers hdrain, fun e => step_active e h.phased hdrain⟩

/-- The callback runs once the handler has returned and its worker has closed the socket. -/
example :
    (machine.run {} [.start true, .acceptLoop, .accept (some 5), .acceptLoop, .acceptLoop,
      .closeAllClients true, .control, .work 0, .work 0, .control]).call = .callback := by decide

end Drain

end TcpServer

end AirPlay.Net
