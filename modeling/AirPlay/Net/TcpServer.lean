import AirPlay.Library.Machine
import AirPlay.Library.Descriptors

/-! The TCP server of the control connections.

One thread accepts clients and starts a worker for each, which runs the handler, closes
the socket and forgets the client. The caller starts and stops the server and cancels its
clients, one call at a time. What is done under `clients_mtx_` is one step; the callback
alone keeps the lock for longer, and until it has finished nobody else gets in. -/
namespace AirPlay.Net

/-- The number of a socket stands for its `cancelled` flag as well, which is made with it. -/
abbrev ClientSocket := Handle

/-- How far a worker is with its client. -/
inductive Phase
  | handling | returned | closed | finished
  deriving DecidableEq

/-- A worker thread and the client it was started for. -/
structure Worker where
  client : ClientSocket
  phase : Phase
  deriving DecidableEq

/-- Where the accept thread is; `reaping` has the worker that it looks at next. -/
inductive Acceptor
  | none | looping | accepting | accepted (client : ClientSocket)
  | reaping (client : ClientSocket) (next : Nat) | exited
  deriving DecidableEq

/-- Who has called `close_all_clients`: the user, with a callback or without, or `stop`. -/
inductive Caller
  | user (onDrained : Bool) | stop
  deriving DecidableEq

/-- Where the call that is under way stands. -/
inductive Call
  | idle | waiting (caller : Caller) | callback | joining | closing | collecting
  deriving DecidableEq

/-- The server with its threads, and the call that one of its users has made. -/
structure TcpServer where
  running : Bool := false
  disconnecting : Bool := false
  acceptor : Acceptor := .none
  workers : List Worker := []
  activeClients : List ClientSocket := []
  call : Call := .idle
  sockets : Descriptors := {}
  /-- The sockets whose flag is set, and those that were shut down. -/
  cancelled : List Nat := []
  shut : List Nat := []

namespace TcpServer

/-- A listener that could not be set up leaves the server as it was. -/
def start (listening : Bool) (s : TcpServer) : TcpServer :=
  if s.running || !listening then s else {s with running := true, acceptor := .looping}

/-- `stop` goes on once the accept thread has returned: see `control`. -/
def stop (s : TcpServer) : TcpServer :=
  if s.running then {s with running := false, call := .joining} else s

/-- The wait of `close_all_clients` and what comes after it. -/
def drain (caller : Caller) (s : TcpServer) : TcpServer :=
  if s.activeClients ≠ [] then {s with call := .waiting caller}
  else match caller with
    | .user true => {s with call := .callback}
    | .user false => {s with disconnecting := false, call := .idle}
    | .stop => {s with disconnecting := false, call := .collecting}

/-- Every handler is cancelled, and `shutdown` wakes it when it waits for its socket. -/
def cancelClients (s : TcpServer) : TcpServer :=
  {s with
    disconnecting := true
    cancelled := s.cancelled ++ s.activeClients.map (·.id)
    shut := s.shut ++ s.activeClients.flatMap fun c => s.sockets.refers c.fd}

def closeAllClients (caller : Caller) (s : TcpServer) : TcpServer := s.cancelClients.drain caller

/-- The caller's thread goes on. -/
def control (s : TcpServer) : TcpServer :=
  match s.call with
  | .idle => s
  | .waiting caller => s.drain caller
  | .callback => {s with disconnecting := false, call := .idle}
  | .joining =>
    if s.acceptor = .none ∨ s.acceptor = .exited then {s with acceptor := .none, call := .closing}
    else s
  | .closing => s.closeAllClients .stop
  | .collecting =>
    if s.workers.all (·.phase == .finished) then {s with workers := [], call := .idle} else s

/-- `accept` gives out a descriptor that is not in use, or it fails. A connection may
still come while `stop` closes the listener. -/
def accept (result : Option Nat) (s : TcpServer) : TcpServer :=
  if s.acceptor ≠ .accepting then s
  else match result with
    | none => {s with acceptor := .exited}
    | some fd =>
      if s.sockets.isFree fd then
        {s with acceptor := .accepted (s.sockets.next fd), sockets := s.sockets.take fd}
      else s

/-- `emplace` leaves the entry that a descriptor has. -/
def emplace (client : ClientSocket) (active : List ClientSocket) : List ClientSocket :=
  if active.any (·.fd == client.fd) then active else active ++ [client]

def track (client : ClientSocket) (s : TcpServer) : TcpServer :=
  if !s.running || s.disconnecting then
    {s with sockets := s.sockets.close client.fd, acceptor := .looping}
  else {s with activeClients := emplace client s.activeClients, acceptor := .reaping client 0}

/-- A worker that has finished is dropped; past the last one the client gets its own. -/
def reap (client : ClientSocket) (next : Nat) (s : TcpServer) : TcpServer :=
  match s.workers[next]? with
  | some w =>
    if w.phase = .finished then {s with workers := s.workers.eraseIdx next}
    else {s with acceptor := .reaping client (next + 1)}
  | none => {s with workers := s.workers ++ [⟨client, .handling⟩], acceptor := .looping}

/-- The accept thread goes on, unless it has to wait for a connection or for the lock. -/
def acceptLoop (s : TcpServer) : TcpServer :=
  match s.acceptor with
  | .looping => {s with acceptor := if s.running then .accepting else .exited}
  | .accepted client => if s.call = .callback then s else s.track client
  | .reaping client next => s.reap client next
  | .none | .accepting | .exited => s

/-- The worker at `i` goes on: its handler returns, it closes the socket and forgets the
client, it says that it has finished. -/
def work (i : Nat) (s : TcpServer) : TcpServer :=
  match s.workers[i]? with
  | some ⟨c, .handling⟩ => {s with workers := s.workers.set i ⟨c, .returned⟩}
  | some ⟨c, .returned⟩ =>
    if s.call = .callback then s
    else {s with
      sockets := s.sockets.close c.fd
      activeClients := s.activeClients.filter (·.fd != c.fd)
      workers := s.workers.set i ⟨c, .closed⟩}
  | some ⟨c, .closed⟩ => {s with workers := s.workers.set i ⟨c, .finished⟩}
  | some ⟨_, .finished⟩ | none => s

/-- A user calls, the call goes on, or one of the threads takes its next step. -/
inductive Event
  | start (listening : Bool) | stop | closeAllClients (onDrained : Bool) | control
  | accept (result : Option Nat) | acceptLoop | work (i : Nat)

/-- A call begins when the one before it has returned. -/
def calls (f : TcpServer → TcpServer) (s : TcpServer) : TcpServer :=
  if s.call = .idle then f s else s

def step (s : TcpServer) : Event → TcpServer
  | .start listening => s.calls (·.start listening)
  | .stop => s.calls (·.stop)
  | .closeAllClients onDrained => s.calls (·.closeAllClients (.user onDrained))
  | .control => s.control
  | .accept result => s.accept result
  | .acceptLoop => s.acceptLoop
  | .work i => s.work i

def machine : Machine TcpServer Event := ⟨step⟩

/-! ### Who holds a socket -/

/-- The client that has been accepted and is not tracked yet. -/
def pending : Acceptor → List ClientSocket
  | .accepted client => [client]
  | _ => []

/-- The client that is tracked and has no worker yet. -/
def handed : Acceptor → List ClientSocket
  | .reaping client _ => [client]
  | _ => []

def holding (w : Worker) : List ClientSocket :=
  if w.phase = .handling ∨ w.phase = .returned then [w.client] else []

def tracked (s : TcpServer) : List ClientSocket := handed s.acceptor ++ s.workers.flatMap holding

/-- A socket that is open belongs to the accept thread or to a worker that will close it,
and `active_clients_` has those of them that are tracked. -/
structure Owned (s : TcpServer) : Prop where
  sockets : s.sockets.Holds (pending s.acceptor ++ s.tracked)
  active : s.activeClients.Perm s.tracked

section Owned
variable {s : TcpServer}

/-- Who is to start a worker and which workers there are may change, not what they hold. -/
theorem Owned.move {s' : TcpServer} (h : s.Owned) (hsockets : s'.sockets = s.sockets)
    (hactive : s'.activeClients = s.activeClients)
    (hpending : pending s'.acceptor = pending s.acceptor)
    (htracked : s.tracked.Perm s'.tracked) : s'.Owned := by
  constructor
  · rw [hsockets, hpending]
    exact h.sockets.change (htracked.append_left _)
  · rw [hactive]
    exact h.active.trans htracked

/-- A worker among the others, before and after a change to it. -/
theorem workers_at {β : Type} (f : Worker → List β) {i : Nat} {w : Worker}
    (hw : s.workers[i]? = some w) (w' : Worker) :
    (s.workers.flatMap f).Perm (f w ++ (s.workers.eraseIdx i).flatMap f) ∧
      ((s.workers.set i w').flatMap f).Perm (f w' ++ (s.workers.eraseIdx i).flatMap f) := by
  obtain ⟨hi, rfl⟩ := List.getElem?_eq_some_iff.mp hw
  constructor
  · exact (List.getElem_cons_eraseIdx_perm hi).symm.flatMap_right f
  · exact (List.set_perm_cons_eraseIdx hi w').flatMap_right f

theorem drain_owned (caller : Caller) (h : s.Owned) : (s.drain caller).Owned := by
  unfold drain
  split
  · exact ⟨h.sockets, h.active⟩
  · split <;> exact ⟨h.sockets, h.active⟩

theorem closeAllClients_owned (caller : Caller) (h : s.Owned) : (s.closeAllClients caller).Owned :=
  drain_owned caller ⟨h.sockets, h.active⟩

theorem control_owned (h : s.Owned) : s.control.Owned := by
  rw [control]
  split
  · exact h
  · exact drain_owned _ h
  · exact ⟨h.sockets, h.active⟩
  · split
    · rename_i hexit
      have hout : pending s.acceptor = [] ∧ handed s.acceptor = [] := by
        rcases hexit with hexit | hexit <;> simp [hexit, pending, handed]
      refine h.move rfl rfl hout.1.symm ?_
      rw [tracked, hout.2]
      exact List.Perm.refl _
    · exact h
  · exact closeAllClients_owned .stop h
  · split
    · rename_i hall
      have hnone : s.workers.flatMap holding = [] := by
        apply List.flatMap_eq_nil_iff.mpr
        intro w hw
        have hfin := eq_of_beq (List.all_eq_true.mp hall w hw)
        simp [holding, hfin]
      refine h.move rfl rfl rfl ?_
      rw [tracked, hnone]
      exact List.Perm.refl _
    · exact h

theorem accept_owned (result : Option Nat) (h : s.Owned) : (s.accept result).Owned := by
  unfold accept
  split
  · exact h
  rename_i hphase
  rw [not_not] at hphase
  have hsockets := h.sockets
  have hactive := h.active
  rw [tracked, hphase] at hsockets hactive
  split
  · exact ⟨hsockets, hactive⟩
  · split
    · rename_i hfree
      exact ⟨hsockets.take hfree, hactive⟩
    · exact h

/-- A client that is not tracked has a descriptor that no entry has. -/
theorem emplace_new {client : ClientSocket} (h : s.sockets.Holds (client :: s.activeClients)) :
    emplace client s.activeClients = s.activeClients ++ [client] := by
  rw [emplace, if_neg]
  intro hany
  obtain ⟨c, hc, heq⟩ := List.any_eq_true.mp hany
  exact h.others c hc (eq_of_beq heq)

theorem track_owned {client : ClientSocket} (hat : s.acceptor = .accepted client) (h : s.Owned) :
    (s.track client).Owned := by
  have hsockets := h.sockets
  have hactive := h.active
  rw [tracked, hat] at hsockets hactive
  rw [track]
  split
  · exact ⟨Descriptors.Holds.close hsockets, hactive⟩
  · refine ⟨hsockets, ?_⟩
    show (emplace client s.activeClients).Perm _
    rw [emplace_new (hsockets.change (hactive.symm.cons client))]
    exact (List.perm_append_singleton client s.activeClients).trans (hactive.cons client)

theorem reap_owned {client : ClientSocket} {next : Nat} (hat : s.acceptor = .reaping client next)
    (h : s.Owned) : (s.reap client next).Owned := by
  rw [reap]
  split
  · rename_i w hw
    split
    · rename_i hfin
      have hsame := (workers_at holding hw w).1
      rw [holding, hfin] at hsame
      exact h.move rfl rfl rfl (hsame.append_left (handed s.acceptor))
    · refine h.move rfl rfl ?_ ?_
      · rw [hat]
        rfl
      · rw [tracked, hat]
        exact List.Perm.refl _
  · refine h.move rfl rfl ?_ ?_
    · rw [hat]
      rfl
    · show (handed s.acceptor ++ _).Perm ((s.workers ++ [(⟨client, .handling⟩ : Worker)]).flatMap _)
      rw [hat, List.flatMap_append]
      exact List.perm_append_comm

theorem acceptLoop_owned (h : s.Owned) : s.acceptLoop.Owned := by
  rw [acceptLoop]
  split
  · rename_i hat
    refine h.move rfl rfl ?_ ?_
    · rw [hat]
      cases s.running <;> rfl
    · rw [tracked, hat]
      cases s.running <;> exact List.Perm.refl _
  · rename_i client hat
    split
    · exact h
    · exact track_owned hat h
  · rename_i client next hat
    exact reap_owned hat h
  · exact h
  · exact h
  · exact h

/-- The socket of a worker whose handler has returned is closed, and its client forgotten. -/
theorem release_owned {i : Nat} {c : ClientSocket} (hw : s.workers[i]? = some ⟨c, .returned⟩)
    (h : s.Owned) :
    ({s with
      sockets := s.sockets.close c.fd
      activeClients := s.activeClients.filter (·.fd != c.fd)
      workers := s.workers.set i ⟨c, .closed⟩} : TcpServer).Owned := by
  obtain ⟨hbefore, hafter⟩ := workers_at holding hw ⟨c, .closed⟩
  generalize (s.workers.eraseIdx i).flatMap holding = others at hbefore hafter
  have htracked : s.tracked.Perm (c :: (handed s.acceptor ++ others)) :=
    (hbefore.append_left _).trans List.perm_middle
  have hheld : s.sockets.Holds (c :: (pending s.acceptor ++ (handed s.acceptor ++ others))) :=
    h.sockets.change ((htracked.append_left _).trans List.perm_middle)
  have hleft := hafter.symm.append_left (handed s.acceptor)
  constructor
  · exact hheld.close.change (hleft.append_left _)
  · have hactive := (h.active.trans htracked).filter (·.fd != c.fd)
    rw [hheld.filter_others (List.subset_append_right _ _)] at hactive
    exact hactive.trans hleft

theorem work_owned (i : Nat) (h : s.Owned) : (s.work i).Owned := by
  rw [work]
  split
  · rename_i c hw
    obtain ⟨hbefore, hafter⟩ := workers_at holding hw ⟨c, .returned⟩
    exact h.move rfl rfl rfl ((hbefore.trans hafter.symm).append_left _)
  · rename_i c hw
    split
    · exact h
    · exact release_owned hw h
  · rename_i c hw
    obtain ⟨hbefore, hafter⟩ := workers_at holding hw ⟨c, .finished⟩
    exact h.move rfl rfl rfl ((hbefore.trans hafter.symm).append_left _)
  · exact h
  · exact h

end Owned

end TcpServer

end AirPlay.Net
