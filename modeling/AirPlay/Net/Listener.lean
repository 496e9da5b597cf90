import AirPlay.Net.Drain

/-! Connections that the TCP server accepts.

The accept thread leaves its loop when `accept` fails, whatever the reason: when the server
has been stopped there is nothing more to accept, but a connection that was aborted, or a
shortage of descriptors, ends it as well. Until then every connection gets a worker, unless
it comes while the clients are disconnected. -/
namespace AirPlay.Net

namespace TcpServer

/-- What became of the connections so far. -/
structure Fates where
  accepted : List ClientSocket := []
  given : List ClientSocket := []
  /-- Closed before they were tracked, with `running_` and `disconnecting_` as they were. -/
  refused : List (ClientSocket × Bool × Bool) := []

def Fates.next (s : TcpServer) (g : Fates) : Event → Fates
  | .accept (some fd) =>
    if s.acceptor = .accepting ∧ s.sockets.isFree fd then
      {g with accepted := g.accepted ++ [s.sockets.next fd]}
    else g
  | .acceptLoop =>
    match s.acceptor with
    | .accepted client =>
      if s.call = .callback then g
      else if !s.running || s.disconnecting then
        {g with refused := g.refused ++ [(client, s.running, s.disconnecting)]}
      else g
    | .reaping client next =>
      if s.workers[next]? = none then {g with given := g.given ++ [client]} else g
    | _ => g
  | _ => g

/-- The server, with the fates of its connections. -/
def serving : Machine (TcpServer × Fates) Event := machine.watched fun s e g => g.next s e

/-- The connection that the accept thread is busy with. -/
def inHand (a : Acceptor) : List ClientSocket := pending a ++ handed a

/-- The connection is with the accept thread or was given to a worker, or it was refused. -/
def Met (s : TcpServer) (g : Fates) (client : ClientSocket) : Prop :=
  client ∈ inHand s.acceptor ∨ client ∈ g.given ∨
    ∃ running disconnecting, (client, running, disconnecting) ∈ g.refused ∧
      (running = false ∨ disconnecting = true)

/-- The loop goes on while the server runs, and every connection comes to a handler unless
the server is draining. -/
structure Serves (w : TcpServer × Fates) : Prop where
  loops : w.1.running = true → w.1.acceptor ≠ .exited
  met : ∀ client ∈ w.2.accepted, w.1.Met w.2 client
  tracked : ∀ client ∈ w.1.tracked, client ∈ w.1.activeClients
  handles : ∀ client ∈ inHand w.1.acceptor, w.1.running = true → w.1.disconnecting = false →
    w.1.call ≠ .callback →
      ∃ n, ⟨client, .handling⟩ ∈ (machine.run w.1 (List.replicate n .acceptLoop)).workers

/-- No `accept` fails while the server runs. -/
def Accepts (s : TcpServer) : Event → Prop
  | .accept none => s.acceptor = .accepting → s.running = false
  | _ => True

section Handing
variable {s : TcpServer} {client : ClientSocket}

theorem run_replicate (n : Nat) (s : TcpServer) :
    machine.run s (List.replicate (n + 1) .acceptLoop) =
      machine.run s.acceptLoop (List.replicate n .acceptLoop) := rfl

/-- Past the workers that there are, a client gets its own. -/
theorem reaping_ends {next : Nat} (hat : s.acceptor = .reaping client next) :
    ∃ n, ⟨client, .handling⟩ ∈ (machine.run s (List.replicate n .acceptLoop)).workers := by
  induction hm : s.workers.length - next using Nat.strong_induction_on generalizing s next with
  | _ m ih =>
    have hloop : s.acceptLoop = s.reap client next := by rw [acceptLoop, hat]
    cases hw : s.workers[next]? with
    | none =>
      refine ⟨1, ?_⟩
      rw [run_replicate, hloop, reap, hw]
      exact List.mem_append_right _ (List.mem_singleton.mpr rfl)
    | some w =>
      obtain ⟨hnext, -⟩ := List.getElem?_eq_some_iff.mp hw
      by_cases hfin : w.phase = .finished
      · have hstep : s.reap client next = {s with workers := s.workers.eraseIdx next} := by
          rw [reap, hw]
          exact if_pos hfin
        have hlength := List.length_eraseIdx_of_lt hnext
        obtain ⟨n, hn⟩ := @ih ((s.workers.eraseIdx next).length - next) (by omega)
          {s with workers := s.workers.eraseIdx next} next hat rfl
        exact ⟨n + 1, by rw [run_replicate, hloop, hstep]; exact hn⟩
      · have hstep : s.reap client next = {s with acceptor := .reaping client (next + 1)} := by
          rw [reap, hw]
          exact if_neg hfin
        obtain ⟨n, hn⟩ := @ih (s.workers.length - (next + 1)) (by omega)
          {s with acceptor := .reaping client (next + 1)} (next + 1) rfl rfl
        exact ⟨n + 1, by rw [run_replicate, hloop, hstep]; exact hn⟩

/-- The accept thread alone brings a connection to a worker. -/
theorem handing_ends (hat : client ∈ inHand s.acceptor) (hrun : s.running = true)
    (hdis : s.disconnecting = false) (hfree : s.call ≠ .callback) :
    ∃ n, ⟨client, .handling⟩ ∈ (machine.run s (List.replicate n .acceptLoop)).workers := by
  cases hacceptor : s.acceptor with
  | accepted c =>
    rw [hacceptor] at hat
    obtain rfl := List.mem_singleton.mp hat
    have hstep : s.acceptLoop = {s with
        activeClients := emplace client s.activeClients, acceptor := .reaping client 0} := by
      rw [acceptLoop, hacceptor]
      simp only [if_neg hfree, track, hrun, hdis]
      rfl
    obtain ⟨n, hn⟩ := @reaping_ends {s with
        activeClients := emplace client s.activeClients, acceptor := .reaping client 0} client 0 rfl
    exact ⟨n + 1, by rw [run_replicate, hstep]; exact hn⟩
  | reaping c next =>
    rw [hacceptor] at hat
    obtain rfl := List.mem_singleton.mp hat
    exact reaping_ends hacceptor
  | none | looping | accepting | exited =>
    rw [hacceptor] at hat
    exact absurd hat List.not_mem_nil

end Handing

/-! ### A step -/

section Step
variable {s : TcpServer} {g : Fates}

/-- The accept thread is where it was, and so is `running_`. -/
def Aside (s s' : TcpServer) : Prop := s'.acceptor = s.acceptor ∧ s'.running = s.running

theorem drain_aside (caller : Caller) (s : TcpServer) : s.Aside (s.drain caller) := by
  unfold drain
  split
  · exact ⟨rfl, rfl⟩
  · split <;> exact ⟨rfl, rfl⟩

theorem work_aside (i : Nat) (s : TcpServer) : s.Aside (s.work i) := by
  rw [work]
  split
  · exact ⟨rfl, rfl⟩
  · split <;> exact ⟨rfl, rfl⟩
  · exact ⟨rfl, rfl⟩
  · exact ⟨rfl, rfl⟩
  · exact ⟨rfl, rfl⟩

/-- The calls and the workers take no connection from the accept thread, and do not end its
loop. -/
theorem step_aside (h : s.Phased) (e : Event) (haccept : ∀ result, e ≠ .accept result)
    (hloop : e ≠ .acceptLoop) :
    inHand (s.step e).acceptor = inHand s.acceptor ∧
      ((s.step e).running = true → (s.step e).acceptor = .exited →
        s.running = true ∧ s.acceptor = .exited) := by
  have hsame : ∀ {s' : TcpServer}, s.Aside s' → inHand s'.acceptor = inHand s.acceptor ∧
      (s'.running = true → s'.acceptor = .exited → s.running = true ∧ s.acceptor = .exited) := by
    rintro s' ⟨hacceptor, hrun⟩
    rw [hacceptor, hrun]
    exact ⟨rfl, fun hr ha => ⟨hr, ha⟩⟩
  cases e with
  | accept result => exact absurd rfl (haccept result)
  | acceptLoop => exact absurd rfl hloop
  | work i => exact hsame (work_aside i s)
  | start listening =>
    rw [step, calls]
    split
    · rename_i hidle
      rw [start]
      split
      · exact hsame ⟨rfl, rfl⟩
      · rename_i hgo
        have hrun : s.running = false := by
          cases hrun : s.running
          · rfl
          · simp [hrun] at hgo
        rw [h.joined hrun (by simp [hidle])]
        exact ⟨rfl, fun _ hat => Acceptor.noConfusion hat⟩
    · exact hsame ⟨rfl, rfl⟩
  | stop =>
    rw [step, calls]
    split
    · rw [stop]
      split
      · exact ⟨rfl, fun hr => absurd hr Bool.false_ne_true⟩
      · exact hsame ⟨rfl, rfl⟩
    · exact hsame ⟨rfl, rfl⟩
  | closeAllClients onDrained =>
    rw [step, calls]
    split
    · exact hsame (drain_aside (.user onDrained) s.cancelClients)
    · exact hsame ⟨rfl, rfl⟩
  | control =>
    rw [step, control]
    split
    · exact hsame ⟨rfl, rfl⟩
    · exact hsame (drain_aside _ s)
    · exact hsame ⟨rfl, rfl⟩
    · split
      · rename_i hout
        refine ⟨?_, fun _ hat => Acceptor.noConfusion hat⟩
        rcases hout with hout | hout
        · rw [hout]
        · rw [hout]
          rfl
      · exact hsame ⟨rfl, rfl⟩
    · exact hsame (drain_aside .stop s.cancelClients)
    · split <;> exact hsame ⟨rfl, rfl⟩

theorem met_of {s' : TcpServer} {g' : Fates} {client : ClientSocket} (h : s.Met g client)
    (hhand : client ∈ inHand s.acceptor → s'.Met g' client) (hgiven : g.given ⊆ g'.given)
    (hrefused : g.refused ⊆ g'.refused) : s'.Met g' client := by
  rcases h with hin | hgone | ⟨running, disconnecting, hgone, hwhy⟩
  · exact hhand hin
  · exact .inr (.inl (hgiven hgone))
  · exact .inr (.inr ⟨running, disconnecting, hrefused hgone, hwhy⟩)

/-- A connection that stays with the accept thread is still met. -/
theorem Met.held {s' : TcpServer} {client : ClientSocket} (h : s.Met g client)
    (hhand : inHand s'.acceptor = inHand s.acceptor) : s'.Met g client :=
  met_of h (fun hin => .inl (hhand ▸ hin)) (List.Subset.refl _) (List.Subset.refl _)

theorem met_accept (result : Option Nat) (hmet : ∀ client ∈ g.accepted, s.Met g client) :
    ∀ client ∈ (g.next s (.accept result)).accepted,
      (s.step (.accept result)).Met (g.next s (.accept result)) client := by
  by_cases hat : s.acceptor = .accepting
  · have hempty : ∀ client, client ∉ inHand s.acceptor := by
      intro client hin
      rw [hat] at hin
      exact absurd hin List.not_mem_nil
    cases result with
    | none =>
      intro client hc
      exact met_of (hmet client hc) (fun hin => absurd hin (hempty client)) (List.Subset.refl _)
        (List.Subset.refl _)
    | some fd =>
      rw [step, accept, if_neg (not_not_intro hat), Fates.next]
      by_cases hfree : s.sockets.isFree fd
      · simp only [hat, hfree, and_self, if_true]
        intro client hc
        rcases List.mem_append.mp hc with hc | hc
        · exact met_of (hmet client hc) (fun hin => absurd hin (hempty client))
            (List.Subset.refl _) (List.Subset.refl _)
        · exact .inl hc
      · simp only [hfree, and_false, if_false, Bool.false_eq_true]
        exact hmet
  · have hstep : s.step (.accept result) = s := by
      show s.accept result = s
      unfold accept
      exact if_pos hat
    have hfates : g.next s (.accept result) = g := by
      cases result with
      | none => rfl
      | some fd => exact if_neg fun h => hat h.1
    rw [hstep, hfates]
    exact hmet

theorem met_track {c : ClientSocket} (hat : s.acceptor = .accepted c)
    (hmet : ∀ client ∈ g.accepted, s.Met g client) :
    ∀ client ∈ (if !s.running || s.disconnecting then
      {g with refused := g.refused ++ [(c, s.running, s.disconnecting)]} else g).accepted,
      (s.track c).Met (if !s.running || s.disconnecting then
        {g with refused := g.refused ++ [(c, s.running, s.disconnecting)]} else g) client := by
  rw [track]
  split
  · rename_i hrefuse
    rw [Bool.or_eq_true, Bool.not_eq_true'] at hrefuse
    intro client hc
    refine met_of (hmet client hc) (fun hin => ?_) (List.Subset.refl _)
      (List.subset_append_left _ _)
    rw [hat] at hin
    rw [List.mem_singleton.mp hin]
    exact .inr (.inr ⟨_, _, List.mem_append_right _ (List.mem_singleton.mpr rfl), hrefuse⟩)
  · intro client hc
    exact (hmet client hc).held (by rw [hat]; rfl)

theorem met_reap {c : ClientSocket} {next : Nat} (hat : s.acceptor = .reaping c next)
    (hmet : ∀ client ∈ g.accepted, s.Met g client) :
    ∀ client ∈ (if s.workers[next]? = none then {g with given := g.given ++ [c]}
      else g).accepted,
      (s.reap c next).Met (if s.workers[next]? = none then {g with given := g.given ++ [c]}
        else g) client := by
  rw [reap]
  cases hw : s.workers[next]? with
  | some w =>
    rw [if_neg (Option.some_ne_none w)]
    intro client hc
    refine (hmet client hc).held ?_
    simp only
    split
    · rfl
    · rw [hat]
      rfl
  | none =>
    rw [if_pos rfl]
    intro client hc
    refine met_of (hmet client hc) (fun hin => ?_) (List.subset_append_left _ _)
      (List.Subset.refl _)
    rw [hat] at hin
    exact .inr (.inl (List.mem_append_right _ hin))

theorem met_acceptLoop (hmet : ∀ client ∈ g.accepted, s.Met g client) :
    ∀ client ∈ (g.next s .acceptLoop).accepted,
      (s.step .acceptLoop).Met (g.next s .acceptLoop) client := by
  rw [step, acceptLoop, Fates.next]
  cases hat : s.acceptor with
  | looping =>
    intro client hc
    refine (hmet client hc).held ?_
    rw [hat]
    simp only
    split <;> rfl
  | accepted c =>
    simp only
    split
    · exact hmet
    · exact met_track hat hmet
  | reaping c next => exact met_reap hat hmet
  | none | accepting | exited =>
    simp only
    exact hmet

theorem met_step (h : s.Phased) (e : Event) (hmet : ∀ client ∈ g.accepted, s.Met g client) :
    ∀ client ∈ (g.next s e).accepted, (s.step e).Met (g.next s e) client := by
  by_cases haccept : ∃ result, e = .accept result
  · obtain ⟨result, rfl⟩ := haccept
    exact met_accept result hmet
  by_cases hloop : e = .acceptLoop
  · subst hloop
    exact met_acceptLoop hmet
  · have hhand := (step_aside h e (fun result hr => haccept ⟨result, hr⟩) hloop).1
    have hfates : g.next s e = g := by
      cases e with
      | accept result => exact absurd ⟨result, rfl⟩ haccept
      | acceptLoop => exact absurd rfl hloop
      | _ => rfl
    rw [hfates]
    exact fun client hc => (hmet client hc).held hhand

theorem loops_accept_iff (hloops : s.running = true → s.acceptor ≠ .exited) (result : Option Nat) :
    ((s.accept result).running = true → (s.accept result).acceptor ≠ .exited) ↔
      s.Accepts (.accept result) := by
  unfold accept
  split
  · rename_i hat
    refine iff_of_true hloops ?_
    cases result with
    | none => exact fun hacc => absurd hacc hat
    | some fd => trivial
  · rename_i hat
    rw [not_not] at hat
    cases result with
    | none =>
      constructor
      · intro h _
        exact Bool.eq_false_iff.mpr fun hrun => h hrun rfl
      · intro h hrun
        exact absurd (hrun.symm.trans (h hat)) (by decide)
    | some fd =>
      refine iff_of_true (fun _ => ?_) trivial
      simp only
      split
      · exact fun h => Acceptor.noConfusion h
      · rw [hat]
        exact fun h => Acceptor.noConfusion h

theorem loops_acceptLoop (hloops : s.running = true → s.acceptor ≠ .exited) :
    s.acceptLoop.running = true → s.acceptLoop.acceptor ≠ .exited := by
  rw [acceptLoop]
  split
  · intro hrun
    have hrun' : s.running = true := hrun
    simp only [hrun', if_true]
    exact fun h => Acceptor.noConfusion h
  · split
    · exact hloops
    · rw [track]
      split <;> exact fun _ h => Acceptor.noConfusion h
  · rename_i client next hat
    rw [reap]
    split
    · split
      · exact fun _ h => Acceptor.noConfusion (hat.symm.trans h)
      · exact fun _ h => Acceptor.noConfusion h
    · exact fun _ h => Acceptor.noConfusion h
  · exact hloops
  · exact hloops
  · exact hloops

/-- The loop is left when the server has been stopped, and when `accept` fails. -/
theorem loops_step_iff (h : s.Phased) (hloops : s.running = true → s.acceptor ≠ .exited)
    (e : Event) :
    ((s.step e).running = true → (s.step e).acceptor ≠ .exited) ↔ s.Accepts e := by
  by_cases haccept : ∃ result, e = .accept result
  · obtain ⟨result, rfl⟩ := haccept
    exact loops_accept_iff hloops result
  have hmeets : s.Accepts e := by
    cases e with
    | accept result => exact absurd ⟨result, rfl⟩ haccept
    | _ => trivial
  by_cases hloop : e = .acceptLoop
  · subst hloop
    exact iff_of_true (loops_acceptLoop hloops) hmeets
  · have hexit := (step_aside h e (fun result hr => haccept ⟨result, hr⟩) hloop).2
    refine iff_of_true (fun hrun hat => ?_) hmeets
    exact hloops (hexit hrun hat).1 (hexit hrun hat).2

end Step

/-! ### Every run -/

/-- What every run keeps, whether the loop goes on or not. -/
structure Sound (w : TcpServer × Fates) : Prop where
  coherent : w.1.Coherent
  met : ∀ client ∈ w.2.accepted, w.1.Met w.2 client

theorem Sound.step (w : TcpServer × Fates) (e : Event) (h : Sound w) : Sound (serving.step w e) :=
  ⟨step_coherent w.1 e h.coherent, met_step h.coherent.phased e h.met⟩

/-- Where the loop goes on, the server serves. -/
theorem serves_iff {w : TcpServer × Fates} (h : Sound w) :
    Serves w ↔ (w.1.running = true → w.1.acceptor ≠ .exited) :=
  ⟨fun hs => hs.loops, fun hloops => ⟨hloops, h.met,
    fun _ hc => h.coherent.owned.active.mem_iff.mpr hc,
    fun _ hin hrun hdis hfree => handing_ends hin hrun hdis hfree⟩⟩

/-- The server serves throughout a run exactly when no `accept` fails while it runs. -/
theorem serves_run_iff (es : List Event) :
    serving.Always Serves ({}, {}) es ↔ machine.Meets Accepts {} es := by
  have hsound : Sound (({}, {}) : TcpServer × Fates) :=
    ⟨run_coherent [], fun client hc => absurd hc List.not_mem_nil⟩
  rw [← Machine.watched_meets (w := (({}, {}) : TcpServer × Fates))]
  refine Machine.always_iff_meets (H := fun _ _ => True) (fun w e h _ => h.step w e) ?_ hsound
    ((serves_iff hsound).mpr fun hrun => absurd hrun Bool.false_ne_true) (Machine.meets_true es)
  intro w e h _ hs
  rw [serves_iff (h.step w e)]
  exact loops_step_iff h.coherent.phased hs.loops e

/-- A connection is aborted before it is accepted; the next one is left waiting. -/
def aborted : List Event := [.start true, .acceptLoop, .accept none, .acceptLoop, .accept (some 7)]

theorem aborted_ends :
    ((machine.run {} aborted).running = true ∧ (machine.run {} aborted).workers = []) ∧
      ¬ serving.Always Serves ({}, {}) aborted := by
  refine ⟨by decide, fun h => ?_⟩
  exact h.last.loops rfl rfl

end TcpServer

end AirPlay.Net
