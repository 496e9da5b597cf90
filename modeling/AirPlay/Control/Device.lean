import AirPlay.Library.Registry
import AirPlay.Control.Server

/-! The active device.

The slot names the peer that mirrors or plays; a first SETUP from any other peer is
refused. The slot should be empty once that peer has gone (`attended_iff` says when
it is), and while it admits a peer no other peer should hold streams
(`exclusive_of_admits`). -/
namespace AirPlay.Control
open Rtsp Registry

/-! ### The slot and the peers that are open -/

/-- The recorded peer has an open connection. -/
def Attended (s : Server) : Prop :=
  ∀ d, s.device = some d → ∃ fd c, s.sessions fd = some c ∧ c.remoteIp = d.peerIp

/-- Who is turned away with 503 is turned away for another peer that is still there. -/
def TurnsAway (s : Server) : Prop :=
  ∀ c req parsed id, (setupAirplay2Path s.device c req parsed id).2.map Response.statusCode =
      some 503 →
    ∃ d fd c', s.device = some d ∧ d.peerIp ≠ c.remoteIp ∧ s.sessions fd = some c' ∧
      c'.remoteIp = d.peerIp

/-- The last connection of the recorded peer closes with the streams the slot records. -/
def Departs (s : Server) (e : Event) : Prop :=
  match e with
  | .close fd => ∀ session c d, s.endedSession fd = some session → s.sessions fd = some c →
    s.device = some d → d.peerIp = c.remoteIp →
    (∀ other c', other ≠ fd → s.sessions other = some c' → c'.remoteIp ≠ c.remoteIp) →
    session ≠ [] ∧ d.sessionId = session
  | _ => True

/-- A handler publishes its own connection's peer. -/
def Owned (s : Server) : Prop :=
  ∀ fd c r dev, s.sessions fd = some c → c.handler = .publishing r dev → dev.peerIp = c.remoteIp

theorem refused_of_503 {slot : Option DeviceInfo} {c : ClientSession} {req : Request}
    {parsed : Option Airplay2SetupRequest} {id : Bytes}
    (h : (setupAirplay2Path slot c req parsed id).2.map Response.statusCode = some 503) :
    refused c slot = true := by
  by_contra hpass
  cases parsed with
  | none => exact absurd h (by simp [setupAirplay2Path])
  | some parsed =>
    rw [setupAirplay2Path] at h
    simp only [if_neg hpass] at h
    split at h
    · split at h
      · exact absurd h (by simp)
      · exact absurd h (by simp)
    · exact absurd h (by simp)

theorem refused_slot {slot : Option DeviceInfo} {c : ClientSession} (h : refused c slot = true) :
    c.streams = none ∧ ∃ d, slot = some d ∧ d.peerIp ≠ [] ∧ d.peerIp ≠ c.remoteIp := by
  rw [refused, Bool.and_eq_true, Option.isNone_iff_eq_none] at h
  obtain ⟨hnone, hslot⟩ := h
  obtain ⟨d, hd, hpeer⟩ := Option.any_eq_true _ _ |>.mp hslot
  exact ⟨hnone, d, hd, of_decide_eq_true hpeer⟩

theorem Attended.turnsAway {s : Server} (h : Attended s) : TurnsAway s := by
  intro c req parsed id h503
  obtain ⟨-, d, hd, -, hpeer⟩ := refused_slot (refused_of_503 h503)
  obtain ⟨fd, c', hc', hip⟩ := h d hd
  exact ⟨d, fd, c', hd, hpeer, hc', hip⟩

namespace Owned
variable {s s' : Server} {e : Event}

/-- A change of one connection keeps it, if what that connection publishes is its own. -/
theorem put (h : Owned s) {fd : Int} {c : ClientSession}
    (hs : s'.sessions = Function.update s.sessions fd (some c))
    (hpub : ∀ r dev, c.handler = .publishing r dev → dev.peerIp = c.remoteIp) : Owned s' := by
  intro fd' d r dev hd hh
  rw [hs, update_eq_some] at hd
  rcases hd with ⟨-, hd⟩ | ⟨-, hd⟩
  · have hc := Option.some.inj hd
    rw [← hc] at hh ⊢
    exact hpub r dev hh
  · exact h fd' d r dev hd hh

theorem works (h : Owned s) (hw : Works s e s') : Owned s' := by
  cases hw with
  | stays => exact h
  | admits he hd hc hread hnone hpass hh hpub =>
    exact h.put rfl fun r dev he => absurd he (hpub r dev)
  | advances streams hd hc hlive hsame hh hpub => exact h.put rfl hpub
  | resets | publishes | clears => exact h.put rfl fun _ _ he => Handler.noConfusion he

theorem step (h : Owned s) (e : Event) : Owned (s.step e) := by
  by_cases he : e.Handled
  · exact h.works (Server.step_works s e he)
  cases Server.step_moves s e he with
  | rests hs =>
    intro fd d r dev hd
    rw [hs] at hd
    exact h fd d r dev hd
  | opens fd remoteIp hs => exact h.put hs fun _ _ he => Handler.noConfusion he
  | reads hc hread hip hstreams hs =>
    refine h.put hs fun r dev he => ?_
    rw [hread] at he
    exact Handler.noConfusion he
  | ends session hc hs => exact h.put hs fun _ _ he => Handler.noConfusion he
  | leaves fd hs =>
    intro fd' d r dev hd hh
    rw [hs, update_eq_some] at hd
    rcases hd with ⟨-, hnew⟩ | ⟨-, hold⟩
    · exact absurd hnew (Option.some_ne_none d).symm
    · exact h fd' d r dev hold hh

end Owned

namespace Attended
variable {s s' : Server} {e : Event}

/-- One connection of the recorded peers may change, and publish its own peer. -/
theorem put (h : Attended s) {fd : Int} {c c' : ClientSession} (hc : s.sessions fd = some c)
    (hs : s'.sessions = Function.update s.sessions fd (some c')) (hip : c'.remoteIp = c.remoteIp)
    (hdev : ∀ d, s'.device = some d → s.device = some d ∨ d.peerIp = c.remoteIp) :
    Attended s' := by
  have hkeeps : ∀ fd' d, s.sessions fd' = some d →
      ∃ fd'' d', s'.sessions fd'' = some d' ∧ d'.remoteIp = d.remoteIp := by
    intro fd' d hd
    by_cases hne : fd' = fd
    · subst hne
      refine ⟨fd', c', by rw [hs, Function.update_self], ?_⟩
      rw [hip, Option.some.inj (hc.symm.trans hd)]
    · exact ⟨fd', d, by rw [hs, Function.update_of_ne hne, hd], rfl⟩
  intro d hd
  rcases hdev d hd with hold | hown
  · obtain ⟨fd', e, he, hpeer⟩ := h d hold
    obtain ⟨fd'', e', he', hsame⟩ := hkeeps fd' e he
    exact ⟨fd'', e', he', hsame.trans hpeer⟩
  · obtain ⟨fd'', e', he', hsame⟩ := hkeeps fd c hc
    exact ⟨fd'', e', he', hsame.trans hown.symm⟩

theorem works (h : Attended s) (ho : Owned s) (hw : Works s e s') : Attended s' := by
  cases hw with
  | stays => exact h
  | admits he hd hc | advances streams hd hc | resets r hc =>
    exact h.put hc rfl rfl fun d hd => .inl hd
  | publishes r dev hc hh =>
    refine h.put hc rfl rfl fun d hd => .inr ?_
    rw [← Option.some.inj hd]
    exact ho _ _ r dev hc hh
  | clears r hc => exact h.put hc rfl rfl fun d hd => absurd hd (Option.some_ne_none d).symm

theorem accepted (h : Attended s) (fd : Int) (remoteIp : Bytes) :
    Attended (s.step (.accepted fd remoteIp)) := by
  rw [Server.step]
  split
  · exact h
  · rename_i hfree
    intro d hd
    obtain ⟨fd', c, hc, hip⟩ := h d hd
    have hne : fd' ≠ fd := fun he => hfree (by rw [← he, hc, Option.isSome_some])
    exact ⟨fd', c, (Function.update_of_ne hne ..).trans hc, hip⟩

end Attended

/-- The slot after a close. -/
theorem close_device {s : Server} {fd : Int} {session : Bytes} {d : DeviceInfo} :
    (s.close fd session).device = some d ↔
      s.device = some d ∧ ¬ (session ≠ [] ∧ d.sessionId = session) := by
  rw [Server.close]
  by_cases hs : session = []
  · simp [hs]
  · simp [hs, clearSessionIfActive, Option.filter_eq_some_iff]

/-- The slot is attended after a close exactly if the last connection of the recorded
peer does not leave it behind. -/
theorem attended_close {s : Server} (h : Attended s) {fd : Int} {session : Bytes}
    (hend : s.endedSession fd = some session) :
    Attended (s.close fd session) ↔ Departs s (.close fd) := by
  constructor
  · intro hnext session' c d hend' hc hd hpeer hlast
    rw [hend] at hend'
    rw [← Option.some.inj hend']
    by_contra hkept
    obtain ⟨fd', c', hc', hip⟩ := hnext d (close_device.mpr ⟨hd, hkept⟩)
    rcases update_eq_some.mp hc' with ⟨-, hnone⟩ | ⟨hne, hold⟩
    · exact Option.some_ne_none _ hnone.symm
    · exact hlast fd' c' hne hold (hip.trans hpeer)
  · intro hdep d hnext
    obtain ⟨hd, hkept⟩ := close_device.mp hnext
    obtain ⟨fd', c, hc, hip⟩ := h d hd
    by_cases hleft : ∃ other c', other ≠ fd ∧ s.sessions other = some c' ∧ c'.remoteIp = d.peerIp
    · obtain ⟨other, c', hne, hc', hip'⟩ := hleft
      exact ⟨other, c', (Function.update_of_ne hne ..).trans hc', hip'⟩
    · -- then it is the closing connection that attends the slot
      have hfd : fd' = fd := by
        by_contra hne
        exact hleft ⟨fd', c, hne, hc, hip⟩
      subst hfd
      refine absurd (hdep session c d hend hc hd hip.symm fun other c' hne hc' hsame => ?_) hkept
      exact hleft ⟨other, c', hne, hc', hsame.trans hip⟩

theorem attended_step (s : Server) (e : Event) (ho : Owned s) (h : Attended s) :
    Attended (s.step e) ↔ Departs s e := by
  by_cases he : e.Handled
  · refine iff_of_true (h.works ho (Server.step_works s e he)) ?_
    cases e with
    | setup | play | teardown | resume => trivial
    | accepted | reverse | hangUp | close => exact he.elim
  cases e with
  | setup | play | teardown | resume => exact absurd trivial he
  | accepted fd remoteIp => exact iff_of_true (h.accepted fd remoteIp) trivial
  | reverse fd req =>
    refine iff_of_true ?_ trivial
    rw [Server.step]
    cases hr : s.reading fd with
    | none => exact h
    | some c =>
      exact h.put (Server.reading_eq_some.mp hr).1 rfl (handleReverse_frame c req s.reverse).2.1
        fun d hd => .inl hd
  | hangUp fd =>
    refine iff_of_true ?_ trivial
    rw [Server.step]
    cases hr : s.reading fd with
    | none => exact h
    | some c => exact h.put (Server.reading_eq_some.mp hr).1 rfl rfl fun d hd => .inl hd
  | close fd =>
    rw [Server.step]
    cases hend : s.endedSession fd with
    | none =>
      refine iff_of_true h fun session c d hend' => ?_
      exact absurd (hend.symm.trans hend') (Option.some_ne_none session).symm
    | some session => exact attended_close h hend

theorem owned_empty : Owned {} := fun _ c _ _ hc => absurd hc (Option.some_ne_none c).symm

/-- The slot is attended throughout, and nobody is turned away for a peer that has
gone, exactly if the last connection of the recorded peer always closes with the
streams the slot records. -/
theorem attended_iff (es : List Event) :
    Server.machine.Always (fun s => Attended s ∧ TurnsAway s) {} es ↔
      Server.machine.Meets Departs {} es := by
  have hboth : ∀ s, Attended s ∧ TurnsAway s ↔ Attended s := fun s =>
    and_iff_left_of_imp Attended.turnsAway
  refine Machine.always_iff_meets (H := fun _ _ => True) (fun s e ho _ => ho.step e)
    (fun s e ho _ hq => ?_) owned_empty ((hboth _).mpr fun d hd => ?_) (Machine.meets_true es)
  · exact (hboth _).trans (attended_step s e ho hq.1)
  · exact absurd hd (Option.some_ne_none d).symm

/-- A phone plays a video without having mirrored, and goes. -/
def playsAndGoes : List Event :=
  [.accepted 5 (bytes "10.0.0.2"), .reverse 5 (post (bytes "/reverse") (bytes "s")),
    .play 5 (post (bytes "/play") (bytes "s"))
      (some {url := bytes "u", clientProc := bytes "YouTube"}),
    .resume 5 true, .resume 5 true, .hangUp 5, .close 5]

theorem player_stays :
    ¬ Server.machine.Always (fun s => Attended s ∧ TurnsAway s) {} playsAndGoes := by
  intro h
  obtain ⟨hattended, -⟩ := Machine.always_iff_prefix.mp h playsAndGoes (List.prefix_refl _)
  obtain ⟨fd, c, hc, -⟩ := hattended
    {peerIp := bytes "10.0.0.2", sessionId := bytes "s", kind := bytes "HLS"} (by decide)
  by_cases hfd : fd = 5
  · rw [hfd] at hc
    exact absurd hc (Option.some_ne_none c).symm
  · rw [Server.run_other] at hc
    · exact absurd hc (Option.some_ne_none c).symm
    · simpa [playsAndGoes, Event.fd] using hfd

end AirPlay.Control
