import AirPlay.Library.Registry
import AirPlay.Control.Server

/-! The reverse channels the registry knows.

`registrations` lists what the open connections have registered, the newest
first. The registry keeps one descriptor per session id and forgets it when any
connection closes whose last id it was, so it shows the newest registration as
long as nobody closes who shares its last id, and nobody who is still the newest
for an earlier one (`tracks_iff`). -/
namespace AirPlay.Control
open Rtsp Registry

namespace ReverseChannelRegistry

theorem socketFor_registerSocket (sid sessionId : Bytes) (fd : Int) (r : ReverseChannelRegistry)
    (hid : sessionId ≠ []) (hfd : 0 ≤ fd) :
    (r.registerSocket sessionId fd).socketFor sid =
      if sessionId = sid then fd else r.socketFor sid := by
  have hguard : ¬ (sessionId = [] ∨ fd < 0) := not_or.mpr ⟨hid, Int.not_lt.mpr hfd⟩
  simp only [registerSocket, if_neg hguard, socketFor]
  by_cases hsid : sessionId = sid
  · subst hsid
    rw [if_neg hid, if_pos rfl, Function.update_self, Option.getD_some]
  · rw [if_neg hsid, Function.update_of_ne (Ne.symm hsid)]

theorem socketFor_unregisterSocket (sid sessionId : Bytes) (r : ReverseChannelRegistry) :
    (r.unregisterSocket sessionId).socketFor sid =
      if sessionId = sid then -1 else r.socketFor sid := by
  by_cases hid : sessionId = []
  · rw [unregisterSocket, if_pos hid]
    split
    · rename_i hsid
      rw [socketFor, if_pos (hsid ▸ hid)]
    · rfl
  · simp only [unregisterSocket, if_neg hid, socketFor]
    by_cases hsid : sessionId = sid
    · subst hsid
      rw [if_neg hid, if_pos rfl, Function.update_self, Option.getD_none]
    · rw [if_neg hsid, Function.update_of_ne (Ne.symm hsid)]

end ReverseChannelRegistry

/-- The id a request carries. -/
def sessionIdOf (req : Request) : Bytes := req.header (bytes "x-apple-session-id")

theorem handleReverse_eq (c : ClientSession) (req : Request) (registry : ReverseChannelRegistry) :
    (handleReverse c req registry).2 =
      if sessionIdOf req ≠ [] ∧ 0 ≤ c.fd then
        ({c with reverseSessionId := sessionIdOf req},
          registry.registerSocket (sessionIdOf req) c.fd)
      else (c, registry) := by
  rw [handleReverse, ← sessionIdOf]
  simp only [ge_iff_le]
  split <;> rfl

/-! ### Who has registered what -/

/-- What the open connections have registered, the newest first. -/
abbrev Registrations := List (Bytes × Int)

def remember (s : Server) (e : Event) (registrations : Registrations) : Registrations :=
  match e with
  | .reverse fd req =>
    if (s.reading fd).isSome ∧ sessionIdOf req ≠ [] ∧ 0 ≤ fd then
      (sessionIdOf req, fd) :: registrations
    else registrations
  | .hangUp fd => if (s.reading fd).isSome then withdraw fd registrations else registrations
  | _ => registrations

def registering : Machine (Server × Registrations) Event := Server.machine.watched remember

theorem registering_step (w : Server × Registrations) (e : Event) :
    registering.step w e = (w.1.step e, remember w.1 e w.2) := rfl

/-- The registry shows the connection that registered the id last, of those open. -/
def Tracks (w : Server × Registrations) : Prop :=
  ∀ sid, w.1.reverse.socketFor sid = (latest sid w.2).getD (-1)

/-- A connection that closes shares its last id with nobody, and is the newest for
none of its earlier ids. -/
def Parts (w : Server × Registrations) (e : Event) : Prop :=
  match e with
  | .hangUp fd => ∀ c, w.1.reading fd = some c →
    (∀ other, (c.reverseSessionId, other) ∈ w.2 → other = fd) ∧
      ∀ sid, sid ≠ c.reverseSessionId → latest sid w.2 ≠ some fd
  | _ => True

/-- The list is of open connections, which know that they have registered. -/
structure Booked (w : Server × Registrations) : Prop where
  keyed : ∀ fd c, w.1.sessions fd = some c → c.fd = fd
  live : ∀ sid fd, (sid, fd) ∈ w.2 → sid ≠ [] ∧ 0 ≤ fd ∧
    ∃ c, w.1.sessions fd = some c ∧ ¬ c.Ended ∧ c.reverseSessionId ≠ []

theorem remember_handled {s : Server} {e : Event} (he : e.Handled) (registrations : Registrations) :
    remember s e registrations = registrations := by
  cases e with
  | accepted | reverse | hangUp | close => exact he.elim
  | setup | play | teardown | resume => rfl

namespace Booked
variable {w : Server × Registrations}

/-- A connection may change as long as it stays open under its descriptor and keeps
an id it registered. -/
theorem put (h : Booked w) {fd : Int} {c c' : ClientSession} {s : Server}
    (hc : w.1.sessions fd = some c) (hfd : c'.fd = c.fd) (hlive : ¬ c'.Ended)
    (hid : c.reverseSessionId ≠ [] → c'.reverseSessionId ≠ [])
    (hs : s.sessions = Function.update w.1.sessions fd (some c')) : Booked (s, w.2) := by
  refine ⟨fun fd' d hd => ?_, fun sid fd' hmem => ?_⟩
  · rw [hs, update_eq_some] at hd
    rcases hd with ⟨rfl, hd⟩ | ⟨-, hd⟩
    · rw [← Option.some.inj hd, hfd, h.keyed fd' c hc]
    · exact h.keyed fd' d hd
  · obtain ⟨hsid, hpos, d, hd, hl, hrid⟩ := h.live sid fd' hmem
    refine ⟨hsid, hpos, ?_⟩
    rw [hs]
    by_cases hne : fd' = fd
    · subst hne
      exact ⟨c', Function.update_self .., hlive, hid (Option.some.inj (hc ▸ hd) ▸ hrid)⟩
    · exact ⟨d, (Function.update_of_ne hne ..).trans hd, hl, hrid⟩

theorem handled (h : Booked w) {e : Event} (he : e.Handled) : Booked (w.1.step e, w.2) := by
  rcases (Server.step_works w.1 e he).frame with
    hs | ⟨fd, c, c', slot, hc, hs, -, hl', -, hfd, hid⟩
  · rw [hs]
    exact h
  · exact h.put hc hfd hl' (by rw [hid]; exact id) (by rw [hs]; rfl)

theorem accepted (h : Booked w) (fd : Int) (remoteIp : Bytes) :
    Booked (w.1.step (.accepted fd remoteIp), w.2) := by
  rw [Server.step]
  split
  · exact h
  · rename_i hs
    refine ⟨fun fd' d hd => ?_, fun sid fd' hmem => ?_⟩
    · rcases update_eq_some.mp hd with ⟨rfl, hd⟩ | ⟨-, hd⟩
      · rw [← Option.some.inj hd]
      · exact h.keyed fd' d hd
    · obtain ⟨hsid, hpos, d, hd, hlive⟩ := h.live sid fd' hmem
      have hne : fd' ≠ fd := fun he => hs (by rw [← he, hd, Option.isSome_some])
      exact ⟨hsid, hpos, d, (Function.update_of_ne hne ..).trans hd, hlive⟩

theorem register (h : Booked w) {fd : Int} {c : ClientSession} (hc : w.1.sessions fd = some c)
    (hlive : ¬ c.Ended) {sid : Bytes} (hsid : sid ≠ []) (hfd : 0 ≤ fd)
    (registry : ReverseChannelRegistry) :
    Booked ({w.1.put fd {c with reverseSessionId := sid} with reverse := registry},
      (sid, fd) :: w.2) := by
  have hput : Booked
      ({w.1.put fd {c with reverseSessionId := sid} with reverse := registry}, w.2) :=
    @put w h fd c {c with reverseSessionId := sid} _ hc rfl hlive (fun _ => hsid) rfl
  refine ⟨hput.keyed, fun sid' fd' hmem => ?_⟩
  rcases List.mem_cons.mp hmem with heq | hmem
  · obtain ⟨rfl, rfl⟩ := Prod.mk.inj heq
    exact ⟨hsid, hfd, _, Function.update_self .., hlive, hsid⟩
  · exact hput.live sid' fd' hmem

theorem hangUp (h : Booked w) {fd : Int} {c : ClientSession} (hc : w.1.sessions fd = some c) :
    Booked (w.1.hangUp fd c, withdraw fd w.2) := by
  refine ⟨fun fd' d hd => ?_, fun sid fd' hmem => ?_⟩
  · have hput : Function.update w.1.sessions fd _ fd' = some d := hd
    rcases update_eq_some.mp hput with ⟨rfl, hnew⟩ | ⟨-, hold⟩
    · rw [← Option.some.inj hnew]
      exact h.keyed fd' c hc
    · exact h.keyed fd' d hold
  · obtain ⟨hmem, hne⟩ := mem_withdraw.mp hmem
    obtain ⟨hsid, hpos, d, hd, hlive⟩ := h.live sid fd' hmem
    exact ⟨hsid, hpos, d, (Function.update_of_ne hne ..).trans hd, hlive⟩

theorem close (h : Booked w) {fd : Int} {session : Bytes}
    (hend : w.1.endedSession fd = some session) : Booked (w.1.close fd session, w.2) := by
  obtain ⟨c, hc, hended⟩ := Server.endedSession_eq_some.mp hend
  refine ⟨fun fd' d hd => ?_, fun sid fd' hmem => ?_⟩
  · rcases update_eq_some.mp hd with ⟨-, hd⟩ | ⟨-, hd⟩
    · exact absurd hd (Option.some_ne_none d).symm
    · exact h.keyed fd' d hd
  · obtain ⟨hsid, hpos, d, hd, hlive, hrid⟩ := h.live sid fd' hmem
    have hne : fd' ≠ fd := by
      rintro rfl
      exact hlive ⟨session, Option.some.inj (hc.symm.trans hd) ▸ hended⟩
    exact ⟨hsid, hpos, d, (Function.update_of_ne hne ..).trans hd, hlive, hrid⟩

end Booked

/-! ### One step -/

theorem booked_reverse {w : Server × Registrations} (h : Booked w) (fd : Int) (req : Request) :
    Booked (registering.step w (.reverse fd req)) ∧
      (Tracks w → Tracks (registering.step w (.reverse fd req))) := by
  rw [registering_step, Server.step, remember]
  cases hr : w.1.reading fd with
  | none =>
    rw [if_neg (by simp)]
    exact ⟨h, id⟩
  | some c =>
    obtain ⟨hc, hread⟩ := Server.reading_eq_some.mp hr
    have hfd := h.keyed fd c hc
    have hlive := Server.reading_live hread
    by_cases hreg : sessionIdOf req ≠ [] ∧ 0 ≤ fd
    · have hrev : (handleReverse c req w.1.reverse).2 =
          ({c with reverseSessionId := sessionIdOf req},
            w.1.reverse.registerSocket (sessionIdOf req) fd) := by
        rw [handleReverse_eq, hfd, if_pos hreg]
      rw [if_pos ⟨rfl, hreg⟩]
      simp only [hrev]
      refine ⟨h.register hc hlive hreg.1 hreg.2 _, fun ht sid => ?_⟩
      rw [latest_cons, ReverseChannelRegistry.socketFor_registerSocket _ _ _ _ hreg.1 hreg.2]
      split
      · rfl
      · exact ht sid
    · have hrev : (handleReverse c req w.1.reverse).2 = (c, w.1.reverse) := by
        rw [handleReverse_eq, hfd, if_neg hreg]
      rw [if_neg fun hcon => hreg hcon.2]
      simp only [hrev]
      rw [Server.put_same hc]
      exact ⟨h, id⟩

/-- No descriptor shows as one that is missing. -/
theorem getD_inj {a b : Option Int} (ha : ∀ fd, a = some fd → 0 ≤ fd)
    (hb : ∀ fd, b = some fd → 0 ≤ fd) : a.getD (-1) = b.getD (-1) ↔ a = b := by
  refine ⟨fun heq => ?_, congrArg (Option.getD · (-1))⟩
  cases a with
  | none =>
    cases b with
    | none => rfl
    | some b =>
      have := hb b rfl
      rw [Option.getD_none, Option.getD_some] at heq
      omega
  | some a =>
    cases b with
    | none =>
      have := ha a rfl
      rw [Option.getD_none, Option.getD_some] at heq
      omega
    | some b =>
      rw [Option.getD_some, Option.getD_some] at heq
      rw [heq]

/-- The registry after a connection closes is right exactly if it parts cleanly. -/
theorem tracks_hangUp {w : Server × Registrations} (h : Booked w) (ht : Tracks w) (fd : Int)
    (c : ClientSession) :
    Tracks (w.1.hangUp fd c, withdraw fd w.2) ↔
      (∀ other, (c.reverseSessionId, other) ∈ w.2 → other = fd) ∧
        ∀ sid, sid ≠ c.reverseSessionId → latest sid w.2 ≠ some fd := by
  have hpos : ∀ {sid} {l : Registrations}, (∀ r ∈ l, r ∈ w.2) →
      ∀ a, latest sid l = some a → 0 ≤ a :=
    fun hsub a ha => (h.live _ _ (hsub _ (latest_mem ha))).2.1
  have hleft : ∀ r ∈ withdraw fd w.2, r ∈ w.2 := fun r hr => (mem_withdraw.mp hr).1
  -- the id that is forgotten
  have hlast : (w.1.hangUp fd c).reverse.socketFor c.reverseSessionId =
      (latest c.reverseSessionId (withdraw fd w.2)).getD (-1) ↔
        ∀ other, (c.reverseSessionId, other) ∈ w.2 → other = fd := by
    have hforgot : (w.1.hangUp fd c).reverse.socketFor c.reverseSessionId =
        (none : Option Int).getD (-1) :=
      (ReverseChannelRegistry.socketFor_unregisterSocket ..).trans (if_pos rfl)
    rw [hforgot, getD_inj (fun _ hnone => absurd hnone (Option.some_ne_none _).symm) (hpos hleft),
      eq_comm, latest_eq_none]
    constructor
    · intro hnone other hmem
      by_contra hne
      exact hnone other (mem_withdraw.mpr ⟨hmem, hne⟩)
    · intro honly other hmem
      exact (mem_withdraw.mp hmem).2 (honly other (mem_withdraw.mp hmem).1)
  -- the ids that are kept
  have hkept : ∀ sid, sid ≠ c.reverseSessionId →
      ((w.1.hangUp fd c).reverse.socketFor sid = (latest sid (withdraw fd w.2)).getD (-1) ↔
        latest sid w.2 ≠ some fd) := by
    intro sid hne
    have hkeep : (w.1.hangUp fd c).reverse.socketFor sid = (latest sid w.2).getD (-1) :=
      (ReverseChannelRegistry.socketFor_unregisterSocket ..).trans
        ((if_neg (Ne.symm hne)).trans (ht sid))
    rw [hkeep, ← latest_withdraw_iff, getD_inj (hpos fun _ => id) (hpos hleft)]
    exact eq_comm
  constructor
  · intro htracks
    exact ⟨hlast.mp (htracks _), fun sid hne => (hkept sid hne).mp (htracks sid)⟩
  · rintro ⟨honly, hothers⟩ sid
    by_cases hsid : sid = c.reverseSessionId
    · rw [hsid]
      exact hlast.mpr honly
    · exact (hkept sid hsid).mpr (hothers sid hsid)

theorem handled_reverse (s : Server) (e : Event) (he : e.Handled) :
    (s.step e).reverse = s.reverse := by
  rcases (Server.step_works s e he).frame with hs | ⟨fd, c, c', slot, -, hs, -⟩
  · rw [hs]
  · rw [hs]
    rfl

theorem booked_step (w : Server × Registrations) (e : Event) (h : Booked w) :
    Booked (registering.step w e) := by
  by_cases he : e.Handled
  · rw [registering_step, remember_handled he]
    exact h.handled he
  cases e with
  | setup | play | teardown | resume => exact absurd trivial he
  | accepted fd remoteIp => exact h.accepted fd remoteIp
  | reverse fd req => exact (booked_reverse h fd req).1
  | hangUp fd =>
    rw [registering_step, Server.step, remember]
    cases hr : w.1.reading fd with
    | none => exact h
    | some c => exact h.hangUp (Server.reading_eq_some.mp hr).1
  | close fd =>
    show Booked (w.1.step (.close fd), w.2)
    rw [Server.step]
    cases hend : w.1.endedSession fd with
    | none => exact h
    | some session => exact h.close hend

theorem tracks_step (w : Server × Registrations) (e : Event) (h : Booked w) (ht : Tracks w) :
    Tracks (registering.step w e) ↔ Parts w e := by
  have hsame : (w.1.step e).reverse = w.1.reverse → remember w.1 e w.2 = w.2 →
      Tracks (registering.step w e) := fun hr hm sid => by
    show (w.1.step e).reverse.socketFor sid = (latest sid (remember w.1 e w.2)).getD (-1)
    rw [hr, hm]
    exact ht sid
  by_cases he : e.Handled
  · refine iff_of_true (hsame (handled_reverse w.1 e he) (remember_handled he w.2)) ?_
    cases e with
    | setup | play | teardown | resume => trivial
    | accepted | reverse | hangUp | close => exact he.elim
  cases e with
  | setup | play | teardown | resume => exact absurd trivial he
  | accepted fd remoteIp =>
    refine iff_of_true (hsame ?_ rfl) trivial
    rw [Server.step]
    split <;> rfl
  | reverse fd req => exact iff_of_true ((booked_reverse h fd req).2 ht) trivial
  | hangUp fd =>
    rw [registering_step, Server.step, remember, Parts]
    cases hr : w.1.reading fd with
    | none => exact iff_of_true ht fun c hc => absurd hc (Option.some_ne_none c).symm
    | some c =>
      refine (tracks_hangUp h ht fd c).trans ?_
      exact ⟨fun hp c' hc' => Option.some.inj hc' ▸ hp, fun hp => hp c rfl⟩
  | close fd =>
    refine iff_of_true (hsame ?_ rfl) trivial
    rw [Server.step]
    split <;> rfl

/-! ### Every history -/

/-- The registry shows the newest registration throughout exactly if every connection
that closes shares its last id with nobody and is the newest for no earlier one. -/
theorem tracks_iff (es : List Event) :
    registering.Always Tracks ({}, []) es ↔ registering.Meets Parts ({}, []) es := by
  refine Machine.always_iff_meets (H := fun _ _ => True) (fun w e h _ => booked_step w e h)
    (fun w e h _ ht => tracks_step w e h ht) ⟨fun fd c hc => ?_, fun sid fd hmem => ?_⟩
    (fun sid => ?_) ?_
  · exact absurd hc (Option.some_ne_none c).symm
  · exact absurd hmem List.not_mem_nil
  · show (if sid = [] then -1 else -1) = (-1 : Int)
    exact ite_self _
  · exact Machine.meets_true es

/-- Two connections of one session, and the older closes. -/
def olderCloses : List Event :=
  [.accepted 5 (bytes "10.0.0.2"), .accepted 6 (bytes "10.0.0.2"),
    .reverse 5 (post (bytes "/reverse") (bytes "s")),
    .reverse 6 (post (bytes "/reverse") (bytes "s")), .hangUp 5]

theorem older_close_forgets : ¬ registering.Always Tracks ({}, []) olderCloses := by
  intro h
  have := Machine.always_iff_prefix.mp h olderCloses (List.prefix_refl _) (bytes "s")
  exact absurd this (by decide)

end AirPlay.Control
