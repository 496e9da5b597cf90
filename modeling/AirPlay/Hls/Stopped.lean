import AirPlay.Hls.Generation

/-! What a stopped session still takes in.

/play replaces a session's master URL, its generation and its table of request ids.
/stop and TEARDOWN leave all three as they are, so a response that is still on its way
is current after them. A stopped session stays stopped as long as no such response is
for one of its playlists (`stays_stopped`). -/
namespace AirPlay.Hls
open Registry

/-- What is delivered for the URL is stored as a playlist. -/
def isPlaylist (hls : HlsSession) (url : Bytes) : Bool := isMaster hls url || isM3u8 url

namespace Handler

/-- The handler has a playlist in hand. -/
def bringsPlaylist (hls : HlsSession) : Handler → Bool
  | storing _ d _ => isPlaylist hls d.url
  | localising _ _ _ _ _ => true
  | _ => false

end Handler

/-- The session whose /stop or TEARDOWN the event completes. -/
def Receiver.stopsSession (s : Receiver) : Event → Option Bytes
  | .stop thread sid =>
    if (s.threads thread).isNone ∧ (sid = [] ∨ (s.registry.find sid).isNone) then some sid else none
  | .teardown sid => some sid
  | .resume thread _ => match s.threads thread with
    | some (.deactivating sid) => some sid
    | _ => none
  | _ => none

/-- The session whose /play begins, or takes effect, with the event. -/
def Receiver.playsSession (s : Receiver) : Event → Option Bytes
  | .play thread sid _ =>
    if (s.threads thread).isSome ∨ s.reverse.socketFor sid < 0 then none else some sid
  | .resume thread _ => match s.threads thread with
    | some (.resetting sid _) => some sid
    | _ => none
  | _ => none

/-- The session in which the event stores a playlist. -/
def Receiver.getsPlaylist (s : Receiver) : Event → Option Bytes
  | .resume thread _ => (s.running thread).bind fun p =>
    if p.1.storesPlaylist p.2 then some p.1.sid else none
  | _ => none

/-- The session of a delivery, and of the steps of its handler. -/
def Receiver.delivers (s : Receiver) : Event → Option Bytes
  | .action _ sid _ => some sid
  | .resume thread _ => match s.threads thread with
    | some (.storing sid _ _) | some (.localising sid _ _ _ _) => some sid
    | _ => none
  | _ => none

/-- A session is stopped after a /stop or TEARDOWN, before the next /play. -/
def noteStopped (s : Receiver) (e : Event) (stopped : Bytes → Bool) : Bytes → Bool := fun sid =>
  s.stopsSession e = some sid || (stopped sid && s.playsSession e ≠ some sid)

/-- What arrives at a stopped session is stale, or no playlist; nor is a playlist in
hand when the session is stopped. -/
structure Settled (w : Receiver × (Bytes → Bool)) (e : Event) : Prop where
  late : ∀ thread sid d hls, e = .action thread sid d → w.2 sid = true →
    w.1.accepts thread sid d = some hls → isPlaylist hls d.url = false
  inHand : ∀ sid thread h hls, w.1.stopsSession e = some sid →
    w.1.running thread = some (h, hls) → h.sid = sid → h.bringsPlaylist hls = false

/-- The playlists that are stored in a session: the master, and the others by URL. -/
def HlsSession.playlists (hls : HlsSession) : Bytes × (Bytes → Option Bytes) :=
  (hls.masterPlaylist, hls.mediaPlaylists)

/-- An event leaves the stopped sessions stopped. -/
structure Undisturbed (expand : Bytes → Bytes) (localPort : Nat)
    (w : Receiver × (Bytes → Bool)) (e : Event) : Prop where
  /-- A delivery for a stopped session does not start the player. -/
  player : ∀ sid, w.1.delivers e = some sid → w.2 sid = true →
    (w.1.step expand localPort e).player = w.1.player
  /-- A delivery, for whatever session, leaves the playlists of the stopped ones alone. -/
  playlists : ∀ sid, (w.1.delivers e).isSome = true → w.2 sid = true →
    ((w.1.step expand localPort e).registry.sessions sid).map HlsSession.playlists =
      (w.1.registry.sessions sid).map HlsSession.playlists
  /-- Nor is what a stopped session has stored once more. -/
  stores : ∀ sid, w.1.getsPlaylist e = some sid → w.2 sid = false

/-- No playlist is in hand for a stopped session. -/
def Stopped (w : Receiver × (Bytes → Bool)) : Prop :=
  ∀ thread h hls, w.1.running thread = some (h, hls) → w.2 h.sid = true →
    h.bringsPlaylist hls = false

/-! ### What a handler's step leaves -/

theorem Handler.bringsPlaylist_congr {hls hls' : HlsSession} (h : Handler)
    (hurl : hls.masterUrl = hls'.masterUrl) : h.bringsPlaylist hls = h.bringsPlaylist hls' := by
  cases h with
  | storing sid d generation =>
    rw [bringsPlaylist, bringsPlaylist, isPlaylist, isPlaylist, isMaster, isMaster, hurl]
  | _ => rfl

theorem Handler.brings_of_stores {h : Handler} {hls : HlsSession}
    (hs : h.storesPlaylist hls = true) : h.bringsPlaylist hls = true := by
  cases h with
  | storing sid d generation =>
    rw [storesPlaylist] at hs
    rw [bringsPlaylist, isPlaylist, hs, Bool.true_or]
  | localising => rfl
  | _ => exact absurd hs Bool.false_ne_true

section Work
variable {expand : Bytes → Bytes} {localPort : Nat}

/-- A playlist in hand was in hand before. -/
theorem work_brings {h h' : Handler} {ok : Bool} {hls hls' : HlsSession}
    (hw : (h.work expand localPort ok hls).2 = some h') (hb : h'.bringsPlaylist hls' = true) :
    h.bringsPlaylist hls = true := by
  cases Handler.work_leads hw with
  | localising => rfl
  | storing hp =>
    rw [Handler.bringsPlaylist, isPlaylist, hp, Bool.or_true]
  | _ => exact absurd hb Bool.false_ne_true

/-- Only the reset of a /play changes the master URL. -/
theorem work_masterUrl (h : Handler) (ok : Bool) (hls : HlsSession)
    (hreset : ∀ sid url, h ≠ .resetting sid url) :
    (h.work expand localPort ok hls).1.masterUrl = hls.masterUrl := by
  by_cases hm : h.movesMedia = true
  · obtain ⟨_, _, _, _, _, hw⟩ := @Handler.work_media expand localPort h hm ok hls
    rw [hw]
  cases h with
  | resetting sid url => exact absurd rfl (hreset sid url)
  | storing | checkingPlaylist | waitingPlaylist | checkingSegment | waitingSegment =>
    exact absurd rfl hm
  | localising sid d generation out left =>
    cases left with
    | nil => rfl
    | cons piece left => cases piece <;> rfl
  | _ => rfl

/-! ### One step -/

theorem Receiver.running_eq_some {s : Receiver} {thread : Nat} {h : Handler} {hls : HlsSession} :
    s.running thread = some (h, hls) ↔
      s.threads thread = some h ∧ s.registry.sessions h.sid = some hls := by
  rw [Receiver.running, Option.bind_eq_some_iff]
  constructor
  · rintro ⟨h', hh, hmap⟩
    obtain ⟨hls', hf, heq⟩ := Option.map_eq_some_iff.mp hmap
    obtain ⟨rfl, rfl⟩ := Prod.mk.inj heq
    exact ⟨hh, hf⟩
  · rintro ⟨hh, hf⟩
    exact ⟨h, hh, Option.map_eq_some_iff.mpr ⟨hls, hf, rfl⟩⟩

/-- A session's master URL was its master URL before, unless the session is played. -/
theorem masterUrl_step {s : Receiver} {e : Event} {sid : Bytes} {hls : HlsSession}
    (hf : (s.step expand localPort e).registry.sessions sid = some hls)
    (hplay : s.playsSession e ≠ some sid) :
    ∃ hls₀, s.registry.sessions sid = some hls₀ ∧ hls₀.masterUrl = hls.masterUrl := by
  have hput : ∀ {sid' : Bytes} {hls₀ hls' : HlsSession},
      (s.step expand localPort e).registry.sessions =
        Function.update s.registry.sessions sid' (some hls') →
      s.registry.sessions sid' = some hls₀ →
      (sid' = sid → hls'.masterUrl = hls₀.masterUrl) →
      ∃ hls₀, s.registry.sessions sid = some hls₀ ∧ hls₀.masterUrl = hls.masterUrl := by
    intro sid' hls₀ hls' hs hf₀ hurl
    rcases update_eq_some.mp (hs ▸ hf) with ⟨rfl, heq⟩ | ⟨-, hold⟩
    · exact ⟨hls₀, hf₀, (hurl rfl).symm.trans (congrArg _ (Option.some.inj heq))⟩
    · exact ⟨hls, hold, rfl⟩
  cases @Receiver.step_moves expand localPort s e with
  | rests hs | drops thread hs | stops thread sid' he hs => exact ⟨hls, hs ▸ hf, rfl⟩
  | opens thread sid' url he hs ht hopen =>
    rw [he, Receiver.playsSession, if_neg hopen] at hplay
    rw [hs, Function.update_of_ne fun hsid => hplay (congrArg some hsid.symm)] at hf
    exact ⟨hls, hf, rfl⟩
  | delivers thread sid' d hls₀ he hf₀ hcurrent hs =>
    obtain ⟨generations, hconsume⟩ := consume_frame hls₀ d
    exact hput hs hf₀ fun _ => by rw [hconsume]
  | fetches thread sid' hls₀ h he hf₀ hs => exact hput hs hf₀ fun _ => rfl
  | works thread ok h hls₀ he hh hf₀ hs =>
    refine hput hs hf₀ fun hsid => work_masterUrl h ok hls₀ ?_
    rintro sid' url rfl
    rw [he, Receiver.playsSession, hh] at hplay
    exact hplay (congrArg some hsid)

/-- A playlist in hand was in hand before, or has just been delivered, unless its
session is played. -/
theorem brings_step {s : Receiver} {e : Event} {thread : Nat} {h : Handler} {hls : HlsSession}
    (hrun : (s.step expand localPort e).running thread = some (h, hls))
    (hb : h.bringsPlaylist hls = true) (hplay : s.playsSession e ≠ some h.sid) :
    (∃ h₀ hls₀, s.running thread = some (h₀, hls₀) ∧ h₀.sid = h.sid ∧
        h₀.bringsPlaylist hls₀ = true) ∨
      ∃ d hls₀, e = .action thread h.sid d ∧ s.accepts thread h.sid d = some hls₀ ∧
        isPlaylist hls₀ d.url = true := by
  obtain ⟨hh, hf⟩ := Receiver.running_eq_some.mp hrun
  obtain ⟨hls₀, hf₀, hurl⟩ := masterUrl_step hf hplay
  have hb₀ : h.bringsPlaylist hls₀ = true := (h.bringsPlaylist_congr hurl).trans hb
  have hold : s.threads thread = some h → ∃ h₀ hls₀, s.running thread = some (h₀, hls₀) ∧
      h₀.sid = h.sid ∧ h₀.bringsPlaylist hls₀ = true :=
    fun hh₀ => ⟨h, hls₀, Receiver.running_eq_some.mpr ⟨hh₀, hf₀⟩, rfl, hb₀⟩
  have hput : ∀ {thread' : Nat} {h' : Option Handler},
      (s.step expand localPort e).threads = Function.update s.threads thread' h' →
      thread = thread' ∧ h' = some h ∨ s.threads thread = some h := by
    intro thread' h' ht
    rcases update_eq_some.mp (ht ▸ hh) with ⟨hthread, hnew⟩ | ⟨-, hold⟩
    · exact .inl ⟨hthread, hnew⟩
    · exact .inr hold
  -- a handler that starts without a playlist is not the one that brings it
  have hstart : ∀ {thread' : Nat} {h' : Handler},
      (s.step expand localPort e).threads = Function.update s.threads thread' (some h') →
      h'.bringsPlaylist hls = false → s.threads thread = some h := by
    intro thread' h' ht hnone
    rcases hput ht with ⟨-, hnew⟩ | hh₀
    · rw [← Option.some.inj hnew, hnone] at hb
      exact absurd hb Bool.false_ne_true
    · exact hh₀
  cases @Receiver.step_moves expand localPort s e with
  | rests hs ht => exact .inl (hold (ht ▸ hh))
  | drops thread' hs ht =>
    rcases hput ht with ⟨-, hnew⟩ | hh₀
    · exact absurd hnew (Option.some_ne_none h).symm
    · exact .inl (hold hh₀)
  | stops thread' sid he hs ht => exact .inl (hold (hstart ht rfl))
  | opens thread' sid url he hs ht => exact .inl (hold (hstart ht rfl))
  | fetches thread' sid hls' h' he hf' hs ht =>
    refine .inl (hold (hstart ht ?_))
    rcases he with ⟨url, force, order, -, rfl⟩ | ⟨url, order, -, rfl⟩ <;> rfl
  | delivers thread' sid d hls' he hf' hcurrent hs ht =>
    rcases hput ht with ⟨rfl, hnew⟩ | hh₀
    · subst he
      rcases @action_cases expand localPort s thread sid d with
        ⟨-, hstep⟩ | ⟨hls₁, haccepts, hf₁, -, -⟩
      · exact .inl (hold (hstep ▸ hh))
      · rw [← Option.some.inj hnew] at hb₀ hf₀ ⊢
        rw [Option.some.inj (hf₀.symm.trans hf₁)] at hb₀
        exact .inr ⟨d, hls₁, rfl, haccepts, hb₀⟩
    · exact .inl (hold hh₀)
  | works thread' ok h₀ hls' he hh₀ hf' hs ht =>
    rcases hput ht with ⟨rfl, hnew⟩ | hh₀
    · exact .inl ⟨h₀, hls', Receiver.running_eq_some.mpr ⟨hh₀, hf'⟩, (work_delivery hnew).1.symm,
        work_brings hnew hb⟩
    · exact .inl (hold hh₀)

theorem plays_of_stops {s : Receiver} {e : Event} {sid : Bytes}
    (hstop : s.stopsSession e = some sid) : s.playsSession e ≠ some sid := by
  cases e with
  | resume thread ok =>
    rw [Receiver.stopsSession] at hstop
    split at hstop
    · rename_i hh
      rw [Receiver.playsSession, hh]
      exact (Option.some_ne_none sid).symm
    · exact absurd hstop (Option.some_ne_none sid).symm
  | stop | teardown => exact (Option.some_ne_none sid).symm
  | _ => exact absurd hstop (Option.some_ne_none sid).symm

theorem stopped_step (w : Receiver × (Bytes → Bool)) (e : Event) (h : Stopped w)
    (hsettled : Settled w e) : Stopped (w.1.step expand localPort e, noteStopped w.1 e w.2) := by
  intro thread h' hls hrun hstopped
  have hcases : w.1.stopsSession e = some h'.sid ∨
      w.2 h'.sid = true ∧ w.1.playsSession e ≠ some h'.sid := by
    simpa [noteStopped] using hstopped
  by_contra hb
  rw [Bool.not_eq_false] at hb
  have hplay : w.1.playsSession e ≠ some h'.sid := by
    rcases hcases with hstop | ⟨-, hplay⟩
    · exact plays_of_stops hstop
    · exact hplay
  rcases brings_step hrun hb hplay with ⟨h₀, hls₀, hrun₀, hsid, hb₀⟩ | ⟨d, hls₀, he, ha, hurl⟩
  · rcases hcases with hstop | ⟨hold, -⟩
    · exact absurd (hsettled.inHand _ thread h₀ hls₀ hstop hrun₀ hsid) (by rw [hb₀]; decide)
    · exact absurd (h thread h₀ hls₀ hrun₀ (hsid ▸ hold)) (by rw [hb₀]; decide)
  · rcases hcases with hstop | ⟨hold, -⟩
    · rw [he] at hstop
      exact absurd hstop (Option.some_ne_none _).symm
    · exact absurd (hsettled.late thread _ d hls₀ he hold ha) (by rw [hurl]; decide)

/-- A delivery that brings no playlist stores a segment or a redirect. -/
theorem work_delivers {h : Handler} {hls : HlsSession} (hd : h.delivery.isSome = true)
    (hb : h.bringsPlaylist hls = false) (ok : Bool) :
    (h.work expand localPort ok hls).1.playlists = hls.playlists ∧
      ∀ s : Receiver, (s.shared h hls).player = s.player := by
  cases h with
  | storing sid d generation =>
    obtain ⟨hmaster, hm3u8⟩ := Bool.or_eq_false_iff.mp hb
    rw [Handler.work, hmaster, hm3u8, if_neg Bool.false_ne_true, if_neg Bool.false_ne_true]
    refine ⟨?_, fun s => ?_⟩
    · split <;> rfl
    · rw [Receiver.shared, hmaster, if_neg Bool.false_ne_true]
  | localising => exact absurd hb.symm Bool.false_ne_true
  | _ => exact absurd hd Bool.false_ne_true

theorem delivers_resume {s : Receiver} {thread : Nat} {ok : Bool} {sid : Bytes}
    (h : s.delivers (.resume thread ok) = some sid) :
    ∃ handler, s.threads thread = some handler ∧ handler.sid = sid ∧
      handler.delivery.isSome = true := by
  rw [Receiver.delivers] at h
  split at h
  · rename_i hh
    exact ⟨_, hh, Option.some.inj h, rfl⟩
  · rename_i hh
    exact ⟨_, hh, Option.some.inj h, rfl⟩
  · exact absurd h (Option.some_ne_none sid).symm

theorem step_resume {s : Receiver} {thread : Nat} {h : Handler} {hls : HlsSession}
    (hrun : s.running thread = some (h, hls)) (ok : Bool) :
    s.step expand localPort (.resume thread ok) =
      ((s.shared h hls).put h.sid (h.work expand localPort ok hls).1).goOn thread
        (h.work expand localPort ok hls).2 := by
  obtain ⟨hh, hf⟩ := Receiver.running_eq_some.mp hrun
  have hfind : s.registry.find h.sid = some hls := hf
  rw [Receiver.step, hh]
  simp only [hfind]

theorem step_resume_absent {s : Receiver} {thread : Nat} {h : Handler}
    (hh : s.threads thread = some h) (hf : s.registry.find h.sid = none) (ok : Bool) :
    s.step expand localPort (.resume thread ok) = s.goOn thread none := by
  rw [Receiver.step, hh]
  simp only [hf]

theorem undisturbed_of_stopped (w : Receiver × (Bytes → Bool)) (e : Event) (h : Stopped w) :
    Undisturbed expand localPort w e := by
  have hstores : ∀ sid, w.1.getsPlaylist e = some sid → w.2 sid = false := by
    intro sid hgets
    cases e with
    | resume thread ok =>
      rw [Receiver.getsPlaylist, Option.bind_eq_some_iff] at hgets
      obtain ⟨⟨h₀, hls⟩, hrun, hsome⟩ := hgets
      split at hsome
      · rename_i hstores
        by_contra hstopped
        rw [Bool.not_eq_false, ← Option.some.inj hsome] at hstopped
        have hnone := h thread h₀ hls hrun hstopped
        rw [Handler.brings_of_stores hstores] at hnone
        exact Bool.false_ne_true hnone.symm
      · exact absurd hsome (Option.some_ne_none sid).symm
    | _ => exact absurd hgets (Option.some_ne_none sid).symm
  cases e with
  | action thread sid' d =>
    rcases @action_cases expand localPort w.1 thread sid' d with
      ⟨-, hstep⟩ | ⟨hls, -, hf, -, hstep⟩
    · exact ⟨fun _ _ _ => by rw [hstep], fun _ _ _ => by rw [hstep], hstores⟩
    · obtain ⟨generations, hconsume⟩ := consume_frame hls d
      refine ⟨fun _ _ _ => by rw [hstep]; rfl, fun sid _ _ => ?_, hstores⟩
      rw [hstep]
      show (Function.update w.1.registry.sessions sid' (some (consume hls d)) sid).map _ = _
      by_cases hsid : sid = sid'
      · subst hsid
        rw [Function.update_self, hf, hconsume]
        rfl
      · rw [Function.update_of_ne hsid]
  | resume thread ok =>
    refine ⟨fun sid hdelivers hstopped => ?_, fun sid hdelivers hstopped => ?_, hstores⟩
    · obtain ⟨handler, hh, rfl, hd⟩ := delivers_resume hdelivers
      cases hf : w.1.registry.find handler.sid with
      | none => rw [step_resume_absent hh hf]; rfl
      | some hls =>
        have hrun := Receiver.running_eq_some.mpr ⟨hh, hf⟩
        rw [step_resume hrun]
        exact (@work_delivers expand localPort _ _ hd (h thread handler hls hrun hstopped) ok).2 _
    · obtain ⟨sid', hdelivers⟩ := Option.isSome_iff_exists.mp hdelivers
      obtain ⟨handler, hh, rfl, hd⟩ := delivers_resume hdelivers
      cases hf : w.1.registry.find handler.sid with
      | none => rw [step_resume_absent hh hf]; rfl
      | some hls =>
        have hrun := Receiver.running_eq_some.mpr ⟨hh, hf⟩
        rw [step_resume hrun]
        show (Function.update (w.1.shared handler hls).registry.sessions handler.sid
          (some (handler.work expand localPort ok hls).1) sid).map _ = _
        rw [Receiver.shared_sessions]
        by_cases hsid : sid = handler.sid
        · have hf' : w.1.registry.sessions handler.sid = some hls := hf
          have hbrings := h thread handler hls hrun (hsid ▸ hstopped)
          rw [hsid, Function.update_self, hf', Option.map_some, Option.map_some,
            (work_delivers hd hbrings ok).1]
        · rw [Function.update_of_ne hsid]
  | _ => exact ⟨fun _ hd => absurd hd (Option.some_ne_none _).symm,
      fun _ hd => absurd hd Bool.false_ne_true, hstores⟩

end Work

/-- The receiver, with what has been stopped. -/
def halting (expand : Bytes → Bytes) (localPort : Nat) :
    Machine (Receiver × (Bytes → Bool)) Event :=
  (Receiver.machine expand localPort).watched noteStopped

/-- No session is brought back by a delivery. -/
def StaysStopped (expand : Bytes → Bytes) (localPort : Nat) (es : List Event) : Prop :=
  (halting expand localPort).Meets (Undisturbed expand localPort) ({}, fun _ => false) es

/-- As long as nothing current arrives for a playlist of a stopped session, and no such
delivery is being handled when a session is stopped, no delivery stores a playlist in a
stopped session or starts the player for it. -/
theorem stays_stopped {expand : Bytes → Bytes} {localPort : Nat} (es : List Event)
    (hes : (halting expand localPort).Meets Settled ({}, fun _ => false) es) :
    StaysStopped expand localPort es := by
  have hempty : Stopped ({}, fun _ => false) :=
    fun _ _ _ _ hstopped => absurd hstopped Bool.false_ne_true
  exact Machine.Always.meets undisturbed_of_stopped
    (Machine.always_of_meets stopped_step hempty hes)

/-- A /stop, undisturbed. -/
def stops (thread : Nat) (sid : Bytes) : List Event :=
  .stop thread sid :: List.replicate 4 (.resume thread true)

/-- A video is stopped before its master playlist arrives, up to the check of its id. -/
def overdue (stop : List Event) : List Event :=
  [.reverse ⟨fun _ => some 5⟩] ++ plays 0 (bytes "a") (bytes "m") ++ stop ++
    [.action 1 (bytes "a") {url := bytes "m", requestId := 1, playlist := bytes "x"}]

def lateMaster (stop : List Event) : List Event := overdue stop ++ [.resume 1 true]

/-- The playlist is stored and the player starts, after a /stop as after a TEARDOWN. -/
theorem late_master_revives :
    (¬ StaysStopped (fun b => b) 7100 (lateMaster (stops 0 (bytes "a"))) ∧
      ((halting (fun b => b) 7100).run ({}, fun _ => false)
        (lateMaster (stops 0 (bytes "a")))).1.player = true) ∧
    ¬ StaysStopped (fun b => b) 7100 (lateMaster [.teardown (bytes "a")]) := by
  have hlast : ∀ {stop}, StaysStopped (fun b => b) 7100 (lateMaster stop) →
      Undisturbed (fun b => b) 7100
        ((halting (fun b => b) 7100).run ({}, fun _ => false) (overdue stop)) (.resume 1 true) :=
    fun h => (Machine.meets_append.mp h).2.1
  refine ⟨⟨fun h => ?_, by decide⟩, fun h => ?_⟩
  · exact absurd ((hlast h).player (bytes "a") (by decide) (by decide)) (by decide)
  · exact absurd ((hlast h).player (bytes "a") (by decide) (by decide)) (by decide)

def Event.isAction : Event → Bool
  | .action .. => true
  | _ => false

/-- Neither a delivery nor the end of a session. -/
def calm (w : Receiver × (Bytes → Bool)) (e : Event) : Bool :=
  !e.isAction && (w.1.stopsSession e).isNone

theorem settled_of_calm {w : Receiver × (Bytes → Bool)} {e : Event} (h : calm w e = true) :
    Settled w e := by
  rw [calm, Bool.and_eq_true, Bool.not_eq_true', Option.isNone_iff_eq_none] at h
  obtain ⟨hact, hstop⟩ := h
  refine ⟨fun thread sid d _ he => ?_, fun sid _ _ _ hsid => ?_⟩
  · rw [he] at hact
    exact absurd hact.symm Bool.false_ne_true
  · exact absurd (hstop.symm.trans hsid) (Option.some_ne_none sid).symm

/-- A /play and most of a /stop. -/
def stoppingVideo : List Event :=
  [.reverse ⟨fun _ => some 5⟩] ++ plays 0 (bytes "a") (bytes "m") ++
    .stop 0 (bytes "a") :: List.replicate 3 (.resume 0 true)

/-- What comes after the /stop: its last step, a response to no request, a segment. -/
def lateSegment : List Event :=
  [.resume 0 true, .action 1 (bytes "a") {url := bytes "m", requestId := 5, playlist := bytes "x"},
    .action 1 (bytes "a") {url := bytes "s", requestId := 1, playlist := bytes "x"}, .resume 1 true]

theorem late_segment_stopped :
    StaysStopped (fun b => b) 7100 (stoppingVideo ++ lateSegment) := by
  have hcalm : (halting (fun b => b) 7100).Meets (fun w e => calm w e = true)
      ({}, fun _ => false) stoppingVideo := by decide
  apply stays_stopped
  refine Machine.meets_append.mpr ⟨hcalm.mono fun _ _ => settled_of_calm,
    ⟨fun _ _ _ _ he => Event.noConfusion he, ?_⟩, ⟨?_, fun _ _ _ _ he => ?_⟩,
    ⟨?_, fun _ _ _ _ he => ?_⟩, settled_of_calm (by decide), trivial⟩
  · -- only the /stop itself is running
    intro sid thread h hls _ hrun _
    obtain ⟨hh, -⟩ := Receiver.running_eq_some.mp hrun
    by_cases hthread : thread = 0
    · subst hthread
      rw [← Option.some.inj hh]
      rfl
    · have hidle := @Receiver.run_threads (fun b => b) 7100 {} thread stoppingVideo ?_
      · exact absurd (hidle.symm.trans hh) (Option.some_ne_none h).symm
      · have hevents : ∀ e ∈ stoppingVideo, ∀ t, e.thread = some t → t = 0 := by decide
        exact fun e he ht => hthread (hevents e he thread ht)
  · intro thread sid d hls he _ haccepts
    obtain ⟨rfl, rfl, rfl⟩ := Event.action.inj he
    exact absurd haccepts (Option.some_ne_none hls).symm
  · exact absurd he (Option.some_ne_none _).symm
  · intro thread sid d hls he _ haccepts
    obtain ⟨rfl, rfl, rfl⟩ := Event.action.inj he
    rw [← Option.some.inj haccepts]
    rfl
  · exact absurd he (Option.some_ne_none _).symm

end AirPlay.Hls
