import AirPlay.Hls.Stopped

/-! A refresh of a playlist that fails.

A refresh takes the playlist out of its session, waits for another one and puts the old
one back if none comes. The cache is compared with what the other operations alone make of
it: the same steps of the other handlers, from the time when the refresh begins, on
playlists that it never touches. -/
namespace AirPlay.Hls
open Registry

namespace Handler

/-- The playlist that a refresh has taken out. -/
def previous : Handler → Option Bytes
  | registeringPlaylist _ _ _ previous | waitingPlaylist _ _ previous => previous
  | _ => none

def withPrevious (previous : Option Bytes) : Handler → Handler
  | registeringPlaylist sid url id _ => registeringPlaylist sid url id previous
  | waitingPlaylist sid url _ => waitingPlaylist sid url previous
  | h => h

/-- The handler's next step looks into the cache for a playlist. -/
def looks : Handler → Bool
  | checkingPlaylist _ _ _ _ => true
  | _ => false

/-- A fetch of the playlist that has looked into the cache. -/
def refreshes (sid url : Bytes) : Handler → Bool
  | registeringPlaylist sid' url' _ _ | waitingPlaylist sid' url' _ => sid' = sid ∧ url' = url
  | _ => false

/-- The handler's next step may clear, store, take out or put back the playlist. -/
def touches (sid url : Bytes) : Handler → Bool
  | resetting sid' _ | quieting sid' => sid' = sid
  | localising sid' d _ _ [] => sid' = sid ∧ d.url = url
  | checkingPlaylist sid' url' force _ => sid' = sid ∧ url' = url ∧ force
  | waitingPlaylist sid' url' previous => sid' = sid ∧ url' = url ∧ previous.isSome
  | _ => false

theorem withPrevious_previous (h : Handler) : h.withPrevious h.previous = h := by
  cases h <;> rfl

theorem withPrevious_sid (h : Handler) (previous : Option Bytes) :
    (h.withPrevious previous).sid = h.sid := by
  cases h <;> rfl

end Handler

/-- The playlists of each session. -/
def Receiver.playlists (s : Receiver) (sid : Bytes) : Bytes → Option Bytes :=
  (s.registry.sessions sid).elim (fun _ => none) (·.mediaPlaylists)

/-- What the other operations alone make of the playlists. -/
structure Alone where
  playlists : Bytes → Bytes → Option Bytes := fun _ _ => none
  /-- What the other refreshes have taken out. -/
  previous : Nat → Option Bytes := fun _ => none
  /-- What the last operation on the playlist in question left there. -/
  last : Option (Option Bytes) := none

section Shadow
variable (expand : Bytes → Bytes) (localPort : Nat) (refresh : Nat) (sid url : Bytes)

/-- Everything as it is. -/
def Alone.of (s : Receiver) : Alone where
  playlists := s.playlists
  previous thread := (s.threads thread).bind Handler.previous

/-- The step of another handler. -/
def Alone.work (thread : Nat) (ok : Bool) (h : Handler) (hls : HlsSession) (g : Alone) : Alone :=
  let h := h.withPrevious (g.previous thread)
  let (hls, next) := h.work expand localPort ok {hls with mediaPlaylists := g.playlists h.sid}
  let playlists := Function.update g.playlists h.sid hls.mediaPlaylists
  { playlists
    previous := Function.update g.previous thread (next.bind Handler.previous)
    last := if h.touches sid url then some (playlists sid url) else g.last }

/-- The refresh begins when it looks into the cache. -/
def noteAlone (s : Receiver) (e : Event) (g : Alone) : Alone :=
  match e with
  | .resume thread ok => match s.running thread with
    | some (h, hls) =>
      if thread ≠ refresh then g.work expand localPort sid url thread ok h hls
      else if h.looks then .of s
      else g
    | none => g
  | _ => g

end Shadow

/-- While the refresh has taken nothing out the playlists are what the others make of them. The
playlist in question is what the last of them left, or what the refresh has taken out. -/
structure Follows (refresh : Nat) (sid url : Bytes) (w : Receiver × Alone) : Prop where
  coupled : ∀ h, w.1.threads refresh = some h → h.refreshes sid url = true → h.previous = none →
    w.2.playlists = w.1.playlists ∧ ∀ thread h', thread ≠ refresh →
      w.1.threads thread = some h' → h'.withPrevious (w.2.previous thread) = h'
  left : ∀ h, w.1.threads refresh = some h → h.refreshes sid url = true →
    w.2.playlists sid url = w.2.last.getD h.previous

section Steps
variable {expand : Bytes → Bytes} {localPort refresh : Nat} {sid url : Bytes}

theorem playlists_of_session {s : Receiver} {hls : HlsSession}
    (hf : s.registry.sessions sid = some hls) : s.playlists sid = hls.mediaPlaylists := by
  rw [Receiver.playlists, hf, Option.elim_some]

theorem playlists_update {s s' : Receiver} {hls : HlsSession}
    (hs : s'.registry.sessions = Function.update s.registry.sessions sid (some hls)) :
    s'.playlists = Function.update s.playlists sid hls.mediaPlaylists := by
  funext other
  rw [Receiver.playlists, hs]
  by_cases h : other = sid
  · rw [h, Function.update_self, Function.update_self, Option.elim_some]
  · rw [Function.update_of_ne h, Function.update_of_ne h, Receiver.playlists]

/-- A handler that does not touch the playlist leaves it. -/
theorem work_untouched (h : Handler) (ok : Bool) (hls : HlsSession)
    (ht : h.touches sid url = false) (hs : h.sid = sid) :
    (h.work expand localPort ok hls).1.mediaPlaylists url = hls.mediaPlaylists url := by
  cases h with
  | resetting sid' url' => exact absurd (of_decide_eq_false ht) (not_not_intro hs)
  | quieting sid' => exact absurd (of_decide_eq_false ht) (not_not_intro hs)
  | storing sid' d generation =>
    rw [Handler.work]
    split
    · rfl
    split
    · rfl
    split <;> rfl
  | localising sid' d generation out left =>
    rcases left with - | ⟨_ | _, left⟩
    · have hne : url ≠ d.url := fun h => of_decide_eq_false ht ⟨hs, h.symm⟩
      exact Function.update_of_ne hne ..
    · rfl
    · rfl
  | checkingPlaylist sid' url' force id =>
    rw [Handler.work]
    cases hls.mediaPlaylists url' with
    | none => rfl
    | some playlist =>
      cases force with
      | false => rfl
      | true =>
        have hne : url ≠ url' := fun h => of_decide_eq_false ht ⟨hs, h.symm, rfl⟩
        exact Function.update_of_ne hne ..
  | waitingPlaylist sid' url' previous =>
    rw [Handler.work]
    split
    · rfl
    · cases previous with
      | none => rfl
      | some playlist =>
        have hne : url ≠ url' := fun h => of_decide_eq_false ht ⟨hs, h.symm, rfl⟩
        exact Function.update_of_ne hne ..
  | checkingSegment sid' url' id =>
    rw [Handler.work]
    cases htake : Handler.takeSegment url' hls with
    | none => rfl
    | some hls' =>
      obtain ⟨data, redirect, rfl⟩ := Handler.takeSegment_frame htake
      rfl
  | waitingSegment sid' url' =>
    rw [Handler.work]
    cases htake : Handler.takeSegment url' hls with
    | none => cases ok <;> rfl
    | some hls' =>
      obtain ⟨data, redirect, rfl⟩ := Handler.takeSegment_frame htake
      cases ok <;> rfl
  | _ => rfl

/-- A refresh comes from a look into the cache, which is all it changes. -/
theorem work_refreshes {h next : Handler} {ok : Bool} {hls : HlsSession}
    (hnext : (h.work expand localPort ok hls).2 = some next)
    (hr : next.refreshes sid url = true) :
    (∃ force id, h = .checkingPlaylist sid url force id ∧
        next.previous = hls.mediaPlaylists url ∧
        (next.previous = none →
          (h.work expand localPort ok hls).1.mediaPlaylists = hls.mediaPlaylists)) ∨
      (h.refreshes sid url = true ∧ next.previous = h.previous ∧
        (h.work expand localPort ok hls).1.mediaPlaylists = hls.mediaPlaylists ∧
        h.looks = false) := by
  cases Handler.work_leads hnext with
  | @checkingPlaylist sid' url' force id =>
    obtain ⟨rfl, rfl⟩ := of_decide_eq_true hr
    refine .inl ⟨force, id, rfl, rfl, ?_⟩
    intro hnone
    rw [Handler.work, show hls.mediaPlaylists url' = none from hnone]
  | registeringPlaylist => exact .inr ⟨hr, rfl, rfl, rfl⟩
  | _ => exact absurd hr Bool.false_ne_true

/-- New calls leave the playlists, and are not refreshes. -/
theorem call_alone (s : Receiver) (e : Event) (hres : ∀ thread ok, e ≠ .resume thread ok) :
    (s.step expand localPort e).playlists = s.playlists ∧
      ∀ thread h, (s.step expand localPort e).threads thread = some h →
        s.threads thread = some h ∨
          (∀ previous, h.withPrevious previous = h) ∧ h.refreshes sid url = false := by
  have hput : ∀ {s' : Receiver} {sid' : Bytes} {a b : HlsSession},
      s.registry.sessions sid' = some a →
      s'.registry.sessions = Function.update s.registry.sessions sid' (some b) →
      b.mediaPlaylists = a.mediaPlaylists → s'.playlists = s.playlists := by
    intro s' sid' a b ha hs hsame
    rw [playlists_update hs, hsame, ← playlists_of_session ha, Function.update_eq_self]
  have hnew : ∀ {s' : Receiver} {thread : Nat} {next : Handler},
      s'.threads = Function.update s.threads thread (some next) →
      (∀ previous, next.withPrevious previous = next) ∧ next.refreshes sid url = false →
      ∀ other h, s'.threads other = some h → s.threads other = some h ∨
        (∀ previous, h.withPrevious previous = h) ∧ h.refreshes sid url = false := by
    intro s' thread next ht hplain other h hh
    rw [ht] at hh
    rcases update_eq_some.mp hh with ⟨-, hthis⟩ | ⟨-, hold⟩
    · rw [← Option.some.inj hthis]
      exact .inr hplain
    · exact .inl hold
  cases @Receiver.step_moves expand localPort s e with
  | rests hs ht =>
    refine ⟨?_, fun _ _ hh => .inl (ht ▸ hh)⟩
    funext other
    rw [Receiver.playlists, hs, Receiver.playlists]
  | opens thread sid' url' he hs ht =>
    refine ⟨?_, hnew ht ⟨fun _ => rfl, rfl⟩⟩
    have hsame : ((s.registry.sessions sid').getD {}).mediaPlaylists = s.playlists sid' := by
      rw [Receiver.playlists]
      cases s.registry.sessions sid' <;> rfl
    rw [playlists_update hs, hsame, Function.update_eq_self]
  | stops thread sid' he hs ht =>
    refine ⟨?_, hnew ht ⟨fun _ => rfl, rfl⟩⟩
    funext other
    rw [Receiver.playlists, hs, Receiver.playlists]
  | delivers thread sid' d a he ha hcurrent hs ht =>
    refine ⟨hput ha hs ?_, hnew ht ⟨fun _ => rfl, rfl⟩⟩
    obtain ⟨generations, hconsume⟩ := consume_frame a d
    rw [hconsume]
  | fetches thread sid' a h he ha hs ht =>
    refine ⟨hput ha hs rfl, hnew ht ?_⟩
    rcases he with ⟨url', force, order, -, rfl⟩ | ⟨url', order, -, rfl⟩
    · exact ⟨fun _ => rfl, rfl⟩
    · exact ⟨fun _ => rfl, rfl⟩
  | works thread ok h a he => exact absurd he (hres thread ok)
  | drops thread hs ht he =>
    obtain ⟨ok, he⟩ := he
    exact absurd he (hres thread ok)

theorem follows_call (s : Receiver) (g : Alone) (e : Event)
    (hres : ∀ thread ok, e ≠ .resume thread ok) (h : Follows refresh sid url (s, g)) :
    Follows refresh sid url (s.step expand localPort e, g) := by
  obtain ⟨hplaylists, hthreads⟩ := @call_alone expand localPort sid url s e hres
  have hold : ∀ h', (s.step expand localPort e).threads refresh = some h' →
      h'.refreshes sid url = true → s.threads refresh = some h' := by
    intro h' hh hr
    rcases hthreads refresh h' hh with hold | ⟨-, hnot⟩
    · exact hold
    · exact absurd (hnot.symm.trans hr) Bool.false_ne_true
  refine ⟨fun h' hh hr hprev => ?_, fun h' hh hr => h.left h' (hold h' hh hr) hr⟩
  obtain ⟨hsame, hothers⟩ := h.coupled h' (hold h' hh hr) hr hprev
  refine ⟨hsame.trans hplaylists.symm, fun thread other hne hother => ?_⟩
  rcases hthreads thread other hother with hbefore | ⟨hplain, -⟩
  · exact hothers thread other hne hbefore
  · exact hplain _

/-- The refresh itself takes a step. -/
theorem follows_refresh {s s' : Receiver} {g : Alone} {ok : Bool} {h : Handler} {hls : HlsSession}
    (hh : s.threads refresh = some h) (hf : s.registry.sessions h.sid = some hls)
    (hs : s'.registry.sessions =
      Function.update s.registry.sessions h.sid (some (h.work expand localPort ok hls).1))
    (ht : s'.threads = Function.update s.threads refresh (h.work expand localPort ok hls).2)
    (hfollows : Follows refresh sid url (s, g)) :
    Follows refresh sid url (s', if h.looks then .of s else g) := by
  have hothers : ∀ {thread : Nat} {h' : Handler}, thread ≠ refresh → s'.threads thread = some h' →
      s.threads thread = some h' := by
    intro thread h' hne hh'
    rwa [ht, Function.update_of_ne hne] at hh'
  refine ⟨fun next hnext hr hprev => ?_, fun next hnext hr => ?_⟩
  · have hsame : (h.work expand localPort ok hls).1.mediaPlaylists = hls.mediaPlaylists →
        s'.playlists = s.playlists := by
      intro hkeep
      rw [playlists_update hs, hkeep, ← playlists_of_session hf, Function.update_eq_self]
    dsimp only at hnext
    rw [ht, Function.update_self] at hnext
    rcases work_refreshes hnext hr with ⟨force, id, rfl, -, hkeep⟩ | ⟨hold, heq, hkeep, hlooks⟩
    · refine ⟨(hsame (hkeep hprev)).symm, fun thread h' hne hh' => ?_⟩
      have hprevious : (Alone.of s).previous thread = h'.previous :=
        congrArg (Option.bind · Handler.previous) (hothers hne hh')
      show h'.withPrevious ((Alone.of s).previous thread) = h'
      rw [hprevious, Handler.withPrevious_previous]
    · rw [hlooks, if_neg Bool.false_ne_true]
      obtain ⟨hcoupled, hrest⟩ := hfollows.coupled h hh hold (heq.symm.trans hprev)
      exact ⟨hcoupled.trans (hsame hkeep).symm,
        fun thread h' hne hh' => hrest thread h' hne (hothers hne hh')⟩
  · dsimp only at hnext
    rw [ht, Function.update_self] at hnext
    rcases work_refreshes hnext hr with ⟨force, id, rfl, heq, -⟩ | ⟨hold, heq, -, hlooks⟩
    · rw [heq]
      exact congrFun (playlists_of_session hf) url
    · rw [hlooks, if_neg Bool.false_ne_true, heq]
      exact hfollows.left h hh hold

/-- Another handler takes a step. -/
theorem follows_other {s s' : Receiver} {g : Alone} {thread : Nat} {ok : Bool} {h : Handler}
    {hls : HlsSession} (hne : thread ≠ refresh) (hh : s.threads thread = some h)
    (hf : s.registry.sessions h.sid = some hls)
    (hs : s'.registry.sessions =
      Function.update s.registry.sessions h.sid (some (h.work expand localPort ok hls).1))
    (ht : s'.threads = Function.update s.threads thread (h.work expand localPort ok hls).2)
    (hfollows : Follows refresh sid url (s, g)) :
    Follows refresh sid url (s', g.work expand localPort sid url thread ok h hls) := by
  have hstill : s'.threads refresh = s.threads refresh := by
    rw [ht, Function.update_of_ne hne.symm]
  refine ⟨fun own hown hr hprev => ?_, fun own hown hr => ?_⟩
  · obtain ⟨hsame, hrest⟩ := hfollows.coupled own (hstill ▸ hown) hr hprev
    have hthis : h.withPrevious (g.previous thread) = h := hrest thread h hne hh
    have hhls : {hls with mediaPlaylists := g.playlists h.sid} = hls := by
      rw [show g.playlists = s.playlists from hsame, playlists_of_session hf]
    simp only [Alone.work, hthis, hhls]
    refine ⟨?_, fun other h' hother hh' => ?_⟩
    · rw [show g.playlists = s.playlists from hsame, playlists_update hs]
    · rw [ht] at hh'
      by_cases hthread : other = thread
      · subst hthread
        rw [Function.update_self] at hh' ⊢
        rw [hh', Option.bind_some, Handler.withPrevious_previous]
      · rw [Function.update_of_ne hthread] at hh' ⊢
        exact hrest other h' hother hh'
  · have hleft : g.playlists sid url = g.last.getD own.previous :=
      hfollows.left own (hstill ▸ hown) hr
    simp only [Alone.work]
    generalize hthis : h.withPrevious (g.previous thread) = h'
    have hsid : h'.sid = h.sid := by rw [← hthis, Handler.withPrevious_sid]
    cases htouches : h'.touches sid url with
    | true => rw [if_pos rfl, Option.getD_some]
    | false =>
      rw [if_neg Bool.false_ne_true, ← hleft]
      by_cases hthat : h'.sid = sid
      · subst hthat
        rw [Function.update_self, work_untouched h' ok _ htouches rfl]
      · rw [Function.update_of_ne (Ne.symm hthat)]

theorem playlists_work {s : Receiver} {thread : Nat} {ok : Bool} {h : Handler} {hls : HlsSession}
    (hrun : s.running thread = some (h, hls)) :
    (s.step expand localPort (.resume thread ok)).playlists =
      Function.update s.playlists h.sid (h.work expand localPort ok hls).1.mediaPlaylists := by
  rcases @resume_cases expand localPort s thread ok with
    ⟨hnone, -⟩ | ⟨h', hls', hrun', -, -, hs, -⟩
  · exact nomatch hnone.symm.trans hrun
  · obtain ⟨rfl, rfl⟩ := Prod.mk.inj (Option.some.inj (hrun.symm.trans hrun'))
    exact playlists_update hs

theorem follows_step (w : Receiver × Alone) (e : Event) (h : Follows refresh sid url w) :
    Follows refresh sid url
      (w.1.step expand localPort e, noteAlone expand localPort refresh sid url w.1 e w.2) := by
  obtain ⟨s, g⟩ := w
  cases e with
  | resume thread ok =>
    rcases @resume_cases expand localPort s thread ok with
      ⟨hnone, hs, hthreads⟩ | ⟨h', hls, hrun, hh, hf, hs, ht⟩
    · have hplaylists : (s.step expand localPort (.resume thread ok)).playlists = s.playlists := by
        funext other
        rw [Receiver.playlists, hs, Receiver.playlists]
      rw [noteAlone, hnone]
      refine ⟨fun own hown hr hprev => ?_, fun own hown hr => h.left own (hthreads _ _ hown) hr⟩
      obtain ⟨hsame, hrest⟩ := h.coupled own (hthreads _ _ hown) hr hprev
      exact ⟨hsame.trans hplaylists.symm,
        fun other h' hne hh => hrest other h' hne (hthreads other h' hh)⟩
    · rw [noteAlone, hrun]
      dsimp only
      by_cases hthread : thread = refresh
      · subst hthread
        rw [if_neg (not_not_intro rfl)]
        exact follows_refresh hh hf hs ht h
      · rw [if_pos hthread]
        exact follows_other hthread hh hf hs ht h
  | _ => exact follows_call s g _ (fun _ _ => nofun) h

end Steps

/-- The receiver, with what the operations other than one refresh make of the playlists. -/
def refreshing (expand : Bytes → Bytes) (localPort refresh : Nat) (sid url : Bytes) :
    Machine (Receiver × Alone) Event :=
  (Receiver.machine expand localPort).watched (noteAlone expand localPort refresh sid url)

section Runs
variable {expand : Bytes → Bytes} {localPort refresh : Nat} {sid url : Bytes}

theorem follows_run (es : List Event) :
    Follows refresh sid url ((refreshing expand localPort refresh sid url).run ({}, {}) es) := by
  apply @Machine.run_keeps _ _ (refreshing expand localPort refresh sid url)
  · exact fun w e h => follows_step w e h
  · exact ⟨nofun, nofun⟩

/-- When a refresh has failed the cache has what the other operations alone make of it exactly
when the refresh took nothing out, or none of the others has touched the playlist since, or the
last that did left there what the refresh had taken out. -/
theorem unharmed_iff (es : List Event) (ok : Bool) (previous : Option Bytes) (hls : HlsSession)
    (hrun : ((refreshing expand localPort refresh sid url).run ({}, {}) es).1.running refresh =
      some (.waitingPlaylist sid url previous, hls))
    (hfails : ¬ (ok = true ∧ (hls.mediaPlaylists url).isSome)) :
    let w := (refreshing expand localPort refresh sid url).run ({}, {}) es
    (w.1.step expand localPort (.resume refresh ok)).playlists sid url = w.2.playlists sid url ↔
      previous = none ∨ ∀ value ∈ w.2.last, value = previous := by
  intro w
  have hfollows : Follows refresh sid url w := follows_run es
  obtain ⟨hh, hf⟩ := Receiver.running_eq_some.mp hrun
  have hwaits : (Handler.waitingPlaylist sid url previous).refreshes sid url = true :=
    decide_eq_true ⟨rfl, rfl⟩
  have hentry : (w.1.step expand localPort (.resume refresh ok)).playlists sid url =
      (Handler.restore url previous hls).mediaPlaylists url := by
    have hstep := @playlists_work expand localPort _ refresh ok _ _ hrun
    rw [hstep]
    show Function.update w.1.playlists sid _ sid url = _
    rw [Function.update_self, Handler.work, if_neg hfails]
  rw [hentry]
  cases previous with
  | none =>
    obtain ⟨hcoupled, -⟩ := hfollows.coupled _ hh hwaits rfl
    refine iff_of_true ?_ (.inl rfl)
    have hcache : w.1.playlists sid = hls.mediaPlaylists := playlists_of_session hf
    rw [hcoupled, hcache, Handler.restore]
  | some playlist =>
    have hleft : w.2.playlists sid url = w.2.last.getD (some playlist) :=
      hfollows.left _ hh hwaits
    rw [hleft, or_iff_right (Option.some_ne_none playlist)]
    show Function.update hls.mediaPlaylists url (some playlist) url = _ ↔ _
    rw [Function.update_self]
    cases w.2.last with
    | none => exact iff_of_true rfl (by simp)
    | some value =>
      rw [Option.getD_some]
      constructor
      · rintro rfl value hvalue
        exact (Option.some.inj hvalue).symm
      · intro h
        exact (h value rfl).symm

/-- A delivery of a playlist without URLs, and its store. -/
def stores (thread : Nat) (playlist : Bytes) : List Event :=
  answers thread (bytes "a") {url := bytes "p.m3u8", playlist} ++
    [.resume thread true, .resume thread true]

/-- A video with a playlist, and a refresh of it that has sent its request. -/
def refreshingVideo : List Event :=
  [.reverse ⟨fun _ => some 5⟩] ++ plays 0 (bytes "a") (bytes "m") ++ stores 2 (bytes "#x") ++
    [.fetchPlaylist 1 (bytes "p.m3u8") true [bytes "a"], .resume 1 true, .resume 1 true]

theorem unharmed_iff_timeout :
    (((refreshing id 7100 1 (bytes "a") (bytes "p.m3u8")).run ({}, {}) refreshingVideo).1.step
        id 7100 (.resume 1 true)).playlists (bytes "a") (bytes "p.m3u8") =
      ((refreshing id 7100 1 (bytes "a") (bytes "p.m3u8")).run ({}, {})
        refreshingVideo).2.playlists (bytes "a") (bytes "p.m3u8") := by
  obtain ⟨hls, hf⟩ : ∃ hls, ((refreshing id 7100 1 (bytes "a") (bytes "p.m3u8")).run ({}, {})
      refreshingVideo).1.registry.sessions (bytes "a") = some hls :=
    Option.isSome_iff_exists.mp (by decide)
  have hgone : ∀ hls, ((refreshing id 7100 1 (bytes "a") (bytes "p.m3u8")).run ({}, {})
      refreshingVideo).1.registry.sessions (bytes "a") = some hls →
        ¬ (true = true ∧ (hls.mediaPlaylists (bytes "p.m3u8")).isSome) := by decide
  have hlast : ∀ value ∈ ((refreshing id 7100 1 (bytes "a") (bytes "p.m3u8")).run ({}, {})
      refreshingVideo).2.last, value = some (bytes "#x") := by decide
  have hiff := @unharmed_iff id 7100 1 (bytes "a") (bytes "p.m3u8") refreshingVideo true
    (some (bytes "#x")) hls (Receiver.running_eq_some.mpr ⟨rfl, hf⟩) (hgone hls hf)
  exact hiff.mpr (.inr hlast)

/-- What the cache holds when the refresh has failed after some other operations, and what
these alone make of it. -/
def afterFailure (others : List Event) (ok : Bool) : Option Bytes × Option Bytes :=
  let w := (refreshing id 7100 1 (bytes "a") (bytes "p.m3u8")).run ({}, {})
    (refreshingVideo ++ others)
  ((w.1.step id 7100 (.resume 1 ok)).playlists (bytes "a") (bytes "p.m3u8"),
    w.2.playlists (bytes "a") (bytes "p.m3u8"))

/-- After a time-out the playlist of the last video is in the cache of the next one; after a send
that fails it stands over a newer one. -/
theorem failed_refresh_revives :
    afterFailure (plays 0 (bytes "a") (bytes "n")) true = (some (bytes "#x"), none) ∧
      afterFailure (stores 2 (bytes "#y")) false = (some (bytes "#x"), some (bytes "#y")) := by
  decide +kernel

end Runs

end AirPlay.Hls
