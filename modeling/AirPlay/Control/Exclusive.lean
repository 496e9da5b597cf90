import AirPlay.Library.Registry
import AirPlay.Control.Server

/-! One device at a time.

Streams come into being in one place only, the first SETUP that the guard lets
through. Two peers therefore hold streams together only if the guard let one of
them through while the other held streams that the slot did not show: set up by a
SETUP that has not published itself yet or has failed, or dropped from the slot by
another connection's end (`exclusive_of_admits`). -/
namespace AirPlay.Control
open Rtsp Registry

/-- No two peers both hold streams that were set up. -/
def Exclusive (s : Server) : Prop :=
  ∀ fd fd' c c' streams streams', s.sessions fd = some c → s.sessions fd' = some c' →
    c.streams = some streams → c'.streams = some streams' → streams.streamed → streams'.streamed →
    c.remoteIp = c'.remoteIp

/-- A first SETUP that the guard lets through finds no other peer with streams. -/
def Admits (s : Server) (e : Event) : Prop :=
  match e with
  | .setup fd _ parsed _ => ∀ c, s.reading fd = some c → c.streams = none → parsed ≠ none →
    refused c s.device = false →
    ∀ other c', s.sessions other = some c' → c'.streams ≠ none → c'.remoteIp = c.remoteIp
  | _ => True

/-- No two peers both hold streams. -/
def Sole (s : Server) : Prop :=
  ∀ fd fd' c c', s.sessions fd = some c → s.sessions fd' = some c' → c.streams ≠ none →
    c'.streams ≠ none → c.remoteIp = c'.remoteIp

theorem Sole.exclusive {s : Server} (h : Sole s) : Exclusive s := by
  intro fd fd' c c' streams streams' hc hc' hs hs' _ _
  refine h fd fd' c c' hc hc' ?_ ?_
  · rw [hs]
    exact Option.some_ne_none _
  · rw [hs']
    exact Option.some_ne_none _

/-! ### Where streams come from -/

/-- After a step a connection has streams because it had, or because it was admitted. -/
def Holds (s : Server) (e : Event) (fd : Int) (c' : ClientSession) : Prop :=
  (∃ c, s.sessions fd = some c ∧ c.streams ≠ none ∧ c'.remoteIp = c.remoteIp) ∨
    ∃ req parsed id c, e = .setup fd req (some parsed) id ∧ s.sessions fd = some c ∧
      c.handler = .reading ∧ c.streams = none ∧ refused c s.device = false ∧
      c'.remoteIp = c.remoteIp

theorem holds_put {s : Server} {e : Event} {fd fd' : Int} {c d c' : ClientSession}
    (hc : s.sessions fd = some c) (hc' : Function.update s.sessions fd (some d) fd' = some c')
    (hne : c'.streams ≠ none) (hip : d.remoteIp = c.remoteIp)
    (hstreams : d.streams ≠ none → c.streams ≠ none) :
    Holds s e fd' c' := by
  rcases update_eq_some.mp hc' with ⟨rfl, hnew⟩ | ⟨-, hold⟩
  · rw [← Option.some.inj hnew] at hne ⊢
    exact .inl ⟨c, hc, hstreams hne, hip⟩
  · exact .inl ⟨c', hold, hne, rfl⟩

theorem holds_works {s s' : Server} {e : Event} (h : Works s e s') {fd' : Int}
    {c' : ClientSession} (hc' : s'.sessions fd' = some c') (hne : c'.streams ≠ none) :
    Holds s e fd' c' := by
  cases h with
  | stays => exact .inl ⟨c', hc', hne, rfl⟩
  | @admits fd c req parsed id he h hc hread hnone hpass =>
    rcases update_eq_some.mp hc' with ⟨rfl, hnew⟩ | ⟨-, hold⟩
    · rw [← Option.some.inj hnew]
      exact .inr ⟨req, parsed, id, c, he, hc, hread, hnone, hpass, rfl⟩
    · exact .inl ⟨c', hold, hne, rfl⟩
  | @advances fd c streams h hc hlive hsame =>
    refine holds_put hc hc' hne rfl fun hs hcs => hs ?_
    rw [hcs, Option.map_none] at hsame
    exact Option.map_eq_none_iff.mp hsame
  | resets r hc => exact holds_put hc hc' hne rfl fun hs => absurd rfl hs
  | publishes r dev hc | clears r hc => exact holds_put hc hc' hne rfl id

theorem holds_step (s : Server) (e : Event) {fd' : Int} {c' : ClientSession}
    (hc' : (s.step e).sessions fd' = some c') (hne : c'.streams ≠ none) : Holds s e fd' c' := by
  by_cases he : e.Handled
  · exact holds_works (Server.step_works s e he) hc' hne
  have hsame : s.sessions fd' = some c' → Holds s e fd' c' := fun hold => .inl ⟨c', hold, hne, rfl⟩
  cases Server.step_moves s e he with
  | rests hs => exact hsame (hs ▸ hc')
  | opens fd remoteIp hs =>
    rw [hs, update_eq_some] at hc'
    rcases hc' with ⟨-, hnew⟩ | ⟨-, hold⟩
    · rw [← Option.some.inj hnew] at hne
      exact absurd rfl hne
    · exact hsame hold
  | reads hc hread hip hstreams hs =>
    exact holds_put hc (hs ▸ hc') hne hip fun hstreams' => hstreams ▸ hstreams'
  | ends session hc hs =>
    rw [hs] at hc'
    exact holds_put hc hc' hne rfl fun hstreams => absurd rfl hstreams
  | leaves fd hs =>
    rw [hs, update_eq_some] at hc'
    rcases hc' with ⟨-, hnew⟩ | ⟨-, hold⟩
    · exact absurd hnew (Option.some_ne_none c').symm
    · exact hsame hold

theorem sole_step {s : Server} {e : Event} (h : Sole s) (hadm : Admits s e) :
    Sole (s.step e) := by
  intro fd fd' d d' hd hd' hs hs'
  rcases holds_step s e hd hs with
    ⟨c, hc, hcs, hip⟩ | ⟨req, p, id, c, he, hc, hread, hnone, hpass, hip⟩
  · rcases holds_step s e hd' hs' with
      ⟨c', hc', hcs', hip'⟩ | ⟨req', p', id', c', he', hc', hread', hnone', hpass', hip'⟩
    · rw [hip, hip', h fd fd' c c' hc hc' hcs hcs']
    · subst he'
      rw [hip, hip']
      exact hadm c' (Server.reading_eq_some.mpr ⟨hc', hread'⟩) hnone' (Option.some_ne_none p')
        hpass' fd c hc hcs
  · subst he
    rcases holds_step s _ hd' hs' with
      ⟨c', hc', hcs', hip'⟩ | ⟨_, _, _, c', he', hc', -, -, -, hip'⟩
    · rw [hip, hip']
      exact (hadm c (Server.reading_eq_some.mpr ⟨hc, hread⟩) hnone (Option.some_ne_none p) hpass
        fd' c' hc' hcs').symm
    · obtain ⟨rfl, -, -, -⟩ := Event.setup.inj he'
      rw [hip, hip', Option.some.inj (hc.symm.trans hc')]

/-! ### Once two peers hold streams, both can go on -/

/-- Who has left the read loop has no streams. -/
def Gone (s : Server) : Prop := ∀ fd c, s.sessions fd = some c → c.Ended → c.streams = none

theorem gone_put {s s' : Server} (h : Gone s) {fd : Int} {c : ClientSession}
    (hs : s'.sessions = Function.update s.sessions fd (some c))
    (hc : c.Ended → c.streams = none) : Gone s' := by
  intro fd' d hd hended
  rw [hs, update_eq_some] at hd
  rcases hd with ⟨-, hnew⟩ | ⟨-, hold⟩
  · rw [← Option.some.inj hnew] at hended ⊢
    exact hc hended
  · exact h fd' d hold hended

theorem gone_step (s : Server) (e : Event) (h : Gone s) : Gone (s.step e) := by
  by_cases he : e.Handled
  · rcases (Server.step_works s e he).frame with hs | ⟨fd, c, c', slot, -, hs, -, hlive, -⟩
    · rw [hs]
      exact h
    · exact gone_put h (by rw [hs]; rfl) fun hended => absurd hended hlive
  cases Server.step_moves s e he with
  | rests hs =>
    intro fd d hd
    rw [hs] at hd
    exact h fd d hd
  | opens fd remoteIp hs => exact gone_put h hs fun _ => rfl
  | reads hc hread hip hstreams hs =>
    exact gone_put h hs fun hended => absurd hended (Server.reading_live hread)
  | ends session hc hs => exact gone_put h hs fun _ => rfl
  | leaves fd hs =>
    intro fd' d hd hended
    rw [hs, update_eq_some] at hd
    rcases hd with ⟨-, hnew⟩ | ⟨-, hold⟩
    · exact absurd hnew (Option.some_ne_none d).symm
    · exact h fd' d hold hended

/-- A handler whose sockets cannot be bound is done after two steps at the latest. -/
theorem resume_twice (slot slot' : Option DeviceInfo) {c : ClientSession} (h : ¬ c.Ended) :
    (resume slot' (resume slot c false).1 false).1 = {c with handler := .reading} := by
  obtain ⟨remoteIp, fd, reverseSessionId, streams, handler⟩ := c
  cases handler with
  | ended session => exact absurd ⟨session, rfl⟩ h
  | settingStreams r parsed left => cases left <;> rfl
  | reading | settingSession | playing | publishing | clearing => rfl

theorem step_resume {s : Server} {fd : Int} {c : ClientSession} (hc : s.sessions fd = some c)
    (bound : Bool) :
    (s.step (.resume fd bound)).sessions fd = some (resume s.device c bound).1 := by
  rw [Server.step, hc]
  exact Function.update_self ..

theorem step_setup {s : Server} {fd : Int} {c : ClientSession} (hc : s.reading fd = some c)
    (req : Request) (parsed : Option Airplay2SetupRequest) (id : Bytes) :
    (s.step (.setup fd req parsed id)).sessions fd =
      some (setupAirplay2Path s.device c req parsed id).1 := by
  rw [Server.step, hc]
  exact Function.update_self ..

/-- The guard does not look at a connection that has streams. -/
theorem setup_again (slot : Option DeviceInfo) {c : ClientSession} {streams : StreamSession}
    (hs : c.streams = some streams) (req : Request) (id : Bytes) :
    ∃ r parsed, (setupAirplay2Path slot c req (some {hasStreams := true, streams := [110]}) id).1 =
      {c with handler := .settingStreams r parsed [110]} := by
  have hpass : refused c slot = false := by rw [refused, hs, Option.isNone_some, Bool.false_and]
  simp only [setupAirplay2Path, hpass, hs, Option.getD_some, Bool.false_eq_true, if_false]
  exact ⟨_, _, rfl⟩

/-- What the first SETUP does that is let through. -/
theorem setup_admitted {slot : Option DeviceInfo} {c : ClientSession} (hread : c.handler = .reading)
    (hnone : c.streams = none) (hpass : refused c slot = false) (req : Request)
    (parsed : Airplay2SetupRequest) (id : Bytes) :
    (setupAirplay2Path slot c req (some parsed) id).1.remoteIp = c.remoteIp ∧
      (setupAirplay2Path slot c req (some parsed) id).1.streams = some {sessionId := id} ∧
      ¬ (setupAirplay2Path slot c req (some parsed) id).1.Ended := by
  simp only [setupAirplay2Path, hpass, hnone, Option.getD_none, Bool.false_eq_true, if_false]
  split
  · split
    · exact ⟨rfl, rfl, Server.reading_live hread⟩
    · exact ⟨rfl, rfl, fun hended => hended.elim fun _ he => Handler.noConfusion he⟩
  · exact ⟨rfl, rfl, fun hended => hended.elim fun _ he => Handler.noConfusion he⟩

/-- What a connection with streams can always do: finish, and set up a stream. -/
def oneMore (fd : Int) : List Event :=
  [.resume fd false, .resume fd false,
    .setup fd {} (some {hasStreams := true, streams := [110]}) [], .resume fd true]

theorem run_oneMore {s : Server} {fd : Int} {c : ClientSession} {streams : StreamSession}
    (hc : s.sessions fd = some c) (hs : c.streams = some streams) (hlive : ¬ c.Ended) :
    ∃ c', (Server.machine.run s (oneMore fd)).sessions fd = some c' ∧
      c'.remoteIp = c.remoteIp ∧ c'.streams = some (streams.setupStream 110) := by
  have hdone : (Server.machine.run s [.resume fd false, .resume fd false]).sessions fd =
      some {c with handler := .reading} := by
    refine (step_resume (step_resume hc false) false).trans ?_
    rw [resume_twice _ _ hlive]
  have hsetup := step_setup (Server.reading_eq_some.mpr ⟨hdone, rfl⟩) {}
    (some {hasStreams := true, streams := [110]}) []
  obtain ⟨r, parsed, hagain⟩ := setup_again
    (Server.machine.run s [.resume fd false, .resume fd false]).device
    (c := {c with handler := .reading}) hs {} []
  rw [hagain] at hsetup
  refine ⟨_, step_resume hsetup true, rfl, ?_⟩
  show c.streams.map _ = _
  rw [hs]
  rfl

/-- Two peers that both hold streams can both have set one up. -/
theorem both_stream {s : Server} (h : Gone s) {fd fd' : Int} {c c' : ClientSession}
    (hc : s.sessions fd = some c) (hc' : s.sessions fd' = some c') (hs : c.streams ≠ none)
    (hs' : c'.streams ≠ none) (hpeer : c.remoteIp ≠ c'.remoteIp) :
    ∃ more, ¬ Exclusive (Server.machine.run s more) := by
  obtain ⟨streams, hs⟩ := Option.ne_none_iff_exists'.mp hs
  obtain ⟨streams', hs'⟩ := Option.ne_none_iff_exists'.mp hs'
  have hlive : ∀ {fd c streams}, s.sessions fd = some c → c.streams = some streams → ¬ c.Ended :=
    fun hc hs hended => absurd ((h _ _ hc hended).symm.trans hs) (Option.some_ne_none _).symm
  have hne : fd ≠ fd' := by
    rintro rfl
    exact hpeer (congrArg ClientSession.remoteIp (Option.some.inj (hc.symm.trans hc')))
  have hother : ∀ {fd fd' : Int}, fd ≠ fd' → ∀ e ∈ oneMore fd', fd ≠ e.fd := by
    intro fd fd' hne e he
    simp only [oneMore, List.mem_cons, List.not_mem_nil, or_false] at he
    rcases he with rfl | rfl | rfl | rfl <;> exact hne
  obtain ⟨d, hd, hdip, hdstreams⟩ := run_oneMore hc hs (hlive hc hs)
  have hc1 : (Server.machine.run s (oneMore fd)).sessions fd' = some c' := by
    rw [Server.run_other _ _ (hother hne.symm), hc']
  obtain ⟨d', hd', hdip', hdstreams'⟩ := run_oneMore hc1 hs' (hlive hc' hs')
  have hd1 : (Server.machine.run s (oneMore fd ++ oneMore fd')).sessions fd = some d := by
    rw [Machine.run_append, Server.run_other _ _ (hother hne), hd]
  refine ⟨oneMore fd ++ oneMore fd', fun hexcl => hpeer ?_⟩
  rw [← hdip, ← hdip']
  rw [← Machine.run_append] at hd'
  exact hexcl fd fd' d d' _ _ hd1 hd' hdstreams hdstreams' rfl rfl

theorem gone_empty : Gone {} := fun _ c hc => absurd hc (Option.some_ne_none c).symm

/-- No two peers both hold streams that were set up, as long as no first SETUP is let
through while another peer holds streams; and once one is, both can set up a stream. -/
theorem exclusive_of_admits (es : List Event) :
    (Server.machine.Meets Admits {} es → Server.machine.Always Exclusive {} es) ∧
      ∀ e, ¬ Admits (Server.machine.run {} es) e →
        ∃ more, ¬ Exclusive (Server.machine.run {} (es ++ e :: more)) := by
  constructor
  · intro hadm
    refine Machine.Always.mono (fun _ => Sole.exclusive)
      (Machine.always_of_meets (fun s e h => sole_step h) (fun fd fd' c c' hc => ?_) hadm)
    exact absurd hc (Option.some_ne_none c).symm
  · intro e hbad
    obtain ⟨s, hrun⟩ : ∃ s, Server.machine.run {} es = s := ⟨_, rfl⟩
    have hgone : Gone s := hrun ▸ Machine.run_keeps gone_step es gone_empty
    rw [hrun] at hbad
    cases e with
    | setup fd req parsed id =>
      rw [Admits] at hbad
      push Not at hbad
      obtain ⟨c, hr, hnone, hparsed, hpass, other, c', hc', hs', hpeer⟩ := hbad
      obtain ⟨parsed, rfl⟩ := Option.ne_none_iff_exists'.mp hparsed
      obtain ⟨hc, hread⟩ := Server.reading_eq_some.mp hr
      obtain ⟨hip, hstreams, hlive⟩ := setup_admitted hread hnone hpass req parsed id
      have hne : other ≠ fd := by
        rintro rfl
        exact hs' (Option.some.inj (hc.symm.trans hc') ▸ hnone)
      obtain ⟨more, hmore⟩ := both_stream (gone_step s (.setup fd req (some parsed) id) hgone)
        (step_setup hr req (some parsed) id)
        ((Server.step_other s (.setup fd req (some parsed) id) hne).trans hc')
        (by rw [hstreams]; exact Option.some_ne_none _) hs' (by rw [hip]; exact hpeer.symm)
      refine ⟨more, ?_⟩
      rw [Machine.run_append, hrun]
      exact hmore
    | _ => exact absurd trivial hbad

/-- Two phones whose first SETUPs overlap. -/
def overlapping : List Event :=
  [.accepted 5 (bytes "10.0.0.2"), .accepted 6 (bytes "10.0.0.3"),
    .setup 5 {} (some {hasStreams := true, streams := [110]}) (bytes "1000000"),
    .setup 6 {} (some {hasStreams := true, streams := [110]}) (bytes "1000001"),
    .resume 5 true, .resume 6 true]

theorem overlapping_both_stream : ¬ Server.machine.Always Exclusive {} overlapping := by
  intro h
  have hexcl := Machine.always_iff_prefix.mp h overlapping (List.prefix_refl _)
  have := hexcl 5 6 _ _ _ _ rfl rfl rfl rfl rfl rfl
  exact absurd this (by decide)

/-- A SETUP of a mirror stream. -/
def mirrors (fd : Int) (id : Bytes) : Event :=
  .setup fd {} (some {hasStreams := true, streams := [110]}) id

/-- One phone after the other: the second one is refused while the first one mirrors, and let
through when it has torn its streams down. -/
def following : List Event :=
  [.accepted 5 (bytes "10.0.0.2"), .accepted 6 (bytes "10.0.0.3"), mirrors 5 (bytes "1000000"),
    .resume 5 true, .resume 5 true, .resume 5 true, mirrors 6 (bytes "1000001"),
    .teardown 5 {} none, .resume 5 true, mirrors 6 (bytes "1000002"), .resume 6 true]

/-- Where neither of the two has streams, nobody has. -/
theorem nobody_streams {pre : List Event} (hpre : pre <+: following)
    (h : ∀ fd, fd = 5 ∨ fd = 6 →
      (((Server.machine.run {} pre).sessions fd).bind ClientSession.streams) = none) :
    ∀ fd c, (Server.machine.run {} pre).sessions fd = some c → c.streams = none := by
  intro fd c hc
  by_cases hfd : fd = 5 ∨ fd = 6
  · have hnone := h fd hfd
    rwa [hc, Option.bind_some] at hnone
  · have hother : ∀ e ∈ following, fd ≠ e.fd := by
      rw [not_or] at hfd
      simp [following, mirrors, Event.fd, hfd]
    rw [Server.run_other _ _ fun e he => hother e (hpre.subset he)] at hc
    exact absurd hc (Option.some_ne_none c).symm

theorem following_exclusive : Server.machine.Always Exclusive {} following ∧
    ((Server.machine.run {} (following.take 7)).sessions 6).map (·.streams.isSome) = some false ∧
    ((Server.machine.run {} following).sessions 6).map (·.streams.isSome) = some true := by
  refine ⟨(exclusive_of_admits following).1 ⟨trivial, trivial, fun c _ _ _ _ other c' hc' hs' => ?_,
    trivial, trivial, trivial, fun c hc _ _ hpass => ?_, trivial, trivial,
    fun c _ _ _ _ other c' hc' hs' => ?_, trivial, trivial⟩, rfl, rfl⟩
  · have hnone := @nobody_streams (following.take 2) (List.take_prefix 2 _) (by
      rintro fd (rfl | rfl) <;> rfl)
    exact absurd (hnone other c' hc') hs'
  · obtain rfl := Option.some.inj hc
    exact absurd hpass (by decide)
  · have hnone := @nobody_streams (following.take 9) (List.take_prefix 9 _) (by
      rintro fd (rfl | rfl) <;> rfl)
    exact absurd (hnone other c' hc') hs'

end AirPlay.Control
