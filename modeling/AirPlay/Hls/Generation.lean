import AirPlay.Library.Registry
import AirPlay.Hls.Session

/-! Which playback a delivery belongs to.

A request id is registered with the generation of the playback it was sent for, and a
delivery that bears one is checked against the current generation and uses the id
up. The check and the store are apart: what is stored belongs to the current playback
as long as no /play has come between the two (`stored_current`). -/
namespace AirPlay.Hls
open Registry

/-! ### What has been registered, accepted and stored -/

/-- The request ids that were given out, those that came back, and what was stored. -/
structure Ledger where
  /-- Session, request id, generation. -/
  registered : List (Bytes × CInt × CInt) := []
  accepted : List (Bytes × CInt) := []
  /-- Session, request id of the delivery, generation at the moment of storing. -/
  stored : List (Bytes × BitVec 64 × CInt) := []

def Ledger.register (sid : Bytes) (id generation : CInt) (l : Ledger) : Ledger :=
  {l with registered := (sid, id, generation) :: l.registered}

/-- How often the session has registered the id. -/
def Ledger.registrations (sid : Bytes) (id : CInt) (l : Ledger) : Nat :=
  (l.registered.map fun r => (r.1, r.2.1)).count (sid, id)

/-- How the request id goes over the wire: an `int` where `plist_new_uint` takes 64 bits. -/
def wire (id : CInt) : BitVec 64 := id.signExtend 64

/-- What the handler's next step stores, and the generation its check read. -/
def Handler.stores (hls : HlsSession) : Handler → Option (Delivery × CInt)
  | .storing _ d generation =>
    if isMaster hls d.url || !isM3u8 d.url then some (d, generation) else none
  | .localising _ d generation _ [] => some (d, generation)
  | _ => none

/-- The handler's next step stores a playlist; with the master it starts the player. -/
def Handler.storesPlaylist (hls : HlsSession) : Handler → Bool
  | .storing _ d _ => isMaster hls d.url
  | .localising _ _ _ _ [] => true
  | _ => false

/-- What the handler's next step registers. -/
def Handler.registersId (hls : HlsSession) : Handler → Option (CInt × CInt)
  | .registering _ generation masterRequestId => some (masterRequestId, generation)
  | .registeringPlaylist _ _ requestId _ | .registeringSegment _ _ requestId =>
    some (requestId, hls.playbackGeneration)
  | _ => none

/-- The handler on a thread and its session. -/
def Receiver.running (s : Receiver) (thread : Nat) : Option (Handler × HlsSession) :=
  (s.threads thread).bind fun h => (s.registry.find h.sid).map fun hls => (h, hls)

/-- The session of a delivery that passes the check. -/
def Receiver.accepts (s : Receiver) (thread : Nat) (sid : Bytes) (d : Delivery) :
    Option HlsSession :=
  if (s.threads thread).isSome then none
  else (s.registry.find sid).filter fun hls => current hls d

def noteWork (h : Handler) (hls : HlsSession) (l : Ledger) : Ledger :=
  let l := match h.registersId hls with
    | none => l
    | some (id, generation) => l.register h.sid id generation
  match h.stores hls with
  | none => l
  | some (d, _) =>
    if d.requestId = 0 then l
    else {l with stored := (h.sid, d.requestId, hls.playbackGeneration) :: l.stored}

def note (s : Receiver) (e : Event) (l : Ledger) : Ledger :=
  match e with
  | .action thread sid d =>
    if d.requestId ≠ 0 ∧ (s.accepts thread sid d).isSome then
      {l with accepted := (sid, d.id) :: l.accepted}
    else l
  | .resume thread _ => match s.running thread with
    | none => l
    | some (h, hls) => noteWork h hls l
  | _ => l

/-- What is stored under a request id was asked for under that id in the generation that
was current when it was stored, and no registration is used twice. -/
structure Within (w : Receiver × Ledger) : Prop where
  stored : ∀ sid r generation, (sid, r, generation) ∈ w.2.stored →
    ∃ id, wire id = r ∧ (sid, id, generation) ∈ w.2.registered
  once : ∀ sid id, w.2.accepted.count (sid, id) ≤ w.2.registrations sid id

/-- A delivery with a request id is stored in the generation that its check read, and
its id is an `int`. -/
def Fresh (w : Receiver × Ledger) (e : Event) : Prop :=
  match e with
  | .resume thread _ => match w.1.running thread with
    | none => True
    | some (h, hls) => match h.stores hls with
      | none => True
      | some (d, generation) =>
        d.requestId ≠ 0 → hls.playbackGeneration = generation ∧ wire d.id = d.requestId
  | _ => True

/-! ### The invariant -/

/-- The delivery a handler is about to store. -/
def Handler.delivery : Handler → Option (Delivery × CInt)
  | .storing _ d generation | .localising _ d generation _ _ => some (d, generation)
  | _ => none

structure Accounted (w : Receiver × Ledger) : Prop where
  table : ∀ sid hls id generation, w.1.registry.sessions sid = some hls →
    hls.requestGenerations id = some generation → (sid, id, generation) ∈ w.2.registered
  flight : ∀ thread h d generation, w.1.threads thread = some h →
    h.delivery = some (d, generation) → d.requestId ≠ 0 →
    (h.sid, d.id, generation) ∈ w.2.registered
  /-- An id in the table has been registered once more than it was accepted. -/
  unused : ∀ sid hls id generation, w.1.registry.sessions sid = some hls →
    hls.requestGenerations id = some generation →
    w.2.accepted.count (sid, id) + 1 ≤ w.2.registrations sid id

theorem Handler.stores_delivery {h : Handler} {hls : HlsSession} {p : Delivery × CInt}
    (hs : h.stores hls = some p) : h.delivery = some p := by
  cases h with
  | storing sid d generation =>
    rw [Handler.stores] at hs
    split at hs
    · exact hs
    · exact absurd hs (Option.some_ne_none p).symm
  | localising sid d generation out left =>
    cases left with
    | nil => exact hs
    | cons => exact absurd hs (Option.some_ne_none p).symm
  | _ => exact absurd hs (Option.some_ne_none p).symm

section Work
variable {expand : Bytes → Bytes} {localPort : Nat}

/-- A handler keeps its session, and its delivery or none. -/
theorem work_delivery {h h' : Handler} {ok : Bool} {hls : HlsSession}
    (hw : (h.work expand localPort ok hls).2 = some h') :
    h'.sid = h.sid ∧ (h'.delivery = h.delivery ∨ h'.delivery = none) := by
  cases Handler.work_leads hw with
  | storing | localising => exact ⟨rfl, .inl rfl⟩
  | _ => exact ⟨rfl, .inr rfl⟩

/-- What a handler's step makes of the table of request ids. -/
theorem work_table (h : Handler) (ok : Bool) (hls : HlsSession) (id : CInt) :
    (h.work expand localPort ok hls).1.requestGenerations id = none ∨
      (h.work expand localPort ok hls).1.requestGenerations id = hls.requestGenerations id ∨
      ∃ generation, h.registersId hls = some (id, generation) ∧
        (h.work expand localPort ok hls).1.requestGenerations id = some generation := by
  by_cases hm : h.movesMedia = true
  · obtain ⟨_, _, _, _, _, hw⟩ := @Handler.work_media expand localPort h hm ok hls
    rw [hw]
    exact .inr (.inl rfl)
  cases h with
  | registering sid generation masterRequestId =>
    show Function.update (fun _ => none) masterRequestId (some generation) id = none ∨ _
    by_cases hid : id = masterRequestId
    · subst hid
      refine .inr (.inr ⟨generation, rfl, ?_⟩)
      exact @Function.update_self _ _ _ id (some generation) fun _ => none
    · exact .inl (Function.update_of_ne hid ..)
  | registeringPlaylist sid url requestId previous | registeringSegment sid url requestId =>
    by_cases hid : id = requestId
    · subst hid
      exact .inr (.inr ⟨hls.playbackGeneration, rfl, Function.update_self ..⟩)
    · exact .inr (.inl (Function.update_of_ne hid ..))
  | localising sid d generation out left =>
    cases left with
    | nil => exact .inr (.inl rfl)
    | cons piece left => cases piece <;> exact .inr (.inl rfl)
  | storing | checkingPlaylist | waitingPlaylist | checkingSegment | waitingSegment =>
    exact absurd rfl hm
  | _ => exact .inr (.inl rfl)

/-- No playlist is added but what a refresh that fails puts back. -/
structure KeepsPlaylists (h : Handler) (hls hls' : HlsSession) : Prop where
  master : hls'.masterPlaylist = hls.masterPlaylist ∨ hls'.masterPlaylist = []
  media : ∀ url, hls'.mediaPlaylists url = hls.mediaPlaylists url ∨
    hls'.mediaPlaylists url = none ∨
    ∃ sid previous, h = .waitingPlaylist sid url previous ∧ hls'.mediaPlaylists url = previous

structure KeepsSegments (hls hls' : HlsSession) : Prop where
  data : ∀ url, hls'.segmentData url = hls.segmentData url ∨ hls'.segmentData url = none
  redirect : ∀ url, hls'.segmentRedirect url = hls.segmentRedirect url ∨
    hls'.segmentRedirect url = none

theorem work_playlists {h : Handler} {hls : HlsSession} (hs : h.storesPlaylist hls = false)
    (ok : Bool) : KeepsPlaylists h hls (h.work expand localPort ok hls).1 := by
  cases h with
  | resetting | quieting => exact ⟨.inr rfl, fun _ => .inr (.inl rfl)⟩
  | storing sid d generation =>
    have hmaster : isMaster hls d.url = false := hs
    rw [Handler.work, hmaster, if_neg Bool.false_ne_true]
    split
    · exact ⟨.inl rfl, fun _ => .inl rfl⟩
    split <;> exact ⟨.inl rfl, fun _ => .inl rfl⟩
  | localising sid d generation out left =>
    rcases left with - | ⟨_ | _, left⟩
    · exact absurd hs.symm Bool.false_ne_true
    all_goals exact ⟨.inl rfl, fun _ => .inl rfl⟩
  | checkingPlaylist sid url force id =>
    rw [Handler.work]
    split
    · exact ⟨.inl rfl, fun _ => .inl rfl⟩
    split
    · refine ⟨.inl rfl, fun url' => ?_⟩
      by_cases hurl : url' = url
      · exact .inr (.inl (hurl ▸ Function.update_self ..))
      · exact .inl (Function.update_of_ne hurl ..)
    · exact ⟨.inl rfl, fun _ => .inl rfl⟩
  | waitingPlaylist sid url previous =>
    rw [Handler.work]
    split
    · exact ⟨.inl rfl, fun _ => .inl rfl⟩
    cases previous with
    | none => exact ⟨.inl rfl, fun _ => .inl rfl⟩
    | some playlist =>
      refine ⟨.inl rfl, fun url' => ?_⟩
      by_cases hurl : url' = url
      · subst hurl
        exact .inr (.inr ⟨sid, some playlist, rfl, Function.update_self ..⟩)
      · exact .inl (Function.update_of_ne hurl ..)
  | checkingSegment sid url =>
    rw [Handler.work]
    cases htake : Handler.takeSegment url hls with
    | none => exact ⟨.inl rfl, fun _ => .inl rfl⟩
    | some hls' =>
      obtain ⟨data, redirect, rfl⟩ := Handler.takeSegment_frame htake
      exact ⟨.inl rfl, fun _ => .inl rfl⟩
  | waitingSegment sid url =>
    rw [Handler.work]
    cases htake : Handler.takeSegment url hls with
    | none => cases ok <;> exact ⟨.inl rfl, fun _ => .inl rfl⟩
    | some hls' =>
      obtain ⟨data, redirect, rfl⟩ := Handler.takeSegment_frame htake
      cases ok <;> exact ⟨.inl rfl, fun _ => .inl rfl⟩
  | _ => exact ⟨.inl rfl, fun _ => .inl rfl⟩

theorem takeSegment_removes {url : Bytes} {hls hls' : HlsSession}
    (h : Handler.takeSegment url hls = some hls') : KeepsSegments hls hls' := by
  rw [Handler.takeSegment] at h
  have hupdate : ∀ (f : Bytes → Option Bytes) (url' : Bytes),
      Function.update f url none url' = f url' ∨ Function.update f url none url' = none := by
    intro f url'
    by_cases hurl : url' = url
    · exact .inr (hurl ▸ Function.update_self ..)
    · exact .inl (Function.update_of_ne hurl ..)
  split at h
  · rw [← Option.some.inj h]
    exact ⟨fun _ => .inl rfl, hupdate _⟩
  split at h
  · rw [← Option.some.inj h]
    exact ⟨hupdate _, fun _ => .inl rfl⟩
  · exact absurd h (Option.some_ne_none hls').symm

theorem work_segments {h : Handler} {hls : HlsSession} (hs : h.stores hls = none) (ok : Bool) :
    KeepsSegments hls (h.work expand localPort ok hls).1 := by
  cases h with
  | registering | droppingSegments => exact ⟨fun _ => .inr rfl, fun _ => .inr rfl⟩
  | storing sid d generation =>
    rw [Handler.stores] at hs
    split at hs
    · exact absurd hs (Option.some_ne_none _)
    · rename_i hplaylist
      rw [Bool.or_eq_true, not_or, Bool.not_eq_true, Bool.not_eq_true', Bool.not_eq_false]
        at hplaylist
      rw [Handler.work, hplaylist.1, hplaylist.2, if_neg Bool.false_ne_true, if_pos rfl]
      exact ⟨fun _ => .inl rfl, fun _ => .inl rfl⟩
  | localising sid d generation out left =>
    rcases left with - | ⟨_ | _, left⟩ <;> exact ⟨fun _ => .inl rfl, fun _ => .inl rfl⟩
  | checkingPlaylist sid url force id =>
    rw [Handler.work]
    split
    · exact ⟨fun _ => .inl rfl, fun _ => .inl rfl⟩
    split <;> exact ⟨fun _ => .inl rfl, fun _ => .inl rfl⟩
  | waitingPlaylist sid url previous =>
    obtain ⟨playlists, hrestore⟩ := Handler.restore_frame url previous hls
    rw [Handler.work, hrestore]
    split <;> exact ⟨fun _ => .inl rfl, fun _ => .inl rfl⟩
  | checkingSegment sid url =>
    rw [Handler.work]
    cases htake : Handler.takeSegment url hls with
    | none => exact ⟨fun _ => .inl rfl, fun _ => .inl rfl⟩
    | some hls' => exact takeSegment_removes htake
  | waitingSegment sid url =>
    rw [Handler.work]
    cases htake : Handler.takeSegment url hls with
    | none => cases ok <;> exact ⟨fun _ => .inl rfl, fun _ => .inl rfl⟩
    | some hls' =>
      cases ok
      · exact ⟨fun _ => .inl rfl, fun _ => .inl rfl⟩
      · exact takeSegment_removes htake
  | _ => exact ⟨fun _ => .inl rfl, fun _ => .inl rfl⟩

theorem Handler.storesPlaylist_of_stores {h : Handler} {hls : HlsSession}
    (hs : h.stores hls = none) : h.storesPlaylist hls = false := by
  cases h with
  | storing sid d generation =>
    rw [stores] at hs
    split at hs
    · exact absurd hs (Option.some_ne_none _)
    · rename_i hplaylist
      rw [Bool.or_eq_true, not_or, Bool.not_eq_true] at hplaylist
      exact hplaylist.1
  | localising sid d generation out left =>
    cases left with
    | nil => exact absurd hs (Option.some_ne_none _)
    | cons => rfl
  | _ => rfl

/-- What a step adds to a session, the ledger counts. -/
theorem work_stores {h : Handler} {hls : HlsSession} (hs : h.stores hls = none) (ok : Bool) :
    KeepsPlaylists h hls (h.work expand localPort ok hls).1 ∧
      KeepsSegments hls (h.work expand localPort ok hls).1 :=
  ⟨work_playlists (Handler.storesPlaylist_of_stores hs) ok, work_segments hs ok⟩

end Work

/-! ### One step -/

theorem noteWork_registered (h : Handler) (hls : HlsSession) (l : Ledger) :
    (noteWork h hls l).registered = match h.registersId hls with
      | none => l.registered
      | some (id, generation) => (h.sid, id, generation) :: l.registered := by
  rw [noteWork]
  cases h.registersId hls <;> cases h.stores hls <;> dsimp only <;>
    first | rfl | split <;> rfl

theorem noteWork_accepted (h : Handler) (hls : HlsSession) (l : Ledger) :
    (noteWork h hls l).accepted = l.accepted := by
  rw [noteWork]
  cases h.registersId hls <;> cases h.stores hls <;> dsimp only <;>
    first | rfl | split <;> rfl

theorem noteWork_stored (h : Handler) (hls : HlsSession) (l : Ledger) :
    (noteWork h hls l).stored = match h.stores hls with
      | none => l.stored
      | some (d, _) => if d.requestId = 0 then l.stored
        else (h.sid, d.requestId, hls.playbackGeneration) :: l.stored := by
  rw [noteWork]
  cases h.registersId hls <;> cases h.stores hls <;> dsimp only <;>
    first | rfl | split <;> rfl

theorem mem_noteWork {h : Handler} {hls : HlsSession} {l : Ledger} {r : Bytes × CInt × CInt}
    (hr : r ∈ l.registered) : r ∈ (noteWork h hls l).registered := by
  rw [noteWork_registered]
  cases h.registersId hls with
  | none => exact hr
  | some p => exact List.mem_cons_of_mem _ hr

theorem registrations_noteWork (h : Handler) (hls : HlsSession) (l : Ledger) (sid : Bytes)
    (id : CInt) : l.registrations sid id ≤ (noteWork h hls l).registrations sid id := by
  rw [Ledger.registrations, Ledger.registrations, noteWork_registered]
  cases h.registersId hls with
  | none => exact le_refl _
  | some p => exact List.count_le_count_cons ..

/-- The id a handler's step registers counts once more. -/
theorem registrations_registered {h : Handler} {hls : HlsSession} {id generation : CInt}
    (hreg : h.registersId hls = some (id, generation)) (l : Ledger) :
    (noteWork h hls l).registrations h.sid id = l.registrations h.sid id + 1 := by
  rw [Ledger.registrations, Ledger.registrations, noteWork_registered, hreg]
  exact List.count_cons_self ..

namespace Accounted
variable {w : Receiver × Ledger}

/-- Where a step does not touch what the ledger is about, the ledger stays right. -/
theorem moves (h : Accounted w) {s' : Receiver}
    (htable : ∀ sid hls' id generation, s'.registry.sessions sid = some hls' →
      hls'.requestGenerations id = some generation →
      ∃ hls, w.1.registry.sessions sid = some hls ∧ hls.requestGenerations id = some generation)
    (hthreads : ∀ thread h', s'.threads thread = some h' →
      w.1.threads thread = some h' ∨
        ∀ d generation, h'.delivery = some (d, generation) → d.requestId = 0) :
    Accounted (s', w.2) := by
  refine ⟨fun sid hls' id generation hf ht => ?_, fun thread h' d generation hh hd hne => ?_,
    fun sid hls' id generation hf ht => ?_⟩
  · obtain ⟨hls, hf, ht⟩ := htable sid hls' id generation hf ht
    exact h.table sid hls id generation hf ht
  · rcases hthreads thread h' hh with hold | hnew
    · exact h.flight thread h' d generation hold hd hne
    · exact absurd (hnew d generation hd) hne
  · obtain ⟨hls, hf, ht⟩ := htable sid hls' id generation hf ht
    exact h.unused sid hls id generation hf ht

/-- A handler goes on. -/
theorem works (ha : Accounted w) (honce : ∀ sid id, w.2.accepted.count (sid, id) ≤
    w.2.registrations sid id) {expand : Bytes → Bytes} {localPort : Nat} {s' : Receiver}
    {thread : Nat} {ok : Bool} {h : Handler} {hls : HlsSession}
    (hh : w.1.threads thread = some h) (hf : w.1.registry.sessions h.sid = some hls)
    (hs : s'.registry.sessions = Function.update w.1.registry.sessions h.sid
      (some (h.work expand localPort ok hls).1))
    (ht : s'.threads = Function.update w.1.threads thread (h.work expand localPort ok hls).2) :
    Accounted (s', noteWork h hls w.2) := by
  refine ⟨fun sid hls' id generation hf' htab => ?_, fun thread' h' d generation hh' hd hne => ?_,
    fun sid hls' id generation hf' htab => ?_⟩
  · rw [hs, update_eq_some] at hf'
    rcases hf' with ⟨rfl, hnew⟩ | ⟨-, hold⟩
    · rw [← Option.some.inj hnew] at htab
      rcases @work_table expand localPort h ok hls id with
        hnone | hsame | ⟨generation', hreg, hnew⟩
      · exact absurd (hnone.symm.trans htab) (Option.some_ne_none _).symm
      · exact mem_noteWork (ha.table _ hls id generation hf (hsame ▸ htab))
      · rw [noteWork_registered, hreg, Option.some.inj (htab.symm.trans hnew)]
        exact List.mem_cons_self
    · exact mem_noteWork (ha.table sid hls' id generation hold htab)
  · rw [ht, update_eq_some] at hh'
    rcases hh' with ⟨-, hnew⟩ | ⟨-, hold⟩
    · obtain ⟨hsid, hsame | hnone⟩ := work_delivery hnew
      · rw [hsid]
        exact mem_noteWork (ha.flight thread h d generation hh (hsame ▸ hd) hne)
      · exact absurd (hnone.symm.trans hd) (Option.some_ne_none _).symm
    · exact mem_noteWork (ha.flight thread' h' d generation hold hd hne)
  · rw [noteWork_accepted]
    rw [hs, update_eq_some] at hf'
    rcases hf' with ⟨rfl, hnew⟩ | ⟨-, hold⟩
    · rw [← Option.some.inj hnew] at htab
      rcases @work_table expand localPort h ok hls id with
        hnone | hsame | ⟨generation', hreg, -⟩
      · exact absurd (hnone.symm.trans htab) (Option.some_ne_none _).symm
      · exact (ha.unused _ hls id generation hf (hsame ▸ htab)).trans (registrations_noteWork ..)
      · rw [registrations_registered hreg]
        exact Nat.succ_le_succ (honce _ id)
    · exact (ha.unused sid hls' id generation hold htab).trans (registrations_noteWork ..)

end Accounted

/-- A delivery that passes the check finds its id in the table. -/
theorem table_of_current {hls : HlsSession} {d : Delivery} (h : current hls d = true)
    (hne : d.requestId ≠ 0) : hls.requestGenerations d.id = some hls.playbackGeneration := by
  rw [current, Bool.or_eq_true, decide_eq_true_iff, decide_eq_true_iff] at h
  exact h.resolve_left hne

/-- A delivery passes the check, and uses its id up. -/
theorem Accounted.delivers {w : Receiver × Ledger} (ha : Accounted w) {s' : Receiver}
    {thread : Nat} {sid : Bytes} {d : Delivery} {hls : HlsSession}
    (hf : w.1.registry.sessions sid = some hls) (hcurrent : current hls d = true)
    (hs : s'.registry.sessions = Function.update w.1.registry.sessions sid
      (some (consume hls d)))
    (ht : s'.threads = Function.update w.1.threads thread
      (some (.storing sid d hls.playbackGeneration))) :
    Accounted (s', if d.requestId ≠ 0 then {w.2 with accepted := (sid, d.id) :: w.2.accepted}
      else w.2) := by
  have holder : ∀ sid' hls' id generation, s'.registry.sessions sid' = some hls' →
      hls'.requestGenerations id = some generation →
      (d.requestId ≠ 0 → (sid', id) ≠ (sid, d.id)) ∧
        ∃ hls, w.1.registry.sessions sid' = some hls ∧
          hls.requestGenerations id = some generation := by
    intro sid' hls' id generation hf' htab
    rw [hs, update_eq_some] at hf'
    rcases hf' with ⟨rfl, hnew⟩ | ⟨hsid, hold⟩
    · rw [← Option.some.inj hnew, consume] at htab
      split at htab
      · rename_i hzero
        exact ⟨fun hne => absurd hzero hne, hls, hf, htab⟩
      · rcases update_eq_some.mp htab with ⟨-, hnone⟩ | ⟨hid, hold⟩
        · exact absurd hnone (Option.some_ne_none _).symm
        · exact ⟨fun _ he => hid (congrArg Prod.snd he), hls, hf, hold⟩
    · exact ⟨fun _ he => hsid (congrArg Prod.fst he), hls', hold, htab⟩
  by_cases hne : d.requestId ≠ 0
  · rw [if_pos hne]
    refine ⟨fun sid' hls' id generation hf' htab => ?_,
      fun thread' h' d' generation hh' hd hne' => ?_, fun sid' hls' id generation hf' htab => ?_⟩
    · obtain ⟨-, hls₀, hf₀, htab₀⟩ := holder sid' hls' id generation hf' htab
      exact ha.table sid' hls₀ id generation hf₀ htab₀
    · rw [ht, update_eq_some] at hh'
      rcases hh' with ⟨-, hnew⟩ | ⟨-, hold⟩
      · rw [← Option.some.inj hnew] at hd ⊢
        obtain ⟨rfl, rfl⟩ := Prod.mk.inj (Option.some.inj hd)
        exact ha.table sid hls _ _ hf (table_of_current hcurrent hne)
      · exact ha.flight thread' h' d' generation hold hd hne'
    · obtain ⟨hother, hls₀, hf₀, htab₀⟩ := holder sid' hls' id generation hf' htab
      rw [List.count_cons_of_ne (Ne.symm (hother hne))]
      exact ha.unused sid' hls₀ id generation hf₀ htab₀
  · rw [if_neg hne]
    refine ha.moves (fun sid' hls' id generation hf' htab => (holder _ _ _ _ hf' htab).2)
      fun thread' h' hh' => ?_
    rw [ht, update_eq_some] at hh'
    rcases hh' with ⟨-, hnew⟩ | ⟨-, hold⟩
    · refine .inr fun d' generation hd => ?_
      rw [← Option.some.inj hnew] at hd
      rw [← (Prod.mk.inj (Option.some.inj hd)).1]
      exact not_not.mp hne
    · exact .inl hold

section Run
variable {expand : Bytes → Bytes} {localPort : Nat}

/-- The receiver with its ledger. -/
def accounting (expand : Bytes → Bytes) (localPort : Nat) : Machine (Receiver × Ledger) Event :=
  (Receiver.machine expand localPort).watched note

theorem accounting_step (w : Receiver × Ledger) (e : Event) :
    (accounting expand localPort).step w e = (w.1.step expand localPort e, note w.1 e w.2) := rfl

/-- An event that is neither a delivery nor a handler's step leaves the ledger alone. -/
theorem accounted_other {w : Receiver × Ledger} (ha : Accounted w) {e : Event}
    (hact : ∀ thread sid d, e ≠ .action thread sid d) (hres : ∀ thread ok, e ≠ .resume thread ok) :
    Accounted (w.1.step expand localPort e, w.2) := by
  have hsessions : ∀ {s' : Receiver} {sid : Bytes} {hls' : HlsSession},
      s'.registry.sessions = Function.update w.1.registry.sessions sid (some hls') →
      (∀ id generation, hls'.requestGenerations id = some generation →
        ∃ hls, w.1.registry.sessions sid = some hls ∧
          hls.requestGenerations id = some generation) →
      ∀ sid' hls'' id generation, s'.registry.sessions sid' = some hls'' →
        hls''.requestGenerations id = some generation →
        ∃ hls, w.1.registry.sessions sid' = some hls ∧
          hls.requestGenerations id = some generation := by
    intro s' sid hls' hs hkeep sid' hls'' id generation hf htab
    rw [hs, update_eq_some] at hf
    rcases hf with ⟨rfl, hnew⟩ | ⟨-, hold⟩
    · exact hkeep id generation (Option.some.inj hnew ▸ htab)
    · exact ⟨hls'', hold, htab⟩
  have hthreads : ∀ {s' : Receiver} {thread : Nat} {h : Option Handler},
      s'.threads = Function.update w.1.threads thread h → (∀ h', h = some h' → h'.delivery = none) →
      ∀ thread' h', s'.threads thread' = some h' → w.1.threads thread' = some h' ∨
        ∀ d generation, h'.delivery = some (d, generation) → d.requestId = 0 := by
    intro s' thread h ht hnone thread' h' hh
    rw [ht, update_eq_some] at hh
    rcases hh with ⟨-, hnew⟩ | ⟨-, hold⟩
    · exact .inr fun d generation hd =>
        absurd ((hnone h' hnew).symm.trans hd) (Option.some_ne_none _).symm
    · exact .inl hold
  have hsame : ∀ {s' : Receiver}, s'.registry.sessions = w.1.registry.sessions →
      ∀ sid' hls'' id generation, s'.registry.sessions sid' = some hls'' →
        hls''.requestGenerations id = some generation →
        ∃ hls, w.1.registry.sessions sid' = some hls ∧
          hls.requestGenerations id = some generation :=
    fun hs sid' hls'' id generation hf htab => ⟨hls'', hs ▸ hf, htab⟩
  cases @Receiver.step_moves expand localPort w.1 e with
  | rests hs ht => exact ha.moves (hsame hs) fun thread h' hh => .inl (ht ▸ hh)
  | drops thread hs ht =>
    exact ha.moves (hsame hs) (hthreads ht fun h' hh => absurd hh (Option.some_ne_none h').symm)
  | stops thread sid he hs ht =>
    exact ha.moves (hsame hs) (hthreads ht fun h' hh => by rw [← Option.some.inj hh]; rfl)
  | opens thread sid url he hs ht =>
    refine ha.moves (hsessions hs fun id generation htab => ?_)
      (hthreads ht fun h' hh => by rw [← Option.some.inj hh]; rfl)
    cases hf : w.1.registry.sessions sid with
    | none =>
      rw [hf] at htab
      exact absurd htab (Option.some_ne_none _).symm
    | some hls =>
      rw [hf] at htab
      exact ⟨hls, rfl, htab⟩
  | fetches thread sid hls h he hf hs ht =>
    refine ha.moves (hsessions hs fun id generation htab => ⟨hls, hf, htab⟩)
      (hthreads ht fun h' hh => ?_)
    rw [← Option.some.inj hh]
    rcases he with ⟨url, force, order, -, rfl⟩ | ⟨url, order, -, rfl⟩ <;> rfl
  | delivers thread sid d hls he => exact absurd he (hact thread sid d)
  | works thread ok h hls he => exact absurd he (hres thread ok)

theorem action_cases (s : Receiver) (thread : Nat) (sid : Bytes) (d : Delivery) :
    s.accepts thread sid d = none ∧ s.step expand localPort (.action thread sid d) = s ∨
      ∃ hls, s.accepts thread sid d = some hls ∧ s.registry.sessions sid = some hls ∧
        current hls d = true ∧ s.step expand localPort (.action thread sid d) =
          (s.put sid (consume hls d)).goOn thread
            (some (.storing sid d hls.playbackGeneration)) := by
  rw [Receiver.accepts, Receiver.step]
  by_cases hidle : (s.threads thread).isSome = true
  · rw [if_pos hidle, if_pos hidle]
    exact .inl ⟨rfl, rfl⟩
  · rw [if_neg hidle, if_neg hidle]
    cases hf : s.registry.find sid with
    | none => exact .inl ⟨rfl, rfl⟩
    | some hls =>
      dsimp only
      rw [Option.filter_some]
      by_cases hcurrent : current hls d = true
      · rw [if_pos hcurrent, if_pos hcurrent]
        exact .inr ⟨hls, rfl, hf, hcurrent, rfl⟩
      · rw [if_neg hcurrent, if_neg hcurrent]
        exact .inl ⟨rfl, rfl⟩

theorem resume_cases (s : Receiver) (thread : Nat) (ok : Bool) :
    (s.running thread = none ∧
      (s.step expand localPort (.resume thread ok)).registry.sessions = s.registry.sessions ∧
      ∀ thread' h, (s.step expand localPort (.resume thread ok)).threads thread' = some h →
        s.threads thread' = some h) ∨
    ∃ h hls, s.running thread = some (h, hls) ∧ s.threads thread = some h ∧
      s.registry.sessions h.sid = some hls ∧
      (s.step expand localPort (.resume thread ok)).registry.sessions =
        Function.update s.registry.sessions h.sid (some (h.work expand localPort ok hls).1) ∧
      (s.step expand localPort (.resume thread ok)).threads =
        Function.update s.threads thread (h.work expand localPort ok hls).2 := by
  rw [Receiver.running, Receiver.step]
  cases hh : s.threads thread with
  | none => exact .inl ⟨rfl, rfl, fun _ _ => id⟩
  | some h =>
    rw [Option.bind_some]
    dsimp only
    cases hf : s.registry.find h.sid with
    | none =>
      refine .inl ⟨rfl, rfl, fun thread' h' hh' => ?_⟩
      rcases update_eq_some.mp hh' with ⟨-, hnone⟩ | ⟨-, hold⟩
      · exact absurd hnone (Option.some_ne_none _).symm
      · exact hold
    | some hls =>
      refine .inr ⟨h, hls, rfl, rfl, hf, ?_, ?_⟩
      · exact congrArg (Function.update · h.sid _) (Receiver.shared_sessions h hls s)
      · exact congrArg (Function.update · thread _) (Receiver.shared_threads h hls s)

/-- What a handler stores for a request id was registered under it, if it is fresh. -/
theorem stored_noteWork {w : Receiver × Ledger} (ha : Accounted w) (hw : Within w) {thread : Nat}
    {h : Handler} {hls : HlsSession} (hh : w.1.threads thread = some h)
    (hfresh : ∀ d generation, h.stores hls = some (d, generation) → d.requestId ≠ 0 →
      hls.playbackGeneration = generation ∧ wire d.id = d.requestId)
    {sid : Bytes} {r : BitVec 64} {generation : CInt}
    (hmem : (sid, r, generation) ∈ (noteWork h hls w.2).stored) :
    ∃ id, wire id = r ∧ (sid, id, generation) ∈ (noteWork h hls w.2).registered := by
  have hold : (sid, r, generation) ∈ w.2.stored →
      ∃ id, wire id = r ∧ (sid, id, generation) ∈ (noteWork h hls w.2).registered := by
    intro hmem
    obtain ⟨id, hid, hreg⟩ := hw.stored sid r generation hmem
    exact ⟨id, hid, mem_noteWork hreg⟩
  rw [noteWork_stored] at hmem
  cases hst : h.stores hls with
  | none =>
    rw [hst] at hmem
    exact hold hmem
  | some p =>
    obtain ⟨d, checked⟩ := p
    rw [hst] at hmem
    dsimp only at hmem
    split at hmem
    · exact hold hmem
    · rename_i hne
      rcases List.mem_cons.mp hmem with heq | hmem
      · obtain ⟨hsid, hstored⟩ := Prod.mk.inj heq
        obtain ⟨hr, hgeneration⟩ := Prod.mk.inj hstored
        subst hsid hr hgeneration
        obtain ⟨hgen, hwire⟩ := hfresh d checked hst hne
        refine ⟨d.id, hwire, mem_noteWork ?_⟩
        rw [hgen]
        exact ha.flight thread h d checked hh (Handler.stores_delivery hst) hne
      · exact hold hmem

theorem within_step (w : Receiver × Ledger) (e : Event) (h : Accounted w ∧ Within w)
    (hfresh : Fresh w e) :
    Accounted ((accounting expand localPort).step w e) ∧
      Within ((accounting expand localPort).step w e) := by
  obtain ⟨ha, hw⟩ := h
  rw [accounting_step]
  cases e with
  | action thread sid d =>
    rw [note]
    rcases @action_cases expand localPort w.1 thread sid d with
      ⟨hnone, hstep⟩ | ⟨hls, haccepts, hf, hcurrent, hstep⟩
    · rw [hstep, hnone, if_neg (by simp)]
      exact ⟨ha, hw⟩
    · rw [hstep, haccepts]
      simp only [Option.isSome_some, and_true]
      refine ⟨ha.delivers hf hcurrent rfl rfl, ?_⟩
      by_cases hne : d.requestId ≠ 0
      · rw [if_pos hne]
        refine ⟨hw.stored, fun sid' id => ?_⟩
        by_cases heq : (sid', id) = (sid, d.id)
        · obtain ⟨rfl, rfl⟩ := Prod.mk.inj heq
          rw [List.count_cons_self]
          exact ha.unused sid' hls _ _ hf (table_of_current hcurrent hne)
        · rw [List.count_cons_of_ne (Ne.symm heq)]
          exact hw.once sid' id
      · rw [if_neg hne]
        exact ⟨hw.stored, hw.once⟩
  | resume thread ok =>
    rw [note]
    rcases @resume_cases expand localPort w.1 thread ok with
      ⟨hnone, hs, ht⟩ | ⟨h, hls, hrun, hh, hf, hs, ht⟩
    · rw [hnone]
      refine ⟨ha.moves (fun sid hls id generation hf htab => ⟨hls, hs ▸ hf, htab⟩)
        fun thread' h' hh' => .inl (ht thread' h' hh'), hw.stored, hw.once⟩
    · rw [hrun]
      have hstores : ∀ d generation, h.stores hls = some (d, generation) → d.requestId ≠ 0 →
          hls.playbackGeneration = generation ∧ wire d.id = d.requestId := by
        intro d generation hst
        rw [Fresh, hrun] at hfresh
        simp only [hst] at hfresh
        exact hfresh
      refine ⟨ha.works hw.once hh hf hs ht, fun sid r generation => ?_, fun sid id => ?_⟩
      · exact stored_noteWork ha hw hh hstores
      · dsimp only
        rw [noteWork_accepted]
        exact (hw.once sid id).trans (registrations_noteWork ..)
  | reverse | play | stop | teardown | fetchPlaylist | fetchSegment =>
    exact ⟨accounted_other ha (fun _ _ _ => Event.noConfusion) fun _ _ => Event.noConfusion,
      hw.stored, hw.once⟩

theorem accounted_empty : Accounted ({}, {}) :=
  ⟨fun _ _ _ _ hf => absurd hf (Option.some_ne_none _).symm,
    fun _ _ _ _ hh => absurd hh (Option.some_ne_none _).symm,
    fun _ _ _ _ hf => absurd hf (Option.some_ne_none _).symm⟩

theorem within_empty : Within ({}, {}) :=
  ⟨fun _ _ _ hmem => absurd hmem List.not_mem_nil, fun _ _ => Nat.zero_le _⟩

end Run

/-- As long as no /play comes between the check of a response and its store, what is
stored was asked for in the playback it is stored for, and no request id is accepted
more often than it was registered. -/
theorem stored_current {expand : Bytes → Bytes} {localPort : Nat} (es : List Event)
    (hes : (accounting expand localPort).Meets Fresh ({}, {}) es) :
    (accounting expand localPort).Always Within ({}, {}) es :=
  Machine.Always.mono (fun _ => And.right)
    (Machine.always_of_meets within_step ⟨accounted_empty, within_empty⟩ hes)

/-- A response that a second /play overtakes between its check and its store. -/
def overtaken : List Event :=
  [.reverse ⟨fun _ => some 5⟩] ++ plays 0 (bytes "a") (bytes "m") ++
    [.action 1 (bytes "a") {url := bytes "m", requestId := 1, playlist := bytes "x"}] ++
    plays 0 (bytes "a") (bytes "m") ++ [.resume 1 true]

theorem overtaken_crosses : ¬ (accounting (fun b => b) 7100).Always Within ({}, {}) overtaken := by
  intro h
  have hw := Machine.always_iff_prefix.mp h overtaken (List.prefix_refl _)
  obtain ⟨id, hid, hreg⟩ := hw.stored (bytes "a") 1 2 (by decide)
  have hregistered : ∀ r ∈ ((accounting (fun b => b) 7100).run ({}, {}) overtaken).2.registered,
      wire r.2.1 = 1 → r.2.2 = 1 := by decide
  have htwo : (2 : CInt) = 1 := hregistered _ hreg hid
  exact absurd htwo (by decide)

/-- A response that is stored at once. -/
def undisturbed : List Event :=
  [.reverse ⟨fun _ => some 5⟩] ++ plays 0 (bytes "a") (bytes "m") ++
    answers 1 (bytes "a") {url := bytes "m", requestId := 1, playlist := bytes "x"}

theorem undisturbed_within : (accounting (fun b => b) 7100).Always Within ({}, {}) undisturbed :=
  stored_current undisturbed ⟨trivial, trivial, trivial, trivial, trivial, trivial, trivial,
    trivial, trivial, trivial, fun _ => ⟨rfl, by decide⟩, trivial⟩

end AirPlay.Hls
