import Mathlib.Algebra.GroupWithZero.Nat
import AirPlay.Library.Registry
import AirPlay.Library.Text
import AirPlay.Hls.Session

/-! Local segment paths.

A session numbers the paths it gives out; /play and /stop restart the numbering, and
the paths say nothing about the session. A path therefore stands for its URL as long
as the session's numbering is not restarted and the session is the active one
(`path_resolves`). -/
namespace AirPlay.Hls
open Registry

/-- A handler's step that empties the session's paths and restarts their numbers. -/
def Handler.restarts : Handler → Bool
  | .clearingUrls _ | .droppingUrls _ => true
  | _ => false

/-- A handler's step that gives out a path. -/
def Handler.registers : Handler → Bool
  | .localising _ _ _ _ (.url _ :: _) => true
  | _ => false

/-- The session's numbering goes on: it is not restarted, and the counter has not gone
through all its values. -/
def GoesOn (sid : Bytes) (s : Receiver) (e : Event) : Prop :=
  ∀ thread ok h hls, e = .resume thread ok → s.threads thread = some h → h.sid = sid →
    s.registry.sessions sid = some hls →
    h.restarts = false ∧ (h.registers = true → hls.segUrlCounter.toNat + 1 < 2 ^ 64)

/-- The session has given out the path for this URL. -/
def Binds (sid : Bytes) (n : BitVec 64) (u : Bytes) (s : Receiver) : Prop :=
  ∃ hls, s.registry.sessions sid = some hls ∧ hls.segUrlMap (localPath n) = some u ∧
    n.toNat < hls.segUrlCounter.toNat

theorem localPath_injective : Function.Injective localPath := by
  intro m n h
  exact BitVec.eq_of_toNat_eq (Bytes.decimal_injective (List.append_cancel_left h))

theorem toNat_succ {n : BitVec 64} (h : n.toNat + 1 < 2 ^ 64) : (n + 1).toNat = n.toNat + 1 := by
  rw [BitVec.toNat_add, Nat.mod_eq_of_lt]
  · rfl
  · exact h

section Steps
variable {expand : Bytes → Bytes} {localPort : Nat}

/-- What a handler's step leaves of the paths. -/
theorem work_urls (h : Handler) (ok : Bool) (hls : HlsSession) (hkeep : h.restarts = false)
    (hreg : h.registers = false) :
    (h.work expand localPort ok hls).1.segUrlMap = hls.segUrlMap ∧
      (h.work expand localPort ok hls).1.segUrlCounter = hls.segUrlCounter := by
  by_cases hm : h.movesMedia = true
  · obtain ⟨_, _, _, _, _, hw⟩ := @Handler.work_media expand localPort h hm ok hls
    rw [hw]
    exact ⟨rfl, rfl⟩
  cases h with
  | clearingUrls | droppingUrls => exact absurd hkeep (by simp [Handler.restarts])
  | localising sid d generation out left =>
    cases left with
    | nil => exact ⟨rfl, rfl⟩
    | cons piece left =>
      cases piece with
      | text b => exact ⟨rfl, rfl⟩
      | url u => exact absurd hreg (by simp [Handler.registers])
  | storing | checkingPlaylist | waitingPlaylist | checkingSegment | waitingSegment =>
    exact absurd rfl hm
  | _ => exact ⟨rfl, rfl⟩

/-- A registration changes the paths by a new one. -/
theorem work_registers {h : Handler} (ok : Bool) (hls : HlsSession) (hreg : h.registers = true) :
    ∃ u, (h.work expand localPort ok hls).1.segUrlMap =
        Function.update hls.segUrlMap (localPath hls.segUrlCounter) (some u) ∧
      (h.work expand localPort ok hls).1.segUrlCounter = hls.segUrlCounter + 1 := by
  cases h with
  | localising sid d generation out left =>
    cases left with
    | nil => exact absurd hreg (by simp [Handler.registers])
    | cons piece left =>
      cases piece with
      | text b => exact absurd hreg (by simp [Handler.registers])
      | url u => exact ⟨u, rfl, rfl⟩
  | _ => exact absurd hreg (by simp [Handler.registers])

/-- A binding survives while the numbering goes on. -/
theorem binds_step {sid : Bytes} {n : BitVec 64} {u : Bytes} (s : Receiver) (e : Event)
    (h : Binds sid n u s) (hgo : GoesOn sid s e) : Binds sid n u (s.step expand localPort e) := by
  obtain ⟨hls, hf, hmap, hlt⟩ := h
  have hput : ∀ {s' : Receiver} {sid' : Bytes} {hls' : HlsSession},
      s'.registry.sessions = Function.update s.registry.sessions sid' (some hls') →
      (sid' = sid → hls'.segUrlMap (localPath n) = some u ∧ n.toNat < hls'.segUrlCounter.toNat) →
      Binds sid n u s' := by
    intro s' sid' hls' hs hkeep
    by_cases hsid : sid = sid'
    · subst hsid
      exact ⟨hls', by rw [hs, Function.update_self], hkeep rfl⟩
    · exact ⟨hls, by rw [hs, Function.update_of_ne hsid, hf], hmap, hlt⟩
  have hsame : ∀ {sid' hls'}, s.registry.sessions sid' = some hls' → sid' = sid → hls' = hls := by
    rintro sid' hls' hf' rfl
    exact Option.some.inj (hf'.symm.trans hf)
  cases @Receiver.step_moves expand localPort s e with
  | rests hs | drops thread hs | stops thread sid' he hs => exact ⟨hls, by rw [hs, hf], hmap, hlt⟩
  | opens thread sid' url he hs =>
    refine hput hs ?_
    rintro rfl
    rw [hf, Option.getD_some]
    exact ⟨hmap, hlt⟩
  | delivers thread sid' d hls' he hf' hcurrent hs =>
    refine hput hs fun hsid => ?_
    obtain ⟨generations, hconsume⟩ := consume_frame hls' d
    rw [hconsume, hsame hf' hsid]
    exact ⟨hmap, hlt⟩
  | fetches thread sid' hls' h he hf' hs =>
    refine hput hs fun hsid => ?_
    rw [hsame hf' hsid]
    exact ⟨hmap, hlt⟩
  | works thread ok h hls' he hh hf' hs =>
    refine hput hs fun hsid => ?_
    have heq := hsame hf' hsid
    rw [heq]
    obtain ⟨hkeep, hwrap⟩ := hgo thread ok h hls he hh hsid (hsid ▸ hf)
    cases hreg : h.registers with
    | false =>
      obtain ⟨hm, hc⟩ := @work_urls expand localPort h ok hls hkeep hreg
      rw [hm, hc]
      exact ⟨hmap, hlt⟩
    | true =>
      obtain ⟨v, hm, hc⟩ := @work_registers expand localPort _ ok hls hreg
      rw [hm, hc, toNat_succ (hwrap hreg)]
      refine ⟨?_, Nat.lt_succ_of_lt hlt⟩
      -- the new path has a larger number
      rw [Function.update_of_ne, hmap]
      exact fun hpath => absurd (congrArg BitVec.toNat (localPath_injective hpath)) hlt.ne

end Steps

/-- The active session's binding is what its path resolves to. -/
theorem resolves_active {sid : Bytes} {n : BitVec 64} {u : Bytes} {s : Receiver}
    (h : Binds sid n u s) (hne : sid ≠ []) (hactive : s.registry.activeSessionId = sid)
    (order : List Bytes) : s.registry.resolveSegmentPath order (localPath n) = some u := by
  obtain ⟨hls, hf, hmap, -⟩ := h
  have hbind : s.registry.active.bind (fun hls => hls.segUrlMap (localPath n)) = some u := by
    rw [HlsSessionRegistry.active, hactive, if_neg hne, hf, Option.bind_some, hmap]
  rw [HlsSessionRegistry.resolveSegmentPath, hbind]
  rfl

/-- A playlist that is being localised has a URL replaced by the session's next local
path; while the numbering goes on the session binds the path to the URL, and while it
is the active one the path resolves to it. -/
theorem path_resolves {expand : Bytes → Bytes} {localPort : Nat} (s : Receiver) (thread : Nat)
    (ok : Bool) (sid : Bytes) (d : Delivery) (generation : CInt) (out u : Bytes)
    (left : List Piece) (hls : HlsSession)
    (hh : s.threads thread = some (.localising sid d generation out (.url u :: left)))
    (hf : s.registry.sessions sid = some hls) (es : List Event)
    (hes : (Receiver.machine expand localPort).Meets (GoesOn sid) s (.resume thread ok :: es)) :
    (s.step expand localPort (.resume thread ok)).threads thread =
        some (.localising sid d generation
          (out ++ localUrl localPort (localPath hls.segUrlCounter)) left) ∧
      (Receiver.machine expand localPort).Always
        (fun s' => Binds sid hls.segUrlCounter u s' ∧
          (sid ≠ [] → s'.registry.activeSessionId = sid → ∀ order,
            s'.registry.resolveSegmentPath order (localPath hls.segUrlCounter) = some u))
        (s.step expand localPort (.resume thread ok)) es := by
  obtain ⟨hgo, hrest⟩ := hes
  have hwrap := (hgo thread ok _ hls rfl hh rfl hf).2 rfl
  have hstep : (s.step expand localPort (.resume thread ok)).threads =
        Function.update s.threads thread (some (.localising sid d generation
          (out ++ localUrl localPort (localPath hls.segUrlCounter)) left)) ∧
      (s.step expand localPort (.resume thread ok)).registry.sessions =
        Function.update s.registry.sessions sid (some (registerLocal u hls).2) := by
    have hfind : s.registry.find sid = some hls := hf
    rw [Receiver.step, hh]
    simp only [Handler.sid, hfind]
    exact ⟨rfl, rfl⟩
  have hbinds : Binds sid hls.segUrlCounter u (s.step expand localPort (.resume thread ok)) := by
    refine ⟨_, by rw [hstep.2, Function.update_self], Function.update_self .., ?_⟩
    show _ < (hls.segUrlCounter + 1).toNat
    rw [toNat_succ hwrap]
    exact Nat.lt_succ_self _
  refine ⟨by rw [hstep.1, Function.update_self], ?_⟩
  refine Machine.Always.mono (fun s' hb => ⟨hb, fun hne hactive order => ?_⟩)
    (Machine.always_of_meets binds_step hbinds hrest)
  exact resolves_active hb hne hactive order

/-- A video whose media playlist is one URL, about to be localised. -/
def firstPlaylist : List Event :=
  [.reverse ⟨fun _ => some 5⟩] ++ plays 0 (bytes "a") (bytes "m") ++
    answers 0 (bytes "a") {url := bytes "c.m3u8", playlist := bytes "u"}

/-- The playlist is stored, and a second video of the session brings another one. -/
def nextPlaylist : List Event :=
  [.resume 0 true] ++ plays 0 (bytes "a") (bytes "m") ++
    answers 0 (bytes "a") {url := bytes "c.m3u8", playlist := bytes "v"} ++ [.resume 0 true]

def localisingFirst : Receiver := (Receiver.machine id 7100).run {} firstPlaylist

/-- The same, but the second video is another session's. -/
def otherPlaylist : List Event :=
  [.resume 0 true] ++ plays 0 (bytes "b") (bytes "m") ++
    answers 0 (bytes "b") {url := bytes "c.m3u8", playlist := bytes "v"} ++ [.resume 0 true]

/-- After the URL is replaced its path resolves to nothing else, if the later events
meet `P`. -/
def NeverRebound (P : Bytes → Receiver → Event → Prop) : Prop :=
  ∀ (es es' : List Event) (thread : Nat) (ok : Bool) (sid : Bytes) (d : Delivery)
    (generation : CInt) (out u : Bytes) (left : List Piece) (hls : HlsSession),
    ((Receiver.machine id 7100).run {} es).threads thread =
      some (.localising sid d generation out (.url u :: left)) →
    ((Receiver.machine id 7100).run {} es).registry.sessions sid = some hls →
    (Receiver.machine id 7100).Meets (P sid) ((Receiver.machine id 7100).run {} es)
      (.resume thread ok :: es') →
    ∀ order v, ((Receiver.machine id 7100).run {}
        (es ++ .resume thread ok :: es')).registry.resolveSegmentPath order
          (localPath hls.segUrlCounter) = some v → v = u

/-- Whether the event leaves the session's numbering alone. -/
def spares (sid : Bytes) (s : Receiver) (e : Event) : Bool :=
  match e with
  | .resume thread _ => (s.threads thread).all fun h => h.sid ≠ sid || !h.restarts
  | _ => true

theorem restarts_of_spares {sid : Bytes} {s : Receiver} {e : Event} (hs : spares sid s e = true)
    (thread : Nat) (ok : Bool) (h : Handler) (he : e = .resume thread ok)
    (hh : s.threads thread = some h) (hsid : h.sid = sid) : h.restarts = false := by
  rw [he, spares, hh, Option.all_some, Bool.or_eq_true, Bool.not_eq_true'] at hs
  exact hs.resolve_left fun hne => of_decide_eq_true hne hsid

/-- The path is bound to another URL by a later video of the session, and hidden by a
video of another session. -/
theorem path_rebound : ¬ NeverRebound (fun _ _ _ => True) ∧
    ¬ NeverRebound fun sid s e => ∀ thread ok h, e = .resume thread ok → s.threads thread = some h →
      h.sid = sid → h.restarts = false := by
  constructor
  · intro h
    have := h firstPlaylist nextPlaylist 0 true (bytes "a") _ _ _ (bytes "u") _ _ rfl rfl
      (Machine.meets_true _) [] (bytes "v") (by decide)
    exact absurd this (by decide)
  · intro h
    have hspares : (Receiver.machine id 7100).Meets (fun s e => spares (bytes "a") s e = true)
        localisingFirst (.resume 0 true :: otherPlaylist) := by decide
    have := h firstPlaylist otherPlaylist 0 true (bytes "a") _ _ _ (bytes "u") _ _ rfl rfl
      (hspares.mono fun _ _ => restarts_of_spares) [] (bytes "v") (by decide)
    exact absurd this (by decide)

/-- Whether the session's numbering goes on. -/
def goesOn (sid : Bytes) (s : Receiver) (e : Event) : Bool :=
  match e with
  | .resume thread _ => (s.threads thread).all fun h => h.sid ≠ sid || (!h.restarts &&
      (s.registry.sessions sid).all fun hls => hls.segUrlCounter.toNat + 1 < 2 ^ 64)
  | _ => true

theorem goesOn_of {sid : Bytes} {s : Receiver} {e : Event} (hs : goesOn sid s e = true) :
    GoesOn sid s e := by
  intro thread ok h hls he hh hsid hf
  rw [he, goesOn, hh, Option.all_some, Bool.or_eq_true, Bool.and_eq_true, Bool.not_eq_true',
    hf, Option.all_some] at hs
  obtain ⟨hkeep, hwrap⟩ := hs.resolve_left fun hne => of_decide_eq_true hne hsid
  exact ⟨hkeep, fun _ => of_decide_eq_true hwrap⟩

/-- The same video, played after another session's. -/
def secondSession : List Event :=
  [.reverse ⟨fun _ => some 5⟩] ++ plays 1 (bytes "b") (bytes "m") ++
    plays 0 (bytes "a") (bytes "m") ++
      answers 0 (bytes "a") {url := bytes "c.m3u8", playlist := bytes "u"}

def localisingSecond : Receiver := (Receiver.machine id 7100).run {} secondSession

/-- The player fetches a segment and the playlist, and the other session's playlist is
localised at the same time. -/
def fetchesBeside : List Event :=
  [.fetchSegment 2 (bytes "s.ts") [], .resume 2 true, .resume 2 true] ++
    answers 1 (bytes "b") {url := bytes "c.m3u8", playlist := bytes "v"} ++
    [.resume 1 true, .resume 0 true, .fetchPlaylist 3 (bytes "c.m3u8") false [], .resume 3 true,
      .resume 1 true, .resume 2 false]

theorem fetchesBeside_goesOn : (Receiver.machine id 7100).Meets
    (fun s e => goesOn (bytes "a") s e = true) localisingSecond
    (.resume 0 true :: fetchesBeside) := by
  decide +kernel

def resolvingSecond : Receiver :=
  (Receiver.machine id 7100).run (localisingSecond.step id 7100 (.resume 0 true)) fetchesBeside

theorem resolvingSecond_active : resolvingSecond.registry.activeSessionId = bytes "a" := by
  decide +kernel

/-- Both sessions have given out `/seg/0`, and the active one's is found. -/
theorem path_resolves_first :
    resolvingSecond.registry.resolveSegmentPath [bytes "b"] (bytes "/seg/0") = some (bytes "u") ∧
      (resolvingSecond.registry.sessions (bytes "b")).bind
        (fun hls => hls.segUrlMap (bytes "/seg/0")) = some (bytes "v") := by
  obtain ⟨d, generation, out, left, hh⟩ : ∃ d generation out left, localisingSecond.threads 0 =
      some (.localising (bytes "a") d generation out (.url (bytes "u") :: left)) :=
    ⟨_, _, _, _, rfl⟩
  obtain ⟨hls, hf, hcounter⟩ : ∃ hls, localisingSecond.registry.sessions (bytes "a") = some hls ∧
      hls.segUrlCounter = 0 := ⟨_, rfl, rfl⟩
  have hpath : localPath hls.segUrlCounter = bytes "/seg/0" := by
    rw [hcounter]
    decide
  have hbound := (path_resolves localisingSecond 0 true (bytes "a") d generation out (bytes "u")
    left hls hh hf fetchesBeside
    (fetchesBeside_goesOn.mono fun _ _ => goesOn_of)).2.last.2 (by decide)
    resolvingSecond_active [bytes "b"]
  rw [hpath] at hbound
  exact ⟨hbound, by decide +kernel⟩

end AirPlay.Hls
