import AirPlay.Library.Registry
import AirPlay.Hls.Session

/-! Which session answers a lookup.

The local server knows URLs and paths but no sessions, so a lookup asks the active
session first and then scans the others. It stays with the active session exactly
where that session can answer or no other can (`active_wins_iff`). -/
namespace AirPlay.Hls
open Control Registry

/-- The session holds this non-empty playlist for the URL. -/
def HlsSession.Stores (hls : HlsSession) (url playlist : Bytes) : Prop :=
  playlist ≠ [] ∧
    if hls.masterUrl = url then hls.masterPlaylist = playlist
    else hls.mediaPlaylists url = some playlist

namespace HlsSessionRegistry
variable {r : HlsSessionRegistry} {a : HlsSession} {order : List Bytes}

/-- The scan meets every session once or more, in the order of the hash map. -/
def Scans (order : List Bytes) (r : HlsSessionRegistry) : Prop :=
  ∀ sid, sid ∈ order ↔ (r.sessions sid).isSome

theorem lookupInSession_stores {url : Bytes} {hls : HlsSession} {res : Bytes × Bool}
    (h : lookupInSession url hls = some res) : hls.Stores url res.1 := by
  rw [lookupInSession] at h
  rw [HlsSession.Stores]
  split at h
  · rename_i hmaster
    rw [if_pos hmaster]
    split at h
    · rename_i hne
      rw [← Option.some.inj h]
      exact ⟨hne, rfl⟩
    · exact absurd h (Option.some_ne_none res).symm
  · rename_i hmaster
    rw [if_neg hmaster]
    obtain ⟨playlist, hp, hres⟩ := Option.bind_eq_some_iff.mp h
    split at hres
    · rename_i hne
      rw [← Option.some.inj hres]
      exact ⟨hne, hp⟩
    · exact absurd hres (Option.some_ne_none res).symm

theorem lookupInSession_isSome {url : Bytes} {hls : HlsSession} :
    (lookupInSession url hls).isSome ↔ ∃ playlist, hls.Stores url playlist := by
  constructor
  · intro h
    obtain ⟨res, hres⟩ := Option.isSome_iff_exists.mp h
    exact ⟨res.1, lookupInSession_stores hres⟩
  · rintro ⟨playlist, hne, hstored⟩
    rw [lookupInSession]
    split at hstored
    · rename_i hmaster
      rw [if_pos hmaster, hstored, if_pos hne]
      rfl
    · rename_i hmaster
      rw [if_neg hmaster, hstored, Option.bind_some, if_pos hne]
      rfl

/-- What all scans of the other sessions have in common. -/
theorem scan_eq_none {α : Type} {f : Bytes → HlsSession → Option α} (hscans : Scans order r) :
    (∀ sid ∈ order, (if sid = r.activeSessionId then none else (r.sessions sid).bind (f sid)) =
        none) ↔
      ∀ sid hls, sid ≠ r.activeSessionId → r.sessions sid = some hls → f sid hls = none := by
  constructor
  · intro h sid hls hne hs
    have := h sid ((hscans sid).mpr (by rw [hs, Option.isSome_some]))
    rwa [if_neg hne, hs, Option.bind_some] at this
  · intro h sid _
    split
    · rfl
    · rename_i hne
      cases hs : r.sessions sid with
      | none => rfl
      | some hls => exact h sid hls hne hs

/-- A lookup shows the active session's playlist only, exactly if it has one or no
other session has. -/
theorem lookupPlaylist_active_iff (hactive : r.active = some a) (hscans : Scans order r)
    (url : Bytes) :
    (∀ res, r.lookupPlaylist order url = some res → a.Stores url res.1) ↔
      (∃ playlist, a.Stores url playlist) ∨
        ∀ sid hls, sid ≠ r.activeSessionId → r.sessions sid = some hls →
          ∀ playlist, ¬ hls.Stores url playlist := by
  have hfirst : r.active.bind (lookupInSession url) = lookupInSession url a := by
    rw [hactive, Option.bind_some]
  rw [lookupPlaylist, hfirst]
  refine (fallback_iff (fun res => lookupInSession_stores) fun hnone sid _ res _ hright => ?_).trans
    (or_congr lookupInSession_isSome ((scan_eq_none hscans).trans ?_))
  · have := lookupInSession_isSome.mpr ⟨res.1, hright⟩
    rw [hnone] at this
    exact absurd this (by simp)
  · refine forall₄_congr fun sid hls _ _ => ?_
    rw [← not_exists, ← lookupInSession_isSome, Option.not_isSome_iff_eq_none]

/-- What a scan for a reverse channel finds in one session. -/
theorem channel_eq_some {reverse : ReverseChannelRegistry} {sid : Bytes} {t : Bytes × Int} :
    ((r.sessions sid).bind fun _ =>
      let fd := reverse.socketFor sid
      if fd < 0 then none else some (sid, fd)) = some t ↔
      (r.sessions sid).isSome ∧ 0 ≤ reverse.socketFor sid ∧ t = (sid, reverse.socketFor sid) := by
  cases r.sessions sid with
  | none => simp
  | some hls =>
    rw [Option.bind_some]
    dsimp only
    split
    · rename_i hfd
      exact iff_of_false (Option.some_ne_none t).symm fun h => absurd h.2.1 (Int.not_le.mpr hfd)
    · rename_i hfd
      rw [Option.some_inj, eq_comm]
      exact ⟨fun ht => ⟨rfl, Int.not_lt.mp hfd, ht⟩, fun h => h.2.2⟩

/-- A fetch uses the active session's reverse channel only, exactly if it has one or no
other session has. -/
theorem fetchTarget_active_iff (hactive : r.active = some a) (hscans : Scans order r)
    (reverse : ReverseChannelRegistry) :
    (∀ t, r.fetchTarget order reverse = some t → t.1 = r.activeSessionId) ↔
      0 ≤ reverse.socketFor r.activeSessionId ∨
        ∀ sid hls, sid ≠ r.activeSessionId → r.sessions sid = some hls →
          reverse.socketFor sid < 0 := by
  have hfirst : (r.active.bind fun _ =>
      let fd := reverse.socketFor r.activeSessionId
      if fd ≥ 0 then some (r.activeSessionId, fd) else none).isSome ↔
      0 ≤ reverse.socketFor r.activeSessionId := by
    rw [hactive, Option.bind_some]
    by_cases h : reverse.socketFor r.activeSessionId ≥ 0
    · simp [h]
    · simp [h]
  rw [fetchTarget]
  refine (fallback_iff (fun t ht => ?_) fun hnone sid _ t ht hright => ?_).trans ?_
  · obtain ⟨hls, -, ht⟩ := Option.bind_eq_some_iff.mp ht
    dsimp only at ht
    split at ht
    · rw [← Option.some.inj ht]
    · exact absurd ht (Option.some_ne_none t).symm
  · -- the scan would have to find the active session, which has no channel
    obtain ⟨-, hfd, rfl⟩ := channel_eq_some.mp ht
    have := hfirst.mpr (hright ▸ hfd)
    rw [hnone] at this
    exact absurd this (by simp)
  · rw [hfirst]
    constructor
    · rintro (hfd | hnone)
      · exact .inl hfd
      · refine .inr fun sid hls _ hs => Int.not_le.mp fun hfd => ?_
        have hsome : (r.sessions sid).isSome = true := by rw [hs, Option.isSome_some]
        have := hnone sid ((hscans sid).mpr hsome)
        rw [channel_eq_some.mpr ⟨hsome, hfd, rfl⟩] at this
        exact Option.some_ne_none _ this
    · rintro (hfd | hothers)
      · exact .inl hfd
      · by_cases hfd : 0 ≤ reverse.socketFor r.activeSessionId
        · exact .inl hfd
        · refine .inr fun sid _ => Option.eq_none_iff_forall_ne_some.mpr fun t ht => ?_
          obtain ⟨hsome, hchannel, -⟩ := channel_eq_some.mp ht
          obtain ⟨hls, hs⟩ := Option.isSome_iff_exists.mp hsome
          have hsid : sid ≠ r.activeSessionId := fun hsid => hfd (hsid ▸ hchannel)
          exact absurd hchannel (Int.not_le.mpr (hothers sid hls hsid hs))

/-- A lookup and a fetch stay with the active session exactly where it can answer or no
other session can. -/
theorem active_wins_iff (hactive : r.active = some a) (hscans : Scans order r)
    (reverse : ReverseChannelRegistry) (url : Bytes) :
    ((∀ res, r.lookupPlaylist order url = some res → a.Stores url res.1) ↔
      (∃ playlist, a.Stores url playlist) ∨
        ∀ sid hls, sid ≠ r.activeSessionId → r.sessions sid = some hls →
          ∀ playlist, ¬ hls.Stores url playlist) ∧
    ((∀ t, r.fetchTarget order reverse = some t → t.1 = r.activeSessionId) ↔
      0 ≤ reverse.socketFor r.activeSessionId ∨
        ∀ sid hls, sid ≠ r.activeSessionId → r.sessions sid = some hls →
          reverse.socketFor sid < 0) :=
  ⟨lookupPlaylist_active_iff hactive hscans url, fetchTarget_active_iff hactive hscans reverse⟩

end HlsSessionRegistry

open HlsSessionRegistry

/-- Two videos of the same local URL; the second one's playlist has not arrived. -/
def secondVideo : List Event :=
  [.reverse ⟨fun _ => some 5⟩] ++ plays 0 (bytes "b") (bytes "m") ++
    answers 0 (bytes "b") {url := bytes "m", playlist := bytes "x"} ++
    plays 0 (bytes "a") (bytes "m")

/-- The receiver with the second video active. -/
def secondPlaying : HlsSessionRegistry :=
  ((Receiver.machine id 7100).run {} secondVideo).registry

theorem secondPlaying_scans : Scans [bytes "a", bytes "b"] secondPlaying := by
  intro sid
  constructor
  · intro h
    simp only [List.mem_cons, List.not_mem_nil, or_false] at h
    rcases h with rfl | rfl <;> rfl
  · intro h
    by_contra hne
    rw [secondPlaying, Receiver.run_absent secondVideo rfl] at h
    · exact absurd h (by simp)
    · rintro e he thread url rfl
      simp only [secondVideo, plays, answers, List.mem_append, List.mem_cons, List.mem_replicate,
        Event.play.injEq, reduceCtorEq, List.not_mem_nil, and_false, or_false, false_or] at he hne
      exact hne (he.elim (fun h => .inr h.2.1) fun h => .inl h.2.1)

theorem previous_video_wins :
    ¬ ∀ (es : List Event) (order : List Bytes) (url : Bytes) (a : HlsSession),
      ((Receiver.machine id 7100).run {} es).registry.active = some a →
      Scans order ((Receiver.machine id 7100).run {} es).registry →
      ∀ res, ((Receiver.machine id 7100).run {} es).registry.lookupPlaylist order url = some res →
        a.Stores url res.1 := by
  intro h
  have := h secondVideo [bytes "a", bytes "b"] (bytes "m") _ rfl secondPlaying_scans
    (bytes "x", true) (by decide)
  exact absurd this.2 (by decide)

theorem active_wins_iff_second :
    (secondPlaying.fetchTarget [bytes "a", bytes "b"] ⟨fun _ => some 5⟩).isSome ∧
      ∀ t, secondPlaying.fetchTarget [bytes "a", bytes "b"] ⟨fun _ => some 5⟩ = some t →
        t.1 = bytes "a" :=
  ⟨rfl, (active_wins_iff (a := _) rfl secondPlaying_scans ⟨fun _ => some 5⟩ (bytes "m")).2.mpr
    (.inl (by decide))⟩

end AirPlay.Hls
