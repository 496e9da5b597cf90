import AirPlay.Audio.Session

/-! The FLUSH boundary.

A timestamped FLUSH cuts the live queue at its boundary and fences what arrives
afterwards, until a block gets past the fence. In order, near the boundary, the
live queue then holds the frames at or after the boundary and no others
(`flush_boundary_exact`). When playback is preserved, the frames before it are the
saved tail: the queue as it was, and the packets already on their way, up to the
boundary and no further (`flush_junction_lossless`). The same position cuts both,
whatever the blocks' sizes and wherever the stamps wrap. -/
namespace AirPlay.Audio

open Serial Timeline

variable {α : Type}

/-! ### Arrivals -/

/-- A decoded block as it arrives: its position on the sender's timeline, its samples,
and what the packet thread reads while it inserts them. -/
structure Arrival (α : Type) where
  pos : Int
  chunk : Chunk α
  now : Int := 0
  pending : Int := 0

namespace Arrival

def placed (a : Arrival α) : Placed α :=
  ⟨{rtp := wrap 32 a.pos, samples := a.chunk.samples}, a.pos, rfl⟩

/-- How many samples a list of arrivals brings. -/
def brought (arrivals : List (Arrival α)) : Nat := total (arrivals.map fun a => a.placed.frame)

end Arrival

namespace AudioReceiver

/-- The blocks arrive one after the other. -/
def enqueueAll (arrivals : List (Arrival α)) (s : AudioReceiver α) : AudioReceiver α :=
  arrivals.foldl (fun s a => s.enqueue (wrap 32 a.pos) a.chunk.samples a.now a.pending) s

/-- One of them without the five-second cap. -/
def arrive (a : Arrival α) (s : AudioReceiver α) : AudioReceiver α :=
  s.insert (wrap 32 a.pos) a.chunk.samples a.now a.pending

/-- All of them without the cap. -/
def arriveAll (arrivals : List (Arrival α)) (s : AudioReceiver α) : AudioReceiver α :=
  arrivals.foldl (fun s a => s.arrive a) s

@[simp] theorem arriveAll_cons (a : Arrival α) (rest : List (Arrival α)) (s : AudioReceiver α) :
    s.arriveAll (a :: rest) = (s.arrive a).arriveAll rest := rfl

section Arrive
variable (a : Arrival α) (s : AudioReceiver α) (himp : s.importedPause = false)
include himp

theorem arrive_importedPause : (s.arrive a).importedPause = false := by
  rw [arrive, insert_live _ _ _ _ _ himp]
  exact himp

theorem arrive_pcmQueue : (s.arrive a).pcmQueue = s.pcmQueue ++ s.live a.placed.frame := by
  rw [arrive, insert_live _ _ _ _ _ himp]
  rfl

theorem arrive_pausedPcm : (s.arrive a).pausedPcm = s.pausedPcm ++ s.drains a.placed.frame := by
  rw [arrive, insert_live _ _ _ _ _ himp]
  rfl

theorem arrive_flushBoundary :
    (s.arrive a).flushBoundary =
      if (s.fenced a.placed.frame).samples.isEmpty then s.flushBoundary else none := by
  rw [arrive, insert_live _ _ _ _ _ himp]
  rfl

/-- A block takes up no more room than its samples. -/
theorem arrive_room :
    (s.arrive a).queuedSamples ≤ s.queuedSamples + a.chunk.samples.length ∧
      (s.arrive a).cfg = s.cfg := by
  have hle : (s.fenced a.placed.frame).samples.length ≤ a.chunk.samples.length :=
    fenced_length_le a.placed.frame s
  rw [arrive, insert_live _ _ _ _ _ himp]
  refine ⟨?_, rfl⟩
  show s.queuedSamples + total (s.live a.placed.frame) ≤ _
  rw [total_live]
  omega

end Arrive

/-- The cap evicts nothing as long as everything fits. -/
theorem enqueueAll_fits (arrivals : List (Arrival α)) (s : AudioReceiver α)
    (himp : s.importedPause = false)
    (hroom : s.queuedSamples + Arrival.brought arrivals ≤ s.limit) :
    s.enqueueAll arrivals = s.arriveAll arrivals := by
  induction arrivals generalizing s with
  | nil => rfl
  | cons a rest ih =>
    have hsum : Arrival.brought (a :: rest) = a.chunk.samples.length + Arrival.brought rest := rfl
    obtain ⟨hqueued, hcfg⟩ := arrive_room a s himp
    have hone : s.enqueue (wrap 32 a.pos) a.chunk.samples a.now a.pending = s.arrive a := by
      rw [enqueue, evicted_fits (by omega)]
      rfl
    show enqueueAll rest (s.enqueue _ _ _ _) = arriveAll rest (s.arrive a)
    rw [hone]
    refine ih _ (arrive_importedPause a s himp) ?_
    rw [limit_of_cfg hcfg]
    omega

/-! ### The fence -/

/-- The fence keeps of a block near it what is at or after its position. -/
theorem fenced_placed {s : AudioReceiver α} {B : Int} {x : Placed α}
    (hfence : s.flushBoundary = some (wrap 32 B)) (hnear : x.Near B) :
    s.fenced x.frame = (x.cut B).frame := by
  rw [fenced, hfence]
  exact trim_placed x B hnear

theorem stamped_live {s : AudioReceiver α} {frame : PcmFrame α} {y : Placed α}
    (h : s.fenced frame = y.frame) : stamped (s.live frame) = wrapStamps (timeline [y]) := by
  rw [← stamped_placed, live, h]
  split
  · rename_i hempty
    have hnil : y.frame.samples = [] := by simpa using hempty
    simp [stamped, PcmFrame.block, hnil, frames]
  · rfl

/-- A block gets past the fence exactly when it ends after it. -/
theorem cut_isEmpty (B : Int) (a : Arrival α) :
    (a.placed.cut B).frame.samples.isEmpty = true ↔ a.placed.endPos ≤ B := by
  have heven : a.chunk.samples.length % 2 = 0 := a.chunk.stereo
  have hpos := List.length_pos_of_ne_nil a.chunk.nonempty
  have hlen : (a.placed.cut B).frame.samples.length =
      a.chunk.samples.length - min (B - a.pos).toNat (a.chunk.samples.length / 2) * 2 :=
    List.length_drop
  rw [List.isEmpty_iff_length_eq_zero, hlen]
  show _ ↔ a.pos + (a.chunk.samples.length / 2 : Nat) ≤ B
  omega

/-- Past the fence, everything is appended as it is. -/
theorem arriveAll_plain (arrivals : List (Arrival α)) (s : AudioReceiver α)
    (himp : s.importedPause = false) (hnone : s.flushBoundary = none) :
    stamped (s.arriveAll arrivals).pcmQueue =
        stamped s.pcmQueue ++ wrapStamps (timeline (arrivals.map Arrival.placed)) ∧
      (s.arriveAll arrivals).pausedPcm = s.pausedPcm := by
  induction arrivals generalizing s with
  | nil => exact ⟨(List.append_nil _).symm, rfl⟩
  | cons a rest ih =>
    have hfenced : s.fenced a.placed.frame = a.placed.frame := by rw [fenced, hnone]
    have hdrains : s.drains a.placed.frame = [] := by simp [drains, hnone]
    obtain ⟨hqueue, htail⟩ := ih (s.arrive a) (arrive_importedPause a s himp) (by
      rw [arrive_flushBoundary a s himp, hnone, ite_self])
    rw [arriveAll_cons]
    refine ⟨?_, ?_⟩
    · rw [hqueue, arrive_pcmQueue a s himp, stamped_append, stamped_live hfenced,
        List.append_assoc, ← wrapStamps_append, ← timeline_append]
      rfl
    · rw [htail, arrive_pausedPcm a s himp, hdrains, List.append_nil]

/-- Blocks that start at or after a position have nothing before it. -/
theorem timeline_after {B : Int} {xs : List (Placed α)} (h : ∀ x ∈ xs, B ≤ x.pos) :
    (timeline xs).filter (fun t => B ≤ t.1) = timeline xs := by
  refine List.filter_eq_self.mpr fun t ht => ?_
  obtain ⟨b, hb, ht⟩ := mem_laid.mp ht
  obtain ⟨x, hx, rfl⟩ := List.mem_map.mp hb
  have hstart : x.pos ≤ t.1 := (stamps_bounds ht).1
  simpa using (h x hx).trans hstart

/-- In order and near the fence, the arrivals add to the live queue what is at or
after its position. The fence is dropped at the first block that gets past it, and
every later block starts behind that one. -/
theorem arriveAll_fenced (B : Int) (arrivals : List (Arrival α)) (s : AudioReceiver α)
    (himp : s.importedPause = false) (hfence : s.flushBoundary = some (wrap 32 B))
    (hnear : ∀ a ∈ arrivals, a.placed.Near B)
    (hord : Ordered (arrivals.map fun a => a.placed.block)) :
    stamped (s.arriveAll arrivals).pcmQueue =
      stamped s.pcmQueue ++
        wrapStamps ((timeline (arrivals.map Arrival.placed)).filter fun t => B ≤ t.1) := by
  induction arrivals generalizing s with
  | nil => exact (List.append_nil _).symm
  | cons a rest ih =>
    obtain ⟨hhead, hrest⟩ := List.pairwise_cons.mp hord
    have hcut := fenced_placed hfence (hnear a List.mem_cons_self)
    have himp' := arrive_importedPause a s himp
    have hboundary := arrive_flushBoundary a s himp
    rw [List.map_cons, timeline_filter_cons, wrapStamps_append, ← List.append_assoc,
      ← stamped_live hcut, ← stamped_append, arriveAll_cons, ← arrive_pcmQueue a s himp]
    by_cases hempty : (s.fenced a.placed.frame).samples.isEmpty = true
    · -- nothing got past: the fence stands
      rw [if_pos hempty] at hboundary
      exact ih _ himp' (hboundary.trans hfence)
        (fun c hc => hnear c (List.mem_cons_of_mem a hc)) hrest
    · rw [if_neg hempty] at hboundary
      have hpast : B < a.placed.endPos := by
        rwa [hcut, cut_isEmpty, Int.not_le] at hempty
      have hafter : ∀ x ∈ rest.map Arrival.placed, B ≤ x.pos := by
        intro x hx
        obtain ⟨c, hc, rfl⟩ := List.mem_map.mp hx
        have hle : a.pos + ((frames a.chunk.samples).length : Int) ≤ c.pos :=
          hhead _ (List.mem_map_of_mem hc)
        rw [frames_length] at hle
        exact hpast.le.trans hle
      rw [timeline_after hafter, (arriveAll_plain rest _ himp' hboundary).1]

/-- No empty block is ever appended. -/
theorem arriveAll_nonempty (arrivals : List (Arrival α)) (s : AudioReceiver α)
    (himp : s.importedPause = false) (h : ∀ f ∈ s.pcmQueue, f.samples ≠ []) :
    ∀ f ∈ (s.arriveAll arrivals).pcmQueue, f.samples ≠ [] := by
  induction arrivals generalizing s with
  | nil => exact h
  | cons a rest ih =>
    refine ih _ (arrive_importedPause a s himp) ?_
    rw [arrive_pcmQueue a s himp]
    refine List.forall_mem_append.mpr ⟨h, fun f hf => ?_⟩
    unfold live at hf
    split at hf
    · cases hf
    · rename_i hne
      obtain rfl := List.mem_singleton.mp hf
      simpa using hne

/-! ### The flushed receiver -/

section Flush
variable (s : AudioReceiver α) (himp : s.importedPause = false) (b : BitVec 32) (now : Int)

theorem flush_flushBoundary : (s.flush (some b) now).flushBoundary = some b := by
  rw [flush_some]

theorem flush_pcmQueue : (s.flush (some b) now).pcmQueue = trimQueue b s.pcmQueue := by
  rw [flush_some]

theorem flush_importedPause : (s.flush (some b) now).importedPause = s.importedPause := by
  rw [flush_some]

theorem flush_room : (s.flush (some b) now).queuedSamples ≤ s.queuedSamples := by
  have hle := trimQueue_total_le b s.pcmQueue
  rw [flush_some]
  show s.queuedSamples - (total s.pcmQueue - total (trimQueue b s.pcmQueue) : Int) ≤ _
  omega

include himp in
/-- After a FLUSH too, what fits is inserted without evicting. -/
theorem flush_enqueueAll (arrivals : List (Arrival α))
    (hroom : s.queuedSamples + Arrival.brought arrivals ≤ s.limit) :
    (s.flush (some b) now).enqueueAll arrivals = (s.flush (some b) now).arriveAll arrivals := by
  have hqueued := flush_room s b now
  refine enqueueAll_fits arrivals _ ((flush_importedPause s b now).trans himp) ?_
  rw [limit_of_cfg (flush_cfg _ _ s)]
  omega

end Flush

end AudioReceiver

/-! ### Fixed inputs

A block queued across the wrap of the stamps, and the next one of its stream. -/

def acrossWrap : Placed Nat := ⟨⟨0xfffffffe, [0, 1, 2, 3, 4, 5, 6, 7], 0⟩, 2 ^ 32 - 2, rfl⟩

def afterWrap : Arrival Nat where
  pos := 2 ^ 32 + 2
  chunk := ⟨[8, 9, 10, 11], by decide, by decide, by decide⟩

/-- The receiver that holds the first of them. -/
def wrapping : AudioReceiver Nat :=
  {fresh with pcmQueue := [acrossWrap.frame], queuedSamples := 8}

/-! ### The live queue -/

/-- After a timestamped FLUSH the live queue is exact: of everything queued before
and decoded since, in order and within half the RTP range of the boundary, it holds
the frames at or after the boundary, each at its own RTP position. The packet thread
leaves it so unless the cap evicts. -/
theorem flush_boundary_exact (r : AudioReceiver α) (himp : r.importedPause = false)
    (B now : Int) (old : List (Placed α)) (arrivals : List (Arrival α))
    (hold : r.pcmQueue = old.map Placed.frame)
    (hord : Ordered ((old ++ arrivals.map Arrival.placed).map Placed.block))
    (hnear : ∀ x ∈ old ++ arrivals.map Arrival.placed, x.Near B) :
    let s := (r.flush (some (wrap 32 B)) now).arriveAll arrivals
    stamped s.pcmQueue =
        wrapStamps ((timeline (old ++ arrivals.map Arrival.placed)).filter fun t => B ≤ t.1) ∧
      (∀ f ∈ s.pcmQueue, f.samples ≠ []) ∧
      (r.queuedSamples + Arrival.brought arrivals ≤ r.limit →
        (r.flush (some (wrap 32 B)) now).enqueueAll arrivals = s) := by
  obtain ⟨hnearOld, hnearNew⟩ := List.forall_mem_append.mp hnear
  rw [List.map_append, List.map_map] at hord
  have hordNew := (List.pairwise_append.mp hord).2.1
  have himp' := (AudioReceiver.flush_importedPause r (wrap 32 B) now).trans himp
  have hqueue := AudioReceiver.flush_pcmQueue r (wrap 32 B) now
  refine ⟨?_, ?_, AudioReceiver.flush_enqueueAll r himp _ now arrivals⟩
  · rw [AudioReceiver.arriveAll_fenced B arrivals _ himp'
      (AudioReceiver.flush_flushBoundary r _ now)
      (fun a ha => hnearNew _ (List.mem_map_of_mem ha)) hordNew, hqueue, hold,
      stamped_trimQueue old B hnearOld, timeline_append, List.filter_append, wrapStamps_append]
  · refine AudioReceiver.arriveAll_nonempty arrivals _ himp' ?_
    rw [hqueue]
    exact trimQueue_nonempty _ _

/-- A boundary inside the block across the wrap. -/
theorem flush_boundary_exact_wrapping :
    let s := (wrapping.flush (some (wrap 32 (2 ^ 32 - 1))) 7).arriveAll [afterWrap]
    stamped s.pcmQueue =
        wrapStamps ((timeline [acrossWrap, afterWrap.placed]).filter
          fun t => 2 ^ 32 - 1 ≤ t.1) ∧
      (∀ f ∈ s.pcmQueue, f.samples ≠ []) ∧
      (wrapping.queuedSamples + Arrival.brought [afterWrap] ≤ wrapping.limit →
        (wrapping.flush (some (wrap 32 (2 ^ 32 - 1))) 7).enqueueAll [afterWrap] = s) :=
  flush_boundary_exact wrapping rfl (2 ^ 32 - 1) 7 [acrossWrap] [afterWrap] rfl (by decide)
    (by decide)

/-! ### The saved tail -/

namespace AudioReceiver

/-- Five seconds of frames are far below half the RTP range. -/
theorem lead_small (s : AudioReceiver α) : s.cfg.sampleRate * 5 < 2 ^ 31 := by
  have := s.cfg.rate_fits
  omega

/-- A block that starts where the saved tail ends continues it up to the boundary. -/
theorem drains_placed {s : AudioReceiver α} {B : Int} {a : Arrival α} {back : PcmFrame α}
    (himp : s.importedPause = false) (hfence : s.flushBoundary = some (wrap 32 B))
    (hback : s.pausedPcm.getLast? = some back) (hend : back.endRtp = wrap 32 a.pos)
    (hle : a.pos ≤ B) (hlead : B - a.pos ≤ s.cfg.sampleRate * 5) :
    s.drains a.placed.frame =
      if a.chunk.samples.take ((B - a.pos).toNat * 2) = [] then []
      else [{a.placed.frame with samples := a.chunk.samples.take ((B - a.pos).toNat * 2)}] := by
  have hsmall := lead_small s
  have hdist : (wrap 32 B - wrap 32 a.pos).toNat = (B - a.pos).toNat :=
    wrap_sub_toNat hle (by omega)
  have hlimit : wrap 32 B - wrap 32 a.pos ≤ BitVec.ofInt 32 (s.cfg.sampleRate * 5) := by
    rw [BitVec.le_def, hdist, BitVec.toNat_ofInt, Int.emod_eq_of_lt] <;> omega
  have hself : a.placed.frame.trim (wrap 32 a.pos) = a.placed.frame := trim_self a.placed.frame
  have hrtp : a.placed.frame.rtp = wrap 32 a.pos := rfl
  have hsamples : a.placed.frame.samples = a.chunk.samples := rfl
  have hne := a.chunk.nonempty
  have hkept : (if a.chunk.samples.length / 2 > (B - a.pos).toNat then
        a.chunk.samples.take ((B - a.pos).toNat * 2) else a.chunk.samples) =
      a.chunk.samples.take ((B - a.pos).toNat * 2) := by
    have heven := a.chunk.stereo
    split
    · rfl
    · rw [List.take_of_length_le (by omega)]
  simp only [drains, himp, hfence, hback, drained, hend, hself, hrtp, hsamples, hdist, hlimit,
    hne, hkept, ne_eq, not_false_eq_true, and_self, if_true, ite_not, Bool.false_eq_true, if_false]

/-- Its frames are those before the boundary. -/
theorem stamped_drains {s : AudioReceiver α} {B : Int} {a : Arrival α} {back : PcmFrame α}
    (himp : s.importedPause = false) (hfence : s.flushBoundary = some (wrap 32 B))
    (hback : s.pausedPcm.getLast? = some back) (hend : back.endRtp = wrap 32 a.pos)
    (hle : a.pos ≤ B) (hlead : B - a.pos ≤ s.cfg.sampleRate * 5) :
    stamped (s.drains a.placed.frame) =
      wrapStamps ((timeline [a.placed]).filter fun t => t.1 < B) := by
  let kept : Placed α :=
    ⟨{a.placed.frame with samples := a.chunk.samples.take ((B - a.pos).toNat * 2)}, a.pos, rfl⟩
  have hkept : (timeline [a.placed]).filter (fun t => t.1 < B) = timeline [kept] := by
    rw [timeline_cons, timeline_cons, timeline_nil, List.append_nil, List.append_nil,
      stamps_before, ← frames_take]
    rfl
  rw [drains_placed himp hfence hback hend hle hlead, hkept, ← stamped_placed]
  split
  · rename_i hnil
    simp [stamped, PcmFrame.block, kept, hnil, frames]
  · rfl

/-- Contiguous blocks from a position on have everything at or after it. -/
theorem timeline_ahead {B q : Int} {xs : List (Placed α)} (h : Contiguous q (xs.map Placed.block))
    (hle : B ≤ q) :
    (timeline xs).filter (fun t => B ≤ t.1) = timeline xs ∧
      (timeline xs).filter (fun t => t.1 < B) = [] := by
  have hafter : ∀ t ∈ timeline xs, B ≤ t.1 := fun t ht => hle.trans (contiguous_bounds h ht).1
  constructor
  · exact List.filter_eq_self.mpr fun t ht => decide_eq_true (hafter t ht)
  · exact List.filter_eq_nil_iff.mpr fun t ht => by simpa using hafter t ht

/-- Contiguous arrivals from where the saved tail ends: what is before the boundary
continues the tail, what is after it is live. While the fence stands a block either
lies before it, and then the tail ends where the next block starts, or reaches past
it and drops it; what follows is appended whole, however far it goes. -/
theorem arriveAll_junction (B : Int) (arrivals : List (Arrival α)) (s : AudioReceiver α) (q : Int)
    (himp : s.importedPause = false) (hfence : s.flushBoundary = some (wrap 32 B))
    {back : PcmFrame α} (hback : s.pausedPcm.getLast? = some back) (hend : back.endRtp = wrap 32 q)
    (hle : q ≤ B) (hlead : B - q ≤ s.cfg.sampleRate * 5)
    (hcont : Contiguous q ((arrivals.map Arrival.placed).map Placed.block)) :
    stamped (s.arriveAll arrivals).pausedPcm =
        stamped s.pausedPcm ++
          wrapStamps ((timeline (arrivals.map Arrival.placed)).filter fun t => t.1 < B) ∧
      stamped (s.arriveAll arrivals).pcmQueue =
        stamped s.pcmQueue ++
          wrapStamps ((timeline (arrivals.map Arrival.placed)).filter fun t => B ≤ t.1) := by
  induction arrivals generalizing s q back with
  | nil => exact ⟨(List.append_nil _).symm, (List.append_nil _).symm⟩
  | cons a rest ih =>
    obtain ⟨hq, hrest⟩ := hcont
    obtain rfl : a.pos = q := hq
    have hsmall := lead_small s
    have heven := a.chunk.stereo
    have hcut := fenced_placed hfence (x := a.placed) (B := B)
      ⟨show B - a.pos < 2 ^ 31 by omega, show a.pos - B ≤ 2 ^ 31 by omega⟩
    have himp' := arrive_importedPause a s himp
    have hboundary := arrive_flushBoundary a s himp
    have htail := arrive_pausedPcm a s himp
    have hcfg := (arrive_room a s himp).2
    replace hrest : Contiguous (a.pos + (a.chunk.samples.length / 2 : Nat))
        ((rest.map Arrival.placed).map Placed.block) := by
      rw [← frames_length]
      exact hrest
    have hsplit : ∀ p : Int × (α × α) → Bool,
        (timeline ((a :: rest).map Arrival.placed)).filter p =
          (timeline [a.placed]).filter p ++ (timeline (rest.map Arrival.placed)).filter p := by
      intro p
      rw [← List.filter_append, ← timeline_append]
      rfl
    rw [hsplit, hsplit, wrapStamps_append, wrapStamps_append, ← List.append_assoc,
      ← List.append_assoc, ← timeline_cut, ← stamped_live hcut,
      ← stamped_drains himp hfence hback hend hle hlead, ← stamped_append, ← stamped_append,
      arriveAll_cons, ← arrive_pcmQueue a s himp, ← htail]
    have hempty : (s.fenced a.placed.frame).samples.isEmpty = true ↔
        a.pos + (a.chunk.samples.length / 2 : Nat) ≤ B := by
      rw [hcut]
      exact cut_isEmpty B a
    by_cases hpast : B < a.pos + (a.chunk.samples.length / 2 : Nat)
    · -- the block reaches past the boundary
      rw [if_neg (by rw [hempty]; omega)] at hboundary
      obtain ⟨hqueue, htail'⟩ := arriveAll_plain rest (s.arrive a) himp' hboundary
      obtain ⟨hlate, hearly⟩ := timeline_ahead hrest hpast.le
      rw [hqueue, htail', hlate, hearly]
      exact ⟨(List.append_nil _).symm, rfl⟩
    · -- the block lies before it: the tail takes all of it and the fence stands
      rw [if_pos (hempty.mpr (Int.not_lt.mp hpast))] at hboundary
      have hall : a.chunk.samples.take ((B - a.pos).toNat * 2) = a.chunk.samples :=
        List.take_of_length_le (by omega)
      rw [drains_placed himp hfence hback hend hle hlead, hall, if_neg a.chunk.nonempty] at htail
      have hback' : (s.arrive a).pausedPcm.getLast? = some a.placed.frame := by
        rw [htail]
        exact List.getLast?_concat
      exact ih (s.arrive a) (a.pos + (a.chunk.samples.length / 2 : Nat)) himp'
        (hboundary.trans hfence) hback' (wrap_add_nat _ _).symm (by omega) (by rw [hcfg]; omega)
        hrest

end AudioReceiver

/-- A preserved FLUSH is lossless at its junction. The queue and what is decoded after
it are contiguous, and the boundary lies at the queue's end or up to five seconds
ahead: then the saved tail is exactly the frames before the boundary and the live
queue exactly those at or after it, each at its own RTP position. -/
theorem flush_junction_lossless (r : AudioReceiver α)
    (hpreserve : r.cfg.preservePausedAudio = true) (hsync : r.synchronize = true)
    (himp : r.importedPause = false) (p B now : Int) (old : List (Placed α))
    (arrivals : List (Arrival α)) (hold : r.pcmQueue = old.map Placed.frame) (hne : old ≠ [])
    (hcont : Contiguous p ((old ++ arrivals.map Arrival.placed).map Placed.block))
    (hlo : p + (timeline old).length ≤ B)
    (hhi : B - (p + (timeline old).length) ≤ r.cfg.sampleRate * 5) (hnear : B - p < 2 ^ 31) :
    let s := (r.flush (some (wrap 32 B)) now).arriveAll arrivals
    stamped s.pausedPcm =
        wrapStamps ((timeline (old ++ arrivals.map Arrival.placed)).filter fun t => t.1 < B) ∧
      stamped s.pcmQueue =
        wrapStamps ((timeline (old ++ arrivals.map Arrival.placed)).filter fun t => B ≤ t.1) ∧
      (r.queuedSamples + Arrival.brought arrivals ≤ r.limit →
        (r.flush (some (wrap 32 B)) now).enqueueAll arrivals = s) := by
  rw [List.map_append] at hcont
  obtain ⟨hcontOld, hcontNew⟩ := contiguous_append.mp hcont
  -- what the FLUSH itself leaves
  have hqueue := AudioReceiver.flush_pcmQueue r (wrap 32 B) now
  have htail : (r.flush (some (wrap 32 B)) now).pausedPcm = old.map Placed.frame := by
    have hsaves : r.saves = true := by
      simp [AudioReceiver.saves, himp, hpreserve, hsync, hold, hne]
    rw [AudioReceiver.flush_some, himp, hsaves, hold]
    rfl
  have holdNear : ∀ x ∈ old, x.Near B := by
    intro x hx
    have hx := contiguous_block hcontOld (List.mem_map_of_mem hx)
    have hlen : (laid (old.map Placed.block)).length = (timeline old).length := rfl
    rw [hlen] at hx
    exact ⟨show B - x.block.1 < 2 ^ 31 by omega, show x.block.1 - B ≤ 2 ^ 31 by omega⟩
  have hearly : (timeline old).filter (fun t => t.1 < B) = timeline old :=
    List.filter_eq_self.mpr fun t ht =>
      decide_eq_true ((contiguous_bounds hcontOld ht).2.trans_le hlo)
  -- where the tail ends is where the arrivals start
  obtain ⟨init, last, rfl⟩ : ∃ init last, old = init ++ [last] :=
    ⟨_, _, (List.dropLast_append_getLast hne).symm⟩
  have hback : (r.flush (some (wrap 32 B)) now).pausedPcm.getLast? = some last.frame := by
    rw [htail, List.map_append]
    exact List.getLast?_concat
  have hend : last.frame.endRtp = wrap 32 (p + (timeline (init ++ [last])).length) := by
    rw [List.map_append] at hcontOld
    obtain ⟨hstart, -⟩ := (contiguous_append.mp hcontOld).2
    have hpos : last.pos = p + (timeline init).length := hstart
    rw [timeline_append, List.length_append, timeline_cons, timeline_nil, List.append_nil,
      stamps_length, frames_length, Int.natCast_add, ← Int.add_assoc, ← hpos, wrap_add_nat,
      ← last.stamp]
    rfl
  obtain ⟨hpaused, hlive⟩ := AudioReceiver.arriveAll_junction B arrivals _ _
    ((AudioReceiver.flush_importedPause r _ now).trans himp)
    (AudioReceiver.flush_flushBoundary r _ now) hback hend hlo
    (by rw [AudioReceiver.flush_cfg]; exact hhi) hcontNew
  refine ⟨?_, ?_, AudioReceiver.flush_enqueueAll r himp _ now arrivals⟩
  · rw [hpaused, htail, stamped_placed, timeline_append (init ++ [last]), List.filter_append,
      wrapStamps_append, hearly]
  · rw [hlive, hqueue, hold, stamped_trimQueue _ B holdNear, timeline_append (init ++ [last]),
      List.filter_append, wrapStamps_append]

/-- A boundary inside the block that follows it. -/
theorem flush_junction_lossless_wrapping :
    let s := (wrapping.flush (some (wrap 32 (2 ^ 32 + 3))) 7).arriveAll [afterWrap]
    stamped s.pausedPcm =
        wrapStamps ((timeline [acrossWrap, afterWrap.placed]).filter
          fun t => t.1 < 2 ^ 32 + 3) ∧
      stamped s.pcmQueue =
        wrapStamps ((timeline [acrossWrap, afterWrap.placed]).filter
          fun t => 2 ^ 32 + 3 ≤ t.1) ∧
      (wrapping.queuedSamples + Arrival.brought [afterWrap] ≤ wrapping.limit →
        (wrapping.flush (some (wrap 32 (2 ^ 32 + 3))) 7).enqueueAll [afterWrap] = s) :=
  flush_junction_lossless wrapping rfl rfl rfl (2 ^ 32 - 2) (2 ^ 32 + 3) 7 [acrossWrap] [afterWrap]
    rfl (by decide) (by decide) (by decide) (by decide) (by decide)

end AirPlay.Audio
