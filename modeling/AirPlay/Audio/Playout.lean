import AirPlay.Audio.Boundary

/-! The order of playout.

Blocks are queued in the order they arrive and leave the queue at its front, so the
sink is given them in that order: nothing sorts them by RTP stamp. Two blocks that
arrive swapped are played swapped (`swapped_plays`). What the deadlines do is bound
how far back a block can be that is played after a later one: it missed its own
deadline by at most 250 ms (`played_in_arrival_order`). -/
namespace AirPlay.Audio

open Serial Timeline

variable {α : Type}

/-! ### Arrivals and turns -/

/-- What happens to a receiver between control calls: a block arrives, or the playout
loop takes a turn. -/
inductive Happening (α : Type) where
  | arrives (a : Arrival α)
  | turn (around : AudioReceiver.Surroundings)

namespace Happening

def event : Happening α → Event α
  | .arrives a => .pcm (wrap 32 a.pos) a.chunk a.now a.pending
  | .turn around => .playout around

/-- The blocks that arrive, in that order. -/
def arrivals : List (Happening α) → List (Placed α)
  | [] => []
  | .arrives a :: rest => a.placed :: arrivals rest
  | .turn _ :: rest => arrivals rest

/-- The turns taken. -/
def turns : List (Happening α) → List AudioReceiver.Surroundings
  | [] => []
  | .arrives _ :: rest => turns rest
  | .turn around :: rest => around :: turns rest

end Happening

namespace AudioReceiver

/-- The blocks handed to the sink, each with the turn that did it. -/
def played (r : AudioReceiver α) : List (Happening α) → List (PcmFrame α × Surroundings)
  | [] => []
  | .arrives a :: rest => (r.react (Happening.arrives a).event).played rest
  | .turn around :: rest =>
    (r.handed (.playout around)).map (·, around) ++ (r.react (.playout around)).played rest

/-! ### Deadlines -/

/-- A receiver in steady synchronized play, its anchor at position `A`. -/
structure Steady (A : Int) (ntp : BitVec 64) (r : AudioReceiver α) : Prop where
  synchronize : r.synchronize = true
  client : r.cfg.ntp = true
  anchor : r.haveAnchor = true
  anchorRtp : r.syncRtp = wrap 32 A
  anchorNtp : r.syncNtp = ntp
  live : r.importedPause = false
  reached : r.flushBoundary = none

/-- When a block is due, for an anchor at position `A` and local time `M`. -/
def due (rate A M : Int) (x : Placed α) : Int :=
  M + ((x.pos - A) * 1000000000).tdiv rate

/-- A block scheduled by its RTP stamp, within half the RTP range of the anchor. -/
def Scheduled (A : Int) (x : Placed α) : Prop :=
  x.frame.localTargetNs = 0 ∧ -2 ^ 31 ≤ x.pos - A ∧ x.pos - A < 2 ^ 31

instance (A : Int) (x : Placed α) : Decidable (Scheduled A x) :=
  inferInstanceAs (Decidable (_ ∧ _))

theorem target_due {A M : Int} {ntp : BitVec 64} {r : AudioReceiver α} (h : Steady A ntp r)
    {around : Surroundings} (hclock : around.localTimeNs ntp = some M) {x : Placed α}
    (hx : Scheduled A x) : r.target around x.frame = some (due r.cfg.sampleRate A M x) := by
  obtain ⟨hlocal, hlo, hhi⟩ := hx
  rw [target, if_neg (by simp [hlocal]), if_pos (by simp [h.synchronize, h.client, h.anchor]),
    h.anchorNtp, hclock, x.stamp, h.anchorRtp, signedTicks, wrap_sub_signed hlo hhi]
  rfl

/-- The turn that hands a block to the sink. -/
def Plays (rate A M : Int) (x : Placed α) (around : Surroundings) : Prop :=
  around.pendingNs ≤ 60000000 ∧
    (5000000000 < due rate A M x - around.now - around.pendingNs ∨
      -250000000 ≤ due rate A M x - around.now - around.pendingNs ∧
        due rate A M x - around.now - around.pendingNs ≤ 1000000)

namespace Steady
variable {A : Int} {ntp : BitVec 64} {r : AudioReceiver α}

theorem arrives (h : Steady A ntp r) (a : Arrival α) :
    Steady A ntp (r.react (Happening.arrives a).event) ∧
      (r.react (Happening.arrives a).event).pcmQueue =
        (r.evicted a.chunk.samples.length).pcmQueue ++ [a.placed.frame] := by
  have hinsert : (r.evicted a.chunk.samples.length).insert (wrap 32 a.pos) a.chunk.samples a.now
      a.pending = _ := insert_plain h.live h.reached a.chunk.nonempty
  rw [Happening.event, react, enqueue, hinsert]
  exact ⟨⟨h.synchronize, h.client, h.anchor, h.anchorRtp, h.anchorNtp, h.live, h.reached⟩, rfl⟩

theorem turn (h : Steady A ntp r) (around : Surroundings) :
    Steady A ntp (r.react (.playout around)) := by
  have hfields : ∀ queue queued, Steady A ntp
      {r with clearOutput := false, pcmQueue := queue, queuedSamples := queued} := fun _ _ =>
    ⟨h.synchronize, h.client, h.anchor, h.anchorRtp, h.anchorNtp, h.live, h.reached⟩
  show Steady A ntp (r.playout around).1
  rcases playout_cases around r with hwait | ⟨front, rest, -, hpop, -⟩
  · rw [hwait]
    exact hfields _ _
  · rw [hpop]
    exact hfields _ _

end Steady

/-- What is played comes from the queue and the arrivals in their order, each block in
a turn of its own that found it due. -/
theorem played_spec {A M : Int} {ntp : BitVec 64} (hs : List (Happening α)) (r : AudioReceiver α)
    (queue : List (Placed α)) (h : Steady A ntp r) (hqueue : r.pcmQueue = queue.map Placed.frame)
    (hblocks : ∀ x ∈ queue ++ Happening.arrivals hs, Scheduled A x)
    (hclock : ∀ around ∈ Happening.turns hs, around.localTimeNs ntp = some M) :
    ∃ given : List (Placed α × Surroundings),
      r.played hs = given.map (fun g => (g.1.frame, g.2)) ∧
        (given.map Prod.fst).Sublist (queue ++ Happening.arrivals hs) ∧
        (given.map Prod.snd).Sublist (Happening.turns hs) ∧
        ∀ g ∈ given, Plays r.cfg.sampleRate A M g.1 g.2 := by
  induction hs generalizing r queue with
  | nil => exact ⟨[], rfl, List.nil_sublist _, List.nil_sublist _, by simp⟩
  | cons e rest ih =>
    cases e with
    | arrives a =>
      obtain ⟨hsteady, hnew⟩ := h.arrives a
      obtain ⟨dropped, hq, -, -⟩ :=
        evict_cases r.limit a.chunk.samples.length r.pcmQueue r.queuedSamples
      -- the cap drops from the front
      obtain ⟨gone, left, rfl, -, hleft⟩ := List.map_eq_append_iff.mp (hqueue.symm.trans hq)
      have hsub : (left ++ [a.placed] ++ Happening.arrivals rest).Sublist
          (gone ++ left ++ Happening.arrivals (.arrives a :: rest)) := by
        rw [List.append_assoc, List.append_assoc]
        exact List.sublist_append_right _ _
      obtain ⟨given, hplayed, hfrom, hturns, hplays⟩ := ih _ (left ++ [a.placed]) hsteady
        (by rw [hnew, List.map_append, hleft]; rfl) (fun x hx => hblocks x (hsub.subset hx)) hclock
      rw [react_cfg] at hplays
      exact ⟨given, hplayed, hfrom.trans hsub, hturns, hplays⟩
    | turn around =>
      obtain ⟨hnow, hlater⟩ := List.forall_mem_cons.mp hclock
      have hsteady := h.turn around
      rcases playout_cases around r with hwait | ⟨front, after, hq, hpop, hsink⟩
      · -- the front block waits, or there is none
        have hsame : (r.react (.playout around)).pcmQueue = queue.map Placed.frame :=
          (congrArg (fun t => t.1.pcmQueue) hwait).trans hqueue
        have hsilent : r.handed (.playout around) = [] :=
          congrArg (fun t => t.2.toList) hwait
        obtain ⟨given, hplayed, hfrom, hturns, hplays⟩ := ih _ queue hsteady hsame hblocks hlater
        rw [react_cfg] at hplays
        refine ⟨given, ?_, hfrom, hturns.cons _, hplays⟩
        rw [played, hsilent, hplayed]
        rfl
      · obtain ⟨x, left, rfl, rfl, rfl⟩ := List.map_eq_cons_iff.mp (hqueue.symm.trans hq)
        have hblocks' := fun y hy => hblocks y (List.mem_cons_of_mem x hy)
        obtain ⟨given, hplayed, hfrom, hturns, hplays⟩ :=
          ih _ left hsteady (congrArg pcmQueue hpop) hblocks' hlater
        rw [react_cfg] at hplays
        rcases hsink with hnone | hsome
        · -- dropped as late, or played without a device
          have hsilent : r.handed (.playout around) = [] := congrArg Option.toList hnone
          refine ⟨given, ?_, hfrom.cons _, hturns.cons _, hplays⟩
          rw [played, hsilent, hplayed]
          rfl
        · have hgiven : r.handed (.playout around) = [x.frame] := congrArg Option.toList hsome
          obtain ⟨houtput, hturn⟩ := playout_plays hsome
          refine ⟨(x, around) :: given, ?_, hfrom.cons_cons _, hturns.cons_cons _,
            List.forall_mem_cons.mpr ⟨?_, hplays⟩⟩
          · rw [played, hgiven, hplayed]
            rfl
          · exact turn_play h.synchronize houtput
              (target_due h hnow (hblocks x List.mem_cons_self)) hturn

/-! ### How far back a late block can be -/

/-- A truncated quotient is off by less than one. -/
theorem tdiv_near {x rate : Int} (h : 0 < rate) :
    x < (x.tdiv rate + 1) * rate ∧ (x.tdiv rate - 1) * rate < x := by
  have hsplit := Int.tdiv_mul_add_tmod x rate
  have hlt := Int.tmod_lt_of_pos x h
  have hgt := Int.lt_tmod_of_pos x h
  rw [Int.add_mul, Int.sub_mul, Int.one_mul]
  omega

/-- Deadlines at most 311 ms apart are positions at most that far apart, and the
rounding of the two. -/
theorem due_lag {rate A M : Int} (hrate : 0 < rate) {x y : Placed α}
    (h : due rate A M x - due rate A M y ≤ 311000000) :
    (x.pos - y.pos) * 1000000000 < 311000002 * rate := by
  have hx := (tdiv_near (x := (x.pos - A) * 1000000000) hrate).1
  have hy := (tdiv_near (x := (y.pos - A) * 1000000000) hrate).2
  unfold due at h
  have hdiff : ((x.pos - A) * 1000000000).tdiv rate + 1 -
      (((y.pos - A) * 1000000000).tdiv rate - 1) ≤ 311000002 := by omega
  have hscaled := Int.mul_le_mul_of_nonneg_right hdiff hrate.le
  rw [Int.sub_mul] at hscaled
  omega

/-- A block played after another was due no more than 250 ms before its turn, the
other no more than 1 ms and what was pending after its own. -/
theorem plays_lag {rate A M : Int} (hrate : 0 < rate) {x y : Placed α} {t u : Surroundings}
    (hx : Plays rate A M x t) (hy : Plays rate A M y u) (htime : t.now ≤ u.now)
    (hpending : 0 ≤ u.pendingNs)
    (hreach : due rate A M x - t.now - t.pendingNs ≤ 5000000000) :
    (x.pos - y.pos) * 1000000000 < 311000002 * rate := by
  obtain ⟨hsmall, hlate | ⟨-, hsoon⟩⟩ := hx
  · omega
  · obtain ⟨-, hfar | ⟨hkept, -⟩⟩ := hy
    · exact due_lag (A := A) (M := M) hrate (by omega)
    · exact due_lag (A := A) (M := M) hrate (by omega)

end AudioReceiver

/-- **Playout keeps the order of arrival.** In steady synchronized play, with one clock
mapping and one anchor, the sink is given a part of what was queued and arrives, in
that order: in strictly increasing RTP order when that is the order of arrival. A
block that comes after a later one of the timeline may be played after it; it is then
less than 311 ms behind it (250 ms of tolerated lateness, 60 ms pending, 1 ms of
early play, and rounding), unless the later one was due over five seconds after the
turn that played it. -/
theorem played_in_arrival_order {A M : Int} {ntp : BitVec 64} (r : AudioReceiver α)
    (h : r.Steady A ntp) (queue : List (Placed α)) (hqueue : r.pcmQueue = queue.map Placed.frame)
    (hs : List (Happening α))
    (hblocks : ∀ x ∈ queue ++ Happening.arrivals hs,
      AudioReceiver.Scheduled A x ∧ x.frame.Stereo)
    (hclock : ∀ around ∈ Happening.turns hs,
      around.localTimeNs ntp = some M ∧ 0 ≤ around.pendingNs)
    (htime : (Happening.turns hs).Pairwise fun t u => t.now ≤ u.now) :
    ∃ given : List (Placed α × AudioReceiver.Surroundings),
      r.played hs = given.map (fun g => (g.1.frame, g.2)) ∧
      (given.map Prod.fst).Sublist (queue ++ Happening.arrivals hs) ∧
      (Ordered ((queue ++ Happening.arrivals hs).map Placed.block) →
        given.Pairwise fun g g' => g.1.pos < g'.1.pos) ∧
      given.Pairwise fun g g' => g'.1.pos < g.1.pos →
        AudioReceiver.due r.cfg.sampleRate A M g.1 - g.2.now - g.2.pendingNs ≤ 5000000000 →
          (g.1.pos - g'.1.pos) * 1000000000 < 311000002 * r.cfg.sampleRate := by
  obtain ⟨given, hplayed, hfrom, hturns, hplays⟩ := AudioReceiver.played_spec hs r queue h hqueue
    (fun x hx => (hblocks x hx).1) (fun around ha => (hclock around ha).1)
  refine ⟨given, hplayed, hfrom, fun hord => ?_, ?_⟩
  · have hsub : (given.map Prod.fst).Pairwise fun x y => x.endPos ≤ y.pos := by
      refine List.Pairwise.sublist hfrom ((List.pairwise_map.mp hord).imp fun {x y} hxy => ?_)
      rw [Placed.endPos, ← frames_length]
      exact hxy
    refine (List.pairwise_map.mp hsub).imp_of_mem fun {g g'} hg _ hle => ?_
    obtain ⟨hne, heven⟩ := (hblocks g.1 (hfrom.subset (List.mem_map_of_mem hg))).2
    have hlen := List.length_pos_of_ne_nil hne
    rw [Placed.endPos] at hle
    omega
  · have hnow : (given.map Prod.snd).Pairwise fun t u => t.now ≤ u.now :=
      List.Pairwise.sublist hturns htime
    refine (List.pairwise_map.mp hnow).imp_of_mem fun {g g'} hg hg' hle _ hreach => ?_
    have hpending := (hclock g'.2 (hturns.subset (List.mem_map_of_mem hg'))).2
    exact AudioReceiver.plays_lag r.rate_pos (hplays g hg) (hplays g' hg') hle hpending hreach

/-! ### Fixed inputs

Two blocks of two frames that arrive swapped, due at once by the anchor, and two
turns that play them. -/

def earlier : Arrival Nat := {pos := 0, chunk := lastChunk}

def later : Arrival Nat := {pos := 2, chunk := nextChunk}

def anchored : AudioReceiver Nat :=
  {(fresh : AudioReceiver Nat) with haveAnchor := true, syncNtp := 1}

def atOnce : AudioReceiver.Surroundings := ⟨0, true, true, fun _ => some 0, 0⟩

def swapped : List (Happening Nat) :=
  [.arrives later, .arrives earlier, .turn atOnce, .turn atOnce]

/-- In steady play the one with the later RTP stamp is played first, the earlier one after it. -/
theorem swapped_plays :
    anchored.Steady 0 1 ∧ (∀ x ∈ Happening.arrivals swapped, AudioReceiver.Scheduled 0 x) ∧
      (anchored.played swapped).map (fun g => g.1.rtp) = [2, 0] ∧
      ¬ ((anchored.played swapped).map fun g => g.1.rtp.toNat).Pairwise (· < ·) :=
  ⟨⟨rfl, rfl, rfl, rfl, rfl, rfl, rfl⟩, by decide, by decide, by decide⟩

theorem played_in_arrival_order_swapped :
    ∃ given : List (Placed Nat × AudioReceiver.Surroundings),
      anchored.played swapped = given.map (fun g => (g.1.frame, g.2)) ∧
      (given.map Prod.fst).Sublist [later.placed, earlier.placed] ∧
      (Ordered ([later.placed, earlier.placed].map Placed.block) →
        given.Pairwise fun g g' => g.1.pos < g'.1.pos) ∧
      given.Pairwise fun g g' => g'.1.pos < g.1.pos →
        AudioReceiver.due 44100 0 0 g.1 - g.2.now - g.2.pendingNs ≤ 5000000000 →
          (g.1.pos - g'.1.pos) * 1000000000 < 311000002 * 44100 :=
  played_in_arrival_order anchored ⟨rfl, rfl, rfl, rfl, rfl, rfl, rfl⟩ [] rfl swapped
    (by decide) (by simp [swapped, Happening.turns, atOnce]) (by decide)

end AirPlay.Audio
