import Mathlib.Data.Real.Basic
import Mathlib.Algebra.Order.Archimedean.Real.Basic
import Mathlib.Algebra.Order.Floor.Ring
import AirPlay.Clock.NtpClock

/-! The error of the clock mapping.

The remote clock runs at the rate of the local one with an offset nobody knows, and
shows real instants in ticks of 2⁻³² s; the local clock shows them in ns. An exchange
takes any time on its way out, at the sender and on its way back. How the delay splits
between the two ways cannot be seen, so half the round trip is the best bound there is;
`localTime_accurate` adds to it the rounding of the four stamps and of the query. -/
namespace AirPlay.Clock

open Serial NtpClock

/-! ### A remote clock -/

/-- What the remote clock counts at a local instant in ns, for its offset `θ`. -/
noncomputable def ticks (θ t : ℝ) : Int := ⌊(t + θ) * 2 ^ 32 / 10 ^ 9⌋

/-- The 64 bits of it that are sent. -/
noncomputable def stamp (θ t : ℝ) : BitVec 64 := wrap 64 (ticks θ t)

/-- The instants of a question and its answer. -/
structure Exchange where
  sent : ℝ
  arrived : ℝ
  departed : ℝ
  received : ℝ
  out : sent ≤ arrived
  processed : arrived ≤ departed
  back : departed ≤ received

namespace Exchange

noncomputable def observe (θ : ℝ) (x : Exchange) (clock : NtpClock) : NtpClock × Bool :=
  clock.observe ⌊x.sent⌋ ⌊x.received⌋ (stamp θ x.arrived) (stamp θ x.departed)

noncomputable def taken (θ : ℝ) (x : Exchange) : Option Sample :=
  NtpClock.taken ⌊x.sent⌋ ⌊x.received⌋ (stamp θ x.arrived) (stamp θ x.departed)

end Exchange

noncomputable def observeAll (θ : ℝ) (xs : List Exchange) : NtpClock :=
  xs.foldl (fun clock x => (x.observe θ clock).1) fresh

/-- The exchanges taken over, each with its sample. -/
noncomputable def accepted (θ : ℝ) (xs : List Exchange) : List (Exchange × Sample) :=
  xs.filterMap fun x => (x.taken θ).map (x, ·)

/-- The last eight of them. -/
noncomputable def recent (θ : ℝ) (xs : List Exchange) : List (Exchange × Sample) :=
  (accepted θ xs).drop ((accepted θ xs).length - 8)

/-! ### Rounding -/

theorem ticks_bounds (θ t : ℝ) :
    (ticks θ t : ℝ) * 10 ^ 9 ≤ (t + θ) * 2 ^ 32 ∧ (t + θ) * 2 ^ 32 < (ticks θ t + 1) * 10 ^ 9 := by
  constructor
  · exact (le_div_iff₀ (by norm_num)).mp (Int.floor_le _)
  · exact (div_lt_iff₀ (by norm_num)).mp (Int.lt_floor_add_one _)

/-- Differences of stamps are differences of instants up to a tick and a cut ns, at any
offset and up to 63 years. -/
theorem deltaNs_near (θ : ℝ) {x y : ℝ} (h : |x - y| ≤ 2 * 10 ^ 18) :
    |(deltaNs (stamp θ x) (stamp θ y) : ℝ) - (x - y)| < 5 / 4 := by
  obtain ⟨hxlo, hxhi⟩ := ticks_bounds θ x
  obtain ⟨hylo, hyhi⟩ := ticks_bounds θ y
  rw [abs_le] at h
  have hlo : -(2 ^ 63 - 2 ^ 32) ≤ ticks θ x - ticks θ y := by
    have : (-(2 ^ 63 - 2 ^ 32) : ℝ) ≤ ticks θ x - ticks θ y := by linarith
    exact_mod_cast this
  have hhi : ticks θ x - ticks θ y ≤ 2 ^ 63 - 2 ^ 32 := by
    have : (ticks θ x - ticks θ y : ℝ) ≤ 2 ^ 63 - 2 ^ 32 := by linarith
    exact_mod_cast this
  have hcut : |(deltaNs (stamp θ x) (stamp θ y) : ℝ) * 2 ^ 32 -
      (ticks θ x - ticks θ y) * 10 ^ 9| < 2 ^ 32 := by
    exact_mod_cast deltaNs_wrap hlo hhi
  rw [abs_lt] at hcut ⊢
  constructor <;> linarith

/-! ### One sample -/

/-- A sample places the departure of the answer within half its round trip. -/
theorem taken_near {θ : ℝ} {x : Exchange} {s : Sample} (h : x.taken θ = some s) :
    -((s.rtt : ℝ) / 2 + 1) < s.localNs - x.departed ∧
      s.localNs - x.departed < (s.rtt : ℝ) / 2 + 7 / 4 := by
  have hs := taken_spec h
  have hout := x.out
  have hprocessed := x.processed
  have hback := x.back
  have hsent := Int.floor_le x.sent
  have hsent' := Int.lt_floor_add_one x.sent
  have hreceived := Int.floor_le x.received
  have hreceived' := Int.lt_floor_add_one x.received
  have helapsed : (⌊x.received⌋ - ⌊x.sent⌋ : ℝ) ≤ 1000000000 := by exact_mod_cast hs.elapsed_le
  -- the sender's own time is inside the exchange, and so its stamps are near
  have hprocessing := deltaNs_near θ (x := x.departed) (y := x.arrived) (by
    rw [abs_of_nonneg (by linarith)]
    linarith)
  rw [abs_lt] at hprocessing
  have hdelay : (⌊x.received⌋ - ⌊x.sent⌋ -
      deltaNs (stamp θ x.departed) (stamp θ x.arrived) : ℝ) ≤ s.rtt := by
    exact_mod_cast hs.rtt_eq ▸ le_max_left _ _
  have hhalf : (s.rtt / 2 : Int) * 2 ≤ (s.rtt : ℝ) ∧ (s.rtt : ℝ) ≤ (s.rtt / 2 : Int) * 2 + 1 := by
    constructor <;> exact_mod_cast (by omega)
  have hlocal : (s.localNs : ℝ) = ⌊x.received⌋ - (s.rtt / 2 : Int) := by
    exact_mod_cast hs.localNs_eq
  constructor <;> linarith

/-! ### The ring -/

/-- The clock holds the samples of the exchanges taken over. -/
theorem observeAll_eq (θ : ℝ) (xs : List Exchange) :
    observeAll θ xs = RingBuffer.pushAll {} ((accepted θ xs).map Prod.snd) := by
  induction xs using List.reverseRecOn with
  | nil => rfl
  | append_singleton xs x ih =>
    have hstep : observeAll θ (xs ++ [x]) = (x.observe θ (observeAll θ xs)).1 := by
      rw [observeAll, List.foldl_append]
      rfl
    rw [hstep, Exchange.observe, observe_eq, ← Exchange.taken, ih, accepted, accepted,
      List.filterMap_append]
    cases hx : x.taken θ with
    | none => simp [hx]
    | some s => simp [hx, RingBuffer.pushAll_concat]

theorem mem_recent_of_slot {θ : ℝ} {xs : List Exchange} {s : Sample} (hvalid : s.valid = true)
    (hs : s ∈ (observeAll θ xs).slots.toList) : ∃ x, (x, s) ∈ recent θ xs := by
  rw [Vector.mem_toList_iff, observeAll_eq] at hs
  rcases RingBuffer.mem_slots (by decide) hs with rfl | hmem
  · cases hvalid
  · rw [← List.map_drop, List.length_map] at hmem
    obtain ⟨⟨x, s'⟩, hx, rfl⟩ := List.mem_map.mp hmem
    exact ⟨x, hx⟩

theorem slot_of_mem_recent {θ : ℝ} {xs : List Exchange} {x : Exchange} {s : Sample}
    (h : (x, s) ∈ recent θ xs) : s ∈ (observeAll θ xs).slots.toList := by
  rw [Vector.mem_toList_iff, observeAll_eq]
  apply RingBuffer.slots_mem (by decide)
  rw [← List.map_drop, List.length_map]
  exact List.mem_map.mpr ⟨_, h, rfl⟩

theorem taken_of_mem_recent {θ : ℝ} {xs : List Exchange} {x : Exchange} {s : Sample}
    (h : (x, s) ∈ recent θ xs) : x.taken θ = some s := by
  obtain ⟨y, -, hy⟩ := List.mem_filterMap.mp (List.mem_of_mem_drop h)
  obtain ⟨s', hs', heq⟩ := Option.map_eq_some_iff.mp hy
  cases heq
  exact hs'

/-- A sample the query may choose, chosen for its round trip among the last eight. -/
structure Chosen (θ : ℝ) (xs : List Exchange) (now : Int) (x : Exchange) (s : Sample) : Prop where
  recent : (x, s) ∈ recent θ xs
  fresh : Fresh now s
  least : ∀ y s', (y, s') ∈ Clock.recent θ xs → Fresh now s' → s.rtt ≤ s'.rtt

theorem best_chosen {θ : ℝ} {xs : List Exchange} {now : Int} {s : Sample}
    (h : best now (observeAll θ xs).slots.toList = some s) : ∃ x, Chosen θ xs now x s := by
  rw [best_eq] at h
  obtain ⟨hslot, hfresh⟩ := List.mem_filter.mp (List.argmin_mem h)
  have hvalid : s.valid = true := by
    rw [Fresh, Bool.and_eq_true, Bool.and_eq_true] at hfresh
    exact hfresh.1.1
  obtain ⟨x, hx⟩ := mem_recent_of_slot hvalid hslot
  refine ⟨x, hx, hfresh, fun y s' hy hfresh' => ?_⟩
  exact List.le_of_mem_argmin (List.mem_filter.mpr ⟨slot_of_mem_recent hy, hfresh'⟩) h

theorem best_none {θ : ℝ} {xs : List Exchange} {now : Int}
    (h : ∀ x s, (x, s) ∈ recent θ xs → ¬Fresh now s) :
    best now (observeAll θ xs).slots.toList = none := by
  rw [best_eq, List.argmin_eq_none, List.filter_eq_nil_iff]
  intro s hslot hfresh
  have hvalid : s.valid = true := by
    rw [Fresh, Bool.and_eq_true, Bool.and_eq_true] at hfresh
    exact hfresh.1.1
  obtain ⟨x, hx⟩ := mem_recent_of_slot hvalid hslot
  exact h x s hx hfresh

/-! ### The mapping -/

/-- Whatever the offset, the exchanges and their delays: an answer is read by the sample
chosen, half whose round trip and 3 ns bound the error of a stamp at most 63 years off (an
answer is given up to 30 s), and without a sample to choose there is no answer. -/
theorem localTime_accurate (θ T : ℝ) (xs : List Exchange) (now : Int) :
    (∀ t, localTime (stamp θ T) now (observeAll θ xs) = some t →
      ∃ x s, Chosen θ xs now x s ∧ s.rtt ≤ 500000000 ∧
        (|T - x.departed| ≤ 2 * 10 ^ 18 → |(t : ℝ) - T| < (s.rtt : ℝ) / 2 + 3)) ∧
    ((∀ x s, (x, s) ∈ recent θ xs → ¬Fresh now s) →
      localTime (stamp θ T) now (observeAll θ xs) = none) := by
  constructor
  · intro t ht
    unfold localTime at ht
    split at ht
    · cases ht
    · rename_i s hbest
      obtain ⟨x, hx⟩ := best_chosen hbest
      have htaken := taken_of_mem_recent hx.recent
      refine ⟨x, s, hx, (taken_spec htaken).rtt_le, fun hT => ?_⟩
      rw [(taken_spec htaken).remote] at ht
      simp only at ht
      split at ht
      · cases ht
      · obtain rfl := Option.some.inj ht
        obtain ⟨hlo, hhi⟩ := taken_near htaken
        have hdelta := deltaNs_near θ hT
        rw [abs_lt] at hdelta ⊢
        push_cast
        constructor <;> linarith
  · intro h
    rw [localTime, best_none h]

/-! ### Fixed inputs

An answer of an epoch 400000 s ahead, 20 ms on its way out and none on its way back: the
bound is met up to the rounding. -/

noncomputable def oneWay : Exchange where
  sent := 1000000000
  arrived := 1020000000
  departed := 1020000000
  received := 1020000000
  out := by norm_num
  processed := by norm_num
  back := by norm_num

noncomputable def ahead : ℝ := 400000000000000 - 1020000000

theorem stamp_ahead {t : ℝ} (n : Int) (ht : (t + ahead) * 2 ^ 32 / 10 ^ 9 = n) :
    stamp ahead t = wrap 64 n := by
  rw [stamp, ticks, ht, Int.floor_intCast]

theorem localTime_accurate_oneWay :
    ∃ x s, Chosen ahead [oneWay] 1020000000 x s ∧ s.rtt ≤ 500000000 ∧
      (|4020000000 - x.departed| ≤ 2 * 10 ^ 18 →
        |((4010000000 : Int) : ℝ) - 4020000000| < (s.rtt : ℝ) / 2 + 3) := by
  have hanswer : stamp ahead oneWay.departed = wrap 64 (400000 * 2 ^ 32) :=
    stamp_ahead _ (by norm_num [ahead, oneWay])
  have hquery : stamp ahead 4020000000 = wrap 64 (400003 * 2 ^ 32) :=
    stamp_ahead _ (by norm_num [ahead])
  have hsent : ⌊oneWay.sent⌋ = 1000000000 := by norm_num [oneWay]
  have hreceived : ⌊oneWay.received⌋ = 1020000000 := by norm_num [oneWay]
  refine (localTime_accurate ahead 4020000000 [oneWay] 1020000000).1 4010000000 ?_
  show localTime _ _ (oneWay.observe ahead fresh).1 = _
  rw [Exchange.observe, show oneWay.arrived = oneWay.departed from rfl, hanswer, hquery, hsent,
    hreceived]
  decide

end AirPlay.Clock
