import Mathlib.Logic.Function.Basic
import AirPlay.Library.Serial
import AirPlay.Audio.Receiver

/-! Deduplication of audio packets.

Senders repeat packets, and the packet thread hands each sequence number to the
decoder once: a bit for every 16-bit number marks those it has seen. So that the
numbers can come round again, every 1024th packet clears a stripe of 1024 bits some
8192 behind its own number — if that packet is itself the first copy of a real audio
packet; otherwise nothing is cleared. A stripe is thus cleared at the pace of all
packets but at the place of some, and a bit no stripe has covered when its number
comes round makes the first copy of a new packet a duplicate (`jumping_drops`).
`delivers_iff` says exactly when that does not happen. -/
namespace AirPlay.Audio

open Serial

/-! ### The packet thread -/

/-- What `thread_fn` keeps of the packets it has counted. -/
structure Dedup where
  pkts : BitVec 64 := 0
  seenSeq : BitVec 16 → Bool := fun _ => false

namespace Dedup

/-- The sequence number in the RTP header. -/
def be16 (datagram : List UInt8) : BitVec 16 :=
  (datagram.getD 2 0).toBitVec.setWidth 16 <<< 8 ||| (datagram.getD 3 0).toBitVec.setWidth 16

/-- The loop that clears a stripe of 1024 bits. -/
def erase (eraseFrom : BitVec 16) (seen : BitVec 16 → Bool) : BitVec 16 → Bool :=
  (List.range 1024).foldl (fun seen k => Function.update seen (eraseFrom + BitVec.ofNat 16 k) false)
    seen

/-- One datagram: the state after it, and whether it is passed to the decoder. -/
def receive (decoder : Bool) (datagram : List UInt8) (d : Dedup) : Dedup × Bool :=
  if datagram.length < 12 then (d, false)
  else
    let seq := be16 datagram
    let payloadLen := datagram.length - 12
    let d := {d with pkts := d.pkts + 1}
    -- the dwarf sync packets come with overlapping numbers of their own
    let realAudio := decide (100 ≤ payloadLen)
    if realAudio then
      if d.seenSeq seq then (d, false)
      else
        let seen := Function.update d.seenSeq seq true
        let seen := if d.pkts &&& 0x3ff = 0 then erase (seq - 8192) seen else seen
        ({d with seenSeq := seen}, decoder)
    else (d, false)

/-- The loop clears its stripe and nothing else. -/
theorem erase_apply (eraseFrom s : BitVec 16) (seen : BitVec 16 → Bool) :
    erase eraseFrom seen s = (seen s && !decide ((s - eraseFrom).toNat < 1024)) := by
  have hloop : ∀ n ≤ 1024, ((List.range n).foldl (fun (seen : BitVec 16 → Bool) k =>
      Function.update seen (eraseFrom + BitVec.ofNat 16 k) false) seen) s =
        (seen s && !decide ((s - eraseFrom).toNat < n)) := by
    intro n hn
    induction n with
    | zero => simp
    | succ n ih =>
      rw [List.range_succ, List.foldl_append, List.foldl_cons, List.foldl_nil,
        Function.update_apply, ih (by omega)]
      by_cases hs : s = eraseFrom + BitVec.ofNat 16 n
      · have hn : (s - eraseFrom).toNat = n := by bv_omega
        rw [if_pos hs, hn, decide_eq_true (Nat.lt_succ_self n), Bool.not_true, Bool.and_false]
      · have hn : (s - eraseFrom).toNat ≠ n := fun h => hs (by bv_omega)
        have hlt : (s - eraseFrom).toNat < n + 1 ↔ (s - eraseFrom).toNat < n := by omega
        rw [if_neg hs, decide_eq_decide.mpr hlt]
  exact hloop 1024 (Nat.le_refl _)

/-- A packet without the payload of real audio is only counted. -/
theorem receive_dwarf {decoder : Bool} {datagram : List UInt8} {d : Dedup}
    (hheader : 12 ≤ datagram.length) (hdwarf : datagram.length < 112) :
    d.receive decoder datagram = ({d with pkts := d.pkts + 1}, false) := by
  unfold receive
  rw [if_neg (by omega)]
  simp only [decide_eq_true_eq]
  rw [if_neg (by omega)]

/-- Real audio is passed on unless its bit is set; then it sets its bit and clears the
stripe that is due. -/
theorem receive_real {decoder : Bool} {datagram : List UInt8} {d : Dedup}
    (hreal : 112 ≤ datagram.length) :
    d.receive decoder datagram =
      if d.seenSeq (be16 datagram) then ({d with pkts := d.pkts + 1}, false)
      else
        ({ pkts := d.pkts + 1
           seenSeq :=
            if (d.pkts + 1) &&& 0x3ff = 0 then
              erase (be16 datagram - 8192) (Function.update d.seenSeq (be16 datagram) true)
            else Function.update d.seenSeq (be16 datagram) true }, decoder) := by
  unfold receive
  rw [if_neg (by omega)]
  simp only [decide_eq_true_eq]
  rw [if_pos (by omega)]

end Dedup

/-! ### A run of packets -/

/-- A packet whose 16-bit number is the truncation of an extended one. -/
structure RtpPacket where
  extended : Int
  datagram : List UInt8
  header : 12 ≤ datagram.length
  seq : Dedup.be16 datagram = wrap 16 extended

namespace RtpPacket

/-- At least 100 bytes of payload. -/
def Real (p : RtpPacket) : Prop := 112 ≤ p.datagram.length

def slot (p : RtpPacket) : BitVec 16 := wrap 16 p.extended

/-- A bit lies in the stripe a packet clears when it is its turn. -/
def Covers (p : RtpPacket) (s : BitVec 16) : Prop := (s - (p.slot - 8192)).toNat < 1024

instance (p : RtpPacket) : Decidable p.Real := inferInstanceAs (Decidable (_ ≤ _))

instance (p : RtpPacket) (s : BitVec 16) : Decidable (p.Covers s) :=
  inferInstanceAs (Decidable (_ < _))

/-- A stripe is behind its packet's own number. -/
theorem not_covers_self (p : RtpPacket) : ¬ p.Covers p.slot := by
  unfold Covers
  bv_omega

end RtpPacket

namespace Dedup

section Run
variable (ps : Nat → RtpPacket)

/-- The state before packet `i`. -/
def before : Nat → Dedup
  | 0 => {}
  | i + 1 => ((before i).receive true (ps i).datagram).1

/-- Packet `i` is passed to the decoder. -/
def Passes (i : Nat) : Prop := ((before ps i).receive true (ps i).datagram).2 = true

/-- Packet `i` is the first copy of a real audio packet. -/
def First (i : Nat) : Prop :=
  (ps i).Real ∧ ∀ j < i, (ps j).Real → (ps j).extended ≠ (ps i).extended

/-- The packets that clear a stripe are those at every 1024th place. -/
def Sweeps (i : Nat) : Prop := (i + 1) % 1024 = 0

/-- The largest extended number before packet `i`. -/
def top : Nat → Int
  | 0 => (ps 0).extended
  | i + 1 => max (top i) (ps i).extended

/-- Every packet is within 7000 of the largest number so far. -/
def Windowed (n : Nat) : Prop := ∀ i < n, ((ps i).extended - top ps i).natAbs ≤ 7000

instance (n : Nat) : Decidable (Windowed ps n) := inferInstanceAs (Decidable (∀ i < n, _))

theorem before_pkts (i : Nat) : (before ps i).pkts = BitVec.ofNat 64 i := by
  induction i with
  | zero => rfl
  | succ i ih =>
    have hcount : ((before ps i).receive true (ps i).datagram).1.pkts =
        (before ps i).pkts + 1 := by
      by_cases hreal : 112 ≤ (ps i).datagram.length
      · rw [receive_real hreal]
        split <;> rfl
      · rw [receive_dwarf (ps i).header (by omega)]
    show ((before ps i).receive true (ps i).datagram).1.pkts = _
    rw [hcount, ih]
    exact (BitVec.ofNat_add i 1).symm

/-- The mask of the packet counter picks every 1024th packet. -/
theorem sweeps_iff (i : Nat) : ((before ps i).pkts + 1) &&& 0x3ff = 0 ↔ Sweeps i := by
  have hmask : ((before ps i).pkts + 1 &&& 0x3ff).toNat = (i + 1) % 1024 := by
    rw [before_pkts, BitVec.toNat_and, BitVec.toNat_add, BitVec.toNat_ofNat]
    show ((i % 2 ^ 64 + 1) % 2 ^ 64) &&& (2 ^ 10 - 1) = _
    rw [Nat.and_two_pow_sub_one_eq_mod]
    omega
  rw [← BitVec.toNat_inj, hmask]
  rfl

theorem passes_iff (i : Nat) :
    Passes ps i ↔ (ps i).Real ∧ (before ps i).seenSeq (ps i).slot = false := by
  unfold Passes
  by_cases hreal : 112 ≤ (ps i).datagram.length
  · rw [receive_real hreal, (ps i).seq]
    show _ ↔ 112 ≤ _ ∧ (before ps i).seenSeq (wrap 16 (ps i).extended) = false
    cases hseen : (before ps i).seenSeq (wrap 16 (ps i).extended)
    · simp [hreal]
    · simp
  · rw [receive_dwarf (ps i).header (by omega)]
    exact iff_of_false Bool.false_ne_true fun h => hreal h.1

/-- A bit after a packet: set by it or before, and not in a stripe it clears. -/
theorem seen_succ (i : Nat) (s : BitVec 16) :
    (before ps (i + 1)).seenSeq s = true ↔
      ((Passes ps i ∧ (ps i).slot = s) ∨ (before ps i).seenSeq s = true) ∧
        ¬ (Passes ps i ∧ Sweeps i ∧ (ps i).Covers s) := by
  rw [passes_iff]
  show ((before ps i).receive true (ps i).datagram).1.seenSeq s = true ↔ _
  by_cases hreal : (ps i).Real
  · rw [receive_real hreal, (ps i).seq]
    cases hseen : (before ps i).seenSeq (ps i).slot
    · rw [if_neg (by rw [show wrap 16 (ps i).extended = (ps i).slot from rfl, hseen]; simp)]
      show (if (before ps i).pkts + 1 &&& 0x3ff = 0 then
        erase ((ps i).slot - 8192) (Function.update (before ps i).seenSeq (ps i).slot true)
        else Function.update (before ps i).seenSeq (ps i).slot true) s = true ↔ _
      have hset : Function.update (before ps i).seenSeq (ps i).slot true s = true ↔
          (ps i).slot = s ∨ (before ps i).seenSeq s = true := by
        rw [Function.update_apply]
        split
        · rename_i h
          simp [h]
        · rename_i h
          simp [Ne.symm h]
      by_cases hsweep : Sweeps i
      · rw [if_pos ((sweeps_iff ps i).mpr hsweep), erase_apply, Bool.and_eq_true, hset]
        simp [hreal, hsweep, RtpPacket.Covers]
      · rw [if_neg (fun h => hsweep ((sweeps_iff ps i).mp h)), hset]
        simp [hreal, hsweep]
    · rw [if_pos (by exact hseen)]
      simp
  · rw [receive_dwarf (ps i).header (by unfold RtpPacket.Real at hreal; omega)]
    simp [hreal]

/-- A bit is set exactly when a packet that was passed set it and no stripe cleared
since has covered it. -/
theorem seen_iff (i : Nat) (s : BitVec 16) :
    (before ps i).seenSeq s = true ↔
      ∃ j < i, Passes ps j ∧ (ps j).slot = s ∧
        ∀ m, j < m → m < i → Passes ps m → Sweeps m → ¬ (ps m).Covers s := by
  induction i with
  | zero => simp [before]
  | succ i ih =>
    rw [seen_succ, ih]
    constructor
    · rintro ⟨⟨hpass, hslot⟩ | ⟨j, hj, hpass, hslot, hclear⟩, hkept⟩
      · exact ⟨i, Nat.lt_succ_self i, hpass, hslot, fun m hlo hhi => by omega⟩
      · refine ⟨j, by omega, hpass, hslot, fun m hlo hhi hm hsweep hcover => ?_⟩
        rcases Nat.lt_succ_iff_lt_or_eq.mp hhi with hlt | rfl
        · exact hclear m hlo hlt hm hsweep hcover
        · exact hkept ⟨hm, hsweep, hcover⟩
    · rintro ⟨j, hj, hpass, hslot, hclear⟩
      rcases Nat.lt_succ_iff_lt_or_eq.mp hj with hlt | rfl
      · refine ⟨Or.inr ⟨j, hlt, hpass, hslot, fun m hlo hhi => hclear m hlo (by omega)⟩, ?_⟩
        rintro ⟨hm, hsweep, hcover⟩
        exact hclear i hlt (Nat.lt_succ_self i) hm hsweep hcover
      · refine ⟨Or.inl ⟨hpass, hslot⟩, ?_⟩
        rintro ⟨-, -, hcover⟩
        exact (ps j).not_covers_self (hslot ▸ hcover)

/-! ### Exactly one copy -/

/-- Of the first `n` packets the decoder gets one copy of every extended number of
real audio, the first, and nothing else. -/
structure Delivers (n : Nat) : Prop where
  real : ∀ i < n, Passes ps i → (ps i).Real
  first : ∀ i < n, First ps i → Passes ps i
  once : ∀ i < n, ∀ j < i, Passes ps i → Passes ps j → (ps j).extended ≠ (ps i).extended

/-- Where the number of a first copy comes round again, a first copy in between, at a
1024th place, clears its bit. -/
def Swept (n : Nat) : Prop :=
  ∀ i < n, First ps i → ∀ j < i, First ps j → (ps j).slot = (ps i).slot →
    ∃ m, j < m ∧ m < i ∧ First ps m ∧ Sweeps m ∧ (ps m).Covers (ps i).slot

variable {ps}

theorem exists_first {i : Nat} (h : (ps i).Real) :
    ∃ j ≤ i, First ps j ∧ (ps j).extended = (ps i).extended := by
  induction i using Nat.strong_induction_on with
  | h i ih =>
    by_cases hfirst : First ps i
    · exact ⟨i, Nat.le_refl i, hfirst, rfl⟩
    · obtain ⟨k, hk, hreal, hsame⟩ : ∃ k < i, (ps k).Real ∧ (ps k).extended = (ps i).extended := by
        by_contra hnone
        refine hfirst ⟨h, fun k hk hreal hsame => hnone ⟨k, hk, hreal, hsame⟩⟩
      obtain ⟨j, hj, hjfirst, hjext⟩ := ih k hk hreal
      exact ⟨j, by omega, hjfirst, hjext.trans hsame⟩

theorem delivers_first_iff {n : Nat} : Delivers ps n ↔ ∀ i < n, Passes ps i ↔ First ps i := by
  constructor
  · intro h i hi
    refine ⟨fun hpass => ⟨h.real i hi hpass, fun j hj hreal hsame => ?_⟩, h.first i hi⟩
    obtain ⟨k, hk, hfirst, hext⟩ := exists_first hreal
    exact h.once i hi k (by omega) hpass (h.first k (by omega) hfirst) (hext.trans hsame)
  · intro h
    refine ⟨fun i hi hpass => ((h i hi).mp hpass).1, fun i hi => (h i hi).mpr,
      fun i hi j hj hpi hpj => ?_⟩
    exact ((h i hi).mp hpi).2 j hj ((h j (by omega)).mp hpj).1

theorem le_top {i j : Nat} (h : j < i) : (ps j).extended ≤ top ps i := by
  induction i with
  | zero => omega
  | succ i ih =>
    rcases Nat.lt_succ_iff_lt_or_eq.mp h with hlt | rfl
    · exact (ih hlt).trans (Int.le_max_left _ _)
    · exact Int.le_max_right _ _

/-- Within the window no packet that arrives between two copies of a number clears its
bit: it is too near. -/
theorem not_covers_near {n i j m : Nat} (hwin : Windowed ps n) (hi : i < n) (hjm : j < m)
    (hmi : m < i) (hsame : (ps j).extended = (ps i).extended) : ¬ (ps m).Covers (ps i).slot := by
  have hlo := hwin i hi
  have hhi := hwin m (by omega)
  have htop : (ps m).extended ≤ top ps i := le_top hmi
  have htop' : (ps j).extended ≤ top ps m := le_top hjm
  have hdist : ((ps i).slot - ((ps m).slot - 8192)).toNat =
      ((ps i).extended - ((ps m).extended - 8192)).toNat := by
    have hback : (ps m).slot - 8192 = wrap 16 ((ps m).extended - 8192) := by
      rw [wrap_sub]
      rfl
    rw [hback]
    exact wrap_sub_toNat (by omega) (by omega)
  unfold RtpPacket.Covers
  omega

/-- Where bits are cleared in time, the first copies pass and no others. -/
theorem passes_of_swept {n : Nat} (hwin : Windowed ps n) (hswept : Swept ps n) (i : Nat)
    (hi : i < n) : Passes ps i ↔ First ps i := by
  induction i using Nat.strong_induction_on with
  | h i ih =>
    have hpast : ∀ j < i, Passes ps j ↔ First ps j := fun j hj => ih j hj (by omega)
    rw [passes_iff, ← Bool.not_eq_true, seen_iff]
    constructor
    · rintro ⟨hreal, hclear⟩
      refine ⟨hreal, fun k hk hkreal hsame => ?_⟩
      -- an earlier copy's first one set the bit, and nothing near clears it
      obtain ⟨j, hj, hjfirst, hjext⟩ := exists_first hkreal
      have hext := hjext.trans hsame
      exact hclear ⟨j, by omega, (hpast j (by omega)).mpr hjfirst, congrArg (wrap 16) hext,
        fun m hlo hhi _ _ => not_covers_near hwin hi hlo hhi hext⟩
    · rintro hfirst
      refine ⟨hfirst.1, ?_⟩
      rintro ⟨j, hj, hpass, hslot, hkept⟩
      obtain ⟨m, hlo, hhi, hmfirst, hsweep, hcover⟩ :=
        hswept i hi hfirst j hj ((hpast j hj).mp hpass) hslot
      exact hkept m hlo hhi ((hpast m hhi).mpr hmfirst) hsweep hcover

/-- **Exactly once, exactly when.** For packets within 7000 numbers of the largest so
far, the decoder gets one copy of each number of real audio if and only if every first
copy whose 16-bit number was used before finds its bit cleared in between. -/
theorem delivers_iff {n : Nat} (hwin : Windowed ps n) : Delivers ps n ↔ Swept ps n := by
  rw [delivers_first_iff]
  refine ⟨fun h i hi hfirst j hj hjfirst hslot => ?_, passes_of_swept hwin⟩
  have hclear := ((passes_iff ps i).mp ((h i hi).mpr hfirst)).2
  have hnot : ¬ ∃ j < i, Passes ps j ∧ (ps j).slot = (ps i).slot ∧
      ∀ m, j < m → m < i → Passes ps m → Sweeps m → ¬ (ps m).Covers (ps i).slot := by
    rw [← seen_iff, hclear]
    exact Bool.false_ne_true
  by_contra hnone
  refine hnot ⟨j, hj, (h j (by omega)).mpr hjfirst, hslot, fun m hlo hhi hm hsweep hcover => ?_⟩
  exact hnone ⟨m, hlo, hhi, (h m (by omega)).mp hm, hsweep, hcover⟩

end Run

/-! ### A first copy dropped -/

/-- A packet of real audio: the fixed header with its number, and 100 bytes. -/
def numbered (extended : Int) : RtpPacket where
  extended
  datagram :=
    [0x80, 0x60, ⟨(wrap 16 extended >>> 8).setWidth 8⟩, ⟨(wrap 16 extended).setWidth 8⟩] ++
      List.replicate 108 0
  header := by simp
  seq := by
    rw [be16]
    apply BitVec.eq_of_getElem_eq
    intro i hi
    by_cases hlow : i < 8
    · simp [hlow, BitVec.getLsbD_eq_getElem hi]
    · have hhigh : i - 8 < 8 := by omega
      have hbit : 8 + (i - 8) = i := by omega
      simp [hlow, hhigh, hbit, BitVec.getLsbD_eq_getElem hi]

theorem numbered_real (extended : Int) : (numbered extended).Real := by
  simp [RtpPacket.Real, numbered]

/-- Ten packets 7000 numbers apart, and one whose number has come round. -/
def jumping (i : Nat) : RtpPacket := numbered (if i < 10 then 7000 * i else 65536)

theorem jumping_windowed : Windowed jumping 11 := by
  decide

/-- The eleventh packet is the first copy of its number and is dropped: the first one
set its bit, and a stripe is cleared at the 1024th packet at the earliest. -/
theorem jumping_drops : Windowed jumping 11 ∧ ¬ Delivers jumping 11 := by
  refine ⟨jumping_windowed, fun h => ?_⟩
  have hfirst : First jumping 10 := by
    refine ⟨numbered_real _, fun j hj _ => ?_⟩
    show (if j < 10 then 7000 * (j : Int) else 65536) ≠ 65536
    omega
  have hpass := (passes_iff jumping 10).mp (h.first 10 (by omega) hfirst)
  have hseen : (before jumping 10).seenSeq (jumping 10).slot = true := by
    refine (seen_iff jumping 10 _).mpr ⟨0, by omega, ?_, ?_, fun m _ hm _ hsweep => ?_⟩
    · exact (passes_iff jumping 0).mpr ⟨hfirst.1, rfl⟩
    · rfl
    · unfold Sweeps at hsweep
      omega
  exact Bool.false_ne_true (hpass.2.symm.trans hseen)

/-! ### Packets in order -/

/-- Packets in the order of their numbers, which come round at every 65536th. -/
def steady (i : Nat) : RtpPacket := numbered i

theorem steady_slot (i : Nat) : (steady i).slot = BitVec.ofNat 16 i := BitVec.ofInt_natCast 16 i

theorem top_steady (i : Nat) : top steady (i + 1) = i := by
  induction i with
  | zero => rfl
  | succ i ih =>
    show max (top steady (i + 1)) ((i + 1 : Nat) : Int) = (i + 1 : Nat)
    rw [ih]
    omega

theorem steady_windowed (n : Nat) : Windowed steady n := by
  intro i _
  cases i with
  | zero => decide
  | succ i =>
    rw [top_steady]
    show (((i + 1 : Nat) : Int) - i).natAbs ≤ 7000
    omega

/-- The stripe over a number is cleared 57344 packets before it comes round, or up to 1023
packets earlier. -/
theorem steady_swept (n : Nat) : Swept steady n := by
  intro i _ _ j hj _ hslot
  rw [steady_slot, steady_slot] at hslot
  have hround : j + 65536 ≤ i := by
    have hmod : j % 65536 = i % 65536 := by
      have h := congrArg BitVec.toNat hslot
      rwa [BitVec.toNat_ofNat, BitVec.toNat_ofNat] at h
    omega
  obtain ⟨m, hlast, hfirst, hsweep⟩ :
      ∃ m, m + 57344 ≤ i ∧ i < m + 57344 + 1024 ∧ (m + 1) % 1024 = 0 :=
    ⟨i - 57344 - (i - 57344 + 1) % 1024, by omega, by omega, by omega⟩
  refine ⟨m, by omega, by omega, ⟨numbered_real m, ?_⟩, hsweep, ?_⟩
  · intro k hk _
    show (k : Int) ≠ m
    omega
  · have hbehind : BitVec.toNat (8192 : BitVec 16) = 8192 := rfl
    show ((steady i).slot - ((steady m).slot - 8192)).toNat < 1024
    rw [steady_slot, steady_slot]
    simp only [BitVec.toNat_sub, BitVec.toNat_ofNat, hbehind]
    omega

/-- Each of a hundred thousand packets in order is delivered. -/
theorem delivers_iff_steady : Delivers steady 100000 :=
  (delivers_iff (steady_windowed 100000)).mpr (steady_swept 100000)

end Dedup

end AirPlay.Audio
