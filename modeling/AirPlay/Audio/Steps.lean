import AirPlay.Audio.Receiver

/-! What each function of the receiver does, said once.

A function either leaves the queue and the saved tail alone, trims them, or moves
blocks between them; the equations here say which, and no later proof unfolds a
function of the receiver again. -/
namespace AirPlay.Audio.AudioReceiver

variable {α : Type}

/-! ### Start -/

/-- A receiver as `start` leaves it: nothing queued, the pause taken over or not. -/
structure Started (cfg : Config) (state : PauseState α) (s : AudioReceiver α) : Prop where
  cfg_eq : s.cfg = cfg
  synchronize : s.synchronize = (cfg.synchronize && cfg.ntp)
  pcmQueue : s.pcmQueue = []
  queuedSamples : s.queuedSamples = 0
  flushBoundary : s.flushBoundary = none
  pausedPcm : s.pausedPcm = if takesPause cfg state then state.pcm else []
  pausedAtNs : s.pausedAtNs = if takesPause cfg state then state.pausedAtNs else 0
  importedPause : s.importedPause = (takesPause cfg state && !state.pcm.isEmpty)

theorem start_started {cfg : Config} {state : PauseState α} {opened : Opened}
    {s : AudioReceiver α} (h : start cfg state opened = some s) : Started cfg state s := by
  unfold start at h
  split at h
  · cases h
  split at h
  · cases h
  simp only at h
  split at h
  · cases h
  · obtain rfl := Option.some.inj h
    exact ⟨rfl, rfl, rfl, rfl, rfl, rfl, rfl, rfl⟩

/-! ### Flush -/

theorem flushLoop_eq (b : BitVec 32) (queue : List (PcmFrame α)) (queued : Int) :
    flushLoop b queue queued =
      (trimQueue b queue, queued - (total queue - total (trimQueue b queue) : Int)) := by
  induction queue generalizing queued with
  | nil => simp [flushLoop, trimQueue]
  | cons f rest ih =>
    have hlen := trim_length b f
    unfold flushLoop trimQueue
    simp only [ih]
    by_cases hempty : (f.trim b).samples.isEmpty
    · have hzero : (f.trim b).samples.length = 0 := by simpa using hempty
      simp only [if_pos hempty, total_cons, Prod.mk.injEq, true_and]
      omega
    · simp only [if_neg hempty, total_cons, Prod.mk.injEq, true_and]
      omega

/-- A timestamped FLUSH saves the queue: synchronized, nothing imported, something
queued. -/
def saves (s : AudioReceiver α) : Bool :=
  !s.importedPause && s.cfg.preservePausedAudio && s.synchronize && !s.pcmQueue.isEmpty

theorem flush_none (now : Int) (s : AudioReceiver α) :
    s.flush none now =
      {s with
        importedPause := false
        pausedPcm := []
        pausedAtNs := 0
        flushBoundary := none
        pcmQueue := []
        queuedSamples := 0
        clearOutput := true} := by
  simp [flush]

theorem flush_some (b : BitVec 32) (now : Int) (s : AudioReceiver α) :
    s.flush (some b) now =
      {s with
        pausedPcm :=
          if s.importedPause then s.pausedPcm else if s.saves then s.pcmQueue else []
        pausedAtNs := if s.importedPause then s.pausedAtNs else if s.saves then now else 0
        flushBoundary := some b
        pcmQueue := trimQueue b s.pcmQueue
        queuedSamples :=
          s.queuedSamples - (total s.pcmQueue - total (trimQueue b s.pcmQueue) : Int)
        clearOutput := true} := by
  cases himp : s.importedPause
  · by_cases hsaves : s.saves = true
    · have hcond : (s.cfg.preservePausedAudio && s.synchronize && !s.pcmQueue.isEmpty) = true := by
        simpa [saves, himp] using hsaves
      simp [flush, flushLoop_eq, himp, hsaves, hcond]
    · have hcond : (s.cfg.preservePausedAudio && s.synchronize && !s.pcmQueue.isEmpty) = false := by
        simpa [saves, himp] using hsaves
      simp [flush, flushLoop_eq, himp, hsaves, hcond]
  · simp [flush, flushLoop_eq, himp]

/-! ### Resume -/

/-- Where a resumed tail ends. -/
def resumedEnd (elapsed : Int) (back : PcmFrame α) (s : AudioReceiver α) : BitVec 32 :=
  (shifted (resumeShift s.cfg.sampleRate elapsed) back).endRtp

/-- The queue a resume leaves: the tail on the resumed timeline, then what the live
queue holds from its end on. -/
def splice (elapsed : Int) (back : PcmFrame α) (s : AudioReceiver α) : List (PcmFrame α) :=
  s.pausedPcm.map (shifted (resumeShift s.cfg.sampleRate elapsed)) ++
    trimQueue (s.resumedEnd elapsed back) s.pcmQueue

/-- A resume puts the saved tail back, with `back` its last block. -/
def Restores (now : Int) (back : PcmFrame α) (s : AudioReceiver α) : Prop :=
  s.importedPause = false ∧ s.pausedPcm.getLast? = some back ∧
    s.resumable (now - s.pausedAtNs) = true

theorem resume_restores {now : Int} {back : PcmFrame α} {s : AudioReceiver α}
    (h : s.Restores now back) :
    s.resume now =
      {s with
        pcmQueue := s.splice (now - s.pausedAtNs) back
        pausedPcm := []
        queuedSamples := total (s.splice (now - s.pausedAtNs) back)
        flushBoundary := some (s.resumedEnd (now - s.pausedAtNs) back)} := by
  obtain ⟨himp, hback, hwin⟩ := h
  simp only [resume, himp, hback, hwin, Bool.false_eq_true, if_false, Bool.not_true]
  rfl

/-- Any other resume leaves the queue alone and keeps an imported tail only. -/
theorem resume_other {now : Int} {s : AudioReceiver α} (h : ∀ back, ¬ s.Restores now back) :
    s.resume now = if s.importedPause then s else {s with pausedPcm := []} := by
  rw [resume]
  by_cases himp : s.importedPause = true
  · rw [if_pos himp, if_pos himp]
  · rw [if_neg himp, if_neg himp]
    cases hback : s.pausedPcm.getLast? with
    | none => rw [← List.getLast?_eq_none_iff.mp hback]
    | some back =>
      have hwin : s.resumable (now - s.pausedAtNs) = false := by
        simpa [himp, hback, Restores] using h back
      simp [hwin]

/-! ### The packet thread -/

/-- Eviction takes blocks off the front until the new samples fit or none is left. -/
theorem evict_cases (limit : Int) (size : Nat) (queue : List (PcmFrame α)) (queued : Int) :
    ∃ dropped, queue = dropped ++ (evict limit size queue queued).1 ∧
      (evict limit size queue queued).2 = queued - total dropped ∧
      ((evict limit size queue queued).1 = [] ∨
        (evict limit size queue queued).2 + size ≤ limit) := by
  induction queue generalizing queued with
  | nil => exact ⟨[], rfl, by simp [evict], Or.inl rfl⟩
  | cons f rest ih =>
    rw [evict]
    split
    · obtain ⟨dropped, hq, hn, hfit⟩ := ih (queued - f.samples.length)
      refine ⟨f :: dropped, by rw [List.cons_append, ← hq], ?_, hfit⟩
      rw [hn, total_cons]
      omega
    · exact ⟨[], rfl, by simp, Or.inr (by omega)⟩

/-- There is nothing to evict from an empty queue. -/
theorem evicted_nil {s : AudioReceiver α} (h : s.pcmQueue = []) (size : Nat) :
    s.evicted size = s := by
  rw [evicted]
  rw [h, evict, ← h]

/-- Nothing is evicted when the samples fit. -/
theorem evicted_fits {size : Nat} {s : AudioReceiver α} (h : s.queuedSamples + size ≤ s.limit) :
    s.evicted size = s := by
  rw [evicted]
  cases hq : s.pcmQueue with
  | nil => simp only [evict]; rw [← hq]
  | cons f rest =>
    have hle : ¬ s.queuedSamples + size > s.limit := by omega
    simp only [evict, if_neg hle]
    rw [← hq]

/-- What drains into the saved tail is nothing, or the stretch of the block from
the tail's end to the boundary, no longer than five seconds. -/
theorem drained_cases (rate : Int) (boundary stop : BitVec 32) (frame : PcmFrame α)
    (heven : frame.samples.length % 2 = 0) :
    drained rate boundary stop frame = [] ∨
      ∃ k, k ≤ frame.samples.length / 2 ∧ frame.rtp + BitVec.ofNat 32 k = stop ∧
        boundary - stop ≤ BitVec.ofInt 32 (rate * 5) ∧
        (frame.samples.drop (k * 2)).take ((boundary - stop).toNat * 2) ≠ [] ∧
        drained rate boundary stop frame =
          [{frame with
            rtp := stop
            samples := (frame.samples.drop (k * 2)).take ((boundary - stop).toNat * 2)}] := by
  obtain ⟨k, hk, -, htrim⟩ := trim_cases stop frame
  rw [drained]
  simp only [htrim]
  split
  · rename_i h
    obtain ⟨hstop, hlimit, -⟩ := h
    have hkept : (if (frame.samples.drop (k * 2)).length / 2 > (boundary - stop).toNat then
          (frame.samples.drop (k * 2)).take ((boundary - stop).toNat * 2)
        else frame.samples.drop (k * 2)) =
        (frame.samples.drop (k * 2)).take ((boundary - stop).toNat * 2) := by
      split
      · rfl
      · -- an even stretch no longer than the remaining frames is taken whole
        rw [List.take_of_length_le]
        rw [List.length_drop] at *
        omega
    simp only [hstop] at hlimit ⊢
    rw [hkept]
    split
    · rename_i hne
      exact Or.inr ⟨k, hk, hstop, hlimit, hne, rfl⟩
    · exact Or.inl rfl
  · exact Or.inl rfl

/-- What a block adds to the live queue of itself. -/
def live (frame : PcmFrame α) (s : AudioReceiver α) : List (PcmFrame α) :=
  if (s.fenced frame).samples.isEmpty then [] else [s.fenced frame]

/-- The part of a block that goes live is a suffix of it. -/
theorem fenced_length_le (frame : PcmFrame α) (s : AudioReceiver α) :
    (s.fenced frame).samples.length ≤ frame.samples.length := by
  rw [fenced]
  split
  · exact (trim_sublist _ _).length_le
  · exact Nat.le_refl _

theorem fenced_even (frame : PcmFrame α) (s : AudioReceiver α)
    (h : frame.samples.length % 2 = 0) : (s.fenced frame).samples.length % 2 = 0 := by
  rw [fenced]
  split
  · exact trim_even _ _ h
  · exact h

theorem total_live (frame : PcmFrame α) (s : AudioReceiver α) :
    total (s.live frame) = (s.fenced frame).samples.length := by
  rw [live]
  split
  · rename_i h
    have : (s.fenced frame).samples = [] := by simpa using h
    simp [this]
  · simp

theorem push_eq (frame : PcmFrame α) (s : AudioReceiver α) :
    s.push frame =
      {s with
        flushBoundary := if (s.fenced frame).samples.isEmpty then s.flushBoundary else none
        pcmQueue := s.pcmQueue ++ s.live frame
        queuedSamples := s.queuedSamples + total (s.live frame)} := by
  unfold push live
  by_cases hempty : (s.fenced frame).samples.isEmpty = true
  · simp [hempty]
  · simp [hempty]

/-- A block inserted with no tail imported: its pre-boundary part may drain, the
rest goes live. -/
theorem insert_live (rtp : BitVec 32) (pcm : List α) (now pending : Int) (s : AudioReceiver α)
    (himp : s.importedPause = false) :
    s.insert rtp pcm now pending =
      {s with
        pausedPcm := s.pausedPcm ++ s.drains {rtp, samples := pcm}
        flushBoundary :=
          if (s.fenced {rtp, samples := pcm}).samples.isEmpty then s.flushBoundary else none
        pcmQueue := s.pcmQueue ++ s.live {rtp, samples := pcm}
        queuedSamples := s.queuedSamples + total (s.live {rtp, samples := pcm})} := by
  have hkeep : (s.drain {rtp, samples := pcm}).importPause {rtp, samples := pcm} now pending =
      s.drain {rtp, samples := pcm} :=
    if_pos (by simpa [drain] using himp)
  rw [insert]
  rw [hkeep, push_eq]
  rfl

/-- With no boundary standing a block is appended whole. -/
theorem insert_plain {rtp : BitVec 32} {pcm : List α} {now pending : Int} {s : AudioReceiver α}
    (himp : s.importedPause = false) (hnone : s.flushBoundary = none) (hpcm : pcm ≠ []) :
    s.insert rtp pcm now pending =
      {s with
        pcmQueue := s.pcmQueue ++ [{rtp, samples := pcm}]
        queuedSamples := s.queuedSamples + pcm.length} := by
  have hdrains : s.drains {rtp, samples := pcm} = [] := by simp [drains, hnone]
  have hfenced : s.fenced {rtp, samples := pcm} = {rtp, samples := pcm} := by simp [fenced, hnone]
  have hlive : s.live {rtp, samples := pcm} = [{rtp, samples := pcm}] := by
    simp [live, hfenced, hpcm]
  rw [insert_live _ _ _ _ _ himp, hdrains, hlive, hfenced, List.append_nil, hnone, ite_self,
    total_cons, total_nil, Nat.add_zero]

/-- So it is when there is room for it. -/
theorem enqueue_plain {rtp : BitVec 32} {pcm : List α} {now pending : Int} {s : AudioReceiver α}
    (himp : s.importedPause = false) (hnone : s.flushBoundary = none) (hpcm : pcm ≠ [])
    (hroom : s.queuedSamples + pcm.length ≤ s.limit) :
    s.enqueue rtp pcm now pending =
      {s with
        pcmQueue := s.pcmQueue ++ [{rtp, samples := pcm}]
        queuedSamples := s.queuedSamples + pcm.length} := by
  rw [enqueue, evicted_fits hroom, insert_plain himp hnone hpcm]

/-- The first block of a recreated stream: the imported tail, then the block. -/
theorem insert_imported (rtp : BitVec 32) (pcm : List α) (now pending : Int)
    (s : AudioReceiver α) (himp : s.importedPause = true) :
    s.insert rtp pcm now pending =
      {s with
        pausedPcm := []
        importedPause := false
        flushBoundary :=
          if (s.fenced {rtp, samples := pcm}).samples.isEmpty then s.flushBoundary else none
        pcmQueue :=
          s.pcmQueue ++ s.imports {rtp, samples := pcm} now pending ++
            s.live {rtp, samples := pcm}
        queuedSamples :=
          s.queuedSamples + total (s.imports {rtp, samples := pcm} now pending) +
            total (s.live {rtp, samples := pcm})} := by
  have hnone : s.drains {rtp, samples := pcm} = [] := if_pos himp
  have hdrain : s.drain {rtp, samples := pcm} = s := by
    rw [drain]
    rw [hnone, List.append_nil]
  rw [insert]
  rw [hdrain, importPause, if_neg (by simp [himp]), push_eq]
  rfl

/-! ### Packets -/

/-- The first packet only fixes where the stream began. -/
theorem firstPacket_frame (datagram : List UInt8) (now : Int) (s : AudioReceiver α) :
    ∃ have_ rtp at_, s.firstPacket datagram now =
      {s with haveFirstPacket := have_, firstPacketRtp := rtp, firstPacketNs := at_} := by
  rw [firstPacket]
  split
  · exact ⟨_, _, _, rfl⟩
  · exact ⟨_, _, _, rfl⟩

/-- A timing anchor only changes how RTP stamps are read as times. -/
theorem anchor_frame (control : List UInt8) (s : AudioReceiver α) :
    ∃ rtp ntp have_ lead, s.anchor control =
      {s with syncRtp := rtp, syncNtp := ntp, haveAnchor := have_, sourceLeadFrames := lead} := by
  rw [anchor]
  split
  · exact ⟨_, _, _, _, rfl⟩
  · exact ⟨_, _, _, _, rfl⟩

/-! ### The playout thread -/

/-- A turn of the playout loop leaves the queue alone, or takes the front block off
and hands at most that block to the sink. -/
theorem playout_cases (around : Surroundings) (s : AudioReceiver α) :
    s.playout around = ({s with clearOutput := false}, none) ∨
      ∃ front rest, s.pcmQueue = front :: rest ∧
        (s.playout around).1 = pop front rest {s with clearOutput := false} ∧
        ((s.playout around).2 = none ∨ (s.playout around).2 = some front) := by
  rw [playout]
  cases hq : s.pcmQueue with
  | nil => simp only [true_or]
  | cons front rest =>
    simp only
    split
    · exact Or.inl rfl
    · exact Or.inr ⟨front, rest, rfl, rfl, Or.inl rfl⟩
    · refine Or.inr ⟨front, rest, rfl, rfl, ?_⟩
      cases s.output
      · exact Or.inl rfl
      · exact Or.inr rfl

/-- A block handed to the sink is one whose turn it was. -/
theorem playout_plays {around : Surroundings} {s : AudioReceiver α} {f : PcmFrame α}
    (h : (s.playout around).2 = some f) : s.output = true ∧ s.turn around f = .play := by
  unfold playout at h
  cases hq : s.pcmQueue with
  | nil =>
    rw [hq] at h
    cases h
  | cons front rest =>
    simp only [hq] at h
    split at h
    · cases h
    · cases h
    · rename_i hturn
      cases houtput : s.output
      · simp [houtput] at h
      · simp only [houtput, if_true, Option.some.injEq] at h
        exact ⟨rfl, h ▸ hturn⟩

/-- A synchronized block with a deadline is played close to it, whatever is pending at
most 60 ms, or when its deadline is out of reach. -/
theorem turn_play {around : Surroundings} {s : AudioReceiver α} {f : PcmFrame α} {due : Int}
    (hsync : s.synchronize = true) (houtput : s.output = true)
    (hdue : s.target around f = some due) (h : s.turn around f = .play) :
    around.pendingNs ≤ 60000000 ∧
      (5000000000 < due - around.now - around.pendingNs ∨
        -250000000 ≤ due - around.now - around.pendingNs ∧
          due - around.now - around.pendingNs ≤ 1000000) := by
  simp only [turn, hdue, hsync, houtput, Option.isNone_some, Bool.and_false, Bool.false_and,
    Bool.false_eq_true, if_false, if_true, Bool.true_and, decide_eq_true_eq] at h
  split at h
  · cases h
  · split at h
    · omega
    · split at h
      · cases h
      · split at h
        · cases h
        · omega

/-! ### The configuration

No function changes it, so the cap of five seconds is the same throughout. -/

@[simp] theorem flush_cfg (boundary : Option (BitVec 32)) (now : Int) (s : AudioReceiver α) :
    (s.flush boundary now).cfg = s.cfg := by
  cases boundary with
  | none => rw [flush_none]
  | some b => rw [flush_some]

@[simp] theorem resume_cfg (now : Int) (s : AudioReceiver α) : (s.resume now).cfg = s.cfg := by
  by_cases h : ∃ back, s.Restores now back
  · obtain ⟨back, h⟩ := h
    rw [resume_restores h]
  · rw [resume_other (not_exists.mp h)]
    split <;> rfl

@[simp] theorem setSynchronized_cfg (enabled : Bool) (s : AudioReceiver α) :
    (s.setSynchronized enabled).cfg = s.cfg := by
  unfold setSynchronized
  simp only
  split
  · rw [flush_cfg]
  · rfl

@[simp] theorem anchor_cfg (datagram : List UInt8) (s : AudioReceiver α) :
    (s.anchor datagram).cfg = s.cfg := by
  obtain ⟨_, _, _, _, h⟩ := anchor_frame datagram s
  rw [h]

@[simp] theorem firstPacket_cfg (datagram : List UInt8) (now : Int) (s : AudioReceiver α) :
    (s.firstPacket datagram now).cfg = s.cfg := by
  obtain ⟨_, _, _, h⟩ := firstPacket_frame datagram now s
  rw [h]

@[simp] theorem enqueue_cfg (rtp : BitVec 32) (pcm : List α) (now pending : Int)
    (s : AudioReceiver α) : (s.enqueue rtp pcm now pending).cfg = s.cfg := by
  rw [enqueue]
  cases himp : (s.evicted pcm.length).importedPause
  · rw [insert_live _ _ _ _ _ himp]
    rfl
  · rw [insert_imported _ _ _ _ _ himp]
    rfl

@[simp] theorem playout_cfg (around : Surroundings) (s : AudioReceiver α) :
    (s.playout around).1.cfg = s.cfg := by
  rcases playout_cases around s with hwait | ⟨front, rest, -, hpop, -⟩
  · rw [hwait]
  · rw [hpop]
    rfl

theorem limit_of_cfg {s t : AudioReceiver α} (h : s.cfg = t.cfg) : s.limit = t.limit := by
  unfold limit
  rw [h]

end AirPlay.Audio.AudioReceiver
