import AirPlay.Library.Fields
import AirPlay.Library.Machine
import AirPlay.Clock.Accuracy

/-! Asking the sender for the time.

A probe of 32 bytes goes out every three seconds and carries the instant of its
sending; an answer carries it back between the sender's own stamps. Datagrams are lost,
come late, twice and out of order, and each turn reads one at most.

`clock_observes`: whatever the network does with the datagrams, an answer is taken over
only by the turn whose probe it answers, so that the clock holds exchanges that did
happen. `takes_iff`: on a network that keeps the order, a turn reads its own answer
only while as many probes have gone unanswered as turns have timed out, so an answer
that comes late blocks those behind it until one is lost. -/
namespace AirPlay.Clock

open Serial Bytes

def kSecondsFrom1900To1970 : BitVec 64 := 2208988800
def kNanosPerSecond : BitVec 64 := 1000000000

/-! ### Packets -/

def putU32Be (off : Nat) (v : BitVec 32) (buf : Bytes) : Bytes :=
  buf.overwrite off [⟨(v >>> 24).setWidth 8⟩, ⟨(v >>> 16).setWidth 8⟩, ⟨(v >>> 8).setWidth 8⟩,
    ⟨v.setWidth 8⟩]

def putU64Be (off : Nat) (v : BitVec 64) (buf : Bytes) : Bytes :=
  putU32Be (off + 4) (v.setWidth 32) (putU32Be off ((v >>> 32).setWidth 32) buf)

def getU64Be (buf : Bytes) (off : Nat) : BitVec 64 :=
  (List.range 8).foldl (fun v i => v <<< 8 ||| ((buf.getD (off + i) 0).toBitVec.setWidth 64)) 0

/-- Seconds since 1900 and a fraction, of which the seconds keep 32 bits. -/
def putNtpTimestamp (off : Nat) (nsSince1970 : BitVec 64) (buf : Bytes) : Bytes :=
  let seconds := nsSince1970 / kNanosPerSecond + kSecondsFrom1900To1970
  let nanos := nsSince1970 % kNanosPerSecond
  let fraction := (nanos <<< 32) / kNanosPerSecond
  putU32Be (off + 4) (fraction.setWidth 32) (putU32Be off (seconds.setWidth 32) buf)

/-- What a timestamp is read back as. -/
def ntpStamp (nsSince1970 : BitVec 64) : BitVec 64 :=
  wrap 64 ((nsSince1970.toNat + 2208988800 * 10 ^ 9) * 2 ^ 32 / 10 ^ 9)

/-! ### The loop -/

/-- The variables of the thread, and the clock. -/
structure NtpClient where
  request : Bytes := [0x80, 0xd2, 0x00, 0x07] ++ List.replicate 28 0
  recvTime : BitVec 64 := 0
  clientRefTime : BitVec 64 := 0
  clock : NtpClock := NtpClock.fresh

/-- What one turn of the loop meets: the system clock when the probe is sent, the steady
clock before the send and after the receive, what `recvfrom` brings before it times out,
and the system clock once more. -/
structure Turn where
  sendTime : BitVec 64
  sent : Int
  datagram : Option Bytes
  received : Int
  recvTime : BitVec 64

namespace NtpClient

/-- Fills in the request. -/
def probe (sendTime : BitVec 64) (c : NtpClient) : NtpClient :=
  let request := putNtpTimestamp 24 sendTime c.request
  if c.recvTime ≠ 0 then
    {c with request := putNtpTimestamp 16 c.recvTime (putU64Be 8 c.clientRefTime request)}
  else {c with request}

/-- A datagram answers a request. -/
def answers (response request : Bytes) : Bool :=
  32 ≤ response.length && response.getD 1 0 &&& 0x7f == 0x53 &&
    getU64Be response 8 == getU64Be request 24

/-- The rest of a turn, once the probe is out. -/
def receive (t : Turn) (c : NtpClient) : NtpClient :=
  match t.datagram with
  | none => c
  | some response =>
    if answers response c.request then
      {c with
        recvTime := t.recvTime
        clientRefTime := getU64Be response 24
        clock := (NtpClock.observe t.sent t.received (getU64Be response 16)
          (getU64Be response 24) c.clock).1}
    else c

def machine : Machine NtpClient Turn where
  step c t := receive t (probe t.sendTime c)

/-- A turn that begins in `c` takes over what it reads. -/
def takes (c : NtpClient) (t : Turn) : Bool :=
  t.datagram.any fun response => answers response (probe t.sendTime c).request

end NtpClient

/-! ### Reading back what is written -/

theorem be32_eq (v : BitVec 32) : [⟨(v >>> 24).setWidth 8⟩, ⟨(v >>> 16).setWidth 8⟩,
    ⟨(v >>> 8).setWidth 8⟩, ⟨v.setWidth 8⟩] = toBe 4 v.toNat := by
  have hbyte (k : Nat) : (⟨(v >>> k).setWidth 8⟩ : UInt8) = UInt8.ofNat (v.toNat / 2 ^ k) := by
    apply UInt8.toNat_inj.mp
    rw [UInt8.toNat_ofNat', ← Nat.shiftRight_eq_div_pow]
    exact BitVec.toNat_setWidth 8 (v >>> k)
  have hlast := hbyte 0
  rw [BitVec.ushiftRight_zero, Nat.pow_zero, Nat.div_one] at hlast
  rw [hbyte, hbyte, hbyte, hlast]
  simp only [toBe, Nat.div_div_eq_div_mul, List.nil_append, List.cons_append]
  rfl

theorem putU32Be_append {old : Bytes} (h : old.length = 4) (v : BitVec 32) (a b : Bytes) :
    putU32Be a.length v (a ++ (old ++ b)) = a ++ (toBe 4 v.toNat ++ b) := by
  rw [putU32Be, be32_eq]
  exact overwrite_append (by rw [length_toBe, h]) a b

/-- The two halves of a field of eight bytes. -/
theorem putHalves_append {old : Bytes} (h : old.length = 8) (hi lo : BitVec 32) (a b : Bytes) :
    putU32Be (a.length + 4) lo (putU32Be a.length hi (a ++ (old ++ b))) =
      a ++ (toBe 4 hi.toNat ++ toBe 4 lo.toNat ++ b) := by
  have hhead : (old.take 4).length = 4 := by rw [List.length_take]; omega
  have htail : (old.drop 4).length = 4 := by rw [List.length_drop]; omega
  have hlength : (a ++ toBe 4 hi.toNat).length = a.length + 4 := by
    rw [List.length_append, length_toBe]
  rw [← List.take_append_drop 4 old, List.append_assoc, putU32Be_append hhead, ← hlength,
    ← List.append_assoc, putU32Be_append htail, List.append_assoc, List.append_assoc]

theorem getU64Be_append {field : Bytes} (h : field.length = 8) (a b : Bytes) :
    getU64Be (a ++ (field ++ b)) a.length = BitVec.ofNat 64 (ofBe field) := by
  have hbyte (n : Nat) (c : UInt8) : BitVec.ofNat 64 n <<< 8 ||| c.toBitVec.setWidth 64 =
      BitVec.ofNat 64 (256 * n + c.toNat) := by
    have hc := c.toNat_lt
    apply BitVec.eq_of_toNat_eq
    rw [BitVec.toNat_or, BitVec.toNat_shiftLeft, BitVec.toNat_ofNat, BitVec.toNat_ofNat,
      BitVec.toNat_setWidth, UInt8.toNat_toBitVec, Nat.mod_eq_of_lt (by omega : c.toNat < 2 ^ 64),
      Nat.shiftLeft_eq]
    have hhigh : n % 2 ^ 64 * 2 ^ 8 % 2 ^ 64 = 2 ^ 8 * (n % 2 ^ 56) := by omega
    rw [hhigh, ← Nat.two_pow_add_eq_or_of_lt (by omega : c.toNat < 2 ^ 8)]
    omega
  have hloop (k : Nat) (hk : k ≤ 8) :
      (List.range k).foldl (fun (v : BitVec 64) i => v <<< 8 |||
        (((a ++ (field ++ b)).getD (a.length + i) 0).toBitVec.setWidth 64)) 0 =
          BitVec.ofNat 64 (ofBe (field.take k)) := by
    induction k with
    | zero => rfl
    | succ k ih =>
      have hget : (a ++ (field ++ b)).getD (a.length + k) 0 = field[k] := by
        rw [getD_append_add, List.getD_eq_getElem?_getD, List.getElem?_append_left (by omega),
          List.getElem?_eq_getElem (by omega), Option.getD_some]
      rw [List.range_succ, List.foldl_append, ih (by omega), List.foldl_cons, List.foldl_nil, hget,
        hbyte, List.take_succ_eq_append_getElem (by omega), ofBe_concat]
  rw [getU64Be, hloop 8 le_rfl, ← h, List.take_length]

/-- A timestamp in eight bytes. -/
def ntpBytes (nsSince1970 : BitVec 64) : Bytes :=
  toBe 4 ((nsSince1970 / kNanosPerSecond + kSecondsFrom1900To1970).setWidth 32).toNat ++
    toBe 4 ((((nsSince1970 % kNanosPerSecond) <<< 32) / kNanosPerSecond).setWidth 32).toNat

theorem length_ntpBytes (ns : BitVec 64) : (ntpBytes ns).length = 8 := by
  rw [ntpBytes, List.length_append, length_toBe, length_toBe]

theorem putNtpTimestamp_append {old : Bytes} (h : old.length = 8) (ns : BitVec 64) (a b : Bytes) :
    putNtpTimestamp a.length ns (a ++ (old ++ b)) = a ++ (ntpBytes ns ++ b) :=
  putHalves_append h _ _ a b

/-- A timestamp is read back as the ticks of the instant. -/
theorem ofBe_ntpBytes (ns : BitVec 64) : BitVec.ofNat 64 (ofBe (ntpBytes ns)) = ntpStamp ns := by
  have hns := ns.isLt
  have hseconds : (ns / kNanosPerSecond + kSecondsFrom1900To1970).toNat =
      ns.toNat / 10 ^ 9 + 2208988800 := by
    rw [BitVec.toNat_add, BitVec.toNat_udiv]
    exact Nat.mod_eq_of_lt (by show ns.toNat / 10 ^ 9 + 2208988800 < _; omega)
  have hfraction : (((ns % kNanosPerSecond) <<< 32) / kNanosPerSecond).toNat =
      ns.toNat % 10 ^ 9 * 2 ^ 32 / 10 ^ 9 := by
    rw [BitVec.toNat_udiv, BitVec.toNat_shiftLeft, BitVec.toNat_umod, Nat.shiftLeft_eq]
    show ns.toNat % 10 ^ 9 * 2 ^ 32 % 2 ^ 64 / 10 ^ 9 = _
    rw [Nat.mod_eq_of_lt (by omega)]
  have hticks : ((ns.toNat : Int) + 2208988800 * 10 ^ 9) * 2 ^ 32 / 10 ^ 9 =
      ((ns.toNat / 10 ^ 9 + 2208988800) * 2 ^ 32 + ns.toNat % 10 ^ 9 * 2 ^ 32 / 10 ^ 9 : Nat) := by
    norm_num only
    omega
  apply BitVec.eq_of_toNat_eq
  rw [ntpBytes, ofBe_append, length_toBe, ntpStamp, hticks, wrap_natCast, BitVec.toNat_ofNat,
    BitVec.toNat_ofNat, ofBe_toBe (BitVec.isLt _), ofBe_toBe (BitVec.isLt _),
    BitVec.toNat_setWidth, BitVec.toNat_setWidth, hseconds, hfraction]
  have hlt : ns.toNat % 10 ^ 9 * 2 ^ 32 / 10 ^ 9 < 2 ^ 32 := by omega
  generalize ns.toNat % 10 ^ 9 * 2 ^ 32 / 10 ^ 9 = fraction at hlt ⊢
  generalize ns.toNat / 10 ^ 9 + 2208988800 = seconds
  omega

/-- Timestamps repeat after 2³² seconds and not before. -/
theorem ntpStamp_ne {a b : BitVec 64} (hlt : a.toNat < b.toNat)
    (hnear : b.toNat - a.toNat < 2 ^ 32 * 10 ^ 9) : ntpStamp a ≠ ntpStamp b := by
  intro heq
  have hticks := wrap_inj (w := 64) (by omega) (by omega) heq
  omega

/-! ### A turn -/

def requestHead : Bytes := [0x80, 0xd2, 0x00, 0x07, 0, 0, 0, 0]

theorem length_requestHead : requestHead.length = 8 := rfl

/-- A datagram has the size and the type of an answer. -/
def isAnswer (response : Bytes) : Bool :=
  32 ≤ response.length && response.getD 1 0 &&& 0x7f == 0x53

/-- What a turn reads is an answer to the probe that it has sent itself. -/
def Turn.own (t : Turn) : Bool :=
  t.datagram.any fun response =>
    isAnswer response && getU64Be response 8 == ntpStamp t.sendTime

namespace NtpClient
variable {c : NtpClient} {t : Turn}

/-- A head, and fields for the last answer's stamp, for when it came and for when the
request is sent. -/
structure Framed (c : NtpClient) (ref recv send : Bytes) : Prop where
  request : c.request = requestHead ++ (ref ++ (recv ++ send))
  ref : ref.length = 8
  recv : recv.length = 8
  send : send.length = 8

theorem framed_init : Framed {} (.replicate 8 0) (.replicate 8 0) (.replicate 8 0) where
  request := rfl
  ref := rfl
  recv := rfl
  send := rfl

theorem Framed.front {ref recv send : Bytes} (h : c.Framed ref recv send) :
    (requestHead ++ (ref ++ recv)).length = 24 := by
  rw [List.length_append, List.length_append, h.ref, h.recv, length_requestHead]

theorem Framed.putSend {ref recv send : Bytes} (h : c.Framed ref recv send) (ns : BitVec 64) :
    putNtpTimestamp 24 ns c.request = requestHead ++ (ref ++ (recv ++ ntpBytes ns)) := by
  have hput := putNtpTimestamp_append h.send ns (requestHead ++ (ref ++ recv)) []
  rw [h.front, List.append_nil, List.append_nil, List.append_assoc, List.append_assoc,
    List.append_assoc, List.append_assoc] at hput
  rw [h.request, hput]

theorem putRecv {ref recv : Bytes} (href : ref.length = 8) (hrecv : recv.length = 8)
    (ns : BitVec 64) (rest : Bytes) :
    putNtpTimestamp 16 ns (requestHead ++ (ref ++ (recv ++ rest))) =
      requestHead ++ (ref ++ (ntpBytes ns ++ rest)) := by
  have hput := putNtpTimestamp_append hrecv ns (requestHead ++ ref) rest
  rw [List.length_append, href, length_requestHead, List.append_assoc, List.append_assoc] at hput
  exact hput

theorem Framed.probe {ref recv send : Bytes} (h : c.Framed ref recv send) (sendTime : BitVec 64) :
    ∃ ref' recv', (c.probe sendTime).Framed ref' recv' (ntpBytes sendTime) := by
  by_cases hrecv : c.recvTime = 0
  · refine ⟨ref, recv, ⟨?_, h.ref, h.recv, length_ntpBytes _⟩⟩
    rw [NtpClient.probe, if_neg (not_not.mpr hrecv)]
    exact h.putSend sendTime
  · have href : (toBe 4 ((c.clientRefTime >>> 32).setWidth 32).toNat ++
        toBe 4 (c.clientRefTime.setWidth 32).toNat).length = 8 := by
      rw [List.length_append, length_toBe, length_toBe]
    refine ⟨_, _, ⟨?_, href, length_ntpBytes c.recvTime, length_ntpBytes _⟩⟩
    rw [NtpClient.probe, if_pos hrecv]
    show putNtpTimestamp 16 c.recvTime (putU64Be 8 c.clientRefTime
      (putNtpTimestamp 24 sendTime c.request)) = _
    rw [h.putSend, ← putRecv href h.recv]
    exact congrArg _ (putHalves_append h.ref _ _ requestHead _)

/-- A request holds the stamp of its sending. -/
theorem Framed.sendStamp {ref recv : Bytes} {sendTime : BitVec 64}
    (h : c.Framed ref recv (ntpBytes sendTime)) : getU64Be c.request 24 = ntpStamp sendTime := by
  have hget := getU64Be_append (length_ntpBytes sendTime) (requestHead ++ (ref ++ recv)) []
  rw [h.front, List.append_nil, List.append_assoc, List.append_assoc, ofBe_ntpBytes] at hget
  rw [h.request, hget]

/-- The request keeps its shape. -/
def Shaped (c : NtpClient) : Prop := ∃ ref recv send, c.Framed ref recv send

theorem Shaped.takes_eq (h : c.Shaped) (t : Turn) : takes c t = t.own := by
  obtain ⟨ref, recv, send, hframed⟩ := h
  obtain ⟨ref', recv', hprobe⟩ := hframed.probe t.sendTime
  rw [takes, Turn.own]
  congr 1
  funext response
  rw [answers, hprobe.sendStamp, isAnswer]

theorem receive_request (t : Turn) (c : NtpClient) : (receive t c).request = c.request := by
  rw [receive]
  split
  · rfl
  · split
    · rfl
    · rfl

theorem probe_clock (sendTime : BitVec 64) (c : NtpClient) :
    (c.probe sendTime).clock = c.clock := by
  rw [probe]
  split
  · rfl
  · rfl

theorem Shaped.step (h : c.Shaped) (t : Turn) : (machine.step c t).Shaped := by
  obtain ⟨ref, recv, send, hframed⟩ := h
  obtain ⟨ref', recv', hprobe⟩ := hframed.probe t.sendTime
  refine ⟨ref', recv', _, ⟨?_, hprobe.ref, hprobe.recv, hprobe.send⟩⟩
  rw [← hprobe.request]
  exact receive_request t _

theorem shaped_run (ts : List Turn) : (machine.run {} ts).Shaped :=
  Machine.run_keeps (fun _ t h => h.step t) ts ⟨_, _, _, framed_init⟩

/-- The clock moves by the answers to a turn's own probe. -/
theorem Shaped.step_clock (h : c.Shaped) (t : Turn) :
    (machine.step c t).clock =
      match t.datagram with
      | none => c.clock
      | some response =>
        if t.own then (NtpClock.observe t.sent t.received (getU64Be response 16)
          (getU64Be response 24) c.clock).1
        else c.clock := by
  have htakes := h.takes_eq t
  show (receive t (c.probe t.sendTime)).clock = _
  rw [receive, ← htakes, takes]
  cases t.datagram with
  | none => exact probe_clock _ _
  | some response =>
    simp only [Option.any_some]
    split
    · dsimp only
      rw [probe_clock]
    · exact probe_clock _ _

end NtpClient

/-! ### Any network -/

/-- A turn in real instants. -/
structure Poll where
  sendTime : BitVec 64
  sentAt : ℝ
  datagram : Option Bytes
  receivedAt : ℝ
  recvTime : BitVec 64
  order : sentAt ≤ receivedAt

namespace Poll

noncomputable def turn (p : Poll) : Turn :=
  ⟨p.sendTime, ⌊p.sentAt⌋, p.datagram, ⌊p.receivedAt⌋, p.recvTime⟩

/-- A datagram read in turn `q` is what the sender answers to the probe of turn `p`. -/
def Replies (θ : ℝ) (p q : Poll) (response : Bytes) : Prop :=
  ∃ arrived departed, p.sentAt ≤ arrived ∧ arrived ≤ departed ∧ departed ≤ q.receivedAt ∧
    getU64Be response 8 = ntpStamp p.sendTime ∧ getU64Be response 16 = stamp θ arrived ∧
      getU64Be response 24 = stamp θ departed

/-- What looks like an answer is one, to a probe of this turn or of one before it. -/
def Honest (θ : ℝ) (polls : List Poll) : Prop :=
  ∀ pre q post, polls = pre ++ q :: post → ∀ response ∈ q.datagram, isAnswer response = true →
    ∃ p ∈ pre ++ [q], Replies θ p q response

/-- The system clock is not set back between probes. -/
def Advancing (polls : List Poll) : Prop :=
  polls.Pairwise fun p q => p.sendTime.toNat < q.sendTime.toNat ∧
    q.sendTime.toNat - p.sendTime.toNat < 2 ^ 32 * 10 ^ 9

variable {θ : ℝ}

/-- A turn's own answer makes an exchange of its instants. -/
theorem exchange {pre : List Poll} {q : Poll} (hclock : Advancing (pre ++ [q]))
    (hnet : Honest θ (pre ++ [q])) (hown : q.turn.own = true) :
    ∃ x : Exchange, (x.sent, x.received) = (q.sentAt, q.receivedAt) ∧
      ∀ c : NtpClient, c.Shaped →
        (NtpClient.machine.step c q.turn).clock = (x.observe θ c.clock).1 := by
  obtain ⟨response, hresponse, hmatch⟩ := (Option.any_eq_true _ _).mp hown
  rw [Bool.and_eq_true, beq_iff_eq] at hmatch
  obtain ⟨p, hp, arrived, departed, hsent, hprocessed, hback, horigin, harrived, hdeparted⟩ :=
    hnet pre q [] rfl response hresponse hmatch.1
  have hpq : p = q := by
    rcases List.mem_append.mp hp with hpre | hlast
    · have hlt := (List.pairwise_append.mp hclock).2.2 p hpre q (List.mem_singleton_self q)
      exact absurd (horigin.symm.trans hmatch.2) (ntpStamp_ne hlt.1 hlt.2)
    · exact List.mem_singleton.mp hlast
  subst hpq
  refine ⟨⟨p.sentAt, arrived, departed, p.receivedAt, hsent, hprocessed, hback⟩, rfl,
    fun c hc => ?_⟩
  have hdatagram : p.turn.datagram = some response := hresponse
  rw [hc.step_clock, hdatagram, hown, Exchange.observe, ← harrived, ← hdeparted]
  rfl

/-- A probe sent when the system clock shows 1970, and answered at once. -/
def answered : Bytes :=
  [0x80, 0xd3, 0, 7, 0, 0, 0, 0, 0x83, 0xaa, 0x7e, 0x80, 0, 0, 0, 0, 0, 0, 0, 1, 0, 0, 0, 0,
    0, 0, 0, 1, 0, 0, 0, 0]

/-- Nanoseconds in a second. -/
noncomputable def second : ℝ := Nat.cast 1000000000

noncomputable def answeredPoll : Poll := ⟨0, second, some answered, second, 0, le_rfl⟩

end Poll

/-! ### A network that keeps the order -/

/-- A turn, and whether its probe or the answer to it is lost. -/
structure Fate where
  turn : Turn
  lost : Bool

namespace Fate

/-- The probes of the answers that have been read. -/
def read (fs : List Fate) : List (BitVec 64) :=
  (fs.filterMap (·.turn.datagram)).map (getU64Be · 8)

/-- The probes that are answered. -/
def served (fs : List Fate) : List (BitVec 64) :=
  (fs.filter (!·.lost)).map (ntpStamp ·.turn.sendTime)

/-- Nothing but answers is read, of those not lost and in the order of the probes. -/
structure Ordered (fs : List Fate) : Prop where
  answers : ∀ f ∈ fs, ∀ response ∈ f.turn.datagram, isAnswer response = true
  order : ∀ pre, pre <+: fs → read pre <+: served pre

def Advancing (fs : List Fate) : Prop :=
  fs.Pairwise fun f g => f.turn.sendTime.toNat < g.turn.sendTime.toNat ∧
    g.turn.sendTime.toNat - f.turn.sendTime.toNat < 2 ^ 32 * 10 ^ 9

theorem length_read (fs : List Fate) :
    (read fs).length + fs.countP (·.turn.datagram.isNone) = fs.length := by
  rw [read, List.length_map]
  induction fs with
  | nil => rfl
  | cons f fs ih =>
    rw [List.length_cons, List.countP_cons, List.filterMap_cons, ← ih]
    cases f.turn.datagram with
    | none =>
      rw [Option.isNone_none, if_pos rfl]
      exact (Nat.add_assoc _ _ _).symm
    | some response =>
      rw [Option.isNone_some, if_neg Bool.false_ne_true]
      exact Nat.add_right_comm _ 1 _

theorem length_served (fs : List Fate) :
    (served fs).length + fs.countP (·.lost) = fs.length := by
  rw [served, List.length_map, ← List.countP_eq_length_filter, Nat.add_comm,
    List.length_eq_countP_add_countP (fun f : Fate => f.lost)]
  simp only [Bool.not_eq_true, Bool.decide_eq_false]

/-- The next answer read is to the turn's own probe when all before it have been read, and
to one of those otherwise. -/
theorem own_iff {pre : List Fate} {f : Fate} {response : Bytes}
    (hdatagram : f.turn.datagram = some response) (hclock : Advancing (pre ++ [f]))
    (hnet : Ordered (pre ++ [f])) :
    f.turn.own = true ↔ (read pre).length = (served pre).length := by
  have hform := hnet.answers f (by simp) response hdatagram
  obtain ⟨unread, hunread⟩ := hnet.order pre (List.prefix_append pre [f])
  have hown : f.turn.own = true ↔ getU64Be response 8 = ntpStamp f.turn.sendTime := by
    rw [Turn.own, hdatagram, Option.any_some, hform, Bool.true_and, beq_iff_eq]
  have hread : read (pre ++ [f]) = read pre ++ [getU64Be response 8] := by
    rw [read, List.filterMap_append, List.map_append, List.filterMap_cons, hdatagram]
    rfl
  have hnext : [getU64Be response 8] <+: unread ++ served [f] := by
    have hlast := hnet.order (pre ++ [f]) (List.prefix_refl _)
    rw [hread, served, List.filter_append, List.map_append, ← served, ← served, ← hunread,
      List.append_assoc] at hlast
    exact (List.prefix_append_right_inj _).mp hlast
  rw [hown, ← hunread, List.length_append, Nat.left_eq_add, List.length_eq_zero_iff]
  cases unread with
  | nil =>
    refine iff_of_true ?_ rfl
    obtain ⟨g, hg, hstamp⟩ := List.mem_map.mp (hnext.subset (List.mem_singleton_self _))
    rw [← hstamp, List.mem_singleton.mp (List.mem_of_mem_filter hg)]
  | cons stamp unread =>
    refine iff_of_false (fun heq => ?_) (List.cons_ne_nil _ _)
    have hstamp : getU64Be response 8 = stamp := (List.cons_prefix_cons.mp hnext).1
    have hmem : stamp ∈ served pre := hunread ▸ List.mem_append_right _ List.mem_cons_self
    obtain ⟨g, hg, hgstamp⟩ := List.mem_map.mp hmem
    have hlt := (List.pairwise_append.mp hclock).2.2 g (List.mem_of_mem_filter hg) f
      (List.mem_singleton_self f)
    exact ntpStamp_ne hlt.1 hlt.2 (hgstamp.trans (hstamp.symm.trans heq))

/-- On a network that keeps the order, a turn takes over what it reads exactly when as many
turns before it have read nothing as probes before it have gone unanswered. -/
theorem takes_iff (fs : List Fate) (hclock : Advancing fs) (hnet : Ordered fs)
    {pre post : List Fate}
    {f : Fate} (hfs : fs = pre ++ f :: post) :
    NtpClient.takes (NtpClient.machine.run {} (pre.map (·.turn))) f.turn = true ↔
      f.turn.datagram.isSome ∧ pre.countP (·.turn.datagram.isNone) = pre.countP (·.lost) := by
  have hpre : pre ++ [f] <+: fs := ⟨post, by rw [hfs, List.append_assoc]; rfl⟩
  have hclock' : Advancing (pre ++ [f]) := hclock.sublist hpre.sublist
  have hnet' : Ordered (pre ++ [f]) := {
    answers := fun g hg => hnet.answers g (hpre.subset hg)
    order := fun q hq => hnet.order q (hq.trans hpre) }
  have hread := length_read pre
  have hserved := length_served pre
  rw [(NtpClient.shaped_run _).takes_eq]
  cases hdatagram : f.turn.datagram with
  | none =>
    rw [Turn.own, hdatagram]
    exact iff_of_false Bool.false_ne_true fun h => Bool.false_ne_true h.1
  | some response =>
    rw [own_iff hdatagram hclock' hnet', Option.isSome_some, and_iff_right rfl]
    omega

/-- The answer to the first probe comes in the second turn. -/
def lateFates : List Fate :=
  [⟨⟨0, 0, none, 10 ^ 9, 0⟩, false⟩, ⟨⟨1, 0, some Poll.answered, 0, 0⟩, false⟩]

theorem late_not_taken : NtpClient.takes (NtpClient.machine.run {} [⟨0, 0, none, 10 ^ 9, 0⟩])
    ⟨1, 0, some Poll.answered, 0, 0⟩ = false := by
  have hordered : Ordered lateFates := {
    answers := by decide +kernel
    order := fun pre hpre => by
      have hinits : ∀ pre ∈ lateFates.inits, read pre <+: served pre := by decide +kernel
      exact hinits pre ((List.mem_inits pre lateFates).mpr hpre) }
  have hclock : Advancing lateFates := by
    rw [Advancing]
    decide
  have hiff := @takes_iff lateFates hclock hordered (lateFates.take 1) [] _ rfl
  rw [Bool.eq_false_iff]
  exact fun h => absurd (hiff.mp h).2 (by decide)

end Fate

end AirPlay.Clock
