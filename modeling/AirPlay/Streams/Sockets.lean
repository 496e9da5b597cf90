import AirPlay.Streams.Session

/-! Who closes the session's sockets.

A socket that was bound is held by a member, a channel or the audio receiver, or it has
been closed. A SETUP that is repeated stores another socket in a member; nothing holds
the one that was there. -/
namespace AirPlay.Streams

namespace StreamSession

def owned (s : StreamSession) : List Nat :=
  s.members ++ (s.audio.map (·.dataSock)).toList ++ s.channels.flatMap (·.socks)

theorem count_owned (n : Nat) (s : StreamSession) :
    s.owned.count n =
      s.dataSock.toList.count n + s.ctrlSock.toList.count n + s.timingSock.toList.count n +
        s.eventSock.toList.count n + s.ap2TimingSock.toList.count n +
        (s.audio.map (·.dataSock)).toList.count n + (s.channels.flatMap (·.socks)).count n := by
  simp only [owned, members, List.count_append]

/-- The sockets that were bound are what the session owns, the rest and what is closed. -/
def Keeps (s : StreamSession) (rest : List Nat) : Prop := s.sockets.Balanced (s.owned ++ rest)

/-- What is lost of a member when a bind for a port that the client named succeeds. -/
def replaced (port : UInt16) (bind : Option UInt16) (member : Option Nat) : List Nat :=
  if port = 0 || bind.isNone then [] else member.toList

/-- The sockets that a call takes out of the members that it stores others in. -/
def overwrites (s : StreamSession) : Event → List Nat
  | .setupLegacy transport data control timing =>
    let ports := clientPortsOf transport
    if data.isNone then []
    else if ports.control ≠ 0 && control.isNone then s.dataSock.toList
    else s.dataSock.toList ++ replaced ports.control control s.ctrlSock ++
      replaced ports.timing timing s.timingSock
  | .setupSession event timing =>
    if event.isNone || timing.isNone then [] else s.eventSock.toList ++ s.ap2TimingSock.toList
  | _ => []

section Keeps
variable {s : StreamSession} {rest : List Nat}

/-- Sockets may change hands. -/
theorem Keeps.move {s' : StreamSession} {rest' : List Nat} (h : s.Keeps rest)
    (hsockets : s'.sockets = s.sockets)
    (hmoved : ∀ n, s.owned.count n + rest.count n = s'.owned.count n + rest'.count n) :
    s'.Keeps rest' := by
  rw [Keeps, hsockets]
  apply Ledger.Balanced.perm h
  apply List.perm_iff_count.mpr
  intro n
  rw [List.count_append, List.count_append, hmoved]

theorem bindUdp_keeps (port : UInt16) (h : s.Keeps rest) :
    (s.bindUdp (some port)).2.Keeps (s.sockets.issued :: rest) :=
  Ledger.Balanced.perm h.issue List.perm_middle.symm

theorem closeSockets_keeps {socks : List Nat} (h : s.Keeps (socks ++ rest)) :
    (s.closeSockets socks).Keeps rest := by
  apply Ledger.Balanced.close
  apply Ledger.Balanced.perm h
  rw [← List.append_assoc, ← List.append_assoc]
  exact List.perm_append_comm.append_right rest

theorem dropAudio_keeps (h : s.Keeps rest) : s.dropAudio.Keeps rest := by
  have hout : ({s with audio := none} : StreamSession).Keeps
      ((s.audio.map (·.dataSock)).toList ++ rest) := by
    refine Keeps.move h rfl ?_
    intro n
    simp only [count_owned, List.count_append, Option.map_none, Option.toList_none, List.count_nil]
    omega
  have hclosed := closeSockets_keeps hout
  exact hclosed

theorem dropMembers_keeps (h : s.Keeps rest) : s.dropMembers.Keeps rest := by
  have hout : ({s with
      dataSock := none, ctrlSock := none, timingSock := none, eventSock := none
      ap2TimingSock := none} : StreamSession).Keeps (s.members ++ rest) := by
    refine Keeps.move h rfl ?_
    intro n
    simp only [count_owned, members, List.count_append, Option.toList_none, List.count_nil]
    omega
  have hclosed := closeSockets_keeps hout
  exact hclosed

theorem dropChannels_keeps (gone : StreamChannel → Bool) (h : s.Keeps rest) :
    (s.dropChannels gone).Keeps rest := by
  have hout : ({s with channels := s.channels.filter fun ch => !gone ch} : StreamSession).Keeps
      ((s.channels.filter gone).flatMap (·.socks) ++ rest) := by
    refine Keeps.move h rfl ?_
    intro n
    have hsplit := ((List.filter_append_perm gone s.channels).flatMap_right (·.socks)).count_eq n
    rw [List.flatMap_append, List.count_append] at hsplit
    simp only [count_owned, List.count_append]
    omega
  have hclosed := closeSockets_keeps hout
  exact hclosed

theorem teardown_keeps (h : s.Keeps rest) : s.teardown.Keeps rest := by
  have hdropped : ({s with audioControlSession := false, mirror := false} :
      StreamSession).dropAudio.Keeps rest := dropAudio_keeps h
  exact dropChannels_keeps _ (dropMembers_keeps hdropped)

theorem teardown_owned (s : StreamSession) : s.teardown.owned = [] := by
  simp [teardown, owned, members, dropChannels, dropMembers, dropAudio, closeSockets]

theorem pushChannel_keeps {ch : StreamChannel} (h : s.Keeps (ch.socks ++ rest)) :
    (s.pushChannel ch).Keeps rest := by
  refine Keeps.move h rfl ?_
  intro n
  simp only [pushChannel, count_owned, List.flatMap_append, List.flatMap_singleton,
    List.count_append]
  omega

/-- A socket that was bound is stored in a member; what was there is in nobody's hands. -/
theorem bindNamed_keeps {named : UInt16} {bind : Option UInt16} {member : Option Nat}
    {store : Nat → StreamSession → StreamSession}
    (hstore : ({s with sockets := s.sockets.issue} : StreamSession).Keeps
      (s.sockets.issued :: rest) →
      (store s.sockets.issued {s with sockets := s.sockets.issue}).Keeps (rest ++ member.toList))
    (h : s.Keeps rest) :
    (s.bindNamed named bind store).2.Keeps (rest ++ replaced named bind member) := by
  rw [bindNamed, replaced]
  by_cases hnone : named = 0
  · simpa [hnone] using h
  rw [if_neg hnone]
  cases bind with
  | none => simpa using teardown_keeps h
  | some port => simpa [hnone] using hstore (bindUdp_keeps port h)

/-- It goes on unless the bind of a port that the client names has failed. -/
theorem bindNamed_goes (named : UInt16) (bind : Option UInt16)
    (store : Nat → StreamSession → StreamSession) (s : StreamSession) :
    (s.bindNamed named bind store).1 = none ∧ named ≠ 0 ∧ bind = none ∨
      (∃ port, (s.bindNamed named bind store).1 = some port) ∧
        (named ≠ 0 && bind.isNone) = false := by
  rw [bindNamed]
  by_cases hnone : named = 0
  · rw [if_pos hnone]
    exact .inr ⟨⟨0, rfl⟩, by simp [hnone]⟩
  rw [if_neg hnone]
  cases bind with
  | none => exact .inl ⟨rfl, hnone, rfl⟩
  | some port => exact .inr ⟨⟨port, rfl⟩, by simp⟩

theorem setupControl_frame {bind : Option UInt16} {port : UInt16}
    (h : (s.setupControl bind).1 = some port) :
    (s.setupControl bind).2.clientPorts = s.clientPorts ∧
      (s.setupControl bind).2.timingSock = s.timingSock := by
  rw [setupControl, bindNamed] at h ⊢
  split
  · exact ⟨rfl, rfl⟩
  rename_i hnamed
  rw [if_neg hnamed] at h
  cases bind with
  | none => exact nomatch h
  | some port => exact ⟨rfl, rfl⟩

theorem setupControl_keeps (bind : Option UInt16) (h : s.Keeps rest) :
    (s.setupControl bind).2.Keeps (rest ++ replaced s.clientPorts.control bind s.ctrlSock) := by
  refine bindNamed_keeps (fun hbound => Keeps.move hbound rfl fun n => ?_) h
  simp only [count_owned, List.count_append, List.count_cons, Option.toList_some, List.count_nil]
  omega

theorem setupTiming_keeps (bind : Option UInt16) (h : s.Keeps rest) :
    (s.setupTiming bind).2.Keeps (rest ++ replaced s.clientPorts.timing bind s.timingSock) := by
  refine bindNamed_keeps (fun hbound => Keeps.move hbound rfl fun n => ?_) h
  simp only [count_owned, List.count_append, List.count_cons, Option.toList_some, List.count_nil]
  omega

theorem setupLegacy_keeps (transport : Bytes) (data control timing : Option UInt16)
    (h : s.Keeps rest) :
    (s.setupLegacy transport data control timing).2.Keeps
      (rest ++ s.overwrites (.setupLegacy transport data control timing)) := by
  rw [setupLegacy, overwrites]
  cases data with
  | none =>
    simp only [bindUdp_none, Option.isNone_none, if_true, List.append_nil]
    exact h
  | some port =>
    generalize ht : ({s with
      clientPorts := clientPortsOf transport, dataSock := some s.sockets.issued
      sockets := s.sockets.issue} : StreamSession) = t
    have hdata : t.Keeps (rest ++ s.dataSock.toList) := by
      refine Keeps.move (bindUdp_keeps port h) (by rw [← ht]; rfl) ?_
      intro n
      simp [← ht, count_owned, List.count_cons]
      omega
    have hports : t.clientPorts = clientPortsOf transport := by rw [← ht]
    have hctrl : t.ctrlSock = s.ctrlSock := by rw [← ht]
    have htim : t.timingSock = s.timingSock := by rw [← ht]
    have hcontrol := setupControl_keeps control hdata
    have hgoes : (t.setupControl control).1 = none ∧ t.clientPorts.control ≠ 0 ∧ control = none ∨
        (∃ cPort, (t.setupControl control).1 = some cPort) ∧
          (t.clientPorts.control ≠ 0 && control.isNone) = false := bindNamed_goes _ _ _ t
    rw [hports, hctrl] at hcontrol
    rw [hports] at hgoes
    simp only [bindUdp_some, ht, Option.isNone_some, Bool.false_eq_true, if_false]
    rcases hgoes with ⟨hfails, hnamed, rfl⟩ | ⟨⟨cPort, hok⟩, hbound⟩
    · generalize t.setupControl none = c at hcontrol hfails
      obtain ⟨cPort, u⟩ := c
      obtain rfl : cPort = none := hfails
      simpa [hnamed, replaced] using hcontrol
    · have hsame := setupControl_frame hok
      rw [hports, htim] at hsame
      generalize t.setupControl control = c at hcontrol hok hsame
      obtain ⟨cPort', u⟩ := c
      obtain rfl : cPort' = some cPort := hok
      have htiming := setupTiming_keeps timing hcontrol
      rw [hsame.1, hsame.2] at htiming
      rw [hbound, if_neg Bool.false_ne_true, ← List.append_assoc, ← List.append_assoc]
      dsimp only
      generalize u.setupTiming timing = v at htiming
      obtain ⟨tPort, v⟩ := v
      cases tPort with
      | none => exact htiming
      | some tPort => exact htiming

theorem setupSession_keeps (event timing : Option UInt16) (h : s.Keeps rest) :
    (s.setupSession event timing).2.Keeps (rest ++ s.overwrites (.setupSession event timing)) := by
  rw [setupSession, overwrites]
  cases event with
  | none => simpa using h
  | some ePort =>
    have hevent := bindUdp_keeps ePort h
    cases timing with
    | none =>
      simpa using @closeSockets_keeps _ _ [s.sockets.issued] hevent
    | some tPort =>
      refine Keeps.move (bindUdp_keeps tPort hevent) rfl ?_
      intro n
      simp [count_owned, List.count_cons]
      omega

theorem startAudio_keeps {dSock : Nat} (opts : StreamOpts) (aes : Bool)
    (h : s.Keeps (dSock :: rest)) : (s.startAudio dSock opts aes).Keeps rest := by
  have hdropped := dropAudio_keeps h
  rw [startAudio]
  split
  · exact closeSockets_keeps hdropped
  · rename_i r hr
    obtain ⟨hsock, -, -⟩ := Receiver.start_some hr
    refine Keeps.move hdropped rfl ?_
    intro n
    simp [count_owned, List.count_cons, hsock, dropAudio]
    omega

theorem setupUdp_keeps (type : Int) (opts : StreamOpts) (data control : Option UInt16) (aes : Bool)
    (h : s.Keeps rest) : (s.setupUdp type opts data control aes).2.Keeps rest := by
  rw [setupUdp]
  cases data with
  | none => exact h
  | some dPort =>
    have hdata := bindUdp_keeps dPort h
    cases control with
    | none => exact @closeSockets_keeps _ _ [s.sockets.issued] hdata
    | some cPort =>
      have hboth : ((s.bindUdp (some dPort)).2.bindUdp (some cPort)).2.Keeps
          (s.sockets.issued :: ([s.sockets.issue.issued] ++ rest)) :=
        Ledger.Balanced.perm (bindUdp_keeps cPort hdata)
          ((List.Perm.swap s.sockets.issued s.sockets.issue.issued rest).append_left _)
      simp only [bindUdp_some] at hboth ⊢
      split
      · have haudio := startAudio_keeps opts aes hboth
        exact @pushChannel_keeps _ rest
          ⟨type, dPort, cPort, none, some s.sockets.issue.issued⟩ haudio
      · exact @pushChannel_keeps _ rest
          ⟨type, dPort, cPort, some s.sockets.issued, some s.sockets.issue.issued⟩ hboth

theorem setupMirror_keeps (listener : Option UInt16) (h : s.Keeps rest) :
    (s.setupMirror listener).2.Keeps rest := by
  cases listener with
  | none => exact h
  | some port =>
    have hmode : ({s with mirror := true, audio := s.audio.map (Receiver.setSynchronized false)} :
        StreamSession).Keeps rest := by
      refine Keeps.move h rfl ?_
      intro n
      simp only [count_owned, Option.map_map]
      rfl
    exact pushChannel_keeps hmode

theorem stopStream_keeps (type : Int) (h : s.Keeps rest) : (s.stopStream type).Keeps rest := by
  apply dropChannels_keeps
  have hmirror : (if type = 110 && s.mirror then
      {s with mirror := false, audio := s.audio.map (Receiver.setSynchronized true)}
      else s).Keeps rest := by
    split
    · refine Keeps.move h rfl ?_
      intro n
      simp only [count_owned, Option.map_map]
      rfl
    · exact h
  split
  · exact dropAudio_keeps hmirror
  · exact hmirror

end Keeps

/-- The session, with the sockets that were overwritten so far. -/
def owning : Machine (StreamSession × List Nat) Event := machine.logged overwrites

theorem keeps_step (w : StreamSession × List Nat) (e : Event) (h : w.1.Keeps w.2) :
    (owning.step w e).1.Keeps (owning.step w e).2 := by
  have hnone : ∀ {s' : StreamSession}, s'.Keeps w.2 → s'.Keeps (w.2 ++ []) := by
    intro s' hs'
    rwa [List.append_nil]
  cases e with
  | setupLegacy transport data control timing =>
    exact setupLegacy_keeps transport data control timing h
  | setupSession event timing => exact setupSession_keeps event timing h
  | setupStream type opts listener data control aes =>
    apply hnone
    show (w.1.setupStream type opts listener data control aes).2.Keeps _
    rw [setupStream]
    split
    · exact setupMirror_keeps listener h
    · exact setupUdp_keeps type opts data control aes h
  | startNtp started =>
    apply hnone
    show (w.1.startNtp started).2.Keeps _
    rw [startNtp]
    split <;> exact h
  | stopStream type => exact hnone (stopStream_keeps type h)
  | teardown => exact hnone (teardown_keeps h)

/-- Nothing is stored over a socket that is still bound. -/
def Vacant (s : StreamSession) (e : Event) : Prop := s.overwrites e = []

/-- When the session is gone every socket that was bound has been closed, once, exactly
when no call has stored a socket in a member that held one. -/
theorem settled_iff (es : List Event) :
    (machine.run {} es).teardown.sockets.Settled ↔ machine.Meets Vacant {} es := by
  have hkeeps : (owning.run ({}, []) es).1.Keeps (owning.run ({}, []) es).2 :=
    Machine.run_keeps keeps_step es Ledger.balanced_empty
  have hrun : (owning.run ({}, []) es).1 = machine.run {} es := Machine.logged_run overwrites _ es
  rw [hrun] at hkeeps
  have hend := teardown_keeps hkeeps
  rw [Keeps, teardown_owned, List.nil_append] at hend
  rw [hend.settled_iff_nil, owning, Machine.logged_eq_nil]
  exact and_iff_right rfl

/-- At no time is a socket closed twice. -/
theorem closed_once (es : List Event) : (machine.run {} es).sockets.closed.Nodup := by
  have hkeeps : (owning.run ({}, []) es).1.Keeps (owning.run ({}, []) es).2 :=
    Machine.run_keeps keeps_step es Ledger.balanced_empty
  have hrun : (owning.run ({}, []) es).1 = machine.run {} es := Machine.logged_run overwrites _ es
  rw [hrun] at hkeeps
  exact hkeeps.nodup

/-- A session that is set up twice. -/
def setupTwice : List Event := List.replicate 2 (.setupSession (some 7010) (some 7011))

/-- The first event and timing sockets are never closed. -/
theorem setup_twice_leaks :
    ¬ (machine.run {} setupTwice).teardown.sockets.Settled ∧
      (machine.run {} setupTwice).teardown.sockets = ⟨4, [2, 3]⟩ :=
  ⟨fun h => absurd (h 0) (by decide), rfl⟩

end StreamSession

end AirPlay.Streams
