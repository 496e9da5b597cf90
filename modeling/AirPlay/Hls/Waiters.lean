import AirPlay.Hls.Generation

/-! Several fetches of one segment.

A response for a segment waits in a slot of its session, one for locations and one for
data; a fetch that is waiting takes it out. Responses and waiting fetches balance as long
as no response is stored over another one. -/
namespace AirPlay.Hls

/-- What a fetch of a segment comes back with. -/
inductive Answer
  | redirect (location : Bytes)
  | data (bytes : Bytes)
  deriving DecidableEq

/-- The answer in a delivery. -/
def Delivery.answer (d : Delivery) : Answer :=
  if d.redirectLocation ≠ [] then .redirect d.redirectLocation else .data d.playlist

/-- The answers that are there for a URL, in the order in which they are taken. -/
def slots (url : Bytes) (hls : HlsSession) : List Answer :=
  ((hls.segmentRedirect url).map Answer.redirect).toList ++
    ((hls.segmentData url).map Answer.data).toList

/-- What an answer is stored over. -/
def overwritten (url : Bytes) (hls : HlsSession) : Answer → List Answer
  | .redirect _ => ((hls.segmentRedirect url).map Answer.redirect).toList
  | .data _ => ((hls.segmentData url).map Answer.data).toList

namespace Handler

/-- The answer for the segment that the handler's next step stores. -/
def delivers (sid url : Bytes) (hls : HlsSession) : Handler → List Answer
  | storing sid' d _ =>
    if sid' = sid ∧ d.url = url ∧ isMaster hls url = false ∧ isM3u8 url = false then [d.answer]
    else []
  | _ => []

/-- What the fetch returns with if the handler's next step is its return. -/
def collects (sid url : Bytes) (ok : Bool) (hls : HlsSession) : Handler → List Answer
  | waitingSegment sid' url' =>
    if sid' = sid ∧ url' = url ∧ ok then (slots url hls).head?.toList else []
  | _ => []

def disturbs (sid url : Bytes) (ok : Bool) (hls : HlsSession) : Handler → Bool
  | registering sid' _ _ | droppingSegments sid' => sid' = sid
  | checkingSegment sid' url' _ | registeringSegment sid' url' _ => sid' = sid ∧ url' = url
  | waitingSegment sid' url' => sid' = sid ∧ url' = url ∧ (ok = false ∨ slots url hls = [])
  | _ => false

/-- A fetch of the segment that is waiting. -/
def waits (sid url : Bytes) : Handler → Bool
  | waitingSegment sid' url' => sid' = sid ∧ url' = url
  | _ => false

end Handler

/-- The thread waits for the segment. -/
def Receiver.waits (s : Receiver) (sid url : Bytes) (thread : Nat) : Bool :=
  (s.threads thread).any (Handler.waits sid url)

/-- What was delivered for a segment, and what became of it. -/
structure Service where
  delivered : List Answer := []
  lost : List Answer := []
  /-- Which fetch returned with what. -/
  returned : List (Nat × Answer) := []

section Serving
variable (sid url : Bytes)

/-- What is delivered for the segment with the event. -/
def deliveredBy (s : Receiver) : Event → List Answer
  | .resume thread _ => (s.running thread).elim [] fun p => p.1.delivers sid url p.2
  | _ => []

/-- What the event stores an answer over. -/
def lostBy (s : Receiver) : Event → List Answer
  | .resume thread _ => (s.running thread).elim [] fun p =>
      (p.1.delivers sid url p.2).flatMap (overwritten url p.2)
  | _ => []

def returnedBy (s : Receiver) : Event → List (Nat × Answer)
  | .resume thread ok => (s.running thread).elim [] fun p =>
      (p.1.collects sid url ok p.2).map (thread, ·)
  | _ => []

def noteService (s : Receiver) (e : Event) (g : Service) : Service where
  delivered := g.delivered ++ deliveredBy sid url s e
  lost := g.lost ++ lostBy sid url s e
  returned := g.returned ++ returnedBy sid url s e

/-- A reset of the session, another fetch of the segment, or a fetch that times out. -/
def disturbedBy (s : Receiver) : Event → Bool
  | .resume thread ok => (s.running thread).any fun p => p.1.disturbs sid url ok p.2
  | _ => false

/-- No answer for the segment is stored over another one of its kind. -/
def Consumed (s : Receiver) (e : Event) : Prop := lostBy sid url s e = []

instance (s : Receiver) (e : Event) : Decidable (Consumed sid url s e) :=
  inferInstanceAs (Decidable (lostBy sid url s e = []))

/-- The answers that have come are returned, in a slot or lost; each of the fetches has
returned or waits. -/
structure Served (fetches : List Nat) (w : Receiver × Service) : Prop where
  answers : ∃ hls, w.1.registry.sessions sid = some hls ∧
    (w.2.returned.map Prod.snd ++ slots url hls ++ w.2.lost).Perm w.2.delivered
  all : (w.2.returned.map Prod.fst ++ fetches.filter (w.1.waits sid url)).Perm fetches
  only : ∀ thread, w.1.waits sid url thread = true → thread ∈ fetches

end Serving

section Steps
variable {expand : Bytes → Bytes} {localPort : Nat} {sid url : Bytes}

theorem slots_frame {hls hls' : HlsSession} (hd : hls'.segmentData = hls.segmentData)
    (hr : hls'.segmentRedirect = hls.segmentRedirect) : slots url hls' = slots url hls := by
  rw [slots, slots, hd, hr]

/-- The first answer is taken out of its slot. -/
theorem slots_take {hls hls' : HlsSession} (h : Handler.takeSegment url hls = some hls') :
    ∃ a, slots url hls = a :: slots url hls' := by
  rw [Handler.takeSegment] at h
  cases hr : hls.segmentRedirect url with
  | some location =>
    rw [hr, Option.isSome_some, if_pos rfl] at h
    rw [← Option.some.inj h]
    exact ⟨.redirect location, by simp [slots, hr]⟩
  | none =>
    rw [hr, Option.isSome_none, if_neg Bool.false_ne_true] at h
    cases hdata : hls.segmentData url with
    | some b =>
      rw [hdata, Option.isSome_some, if_pos rfl] at h
      rw [← Option.some.inj h]
      exact ⟨.data b, by simp [slots, hr, hdata]⟩
    | none =>
      rw [hdata, Option.isSome_none, if_neg Bool.false_ne_true] at h
      exact absurd h (Option.some_ne_none hls').symm

theorem slots_of_take_none {hls : HlsSession} (h : Handler.takeSegment url hls = none) :
    slots url hls = [] := by
  rw [Handler.takeSegment] at h
  cases hr : hls.segmentRedirect url with
  | some location => simp [hr] at h
  | none =>
    cases hdata : hls.segmentData url with
    | some b => simp [hr, hdata] at h
    | none => simp [slots, hr, hdata]

/-- Another segment is taken out of its own slots. -/
theorem slots_take_other {url' : Bytes} {hls hls' : HlsSession} (hne : url' ≠ url)
    (h : Handler.takeSegment url' hls = some hls') : slots url hls' = slots url hls := by
  rw [Handler.takeSegment] at h
  split at h
  · rw [← Option.some.inj h, slots, slots]
    dsimp only
    rw [Function.update_of_ne hne.symm]
  split at h
  · rw [← Option.some.inj h, slots, slots]
    dsimp only
    rw [Function.update_of_ne hne.symm]
  · exact absurd h (Option.some_ne_none hls').symm

/-- An answer goes into its slot, over the one that is there. -/
theorem slots_store {sid' : Bytes} (d : Delivery) (ok : Bool) (hls : HlsSession)
    (generation : CInt) (hm : isMaster hls d.url = false) (hp : isM3u8 d.url = false) :
    (slots d.url ((Handler.storing sid' d generation).work expand localPort ok hls).1 ++
      overwritten d.url hls d.answer).Perm (slots d.url hls ++ [d.answer]) := by
  rw [Handler.work, hm, hp, if_neg Bool.false_ne_true, if_neg Bool.false_ne_true, Delivery.answer]
  split
  · simp only [slots, overwritten, Function.update_self, Option.map_some, Option.toList_some]
    rw [List.perm_iff_count]
    intro a
    simp only [List.count_append]
    omega
  · simp only [slots, overwritten, Function.update_self, Option.map_some, Option.toList_some]
    rw [List.perm_iff_count]
    intro a
    simp only [List.count_append]
    omega

/-- What is stored for another URL, or as a playlist, leaves the slots of the segment. -/
theorem slots_store_other {sid' : Bytes} (d : Delivery) (ok : Bool) (hls : HlsSession)
    (generation : CInt)
    (h : ¬ (d.url = url ∧ isMaster hls url = false ∧ isM3u8 url = false)) :
    slots url ((Handler.storing sid' d generation).work expand localPort ok hls).1 =
      slots url hls := by
  rw [Handler.work]
  split
  · exact slots_frame rfl rfl
  rename_i hm
  split
  · rfl
  rename_i hp
  have hne : url ≠ d.url := by
    rintro rfl
    exact h ⟨rfl, Bool.not_eq_true _ ▸ hm, Bool.not_eq_true _ ▸ hp⟩
  split <;> simp only [slots, Function.update_of_ne hne]

/-- A look for another segment leaves the slots. -/
theorem slots_check {sid' url' : Bytes} {id : CInt} (ok : Bool) (hls : HlsSession)
    (hne : url' ≠ url) :
    slots url ((Handler.checkingSegment sid' url' id).work expand localPort ok hls).1 =
      slots url hls := by
  rw [Handler.work]
  cases htake : Handler.takeSegment url' hls with
  | none => rfl
  | some hls' => exact slots_take_other hne htake

/-- A fetch takes the first answer for its own segment, and leaves the slots of others. -/
theorem slots_wait {sid' url' : Bytes} (ok : Bool) (hls : HlsSession)
    (hd : (Handler.waitingSegment sid' url').disturbs sid' url ok hls = false) :
    (slots url ((Handler.waitingSegment sid' url').work expand localPort ok hls).1 ++
      (Handler.waitingSegment sid' url').collects sid' url ok hls).Perm (slots url hls) := by
  rw [Handler.work, Handler.collects]
  by_cases hurl : url' = url
  · subst hurl
    have hready : ¬ (ok = false ∨ slots url' hls = []) := fun h =>
      of_decide_eq_false hd ⟨rfl, rfl, h⟩
    have hok : ok = true := by
      cases ok with
      | false => exact absurd (.inl rfl) hready
      | true => rfl
    cases htake : Handler.takeSegment url' hls with
    | none => exact absurd (.inr (slots_of_take_none htake)) hready
    | some hls' =>
      obtain ⟨a, ha⟩ := slots_take htake
      rw [if_pos hok, if_pos ⟨rfl, rfl, hok⟩, ha]
      simp only [Option.getD_some, List.head?_cons, Option.toList_some]
      exact List.perm_append_singleton _ _
  · rw [if_neg (c := sid' = sid' ∧ url' = url ∧ ok = true) fun h => hurl h.2.1, List.append_nil]
    cases ok with
    | false => exact List.Perm.refl _
    | true =>
      rw [if_pos rfl]
      cases htake : Handler.takeSegment url' hls with
      | none => exact List.Perm.refl _
      | some hls' =>
        rw [Option.getD_some, slots_take_other hurl htake]

/-- What a handler's step does to the slots of the segment. -/
theorem work_slots (h : Handler) (ok : Bool) (hls : HlsSession)
    (hd : h.disturbs sid url ok hls = false) (hs : h.sid = sid) :
    (slots url (h.work expand localPort ok hls).1 ++ h.collects sid url ok hls ++
      (h.delivers sid url hls).flatMap (overwritten url hls)).Perm
        (slots url hls ++ h.delivers sid url hls) := by
  have hnone : ∀ slots slots' : List Answer, slots'.Perm slots →
      (slots' ++ ([] : List Answer).flatMap (overwritten url hls)).Perm (slots ++ []) := by
    intro slots slots' hslots
    rw [List.flatMap_nil, List.append_nil, List.append_nil]
    exact hslots
  cases h with
  | storing sid' d generation =>
    obtain rfl : sid' = sid := hs
    have hcollects : (Handler.storing sid' d generation).collects sid' url ok hls = [] := rfl
    rw [hcollects, Handler.delivers, List.append_nil]
    by_cases hsegment : d.url = url ∧ isMaster hls url = false ∧ isM3u8 url = false
    · rw [if_pos ⟨rfl, hsegment⟩, List.flatMap_singleton]
      obtain ⟨rfl, hm, hp⟩ := hsegment
      exact slots_store d ok hls generation hm hp
    · rw [if_neg fun h => hsegment h.2, slots_store_other d ok hls generation hsegment]
      exact List.Perm.refl _
  | checkingSegment sid' url' id =>
    obtain rfl : sid' = sid := hs
    have hne : url' ≠ url := fun h => of_decide_eq_false hd ⟨rfl, h⟩
    refine hnone _ _ ?_
    rw [slots_check ok hls hne]
    exact List.Perm.of_eq (List.append_nil _)
  | waitingSegment sid' url' =>
    obtain rfl : sid' = sid := hs
    exact hnone _ _ (slots_wait ok hls hd)
  | registering sid' generation id =>
    exact absurd (of_decide_eq_false hd) (not_not_intro hs)
  | droppingSegments sid' =>
    exact absurd (of_decide_eq_false hd) (not_not_intro hs)
  | localising sid' d generation out left =>
    rcases left with - | ⟨_ | _, left⟩
    all_goals simp [Handler.work, registerLocal, slots, Handler.collects, Handler.delivers]
  | checkingPlaylist sid' url' force id =>
    rw [Handler.work]
    cases hls.mediaPlaylists url' with
    | none => simp [Handler.collects, Handler.delivers]
    | some playlist => cases force <;> simp [slots, Handler.collects, Handler.delivers]
  | waitingPlaylist sid' url' previous =>
    obtain ⟨playlists, hrestore⟩ := Handler.restore_frame url' previous hls
    rw [Handler.work, hrestore]
    split <;> simp [slots, Handler.collects, Handler.delivers]
  | _ => simp [Handler.work, slots, Handler.collects, Handler.delivers]

/-- Nobody else begins to wait, and who waits returns. -/
theorem work_waits (h : Handler) (ok : Bool) (hls : HlsSession)
    (hd : h.disturbs sid url ok hls = false) :
    (h.work expand localPort ok hls).2.any (Handler.waits sid url) = false := by
  cases hw : (h.work expand localPort ok hls).2 with
  | none => rfl
  | some next =>
    cases Handler.work_leads hw with
    | registeringSegment => exact hd
    | _ => rfl

/-- Only a fetch that waits collects an answer, and it is the first one. -/
theorem collects_cases (h : Handler) (ok : Bool) (hls : HlsSession)
    (hd : h.disturbs sid url ok hls = false) :
    (h.waits sid url = false ∧ h.collects sid url ok hls = []) ∨
      h.waits sid url = true ∧ ∃ a, h.collects sid url ok hls = [a] := by
  cases h with
  | waitingSegment sid' url' =>
    rw [Handler.waits, Handler.collects]
    by_cases hsame : sid' = sid ∧ url' = url
    · obtain ⟨rfl, rfl⟩ := hsame
      have hready : ¬ (ok = false ∨ slots url' hls = []) := fun h =>
        of_decide_eq_false hd ⟨rfl, rfl, h⟩
      refine .inr ⟨decide_eq_true ⟨rfl, rfl⟩, ?_⟩
      cases hslots : slots url' hls with
      | nil => exact absurd (.inr hslots) hready
      | cons a rest =>
        refine ⟨a, ?_⟩
        cases ok with
        | false => exact absurd (.inl rfl) hready
        | true => rw [if_pos ⟨rfl, rfl, rfl⟩, List.head?_cons, Option.toList_some]
    · exact .inl ⟨decide_eq_false hsame, if_neg fun h => hsame ⟨h.1, h.2.1⟩⟩
  | _ => exact .inl ⟨rfl, rfl⟩

/-- A thread that is busy takes no new call. -/
theorem idle_or_rests (s : Receiver) {e : Event} {thread : Nat} (he : e.thread = some thread)
    (hres : ∀ ok, e ≠ .resume thread ok) :
    s.threads thread = none ∨ s.step expand localPort e = s := by
  by_cases hbusy : (s.threads thread).isSome = true
  · right
    cases e with
    | reverse | teardown => exact nomatch he
    | play thread' sid' url' =>
      obtain rfl := Option.some.inj he
      exact if_pos (.inl hbusy)
    | stop thread' | action thread' | fetchPlaylist thread' | fetchSegment thread' =>
      obtain rfl := Option.some.inj he
      exact if_pos hbusy
    | resume thread' ok =>
      obtain rfl := Option.some.inj he
      exact absurd rfl (hres ok)
  · left
    rwa [Option.not_isSome_iff_eq_none] at hbusy

/-- Who waits stays the same when a thread changes that does not. -/
theorem waits_frame {s s' : Receiver} {thread : Nat} {next : Option Handler}
    (ht : s'.threads = Function.update s.threads thread next)
    (hsame : (s.threads thread).any (Handler.waits sid url) = next.any (Handler.waits sid url)) :
    s'.waits sid url = s.waits sid url := by
  funext other
  rw [Receiver.waits, Receiver.waits, ht]
  by_cases hother : other = thread
  · rw [hother, Function.update_self, hsame]
  · rw [Function.update_of_ne hother]

/-- New calls neither touch the slots nor wait. -/
theorem call_serves (s : Receiver) (e : Event) {hls : HlsSession}
    (hf : s.registry.sessions sid = some hls) (hres : ∀ thread ok, e ≠ .resume thread ok) :
    (∃ hls', (s.step expand localPort e).registry.sessions sid = some hls' ∧
        slots url hls' = slots url hls) ∧
      (s.step expand localPort e).waits sid url = s.waits sid url := by
  have hput : ∀ {sid' : Bytes} {a b : HlsSession}, s.registry.sessions sid' = some a →
      slots url b = slots url a → ∃ hls', Function.update s.registry.sessions sid' (some b) sid =
        some hls' ∧ slots url hls' = slots url hls := by
    intro sid' a b ha hslots
    by_cases hsid : sid = sid'
    · subst hsid
      obtain rfl := Option.some.inj (ha.symm.trans hf)
      exact ⟨b, Function.update_self .., hslots⟩
    · exact ⟨hls, (Function.update_of_ne hsid ..).trans hf, rfl⟩
  have hidle : ∀ {thread : Nat} {h : Handler}, e.thread = some thread →
      h.waits sid url = false →
      (s.step expand localPort e).threads = Function.update s.threads thread (some h) →
      (s.step expand localPort e).waits sid url = s.waits sid url := by
    intro thread h he hh ht
    rcases @idle_or_rests expand localPort s e thread he (hres thread) with hnone | hrests
    · exact waits_frame ht (by rw [hnone]; exact hh.symm)
    · rw [hrests]
  cases @Receiver.step_moves expand localPort s e with
  | rests hs ht => exact ⟨⟨hls, hs ▸ hf, rfl⟩, by funext θ; rw [Receiver.waits, ht, Receiver.waits]⟩
  | opens thread sid' url' he hs ht =>
    refine ⟨?_, hidle (congrArg Event.thread he) rfl ht⟩
    rw [hs]
    by_cases hsid : sid = sid'
    · subst hsid
      exact ⟨hls, by rw [Function.update_self, hf, Option.getD_some], rfl⟩
    · exact ⟨hls, (Function.update_of_ne hsid ..).trans hf, rfl⟩
  | stops thread sid' he hs ht =>
    exact ⟨⟨hls, hs ▸ hf, rfl⟩, hidle (congrArg Event.thread he) rfl ht⟩
  | delivers thread sid' d a he ha hcurrent hs ht =>
    refine ⟨?_, hidle (congrArg Event.thread he) rfl ht⟩
    rw [hs]
    obtain ⟨generations, hconsume⟩ := consume_frame a d
    exact hput ha (by rw [hconsume]; exact slots_frame rfl rfl)
  | fetches thread sid' a h he ha hs ht =>
    rw [hs]
    refine ⟨hput ha (slots_frame rfl rfl), ?_⟩
    rcases he with ⟨url', force, order, rfl, rfl⟩ | ⟨url', order, rfl, rfl⟩
    · exact hidle rfl rfl ht
    · exact hidle rfl rfl ht
  | works thread ok h a he => exact absurd he (hres thread ok)
  | drops thread hs ht he =>
    obtain ⟨ok, he⟩ := he
    exact absurd he (hres thread ok)

variable {fetches : List Nat}

/-- The fetch that returns is one of those that waited. -/
theorem filter_perm {p p' : Nat → Bool} {thread : Nat} (hn : fetches.Nodup)
    (hmem : thread ∈ fetches) (hp : p thread = true) (hp' : p' thread = false)
    (hother : ∀ other, other ≠ thread → p' other = p other) :
    (fetches.filter p).Perm (thread :: fetches.filter p') := by
  have hnew : thread ∉ fetches.filter p' := by
    rw [List.mem_filter, hp']
    exact fun h => Bool.false_ne_true h.2
  rw [List.perm_ext_iff_of_nodup (hn.filter p) (List.nodup_cons.mpr ⟨hnew, hn.filter p'⟩)]
  intro other
  rw [List.mem_cons, List.mem_filter, List.mem_filter]
  by_cases h : other = thread
  · subst h
    exact iff_of_true ⟨hmem, hp⟩ (.inl rfl)
  · rw [hother other h, or_iff_right h]

theorem noteService_call (s : Receiver) {e : Event} (g : Service)
    (hres : ∀ thread ok, e ≠ .resume thread ok) : noteService sid url s e g = g := by
  cases e with
  | resume thread ok => exact absurd rfl (hres thread ok)
  | _ => simp [noteService, deliveredBy, lostBy, returnedBy]

theorem running_of_waits {s : Receiver} {thread : Nat} {hls : HlsSession}
    (hf : s.registry.sessions sid = some hls) (hw : s.waits sid url thread = true) :
    ∃ h, s.running thread = some (h, hls) ∧ h.waits sid url = true := by
  rw [Receiver.waits, Option.any_eq_true] at hw
  obtain ⟨h, hh, hwait⟩ := hw
  refine ⟨h, ?_, hwait⟩
  have hsid : h.sid = sid := by
    cases h with
    | waitingSegment sid' url' => exact (of_decide_eq_true hwait).1
    | _ => exact absurd hwait Bool.false_ne_true
  rw [Receiver.running, hh, Option.bind_some, HlsSessionRegistry.find, hsid, hf]
  rfl

/-- A handler of another session has nothing to do with the segment. -/
theorem other_session {h : Handler} (hs : h.sid ≠ sid) (ok : Bool) (hls : HlsSession) :
    h.delivers sid url hls = [] ∧ h.collects sid url ok hls = [] := by
  cases h with
  | storing sid' d generation => exact ⟨if_neg fun h => hs h.1, rfl⟩
  | waitingSegment sid' url' => exact ⟨rfl, if_neg fun h => hs h.1⟩
  | _ => exact ⟨rfl, rfl⟩

/-- The answers are accounted for after a handler's step. -/
theorem answers_work {s : Receiver} {g : Service} {h : Handler} {ok : Bool} {a hls : HlsSession}
    (hd : h.disturbs sid url ok a = false) (ha : s.registry.sessions h.sid = some a)
    (hf : s.registry.sessions sid = some hls)
    (hanswers : (g.returned.map Prod.snd ++ slots url hls ++ g.lost).Perm g.delivered) :
    ∃ hls', Function.update s.registry.sessions h.sid (some (h.work expand localPort ok a).1) sid =
        some hls' ∧
      (g.returned.map Prod.snd ++ h.collects sid url ok a ++ slots url hls' ++
        (g.lost ++ (h.delivers sid url a).flatMap (overwritten url a))).Perm
          (g.delivered ++ h.delivers sid url a) := by
  by_cases hsid : h.sid = sid
  · obtain rfl : a = hls := Option.some.inj (ha.symm.trans (hsid ▸ hf))
    refine ⟨_, by rw [hsid, Function.update_self], ?_⟩
    have hwork := @work_slots expand localPort sid url h ok a hd hsid
    rw [List.perm_iff_count] at hanswers hwork ⊢
    intro x
    have hx := hanswers x
    have hx' := hwork x
    simp only [List.count_append] at hx hx' ⊢
    omega
  · obtain ⟨hdelivers, hcollects⟩ := @other_session sid url h hsid ok a
    refine ⟨hls, (Function.update_of_ne (Ne.symm hsid) ..).trans hf, ?_⟩
    rw [hdelivers, hcollects, List.flatMap_nil, List.append_nil, List.append_nil, List.append_nil]
    exact hanswers

/-- A thread whose session is gone was not waiting for the segment. -/
theorem waits_drops {s s' : Receiver} {thread : Nat} {hls : HlsSession}
    (hf : s.registry.sessions sid = some hls) (hnone : s.running thread = none)
    (hthreads : ∀ other h, s'.threads other = some h → s.threads other = some h)
    (hothers : ∀ other, other ≠ thread → s'.waits sid url other = s.waits sid url other) :
    s'.waits sid url = s.waits sid url := by
  funext other
  by_cases hother : other = thread
  · subst hother
    have hidle : s.waits sid url other = false := by
      rw [Bool.eq_false_iff]
      intro hw
      obtain ⟨h, hrun, -⟩ := running_of_waits hf hw
      exact nomatch hnone.symm.trans hrun
    have hstill : s'.waits sid url other = false := by
      rw [Bool.eq_false_iff, Receiver.waits, ne_eq, Option.any_eq_true]
      rintro ⟨h, hh, hw⟩
      rw [Receiver.waits, hthreads other h hh, Option.any_some, hw] at hidle
      exact Bool.false_ne_true hidle.symm
    rw [hidle, hstill]
  · exact hothers other hother

/-- The fetches are accounted for after a handler's step: one that waited has returned. -/
theorem fetches_work {s s' : Receiver} {g : Service} {thread : Nat} {h : Handler} {ok : Bool}
    {hls : HlsSession} (hn : fetches.Nodup) (hd : h.disturbs sid url ok hls = false)
    (hbefore : s.waits sid url thread = h.waits sid url)
    (hdone : s'.waits sid url thread = false)
    (hothers : ∀ other, other ≠ thread → s'.waits sid url other = s.waits sid url other)
    (hall : (g.returned.map Prod.fst ++ fetches.filter (s.waits sid url)).Perm fetches)
    (honly : ∀ thread, s.waits sid url thread = true → thread ∈ fetches) :
    ((g.returned ++ (h.collects sid url ok hls).map (thread, ·)).map Prod.fst ++
      fetches.filter (s'.waits sid url)).Perm fetches := by
  rcases collects_cases h ok hls hd with ⟨hno, hnil⟩ | ⟨hyes, answer, hone⟩
  · have hwaits : s'.waits sid url = s.waits sid url := by
      funext other
      by_cases hother : other = thread
      · rw [hother, hdone, hbefore, hno]
      · exact hothers other hother
    rw [hnil, hwaits, List.map_nil, List.append_nil]
    exact hall
  · have hwas : s.waits sid url thread = true := hbefore.trans hyes
    have hperm := filter_perm hn (honly thread hwas) hwas hdone hothers
    rw [hone, List.map_append, List.append_assoc]
    exact (hperm.symm.append_left _).trans hall

theorem served_resume {s : Receiver} {g : Service} {thread : Nat} {ok : Bool}
    (hn : fetches.Nodup) (h : Served sid url fetches (s, g))
    (hd : disturbedBy sid url s (.resume thread ok) = false) :
    Served sid url fetches (s.step expand localPort (.resume thread ok),
      noteService sid url s (.resume thread ok) g) := by
  obtain ⟨⟨hls, hf, hanswers⟩, hall, honly⟩ := h
  have hothers : ∀ other, other ≠ thread → (s.step expand localPort (.resume thread ok)).waits
      sid url other = s.waits sid url other := by
    intro other hne
    rw [Receiver.waits, Receiver.step_threads, Receiver.waits]
    exact fun heq => hne (Option.some.inj heq).symm
  rcases @resume_cases expand localPort s thread ok with
    ⟨hnone, hs, hthreads⟩ | ⟨h, a, hrun, hh, ha, hs, ht⟩
  · have hwaits := waits_drops hf hnone hthreads hothers
    have hg : noteService sid url s (.resume thread ok) g = g := by
      simp [noteService, deliveredBy, lostBy, returnedBy, hnone]
    rw [hg]
    refine ⟨⟨hls, hs ▸ hf, hanswers⟩, ?_, ?_⟩
    · rw [hwaits]
      exact hall
    · rw [hwaits]
      exact honly
  · have hdist : h.disturbs sid url ok a = false := by
      rwa [disturbedBy, hrun, Option.any_some] at hd
    have hdone : (s.step expand localPort (.resume thread ok)).waits sid url thread = false := by
      rw [Receiver.waits, ht, Function.update_self]
      exact work_waits h ok a hdist
    have hbefore : s.waits sid url thread = h.waits sid url := by
      rw [Receiver.waits, hh, Option.any_some]
    have hg : noteService sid url s (.resume thread ok) g = {
        delivered := g.delivered ++ h.delivers sid url a
        lost := g.lost ++ (h.delivers sid url a).flatMap (overwritten url a)
        returned := g.returned ++ (h.collects sid url ok a).map (thread, ·)} := by
      simp only [noteService, deliveredBy, lostBy, returnedBy, hrun, Option.elim_some]
    obtain ⟨hls', hf', hanswers'⟩ := @answers_work expand localPort sid url s g h ok a hls hdist ha
      hf hanswers
    rw [hg]
    refine ⟨⟨hls', by rw [hs]; exact hf', ?_⟩, ?_, ?_⟩
    · simpa [List.map_append, Function.comp_def] using hanswers'
    · exact fetches_work hn hdist hbefore hdone hothers hall honly
    · intro other hother
      by_cases hsame : other = thread
      · rw [hsame, hdone] at hother
        exact absurd hother Bool.false_ne_true
      · rw [hothers other hsame] at hother
        exact honly other hother

theorem served_step (w : Receiver × Service) (e : Event) (hn : fetches.Nodup)
    (h : Served sid url fetches w) (hd : disturbedBy sid url w.1 e = false) :
    Served sid url fetches (w.1.step expand localPort e, noteService sid url w.1 e w.2) := by
  by_cases hres : ∀ thread ok, e ≠ .resume thread ok
  · obtain ⟨⟨hls, hf, hanswers⟩, hall, honly⟩ := h
    obtain ⟨⟨hls', hf', hslots⟩, hwaits⟩ := @call_serves expand localPort sid url w.1 e hls hf hres
    rw [noteService_call w.1 w.2 hres]
    refine ⟨⟨hls', hf', by rw [hslots]; exact hanswers⟩, ?_, ?_⟩
    · rw [hwaits]
      exact hall
    · rw [hwaits]
      exact honly
  · rw [not_forall] at hres
    obtain ⟨thread, hres⟩ := hres
    rw [not_forall] at hres
    obtain ⟨ok, hres⟩ := hres
    obtain rfl := not_not.mp hres
    exact served_resume hn h hd

end Steps

/-- The receiver, with what became of the answers for a segment. -/
def serving (expand : Bytes → Bytes) (localPort : Nat) (sid url : Bytes) :
    Machine (Receiver × Service) Event :=
  (Receiver.machine expand localPort).watched (noteService sid url)

section Runs
variable {expand : Bytes → Bytes} {localPort : Nat} {sid url : Bytes}

theorem lost_eq_nil {w : Receiver × Service} (es : List Event) :
    ((serving expand localPort sid url).run w es).2.lost = [] ↔
      w.2.lost = [] ∧ (Receiver.machine expand localPort).Meets (Consumed sid url) w.1 es := by
  induction es generalizing w with
  | nil => exact (and_iff_left trivial).symm
  | cons e rest ih =>
    refine ih.trans ?_
    show w.2.lost ++ lostBy sid url w.1 e = [] ∧ _ ↔ _
    rw [List.append_eq_nil_iff, and_assoc]
    rfl

/-- Some fetches of a segment wait, and as many answers for it come. Once none of them can go
on, all of them have returned exactly when no answer has been stored over another one of its
kind; no answer is returned twice. -/
theorem all_return_iff {s : Receiver} {hls : HlsSession} (fetches : List Nat) (es : List Event)
    (hn : fetches.Nodup) (hf : s.registry.sessions sid = some hls) (hempty : slots url hls = [])
    (hwait : ∀ thread, s.waits sid url thread = true ↔ thread ∈ fetches)
    (hcalm : (Receiver.machine expand localPort).Meets
      (fun s e => disturbedBy sid url s e = false) s es)
    (hcount : ((serving expand localPort sid url).run (s, {}) es).2.delivered.length =
      fetches.length)
    (hrests : ∀ thread hls', ((serving expand localPort sid url).run (s, {}) es).1.waits sid url
        thread = true →
      ((serving expand localPort sid url).run (s, {}) es).1.registry.sessions sid = some hls' →
        slots url hls' = []) :
    ((((serving expand localPort sid url).run (s, {}) es).2.returned.map Prod.fst).Perm fetches ↔
      (Receiver.machine expand localPort).Meets (Consumed sid url) s es) ∧
      ∀ a, (((serving expand localPort sid url).run (s, {}) es).2.returned.map Prod.snd).count a ≤
        ((serving expand localPort sid url).run (s, {}) es).2.delivered.count a := by
  have hstart : Served sid url fetches (s, {}) := by
    refine ⟨⟨hls, hf, by rw [hempty]; exact List.Perm.refl []⟩, ?_, fun thread => (hwait thread).mp⟩
    rw [List.filter_eq_self.mpr fun thread => (hwait thread).mpr]
    exact List.Perm.refl fetches
  have hmeets : (serving expand localPort sid url).Meets
      (fun w e => disturbedBy sid url w.1 e = false) (s, {}) es :=
    (Machine.watched_meets (P := fun s e => disturbedBy sid url s e = false)).mpr hcalm
  have hkeeps : ∀ (w : Receiver × Service) (e : Event), Served sid url fetches w →
      disturbedBy sid url w.1 e = false →
        Served sid url fetches ((serving expand localPort sid url).step w e) :=
    fun w e h hd => served_step w e hn h hd
  have hserved := (Machine.always_of_meets hkeeps hstart hmeets).last
  have hlost := (@lost_eq_nil expand localPort sid url (s, {}) es).trans (and_iff_right rfl)
  generalize (serving expand localPort sid url).run (s, {}) es = w at *
  obtain ⟨⟨hls', hf', hperm⟩, hall, -⟩ := hserved
  have hlen := hperm.length_eq
  have hlen' := hall.length_eq
  simp only [List.length_append, List.length_map] at hlen hlen'
  rw [← hlost]
  refine ⟨⟨fun h => ?_, fun h => ?_⟩, fun a => ?_⟩
  · have hreturned := h.length_eq
    rw [List.length_map] at hreturned
    exact List.eq_nil_of_length_eq_zero (by omega)
  · have hnone : fetches.filter (w.1.waits sid url) = [] := by
      cases hwaiting : fetches.filter (w.1.waits sid url) with
      | nil => rfl
      | cons thread rest =>
        have hmem : thread ∈ fetches.filter (w.1.waits sid url) := by
          rw [hwaiting]
          exact List.mem_cons_self
        have hslots := hrests thread hls' (List.mem_filter.mp hmem).2 hf'
        rw [h, hslots, List.length_nil] at hlen
        rw [hwaiting, List.length_cons] at hlen'
        omega
    rwa [hnone, List.append_nil] at hall
  · rw [← hperm.count_eq a, List.append_assoc, List.count_append]
    exact Nat.le_add_right _ _

/-- A video with two fetches of a segment. -/
def fetchesTwice : List Event :=
  [.reverse ⟨fun _ => some 5⟩] ++ plays 0 (bytes "a") (bytes "m") ++
    [.fetchSegment 1 (bytes "s") [bytes "a"], .resume 1 true, .resume 1 true,
      .fetchSegment 2 (bytes "s") [bytes "a"], .resume 2 true, .resume 2 true]

def twoFetches : Receiver := (Receiver.machine id 7100).run {} fetchesTwice

theorem twoFetches_waits (thread : Nat) :
    twoFetches.waits (bytes "a") (bytes "s") thread = true ↔ thread ∈ [1, 2] := by
  rcases Nat.lt_or_ge thread 3 with hlt | hge
  · revert thread
    decide
  · have hidle := @Receiver.run_threads id 7100 {} thread fetchesTwice ?_
    · refine iff_of_false ?_ ?_
      · rw [Receiver.waits, show twoFetches.threads thread = none from hidle]
        exact Bool.false_ne_true
      · rw [List.mem_cons, List.mem_singleton]
        omega
    · have hevents : ∀ e ∈ fetchesTwice, ∀ t, e.thread = some t → t < 3 := by decide
      exact fun e he ht => absurd (hevents e he thread ht) (Nat.not_lt.mpr hge)

/-- The responses to the two requests. -/
def firstAnswer : List Event :=
  answers 3 (bytes "a") {url := bytes "s", requestId := 2, playlist := bytes "x"}

def secondAnswer : List Event :=
  answers 3 (bytes "a") {url := bytes "s", requestId := 3, playlist := bytes "y"}

/-- Each answer is fetched before the next one comes. -/
def inTurn : List Event := firstAnswer ++ [.resume 1 true] ++ secondAnswer ++ [.resume 2 true]

theorem all_return_iff_inTurn :
    (((serving id 7100 (bytes "a") (bytes "s")).run (twoFetches, {}) inTurn).2.returned.map
      Prod.fst).Perm [1, 2] := by
  obtain ⟨hls, hf⟩ : ∃ hls, twoFetches.registry.sessions (bytes "a") = some hls :=
    Option.isSome_iff_exists.mp (by decide)
  have hempty : ∀ hls, twoFetches.registry.sessions (bytes "a") = some hls →
      slots (bytes "s") hls = [] := by decide
  have hrests : ∀ hls, ((serving id 7100 (bytes "a") (bytes "s")).run (twoFetches, {})
      inTurn).1.registry.sessions (bytes "a") = some hls → slots (bytes "s") hls = [] := by decide
  have hiff := @all_return_iff id 7100 (bytes "a") (bytes "s") twoFetches hls [1, 2] inTurn
    (by decide) hf (hempty hls hf) twoFetches_waits (by decide) (by decide)
    fun _ hls' _ => hrests hls'
  exact hiff.1.mpr (by decide)

/-- Both answers come before one of the fetches wakes up. -/
def burst : List Event := firstAnswer ++ secondAnswer ++ [.resume 1 true]

/-- The first answer is stored over, and one fetch is left with nothing to return. -/
theorem burst_loses_answer :
    (Receiver.machine id 7100).Meets
        (fun s e => disturbedBy (bytes "a") (bytes "s") s e = false) twoFetches burst ∧
      ((serving id 7100 (bytes "a") (bytes "s")).run (twoFetches, {}) burst).2.delivered =
        [.data (bytes "x"), .data (bytes "y")] ∧
      ((serving id 7100 (bytes "a") (bytes "s")).run (twoFetches, {}) burst).2.returned =
        [(1, .data (bytes "y"))] ∧
      ((serving id 7100 (bytes "a") (bytes "s")).run (twoFetches, {}) burst).1.waits (bytes "a")
        (bytes "s") 2 = true ∧
      (((serving id 7100 (bytes "a") (bytes "s")).run (twoFetches, {})
        burst).1.registry.sessions (bytes "a")).map (slots (bytes "s")) = some [] := by
  decide

end Runs

end AirPlay.Hls
