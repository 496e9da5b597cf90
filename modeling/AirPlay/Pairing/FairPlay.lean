import AirPlay.Library.Bytes
import AirPlay.Library.Machine

/-! FairPlay setup.

Two messages on one connection, told apart by their lengths: the first selects one of the
recorded replies, the second is kept for the stream's key. Any other body fails the
handshake. What was kept stays when the handshake fails or begins again
(`sound_iff`). -/
namespace AirPlay.Pairing.FairPlay

def kMsg1Len : Nat := 16
def kMsg3Len : Nat := 164
def kFplyMagic : Bytes := [0x46, 0x50, 0x4c, 0x59]
def kFplyVersion : UInt8 := 0x03
def kReplyCount : Nat := 4

/-- The recorded replies, and `playfair_decrypt` where the library is built in. -/
structure Blobs where
  replyMessage : Nat → Bytes
  fpHeader : Bytes
  playfair : Option (Bytes → Bytes → Bytes)

/-- How far the handshake is. -/
inductive State
  | fresh | expectMsg3 | done | failed
  deriving DecidableEq

/-- The handshake of one connection. -/
structure FairPlaySession where
  state : State := .fresh
  mode : UInt8 := 0
  keymsg : Bytes := []

namespace FairPlaySession

def fail (s : FairPlaySession) : FairPlaySession := {s with state := .failed}

section Process
variable (B : Blobs)

/-- msg1 → msg2. -/
def handleMsg1 (body : Bytes) (s : FairPlaySession) : Option Bytes × FairPlaySession :=
  let s := {s with mode := body.getD 14 0}
  if s.mode.toNat ≥ kReplyCount then (none, s.fail)
  else (some (B.replyMessage s.mode.toNat), {s with state := .expectMsg3})

/-- msg3 → msg4. -/
def handleMsg3 (body : Bytes) (s : FairPlaySession) : Option Bytes × FairPlaySession :=
  if s.state ≠ .expectMsg3 then (none, s.fail)
  else
    (some (B.fpHeader ++ (body.drop 144).take 20), {s with keymsg := body, state := .done})

/-- One body of /fp-setup: the response, if it is accepted. -/
def process (body : Bytes) (s : FairPlaySession) : Option Bytes × FairPlaySession :=
  if body = [] then (none, s.fail)
  else if !kFplyMagic.isPrefixOf body then (none, s.fail)
  else if body.length ≥ 5 ∧ body.getD 4 0 ≠ kFplyVersion then (none, s.fail)
  else if body.length = kMsg1Len then s.handleMsg1 B body
  else if body.length = kMsg3Len then s.handleMsg3 B body
  else (none, s.fail)

/-- The stream's key; none is an empty one. -/
def decryptStreamKey (ekey : Bytes) (s : FairPlaySession) : Bytes :=
  match B.playfair with
  | none => []
  | some playfair =>
    if s.state ≠ .done then []
    else if s.keymsg.length ≠ kMsg3Len then []
    else if ekey.length ≠ 72 then []
    else playfair s.keymsg ekey

end Process
end FairPlaySession

/-- The calls of `process` on one session. -/
def machine (B : Blobs) : Machine FairPlaySession Bytes where
  step s body := (s.process B body).2

/-- With a log of the calls: the body, and whether it was accepted. -/
def logged (B : Blobs) : Machine (FairPlaySession × List (Bytes × Bool)) Bytes :=
  (machine B).logged fun s body => [(body, (s.process B body).1.isSome)]

/-- The last call was an accepted first message. -/
def Begun (calls : List (Bytes × Bool)) : Prop :=
  ∃ before msg₁, calls = before ++ [(msg₁, true)] ∧ msg₁.length = 16

/-- The last two calls were the handshake's, and both were accepted. -/
def Handshake (calls : List (Bytes × Bool)) : Prop :=
  ∃ before msg₁ msg₃, calls = before ++ [(msg₁, true), (msg₃, true)] ∧
    msg₁.length = 16 ∧ msg₃.length = 164

/-- What the accessors promise after these calls. -/
structure Sound (B : Blobs) (w : FairPlaySession × List (Bytes × Bool)) : Prop where
  keymsg : w.1.keymsg ≠ [] ↔ w.1.state = .done
  last : w.1.state = .done →
    ∃ before accepted, w.2 = before ++ [(w.1.keymsg, accepted)] ∧ w.1.keymsg.length = 164
  handshake : w.1.state = .done ↔ Handshake w.2
  key : ∀ ekey, w.1.decryptStreamKey B ekey ≠ [] → w.1.state = .done

/-- A call is refused, or is an accepted first message, or an accepted second one where
that is due. -/
theorem process_cases (B : Blobs) (s : FairPlaySession) (body : Bytes) :
    ((s.process B body).1 = none ∧ (s.process B body).2.state = .failed ∧
        (s.process B body).2.keymsg = s.keymsg) ∨
      (body.length = 16 ∧ (s.process B body).1.isSome = true ∧
        (s.process B body).2.state = .expectMsg3 ∧ (s.process B body).2.keymsg = s.keymsg) ∨
      (body.length = 164 ∧ s.state = .expectMsg3 ∧ (s.process B body).1.isSome = true ∧
        (s.process B body).2.state = .done ∧ (s.process B body).2.keymsg = body) := by
  rw [FairPlaySession.process]
  split
  · exact .inl ⟨rfl, rfl, rfl⟩
  split
  · exact .inl ⟨rfl, rfl, rfl⟩
  split
  · exact .inl ⟨rfl, rfl, rfl⟩
  split
  · rename_i hlength
    rw [FairPlaySession.handleMsg1]
    dsimp only
    split
    · exact .inl ⟨rfl, rfl, rfl⟩
    · exact .inr (.inl ⟨hlength, rfl, rfl, rfl⟩)
  split
  · rename_i hlength
    rw [FairPlaySession.handleMsg3]
    split
    · exact .inl ⟨rfl, rfl, rfl⟩
    · rename_i hstate
      exact .inr (.inr ⟨hlength, not_not.mp hstate, rfl, rfl, rfl⟩)
  · exact .inl ⟨rfl, rfl, rfl⟩

section Steps
variable {B : Blobs} {s : FairPlaySession} {body : Bytes}

theorem begun_concat {calls : List (Bytes × Bool)} {accepted : Bool} :
    Begun (calls ++ [(body, accepted)]) ↔ accepted = true ∧ body.length = 16 := by
  constructor
  · rintro ⟨before, msg₁, heq, hlength⟩
    obtain ⟨-, hlast⟩ := List.append_inj' heq rfl
    obtain ⟨rfl, rfl⟩ := Prod.mk.inj (List.cons.inj hlast).1
    exact ⟨rfl, hlength⟩
  · rintro ⟨rfl, hlength⟩
    exact ⟨calls, body, rfl, hlength⟩

theorem handshake_concat {calls : List (Bytes × Bool)} {accepted : Bool} :
    Handshake (calls ++ [(body, accepted)]) ↔
      accepted = true ∧ body.length = 164 ∧ Begun calls := by
  constructor
  · rintro ⟨before, msg₁, msg₃, heq, hfirst, hsecond⟩
    rw [List.append_cons before] at heq
    obtain ⟨rfl, hlast⟩ := List.append_inj' heq rfl
    obtain ⟨rfl, rfl⟩ := Prod.mk.inj (List.cons.inj hlast).1
    exact ⟨rfl, hsecond, before, msg₁, rfl, hfirst⟩
  · rintro ⟨rfl, hsecond, before, msg₁, rfl, hfirst⟩
    exact ⟨before, msg₁, body, by rw [List.append_assoc]; rfl, hfirst, hsecond⟩

/-- What the state says about the calls. -/
structure Follows (w : FairPlaySession × List (Bytes × Bool)) : Prop where
  begun : w.1.state = .expectMsg3 ↔ Begun w.2
  handshake : w.1.state = .done ↔ Handshake w.2
  last : w.1.state = .done →
    ∃ before accepted, w.2 = before ++ [(w.1.keymsg, accepted)] ∧ w.1.keymsg.length = 164

theorem follows_step {w : FairPlaySession × List (Bytes × Bool)} (h : Follows w) (body : Bytes) :
    Follows ((logged B).step w body) := by
  obtain ⟨s, calls⟩ := w
  show Follows ((s.process B body).2, calls ++ [(body, (s.process B body).1.isSome)])
  obtain ⟨hresult, hstate, hkey⟩ | ⟨hlength, hresult, hstate, hkey⟩ |
    ⟨hlength, hdue, hresult, hstate, hkey⟩ := process_cases B s body
  · rw [hresult]
    refine ⟨?_, ?_, ?_⟩ <;> simp [hstate, begun_concat, handshake_concat]
  · have hother : ¬ body.length = 164 := by omega
    rw [hresult]
    refine ⟨?_, ?_, ?_⟩ <;> simp [hstate, begun_concat, handshake_concat, hlength]
  · have hbegun : Begun calls := h.begun.mp hdue
    rw [hresult]
    refine ⟨?_, ?_, ?_⟩ <;>
      simp [hstate, hkey, begun_concat, handshake_concat, hlength, hbegun]

theorem follows_fresh : Follows ({}, []) := by
  refine ⟨?_, ?_, ?_⟩ <;> simp [Begun, Handshake]

theorem key_done {ekey : Bytes} (h : s.decryptStreamKey B ekey ≠ []) : s.state = .done := by
  by_contra hstate
  rw [FairPlaySession.decryptStreamKey] at h
  cases hplayfair : B.playfair with
  | none => simp [hplayfair] at h
  | some playfair => simp [hplayfair, hstate] at h

/-- Where the state says what the calls were, the accessors are sound exactly if what is
kept goes with the state. -/
theorem sound_iff_keymsg {w : FairPlaySession × List (Bytes × Bool)} (h : Follows w) :
    Sound B w ↔ (w.1.keymsg ≠ [] ↔ w.1.state = .done) :=
  ⟨Sound.keymsg, fun hkeymsg => ⟨hkeymsg, h.last, h.handshake, fun _ => key_done⟩⟩

/-- After a handshake is done every call leaves its key behind. -/
theorem sound_step {w : FairPlaySession × List (Bytes × Bool)} (h : Follows w) (hsound : Sound B w)
    (body : Bytes) : Sound B ((logged B).step w body) ↔ w.1.state ≠ .done := by
  rw [sound_iff_keymsg (follows_step h body)]
  obtain ⟨s, calls⟩ := w
  have hkeymsg : s.keymsg ≠ [] ↔ s.state = .done := hsound.keymsg
  show ((s.process B body).2.keymsg ≠ [] ↔ (s.process B body).2.state = .done) ↔ s.state ≠ .done
  obtain ⟨-, hstate, hkey⟩ | ⟨-, -, hstate, hkey⟩ | ⟨hlength, hdue, -, hstate, hkey⟩ :=
    process_cases B s body
  · rw [hstate, hkey, hkeymsg]
    simp
  · rw [hstate, hkey, hkeymsg]
    simp
  · have hbody : body ≠ [] := List.ne_nil_of_length_pos (by omega)
    rw [hstate, hkey, hdue]
    simp [hbody]

/-- The accessors are sound after every call of a history exactly when no call is made
once the handshake is done. -/
theorem sound_iff (B : Blobs) (bodies : List Bytes) :
    (logged B).Always (Sound B) ({}, []) bodies ↔
      (machine B).Meets (fun s _ => s.state ≠ .done) {} bodies := by
  have hfresh : Sound B ({}, []) := (sound_iff_keymsg follows_fresh).mpr (by simp)
  have hsteps : (logged B).Always (Sound B) ({}, []) bodies ↔
      (logged B).Meets (fun w _ => w.1.state ≠ .done) ({}, []) bodies :=
    Machine.always_iff_meets (fun w body h _ => follows_step h body)
      (fun w body h _ hsound => sound_step h hsound body) follows_fresh hfresh
      (Machine.meets_true bodies)
  exact hsteps.trans
    (@Machine.watched_meets _ _ (machine B) _
      (fun s body calls => calls ++ [(body, (s.process B body).1.isSome)])
      (fun s _ => s.state ≠ .done) ({}, []) bodies)

end Steps

/-- The replies without their recordings, and no library. -/
def stub : Blobs where
  replyMessage mode := kFplyMagic ++ [kFplyVersion, 1, 2, 0, 0, 0, 0, 0x82, 2, UInt8.ofNat mode]
  fpHeader := kFplyMagic ++ [kFplyVersion, 1, 4, 0, 0, 0, 0, 0x14]
  playfair := none

/-- A second message. -/
def msg₃ : Bytes := kFplyMagic ++ kFplyVersion :: List.replicate 159 0

/-- The handshake is made, and then an empty body fails it: the key message is still
there. -/
theorem failed_keeps_key :
    ¬ (logged stub).Always (Sound stub) ({}, [])
      [kFplyMagic ++ kFplyVersion :: List.replicate 11 0, msg₃, []] := by
  intro h
  have hdone := h.last.keymsg.mp (by decide +kernel)
  exact absurd hdone (by decide +kernel)

end AirPlay.Pairing.FairPlay
