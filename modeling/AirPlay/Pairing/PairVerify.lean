import AirPlay.Library.Keystream
import AirPlay.Library.Machine

/-! Pair-verify.

Two messages on one connection. The first brings the client's keys, from which and from
a fresh key of the server's the keys of a cipher are derived; the second brings a
signature, enciphered where the server's own signature left off in the keystream. -/
namespace AirPlay.Pairing

def kAesKeySalt : Bytes := bytes "Pair-Verify-AES-Key"
def kAesIvSalt : Bytes := bytes "Pair-Verify-AES-IV"

/-- The cryptographic library, and the server's identity. `κ` are X25519 private keys. -/
structure Crypto (κ : Type) where
  publicKey : κ → Bytes
  derive : κ → Bytes → Bytes
  sha512 : Bytes → Bytes
  /-- The keystream of AES-128-CTR, by key and IV. -/
  aesCtr : Bytes → Bytes → Nat → UInt8
  sign : Bytes → Bytes
  /-- Whether a key has signed some data with a signature. -/
  verify : Bytes → Bytes → Bytes → Bool

/-- What the library calls of a first message do: the key generated, and which of the
others succeed. -/
structure LibraryCalls (κ : Type) where
  ephemeral : Option κ
  extracted : Bool := true
  derived : Bool := true
  keyDigested : Bool := true
  ivDigested : Bool := true
  signed : Bool := true
  ctxAllocated : Bool := true
  ctxInitialised : Bool := true
  encrypted : Bool := true

/-- How far pair-verify is. -/
inductive PairState
  | fresh | round1Done | verified | failed
  deriving DecidableEq

/-- A cipher context: new, or with a key, an IV and how far the keystream has gone. -/
inductive CipherCtx
  | fresh
  | keyed (key iv : Bytes) (position : Nat)

/-- Pair-verify of one connection: the keys of the round, and the cipher of its signatures. -/
structure PairVerifySession where
  state : PairState := .fresh
  serverX25519Pub : Bytes := []
  clientX25519Pub : Bytes := []
  clientEd25519Pub : Bytes := []
  ecdhSecret : Bytes := []
  aesCtx : Option CipherCtx := none

namespace PairVerifySession
variable {κ : Type} (C : Crypto κ)

def fail (s : PairVerifySession) : PairVerifySession := {s with state := .failed}

def extractPub (calls : LibraryCalls κ) (ephemeral : κ) : Bytes :=
  if calls.extracted then C.publicKey ephemeral else []

def x25519Derive (calls : LibraryCalls κ) (ourPriv : κ) (peerPub : Bytes) : Bytes :=
  if calls.derived then C.derive ourPriv peerPub else []

/-- `Identity::sign`. -/
def sign (calls : LibraryCalls κ) (data : Bytes) : Bytes :=
  if calls.signed then C.sign data else []

def deriveAesKeyIv (calls : LibraryCalls κ) (sharedSecret : Bytes) : Option (Bytes × Bytes) :=
  if !calls.keyDigested then none
  else if !calls.ivDigested then none
  else
    some ((C.sha512 (kAesKeySalt ++ sharedSecret)).take 16,
      (C.sha512 (kAesIvSalt ++ sharedSecret)).take 16)

/-- The response body, or none when the message is refused. A session is in every state
ready for a first message. -/
def handleMessage1 (calls : LibraryCalls κ) (body : Bytes) (s : PairVerifySession) :
    Option Bytes × PairVerifySession :=
  if body.length < 4 + 32 + 32 then (none, s.fail)
  else
    let s := {s with
      clientX25519Pub := (body.drop 4).take 32
      clientEd25519Pub := (body.drop (4 + 32)).take 32}
    match calls.ephemeral with
    | none => (none, s.fail)
    | some ephemeral =>
      let s := {s with serverX25519Pub := extractPub C calls ephemeral}
      if s.serverX25519Pub = [] then (none, s.fail)
      else
        let shared := x25519Derive C calls ephemeral s.clientX25519Pub
        if shared.length ≠ 32 then (none, s.fail)
        else
          let s := {s with ecdhSecret := shared}
          match deriveAesKeyIv C calls shared with
          | none => (none, s.fail)
          | some (aesKey, aesIv) =>
            let sig := sign C calls (s.serverX25519Pub ++ s.clientX25519Pub)
            if sig.length ≠ 64 then (none, s.fail)
            else if !calls.ctxAllocated then (none, {s with aesCtx := none}.fail)
            else if !calls.ctxInitialised then (none, {s with aesCtx := some .fresh}.fail)
            else if !calls.encrypted then
              (none, {s with aesCtx := some (.keyed aesKey aesIv 0)}.fail)
            else
              let encSig := Keystream.apply (C.aesCtr aesKey aesIv) 0 sig
              (some (s.serverX25519Pub ++ encSig), {s with
                aesCtx := some (.keyed aesKey aesIv sig.length), state := .round1Done})

/-- Whether the client's signature is good. The cipher context goes on where the first
message left it. -/
def handleMessage2 (body : Bytes) (s : PairVerifySession) : Bool × PairVerifySession :=
  if s.state ≠ .round1Done then (false, s.fail)
  else if body.length < 4 + 64 then (false, s.fail)
  else
    let encClientSig := (body.drop 4).take 64
    match s.aesCtx with
    | some (.keyed key iv position) =>
      let clientSig := Keystream.apply (C.aesCtr key iv) position encClientSig
      let s := {s with aesCtx := some (.keyed key iv (position + 64))}
      if C.verify s.clientEd25519Pub (s.clientX25519Pub ++ s.serverX25519Pub) clientSig then
        (true, {s with state := .verified})
      else (false, s.fail)
    | _ => (false, s.fail)

end PairVerifySession

/-- A message as the session gets it. -/
inductive Call (κ : Type)
  | message1 (calls : LibraryCalls κ) (body : Bytes)
  | message2 (body : Bytes)

section Rounds
variable {κ : Type} (C : Crypto κ)

def PairVerifySession.machine : Machine PairVerifySession (Call κ) where
  step s
    | .message1 calls body => (s.handleMessage1 C calls body).2
    | .message2 body => (s.handleMessage2 C body).2

/-! ### One round -/

/-- What a first message and the server's key determine. -/
structure Round where
  serverX25519Pub : Bytes
  clientX25519Pub : Bytes
  clientEd25519Pub : Bytes
  sharedSecret : Bytes
  aesKey : Bytes
  aesIv : Bytes

def round (ephemeral : κ) (body : Bytes) : Round :=
  let clientX25519Pub := (body.drop 4).take 32
  let sharedSecret := C.derive ephemeral clientX25519Pub
  { serverX25519Pub := C.publicKey ephemeral
    clientX25519Pub
    clientEd25519Pub := (body.drop 36).take 32
    sharedSecret
    aesKey := (C.sha512 (kAesKeySalt ++ sharedSecret)).take 16
    aesIv := (C.sha512 (kAesIvSalt ++ sharedSecret)).take 16 }

/-- The second message that fits a round: its 64 bytes at offset 4, deciphered with the
keystream from byte 64 on, are the client's signature of the two public keys. -/
def Round.Signed (r : Round) (body : Bytes) : Prop :=
  4 + 64 ≤ body.length ∧
    C.verify r.clientEd25519Pub (r.clientX25519Pub ++ r.serverX25519Pub)
      (Keystream.apply (C.aesCtr r.aesKey r.aesIv) 64 ((body.drop 4).take 64)) = true

/-- A session that waits for the second message of a round. -/
def Round.waiting (r : Round) : PairVerifySession where
  state := .round1Done
  serverX25519Pub := r.serverX25519Pub
  clientX25519Pub := r.clientX25519Pub
  clientEd25519Pub := r.clientEd25519Pub
  ecdhSecret := r.sharedSecret
  aesCtx := some (.keyed r.aesKey r.aesIv 64)

variable {C}

theorem deriveAesKeyIv_some {calls : LibraryCalls κ} {shared key iv : Bytes}
    (h : PairVerifySession.deriveAesKeyIv C calls shared = some (key, iv)) :
    key = (C.sha512 (kAesKeySalt ++ shared)).take 16 ∧
      iv = (C.sha512 (kAesIvSalt ++ shared)).take 16 := by
  rw [PairVerifySession.deriveAesKeyIv] at h
  split at h
  · exact nomatch h
  split at h
  · exact nomatch h
  · obtain ⟨hkey, hiv⟩ := Prod.mk.inj (Option.some.inj h)
    exact ⟨hkey.symm, hiv.symm⟩

theorem extractPub_eq {calls : LibraryCalls κ} {ephemeral : κ}
    (h : PairVerifySession.extractPub C calls ephemeral ≠ []) :
    PairVerifySession.extractPub C calls ephemeral = C.publicKey ephemeral := by
  rw [PairVerifySession.extractPub] at h ⊢
  split
  · rfl
  · rename_i hfails
    rw [if_neg hfails] at h
    exact absurd rfl h

theorem x25519Derive_eq {calls : LibraryCalls κ} {ephemeral : κ} {peer : Bytes}
    (h : (PairVerifySession.x25519Derive C calls ephemeral peer).length = 32) :
    PairVerifySession.x25519Derive C calls ephemeral peer = C.derive ephemeral peer := by
  rw [PairVerifySession.x25519Derive] at h ⊢
  split
  · rfl
  · rename_i hfails
    rw [if_neg hfails] at h
    exact nomatch h

/-- A first message that is answered leaves nothing of what was there before. -/
theorem handleMessage1_answered {s : PairVerifySession} {calls : LibraryCalls κ} {body : Bytes}
    (h : (s.handleMessage1 C calls body).1.isSome = true) :
    ∃ ephemeral, calls.ephemeral = some ephemeral ∧
      (s.handleMessage1 C calls body).2 = (round C ephemeral body).waiting := by
  revert h
  rw [PairVerifySession.handleMessage1]
  split
  · exact fun h => nomatch h
  cases calls.ephemeral with
  | none => exact fun h => nomatch h
  | some ephemeral =>
    dsimp only
    split
    · exact fun h => nomatch h
    rename_i hserver
    split
    · exact fun h => nomatch h
    rename_i hshared
    split
    · exact fun h => nomatch h
    rename_i aesKey aesIv hkeys
    split
    · exact fun h => nomatch h
    rename_i hsig
    split
    · exact fun h => nomatch h
    split
    · exact fun h => nomatch h
    split
    · exact fun h => nomatch h
    · intro _
      obtain ⟨rfl, rfl⟩ := deriveAesKeyIv_some hkeys
      rw [not_not.mp hsig, extractPub_eq hserver, x25519Derive_eq (not_not.mp hshared)]
      exact ⟨ephemeral, rfl, rfl⟩

theorem handleMessage1_refused {s : PairVerifySession} {calls : LibraryCalls κ} {body : Bytes}
    (h : (s.handleMessage1 C calls body).1 = none) :
    (s.handleMessage1 C calls body).2.state = .failed := by
  revert h
  rw [PairVerifySession.handleMessage1]
  split
  · exact fun _ => rfl
  cases calls.ephemeral with
  | none => exact fun _ => rfl
  | some ephemeral =>
    dsimp only
    split
    · exact fun _ => rfl
    split
    · exact fun _ => rfl
    split
    · exact fun _ => rfl
    split
    · exact fun _ => rfl
    split
    · exact fun _ => rfl
    split
    · exact fun _ => rfl
    split
    · exact fun _ => rfl
    · exact fun h => nomatch h

/-- A second message in a round is good when it fits the round. -/
theorem handleMessage2_verified {r : Round} {body : Bytes} :
    (r.waiting.handleMessage2 C body).2.state = .verified ↔ r.Signed C body := by
  have hround : ¬ r.waiting.state ≠ .round1Done := not_not.mpr rfl
  rw [PairVerifySession.handleMessage2, if_neg hround, Round.Signed]
  by_cases hlen : body.length < 4 + 64
  · rw [if_pos hlen]
    exact iff_of_false (fun h => nomatch h) fun h => absurd hlen (not_lt.mpr h.1)
  · rw [if_neg hlen]
    cases hverify : C.verify r.clientEd25519Pub (r.clientX25519Pub ++ r.serverX25519Pub)
        (Keystream.apply (C.aesCtr r.aesKey r.aesIv) 64 ((body.drop 4).take 64)) with
    | true =>
      simp only [Round.waiting, hverify, if_true]
      exact iff_of_true trivial ⟨not_lt.mp hlen, trivial⟩
    | false =>
      simp only [Round.waiting, hverify, Bool.false_eq_true, if_false, PairVerifySession.fail]
      exact iff_of_false (fun h => nomatch h) fun h => h.2

theorem handleMessage2_ends (s : PairVerifySession) (body : Bytes) :
    (s.handleMessage2 C body).2.state = .verified ∧ s.state = .round1Done ∨
      (s.handleMessage2 C body).2.state = .failed := by
  rw [PairVerifySession.handleMessage2]
  split
  · exact .inr rfl
  rename_i hround
  split
  · exact .inr rfl
  split
  · dsimp only
    split
    · exact .inl ⟨rfl, not_not.mp hround⟩
    · exact .inr rfl
  · exact .inr rfl

/-! ### Any sequence of messages -/

theorem run_concat (s : PairVerifySession) (history : List (Call κ)) (c : Call κ) :
    (PairVerifySession.machine C).run s (history ++ [c]) =
      (PairVerifySession.machine C).step ((PairVerifySession.machine C).run s history) c :=
  Machine.run_append _ s history [c]

/-- A session waits for a second message only when a first one has just been answered. -/
theorem waits_after {history : List (Call κ)}
    (h : ((PairVerifySession.machine C).run {} history).state = .round1Done) :
    ∃ pre calls ephemeral body, history = pre ++ [.message1 calls body] ∧
      (((PairVerifySession.machine C).run {} pre).handleMessage1 C calls body).1.isSome = true ∧
      calls.ephemeral = some ephemeral ∧
      (PairVerifySession.machine C).run {} history = (round C ephemeral body).waiting := by
  rcases List.eq_nil_or_concat history with rfl | ⟨pre, c, rfl⟩
  · exact nomatch h
  rw [List.concat_eq_append] at h ⊢
  rw [run_concat] at h ⊢
  cases c with
  | message1 calls body =>
    cases hout : (((PairVerifySession.machine C).run {} pre).handleMessage1 C calls body).1 with
    | none =>
      have hfailed := handleMessage1_refused hout
      exact nomatch h.symm.trans hfailed
    | some out =>
      have hsome := Option.isSome_of_eq_some hout
      obtain ⟨ephemeral, he, hwaiting⟩ := handleMessage1_answered hsome
      exact ⟨pre, calls, ephemeral, body, rfl, hsome, he, hwaiting⟩
  | message2 body =>
    rcases handleMessage2_ends (C := C) ((PairVerifySession.machine C).run {} pre) body with
      ⟨hverified, -⟩ | hfailed
    · exact nomatch h.symm.trans hverified
    · exact nomatch h.symm.trans hfailed

/-- A session is verified exactly when its last two messages are a first message that
was answered and a second message that fits the round the first began. -/
theorem verified_iff (C : Crypto κ) (history : List (Call κ)) :
    ((PairVerifySession.machine C).run {} history).state = .verified ↔
      ∃ pre calls ephemeral body₁ body₂,
        history = pre ++ [.message1 calls body₁, .message2 body₂] ∧
        (((PairVerifySession.machine C).run {} pre).handleMessage1 C calls body₁).1.isSome = true ∧
        calls.ephemeral = some ephemeral ∧ (round C ephemeral body₁).Signed C body₂ := by
  constructor
  · intro h
    rcases List.eq_nil_or_concat history with rfl | ⟨before, c, rfl⟩
    · exact nomatch h
    rw [List.concat_eq_append] at h ⊢
    rw [run_concat] at h
    cases c with
    | message1 calls body =>
      cases hout :
          (((PairVerifySession.machine C).run {} before).handleMessage1 C calls body).1 with
      | none =>
        have hfailed := handleMessage1_refused hout
        exact nomatch h.symm.trans hfailed
      | some out =>
        obtain ⟨ephemeral, -, hwaiting⟩ := handleMessage1_answered (Option.isSome_of_eq_some hout)
        exact nomatch h.symm.trans (congrArg PairVerifySession.state hwaiting)
    | message2 body₂ =>
      rcases handleMessage2_ends (C := C) ((PairVerifySession.machine C).run {} before) body₂ with
        ⟨-, hround⟩ | hfailed
      · obtain ⟨pre, calls, ephemeral, body₁, rfl, hsome, he, hwaiting⟩ := waits_after hround
        refine ⟨pre, calls, ephemeral, body₁, body₂, by simp, hsome, he, ?_⟩
        rw [← handleMessage2_verified, ← hwaiting]
        exact h
      · exact nomatch h.symm.trans hfailed
  · rintro ⟨pre, calls, ephemeral, body₁, body₂, rfl, hsome, he, hsigned⟩
    obtain ⟨ephemeral', he', hwaiting⟩ := handleMessage1_answered hsome
    obtain rfl := Option.some.inj (he.symm.trans he')
    have hrun : (PairVerifySession.machine C).run {} (pre ++ [.message1 calls body₁]) =
        (round C ephemeral body₁).waiting := (run_concat _ _ _).trans hwaiting
    have hsplit : pre ++ [.message1 calls body₁, .message2 body₂] =
        pre ++ [.message1 calls body₁] ++ [.message2 body₂] := by simp
    rw [hsplit, run_concat, hrun]
    exact handleMessage2_verified.mpr hsigned

end Rounds

end AirPlay.Pairing
