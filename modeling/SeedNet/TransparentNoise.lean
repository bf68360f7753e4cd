import SeedNet.Noise

/-! # A transparent instance of the Noise interface

`transparent : Snow` follows the XX message pattern step by step, with the cryptography replaced
by tags that anyone can read: a handshake message names the ephemerals it belongs to, repeats
the prologue and carries the sender's static key (message C also the receiver's), and a ciphertext is the plaintext followed by a
16-byte tag of its direction, handshake and nonce.  It accepts exactly what the other end of the
same handshake wrote, which is all that the results about the engine ask of Noise, so it serves
to run the engine on concrete datagrams. -/

namespace SeedNet.Transparent

/-- Handshake state: `stage` counts the messages written or read so far. -/
structure State where
  initiator : Bool
  prologue : Bytes
  static : Bytes32
  eph : UInt8
  peerEph : Option UInt8 := none
  peerStatic : Option Bytes32 := none
  stage : ℕ := 0
deriving DecidableEq

/-- Stateless transport: the role and the two ephemerals. -/
structure Transport where
  initiator : Bool
  initiatorEph : UInt8
  responderEph : UInt8
deriving DecidableEq

/-- Split off a 32-byte key. -/
def takeKey (b : Bytes) : Option (Bytes32 × Bytes) :=
  if h : publicKeyLen ≤ b.length then some (⟨b.take publicKeyLen, by simpa using h⟩, b.drop publicKeyLen)
  else none

theorem takeKey_append (k : Bytes32) (rest : Bytes) : takeKey (k.bytes ++ rest) = some (k, rest) := by
  have hlen := k.length_eq
  have h : publicKeyLen ≤ (k.bytes ++ rest).length := by rw [List.length_append]; omega
  unfold takeKey
  rw [dif_pos h]
  simp only [Option.some.injEq, Prod.mk.injEq, Bytes32.ext_iff']
  exact ⟨by rw [← hlen]; simp, by rw [← hlen]; simp⟩

theorem takeKey_eq_some {b rest : Bytes} {k : Bytes32} (h : takeKey b = some (k, rest)) :
    b = k.bytes ++ rest := by
  unfold takeKey at h
  split_ifs at h with hlen
  simp only [Option.some.injEq, Prod.mk.injEq] at h
  obtain ⟨rfl, rfl⟩ := h
  exact (List.take_append_drop _ _).symm

/-- The last part of messages B and C: prologue, static key, payload. -/
def sealBody (s : State) (payload : Bytes) : Bytes := s.prologue ++ (s.static.bytes ++ payload)

/-- Opens the last part of a message: the sender's key and the payload. -/
def openBody (s : State) (body : Bytes) : Option (Bytes32 × Bytes) :=
  if startsWith body s.prologue then takeKey (body.drop s.prologue.length) else none

theorem openBody_sealBody {s r : State} (h : r.prologue = s.prologue) (payload : Bytes) :
    openBody r (sealBody s payload) = some (s.static, payload) := by
  simp [openBody, sealBody, h, takeKey_append]

def writeMessage (s : State) (payload : Bytes) : Except String (Bytes × State) :=
  match s.initiator, s.stage, s.peerEph, s.peerStatic with
  | true, 0, _, _ => .ok (10 :: s.eph :: payload, { s with stage := 1 })
  | false, 1, some e, _ => .ok (11 :: e :: s.eph :: sealBody s payload, { s with stage := 2 })
  | true, 2, some e, some k => .ok (12 :: s.eph :: e :: sealBody s (k.bytes ++ payload), { s with stage := 3 })
  | _, _, _, _ => .error "not my turn to write"

def readMessage (s : State) (msg : Bytes) : Except String (Bytes × State) :=
  match s.initiator, s.stage, msg with
  | false, 0, 10 :: e :: payload => .ok (payload, { s with peerEph := some e, stage := 1 })
  | true, 1, 11 :: ei :: er :: body =>
    match openBody s body with
    | some (k, payload) =>
      if ei = s.eph then .ok (payload, { s with peerEph := some er, peerStatic := some k, stage := 2 })
      else .error "decrypt error"
    | none => .error "decrypt error"
  | false, 2, 12 :: ei :: er :: body =>
    match (openBody s body).bind fun o => (takeKey o.2).map fun q => (o.1, q) with
    | some (k, own, payload) =>
      if some ei = s.peerEph ∧ er = s.eph ∧ own = s.static then
        .ok (payload, { s with peerStatic := some k, stage := 3 })
      else .error "decrypt error"
    | none => .error "decrypt error"
  | _, _, _ => .error "decrypt error"

def intoTransport (s : State) : Except String Transport :=
  match s.stage, s.peerEph with
  | 3, some e =>
    .ok { initiator := s.initiator
          initiatorEph := if s.initiator then s.eph else e
          responderEph := if s.initiator then e else s.eph }
  | _, _ => .error "handshake not finished"

/-- The 16-byte tag of a ciphertext written by `ts` under `nonce`. -/
def tag (ts : Transport) (nonce : UInt64) : Bytes :=
  [if ts.initiator then 1 else 2, ts.initiatorEph, ts.responderEph] ++ toLeBytes nonce ++ [0, 0, 0, 0, 0]

/-- The other end of the same handshake. -/
def Transport.peer (ts : Transport) : Transport := { ts with initiator := !ts.initiator }

def transportWrite (ts : Transport) (nonce : UInt64) (payload : Bytes) (room : ℕ) : Except String Bytes :=
  if room < payload.length + 16 then .error "input error" else .ok (payload ++ tag ts nonce)

def transportRead (ts : Transport) (nonce : UInt64) (ct : Bytes) (room : ℕ) : Except String Bytes :=
  if ct = ct.take (ct.length - 16) ++ tag ts.peer nonce ∧ ct.length - 16 ≤ room then
    .ok (ct.take (ct.length - 16))
  else .error "decrypt error"

end Transparent

/-- The transparent instance. -/
def transparent : Snow where
  HandshakeState := Transparent.State
  StatelessTransportState := Transparent.Transport
  Rng := UInt8
  buildInitiator prologue key rng :=
    match Transparent.takeKey key with
    | some (k, _) => .ok { initiator := true, prologue := prologue, static := k, eph := rng }
    | none => .error (.localPrivateKey, "bad key length")
  buildResponder prologue key rng :=
    match Transparent.takeKey key with
    | some (k, _) => .ok { initiator := false, prologue := prologue, static := k, eph := rng }
    | none => .error (.localPrivateKey, "bad key length")
  writeMessage := Transparent.writeMessage
  readMessage := Transparent.readMessage
  getRemoteStatic s := s.peerStatic
  intoStatelessTransportMode := Transparent.intoTransport
  transportWrite := Transparent.transportWrite
  transportRead := Transparent.transportRead

namespace Transparent

instance : DecidableEq transparent.StatelessTransportState := inferInstanceAs (DecidableEq Transport)

/-- Messages leave the role and the ephemeral of a handshake alone. -/
theorem writeMessage_keeps {s s' : State} {p m : Bytes} (h : writeMessage s p = .ok (m, s')) :
    s'.initiator = s.initiator ∧ s'.eph = s.eph := by
  unfold writeMessage at h
  split at h <;> cases h <;> exact ⟨rfl, rfl⟩

theorem readMessage_keeps {s s' : State} {p m : Bytes} (h : readMessage s m = .ok (p, s')) :
    s'.initiator = s.initiator ∧ s'.eph = s.eph := by
  unfold readMessage at h
  split at h
  · cases h
    exact ⟨rfl, rfl⟩
  · split at h
    · split at h <;> cases h
      exact ⟨rfl, rfl⟩
    · cases h
  · split at h
    · split at h <;> cases h
      exact ⟨rfl, rfl⟩
    · cases h
  · cases h

@[simp] theorem tag_length (ts : Transport) (nonce : UInt64) : (tag ts nonce).length = 16 := by
  simp [tag, nonceLen]

@[simp] theorem peer_peer (ts : Transport) : ts.peer.peer = ts := by simp [Transport.peer]

theorem length_of_transportWrite {ts : Transport} {nonce : UInt64} {p ct : Bytes} {room : ℕ}
    (h : transportWrite ts nonce p room = .ok ct) : ct.length = p.length + 16 := by
  unfold transportWrite at h
  split at h
  · cases h
  · cases h
    exact List.length_append.trans (congrArg (p.length + ·) (tag_length ts nonce))

/-- What one end writes, the other end reads. -/
theorem transportRead_write {ts : Transport} {nonce : UInt64} {p ct : Bytes} {room room' : ℕ}
    (h : transportWrite ts nonce p room = .ok ct) (hr : p.length ≤ room') :
    transportRead ts.peer nonce ct room' = .ok p := by
  unfold transportWrite at h
  split_ifs at h
  cases h
  have hlen : (p ++ tag ts nonce).length - 16 = p.length := by simp
  simp [transportRead, hr]

/-- A ciphertext is read only if the other end wrote it under the same nonce. -/
theorem written_of_read {ts : Transport} {nonce : UInt64} {p ct : Bytes} {room : ℕ}
    (h : transportRead ts nonce ct room = .ok p) :
    transportWrite ts.peer nonce p (p.length + 16) = .ok ct := by
  unfold transportRead at h
  split_ifs at h with hc
  cases h
  simp only [transportWrite, lt_irrefl, if_false]
  exact congrArg Except.ok hc.1.symm

theorem readsWritten_transport {ts : Transport} {nonce : UInt64} {p ct : Bytes} {room : ℕ}
    (h : transparent.transportRead ts nonce ct room = .ok p) :
    ∃ ts' room', transparent.transportWrite ts' nonce p room' = .ok ct :=
  ⟨ts.peer, _, written_of_read h⟩

/-- The datagram that the end `ts` sends as number `nonce`. -/
def datagramOf (ts : Transport) (nonce : UInt64) (p : Bytes) : Bytes := toLeBytes nonce ++ (p ++ tag ts nonce)

end Transparent

end SeedNet
