import SeedNet.Common
import SeedNet.Postcard

/-! # Noise XX handshake and encrypted transport

`crates/crypto/src/noise.rs` over the interface of the `snow` crate.  `Snow` lists exactly the
operations that `noise.rs` calls; the crate itself is not part of the repository, so every
definition below takes it as a parameter, and what a result needs from it is a hypothesis of
that result.

* `NonceWindow.checkAndInsert` is the sliding-window replay filter.
* `SecureTransport` carries the stateless transport, the send counter and the window;
  `encrypt`, `encryptInto`, `decrypt`, `decryptInto` return their result together with the
  transport they leave behind, also on failure.
* `InitiatorHandshake` and `ResponderHandshake` wrap the handshake state.  The source keeps it
  in an `Option` that only `finish` empties, and `finish` consumes the value, so here it is a
  plain field. -/

namespace SeedNet

open Results (bind_eq_ok mapError_eq_ok)

/-- The variants of `seednet_common::Error` that `noise.rs` returns, with their texts. -/
inductive Error where
  | noiseHandshake (msg : String)
  | noiseTransport (msg : String)
deriving DecidableEq, Repr

/-- The setter of `snow::Builder` that failed. -/
inductive BuildStep where
  | applyPrologue
  | localPrivateKey
  | build
deriving DecidableEq, Repr

/-- The part of the `snow` crate that `noise.rs` uses.  Errors are their display texts.  The
randomness of a handshake is an argument of the builder. -/
structure Snow where
  HandshakeState : Type
  StatelessTransportState : Type
  Rng : Type
  /-- `Builder::new(..).prologue(..).local_private_key(..).build_initiator()` -/
  buildInitiator : Bytes → Bytes → Rng → Except (BuildStep × String) HandshakeState
  buildResponder : Bytes → Bytes → Rng → Except (BuildStep × String) HandshakeState
  /-- `HandshakeState::write_message(payload, buf)` -/
  writeMessage : HandshakeState → Bytes → Except String (Bytes × HandshakeState)
  /-- `HandshakeState::read_message(msg, buf)` -/
  readMessage : HandshakeState → Bytes → Except String (Bytes × HandshakeState)
  getRemoteStatic : HandshakeState → Option Bytes32
  intoStatelessTransportMode : HandshakeState → Except String StatelessTransportState
  /-- `StatelessTransportState::write_message(nonce, payload, buf)`; the last argument is `buf.len()` -/
  transportWrite : StatelessTransportState → UInt64 → Bytes → ℕ → Except String Bytes
  /-- `StatelessTransportState::read_message(nonce, payload, buf)`; the last argument is `buf.len()` -/
  transportRead : StatelessTransportState → UInt64 → Bytes → ℕ → Except String Bytes

/-- The largest message of Noise. -/
def maxMessageLen : ℕ := 65535

/-- Per-packet overhead: 8-byte nonce prefix and 16-byte AEAD tag. -/
def transportOverhead : ℕ := 8 + 16

/-- Nonce size prepended to every encrypted UDP datagram. -/
def nonceLen : ℕ := 8

/-- `u64::to_le_bytes`. -/
def toLeBytes (n : UInt64) : Bytes :=
  [0, 8, 16, 24, 32, 40, 48, 56].map fun i : ℕ => (n.toNat >>> i).toUInt8

/-- `u64::from_le_bytes`. -/
def fromLeBytes (bs : Bytes) : UInt64 :=
  (bs.foldr (fun (b : UInt8) (acc : ℕ) => b.toNat + 256 * acc) 0).toUInt64

@[simp] theorem toLeBytes_length (n : UInt64) : (toLeBytes n).length = nonceLen := rfl

theorem fromLeBytes_toLeBytes (n : UInt64) : fromLeBytes (toLeBytes n) = n := by
  apply UInt64.toNat_inj.mp
  have h : n.toNat < 2 ^ 64 := n.toNat_lt
  simp only [fromLeBytes, toLeBytes, List.map_cons, List.map_nil, List.foldr_cons, List.foldr_nil,
    Nat.shiftRight_eq_div_pow, Nat.toUInt8_eq, UInt8.toNat_ofNat', Nat.toUInt64_eq, UInt64.toNat_ofNat']
  omega

/-! ### The replay window -/

/-- Sliding-window replay filter: the highest nonce and a 128-bit bitmap of the nonces before it. -/
structure NonceWindow where
  top : Option UInt64 := none
  /-- bit `i` stands for the nonce `top - 1 - i` -/
  mask : BitVec 128 := 0
  initialized : Bool := false
deriving DecidableEq, Repr

namespace NonceWindow

instance : Inhabited NonceWindow := ⟨{}⟩

def width : UInt64 := 128

/-- Whether the nonce is taken as fresh, and the window afterwards. -/
def checkAndInsert (w : NonceWindow) (n : UInt64) : Bool × NonceWindow :=
  if !w.initialized then
    (true, { w with top := some n, initialized := true })
  else
    match w.top with
    | none => (true, { w with top := some n })
    | some top =>
      if n > top then
        let shift := n - top
        let mask :=
          if shift ≥ width then 0
          else (w.mask <<< shift.toNat) ||| (1#128 <<< (shift - 1).toNat)
        (true, { w with top := some n, mask := mask })
      else
        let behind := top - n
        if behind = 0 then (false, w)
        else if behind > width then (false, w)
        else
          let bit := 1#128 <<< (behind - 1).toNat
          if w.mask &&& bit ≠ 0 then (false, w)
          else (true, { w with mask := w.mask ||| bit })

/-- The window takes `n` as fresh. -/
def fresh (w : NonceWindow) (n : UInt64) : Bool := (w.checkAndInsert n).1

end NonceWindow

/-! ### Device keys and handshakes -/

/-- The X25519 view of a device's keys. -/
structure DeviceKeys where
  x25519StaticSecret : Bytes32
  x25519PublicKey : Bytes32
deriving DecidableEq, Inhabited

def DeviceKeys.peerId (keys : DeviceKeys) : PeerId := .fromBytes keys.x25519PublicKey

variable {S : Snow}

/-- Encrypted transport: every datagram carries its 8-byte little-endian nonce. -/
structure SecureTransport (S : Snow) where
  state : S.StatelessTransportState
  remoteStatic : Bytes32
  sendNonce : UInt64
  nonceWindow : NonceWindow

structure HandshakeResult (S : Snow) where
  transport : SecureTransport S
  msgBytes : Bytes

/-- The error of a failed builder call; the last setter's text depends on the role. -/
def buildError (role : String) : BuildStep × String → Error
  | (.applyPrologue, e) => .noiseHandshake s!"prologue: {e}"
  | (.localPrivateKey, e) => .noiseHandshake s!"local key: {e}"
  | (.build, e) => .noiseHandshake s!"{role} build: {e}"

def initiatorState (networkSecret : Bytes32) (deviceKeys : DeviceKeys) (rng : S.Rng) :
    Except Error S.HandshakeState :=
  (S.buildInitiator networkSecret.bytes deviceKeys.x25519StaticSecret.bytes rng).mapError
    (buildError "initiator")

def responderState (networkSecret : Bytes32) (deviceKeys : DeviceKeys) (rng : S.Rng) :
    Except Error S.HandshakeState :=
  (S.buildResponder networkSecret.bytes deviceKeys.x25519StaticSecret.bytes rng).mapError
    (buildError "responder")

def intoTransport (state : S.HandshakeState) : Except Error (SecureTransport S) :=
  match S.getRemoteStatic state with
  | none => .error (.noiseHandshake "remote static key unavailable")
  | some rs =>
    match S.intoStatelessTransportMode state with
    | .error e => .error (.noiseHandshake s!"into transport: {e}")
    | .ok ts => .ok { state := ts, remoteStatic := rs, sendNonce := 0, nonceWindow := {} }

/-- `state.write_message(payload, &mut buf).map_err(..)`. -/
def writeStep (what : String) (state : S.HandshakeState) (payload : Bytes) :
    Except Error (Bytes × S.HandshakeState) :=
  (S.writeMessage state payload).mapError fun e => .noiseHandshake s!"{what}: {e}"

/-- `state.read_message(msg, &mut buf).map_err(..)`. -/
def readStep (what : String) (state : S.HandshakeState) (msg : Bytes) :
    Except Error (Bytes × S.HandshakeState) :=
  (S.readMessage state msg).mapError fun e => .noiseHandshake s!"{what}: {e}"

theorem writeStep_eq_ok {what : String} {state : S.HandshakeState} {payload : Bytes} {r : Bytes × S.HandshakeState}
    (h : writeStep what state payload = .ok r) : S.writeMessage state payload = .ok r := mapError_eq_ok h

theorem readStep_eq_ok {what : String} {state : S.HandshakeState} {msg : Bytes} {r : Bytes × S.HandshakeState}
    (h : readStep what state msg = .ok r) : S.readMessage state msg = .ok r := mapError_eq_ok h

structure InitiatorHandshake (S : Snow) where
  state : S.HandshakeState

namespace InitiatorHandshake

def new (networkSecret : Bytes32) (deviceKeys : DeviceKeys) (rng : S.Rng) :
    Except Error (InitiatorHandshake S) :=
  (initiatorState networkSecret deviceKeys rng).map InitiatorHandshake.mk

def writeMessageA (i : InitiatorHandshake S) (payload : Bytes) :
    Except Error (Bytes × InitiatorHandshake S) :=
  (writeStep "msg A write" i.state payload).map fun r => (r.1, ⟨r.2⟩)

def readMessageB (i : InitiatorHandshake S) (msg : Bytes) :
    Except Error (Bytes × InitiatorHandshake S) :=
  (readStep "msg B read" i.state msg).map fun r => (r.1, ⟨r.2⟩)

def finish (i : InitiatorHandshake S) (payload : Bytes) : Except Error (HandshakeResult S) := do
  let (msgBytes, state) ← writeStep "msg C write" i.state payload
  let transport ← intoTransport state
  return { transport := transport, msgBytes := msgBytes }

theorem finish_eq_ok {i : InitiatorHandshake S} {payload : Bytes} {result : HandshakeResult S}
    (h : i.finish payload = .ok result) :
    ∃ state, S.writeMessage i.state payload = .ok (result.msgBytes, state) ∧
      intoTransport state = .ok result.transport := by
  obtain ⟨⟨msgBytes, state⟩, hw, h⟩ := bind_eq_ok h
  obtain ⟨transport, ht, h⟩ := bind_eq_ok h
  cases h
  exact ⟨state, writeStep_eq_ok hw, ht⟩

end InitiatorHandshake

structure ResponderHandshake (S : Snow) where
  state : S.HandshakeState

namespace ResponderHandshake

def new (networkSecret : Bytes32) (deviceKeys : DeviceKeys) (rng : S.Rng) :
    Except Error (ResponderHandshake S) :=
  (responderState networkSecret deviceKeys rng).map ResponderHandshake.mk

def readMessageA (r : ResponderHandshake S) (msg : Bytes) :
    Except Error (Bytes × ResponderHandshake S) :=
  (readStep "msg A read" r.state msg).map fun q => (q.1, ⟨q.2⟩)

def writeMessageB (r : ResponderHandshake S) (payload : Bytes) :
    Except Error (Bytes × ResponderHandshake S) :=
  (writeStep "msg B write" r.state payload).map fun q => (q.1, ⟨q.2⟩)

def finish (r : ResponderHandshake S) (msg : Bytes) : Except Error (HandshakeResult S) := do
  let (_, state) ← readStep "msg C read" r.state msg
  let transport ← intoTransport state
  return { transport := transport, msgBytes := [] }

theorem finish_eq_ok {r : ResponderHandshake S} {msg : Bytes} {result : HandshakeResult S}
    (h : r.finish msg = .ok result) :
    ∃ payload state, S.readMessage r.state msg = .ok (payload, state) ∧
      intoTransport state = .ok result.transport := by
  obtain ⟨⟨payload, state⟩, hr, h⟩ := bind_eq_ok h
  obtain ⟨transport, ht, h⟩ := bind_eq_ok h
  cases h
  exact ⟨payload, state, readStep_eq_ok hr, ht⟩

end ResponderHandshake

/-! ### The transport -/

/-- `dst[at..at + src.len()].copy_from_slice(src)`. -/
def copyInto (dst : Bytes) (start : ℕ) (src : Bytes) : Bytes :=
  dst.take start ++ src ++ dst.drop (start + src.length)

namespace SecureTransport

/-- Wire format: `[ nonce: 8 B LE ][ ciphertext + AEAD tag ]`. -/
def encrypt (t : SecureTransport S) (plaintext : Bytes) : Except Error Bytes × SecureTransport S :=
  let nonce := t.sendNonce
  let t := { t with sendNonce := nonce + 1 }
  match S.transportWrite t.state nonce plaintext (plaintext.length + 16) with
  | .error e => (.error (.noiseTransport s!"encrypt: {e}"), t)
  | .ok ct => (.ok (toLeBytes nonce ++ ct), t)

/-- Writes directly into `out`; returns the number of bytes written and the buffer. -/
def encryptInto (t : SecureTransport S) (plaintext out : Bytes) :
    Except Error ℕ × Bytes × SecureTransport S :=
  let nonce := t.sendNonce
  let t := { t with sendNonce := nonce + 1 }
  let out := copyInto out 0 (toLeBytes nonce)
  match S.transportWrite t.state nonce plaintext (out.length - nonceLen) with
  | .error e => (.error (.noiseTransport s!"encrypt_into: {e}"), out, t)
  | .ok ct => (.ok (nonceLen + ct.length), copyInto out nonceLen ct, t)

/-- The nonce a datagram carries. -/
def datagramNonce (datagram : Bytes) : UInt64 := fromLeBytes (datagram.take nonceLen)

/-- The length check and the replay check shared by `decrypt` and `decrypt_into`: the nonce and
the ciphertext, and the transport with the nonce recorded. -/
def checkHeader (t : SecureTransport S) (datagram : Bytes) :
    Except Error (UInt64 × Bytes) × SecureTransport S :=
  if datagram.length < nonceLen + 16 then
    (.error (.noiseTransport "datagram too short"), t)
  else
    let nonce := datagramNonce datagram
    let (isFresh, window) := t.nonceWindow.checkAndInsert nonce
    let t := { t with nonceWindow := window }
    if !isFresh then (.error (.noiseTransport s!"replay detected: nonce {nonce}"), t)
    else (.ok (nonce, datagram.drop nonceLen), t)

/-- Decrypt a datagram produced by `encrypt`. -/
def decrypt (t : SecureTransport S) (datagram : Bytes) : Except Error Bytes × SecureTransport S :=
  match t.checkHeader datagram with
  | (.error e, t) => (.error e, t)
  | (.ok (nonce, ciphertext), t) =>
    match S.transportRead t.state nonce ciphertext ciphertext.length with
    | .error e => (.error (.noiseTransport s!"decrypt: {e}"), t)
    | .ok plain => (.ok plain, t)

/-- Writes the plaintext into `out`; returns its length and the buffer. -/
def decryptInto (t : SecureTransport S) (datagram out : Bytes) :
    Except Error ℕ × Bytes × SecureTransport S :=
  match t.checkHeader datagram with
  | (.error e, t) => (.error e, out, t)
  | (.ok (nonce, ciphertext), t) =>
    match S.transportRead t.state nonce ciphertext out.length with
    | .error e => (.error (.noiseTransport s!"decrypt_into: {e}"), out, t)
    | .ok plain => (.ok plain.length, copyInto out 0 plain, t)

def remoteStaticKey (t : SecureTransport S) : Bytes32 := t.remoteStatic

end SecureTransport

end SeedNet
