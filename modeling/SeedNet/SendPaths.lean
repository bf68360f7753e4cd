import SeedNet.Session
import SeedNet.TransparentNoise

/-! # Encrypting and decrypting in buffers of the caller

The outbound and the inbound loop use `serialize_message_into`, `encrypt_into` and `decrypt_into`, which write
into buffers that are used again and again; everything else uses the functions that return a new vector.
`zero_allocation_agrees`: whatever the buffers held before, both kinds of functions produce the same bytes, fail
in the same cases and leave the same transport.  So the loops may be modelled by either kind
(`Engine.sendDirect_eq`). -/

namespace SeedNet

variable {S : Snow}

/-- The result of a call does not depend on room that it does not need. -/
structure Snow.IgnoresSpareRoom (S : Snow) : Prop where
  write : ∀ state nonce payload room, payload.length + 16 ≤ room →
    S.transportWrite state nonce payload room = S.transportWrite state nonce payload (payload.length + 16)
  read : ∀ state nonce payload room, payload.length ≤ room →
    S.transportRead state nonce payload room = S.transportRead state nonce payload payload.length

/-! ### Buffers -/

/-- `postcard::to_io`: appends what `to_allocvec` returns. -/
def toIo (msg : Message) (writer : Bytes) : Bytes := writer ++ serializeMessage msg

/-- `Vec::clear`. -/
def clear (buf : Bytes) : Bytes := buf.take 0

def serializeMessageInto (msg : Message) (buf : Bytes) : Bytes := toIo msg (clear buf)

/-- `Vec::resize(len, 0)`. -/
def resize (buf : Bytes) (len : ℕ) : Bytes := buf.take len ++ List.replicate (len - buf.length) 0

@[simp] theorem serializeMessageInto_eq (msg : Message) (buf : Bytes) :
    serializeMessageInto msg buf = serializeMessage msg := by
  simp [serializeMessageInto, toIo, clear]

@[simp] theorem length_resize (buf : Bytes) (len : ℕ) : (resize buf len).length = len := by
  rw [resize, List.length_append, List.length_take, List.length_replicate]
  omega

theorem length_copyInto {dst src : Bytes} {start : ℕ} (h : start + src.length ≤ dst.length) :
    (copyInto dst start src).length = dst.length := by
  simp only [copyInto, List.length_append, List.length_take, List.length_drop]
  omega

/-- The header, and behind it the body, stand at the start of the buffer. -/
theorem copyInto_append (header body out : Bytes) :
    copyInto (copyInto out 0 header) header.length body =
      header ++ body ++ (copyInto out 0 header).drop (header.length + body.length) := by
  have htake : (copyInto out 0 header).take header.length = header := by
    simp [copyInto]
  rw [copyInto, htake]

/-! ### Equal outcomes -/

/-- The two errors of one failure: the checks before a call give one text, the calls themselves one each. -/
inductive SameCase : Error → Error → Prop
  | check (e : Error) : SameCase e e
  | encrypt (text : String) :
      SameCase (.noiseTransport s!"encrypt: {text}") (.noiseTransport s!"encrypt_into: {text}")
  | decrypt (text : String) :
      SameCase (.noiseTransport s!"decrypt: {text}") (.noiseTransport s!"decrypt_into: {text}")

/-- One function returns the bytes, the other one their number, and its buffer starts with them; or both fail. -/
inductive SameResult : Except Error Bytes → Except Error ℕ → Bytes → Prop
  | ok (bytes rest : Bytes) : SameResult (.ok bytes) (.ok bytes.length) (bytes ++ rest)
  | error {e e' : Error} (h : SameCase e e') (buf : Bytes) : SameResult (.error e) (.error e') buf

/-- A call and a call on a buffer: what they return, and the transport that they leave. -/
structure SameOutcome (r : Except Error Bytes × SecureTransport S) (r' : Except Error ℕ × Bytes × SecureTransport S) :
    Prop where
  result : SameResult r.1 r'.1 r'.2.1
  transport : r'.2.2 = r.2

namespace SecureTransport

variable (hroom : S.IgnoresSpareRoom) (t : SecureTransport S)
include hroom

theorem encryptInto_agrees {plaintext out : Bytes} (hout : nonceLen + plaintext.length + 16 ≤ out.length) :
    SameOutcome (t.encrypt plaintext) (t.encryptInto plaintext out) := by
  have hlen : (copyInto out 0 (toLeBytes t.sendNonce)).length = out.length :=
    length_copyInto (by rw [toLeBytes_length]; omega)
  have hwrite := hroom.write t.state t.sendNonce plaintext (out.length - nonceLen) (by omega)
  simp only [encrypt, encryptInto, hlen, hwrite]
  cases S.transportWrite t.state t.sendNonce plaintext (plaintext.length + 16) with
  | error text => exact ⟨.error (.encrypt text) _, rfl⟩
  | ok ct =>
      refine ⟨?_, rfl⟩
      have hbuf := copyInto_append (toLeBytes t.sendNonce) ct out
      rw [toLeBytes_length] at hbuf
      dsimp only
      rw [hbuf]
      have hn : nonceLen + ct.length = (toLeBytes t.sendNonce ++ ct).length := by
        rw [List.length_append, toLeBytes_length]
      rw [hn]
      exact .ok _ _

omit hroom in
theorem checkHeader_eq_ok {datagram ciphertext : Bytes} {nonce : UInt64} {t' : SecureTransport S}
    (h : t.checkHeader datagram = (.ok (nonce, ciphertext), t')) : ciphertext = datagram.drop nonceLen := by
  unfold checkHeader at h
  dsimp only at h
  split at h
  · cases h
  · split at h <;> cases h
    rfl

theorem decryptInto_agrees {datagram out : Bytes} (hout : datagram.length - nonceLen ≤ out.length) :
    SameOutcome (t.decrypt datagram) (t.decryptInto datagram out) := by
  unfold decrypt decryptInto
  rcases hcheck : t.checkHeader datagram with ⟨e | ⟨nonce, ciphertext⟩, t'⟩
  · exact ⟨.error (.check e) out, rfl⟩
  · have hlen : ciphertext.length ≤ out.length := by
      rw [checkHeader_eq_ok t hcheck, List.length_drop]
      exact hout
    dsimp only
    rw [hroom.read t'.state nonce ciphertext out.length hlen]
    cases S.transportRead t'.state nonce ciphertext ciphertext.length with
    | error text => exact ⟨.error (.decrypt text) out, rfl⟩
    | ok plain =>
        refine ⟨?_, rfl⟩
        have hbuf : copyInto out 0 plain = plain ++ out.drop plain.length := by simp [copyInto]
        dsimp only
        rw [hbuf]
        exact .ok _ _

end SecureTransport

/-! ### The direct branch of the outbound loop -/

/-- The packet is serialized into one buffer of the loop and encrypted into the other one. -/
def Engine.sendDirect (e : Engine (SecureTransport S)) (peerId : PeerId) (packet serBuf encBuf : Bytes) :
    Engine (SecureTransport S) × List (Datagram S) :=
  match e.sessions.lookup peerId with
  | none => (e, [])
  | some session =>
    let serBuf := serializeMessageInto (.data packet) serBuf
    let encBuf := resize encBuf (serBuf.length + transportOverhead)
    match session.transport.encryptInto serBuf encBuf with
    | (.ok n, encBuf, t) =>
      (e.setTransport peerId session t,
        [{ dst := session.underlay
           bytes := encBuf.take n
           origin := .encrypted session.transport.state session.transport.sendNonce (.data packet) }])
    | (.error _, _, t) => (e.setTransport peerId session t, [])

/-- The loop sends what `encrypt` would give it, whatever its buffers held. -/
theorem Engine.sendDirect_eq (hroom : S.IgnoresSpareRoom) (e : Engine (SecureTransport S)) (peerId : PeerId)
    (packet serBuf encBuf : Bytes) :
    e.sendDirect peerId packet serBuf encBuf = e.transmitOne { peer := peerId, msg := .data packet } := by
  unfold sendDirect transmitOne
  cases e.sessions.lookup peerId with
  | none => rfl
  | some session =>
      have hlen : nonceLen + (serializeMessage (.data packet)).length + 16 ≤
          (resize encBuf ((serializeMessage (.data packet)).length + transportOverhead)).length := by
        rw [length_resize]
        simp only [transportOverhead, nonceLen]
        omega
      have hout := session.transport.encryptInto_agrees hroom hlen
      dsimp only
      rw [serializeMessageInto_eq]
      obtain ⟨hresult, htransport⟩ := hout
      generalize session.transport.encryptInto (serializeMessage (.data packet)) _ = r' at hresult htransport ⊢
      generalize session.transport.encrypt (serializeMessage (.data packet)) = r at hresult htransport ⊢
      obtain ⟨r, t⟩ := r
      obtain ⟨r', buf, t'⟩ := r'
      cases htransport
      cases hresult with
      | ok bytes rest => simp
      | error => rfl

/-- **The paths without allocation agree with the others**, for every transport, message, datagram and buffer. -/
theorem zero_allocation_agrees (hroom : S.IgnoresSpareRoom) (t : SecureTransport S) :
    (∀ msg buf, serializeMessageInto msg buf = serializeMessage msg) ∧
      (∀ plaintext out, nonceLen + plaintext.length + 16 ≤ out.length →
        SameOutcome (t.encrypt plaintext) (t.encryptInto plaintext out)) ∧
      ∀ datagram out, datagram.length - nonceLen ≤ out.length →
        SameOutcome (t.decrypt datagram) (t.decryptInto datagram out) :=
  ⟨serializeMessageInto_eq, fun _ _ => t.encryptInto_agrees hroom, fun _ _ => t.decryptInto_agrees hroom⟩

namespace Transparent

theorem ignoresSpareRoom : transparent.IgnoresSpareRoom where
  write state nonce payload room h := by
    show transportWrite state nonce payload room = transportWrite state nonce payload (payload.length + 16)
    simp [transportWrite, Nat.not_lt.mpr h]
  read state nonce payload room h := by
    show transportRead state nonce payload room = transportRead state nonce payload payload.length
    have hroom : payload.length - 16 ≤ room := by omega
    simp [transportRead, hroom]

/-- A transport at its first datagram. -/
def firstTransport : SecureTransport transparent where
  state := { initiator := true, initiatorEph := 1, responderEph := 2 }
  remoteStatic := .replicate 7
  sendNonce := 0
  nonceWindow := {}

end Transparent

open Transparent in
theorem zero_allocation_agrees_first :
    serializeMessageInto .heartbeat [1, 2, 3] = serializeMessage .heartbeat ∧
      SameOutcome (firstTransport.encrypt [1]) (firstTransport.encryptInto [1] (List.replicate 30 9)) ∧
      SameOutcome (firstTransport.decrypt (datagramOf firstTransport.state.peer 0 [1]))
        (firstTransport.decryptInto (datagramOf firstTransport.state.peer 0 [1]) (List.replicate 20 9)) :=
  have h := zero_allocation_agrees ignoresSpareRoom firstTransport
  ⟨h.1 .heartbeat [1, 2, 3], h.2.1 _ _ (by decide), h.2.2 _ _ (by decide)⟩

end SeedNet
