import SeedNet.Completing
import SeedNet.NamedNoise
import SeedNet.Responses
import SeedNet.SendPaths
import SeedNet.SessionAgreement

/-! # Nodes on an open network

Any number of nodes on a network that anyone can write to: at every moment any datagram may arrive at any node from
any address, also one that was lost, delivered before or made up.  One thing is impossible
(`OpenNetwork.Unforged`): a session decrypts only what some node has encrypted.  Of Noise, `Snow.Bound` asks that a
ciphertext is read only with the other end's keys, and each end knows the other's static key.

`Node.Rooted` is the invariant of a node that every session belongs to a handshake of the node with the peer that the
session is stored for.  `session_authentic`: in every run, a message that a node decrypts with the session of a peer has
been encrypted by that peer for it. -/

namespace SeedNet

open Function (update)
open Run (exec Along)
open Snow (InitiatorEnd ResponderEnd)

variable {S : Snow}

/-! ### Ends of handshakes -/

/-- A state for the traffic with `peer`, from a handshake with the static key `key`. -/
def Snow.EndOf (networkSecret key : Bytes32) (ts : S.StatelessTransportState) (peer : PeerId) : Prop :=
  ∃ m t, (InitiatorEnd networkSecret key m t ∨ ResponderEnd networkSecret key m t) ∧ t.state = ts ∧
    PeerId.fromBytes t.remoteStaticKey = peer

/-- A ciphertext is read as what was written, and only by the ends of one handshake, which name each other. -/
def Snow.Bound (S : Snow) (publicKey : Bytes32 → Bytes32) (networkSecret : Bytes32) : Prop :=
  ∀ (key key' : Bytes32) (ts ts' : S.StatelessTransportState) peer peer', Snow.EndOf networkSecret key ts peer →
    Snow.EndOf networkSecret key' ts' peer' → ∀ nonce payload room ct room' plain,
      S.transportWrite ts nonce payload room = .ok ct → S.transportRead ts' nonce ct room' = .ok plain →
        plain = payload ∧ peer = .fromBytes (publicKey key') ∧ peer' = .fromBytes (publicKey key)

namespace SecureTransport

/-- What `decrypt_into` returns, Noise has read under the nonce of the datagram. -/
theorem read_of_decryptInto {t t' : SecureTransport S} {datagram out buf : Bytes} {len : ℕ}
    (h : t.decryptInto datagram out = (.ok len, buf, t')) :
    S.transportRead t.state (datagramNonce datagram) (datagram.drop nonceLen) out.length = .ok (buf.take len) := by
  have hstate := t.checkHeader_state datagram
  unfold decryptInto at h
  rcases hcheck : t.checkHeader datagram with ⟨e | ⟨nonce, ciphertext⟩, t₁⟩
  · rw [hcheck] at h
    cases h
  · rw [hcheck] at h hstate
    dsimp only at h hstate
    have hnonce : nonce = datagramNonce datagram ∧ ciphertext = datagram.drop nonceLen := by
      unfold checkHeader at hcheck
      dsimp only at hcheck
      split at hcheck
      · cases hcheck
      · split at hcheck <;> cases hcheck
        exact ⟨rfl, rfl⟩
    obtain ⟨rfl, rfl⟩ := hnonce
    split at h
    · cases h
    · next plain hread =>
        cases h
        rw [copyInto_zero_take, ← hstate]
        exact hread

end SecureTransport

namespace Node

variable {blake3 : Blake3} {n : Node S}

/-- A message that the inbound loop takes from a datagram was read with the session of its sender. -/
theorem read_of_opens {a : Arrival S} {m : Node S} {msg : Message} (h : n.opens a = some (m, msg)) :
    ∃ peer ts room plain, n.dataFrom a = some peer ∧ n.engine.Seals peer ts ∧
      S.transportRead ts (SecureTransport.datagramNonce a.data) (a.data.drop nonceLen) room = .ok plain ∧
      deserializeMessage plain = .ok msg := by
  cases hi : n.inbound with
  | dispatch | complete =>
      rw [opens, hi] at h
      cases h
  | idle =>
      rw [opens_of_idle n a hi] at h
      obtain ⟨peer, hfrom, hmap⟩ := Option.bind_eq_some_iff.mp h
      obtain ⟨msg', hmsg, heq⟩ := Option.map_eq_some_iff.mp hmap
      cases heq
      unfold decryptData at hmsg
      split at hmsg
      · cases hmsg
      · next session hlookup =>
          split at hmsg
          · cases hmsg
          · next len buf t hdecrypt =>
              refine ⟨peer, _, _, _, hfrom, ⟨session, hlookup, rfl⟩, SecureTransport.read_of_decryptInto hdecrypt, ?_⟩
              dsimp only at hmsg
              cases hread : deserializeMessage (buf.take len) with
              | error e =>
                  rw [hread] at hmsg
                  cases hmsg
              | ok msg' =>
                  rw [hread] at hmsg
                  cases hmsg
                  rfl

/-! ### Sessions and their handshakes -/

/-- `P` holds of the peers and keys of the node's sessions and completed handshakes. -/
structure Backed (P : PeerId → S.StatelessTransportState → Prop) (n : Node S) : Prop where
  sessions : ∀ peer ts, n.engine.Seals peer ts → P peer ts
  completions : ∀ who c, n.completion who = some c → P c.peerId c.transport.state

/-- A step of a completed handshake seals with the sessions that there were, or with its own. -/
theorem seals_of_run {c : Completion S} {e : Engine (SecureTransport S)} {peer : PeerId}
    {ts : S.StatelessTransportState} (h : (c.run blake3 e).1.Seals peer ts) :
    e.Seals peer ts ∨ peer = c.peerId ∧ ts = c.transport.state := by
  by_cases hs : c.stage = .session
  · obtain ⟨session, hlookup, rfl⟩ := h
    simp only [Completion.run, hs, Engine.insertSession, Map.lookup_insert] at hlookup
    split at hlookup
    · next hpeer =>
        cases hlookup
        exact .inr ⟨hpeer, rfl⟩
    · exact .inl ⟨session, hlookup, rfl⟩
  · by_cases ha : c.stage = .addrIndex
    · obtain ⟨session, hlookup, rfl⟩ := h
      simp only [Completion.run, ha] at hlookup
      exact .inl ⟨session, hlookup, rfl⟩
    · exact .inl ((Completion.run_sameSessions blake3 hs ha).seals.mp h)

theorem next_of_completion {c d : Completion S} (h : c.next = some d) :
    d.transport = c.transport ∧ d.peerId = c.peerId := by
  unfold Completion.next at h
  split at h <;> cases h <;> exact ⟨rfl, rfl⟩

variable {P : PeerId → S.StatelessTransportState → Prop}

/-- What holds of the handshakes that complete holds of all sessions. -/
theorem Backed.next (h : n.Backed P) (a : NodeAction S)
    (haccepts : ∀ arrival responder created result, a = .receive arrival →
      n.pendingResponders.lookup arrival.fromAddr.socketAddr = some (responder, created) →
        responder.finish arrival.data = .ok result →
          P (.fromBytes result.transport.remoteStaticKey) result.transport.state)
    (hanswers : ∀ id token attempt data result, a = .attempt id true token → n.attempts.lookup id = some attempt →
      attempt.inbox = some data → attempt.answer data = .ok result →
        P (.fromBytes result.transport.remoteStaticKey) result.transport.state) :
    (n.next blake3 a).Backed P := by
  refine ⟨fun peer ts hseals => ?_, fun who c hc => ?_⟩
  · cases effect blake3 n a with
    | quiet hs hr hc => exact h.sessions peer ts (hs.seals.mp hseals)
    | accepts arrival responder created result ha hpunch hpending hfinish hs =>
        rw [hs] at hseals
        exact h.sessions peer ts hseals
    | answers id token attempt data result ha hattempt hstage hinbox hanswer hs =>
        rw [hs] at hseals
        exact h.sessions peer ts hseals
    | advances who c ha hsome hs =>
        rw [hs] at hseals
        rcases seals_of_run hseals with hold | ⟨rfl, rfl⟩
        · exact h.sessions peer ts hold
        · exact h.completions who c hsome
    | removes id session hlookup hnone hs =>
        rw [hs] at hseals
        obtain ⟨session', hlookup', rfl⟩ := hseals
        rw [Engine.removeSession, Map.lookup_erase] at hlookup'
        split at hlookup'
        · cases hlookup'
        · exact h.sessions peer _ ⟨session', hlookup', rfl⟩
    | cleans underlay ha hsome hs =>
        rw [hs] at hseals
        exact h.sessions peer ts hseals
    | forgets addr ha hsome hs =>
        rw [hs] at hseals
        exact h.sessions peer ts hseals
  · cases effect blake3 n a with
    | quiet hs hr hsame =>
        rw [hsame who] at hc
        exact h.completions who c hc
    | removes id session hlookup hnone hs hr hsame =>
        rw [hsame who] at hc
        exact h.completions who c hc
    | cleans underlay ha hsome hs hr hsame =>
        rw [hsame who] at hc
        exact h.completions who c hc
    | forgets addr ha hsome hs hr hsame =>
        rw [hsame who] at hc
        exact h.completions who c hc
    | accepts arrival responder created result ha hpunch hpending hfinish hs hr hnone hupdated =>
        rw [hupdated who] at hc
        split at hc
        · cases hc
          exact haccepts arrival responder created result ha hpending hfinish
        · exact h.completions who c hc
    | answers id token attempt data result ha hattempt hstage hinbox hanswer hs hr hnone hupdated =>
        rw [hupdated who] at hc
        split at hc
        · cases hc
          exact hanswers id token attempt data result ha hattempt hinbox hanswer
        · exact h.completions who c hc
    | advances w d ha hsome hs hr hupdated =>
        rw [hupdated who] at hc
        split at hc
        · obtain ⟨ht, hp⟩ := next_of_completion hc
          rw [ht, hp]
          exact h.completions w d hsome
        · exact h.completions who c hc

/-- The other loops leave sessions and handshakes as they are. -/
theorem Backed.of_loop (h : n.Backed P) {a : LoopAction S} (ha : ∀ b, a ≠ .task b) :
    (n.loopNext blake3 a).Backed P := by
  have hsame {e : Engine (SecureTransport S)} (he : ∀ peer ts, e.Seals peer ts → n.engine.Seals peer ts) :
      ({ n with engine := e } : Node S).Backed P :=
    ⟨fun peer ts hseals => h.sessions peer ts (he peer ts hseals),
      fun who c hc => h.completions who c ((completion_of_tasks rfl rfl who).symm.trans hc)⟩
  have hsent (a : LoopAction S) (sends : List Send) (peer : PeerId) (ts : S.StatelessTransportState)
      (hseals : ((n.response blake3 a).engine.transmit sends).1.Seals peer ts) : n.engine.Seals peer ts :=
    ((response_sameSessions a).trans (Engine.sameSessions_transmit sends _)).seals.mp hseals
  cases a with
  | task b => exact absurd rfl (ha b)
  | tunPacket candidate packet => exact hsame (hsent (.tunPacket candidate packet) _)
  | healthcheck nowMs peerId => exact hsame (hsent (.healthcheck nowMs peerId) _)
  | relayFlag addr | stunAddr addr => exact hsame fun _ _ => id

variable {networkSecret key : Bytes32}

theorem Honest.loopNext (h : n.Honest networkSecret key) (a : LoopAction S) :
    (n.loopNext blake3 a).Honest networkSecret key := by
  cases a with
  | task a => exact h.next
  | tunPacket | healthcheck | relayFlag | stunAddr => exact ⟨h.secret_eq, h.key_eq, h.attempts, h.responders⟩

/-- The node's sessions and completed handshakes are its own, with the peers that they are stored for. -/
structure Rooted (networkSecret key : Bytes32) (n : Node S) : Prop extends Honest networkSecret key n,
  Backed (fun peer ts => Snow.EndOf networkSecret key ts peer) n

theorem Rooted.loopNext (h : n.Rooted networkSecret key) (a : LoopAction S) :
    (n.loopNext blake3 a).Rooted networkSecret key := by
  refine ⟨h.toHonest.loopNext a, ?_⟩
  cases a with
  | task a =>
      refine h.toBacked.next a ?_ ?_
      · intro arrival responder created result _ hpending hfinish
        obtain ⟨msgB, hB⟩ := h.responders _ _ _ hpending
        exact ⟨_, _, .inr (responderEnd_of_finish hB hfinish), rfl, rfl⟩
      · intro id token attempt data result _ hattempt _ hanswer
        obtain ⟨msgA, hA, -⟩ := h.attempts id attempt hattempt
        exact ⟨_, _, .inl (initiatorEnd_of_answer hA hanswer), rfl, rfl⟩
  | tunPacket | healthcheck | relayFlag | stunAddr => exact h.toBacked.of_loop fun _ he => by cases he

end Node

/-! ### Messages between ends -/

/-- The datagram carries a message for `peer`, encrypted by an end with the static key `key`. -/
def Datagram.EncryptedFor (networkSecret key : Bytes32) (d : Datagram S) (peer : PeerId) (msg : Message) : Prop :=
  ∃ ts nonce, d.origin = .encrypted ts nonce msg ∧ d.Sealed ts nonce msg ∧ Snow.EndOf networkSecret key ts peer

namespace Datagram.EncryptedFor

variable {networkSecret key : Bytes32} {d : Datagram S} {peer : PeerId} {msg : Message}

/-- The bytes are the nonce and a ciphertext. -/
theorem wrote (h : d.EncryptedFor networkSecret key peer msg) :
    ∃ ts room, Snow.EndOf networkSecret key ts peer ∧ S.transportWrite ts (SecureTransport.datagramNonce d.bytes)
      (serializeMessage msg) room = .ok (d.bytes.drop nonceLen) := by
  obtain ⟨ts, nonce, -, ⟨room, ct, hwrite, hd⟩, hend⟩ := h
  refine ⟨ts, room, hend, ?_⟩
  rw [hd, SecureTransport.datagramNonce_sealed, List.drop_left' (toLeBytes_length nonce)]
  exact hwrite

/-- Whoever reads the datagram is the peer that it is for, and has a session with the one who wrote it. -/
theorem of_read {publicKey : Bytes32 → Bytes32} (laws : S.Bound publicKey networkSecret)
    (h : d.EncryptedFor networkSecret key peer msg) {key' : Bytes32} {ts' : S.StatelessTransportState} {peer' : PeerId}
    (hend : Snow.EndOf networkSecret key' ts' peer') {room' : ℕ} {plain : Bytes}
    (hread : S.transportRead ts' (SecureTransport.datagramNonce d.bytes) (d.bytes.drop nonceLen) room' = .ok plain) :
    plain = serializeMessage msg ∧ peer = .fromBytes (publicKey key') ∧ peer' = .fromBytes (publicKey key) := by
  obtain ⟨ts, room, hends, hwrite⟩ := h.wrote
  exact laws key key' ts ts' peer peer' hends hend _ _ _ _ _ _ hwrite hread

end Datagram.EncryptedFor

namespace Node

variable {blake3 : Blake3} {n : Node S} {networkSecret key : Bytes32}

/-- A message that leaves a node is encrypted for the peer it is for. -/
theorem Rooted.encryptedFor (h : n.Rooted networkSecret key) {a : LoopAction S} {d : Datagram S}
    (hd : d ∈ (n.loopStep blake3 a).out) (henc : d.origin.isEncrypted = true) :
    ∃ s ∈ (n.response blake3 a).sends, d.EncryptedFor networkSecret key s.peer s.msg := by
  cases ho : d.origin with
  | encrypted ts nonce msg =>
      obtain ⟨s, hs, rfl, hseals, hsealed⟩ := sends_of_out hd ho
      exact ⟨s, hs, ts, nonce, ho, hsealed, h.sessions s.peer ts hseals⟩
  | messageA | messageB | messageC | holePunch =>
      rw [ho] at henc
      cases henc

/-- A node that takes a message from a datagram is the one that it was encrypted for, and reads it with the session of
the sender. -/
theorem Rooted.of_opens {publicKey : Bytes32 → Bytes32} (laws : S.Bound publicKey networkSecret)
    (h : n.Rooted networkSecret key) {a : Arrival S} {m : Node S} {msg : Message} {peer : PeerId}
    (hopens : n.opens a = some (m, msg)) (hfrom : n.dataFrom a = some peer) {key' : Bytes32} {d : Datagram S}
    {dst : PeerId} {plain : Message} (hbytes : a.data = d.bytes) (hfor : d.EncryptedFor networkSecret key' dst plain) :
    dst = .fromBytes (publicKey key) ∧ peer = .fromBytes (publicKey key') ∧
      deserializeMessage (serializeMessage plain) = .ok msg := by
  obtain ⟨peer', ts', room', bytes, hfrom', hseals, hread, hmsg⟩ := read_of_opens hopens
  cases hfrom.symm.trans hfrom'
  rw [hbytes] at hread
  obtain ⟨rfl, hdst, hpeer⟩ := hfor.of_read laws (h.sessions peer ts' hseals) hread
  exact ⟨hdst, hpeer, hmsg⟩

theorem Started.backed {publicKey : Bytes32 → Bytes32} (h : n.Started publicKey networkSecret)
    (P : PeerId → S.StatelessTransportState → Prop) : n.Backed P where
  sessions peer ts hseals := by
    obtain ⟨session, hlookup, -⟩ := hseals
    rw [h.sessions, AList.lookup_empty] at hlookup
    cases hlookup
  completions who c hc := by
    cases who with
    | none =>
        rw [completion_inbound, h.inbound] at hc
        cases hc
    | some id =>
        rw [Node.completion, h.attempts, AList.lookup_empty] at hc
        cases hc

theorem Started.rooted {publicKey : Bytes32 → Bytes32} (h : n.Started publicKey networkSecret)
    (hkey : n.deviceKeys.x25519StaticSecret = key) : n.Rooted networkSecret key where
  secret_eq := h.secret_eq
  key_eq := hkey
  attempts id attempt hat := by
    rw [h.attempts, AList.lookup_empty] at hat
    cases hat
  responders sa r created hr := by
    rw [h.pendingResponders, AList.lookup_empty] at hr
    cases hr
  toBacked := h.backed _

theorem loopNext_deviceKeys (a : LoopAction S) : (n.loopNext blake3 a).deviceKeys = n.deviceKeys := by
  cases a with
  | task a => exact (next_keys blake3 n a).2
  | tunPacket | healthcheck | relayFlag | stunAddr => rfl

end Node

/-! ### The network -/

/-- A message that a node has decrypted with the session of `peer`. -/
structure Decrypted (ι : Type) where
  receiver : ι
  peer : PeerId
  msg : Message

structure OpenNetwork (ι : Type) (S : Snow) where
  node : ι → Node S
  /-- the datagrams that the nodes have sent -/
  sent : List (ι × Datagram S) := []
  /-- the messages that the nodes have decrypted and then handled -/
  handled : List (Decrypted ι) := []
  /-- the session states and the nonces under which they were read -/
  taken : List (ι × S.StatelessTransportState × UInt64) := []
  /-- the packets that the nodes have read from their TUN devices -/
  tunRead : List (ι × Bytes) := []
  /-- the packets that the nodes have written to their TUN devices -/
  tunWritten : List (ι × Bytes) := []

/-- The packet that the outbound loop reads in a step. -/
def LoopAction.packet : LoopAction S → List Bytes
  | .tunPacket _ packet => [packet]
  | _ => []

/-- The message that a step decrypts, and the peer whose session it is.  The handler looks the source address up again,
and may find another peer by then. -/
def Node.decrypts (n : Node S) : LoopAction S → List (PeerId × Message)
  | .task (.receive a) =>
    match n.dataFrom a, n.messageIn a with
    | some peer, some msg => [(peer, msg)]
    | _, _ => []
  | _ => []

/-- The session state and the nonce under which the message of a step is read. -/
def Node.takes (n : Node S) : LoopAction S → List (S.StatelessTransportState × UInt64)
  | .task (.receive a) =>
    match n.messageIn a, (n.dataFrom a).bind n.engine.sessions.lookup with
    | some _, some session => [(session.transport.state, SecureTransport.datagramNonce a.data)]
    | _, _ => []
  | _ => []

/-- A message that a step decrypts was read from a datagram, with the session of the peer at its source. -/
theorem Node.mem_decrypts {n : Node S} {a : LoopAction S} {r : PeerId × Message} (h : r ∈ n.decrypts a) :
    ∃ arrival m, a = .task (.receive arrival) ∧ n.opens arrival = some (m, r.2) ∧ n.dataFrom arrival = some r.1 := by
  unfold decrypts at h
  split at h
  · next arrival =>
      split at h
      · next peer msg hfrom hmsg =>
          obtain rfl := List.mem_singleton.mp h
          obtain ⟨⟨m, msg'⟩, hopens, rfl⟩ := Option.map_eq_some_iff.mp hmsg
          exact ⟨arrival, m, rfl, hopens, hfrom⟩
      · cases h
  · cases h

namespace OpenNetwork

variable {ι : Type} [DecidableEq ι] (blake3 : Blake3) (w : OpenNetwork ι S)

/-- The node `x` makes a step. -/
def next (step : ι × LoopAction S) : OpenNetwork ι S :=
  let (x, a) := step
  let o := (w.node x).loopStep blake3 a
  { node := update w.node x o.node
    sent := w.sent ++ o.out.map fun d => (x, d)
    handled := w.handled ++ ((w.node x).decrypts a).map fun r => ⟨x, r.1, r.2⟩
    taken := w.taken ++ ((w.node x).takes a).map fun r => (x, r)
    tunRead := w.tunRead ++ a.packet.map fun packet => (x, packet)
    tunWritten := w.tunWritten ++ o.tun.map fun packet => (x, packet) }

/-- What a session decrypts, some node has encrypted. -/
def Unforged : ι × LoopAction S → Prop
  | (x, .task (.receive a)) =>
    ((w.node x).messageIn a).isSome → ∃ p ∈ w.sent, p.2.bytes = a.data ∧ p.2.origin.isEncrypted = true
  | _ => True

/-- The nodes have just started, with one network secret. -/
structure Started (publicKey : Bytes32 → Bytes32) (networkSecret : Bytes32) (w : OpenNetwork ι S) : Prop where
  node : ∀ x, (w.node x).Started publicKey networkSecret
  sent : w.sent = []
  handled : w.handled = []
  taken : w.taken = []
  tunRead : w.tunRead = []
  tunWritten : w.tunWritten = []

/-- The static key of the node `x`. -/
def staticKey (x : ι) : Bytes32 := (w.node x).deviceKeys.x25519StaticSecret

/-- The identity of the node `x`. -/
def peerId (x : ι) : PeerId := (w.node x).engine.ourPeerId

/-- A node with the identity of the sender has encrypted, for the receiver, what reads as this message. -/
def Delivers (networkSecret : Bytes32) (r : Decrypted ι) (p : ι × Datagram S) : Prop :=
  w.peerId p.1 = r.peer ∧ ∃ plain, p.2.EncryptedFor networkSecret (w.staticKey p.1) (w.peerId r.receiver) plain ∧
    deserializeMessage (serializeMessage plain) = .ok r.msg

/-- Every session belongs to a handshake with the peer it is stored for. -/
structure Traced (publicKey : Bytes32 → Bytes32) (networkSecret : Bytes32) (w : OpenNetwork ι S) : Prop where
  rooted : ∀ x, (w.node x).Rooted networkSecret (w.staticKey x)
  peerId_eq : ∀ x, w.peerId x = .fromBytes (publicKey (w.staticKey x))

/-- Every message that was sent was encrypted for a peer, and `M` holds of it, its sender and this peer. -/
def SendsOnly (networkSecret : Bytes32) (M : PeerId → PeerId → Message → Prop) : Prop :=
  ∀ p ∈ w.sent, p.2.origin.isEncrypted = true →
    ∃ peer msg, p.2.EncryptedFor networkSecret (w.staticKey p.1) peer msg ∧ M (w.peerId p.1) peer msg

section

variable {blake3 : Blake3} {w : OpenNetwork ι S} {publicKey : Bytes32 → Bytes32} {networkSecret : Bytes32}

theorem next_node (step : ι × LoopAction S) (x : ι) :
    (w.next blake3 step).node x = if x = step.1 then (w.node x).loopNext blake3 step.2 else w.node x := by
  show update w.node step.1 _ x = _
  rw [Function.update_apply]
  split
  · next h => rw [h]; rfl
  · rfl

theorem next_handled (step : ι × LoopAction S) :
    (w.next blake3 step).handled =
      w.handled ++ ((w.node step.1).decrypts step.2).map fun r => ⟨step.1, r.1, r.2⟩ := rfl

/-- No node changes its key or its identity. -/
@[simp] theorem next_staticKey (step : ι × LoopAction S) (x : ι) :
    (w.next blake3 step).staticKey x = w.staticKey x := by
  rw [staticKey, next_node]
  split
  · rw [Node.loopNext_deviceKeys]
    rfl
  · rfl

@[simp] theorem next_peerId (step : ι × LoopAction S) (x : ι) : (w.next blake3 step).peerId x = w.peerId x := by
  rw [peerId, next_node]
  split
  · rw [Node.loopNext_ourPeerId]
    rfl
  · rfl

theorem delivers_next {r : Decrypted ι} {p : ι × Datagram S} (step : ι × LoopAction S) :
    (w.next blake3 step).Delivers networkSecret r p ↔ w.Delivers networkSecret r p := by
  simp only [Delivers, next_staticKey, next_peerId]

omit [DecidableEq ι] in
theorem Started.traced (h : w.Started publicKey networkSecret) : w.Traced publicKey networkSecret where
  rooted x := (h.node x).rooted rfl
  peerId_eq x := by
    rw [peerId, (h.node x).ourPeerId_eq, DeviceKeys.peerId, (h.node x).publicKey_eq]
    rfl

omit [DecidableEq ι] in
theorem Started.sendsOnly (h : w.Started publicKey networkSecret) (M : PeerId → PeerId → Message → Prop) :
    w.SendsOnly networkSecret M := fun _ hp => absurd (h.sent ▸ hp) List.not_mem_nil

theorem Traced.next (h : w.Traced publicKey networkSecret) (step : ι × LoopAction S) :
    (w.next blake3 step).Traced publicKey networkSecret where
  rooted x := by
    rw [next_staticKey, next_node]
    split
    · exact (h.rooted x).loopNext step.2
    · exact h.rooted x
  peerId_eq x := by
    rw [next_peerId, next_staticKey]
    exact h.peerId_eq x

/-- What holds of the messages of a step holds of all messages after it. -/
theorem Traced.sendsOnly_next (h : w.Traced publicKey networkSecret) {M M' : PeerId → PeerId → Message → Prop}
    (hsends : w.SendsOnly networkSecret M) {step : ι × LoopAction S} (hmono : ∀ p q msg, M p q msg → M' p q msg)
    (hresponse : ∀ s ∈ ((w.node step.1).response blake3 step.2).sends, M' (w.peerId step.1) s.peer s.msg) :
    (w.next blake3 step).SendsOnly networkSecret M' := by
  intro p hp henc
  rw [next_staticKey, next_peerId]
  rcases List.mem_append.mp hp with hp | hp
  · obtain ⟨peer, msg, hfor, hM⟩ := hsends p hp henc
    exact ⟨peer, msg, hfor, hmono _ _ _ hM⟩
  · obtain ⟨d, hd, rfl⟩ := List.mem_map.mp hp
    obtain ⟨s, hs, hfor⟩ := (h.rooted step.1).encryptedFor hd henc
    exact ⟨s.peer, s.msg, hfor, hresponse s hs⟩

omit [DecidableEq ι] in
/-- A message that is read from a datagram was encrypted, for this node, by the peer whose session reads it. -/
theorem Traced.origin (laws : S.Bound publicKey networkSecret) (h : w.Traced publicKey networkSecret)
    {M : PeerId → PeerId → Message → Prop} (hsends : w.SendsOnly networkSecret M) {x : ι} {a : Arrival S} {m : Node S}
    {msg : Message} {sender : PeerId} (hok : w.Unforged (x, .task (.receive a)))
    (hopens : (w.node x).opens a = some (m, msg)) (hfrom : (w.node x).dataFrom a = some sender) :
    ∃ p ∈ w.sent, p.2.bytes = a.data ∧ w.peerId p.1 = sender ∧ ∃ plain,
      p.2.EncryptedFor networkSecret (w.staticKey p.1) (w.peerId x) plain ∧
        deserializeMessage (serializeMessage plain) = .ok msg ∧ M sender (w.peerId x) plain := by
  obtain ⟨p, hp, hbytes, henc⟩ := hok (by rw [Node.messageIn, hopens]; rfl)
  obtain ⟨dst, plain, hfor, hM⟩ := hsends p hp henc
  obtain ⟨hdst, hpeer, hread⟩ := (h.rooted x).of_opens laws hopens hfrom hbytes.symm hfor
  rw [hpeer, h.peerId_eq x, ← hdst]
  rw [h.peerId_eq] at hM
  exact ⟨p, hp, hbytes, h.peerId_eq p.1, plain, hfor, hread, hM⟩

omit [DecidableEq ι] in
/-- `Traced.origin` for the messages of a step. -/
theorem Traced.heard (laws : S.Bound publicKey networkSecret) (h : w.Traced publicKey networkSecret)
    {M : PeerId → PeerId → Message → Prop} (hsends : w.SendsOnly networkSecret M) {step : ι × LoopAction S}
    (hok : w.Unforged step) {r : PeerId × Message} (hr : r ∈ (w.node step.1).decrypts step.2) :
    ∃ p ∈ w.sent, w.peerId p.1 = r.1 ∧ ∃ plain,
      p.2.EncryptedFor networkSecret (w.staticKey p.1) (w.peerId step.1) plain ∧
        deserializeMessage (serializeMessage plain) = .ok r.2 ∧ M r.1 (w.peerId step.1) plain := by
  obtain ⟨x, action⟩ := step
  obtain ⟨a, m, rfl, hopens, hfrom⟩ := Node.mem_decrypts hr
  obtain ⟨p, hp, -, horigin⟩ := h.origin laws hsends hok hopens hfrom
  exact ⟨p, hp, horigin⟩

end

/-! The condition can be computed. -/

instance : ∀ step, Decidable (w.Unforged step)
  | (x, .task (.receive a)) =>
    inferInstanceAs (Decidable (((w.node x).messageIn a).isSome →
      ∃ p ∈ w.sent, p.2.bytes = a.data ∧ p.2.origin.isEncrypted = true))
  | (_, .task .inbound) | (_, .task (.attempt ..)) | (_, .task (.start ..)) | (_, .task (.timeout _))
  | (_, .task (.discover _)) | (_, .task .discovery) | (_, .task (.removed _)) | (_, .task .removal)
  | (_, .task (.broadcast _)) | (_, .tunPacket ..) | (_, .healthcheck ..) | (_, .relayFlag _) | (_, .stunAddr _) =>
    isTrue trivial

/-- **Sessions authenticate.**  However the network delivers, repeats, delays and makes up datagrams, a message
that a node decrypts with the session of a peer was encrypted by that peer, for this node, and reads as it was
written. -/
theorem session_authentic (blake3 : Blake3) {publicKey : Bytes32 → Bytes32} {networkSecret : Bytes32}
    (laws : S.Bound publicKey networkSecret) {w : OpenNetwork ι S} (h : w.Started publicKey networkSecret)
    {steps : List (ι × LoopAction S)} (hok : Along (next blake3) Unforged w steps) :
    ∀ r ∈ (exec (next blake3) w steps).handled, ∃ p ∈ (exec (next blake3) w steps).sent,
      (exec (next blake3) w steps).Delivers networkSecret r p := by
  let authentic (w : OpenNetwork ι S) := ∀ r ∈ w.handled, ∃ p ∈ w.sent, w.Delivers networkSecret r p
  have hstart : w.Traced publicKey networkSecret ∧ w.SendsOnly networkSecret (fun _ _ _ => True) ∧ authentic w :=
    ⟨h.traced, h.sendsOnly _, fun r hr => absurd (h.handled ▸ hr) List.not_mem_nil⟩
  refine (hok.invariant (I := fun w => w.Traced publicKey networkSecret ∧
    w.SendsOnly networkSecret (fun _ _ _ => True) ∧ authentic w) ?_ hstart).2.2
  rintro w step ⟨htraced, hsends, hhandled⟩ hunforged
  refine ⟨htraced.next step, htraced.sendsOnly_next hsends (fun _ _ _ h => h) fun _ _ => trivial, fun r hr => ?_⟩
  simp only [delivers_next]
  rcases List.mem_append.mp hr with hr | hr
  · obtain ⟨p, hp, hdelivers⟩ := hhandled r hr
    exact ⟨p, List.mem_append_left _ hp, hdelivers⟩
  · obtain ⟨r, hmem, rfl⟩ := List.mem_map.mp hr
    obtain ⟨p, hp, hpeer, plain, hfor, hread, -⟩ := htraced.heard laws hsends hunforged hmem
    exact ⟨p, List.mem_append_left _ hp, hpeer, plain, hfor, hread⟩

end OpenNetwork

/-! ### A run -/

namespace Transparent

/-- The traffic names the parties. -/
theorem bound_named (networkSecret : Bytes32) : named.Bound id networkSecret := by
  rintro key key' ts ts' peer peer' ⟨m, t, hend, rfl, rfl⟩ ⟨m', t', hend', rfl, rfl⟩ nonce payload room ct room' plain
    hwrite hread
  obtain ⟨hplain, hdst, hsrc⟩ := sees_of_read hwrite hread
  obtain ⟨hown, hremote⟩ := ends_named hend
  obtain ⟨hown', hremote'⟩ := ends_named hend'
  rw [hremote, hown'] at hdst
  rw [hown, hremote'] at hsrc
  exact ⟨hplain, congrArg _ hdst, congrArg _ hsrc.symm⟩

/-- The nodes 1 and 2, on an open network. -/
def openNetwork : OpenNetwork Bool named where
  node x := namedNode (if x then 2 else 1)

theorem openNetwork_started : openNetwork.Started id secret where
  node
    | false => ⟨rfl, rfl, rfl, rfl, rfl, rfl, rfl⟩
    | true => ⟨rfl, rfl, rfl, rfl, rfl, rfl, rfl⟩
  sent := rfl
  handled := rfl
  taken := rfl
  tunRead := rfl
  tunWritten := rfl

/-- A datagram arrives at the node `x`, from the address of the other one. -/
def arrives (x : Bool) (rng : UInt8) (data : Bytes) : Bool × LoopAction named :=
  (x, .task (.receive { now := 0, nowMs := 0, rng := rng, fromAddr := .udp (addrs (!x)), data := data }))

/-- Node 1 sends node 2 a message, under this nonce of their session. -/
def firstToSecond (nonce : UInt64) (msg : Message) : Bool × LoopAction named :=
  arrives true 0 (toLeBytes nonce ++ (serializeMessage msg ++
    namedTag { ends := ⟨true, 3, 4⟩, own := .replicate 1, remote := .replicate 2 } nonce))

/-- Node 1 shakes hands with node 2; a datagram that nobody has sent arrives first. -/
def openHandshake : List (Bool × LoopAction named) :=
  [arrives true 0 [9, 9, 9, 9], (false, .task (.start (addrs true) (3 : UInt8))), (false, .task (.attempt 0 true 0)),
    arrives true 4 (messageA 3), arrives false 0 (messageB 2 3 4), (false, .task .inbound)] ++
    List.replicate 9 (false, .task (.attempt 0 true 0)) ++
    arrives true 0 (messageC 1 2 3 4) :: List.replicate 7 (true, .task .inbound)

/-- The `SessionInit` of node 1 arrives twice. -/
def openGreeting : List (Bool × LoopAction named) :=
  openHandshake ++ List.replicate 2 (firstToSecond 0 (namedNode 1).engine.sessionInit)

end Transparent

open Transparent in
theorem session_authentic_greeting :
    (exec (OpenNetwork.next blake3) openNetwork openGreeting).handled.length = 1 ∧
      ∀ r ∈ (exec (OpenNetwork.next blake3) openNetwork openGreeting).handled,
        ∃ p ∈ (exec (OpenNetwork.next blake3) openNetwork openGreeting).sent,
          (exec (OpenNetwork.next blake3) openNetwork openGreeting).Delivers secret r p :=
  ⟨by decide +kernel,
    OpenNetwork.session_authentic blake3 (bound_named secret) openNetwork_started (by decide +kernel)⟩

end SeedNet
