import SeedNet.Session
import SeedNet.Outbound

/-! # A node and its inbound loop

A `Node` is one engine with the state of its tasks: the maps that the tasks share, the inbound
loop's own `pendingResponders`, and how far each task is.  `Node.receive` is one turn of
`run_inbound_loop` (`crates/core/src/inbound.rs`), with its five branches in the order of the
source:

1. hole-punch probes (`onHolePunch`),
2. message B for a pending initiator (`pendingInitiator`),
3. message C for a pending responder (`onMessageC`),
4. data from an established peer (`onData`),
5. message A (`onMessageA`).

Two branches leave the turn unfinished, since other tasks run between their steps: the hand-over
of message B to the initiator that `pending` named, and the updates that follow a completed
handshake.  `Node.inboundStep` performs the next of these, `Node.settle` all of them. -/

namespace SeedNet

open Results (bind_eq_ok map_eq_ok mapError_eq_ok)

namespace Map

variable {K V : Type} [DecidableEq K]

theorem dlookup_filter (p : K → V → Bool) (k : K) : ∀ l : List (Sigma fun _ : K => V), l.NodupKeys →
    (l.filter fun s => p s.1 s.2).dlookup k = (l.dlookup k).filter (p k)
  | [], _ => rfl
  | ⟨c, w⟩ :: l, h => by
      have ih := dlookup_filter p k l (List.nodupKeys_cons.mp h).2
      have hc : c ∉ l.keys := (List.nodupKeys_cons.mp h).1
      by_cases hk : k = c
      · subst hk
        have hn : l.dlookup k = none := List.dlookup_eq_none.mpr hc
        cases hp : p k w with
        | true => simp [hp, Option.filter]
        | false => simp [hp, ih, hn, Option.filter]
      · rw [List.dlookup_cons_ne (β := fun _ : K => V) _ ⟨c, w⟩ hk, ← ih, List.filter_cons]
        split
        · rw [List.dlookup_cons_ne (β := fun _ : K => V) _ ⟨c, w⟩ hk]
        · rfl

/-- `retain`. -/
def retain (m : Map K V) (p : K → V → Bool) : Map K V :=
  ⟨m.entries.filter fun s => p s.1 s.2, m.nodupKeys.sublist List.filter_sublist⟩

@[simp] theorem lookup_retain (m : Map K V) (p : K → V → Bool) (k : K) :
    (m.retain p).lookup k = (m.lookup k).filter (p k) :=
  dlookup_filter p k m.entries m.nodupKeys

end Map

/-- How long to wait for a direct handshake before falling back to relay, in milliseconds. -/
def handshakeTimeout : ℕ := 2000

/-! ### The state of the tasks -/

/-- The stages of `do_initiator_handshake` after its entry in `pending` was made. -/
inductive AttemptStage (S : Snow) where
  | sendA (taggedA : Bytes)
  /-- message A could not be sent; the entry in `pending` is removed next -/
  | sendFailed
  | waitB
  | complete (c : Completion S)
  /-- the wait for message B is over; the entry in `pending` is removed next -/
  | timedOut
  | requestRelay
  | holePunch

/-- An initiator task. -/
structure Attempt (S : Snow) where
  addr : SocketAddr
  handshake : InitiatorHandshake S
  /-- what the task's end of the oneshot channel holds -/
  inbox : Option Bytes := none
  stage : AttemptStage S

/-- How far the inbound loop is with the datagram it received. -/
inductive Inbound (S : Snow) where
  | idle
  /-- the sender of initiator `attempt` was taken from `pending`, `data` is sent next -/
  | dispatch (attempt : ℕ) (data : Bytes)
  | complete (c : Completion S)

instance {S : Snow} : ∀ i : Inbound S, Decidable (i = .idle)
  | .idle => isTrue rfl
  | .dispatch .. => isFalse fun h => by cases h
  | .complete _ => isFalse fun h => by cases h

/-- The inbound loop waits for the next datagram once a completion is finished. -/
def Inbound.continue {S : Snow} : Option (Completion S) → Inbound S
  | some c => .complete c
  | none => .idle

/-- How far the discovery loop is with an address. -/
inductive Discovery where
  | connected (addr : SocketAddr)
  | pending (addr : SocketAddr)
  | lookup (addr : SocketAddr)
  | contains (addr : SocketAddr) (peerId : PeerId)
  | remove (addr : SocketAddr)
deriving DecidableEq

/-- One engine and its tasks. -/
structure Node (S : Snow) where
  networkSecret : Bytes32
  deviceKeys : DeviceKeys
  engine : Engine (SecureTransport S)
  /-- the initiators that wait for message B, by the address they wait for -/
  pending : Map SocketAddr ℕ := ∅
  /-- the inbound loop's responders that wait for message C, with the time of their creation -/
  pendingResponders : Map SocketAddr (ResponderHandshake S × ℕ) := ∅
  plainBuf : Bytes := []
  inbound : Inbound S := .idle
  attempts : Map ℕ (Attempt S) := ∅
  nextAttempt : ℕ := 0
  /-- tasks are numbered in the order of their start -/
  attempts_lt : ∀ id ∈ attempts, id < nextAttempt := by simp
  discovery : Option Discovery := none
  /-- the handler of `PeerEvent::Removed` has taken a session at this address out of the map -/
  removal : Option TransportAddr := none

/-- A datagram as the inbound loop receives it, with the clocks and the randomness of its turn. -/
structure Arrival (S : Snow) where
  /-- milliseconds on the monotonic clock -/
  now : ℕ
  nowMs : UInt64
  rng : S.Rng
  fromAddr : TransportAddr
  data : Bytes

/-- What a step leaves behind: the node, the datagrams it sent, the message it handled and the
packets it wrote to the TUN device. -/
structure Outcome (S : Snow) where
  node : Node S
  out : List (Datagram S) := []
  handled : Option Message := none
  tun : List Bytes := []

namespace Node

variable {S : Snow} (blake3 : Blake3) (n : Node S) (a : Arrival S)

/-! ### The branches of a turn -/

/-- `pending_responders.retain(|_, (_, t)| t.elapsed() < HANDSHAKE_TIMEOUT)`. -/
def retainResponders (now : ℕ) : Node S :=
  { n with pendingResponders := n.pendingResponders.retain fun _ r => decide (now - r.2 < handshakeTimeout) }

/-- A hole-punch datagram. -/
def punch (dst : TransportAddr) (msg : Message) : Datagram S :=
  { dst := dst, bytes := holePunchProbePrefix ++ serializeMessage msg, origin := .holePunch }

/-- A probe is answered by an ack and by a probe. -/
def onHolePunch : Outcome S :=
  match deserializeMessage (a.data.drop holePunchProbePrefix.length) with
  | .ok (.holePunchProbe token) =>
    { node := n, out := [punch a.fromAddr (.holePunchAck token), punch a.fromAddr (.holePunchProbe token)] }
  | _ => { node := n }

/-- The initiator that a datagram with the prefix of message B is for. -/
def pendingInitiator : Option ℕ :=
  if startsWith a.data noiseHandshakeResponderPrefix then n.pending.lookup a.fromAddr.socketAddr else none

/-- The responder was taken from `pendingResponders`. -/
def onMessageC (responder : ResponderHandshake S) : Outcome S :=
  let n := { n with pendingResponders := n.pendingResponders.erase a.fromAddr.socketAddr }
  match responder.finish a.data with
  | .ok result =>
    { node := { n with
        inbound := .complete
          { initiator := false
            peerId := .fromBytes result.transport.remoteStaticKey
            underlay := a.fromAddr
            transport := result.transport } } }
  | .error _ => { node := n }

/-- The message was decrypted; its handler runs and what it sends is encrypted. -/
def onMessage (msg : Message) : Outcome S :=
  let r := n.engine.handleMessage blake3 a.nowMs a.fromAddr msg
  let sent := r.engine.transmit r.sends
  { node := { n with engine := sent.1 }, out := sent.2, handled := some msg, tun := r.tun }

def onData (peerId : PeerId) : Outcome S :=
  match n.engine.sessions.lookup peerId with
  | none => { node := n }
  | some session =>
    match session.transport.decryptInto a.data n.plainBuf with
    | (.error _, buf, t) =>
      { node := { n with engine := n.engine.setTransport peerId session t, plainBuf := buf } }
    | (.ok len, buf, t) =>
      let n := { n with engine := n.engine.setTransport peerId session t, plainBuf := buf }
      match deserializeMessage (buf.take len) with
      | .ok msg => n.onMessage blake3 a msg
      | .error _ => { node := n }

/-- A new responder, after it has read message A, with message B. -/
def answer (msgA : Bytes) : Except Error (Bytes × ResponderHandshake S) := do
  let responder ← ResponderHandshake.new n.networkSecret n.deviceKeys a.rng
  let (_, responder) ← responder.readMessageA msgA
  responder.writeMessageB []

def onMessageA : Outcome S :=
  match n.answer a (a.data.drop noiseHandshakeInitiatorPrefix.length) with
  | .ok (msgB, responder) =>
    { node := { n with
        pendingResponders := n.pendingResponders.insert a.fromAddr.socketAddr (responder, a.now) }
      out := [{ dst := a.fromAddr, bytes := noiseHandshakeResponderPrefix ++ msgB, origin := .messageB }] }
  | .error _ => { node := n }

/-- One turn of the inbound loop, up to the first point where other tasks run. -/
def receive : Outcome S :=
  let n := n.retainResponders a.now
  if startsWith a.data holePunchProbePrefix then n.onHolePunch a
  else
    match n.pendingInitiator a with
    | some id =>
      { node := { n with
          pending := n.pending.erase a.fromAddr.socketAddr
          inbound := .dispatch id a.data } }
    | none =>
      match n.pendingResponders.lookup a.fromAddr.socketAddr with
      | some (responder, _) => n.onMessageC a responder
      | none =>
        match n.engine.addrIndex.lookup a.fromAddr with
        | some peerId => n.onData blake3 a peerId
        | none =>
          if startsWith a.data noiseHandshakeInitiatorPrefix then n.onMessageA a
          else { node := n }

/-! ### Finishing a turn -/

/-- `sender.send(data)`: lost if the task has stopped waiting. -/
def deliverToAttempt (id : ℕ) (data : Bytes) : Node S :=
  match n.attempts.lookup id with
  | none => n
  | some attempt =>
    match attempt.stage with
    | .sendA _ | .waitB =>
      { n with
        attempts := n.attempts.replace id { attempt with inbox := some data }
        attempts_lt := fun i hi => n.attempts_lt i (AList.mem_replace.mp hi) }
    | _ => n

/-- The next step of the turn. -/
def inboundStep : Outcome S :=
  match n.inbound with
  | .idle => { node := n }
  | .dispatch id data => { node := { n.deliverToAttempt id data with inbound := .idle } }
  | .complete c =>
    let r := c.run blake3 n.engine
    { node := { n with engine := r.1, inbound := .continue c.next }, out := r.2 }

/-- The given number of steps of the turn. -/
def settleFor : ℕ → Node S → Outcome S
  | 0, n => { node := n }
  | k + 1, n =>
    let o := n.inboundStep blake3
    let o' := settleFor k o.node
    { o' with out := o.out ++ o'.out }

/-- The number of steps after which every turn is finished. -/
def Inbound.length : ℕ := 7

/-- A turn from its receive to its end, with nothing in between. -/
def turn : Outcome S :=
  let o := n.receive blake3 a
  let o' := settleFor blake3 Inbound.length o.node
  { o with node := o'.node, out := o.out ++ o'.out }

theorem answer_eq_ok {n : Node S} {a : Arrival S} {msgA msgB : Bytes} {r : ResponderHandshake S}
    (h : n.answer a msgA = .ok (msgB, r)) :
    ∃ s₀ s₁ p, S.buildResponder n.networkSecret.bytes n.deviceKeys.x25519StaticSecret.bytes a.rng = .ok s₀ ∧
      S.readMessage s₀ msgA = .ok (p, s₁) ∧ S.writeMessage s₁ [] = .ok (msgB, r.state) := by
  obtain ⟨r₀, h₀, hrest⟩ := bind_eq_ok h
  obtain ⟨⟨p, r₁⟩, h₁, hlast⟩ := bind_eq_ok hrest
  obtain ⟨s₀, hbuild, hr₀⟩ := map_eq_ok h₀
  obtain ⟨⟨p', s₁⟩, hread, hr₁⟩ := map_eq_ok h₁
  obtain ⟨⟨m, s₂⟩, hwrite, hr₂⟩ := map_eq_ok hlast
  cases hr₀
  cases hr₁
  cases hr₂
  exact ⟨s₀, s₁, p', mapError_eq_ok hbuild, readStep_eq_ok hread, writeStep_eq_ok hwrite⟩

/-! ### Data from an established peer -/

/-- `n'` differs from `n` at most in the engine and the plaintext buffer. -/
structure SameTasks (n n' : Node S) : Prop where
  networkSecret : n'.networkSecret = n.networkSecret
  deviceKeys : n'.deviceKeys = n.deviceKeys
  pending : n'.pending = n.pending
  pendingResponders : n'.pendingResponders = n.pendingResponders
  inbound : n'.inbound = n.inbound
  attempts : n'.attempts = n.attempts
  nextAttempt : n'.nextAttempt = n.nextAttempt
  discovery : n'.discovery = n.discovery
  removal : n'.removal = n.removal

theorem onMessage_sameSessions {e : Engine (SecureTransport S)} (he : n.engine = e) (msg : Message) :
    e.SameSessions (n.onMessage blake3 a msg).node.engine := by
  subst he
  exact (Engine.handleMessage_frame blake3 a.nowMs a.fromAddr msg).sameSessions.trans
    (Engine.sameSessions_transmit _ _)

theorem onData_sameSessions (peerId : PeerId) :
    n.engine.SameSessions (n.onData blake3 a peerId).node.engine := by
  unfold onData
  cases hl : n.engine.sessions.lookup peerId with
  | none => exact .refl _
  | some session =>
      have ht := session.transport.decryptInto_state a.data n.plainBuf
      dsimp only
      split <;> rename_i hd <;> rw [hd] at ht <;> dsimp only at ht
      · exact Engine.sameSessions_setTransport hl ht
      · have hset := Engine.sameSessions_setTransport hl ht
        split
        · refine hset.trans ?_
          apply onMessage_sameSessions
          rfl
        · exact hset

theorem onData_sameTasks (peerId : PeerId) : n.SameTasks (n.onData blake3 a peerId).node := by
  unfold onData
  split
  · exact ⟨rfl, rfl, rfl, rfl, rfl, rfl, rfl, rfl, rfl⟩
  · split
    · exact ⟨rfl, rfl, rfl, rfl, rfl, rfl, rfl, rfl, rfl⟩
    · dsimp only
      split <;> exact ⟨rfl, rfl, rfl, rfl, rfl, rfl, rfl, rfl, rfl⟩

/-! ### Which branch a datagram takes -/

variable {blake3} {n} {a}

theorem lookup_retainResponders (now : ℕ) (sa : SocketAddr) :
    (n.retainResponders now).pendingResponders.lookup sa =
      (n.pendingResponders.lookup sa).filter fun r => decide (now - r.2 < handshakeTimeout) :=
  Map.lookup_retain ..

theorem receive_holePunch (h : startsWith a.data holePunchProbePrefix = true) :
    n.receive blake3 a = (n.retainResponders a.now).onHolePunch a := by
  simp only [receive, h, if_true]

section

variable (hpunch : startsWith a.data holePunchProbePrefix = false)
include hpunch

theorem receive_messageB {id : ℕ} (h : n.pendingInitiator a = some id) :
    n.receive blake3 a =
      { node := { n.retainResponders a.now with
          pending := n.pending.erase a.fromAddr.socketAddr
          inbound := .dispatch id a.data } } := by
  have h' : (n.retainResponders a.now).pendingInitiator a = some id := h
  simp only [receive, hpunch, h', Bool.false_eq_true, if_false]
  rfl

variable (hpending : n.pendingInitiator a = none)
include hpending

theorem receive_messageC {responder : ResponderHandshake S} {created : ℕ}
    (h : n.pendingResponders.lookup a.fromAddr.socketAddr = some (responder, created))
    (hnow : a.now - created < handshakeTimeout) :
    n.receive blake3 a = (n.retainResponders a.now).onMessageC a responder := by
  have hpending' : (n.retainResponders a.now).pendingInitiator a = none := hpending
  have hlookup : (n.retainResponders a.now).pendingResponders.lookup a.fromAddr.socketAddr =
      some (responder, created) := by
    simp [lookup_retainResponders, h, Option.filter, hnow]
  simp only [receive, hpunch, hpending', hlookup, Bool.false_eq_true, if_false]

variable (hresponder : (n.retainResponders a.now).pendingResponders.lookup a.fromAddr.socketAddr = none)
include hresponder

theorem receive_data {peerId : PeerId} (h : n.engine.addrIndex.lookup a.fromAddr = some peerId) :
    n.receive blake3 a = (n.retainResponders a.now).onData blake3 a peerId := by
  have hpending' : (n.retainResponders a.now).pendingInitiator a = none := hpending
  have h' : (n.retainResponders a.now).engine.addrIndex.lookup a.fromAddr = some peerId := h
  simp only [receive, hpunch, hpending', hresponder, h', Bool.false_eq_true, if_false]

theorem receive_messageA (h : n.engine.addrIndex.lookup a.fromAddr = none)
    (hinit : startsWith a.data noiseHandshakeInitiatorPrefix = true) :
    n.receive blake3 a = (n.retainResponders a.now).onMessageA a := by
  have hpending' : (n.retainResponders a.now).pendingInitiator a = none := hpending
  have h' : (n.retainResponders a.now).engine.addrIndex.lookup a.fromAddr = none := h
  simp only [receive, hpunch, hpending', hresponder, h', hinit, Bool.false_eq_true, if_false, if_true]

end

/-! ### What a receive can do -/

/-- The outcomes of a receive, for the node `n` whose old responders are gone. -/
inductive Received (blake3 : Blake3) (n : Node S) (a : Arrival S) : Outcome S → Prop
  | punched (out : List (Datagram S)) (hpre : startsWith a.data holePunchProbePrefix = true) :
      Received blake3 n a { node := n, out := out }
  | dispatched (id : ℕ) (hpending : n.pendingInitiator a = some id) :
      Received blake3 n a
        { node := { n with pending := n.pending.erase a.fromAddr.socketAddr, inbound := .dispatch id a.data } }
  | accepted (responder : ResponderHandshake S) (created : ℕ) (result : HandshakeResult S)
      (hpunch : startsWith a.data holePunchProbePrefix = false)
      (hresponder : n.pendingResponders.lookup a.fromAddr.socketAddr = some (responder, created))
      (hfinish : responder.finish a.data = .ok result) :
      Received blake3 n a
        { node := { n with
            pendingResponders := n.pendingResponders.erase a.fromAddr.socketAddr
            inbound := .complete
              { initiator := false
                peerId := .fromBytes result.transport.remoteStaticKey
                underlay := a.fromAddr
                transport := result.transport } } }
  | rejected (responder : ResponderHandshake S) (created : ℕ) (err : Error)
      (hresponder : n.pendingResponders.lookup a.fromAddr.socketAddr = some (responder, created))
      (hfinish : responder.finish a.data = .error err) :
      Received blake3 n a
        { node := { n with pendingResponders := n.pendingResponders.erase a.fromAddr.socketAddr } }
  | data (peerId : PeerId) (hindex : n.engine.addrIndex.lookup a.fromAddr = some peerId) :
      Received blake3 n a (n.onData blake3 a peerId)
  | answered (msgB : Bytes) (responder : ResponderHandshake S)
      (hanswer : n.answer a (a.data.drop noiseHandshakeInitiatorPrefix.length) = .ok (msgB, responder)) :
      Received blake3 n a
        { node := { n with
            pendingResponders := n.pendingResponders.insert a.fromAddr.socketAddr (responder, a.now) }
          out := [{ dst := a.fromAddr, bytes := noiseHandshakeResponderPrefix ++ msgB, origin := .messageB }] }
  | ignored : Received blake3 n a { node := n }

theorem received (blake3 : Blake3) (n : Node S) (a : Arrival S) :
    Received blake3 (n.retainResponders a.now) a (n.receive blake3 a) := by
  unfold receive
  dsimp only
  split
  · next hpre =>
      unfold onHolePunch
      split <;> exact .punched _ hpre
  · next hpre =>
      have hpunch := Bool.eq_false_iff.mpr hpre
      split
      · next id hpending => exact .dispatched id hpending
      · split
        · next responder created hresponder =>
            unfold onMessageC
            dsimp only
            split
            · next result hfin => exact .accepted responder created result hpunch hresponder hfin
            · next err hfin => exact .rejected responder created err hresponder hfin
        · split
          · next peerId hindex => exact .data peerId hindex
          · split
            · unfold onMessageA
              split
              · next msgB responder hans => exact .answered msgB responder hans
              · exact .ignored
            · exact .ignored

end Node

end SeedNet
