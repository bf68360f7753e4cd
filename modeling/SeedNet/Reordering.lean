import SeedNet.Completing
import SeedNet.Run
import SeedNet.TransparentHandshake
import SeedNet.TwoNodes

/-! # One handshake over a network that reorders

The node `false` makes one attempt to reach the node `true`.  `Net.Undisturbed` are the steps of such
an attempt: the steps of the initiator's task, of both inbound loops, and the arrival of any datagram
in flight, in any order; nothing is lost, duplicated or forged, and nothing times out.

The initiator sends message C and its `SessionInit` back to back, and stores its session after message C
is sent.  So the attempt fails if a datagram overtakes message C, and a `SessionInit` is lost on
a node that has not written its index entry yet.  `Net.Ordered` excludes just that, and
`Net.Established` is what the attempt is for.

`Phase` lists the states of an attempt, and `Progress` what a step can do to them. -/

namespace SeedNet

open Function (update)
open Run (exec Along)
open Snow (SameHandshake WroteA Answered)

variable {S : Snow}

/-! ### The attempt -/

/-- The datagram looks like one that is not encrypted. -/
def hasWirePrefix (data : Bytes) : Bool :=
  startsWith data holePunchProbePrefix || startsWith data noiseHandshakeInitiatorPrefix ||
    startsWith data noiseHandshakeResponderPrefix

def Origin.isEncrypted : Origin S → Bool
  | .encrypted .. => true
  | _ => false

def Origin.isSessionInit : Origin S → Bool
  | .encrypted _ _ (.sessionInit ..) => true
  | _ => false

def AttemptStage.isWaitB : AttemptStage S → Bool
  | .waitB => true
  | _ => false

/-- A node that has nothing to do with the address `other` yet. -/
structure Node.Ready (publicKey : Bytes32 → Bytes32) (networkSecret : Bytes32) (other : SocketAddr) (n : Node S) :
    Prop where
  secret_eq : n.networkSecret = networkSecret
  publicKey_eq : n.deviceKeys.x25519PublicKey = publicKey n.deviceKeys.x25519StaticSecret
  ourPeerId_eq : n.engine.ourPeerId = n.deviceKeys.peerId
  inbound : n.inbound = .idle
  pendingResponders : n.pendingResponders.lookup other = none
  addrIndex : n.engine.addrIndex.lookup (.udp other) = none
  /-- our `SessionInit` fits into one datagram and loses nothing on the wire -/
  fits : (serializeMessage n.engine.sessionInit).length + 16 ≤ maxMessageLen
  encodable : n.engine.sessionInit.Encodable

namespace Net

structure Ready (publicKey : Bytes32 → Bytes32) (networkSecret : Bytes32) (addr : Bool → SocketAddr) (s : Net S) :
    Prop where
  node : ∀ x, (s.node x).Ready publicKey networkSecret (addr (!x))
  /-- no other task of the initiator waits for message B from there -/
  pending : (s.node false).pending.lookup (addr true) = none
  room : ∀ x, (serializeMessage (s.node x).engine.sessionInit).length ≤ (s.node (!x)).plainBuf.length
  inFlight : s.inFlight = []
  handled : s.handled = []

/-- The node `false` starts its attempt. -/
def attempting (blake3 : Blake3) (addr : Bool → SocketAddr) (s₀ : Net S) (rng : S.Rng) : Net S :=
  s₀.next blake3 addr (.node false (.start (addr true) rng))

/-- The steps of the attempt: the task `id` of the node `false`, started at `start`, the two inbound loops, and
the network between the nodes, which reorders. -/
def Undisturbed (addr : Bool → SocketAddr) (id start : ℕ) (s : Net S) : Net.Action S → Prop
  | .node false (.attempt i sent _) => i = id ∧ sent = true
  | .node _ .inbound => True
  | .deliver k now _ _ copy => copy = false ∧ start ≤ now ∧ now < start + handshakeTimeout ∧
      ∀ p ∈ s.inFlight[k]?, receiver addr p.2.dst ≠ some p.1
  | _ => False

/-- The session of the sender takes the nonce of the datagram. -/
def Takes (n : Node S) (d : Datagram S) (p : PeerId) : Prop :=
  ∃ session ∈ n.engine.sessions.lookup p,
    session.transport.nonceWindow.fresh (SecureTransport.datagramNonce d.bytes) = true

/-- The datagram `d` from the address `src` does not come too early for the node `n`. -/
structure InOrder (n : Node S) (src : SocketAddr) (d : Datagram S) : Prop where
  /-- while a responder waits for message C, nothing else arrives -/
  responder : (n.pendingResponders.lookup src).isSome → d.origin.isMessageC
  /-- a `SessionInit` finds the session, and the window takes its nonce -/
  sessionInit : d.origin.isSessionInit → ∃ p ∈ n.engine.addrIndex.lookup (.udp src), Takes n d p
  /-- neither message C nor a nonce looks like a wire prefix -/
  unprefixed : d.origin.isMessageC ∨ d.origin.isEncrypted → hasWirePrefix d.bytes = false

/-- The datagram `p` arrives in order, if it arrives. -/
def ArrivesInOrder (addr : Bool → SocketAddr) (s : Net S) (p : Bool × Datagram S) : Prop :=
  ∀ y ∈ receiver addr p.2.dst, (s.node y).inbound = .idle → InOrder (s.node y) (addr p.1) p.2

def Ordered (addr : Bool → SocketAddr) (s : Net S) : Net.Action S → Prop
  | .deliver k _ _ _ _ => ∀ p ∈ s.inFlight[k]?, ArrivesInOrder addr s p
  | _ => True

/-- Every datagram for the other node has arrived, both inbound loops wait for the next one, and the task of
the attempt, if it is not done, waits for a message B that is not there. -/
structure Finished (addr : Bool → SocketAddr) (id : ℕ) (s : Net S) : Prop where
  inFlight : ∀ p ∈ s.inFlight, receiver addr p.2.dst ≠ some (!p.1)
  attempt : ∀ attempt ∈ (s.node false).attempts.lookup id, attempt.stage.isWaitB ∧ attempt.inbox = none
  inbound : ∀ x, (s.node x).inbound = .idle

/-! The conditions can be computed. -/

instance (addr : Bool → SocketAddr) (id start : ℕ) (s : Net S) : DecidablePred (Undisturbed addr id start s)
  | .node false (.attempt i sent _) => inferInstanceAs (Decidable (i = id ∧ sent = true))
  | .node true (.attempt ..) => isFalse not_false
  | .node x .inbound => by cases x <;> exact isTrue trivial
  | .node x (.receive _) | .node x (.start ..) | .node x (.timeout _) | .node x (.discover _) | .node x .discovery
  | .node x (.removed _) | .node x .removal | .node x (.broadcast _) => by cases x <;> exact isFalse not_false
  | .deliver k now _ _ copy =>
    inferInstanceAs (Decidable (copy = false ∧ start ≤ now ∧ now < start + handshakeTimeout ∧
      ∀ p ∈ s.inFlight[k]?, receiver addr p.2.dst ≠ some p.1))
  | .lose _ => isFalse not_false

instance (n : Node S) (d : Datagram S) (p : PeerId) : Decidable (Takes n d p) :=
  Option.decidableExistsMem
    (p := fun session : PeerSession (SecureTransport S) =>
      session.transport.nonceWindow.fresh (SecureTransport.datagramNonce d.bytes) = true) _

instance (n : Node S) (src : SocketAddr) (d : Datagram S) : Decidable (InOrder n src d) :=
  haveI : Decidable (∃ p ∈ n.engine.addrIndex.lookup (.udp src), Takes n d p) :=
    Option.decidableExistsMem (p := Takes n d) _
  decidable_of_iff (((n.pendingResponders.lookup src).isSome → d.origin.isMessageC) ∧
      (d.origin.isSessionInit → ∃ p ∈ n.engine.addrIndex.lookup (.udp src), Takes n d p) ∧
      (d.origin.isMessageC ∨ d.origin.isEncrypted → hasWirePrefix d.bytes = false))
    ⟨fun h => ⟨h.1, h.2.1, h.2.2⟩, fun h => ⟨h.responder, h.sessionInit, h.unprefixed⟩⟩

instance (addr : Bool → SocketAddr) (s : Net S) (p : Bool × Datagram S) : Decidable (ArrivesInOrder addr s p) :=
  Option.decidableForallMem (p := fun y => (s.node y).inbound = .idle → InOrder (s.node y) (addr p.1) p.2) _

instance (addr : Bool → SocketAddr) (s : Net S) : DecidablePred (Ordered addr s)
  | .deliver k _ _ _ _ => Option.decidableForallMem (p := ArrivesInOrder addr s) s.inFlight[k]?
  | .node .. | .lose _ => isTrue trivial

instance (addr : Bool → SocketAddr) (id : ℕ) (s : Net S) : Decidable (Finished addr id s) :=
  haveI : Decidable (∀ attempt ∈ (s.node false).attempts.lookup id, attempt.stage.isWaitB ∧ attempt.inbox = none) :=
    Option.decidableForallMem (p := fun attempt : Attempt S => attempt.stage.isWaitB ∧ attempt.inbox = none) _
  decidable_of_iff ((∀ p ∈ s.inFlight, receiver addr p.2.dst ≠ some (!p.1)) ∧
      (∀ attempt ∈ (s.node false).attempts.lookup id, attempt.stage.isWaitB ∧ attempt.inbox = none) ∧
      ∀ x, (s.node x).inbound = .idle)
    ⟨fun h => ⟨h.1, h.2.1, h.2.2⟩, fun h => ⟨h.inFlight, h.attempt, h.inbound⟩⟩

/-- Both nodes have a session, the two are the two ends of one handshake, each node lists the other one under
its address, and each has handled the other's `SessionInit`. -/
structure Established (networkSecret : Bytes32) (addr : Bool → SocketAddr) (s₀ s : Net S) : Prop where
  sessions : ∃ a b, (s.node false).engine.sessions.lookup (s₀.node true).engine.ourPeerId = some a ∧
    (s.node true).engine.sessions.lookup (s₀.node false).engine.ourPeerId = some b ∧
    a.underlay = .udp (addr true) ∧ b.underlay = .udp (addr false) ∧
    SameHandshake networkSecret (s₀.node false).deviceKeys.x25519StaticSecret
      (s₀.node true).deviceKeys.x25519StaticSecret a.transport.state b.transport.state ∧
    a.transport.Decrypts b.transport ∧ b.transport.Decrypts a.transport
  addrIndex : ∀ x, (s.node x).engine.addrIndex.lookup (.udp (addr (!x))) = some (s₀.node (!x)).engine.ourPeerId
  sessionInit : ∀ x, (x, (s₀.node (!x)).engine.sessionInit) ∈ s.handled

end Net

/-! ### What stays the same -/

/-- What does not change during an attempt. -/
structure Setting where
  networkSecret : Bytes32
  publicKey : Bytes32 → Bytes32
  key : Bool → Bytes32
  addr : Bool → SocketAddr
  /-- the number of the initiator's task -/
  id : ℕ
  /-- when the attempt starts -/
  start : ℕ
  sessionInit : Bool → Message
  addr_ne : addr false ≠ addr true
  peer_ne : PeerId.fromBytes (publicKey (key false)) ≠ .fromBytes (publicKey (key true))
  fits : ∀ x, (serializeMessage (sessionInit x)).length + 16 ≤ maxMessageLen
  encodable : ∀ x, (sessionInit x).Encodable
  isSessionInit : ∀ x, ∃ overlay ipv6 hostname addr, sessionInit x = .sessionInit overlay ipv6 hostname addr

def Setting.peer (c : Setting) (x : Bool) : PeerId := .fromBytes (c.publicKey (c.key x))

/-- The node `n` is the node `x` of the setting. -/
structure Node.Fits (c : Setting) (x : Bool) (n : Node S) : Prop where
  secret : n.networkSecret = c.networkSecret
  key : n.deviceKeys.x25519StaticSecret = c.key x
  ourPeerId : n.engine.ourPeerId = c.peer x
  sessionInit : n.engine.sessionInit = c.sessionInit x
  room : (serializeMessage (c.sessionInit (!x))).length ≤ n.plainBuf.length

theorem Node.Fits.next {blake3 : Blake3} {c : Setting} {x : Bool} {n : Node S} (h : n.Fits c x) (b : NodeAction S) :
    (n.next blake3 b).Fits c x := by
  obtain ⟨hs, hk⟩ := next_keys blake3 n b
  obtain ⟨hid, hinit⟩ := next_identity blake3 n b
  exact ⟨hs.trans h.secret, hk ▸ h.key, hid.trans h.ourPeerId, hinit.trans h.sessionInit,
    h.room.trans (length_le_next b)⟩

/-- Every action keeps the two nodes what the setting says they are. -/
theorem Net.fits_next {blake3 : Blake3} {c : Setting} {addr : Bool → SocketAddr} {s : Net S}
    (h : ∀ x, (s.node x).Fits c x) (a : Net.Action S) (x : Bool) : ((s.next blake3 addr a).node x).Fits c x := by
  cases moves blake3 addr s a with
  | still hnode hflight => exact hnode ▸ h x
  | own y b ha hb hnode hflight =>
      rw [hnode]
      exact (Function.forall_update_iff s.node fun x n => n.Fits c x).mpr ⟨(h y).next b, fun z _ => h z⟩ x
  | receives y z d arr hin hdata hnode hflight =>
      rw [hnode]
      exact (Function.forall_update_iff s.node fun x n => n.Fits c x).mpr ⟨(h y).next _, fun w _ => h w⟩ x

/-! ### The states of an attempt -/

/-- The node of the initiator while its task waits, at `stage`, for message B. -/
structure Node.Waits (c : Setting) (n : Node S) (i : InitiatorHandshake S) (inbox : Option Bytes)
    (stage : AttemptStage S) : Prop where
  task : n.attempts.lookup c.id = some { addr := c.addr true, handshake := i, inbox := inbox, stage := stage }
  addrIndex : n.engine.addrIndex.lookup (.udp (c.addr true)) = none
  responder : n.pendingResponders.lookup (c.addr true) = none

/-- The node of the responder before message A. -/
structure Node.Unasked (c : Setting) (n : Node S) : Prop where
  inbound : n.inbound = .idle
  addrIndex : n.engine.addrIndex.lookup (.udp (c.addr false)) = none
  responder : n.pendingResponders.lookup (c.addr false) = none

/-- The node of the responder while `r` waits for message C. -/
structure Node.Answers (c : Setting) (n : Node S) (r : ResponderHandshake S) : Prop where
  inbound : n.inbound = .idle
  addrIndex : n.engine.addrIndex.lookup (.udp (c.addr false)) = none
  responder : ∃ created, n.pendingResponders.lookup (c.addr false) = some (r, created) ∧ c.start ≤ created

namespace Net

variable {blake3 : Blake3} {c : Setting} {s s' : Net S}

/-- The `SessionInit` of the node `x` is in flight, sealed by the transport `t`, or it has been handled. -/
def Sent (c : Setting) (s : Net S) (x : Bool) (t : S.StatelessTransportState) : Prop :=
  (∃ d nonce, (x, d) ∈ s.inFlight ∧ d.dst = .udp (c.addr (!x)) ∧ d.origin = .encrypted t nonce (c.sessionInit x) ∧
    d.Sealed t nonce (c.sessionInit x)) ∨ (!x, c.sessionInit x) ∈ s.handled

/-- What the node `x` has done after the handshake when `stage` is next. -/
structure Side (c : Setting) (s : Net S) (x : Bool) (t : S.StatelessTransportState) (stage : Option Stage) : Prop where
  reached : (s.node x).engine.Reached (c.peer (!x)) (.udp (c.addr (!x))) t stage
  sent : 5 ≤ progress stage → s.Sent c x t

/-- A completion of the attempt on the node `x`. -/
structure Completes (c : Setting) (x : Bool) (t : S.StatelessTransportState) (comp : Completion S) : Prop where
  peerId : comp.peerId = c.peer (!x)
  underlay : comp.underlay = .udp (c.addr (!x))
  state : comp.transport.state = t

/-- The initiator has sent message C. -/
structure Initiated (c : Setting) (s : Net S) (t : S.StatelessTransportState) (stage : Option Stage) : Prop where
  task : (c.id ∉ (s.node false).attempts ∧ stage = none) ∨
    ∃ comp, (s.node false).completion (some c.id) = some comp ∧ Completes c false t comp ∧ stage = some comp.stage
  inbound : (s.node false).inbound = .idle
  responder : (s.node false).pendingResponders.lookup (c.addr true) = none
  side : s.Side c false t stage

/-- The responder has accepted message C. -/
structure Responded (c : Setting) (s : Net S) (t : S.StatelessTransportState) (stage : Option Stage) : Prop where
  task : ((s.node true).inbound = .idle ∧ stage = none) ∨
    ∃ comp, (s.node true).inbound = .complete comp ∧ Completes c true t comp ∧ stage = some comp.stage
  responder : (s.node true).pendingResponders.lookup (c.addr false) = none
  side : s.Side c true t stage

/-- The datagrams in flight after message C, `msgC`, was sent. -/
structure Traffic (s : Net S) (msgC : Bytes) : Prop where
  initiator : ∀ d, (false, d) ∈ s.inFlight → d.origin.isEncrypted ∨ d.origin.isMessageC ∧ d.bytes = msgC
  responder : ∀ d, (true, d) ∈ s.inFlight → d.origin.isEncrypted

/-- The states of an attempt, in their order. -/
inductive Phase (c : Setting) (s : Net S) : Prop
  | asking (i : InitiatorHandshake S) (msgA : Bytes) (hA : WroteA c.networkSecret (c.key false) i.state msgA)
      (hI : (s.node false).Waits c i none (.sendA (noiseHandshakeInitiatorPrefix ++ msgA)))
      (hpending : (s.node false).pending.lookup (c.addr true) = some c.id) (hidle : (s.node false).inbound = .idle)
      (hR : (s.node true).Unasked c) (hflight : s.inFlight = [])
  | asked (i : InitiatorHandshake S) (msgA : Bytes) (hA : WroteA c.networkSecret (c.key false) i.state msgA)
      (hI : (s.node false).Waits c i none .waitB)
      (hpending : (s.node false).pending.lookup (c.addr true) = some c.id) (hidle : (s.node false).inbound = .idle)
      (hR : (s.node true).Unasked c)
      (hflight : s.inFlight = [(false,
        { dst := .udp (c.addr true), bytes := noiseHandshakeInitiatorPrefix ++ msgA, origin := .messageA })])
  | answered (i : InitiatorHandshake S) (msgA : Bytes) (hA : WroteA c.networkSecret (c.key false) i.state msgA)
      (r : ResponderHandshake S) (msgB : Bytes) (hB : Answered c.networkSecret (c.key true) msgA r.state msgB)
      (hI : (s.node false).Waits c i none .waitB)
      (hpending : (s.node false).pending.lookup (c.addr true) = some c.id) (hidle : (s.node false).inbound = .idle)
      (hR : (s.node true).Answers c r)
      (hflight : s.inFlight = [(true,
        { dst := .udp (c.addr false), bytes := noiseHandshakeResponderPrefix ++ msgB, origin := .messageB })])
  | dispatched (i : InitiatorHandshake S) (msgA : Bytes) (hA : WroteA c.networkSecret (c.key false) i.state msgA)
      (r : ResponderHandshake S) (msgB : Bytes) (hB : Answered c.networkSecret (c.key true) msgA r.state msgB)
      (hI : (s.node false).Waits c i none .waitB)
      (hin : (s.node false).inbound = .dispatch c.id (noiseHandshakeResponderPrefix ++ msgB))
      (hR : (s.node true).Answers c r) (hflight : s.inFlight = [])
  | delivered (i : InitiatorHandshake S) (msgA : Bytes) (hA : WroteA c.networkSecret (c.key false) i.state msgA)
      (r : ResponderHandshake S) (msgB : Bytes) (hB : Answered c.networkSecret (c.key true) msgA r.state msgB)
      (hI : (s.node false).Waits c i (some (noiseHandshakeResponderPrefix ++ msgB)) .waitB)
      (hidle : (s.node false).inbound = .idle) (hR : (s.node true).Answers c r) (hflight : s.inFlight = [])
  | sent (r : ResponderHandshake S) (msgC : Bytes) (ti tr : SecureTransport S)
      (hm : Matched c.publicKey c.networkSecret (c.key false) (c.key true) r msgC ti tr) (stage : Option Stage)
      (hI : s.Initiated c ti.state stage) (hR : (s.node true).Answers c r)
      (hC : ∃ d, (false, d) ∈ s.inFlight ∧ d.dst = .udp (c.addr true) ∧ d.origin.isMessageC)
      (hflight : s.Traffic msgC)
  | accepted (r : ResponderHandshake S) (msgC : Bytes) (ti tr : SecureTransport S)
      (hm : Matched c.publicKey c.networkSecret (c.key false) (c.key true) r msgC ti tr) (stage stage' : Option Stage)
      (hI : s.Initiated c ti.state stage) (hR : s.Responded c tr.state stage') (hflight : s.Traffic msgC)

/-! ### How a step changes them -/

theorem after_self (x : Bool) : s.after x { node := s.node x } = s := by
  simp only [after, Function.update_eq_self, List.map_nil, List.append_nil, Option.toList_none, List.nil_append]

@[simp] theorem after_node_self (x : Bool) (o : Outcome S) : (s.after x o).node x = o.node := Function.update_self ..

@[simp] theorem after_node_not (x : Bool) (o : Outcome S) : (s.after x o).node (!x) = s.node (!x) :=
  Function.update_of_ne (Bool.self_ne_not x).symm ..

/-- What a step of an undisturbed attempt does, if it does anything. -/
inductive Progress (blake3 : Blake3) (c : Setting) (s s' : Net S) : Prop
  | still (h : s' = s)
  | attempt (token : UInt64) (h : s' = s.after false ((s.node false).attemptStep blake3 c.id true token))
  | inbound (x : Bool) (hbusy : (s.node x).inbound ≠ .idle) (h : s' = s.after x ((s.node x).inboundStep blake3))
  | arrives (k : ℕ) (x : Bool) (d : Datagram S) (a : Arrival S) (hk : s.inFlight[k]? = some (x, d))
      (hidle : (s.node (!x)).inbound = .idle) (horder : InOrder (s.node (!x)) (c.addr x) d)
      (hfrom : a.fromAddr = .udp (c.addr x)) (hdata : a.data = d.bytes) (hstart : c.start ≤ a.now)
      (hnow : a.now < c.start + handshakeTimeout)
      (h : s' = (s.lose k).after (!x) ((s.node (!x)).receive blake3 a))

theorem progresses {a : Net.Action S} (hu : Undisturbed c.addr c.id c.start s a) (hok : Ordered c.addr s a) :
    Progress blake3 c s (s.next blake3 c.addr a) := by
  cases a with
  | lose k => exact hu.elim
  | deliver k now nowMs rng copy =>
      obtain ⟨rfl, hstart, hnow, hself⟩ := hu
      simp only [Net.next, deliver]
      cases hk : s.inFlight[k]? with
      | none => exact .still rfl
      | some p =>
          obtain ⟨x, d⟩ := p
          have hne := hself _ hk
          dsimp only
          cases hrecv : receiver c.addr d.dst with
          | none => exact .still rfl
          | some y =>
              rw [hrecv] at hne
              obtain rfl : y = !x := (Bool.eq_or_eq_not y x).resolve_left fun h => hne (congrArg some h)
              dsimp only
              cases hidle : (s.node (!x)).inbound with
              | dispatch | complete => exact .still rfl
              | idle =>
                  exact .arrives k x d _ hk hidle (hok _ hk _ hrecv hidle) rfl rfl hstart hnow rfl
  | node x b =>
      cases b with
      | inbound =>
          by_cases hidle : (s.node x).inbound = .idle
          · refine .still ?_
            simp only [Net.next, Node.step, Node.inboundStep, hidle, after_self]
          · exact .inbound x hidle rfl
      | attempt id sent token =>
          cases x with
          | true => exact hu.elim
          | false =>
              obtain ⟨rfl, rfl⟩ := hu
              exact .attempt token rfl
      | _ => cases x <;> exact hu.elim

theorem mem_lose_or {k : ℕ} {p : Bool × Datagram S} (h : p ∈ s.inFlight) :
    p ∈ (s.lose k).inFlight ∨ s.inFlight[k]? = some p := by
  obtain ⟨j, hj⟩ := List.mem_iff_getElem?.mp h
  by_cases hjk : j = k
  · subst hjk
    exact .inr hj
  · exact .inl (List.mem_eraseIdx_iff_getElem?.mpr ⟨j, hjk, hj⟩)

theorem Sent.after {x z : Bool} {t : S.StatelessTransportState} (h : s.Sent c z t) (o : Outcome S) :
    (s.after x o).Sent c z t := by
  rcases h with ⟨d, nonce, hin, hd⟩ | hhandled
  · exact .inl ⟨d, nonce, mem_after.mpr (.inl hin), hd⟩
  · exact .inr (List.mem_append_right _ hhandled)

/-- A `SessionInit` that arrives is handled, or else it is still in flight. -/
theorem Sent.deliver {k : ℕ} {x z : Bool} {d : Datagram S} {t : S.StatelessTransportState} {o : Outcome S}
    (h : s.Sent c z t) (hk : s.inFlight[k]? = some (x, d))
    (hhandled : x = z → ∀ nonce, d.origin = .encrypted t nonce (c.sessionInit z) →
      d.Sealed t nonce (c.sessionInit z) → o.handled = some (c.sessionInit z)) :
    ((s.lose k).after (!x) o).Sent c z t := by
  rcases h with ⟨d', nonce, hin, hdst, ho, hsealed⟩ | hold
  · rcases mem_lose_or hin with hlose | hnow
    · exact .inl ⟨d', nonce, mem_after.mpr (.inl hlose), hdst, ho, hsealed⟩
    · obtain ⟨rfl, rfl⟩ := Prod.mk.inj (Option.some.inj (hk.symm.trans hnow))
      right
      simp only [Net.after, hhandled rfl nonce ho hsealed, Option.toList_some, List.map_cons, List.mem_append,
        List.mem_cons, true_or]
  · exact .inr (List.mem_append_right _ hold)

theorem Side.of_same {z : Bool} {t : S.StatelessTransportState} {stage : Option Stage} (h : s.Side c z t stage)
    (hs : (s.node z).engine.SameSessions (s'.node z).engine) (hsent : s.Sent c z t → s'.Sent c z t) :
    s'.Side c z t stage :=
  ⟨h.reached.of_same hs id Iff.rfl, fun hp => hsent (h.sent hp)⟩

end Net

end SeedNet
