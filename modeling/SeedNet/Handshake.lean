import SeedNet.Node

/-! # The initiator task

`do_initiator_handshake` (`crates/core/src/handshake.rs`) as a task of a node.  `Node.start` runs it
up to its entry in `pending`; nothing before that reads shared state.  `Node.attemptStep` performs
the next step of a task, with the outcome `sent` of a `send_to` whose failure the source handles,
and `Node.timeout` ends the wait for message B, which the source races against the channel: a
message in the channel wins. -/

namespace SeedNet

variable {S : Snow}

/-- What a task makes of the datagram in its inbox: message C and the transport. -/
def Attempt.answer (attempt : Attempt S) (msgBTagged : Bytes) : Except Error (HandshakeResult S) := do
  if !startsWith msgBTagged noiseHandshakeResponderPrefix then
    throw (.noiseHandshake "msg B has wrong prefix")
  let (_, handshake) ← attempt.handshake.readMessageB (msgBTagged.drop noiseHandshakeResponderPrefix.length)
  handshake.finish []

namespace Node

variable (blake3 : Blake3) (n : Node S)

/-- A new initiator and message A. -/
def initiate (rng : S.Rng) : Except Error (Bytes × InitiatorHandshake S) := do
  let initiator ← InitiatorHandshake.new n.networkSecret n.deviceKeys rng
  initiator.writeMessageA []

/-- A task for `addr` starts: it gives up if another one waits for message B from there. -/
def start (addr : SocketAddr) (rng : S.Rng) : Outcome S :=
  match n.initiate rng with
  | .error _ => { node := n }
  | .ok (msgA, handshake) =>
    if addr ∈ n.pending then { node := n }
    else
      { node := { n with
          pending := n.pending.insert addr n.nextAttempt
          attempts := n.attempts.insert n.nextAttempt
            { addr := addr
              handshake := handshake
              stage := .sendA (noiseHandshakeInitiatorPrefix ++ msgA) }
          nextAttempt := n.nextAttempt + 1
          attempts_lt := fun i hi => by
            rcases (AList.mem_insert _).mp hi with rfl | h
            · exact Nat.lt_succ_self _
            · exact Nat.lt_succ_of_lt (n.attempts_lt i h) } }

/-- Task `id` ends. -/
def endAttempt (id : ℕ) : Node S :=
  { n with
    attempts := n.attempts.erase id
    attempts_lt := fun i hi => n.attempts_lt i (AList.mem_erase.mp hi).2 }

/-- Task `id` is at `stage` next. -/
def setStage (id : ℕ) (attempt : Attempt S) (stage : AttemptStage S) : Node S :=
  { n with
    attempts := n.attempts.replace id { attempt with stage := stage }
    attempts_lt := fun i hi => n.attempts_lt i (AList.mem_replace.mp hi) }

/-- The sender of task `id` was dropped without a message. -/
def channelDropped (id : ℕ) (attempt : Attempt S) : Bool :=
  n.pending.lookup attempt.addr ≠ some id &&
    match n.inbound with
    | .dispatch id' _ => id' ≠ id
    | _ => true

/-- The task took `msgBTagged` from its channel. -/
def onMessageB (id : ℕ) (attempt : Attempt S) (msgBTagged : Bytes) (sent : Bool) : Outcome S :=
  match attempt.answer msgBTagged with
  | .error _ => { node := n.endAttempt id }
  | .ok result =>
    if !sent then { node := n.endAttempt id }
    else
      let peerId := PeerId.fromBytes result.transport.remoteStaticKey
      let out : List (Datagram S) :=
        [{ dst := .udp attempt.addr
           bytes := result.msgBytes
           origin := .messageC result.transport }]
      if peerId = n.engine.ourPeerId then { node := n.endAttempt id, out := out }
      else
        { node := n.setStage id attempt (.complete
            { initiator := true
              peerId := peerId
              underlay := .udp attempt.addr
              transport := result.transport })
          out := out }

/-- The address a hole punch is tried at after a timeout: where the peer that was last seen at
`addr` says it is. -/
def punchTarget (addr : SocketAddr) : Option SocketAddr :=
  match n.engine.addrIndex.lookup (.udp addr) with
  | none => none
  | some pid =>
    match n.engine.peerMgr.get pid with
    | none => none
    | some peer =>
      match peer.publicAddr with
      | none => none
      | some pubAddr => if pubAddr = addr then none else some pubAddr

/-- The next step of task `id`. -/
def attemptStep (id : ℕ) (sent : Bool) (token : UInt64) : Outcome S :=
  match n.attempts.lookup id with
  | none => { node := n }
  | some attempt =>
    match attempt.stage with
    | .sendA taggedA =>
      if sent then
        { node := n.setStage id attempt .waitB
          out := [{ dst := .udp attempt.addr, bytes := taggedA, origin := .messageA }] }
      else { node := n.setStage id attempt .sendFailed }
    | .sendFailed => { node := { n.endAttempt id with pending := n.pending.erase attempt.addr } }
    | .waitB =>
      match attempt.inbox with
      | some msgBTagged => n.onMessageB id attempt msgBTagged sent
      | none => { node := if n.channelDropped id attempt then n.endAttempt id else n }
    | .complete c =>
      let r := c.run blake3 n.engine
      let n := { n with engine := r.1 }
      { node := match c.next with
          | some c => n.setStage id attempt (.complete c)
          | none => n.endAttempt id
        out := r.2 }
    | .timedOut =>
      { node := { n with pending := n.pending.erase attempt.addr }.setStage id attempt .requestRelay }
    | .requestRelay =>
      let sent := n.engine.transmit (n.engine.timeoutRequests attempt.addr)
      { node := { n with engine := sent.1 }.setStage id attempt .holePunch, out := sent.2 }
    | .holePunch =>
      { node := n.endAttempt id
        out := match n.punchTarget attempt.addr with
          | some pubAddr => [punch (.udp pubAddr) (.holePunchProbe token)]
          | none => [] }

/-- Task `id` has waited for message B long enough. -/
def timeout (id : ℕ) : Outcome S :=
  match n.attempts.lookup id with
  | none => { node := n }
  | some attempt =>
    match attempt.stage, attempt.inbox with
    | .waitB, none => { node := n.setStage id attempt .timedOut }
    | _, _ => { node := n }

end Node

end SeedNet
