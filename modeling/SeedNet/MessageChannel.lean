import SeedNet.Frames
import SeedNet.PeersSnapshot

/-! # Message channels

`crates/peer/src/{channel,session,frame}.rs`: a UDP socket that carries framed and encrypted messages, with a Noise
handshake on first contact.

Both roles of a handshake read the socket themselves while they wait for the next message of the other side.
`Reader` says who reads: the loop of `run`, or a call of `initate_handshake`; `waiting` has the handshakes that wait,
under their readers.  A datagram is an action of the reader that gets it, with the randomness for the handshake
it may start and the result of the `send_to` that follows.  The inbound queue takes every message, and what
`run` only traces is left out. -/

namespace SeedNet

/-! ### Frames of datagrams -/

def headerLen : ℕ := 4

def encodeFrame (payload : Bytes) : Bytes := toBeBytes payload.length.toUInt32 ++ payload

def decodeFrame (data : Bytes) : Except Error Bytes :=
  if data.length < headerLen then .error (.noiseTransport s!"frame too short: {data.length} bytes")
  else
    let len := fromBeBytes (data.take headerLen)
    if data.length < headerLen + len then
      .error (.noiseTransport
        s!"frame truncated: expected {len} payload bytes, got {data.length - headerLen}")
    else .ok ((data.drop headerLen).take len)

/-- What follows the frame is ignored. -/
theorem decodeFrame_encodeFrame {payload : Bytes} (h : payload.length < UInt32.size) (extra : Bytes) :
    decodeFrame (encodeFrame payload ++ extra) = .ok payload := by
  have hheader : (toBeBytes payload.length.toUInt32).length = headerLen := length_toBeBytes _
  have hlen : fromBeBytes (toBeBytes payload.length.toUInt32) = payload.length := by
    rw [fromBeBytes_toBeBytes, Nat.toUInt32_eq, UInt32.toNat_ofNat', Nat.mod_eq_of_lt h]
  unfold decodeFrame encodeFrame
  rw [List.append_assoc, List.take_left' hheader, List.drop_left' hheader, hlen]
  simp only [List.length_append, hheader]
  rw [if_neg (by omega), if_neg (by omega), List.take_left]

/-! ### Sessions -/

/-- `Duration::from_secs`, in nanoseconds. -/
def fromSecs (secs : ℕ) : ℕ := secs * 1000000000

def heartbeatIntervalSecs : ℕ := 15

def sessionExpirySecs : ℕ := 60

structure Session where
  lastSeen : ℕ
  heartbeatInterval : ℕ
  expiry : ℕ
deriving DecidableEq

namespace Session

def new (now : ℕ) : Session where
  lastSeen := now
  heartbeatInterval := fromSecs heartbeatIntervalSecs
  expiry := fromSecs sessionExpirySecs

def recordActivity (s : Session) (now : ℕ) : Session := { s with lastSeen := now }

def isExpired (s : Session) (now : ℕ) : Bool := now - s.lastSeen > s.expiry

def shouldSendHeartbeat (s : Session) (now : ℕ) : Bool := now - s.lastSeen ≥ s.heartbeatInterval

end Session

/-! ### The channel -/

def maxDatagram : ℕ := overlayMtu + headerLen + 16 + 64

structure InboundMessage where
  message : Message
  fromAddr : SocketAddr
deriving DecidableEq

structure OutboundMessage where
  message : Message
  toAddr : SocketAddr
deriving DecidableEq

variable {S : Snow}

structure PeerTransport (S : Snow) where
  transport : SecureTransport S
  session : Session

/-- Who reads the socket: the loop of `run`, or call `k` of `initate_handshake` for the address. -/
inductive Reader where
  | run
  | call (addr : SocketAddr) (k : ℕ)
deriving DecidableEq

/-- A handshake that waits for a datagram from the address. -/
inductive Waiting (S : Snow) where
  | msgB (addr : SocketAddr) (initiator : InitiatorHandshake S)
  | msgC (addr : SocketAddr) (responder : ResponderHandshake S)

def Waiting.addr : Waiting S → SocketAddr
  | .msgB addr _ | .msgC addr _ => addr

/-- What the channel does for its peers and its caller. -/
inductive Output where
  | sent (addr : SocketAddr) (datagram : Bytes)
  | handshake (addr : SocketAddr) (result : Except Error PeerId)
  | inbound (msg : InboundMessage)
deriving DecidableEq

/-- The peer it is about. -/
def Output.addr : Output → SocketAddr
  | .sent addr _ | .handshake addr _ => addr
  | .inbound msg => msg.fromAddr

structure MessageChannel (S : Snow) where
  networkSecret : Bytes32
  deviceKeys : DeviceKeys
  transports : Map SocketAddr (PeerTransport S) := ∅
  waiting : Map Reader (Waiting S) := ∅
  /-- the clock that `Instant::now` reads, in nanoseconds -/
  now : ℕ := 0

/-- `socket.send_to(..).await.map_err(..)` -/
def sendTo (what : String) (socket : Except String Unit) : Except Error Unit :=
  socket.mapError fun e => .noiseTransport s!"{what}: {e}"

/-- `socket.recv_from(..).await.map_err(..)` -/
def recvFrom (what : String) (received : Except String (SocketAddr × Bytes)) : Except Error (SocketAddr × Bytes) :=
  received.mapError fun e => .noiseTransport s!"{what}: {e}"

/-- A datagram is cut off at the end of the buffer. -/
def intoBuffer (received : Except String (SocketAddr × Bytes)) : Except String (SocketAddr × Bytes) :=
  received.map fun r => (r.1, r.2.take maxDatagram)

/-- What the handshake makes of the datagram that it gets. -/
def Waiting.resume (received : Except String (SocketAddr × Bytes)) (socket : Except String Unit) :
    Waiting S → Except Error (HandshakeResult S)
  | .msgB addr initiator => do
    let (src, data) ← recvFrom "recv msg B" received
    if src ≠ addr then .error (.noiseTransport "msg B from unexpected address")
    else
      let (_, initiator) ← initiator.readMessageB data
      let initResult ← initiator.finish []
      let _ ← sendTo "send msg C" socket
      return initResult
  | .msgC addr responder => do
    let (src, data) ← recvFrom "recv msg C" received
    if src ≠ addr then .error (.noiseTransport "msg C from unexpected address")
    else responder.finish data

/-- Only the initiator sends a last message. -/
def Waiting.lastMessage (result : HandshakeResult S) : Waiting S → List Output
  | .msgB addr _ => [.sent addr result.msgBytes]
  | .msgC _ _ => []

namespace MessageChannel

/-- Message A of `initate_handshake`. -/
def sendMsgA (c : MessageChannel S) (rng : S.Rng) (socket : Except String Unit) :
    Except Error (Bytes × InitiatorHandshake S) := do
  let initiator ← InitiatorHandshake.new c.networkSecret c.deviceKeys rng
  let (msgA, initiator) ← initiator.writeMessageA []
  let _ ← sendTo "send msg A" socket
  return (msgA, initiator)

/-- Message B of `handle_inbound_datagram`. -/
def sendMsgB (c : MessageChannel S) (data : Bytes) (rng : S.Rng) (socket : Except String Unit) :
    Except Error (Bytes × ResponderHandshake S) := do
  let responder ← ResponderHandshake.new c.networkSecret c.deviceKeys rng
  let (_, responder) ← responder.readMessageA data
  let (msgB, responder) ← responder.writeMessageB []
  let _ ← sendTo "send msg B" socket
  return (msgB, responder)

def initateHandshake (c : MessageChannel S) (addr : SocketAddr) (k : ℕ) (rng : S.Rng) (socket : Except String Unit) :
    List Output × MessageChannel S :=
  -- call `k` is made only once
  if .call addr k ∈ c.waiting then ([], c)
  else
    match c.sendMsgA rng socket with
    | .error e => ([.handshake addr (.error e)], c)
    | .ok (msgA, initiator) =>
      ([.sent addr msgA], { c with waiting := c.waiting.insert (.call addr k) (.msgB addr initiator) })

/-- The rest of a handshake, after it got its datagram. -/
def finishHandshake (c : MessageChannel S) (reader : Reader) (w : Waiting S) (result : Except Error (HandshakeResult S)) :
    List Output × MessageChannel S :=
  let c := { c with waiting := c.waiting.erase reader }
  match result with
  | .error e => ([.handshake w.addr (.error e)], c)
  | .ok result =>
    (w.lastMessage result ++ [.handshake w.addr (.ok (.fromBytes result.transport.remoteStatic))],
      { c with transports := c.transports.insert w.addr ⟨result.transport, .new c.now⟩ })

def handleInboundDatagram (c : MessageChannel S) (data : Bytes) (src : SocketAddr) (rng : S.Rng)
    (socket : Except String Unit) : List Output × MessageChannel S :=
  match c.transports.lookup src with
  | some pt =>
    match decodeFrame data with
    | .error _ => ([], c)
    | .ok framed =>
      match pt.transport.decrypt framed with
      | (.error _, transport) => ([], { c with transports := c.transports.replace src { pt with transport := transport } })
      | (.ok decrypted, transport) =>
        let c := { c with transports := c.transports.replace src ⟨transport, pt.session.recordActivity c.now⟩ }
        match deserializeMessage decrypted with
        | .error _ => ([], c)
        | .ok msg => ([.inbound ⟨msg, src⟩], c)
  | none =>
    match c.sendMsgB data rng socket with
    | .error e => ([.handshake src (.error e)], c)
    | .ok (msgB, responder) =>
      ([.sent src msgB], { c with waiting := c.waiting.insert .run (.msgC src responder) })

/-- A reader gets a datagram or an error. -/
def receive (c : MessageChannel S) (reader : Reader) (received : Except String (SocketAddr × Bytes)) (rng : S.Rng)
    (socket : Except String Unit) : List Output × MessageChannel S :=
  match c.waiting.lookup reader with
  | some w => c.finishHandshake reader w (w.resume (intoBuffer received) socket)
  | none =>
    match reader, intoBuffer received with
    | .run, .ok (src, data) => c.handleInboundDatagram data src rng socket
    | _, _ => ([], c)

def sendMessage (c : MessageChannel S) (msg : OutboundMessage) (socket : Except String Unit) :
    Except Error Bytes × MessageChannel S :=
  match c.transports.lookup msg.toAddr with
  | none => (.error (.noiseTransport s!"no transport for {msg.toAddr.display}"), c)
  | some pt =>
    match pt.transport.encrypt (serializeMessage msg.message) with
    | (.error e, transport) =>
      (.error e, { c with transports := c.transports.replace msg.toAddr { pt with transport := transport } })
    | (.ok encrypted, transport) =>
      match sendTo "send" socket with
      | .error e =>
        (.error e, { c with transports := c.transports.replace msg.toAddr { pt with transport := transport } })
      | .ok () =>
        (.ok (encodeFrame encrypted),
          { c with transports := c.transports.replace msg.toAddr ⟨transport, pt.session.recordActivity c.now⟩ })

def sendHeartbeat (c : MessageChannel S) (addr : SocketAddr) (socket : Except String Unit) :
    Except Error Bytes × MessageChannel S :=
  c.sendMessage ⟨.heartbeat, addr⟩ socket

def heartbeatNeeded (c : MessageChannel S) : List SocketAddr :=
  (c.transports.entries.filter fun entry => entry.2.session.shouldSendHeartbeat c.now).map (·.1)

def pruneExpired (c : MessageChannel S) : List SocketAddr × MessageChannel S :=
  let expired := (c.transports.entries.filter fun entry => entry.2.session.isExpired c.now).map (·.1)
  (expired, { c with transports := expired.foldl (fun transports addr => transports.erase addr) c.transports })

end MessageChannel

/-! ### Runs -/

inductive ChannelAction (S : Snow) where
  | initateHandshake (addr : SocketAddr) (k : ℕ) (rng : S.Rng) (socket : Except String Unit)
  | receive (reader : Reader) (received : Except String (SocketAddr × Bytes)) (rng : S.Rng) (socket : Except String Unit)
  | sendMessage (msg : OutboundMessage) (socket : Except String Unit)
  | sendHeartbeat (addr : SocketAddr) (socket : Except String Unit)
  | pruneExpired
  | advance (duration : ℕ)

namespace MessageChannel

/-- The datagram that a successful `send_message` sends. -/
def sentTo (addr : SocketAddr) : Except Error Bytes → List Output
  | .ok datagram => [.sent addr datagram]
  | .error _ => []

def step (c : MessageChannel S) : ChannelAction S → List Output × MessageChannel S
  | .initateHandshake addr k rng socket => c.initateHandshake addr k rng socket
  | .receive reader received rng socket => c.receive reader received rng socket
  | .sendMessage msg socket =>
    let (result, c) := c.sendMessage msg socket
    (sentTo msg.toAddr result, c)
  | .sendHeartbeat addr socket =>
    let (result, c) := c.sendHeartbeat addr socket
    (sentTo addr result, c)
  | .pruneExpired => ([], c.pruneExpired.2)
  | .advance duration => ([], { c with now := c.now + duration })

def next (c : MessageChannel S) (a : ChannelAction S) : MessageChannel S := (c.step a).2

section

variable {c : MessageChannel S} {reader : Reader} {w : Waiting S} {received : Except String (SocketAddr × Bytes)}
  {rng : S.Rng} {socket : Except String Unit}

theorem step_waiting (h : c.waiting.lookup reader = some w) :
    c.step (.receive reader received rng socket) =
      c.finishHandshake reader w (w.resume (intoBuffer received) socket) := by
  simp only [step, receive, h]

theorem step_datagram (h : c.waiting.lookup .run = none) (src : SocketAddr) (data : Bytes) :
    c.step (.receive .run (.ok (src, data)) rng socket) =
      c.handleInboundDatagram (data.take maxDatagram) src rng socket := by
  simp only [step, receive, h]
  rfl

/-- Errors, and calls that are over, do nothing. -/
theorem step_ignored (h : c.waiting.lookup reader = none)
    (hignored : ∀ src data, ¬ (reader = .run ∧ received = .ok (src, data))) :
    c.step (.receive reader received rng socket) = ([], c) := by
  simp only [step, receive, h]
  cases reader with
  | call a k => rfl
  | run =>
      cases received with
      | error e => rfl
      | ok r => exact absurd ⟨rfl, rfl⟩ (hignored r.1 r.2)

end

/-- A channel as `MessageChannel::new` makes it. -/
structure New (c : MessageChannel S) : Prop where
  transports : c.transports = ∅
  waiting : c.waiting = ∅

end MessageChannel

end SeedNet
