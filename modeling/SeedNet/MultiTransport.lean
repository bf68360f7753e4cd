import Mathlib.Algebra.BigOperators.Group.Finset.Basic
import Mathlib.Tactic.DeriveFintype
import SeedNet.FrameStreams
import SeedNet.QueueTree
import SeedNet.StunQueries
import SeedNet.TcpTransport

/-! # What a node receives

`crates/transport/src/multi.rs`: a node receives over UDP, over accepted TCP connections and over accepted WebSocket
connections.  Every connection has a task that reads it and sends what it reads to the channel of its transport; for
each transport a task takes from there and sends to the channel of the `MultiTransport`; from that the inbound loop
takes.  All channels are bounded, and a task that sends to a full one waits.

`ι` are the accepted TCP connections and `κ` the WebSocket connections.  `Receiving` is the state of all these tasks,
and what arrives, what the tasks do and what a STUN query takes from the UDP socket come in any order.  The channels
and the tasks are a tree of bounded queues (`receiveTree`).  A reply that holds the mutex of a TCP stream is not part
of it.

`received_in_order`: what the inbound loop gets of a connection are the first messages of its stream, in their order,
with the address to which a reply goes back.  `everything_gets_through`: whatever the order of their steps, the tasks
come to rest, and then the inbound loop has got everything that had arrived. -/

namespace SeedNet

open Run (exec Along)
open QueueTree (Carries)

/-! ### Sending -/

/-- The transports of a node with their local addresses, at most one of each kind. -/
structure MultiTransport where
  udp : Option SocketAddr := none
  tcp : Option SocketAddr := none
  ws : Option SocketAddr := none

namespace MultiTransport

/-- `send_to`: the transport that the datagram is given to. -/
def sendTo (t : MultiTransport) (addr : TransportAddr) : Except String TransportKind :=
  match addr.kind with
  | .udp => if t.udp.isSome then .ok .udp else .error "UDP not enabled"
  | .tcp => if t.tcp.isSome then .ok .tcp else .error "TCP not enabled"
  | .ws => if t.ws.isSome then .ok .ws else .error "WS not enabled"
  | .wss => .error "WSS not yet implemented"

/-- `local_addr`; without any transport it panics. -/
def localAddr (t : MultiTransport) : Option TransportAddr :=
  (t.udp.map .udp).or ((t.tcp.map .tcp).or (t.ws.map .ws))

end MultiTransport

/-! ### Receiving -/

/-- What is read from a WebSocket connection. -/
inductive WsMessage where
  | binary (data : Bytes)
  | close
  | error
  /-- text, ping, pong -/
  | other
deriving DecidableEq

/-- The payloads that the reader of a connection sends on. -/
def wsPayloads : List WsMessage → List Bytes
  | [] => []
  | .binary data :: ms => data :: wsPayloads ms
  | .other :: ms => wsPayloads ms
  | .close :: _ | .error :: _ => []

/-- Where messages come from. -/
inductive Source (ι κ : Type) where
  | udp
  | tcp (i : ι)
  | ws (k : κ)
deriving DecidableEq

def Source.kind {ι κ : Type} : Source ι κ → TransportKind
  | .udp => .udp
  | .tcp _ => .tcp
  | .ws _ => .ws

/-- The address that `recv_from` returns. -/
def Source.addr {ι κ : Type} (addr : SocketAddr) : Source ι κ → TransportAddr
  | .udp => .udp addr
  | .tcp _ => .tcp addr
  | .ws _ => .ws addr

theorem Source.kind_addr {ι κ : Type} (c : Source ι κ) (addr : SocketAddr) : (c.addr addr).kind = c.kind := by
  cases c <;> rfl

/-- Where messages are. -/
inductive Place (ι κ : Type) where
  /-- `read_loop` of a TCP connection -/
  | readLoop (i : ι)
  /-- the reader of a WebSocket connection -/
  | wsReader (k : κ)
  /-- the channels of the transports -/
  | tcpRx
  | wsRx
  /-- the tasks of `spawn_receiver` -/
  | udpReceiver
  | tcpReceiver
  | wsReceiver
  /-- the channel of the `MultiTransport` -/
  | rx
  /-- the inbound loop -/
  | inbound
deriving DecidableEq, Fintype

section receiveTree

variable {ι κ : Type}

/-- The capacities are those of the channels; a task has one message in hand. -/
def receiveTree : QueueTree (Place ι κ) where
  next
    | .readLoop _ => some .tcpRx
    | .wsReader _ => some .wsRx
    | .tcpRx => some .tcpReceiver
    | .wsRx => some .wsReceiver
    | .udpReceiver | .tcpReceiver | .wsReceiver => some .rx
    | .rx => some .inbound
    | .inbound => none
  capacity
    | .readLoop _ | .wsReader _ | .udpReceiver | .tcpReceiver | .wsReceiver => some 1
    | .tcpRx | .wsRx => some rxCapacity
    | .rx => some channelCapacity
    | .inbound => none
  depth
    | .readLoop _ | .wsReader _ => 4
    | .tcpRx | .wsRx => 3
    | .udpReceiver | .tcpReceiver | .wsReceiver => 2
    | .rx => 1
    | .inbound => 0
  depth_lt {p q} h := by cases p <;> cases h <;> exact Nat.lt_succ_self _
  capacity_pos {p c} h := by cases p <;> cases h <;> exact Nat.succ_pos _
  capacity_sink {p} h := by cases p <;> first | rfl | cases h

def receiveRoutes : (receiveTree (ι := ι) (κ := κ)).Routes (Source ι κ) where
  sink := .inbound
  next_sink := rfl
  route
    | .udp => [.inbound, .rx, .udpReceiver]
    | .tcp i => [.inbound, .rx, .tcpReceiver, .tcpRx, .readLoop i]
    | .ws k => [.inbound, .rx, .wsReceiver, .wsRx, .wsReader k]
  head c := by cases c <;> exact ⟨_, rfl⟩
  chain c := by cases c <;> simp [receiveTree]
  nodup c := by cases c <;> simp

theorem route_udp : receiveRoutes.route (Source.udp : Source ι κ) = [.inbound, .rx] ++ [.udpReceiver] := rfl

theorem route_tcp (i : ι) : receiveRoutes.route (Source.tcp i : Source ι κ) =
    [.inbound, .rx, .tcpReceiver, .tcpRx] ++ [.readLoop i] := rfl

theorem route_ws (k : κ) : receiveRoutes.route (Source.ws k : Source ι κ) =
    [.inbound, .rx, .wsReceiver, .wsRx] ++ [.wsReader k] := rfl

end receiveTree

/-- An accepted TCP connection. -/
structure TcpStream where
  peer : SocketAddr
  /-- what has arrived, and what of it is not read yet -/
  arrived : Bytes := []
  incoming : Bytes := []
  closed : Bool := false
  /-- `read_loop` has ended -/
  ended : Bool := false

/-- An accepted WebSocket connection. -/
structure WsStream where
  peer : SocketAddr
  arrived : List WsMessage := []
  incoming : List WsMessage := []
  ended : Bool := false

/-- Everything that receives; `datagrams` are all that have arrived at the UDP socket. -/
structure Receiving (ι κ : Type) where
  transports : MultiTransport
  datagrams : List UdpDatagram := []
  socket : List UdpDatagram := []
  tcp : ι → TcpStream
  ws : κ → WsStream
  queues : QueueTree.Load (Place ι κ) (Source ι κ) (Bytes × SocketAddr) := fun _ => []

/-- The steps of the tasks. -/
inductive ReceiveTask (ι κ : Type) where
  /-- `UdpTransport::recv_from` returns -/
  | recvUdp
  /-- `read_frame` returns to `read_loop` -/
  | readFrame (i : ι)
  /-- the next message of a WebSocket connection is read -/
  | readWs (k : κ)
  /-- a message is taken from a channel or sent to one -/
  | move (p : Place ι κ)

inductive ReceiveAction (ι κ : Type) where
  | datagram (d : UdpDatagram)
  /-- a STUN query reads from the UDP socket -/
  | stunReads
  | tcpBytes (i : ι) (bytes : Bytes)
  | tcpCloses (i : ι)
  | wsMessage (k : κ) (m : WsMessage)
  | task (t : ReceiveTask ι κ)

namespace Receiving

variable {ι κ : Type} [DecidableEq ι] [DecidableEq κ]

def recvUdp (s : Receiving ι κ) : Receiving ι κ :=
  match s.socket with
  | [] => s
  | d :: rest =>
    if receiveTree.HasRoom s.queues .udpReceiver then
      { s with
        socket := rest
        queues := receiveTree.put s.queues .udpReceiver (.udp, (d.received.data, d.received.src)) }
    else s

def readFrame (s : Receiving ι κ) (i : ι) : Receiving ι κ :=
  if (s.tcp i).ended ∨ ¬ receiveTree.HasRoom s.queues (.readLoop i) then s
  else
    match SeedNet.readFrame (s.tcp i).incoming with
    | .frame payload rest =>
      { s with
        tcp := Function.update s.tcp i { s.tcp i with incoming := rest }
        queues := receiveTree.put s.queues (.readLoop i) (.tcp i, (payload, (s.tcp i).peer)) }
    | .tooLarge => { s with tcp := Function.update s.tcp i { s.tcp i with ended := true } }
    | .incomplete =>
      -- the rest of the frame will not come
      if (s.tcp i).closed then { s with tcp := Function.update s.tcp i { s.tcp i with ended := true } } else s

def readWs (s : Receiving ι κ) (k : κ) : Receiving ι κ :=
  if (s.ws k).ended ∨ ¬ receiveTree.HasRoom s.queues (.wsReader k) then s
  else
    match (s.ws k).incoming with
    | [] => s
    | .binary data :: rest =>
      { s with
        ws := Function.update s.ws k { s.ws k with incoming := rest }
        queues := receiveTree.put s.queues (.wsReader k) (.ws k, (data, (s.ws k).peer)) }
    | .other :: rest => { s with ws := Function.update s.ws k { s.ws k with incoming := rest } }
    | .close :: _ | .error :: _ => { s with ws := Function.update s.ws k { s.ws k with ended := true } }

def nextTask (s : Receiving ι κ) : ReceiveTask ι κ → Receiving ι κ
  | .recvUdp => s.recvUdp
  | .readFrame i => s.readFrame i
  | .readWs k => s.readWs k
  | .move p => { s with queues := receiveTree.move s.queues p }

/-- Nothing arrives over a transport that is not there, and nothing more over a closed connection. -/
def next (s : Receiving ι κ) : ReceiveAction ι κ → Receiving ι κ
  | .datagram d =>
    if s.transports.udp.isSome then { s with datagrams := s.datagrams ++ [d], socket := s.socket ++ [d] } else s
  | .stunReads => { s with socket := s.socket.tail }
  | .tcpBytes i bytes =>
    if s.transports.tcp.isSome ∧ (s.tcp i).closed = false then
      { s with
        tcp := Function.update s.tcp i
          { s.tcp i with arrived := (s.tcp i).arrived ++ bytes, incoming := (s.tcp i).incoming ++ bytes } }
    else s
  | .tcpCloses i => { s with tcp := Function.update s.tcp i { s.tcp i with closed := true } }
  | .wsMessage k m =>
    if s.transports.ws.isSome then
      { s with
        ws := Function.update s.ws k
          { s.ws k with arrived := (s.ws k).arrived ++ [m], incoming := (s.ws k).incoming ++ [m] } }
    else s
  | .task t => s.nextTask t

/-- No connection has been read. -/
def start (transports : MultiTransport) (tcpPeer : ι → SocketAddr) (wsPeer : κ → SocketAddr) : Receiving ι κ where
  transports := transports
  tcp i := { peer := tcpPeer i }
  ws k := { peer := wsPeer k }

/-- What the inbound loop has got from one source. -/
def received (s : Receiving ι κ) (c : Source ι κ) : List (Bytes × SocketAddr) :=
  QueueTree.ofKind c (s.queues .inbound)

/-- What `recv_from` has returned to the inbound loop. -/
def returned (s : Receiving ι κ) : List (Bytes × TransportAddr) :=
  (s.queues .inbound).map fun m => (m.2.1, m.1.addr m.2.2)

end Receiving

/-! ### One connection -/

/-- More bytes do not make a frame smaller. -/
theorem readFrame_tooLarge_more {stream : Bytes} (h : readFrame stream = .tooLarge) (more : Bytes) :
    readFrame (stream ++ more) = .tooLarge := by
  unfold readFrame at h ⊢
  split at h
  · cases h
  · next hlong =>
      have hheader : frameHeaderLen ≤ stream.length := not_lt.mp hlong
      have hlong' : ¬ (stream ++ more).length < frameHeaderLen := by
        rw [List.length_append]
        omega
      dsimp only at h ⊢
      rw [if_neg hlong', List.take_append_of_le_length hheader]
      split at h
      · next hlarge => exact if_pos hlarge
      · split at h <;> cases h

/-- One more frame is read. -/
theorem readFrames_concat {k : ℕ} {stream rest payload rest' : Bytes} {payloads : List Bytes}
    (h : readFrames k stream = some (payloads, rest)) (hread : readFrame rest = .frame payload rest') :
    readFrames (k + 1) stream = some (payloads ++ [payload], rest') := by
  induction k generalizing stream payloads with
  | zero =>
      cases h
      rw [readFrames, hread]
      rfl
  | succ k ih =>
      rw [readFrames] at h ⊢
      cases hfirst : readFrame stream with
      | tooLarge | incomplete =>
          rw [hfirst] at h
          cases h
      | frame first behind =>
          rw [hfirst] at h
          obtain ⟨⟨payloads', rest''⟩, hrest, heq⟩ := Option.map_eq_some_iff.mp h
          cases heq
          dsimp only
          rw [ih hrest, Option.map_some]
          rfl

/-- The first of the frames that can be read. -/
theorem readFrames_prefix {stream rest : Bytes} {first more : List Bytes}
    (h : readFrames (first ++ more).length stream = some (first ++ more, rest)) :
    ∃ rest', readFrames first.length stream = some (first, rest') := by
  induction first generalizing stream with
  | nil => exact ⟨stream, rfl⟩
  | cons p first ih =>
      rw [List.cons_append, List.length_cons, readFrames] at h
      cases hread : readFrame stream with
      | tooLarge | incomplete =>
          rw [hread] at h
          cases h
      | frame payload behind =>
          rw [hread] at h
          obtain ⟨⟨payloads', rest'⟩, hrest, heq⟩ := Option.map_eq_some_iff.mp h
          obtain ⟨hcons, rfl⟩ := Prod.mk.inj heq
          obtain ⟨rfl, rfl⟩ := List.cons.inj hcons
          obtain ⟨rest'', hfirst⟩ := ih hrest
          refine ⟨rest'', ?_⟩
          rw [List.length_cons, readFrames, hread]
          dsimp only
          rw [hfirst, Option.map_some]

namespace TcpStream

/-- `read_frame` has nothing more to return. -/
def Finished (c : TcpStream) : Prop :=
  readFrame c.incoming = .tooLarge ∨ c.closed = true ∧ readFrame c.incoming = .incomplete

/-- `sent` are the frames that have been read. -/
structure Sound (c : TcpStream) (sent : List (Bytes × SocketAddr)) : Prop where
  frames : ∃ payloads, sent = payloads.map (·, c.peer) ∧
    readFrames payloads.length c.arrived = some (payloads, c.incoming)
  ended : c.ended = true → c.Finished

variable {c : TcpStream} {sent : List (Bytes × SocketAddr)}

theorem Sound.more (h : c.Sound sent) (hopen : c.closed = false) (bytes : Bytes) :
    Sound { c with arrived := c.arrived ++ bytes, incoming := c.incoming ++ bytes } sent where
  frames := by
    obtain ⟨payloads, hsent, hread⟩ := h.frames
    exact ⟨payloads, hsent, readFrames_more hread bytes⟩
  ended hended := by
    rcases h.ended hended with hlarge | ⟨hclosed, -⟩
    · exact .inl (readFrame_tooLarge_more hlarge bytes)
    · exact absurd (hopen.symm.trans hclosed) Bool.false_ne_true

theorem Sound.close (h : c.Sound sent) : Sound { c with closed := true } sent where
  frames := h.frames
  ended hended := (h.ended hended).imp id fun hfinished => ⟨rfl, hfinished.2⟩

theorem Sound.end (h : c.Sound sent) (hfinished : c.Finished) : Sound { c with ended := true } sent where
  frames := h.frames
  ended _ := hfinished

theorem Sound.read (h : c.Sound sent) (hended : ¬ c.ended = true) {payload rest : Bytes}
    (hread : readFrame c.incoming = .frame payload rest) :
    Sound { c with incoming := rest } (sent ++ [(payload, c.peer)]) where
  frames := by
    obtain ⟨payloads, hsent, hpayloads⟩ := h.frames
    refine ⟨payloads ++ [payload], ?_, ?_⟩
    · rw [hsent, List.map_append]
      rfl
    · rw [List.length_append, List.length_singleton]
      exact readFrames_concat hpayloads hread
  ended h' := absurd h' hended

end TcpStream

namespace WsStream

/-- `sent` are the payloads that have been read. -/
def Sound (c : WsStream) (sent : List (Bytes × SocketAddr)) : Prop :=
  ∃ payloads, sent = payloads.map (·, c.peer) ∧ ∀ more, wsPayloads (c.arrived ++ more) =
    payloads ++ if c.ended then [] else wsPayloads (c.incoming ++ more)

variable {c : WsStream} {sent : List (Bytes × SocketAddr)}

theorem Sound.more (h : c.Sound sent) (m : WsMessage) :
    Sound { c with arrived := c.arrived ++ [m], incoming := c.incoming ++ [m] } sent := by
  obtain ⟨payloads, hsent, hpayloads⟩ := h
  refine ⟨payloads, hsent, fun more => ?_⟩
  rw [List.append_assoc, List.append_assoc]
  exact hpayloads ([m] ++ more)

theorem Sound.end (h : c.Sound sent) (hnone : ∀ more, wsPayloads (c.incoming ++ more) = []) :
    Sound { c with ended := true } sent := by
  obtain ⟨payloads, hsent, hpayloads⟩ := h
  refine ⟨payloads, hsent, fun more => (hpayloads more).trans ?_⟩
  rw [hnone more, ite_self]
  rfl

theorem Sound.read (h : c.Sound sent) (hended : ¬ c.ended = true) {m : WsMessage} {rest : List WsMessage}
    (hin : c.incoming = m :: rest) (payloads : List Bytes) (hm : ∀ more, wsPayloads (m :: more) =
      payloads ++ wsPayloads more) : Sound { c with incoming := rest } (sent ++ payloads.map (·, c.peer)) := by
  obtain ⟨before, hsent, hbefore⟩ := h
  refine ⟨before ++ payloads, by rw [hsent, List.map_append], fun more => (hbefore more).trans ?_⟩
  rw [if_neg hended, if_neg hended, hin, List.cons_append, hm, List.append_assoc]

end WsStream

/-! ### All connections -/

/-- A datagram as `recv_from` returns it. -/
def UdpDatagram.message (d : UdpDatagram) : Bytes × SocketAddr := (d.received.data, d.received.src)

namespace MultiTransport

/-- A transport of this kind is there. -/
def Has (t : MultiTransport) : TransportKind → Prop
  | .udp => t.udp.isSome
  | .tcp => t.tcp.isSome
  | .ws => t.ws.isSome
  | .wss => False

theorem sendTo_of_has {t : MultiTransport} {addr : TransportAddr} (h : t.Has addr.kind) :
    t.sendTo addr = .ok addr.kind := by
  cases addr <;> first | exact if_pos h | exact h.elim

end MultiTransport

namespace Receiving

variable {ι κ : Type} [DecidableEq ι] [DecidableEq κ]

/-- `sent` is what the tasks have read of each source: it is in the queues or has been received. -/
structure Sound (s : Receiving ι κ) (sent : Source ι κ → List (Bytes × SocketAddr)) : Prop where
  carries : Carries receiveRoutes s.queues sent
  udp : (sent .udp ++ s.socket.map UdpDatagram.message).Sublist (s.datagrams.map UdpDatagram.message)
  tcp : ∀ i, (s.tcp i).Sound (sent (.tcp i))
  ws : ∀ k, (s.ws k).Sound (sent (.ws k))
  udpHas : s.datagrams ≠ [] → s.transports.Has .udp
  tcpHas : ∀ i, (s.tcp i).arrived ≠ [] → s.transports.Has .tcp
  wsHas : ∀ k, (s.ws k).arrived ≠ [] → s.transports.Has .ws

theorem sound_start (transports : MultiTransport) (tcpPeer : ι → SocketAddr) (wsPeer : κ → SocketAddr) :
    (start transports tcpPeer wsPeer).Sound fun _ => [] where
  carries := QueueTree.carries_empty receiveRoutes
  udp := List.Sublist.slnil
  tcp _ := { frames := ⟨[], rfl, rfl⟩, ended := fun h => absurd h Bool.false_ne_true }
  ws _ := ⟨[], rfl, fun _ => rfl⟩
  udpHas h := absurd rfl h
  tcpHas _ h := absurd rfl h
  wsHas _ h := absurd rfl h

variable {s : Receiving ι κ} {sent : Source ι κ → List (Bytes × SocketAddr)}

/-- Messages have been read only over transports that are there. -/
theorem Sound.has (h : s.Sound sent) (c : Source ι κ) (hsent : sent c ≠ []) : s.transports.Has c.kind := by
  cases c with
  | udp =>
      refine h.udpHas fun hnone => hsent ?_
      have hle := h.udp.length_le
      rw [hnone, List.map_nil, List.length_nil, List.length_append] at hle
      exact List.length_eq_zero_iff.mp (by omega)
  | tcp i =>
      refine h.tcpHas i fun hnone => hsent ?_
      obtain ⟨payloads, hpayloads, hread⟩ := (h.tcp i).frames
      rw [hnone] at hread
      cases payloads with
      | nil => exact hpayloads
      | cons p payloads => cases hread
  | ws k =>
      refine h.wsHas k fun hnone => hsent ?_
      obtain ⟨payloads, hpayloads, hread⟩ := h.ws k
      have hnil := hread []
      rw [hnone, List.append_nil, wsPayloads, eq_comm, List.append_eq_nil_iff] at hnil
      rw [hpayloads, hnil.1, List.map_nil]

theorem Sound.updateTcp (h : s.Sound sent) {i : ι} {c : TcpStream} (hc : c.Sound (sent (.tcp i)))
    (hhas : c.arrived ≠ [] → s.transports.Has .tcp) : Sound { s with tcp := Function.update s.tcp i c } sent :=
  { h with
    tcp := (Function.forall_update_iff s.tcp fun j c => c.Sound (sent (.tcp j))).mpr ⟨hc, fun j _ => h.tcp j⟩
    tcpHas := (Function.forall_update_iff s.tcp fun _ c => c.arrived ≠ [] → s.transports.Has .tcp).mpr
      ⟨hhas, fun j _ => h.tcpHas j⟩ }

theorem Sound.updateWs (h : s.Sound sent) {k : κ} {c : WsStream} (hc : c.Sound (sent (.ws k)))
    (hhas : c.arrived ≠ [] → s.transports.Has .ws) : Sound { s with ws := Function.update s.ws k c } sent :=
  { h with
    ws := (Function.forall_update_iff s.ws fun j c => c.Sound (sent (.ws j))).mpr ⟨hc, fun j _ => h.ws j⟩
    wsHas := (Function.forall_update_iff s.ws fun _ c => c.arrived ≠ [] → s.transports.Has .ws).mpr
      ⟨hhas, fun j _ => h.wsHas j⟩ }

/-- `read_loop` has read a frame. -/
theorem Sound.putTcp (h : s.Sound sent) {i : ι} {c : TcpStream} {m : Bytes × SocketAddr}
    (hroom : receiveTree.HasRoom s.queues (.readLoop i)) (hc : c.Sound (sent (.tcp i) ++ [m]))
    (hhas : c.arrived ≠ [] → s.transports.Has .tcp) :
    Sound { s with tcp := Function.update s.tcp i c, queues := receiveTree.put s.queues (.readLoop i) (.tcp i, m) }
      (Function.update sent (.tcp i) (sent (.tcp i) ++ [m])) where
  carries := h.carries.put (route_tcp i) hroom m
  udp := by
    rw [Function.update_of_ne (by simp)]
    exact h.udp
  tcp j := by
    dsimp only
    by_cases hj : j = i
    · subst hj
      rwa [Function.update_self, Function.update_self]
    · rw [Function.update_of_ne hj, Function.update_of_ne (by simpa using hj)]
      exact h.tcp j
  ws k := by
    rw [Function.update_of_ne (by simp)]
    exact h.ws k
  udpHas := h.udpHas
  tcpHas := (Function.forall_update_iff s.tcp fun _ c => c.arrived ≠ [] → s.transports.Has .tcp).mpr
    ⟨hhas, fun j _ => h.tcpHas j⟩
  wsHas := h.wsHas

/-- The reader of a WebSocket connection has read a payload. -/
theorem Sound.putWs (h : s.Sound sent) {k : κ} {c : WsStream} {m : Bytes × SocketAddr}
    (hroom : receiveTree.HasRoom s.queues (.wsReader k)) (hc : c.Sound (sent (.ws k) ++ [m]))
    (hhas : c.arrived ≠ [] → s.transports.Has .ws) :
    Sound { s with ws := Function.update s.ws k c, queues := receiveTree.put s.queues (.wsReader k) (.ws k, m) }
      (Function.update sent (.ws k) (sent (.ws k) ++ [m])) where
  carries := h.carries.put (route_ws k) hroom m
  udp := by
    rw [Function.update_of_ne (by simp)]
    exact h.udp
  tcp i := by
    rw [Function.update_of_ne (by simp)]
    exact h.tcp i
  ws j := by
    dsimp only
    by_cases hj : j = k
    · subst hj
      rwa [Function.update_self, Function.update_self]
    · rw [Function.update_of_ne hj, Function.update_of_ne (by simpa using hj)]
      exact h.ws j
  udpHas := h.udpHas
  tcpHas := h.tcpHas
  wsHas := (Function.forall_update_iff s.ws fun _ c => c.arrived ≠ [] → s.transports.Has .ws).mpr
    ⟨hhas, fun j _ => h.wsHas j⟩

theorem Sound.recvUdp (h : s.Sound sent) : ∃ sent', s.recvUdp.Sound sent' := by
  rw [Receiving.recvUdp]
  cases hsocket : s.socket with
  | nil => exact ⟨sent, h⟩
  | cons d rest =>
      dsimp only
      split
      · next hroom =>
          refine ⟨Function.update sent .udp (sent .udp ++ [d.message]), ?_, ?_, fun i => ?_, fun k => ?_, h.udpHas,
            h.tcpHas, h.wsHas⟩
          · exact h.carries.put route_udp hroom d.message
          · rw [Function.update_self, List.append_assoc]
            have hudp := h.udp
            rw [hsocket] at hudp
            exact hudp
          · rw [Function.update_of_ne (by simp)]
            exact h.tcp i
          · rw [Function.update_of_ne (by simp)]
            exact h.ws k
      · exact ⟨sent, h⟩

theorem Sound.readFrame (h : s.Sound sent) (i : ι) : ∃ sent', (s.readFrame i).Sound sent' := by
  rw [Receiving.readFrame]
  split
  · exact ⟨sent, h⟩
  · next hready =>
      obtain ⟨hended, hroom⟩ := not_or.mp hready
      have hroom : receiveTree.HasRoom s.queues (.readLoop i) := not_not.mp hroom
      have hend (hfinished : (s.tcp i).Finished) : Sound
          { s with tcp := Function.update s.tcp i { s.tcp i with ended := true } } sent :=
        h.updateTcp ((h.tcp i).end hfinished) (h.tcpHas i)
      cases hread : SeedNet.readFrame (s.tcp i).incoming with
      | tooLarge => exact ⟨sent, hend (.inl hread)⟩
      | incomplete =>
          dsimp only
          split
          · next hclosed => exact ⟨sent, hend (.inr ⟨hclosed, hread⟩)⟩
          · exact ⟨sent, h⟩
      | frame payload rest =>
          exact ⟨_, h.putTcp hroom ((h.tcp i).read hended hread) (h.tcpHas i)⟩

/-- What is read of a WebSocket connection without being sent on. -/
theorem Sound.skipWs (h : s.Sound sent) {k : κ} (hended : ¬ (s.ws k).ended = true) {m : WsMessage}
    {rest : List WsMessage} (hin : (s.ws k).incoming = m :: rest)
    (hm : ∀ more, wsPayloads (m :: more) = wsPayloads more) :
    Sound { s with ws := Function.update s.ws k { s.ws k with incoming := rest } } sent := by
  refine h.updateWs ?_ (h.wsHas k)
  have hread := (h.ws k).read hended hin [] hm
  rwa [List.map_nil, List.append_nil] at hread

theorem Sound.endWs (h : s.Sound sent) {k : κ} (hnone : ∀ more, wsPayloads ((s.ws k).incoming ++ more) = []) :
    Sound { s with ws := Function.update s.ws k { s.ws k with ended := true } } sent :=
  h.updateWs ((h.ws k).end hnone) (h.wsHas k)

theorem Sound.readWs (h : s.Sound sent) (k : κ) : ∃ sent', (s.readWs k).Sound sent' := by
  rw [Receiving.readWs]
  split
  · exact ⟨sent, h⟩
  · next hready =>
      obtain ⟨hended, hroom⟩ := not_or.mp hready
      have hroom : receiveTree.HasRoom s.queues (.wsReader k) := not_not.mp hroom
      cases hin : (s.ws k).incoming with
      | nil => exact ⟨sent, h⟩
      | cons m rest =>
          cases m with
          | close => exact ⟨sent, h.endWs fun more => by rw [hin]; rfl⟩
          | error => exact ⟨sent, h.endWs fun more => by rw [hin]; rfl⟩
          | other => exact ⟨sent, h.skipWs hended hin fun _ => rfl⟩
          | binary data =>
              exact ⟨_, h.putWs hroom ((h.ws k).read hended hin [data] fun _ => rfl) (h.wsHas k)⟩

theorem Sound.nextTask (h : s.Sound sent) (t : ReceiveTask ι κ) : ∃ sent', (s.nextTask t).Sound sent' := by
  cases t with
  | recvUdp => exact h.recvUdp
  | readFrame i => exact h.readFrame i
  | readWs k => exact h.readWs k
  | move p => exact ⟨sent, { h with carries := h.carries.move p }⟩

theorem Sound.next (h : s.Sound sent) (a : ReceiveAction ι κ) : ∃ sent', (s.next a).Sound sent' := by
  cases a with
  | task t => exact h.nextTask t
  | datagram d =>
      refine ⟨sent, ?_⟩
      rw [Receiving.next]
      split
      · next hudp =>
          refine { h with udp := ?_, udpHas := fun _ => hudp }
          dsimp only
          rw [List.map_append, List.map_append, ← List.append_assoc]
          exact h.udp.append_right _
      · exact h
  | stunReads =>
      refine ⟨sent, { h with udp := List.Sublist.trans ?_ h.udp }⟩
      exact ((List.tail_sublist s.socket).map _).append_left _
  | tcpBytes i bytes =>
      refine ⟨sent, ?_⟩
      rw [Receiving.next]
      split
      · next hopen => exact h.updateTcp ((h.tcp i).more hopen.2 bytes) fun _ => hopen.1
      · exact h
  | tcpCloses i => exact ⟨sent, h.updateTcp (h.tcp i).close (h.tcpHas i)⟩
  | wsMessage k m =>
      refine ⟨sent, ?_⟩
      rw [Receiving.next]
      split
      · next hws => exact h.updateWs ((h.ws k).more m) fun _ => hws
      · exact h

theorem sound_exec (transports : MultiTransport) (tcpPeer : ι → SocketAddr) (wsPeer : κ → SocketAddr)
    (as : List (ReceiveAction ι κ)) : ∃ sent, (exec next (start transports tcpPeer wsPeer) as).Sound sent := by
  refine Run.exec_invariant (I := fun s : Receiving ι κ => ∃ sent, s.Sound sent) (fun s a hs => ?_)
    ⟨_, sound_start transports tcpPeer wsPeer⟩ as
  obtain ⟨sent, h⟩ := hs
  exact h.next a

theorem Sound.received_prefix (h : s.Sound sent) (c : Source ι κ) : s.received c <+: sent c := h.carries.prefix c

/-- What has been received of a TCP connection are its first frames. -/
theorem Sound.received_tcp (h : s.Sound sent) (i : ι) : ∃ payloads rest,
    s.received (.tcp i) = payloads.map (·, (s.tcp i).peer) ∧
      SeedNet.readFrames payloads.length (s.tcp i).arrived = some (payloads, rest) := by
  obtain ⟨more, hmore⟩ := h.received_prefix (.tcp i)
  obtain ⟨payloads, hsent, hread⟩ := (h.tcp i).frames
  rw [hsent] at hmore
  obtain ⟨first, after, rfl, hfirst, -⟩ := List.append_eq_map_iff.mp hmore
  obtain ⟨rest, hrest⟩ := readFrames_prefix hread
  exact ⟨first, rest, hfirst.symm, hrest⟩

/-- If the other side has written frames by `send_to`, what has been received are the first datagrams it sent. -/
theorem Sound.received_of_writes (h : s.Sound sent) (i : ι) {writes : List FrameWrite}
    (hlen : ∀ w ∈ writes, w.2.length ≤ 65536) (hstream : (s.tcp i).arrived <+: writeFrames writes) :
    ∃ k, s.received (.tcp i) = ((writes.map Prod.snd).take k).map (·, (s.tcp i).peer) := by
  obtain ⟨payloads, rest, hreceived, hread⟩ := h.received_tcp i
  exact ⟨payloads.length, by rw [hreceived, ← readFrames_of_prefix hlen hstream hread]⟩

theorem Sound.received_ws (h : s.Sound sent) (k : κ) : ∃ payloads,
    s.received (.ws k) = payloads.map (·, (s.ws k).peer) ∧ payloads <+: wsPayloads (s.ws k).arrived := by
  obtain ⟨more, hmore⟩ := h.received_prefix (.ws k)
  obtain ⟨payloads, hsent, hread⟩ := h.ws k
  have harrived := hread []
  rw [List.append_nil] at harrived
  rw [hsent] at hmore
  obtain ⟨first, after, rfl, hfirst, -⟩ := List.append_eq_map_iff.mp hmore
  refine ⟨first, hfirst.symm, ?_⟩
  rw [harrived, List.append_assoc]
  exact List.prefix_append _ _

theorem Sound.received_udp (h : s.Sound sent) :
    (s.received .udp).Sublist (s.datagrams.map UdpDatagram.message) :=
  (h.received_prefix .udp).sublist.trans ((List.sublist_append_left _ _).trans h.udp)

/-- An answer goes back over the transport that the message came over. -/
theorem Sound.sendTo_returned (h : s.Sound sent) {m : Bytes × TransportAddr} (hm : m ∈ s.returned) :
    s.transports.sendTo m.2 = .ok m.2.kind := by
  obtain ⟨⟨c, bytes, addr⟩, hin, rfl⟩ := List.mem_map.mp hm
  have hreceived : (bytes, addr) ∈ s.received c := QueueTree.mem_ofKind.mpr hin
  have hhas : s.transports.Has c.kind :=
    h.has c (List.ne_nil_of_mem ((h.received_prefix c).subset hreceived))
  refine MultiTransport.sendTo_of_has ?_
  rwa [Source.kind_addr]

/-- **What a node receives comes in order.**  In every run, what `recv_from` has returned of an accepted TCP connection
are the first frames of its stream, of a WebSocket connection the first payloads, and of the UDP socket datagrams in
the order in which they arrived, none of them twice, all with the address of their sender; and an answer to what
`recv_from` returned goes out over the same transport. -/
theorem received_in_order (transports : MultiTransport) (tcpPeer : ι → SocketAddr) (wsPeer : κ → SocketAddr)
    (as : List (ReceiveAction ι κ)) :
    let s := exec next (start transports tcpPeer wsPeer) as
    (∀ i, ∃ payloads rest, s.received (.tcp i) = payloads.map (·, (s.tcp i).peer) ∧
      SeedNet.readFrames payloads.length (s.tcp i).arrived = some (payloads, rest)) ∧
    (∀ k, ∃ payloads, s.received (.ws k) = payloads.map (·, (s.ws k).peer) ∧
      payloads <+: wsPayloads (s.ws k).arrived) ∧
    (s.received .udp).Sublist (s.datagrams.map UdpDatagram.message) ∧
    ∀ m ∈ s.returned, s.transports.sendTo m.2 = .ok m.2.kind := by
  obtain ⟨sent, h⟩ := sound_exec transports tcpPeer wsPeer as
  exact ⟨h.received_tcp, h.received_ws, h.received_udp, fun _ hm => h.sendTo_returned hm⟩

/-! ### Everything gets through -/

/-- The datagrams that the tasks have taken from the UDP socket or have still to take. -/
def onWay (s : Receiving ι κ) : List (Bytes × SocketAddr) :=
  receiveRoutes.carried s.queues .udp ++ s.socket.map UdpDatagram.message

/-- The tasks lose no datagram. -/
theorem Sound.onWay_nextTask (h : s.Sound sent) (t : ReceiveTask ι κ) : (s.nextTask t).onWay = s.onWay := by
  have hcarried := h.carries.carried .udp
  cases t with
  | move p => exact congrArg (· ++ _) (((h.carries.move p).carried .udp).trans hcarried.symm)
  | recvUdp =>
      rw [Receiving.nextTask, Receiving.recvUdp]
      split
      · rfl
      · next d rest hsocket =>
          split
          · next hroom =>
              have hput := (h.carries.put route_udp hroom d.message).carried .udp
              rw [Function.update_self, ← hcarried] at hput
              rw [onWay, onWay, hsocket]
              exact (congrArg (· ++ _) hput).trans (List.append_assoc _ _ _)
          · rfl
  | readFrame i =>
      rw [Receiving.nextTask, Receiving.readFrame]
      split
      · rfl
      · next hready =>
          have hroom : receiveTree.HasRoom s.queues (.readLoop i) := not_not.mp (not_or.mp hready).2
          split
          · next payload rest _ =>
              have hput := (h.carries.put (route_tcp i) hroom
                (payload, (s.tcp i).peer)).carried .udp
              rw [Function.update_of_ne (by simp), ← hcarried] at hput
              exact congrArg (· ++ _) hput
          · rfl
          · split <;> rfl
  | readWs k =>
      rw [Receiving.nextTask, Receiving.readWs]
      split
      · rfl
      · next hready =>
          have hroom : receiveTree.HasRoom s.queues (.wsReader k) := not_not.mp (not_or.mp hready).2
          split
          · rfl
          · next data rest _ =>
              have hput := (h.carries.put (route_ws k) hroom
                (data, (s.ws k).peer)).carried .udp
              rw [Function.update_of_ne (by simp), ← hcarried] at hput
              exact congrArg (· ++ _) hput
          all_goals rfl

/-- The inbound loop has got everything. -/
structure Complete (s : Receiving ι κ) : Prop where
  tcp : ∀ i, ∃ payloads rest, s.received (.tcp i) = payloads.map (·, (s.tcp i).peer) ∧
    SeedNet.readFrames payloads.length (s.tcp i).arrived = some (payloads, rest) ∧
      ∀ payload behind, SeedNet.readFrame rest ≠ .frame payload behind
  ws : ∀ k, s.received (.ws k) = (wsPayloads (s.ws k).arrived).map (·, (s.ws k).peer)
  udp : s.received .udp = s.onWay

/-- No task can do anything. -/
def AtRest (s : Receiving ι κ) : Prop := ∀ t, s.nextTask t = s

theorem AtRest.queues_eq_nil (hrest : s.AtRest) (p : Place ι κ) (hp : p ≠ .inbound) : s.queues p = [] := by
  by_contra hne
  have hnext : (receiveTree (ι := ι) (κ := κ)).next p ≠ none := by
    cases p <;> first | exact absurd rfl hp | exact Option.some_ne_none _
  obtain ⟨q, hq⟩ := QueueTree.exists_move_ne hne hnext
  exact hq (congrArg Receiving.queues (hrest (.move q)))

theorem AtRest.hasRoom (hrest : s.AtRest) {p : Place ι κ} (hp : p ≠ .inbound) : receiveTree.HasRoom s.queues p := by
  intro c hc
  rw [hrest.queues_eq_nil p hp]
  exact receiveTree.capacity_pos hc

theorem AtRest.socket_eq_nil (hrest : s.AtRest) : s.socket = [] := by
  have hudp := hrest .recvUdp
  rw [nextTask, recvUdp] at hudp
  split at hudp
  · assumption
  · next d rest hsocket =>
      rw [if_pos (hrest.hasRoom (by simp))] at hudp
      have heq : rest = d :: rest := (congrArg Receiving.socket hudp).trans hsocket
      exact absurd heq.symm (List.cons_ne_self d rest)

/-- A frame is shorter than what it was read from. -/
theorem length_of_readFrame {stream payload rest : Bytes} (h : SeedNet.readFrame stream = .frame payload rest) :
    rest.length < stream.length := by
  unfold SeedNet.readFrame at h
  split at h
  · cases h
  · next hlong =>
      dsimp only at h
      split at h
      · cases h
      · split at h
        · cases h
        · cases h
          rw [List.length_drop, List.length_drop]
          have hheader : 0 < frameHeaderLen := by decide
          omega

theorem AtRest.readFrame_ne (hrest : s.AtRest) (h : s.Sound sent) (i : ι) (payload behind : Bytes) :
    SeedNet.readFrame (s.tcp i).incoming ≠ .frame payload behind := by
  intro hread
  have hstep := hrest (.readFrame i)
  by_cases hended : (s.tcp i).ended = true
  · rcases (h.tcp i).ended hended with hlarge | ⟨-, hincomplete⟩
    · exact FrameRead.noConfusion (hlarge.symm.trans hread)
    · exact FrameRead.noConfusion (hincomplete.symm.trans hread)
  · have hready : ¬ ((s.tcp i).ended = true ∨ ¬ receiveTree.HasRoom s.queues (.readLoop i)) :=
      not_or.mpr ⟨hended, not_not.mpr (hrest.hasRoom (by simp))⟩
    rw [nextTask, readFrame, if_neg hready, hread] at hstep
    have htcp := congrFun (congrArg Receiving.tcp hstep) i
    dsimp only at htcp
    rw [Function.update_self] at htcp
    have hlt := length_of_readFrame hread
    rw [← htcp] at hlt
    exact lt_irrefl _ hlt

theorem AtRest.ended_or (hrest : s.AtRest) (k : κ) : (s.ws k).ended = true ∨ (s.ws k).incoming = [] := by
  by_contra hnot
  obtain ⟨hended, hin⟩ := not_or.mp hnot
  have hready : ¬ ((s.ws k).ended = true ∨ ¬ receiveTree.HasRoom s.queues (.wsReader k)) :=
    not_or.mpr ⟨hended, not_not.mpr (hrest.hasRoom (by simp))⟩
  have hstep := hrest (.readWs k)
  obtain ⟨m, rest, hm⟩ := List.exists_cons_of_ne_nil hin
  rw [nextTask, readWs, if_neg hready, hm] at hstep
  have hws := congrFun (congrArg Receiving.ws hstep) k
  have hshorter (heq : rest = (s.ws k).incoming) : False := List.cons_ne_self m rest (hm.symm.trans heq.symm)
  cases m <;> (dsimp only at hws; rw [Function.update_self] at hws)
  · exact hshorter (congrArg WsStream.incoming hws)
  · exact hended (congrArg WsStream.ended hws).symm
  · exact hended (congrArg WsStream.ended hws).symm
  · exact hshorter (congrArg WsStream.incoming hws)

theorem AtRest.complete (hrest : s.AtRest) (h : s.Sound sent) : s.Complete where
  tcp i := by
    have hsent : s.received (.tcp i) = sent (.tcp i) := h.carries.eq_of_empty hrest.queues_eq_nil (.tcp i)
    obtain ⟨payloads, hpayloads, hread⟩ := (h.tcp i).frames
    exact ⟨payloads, _, hsent.trans hpayloads, hread, hrest.readFrame_ne h i⟩
  ws k := by
    have hsent : s.received (.ws k) = sent (.ws k) := h.carries.eq_of_empty hrest.queues_eq_nil (.ws k)
    obtain ⟨payloads, hpayloads, hread⟩ := h.ws k
    have hall := hread []
    rw [List.append_nil] at hall
    have hnone : (if (s.ws k).ended then [] else wsPayloads ((s.ws k).incoming ++ [])) = [] := by
      rcases hrest.ended_or k with hended | hin
      · exact if_pos hended
      · rw [hin, List.append_nil, wsPayloads, ite_self]
    rw [hsent, hpayloads, hall, hnone, List.append_nil]
  udp := by
    have hsent : s.received .udp = sent .udp := h.carries.eq_of_empty hrest.queues_eq_nil .udp
    rw [hsent, onWay, h.carries.carried, hrest.socket_eq_nil, List.map_nil, List.append_nil]

/-! ### The tasks come to rest -/

section remaining

variable [Fintype ι] [Fintype κ]

/-- How far what has arrived is from the inbound loop. -/
def remaining (s : Receiving ι κ) : ℕ :=
  receiveTree.weight s.queues + 3 * s.socket.length +
    ∑ i, (5 * (s.tcp i).incoming.length + if (s.tcp i).ended then 0 else 1) +
    ∑ k, (5 * (s.ws k).incoming.length + if (s.ws k).ended then 0 else 1)

omit [DecidableEq κ] in
theorem remaining_updateTcp (s : Receiving ι κ) (i : ι) (c : TcpStream) (queues : QueueTree.Load _ _ _) :
    remaining { s with tcp := Function.update s.tcp i c, queues := queues } + receiveTree.weight s.queues +
        (5 * (s.tcp i).incoming.length + if (s.tcp i).ended then 0 else 1) =
      s.remaining + receiveTree.weight queues + (5 * c.incoming.length + if c.ended then 0 else 1) := by
  have hsum := QueueTree.sum_update
    (fun (_ : ι) (c : TcpStream) => 5 * c.incoming.length + if c.ended then 0 else 1) s.tcp i c
  rw [remaining, remaining]
  dsimp only at hsum ⊢
  omega

omit [DecidableEq ι] in
theorem remaining_updateWs (s : Receiving ι κ) (k : κ) (c : WsStream) (queues : QueueTree.Load _ _ _) :
    remaining { s with ws := Function.update s.ws k c, queues := queues } + receiveTree.weight s.queues +
        (5 * (s.ws k).incoming.length + if (s.ws k).ended then 0 else 1) =
      s.remaining + receiveTree.weight queues + (5 * c.incoming.length + if c.ended then 0 else 1) := by
  have hsum := QueueTree.sum_update
    (fun (_ : κ) (c : WsStream) => 5 * c.incoming.length + if c.ended then 0 else 1) s.ws k c
  rw [remaining, remaining]
  dsimp only at hsum ⊢
  omega

theorem remaining_recvUdp (hne : s.recvUdp ≠ s) : s.recvUdp.remaining < s.remaining := by
  rw [recvUdp] at hne ⊢
  split at hne
  · exact absurd rfl hne
  · next d rest hsocket =>
      split at hne
      · next hroom =>
          have hweight : receiveTree.weight (receiveTree.put s.queues .udpReceiver
              (Source.udp, (d.received.data, d.received.src))) = receiveTree.weight s.queues + 2 :=
            receiveTree.weight_put hroom _
          rw [if_pos hroom, remaining, remaining, hsocket, List.length_cons]
          dsimp only
          omega
      · exact absurd rfl hne

theorem remaining_readFrame {i : ι} (hne : s.readFrame i ≠ s) : (s.readFrame i).remaining < s.remaining := by
  rw [readFrame] at hne ⊢
  split at hne
  · exact absurd rfl hne
  · next hready =>
      obtain ⟨hended, hroom⟩ := not_or.mp hready
      have hroom : receiveTree.HasRoom s.queues (.readLoop i) := not_not.mp hroom
      rw [if_neg hready]
      have hends := remaining_updateTcp s i { s.tcp i with ended := true } s.queues
      rw [if_neg hended] at hends
      dsimp only at hends
      rw [if_pos rfl] at hends
      cases hread : SeedNet.readFrame (s.tcp i).incoming with
      | frame payload rest =>
          have hweight : receiveTree.weight (receiveTree.put s.queues (.readLoop i)
              (Source.tcp i, (payload, (s.tcp i).peer))) = receiveTree.weight s.queues + 4 :=
            receiveTree.weight_put hroom _
          have hlt := length_of_readFrame hread
          have hreads := remaining_updateTcp s i { s.tcp i with incoming := rest }
            (receiveTree.put s.queues (.readLoop i) (Source.tcp i, (payload, (s.tcp i).peer)))
          rw [if_neg hended] at hreads
          dsimp only at hreads ⊢
          omega
      | tooLarge =>
          dsimp only
          omega
      | incomplete =>
          rw [hread] at hne
          dsimp only at hne ⊢
          split at hne
          · next hclosed =>
              rw [if_pos hclosed]
              omega
          · exact absurd rfl hne

theorem remaining_readWs {k : κ} (hne : s.readWs k ≠ s) : (s.readWs k).remaining < s.remaining := by
  rw [readWs] at hne ⊢
  split at hne
  · exact absurd rfl hne
  · next hready =>
      obtain ⟨hended, hroom⟩ := not_or.mp hready
      have hroom : receiveTree.HasRoom s.queues (.wsReader k) := not_not.mp hroom
      rw [if_neg hready]
      have hends := remaining_updateWs s k { s.ws k with ended := true } s.queues
      have hskips (rest : List WsMessage) := remaining_updateWs s k { s.ws k with incoming := rest } s.queues
      rw [if_neg hended] at hends
      dsimp only at hends hskips
      rw [if_pos rfl] at hends
      cases hin : (s.ws k).incoming with
      | nil =>
          rw [hin] at hne
          exact absurd rfl hne
      | cons m rest =>
          have hrest := hskips rest
          rw [if_neg hended, hin, List.length_cons] at hrest
          cases m with
          | close | error =>
              dsimp only
              omega
          | other =>
              dsimp only
              omega
          | binary data =>
              have hweight : receiveTree.weight (receiveTree.put s.queues (.wsReader k)
                  (Source.ws k, (data, (s.ws k).peer))) = receiveTree.weight s.queues + 4 :=
                receiveTree.weight_put hroom _
              have hreads := remaining_updateWs s k { s.ws k with incoming := rest }
                (receiveTree.put s.queues (.wsReader k) (Source.ws k, (data, (s.ws k).peer)))
              rw [if_neg hended, hin, List.length_cons] at hreads
              dsimp only at hreads ⊢
              omega

/-- Every step of a task brings something closer to the inbound loop. -/
theorem remaining_nextTask_lt (s : Receiving ι κ) (t : ReceiveTask ι κ) (hne : s.nextTask t ≠ s) :
    (s.nextTask t).remaining < s.remaining := by
  cases t with
  | recvUdp => exact remaining_recvUdp hne
  | readFrame i => exact remaining_readFrame hne
  | readWs k => exact remaining_readWs hne
  | move p =>
      have hmove : receiveTree.move s.queues p ≠ s.queues := fun heq => hne (by rw [nextTask, heq])
      have hlt := QueueTree.weight_move_lt hmove
      rw [nextTask, remaining, remaining]
      dsimp only
      omega

/-- **Everything gets through.**  After any run, and in whatever order the tasks then go on, they come to rest after
finitely many steps; and when no task can do anything, `recv_from` has returned every frame that can be read of the
accepted TCP connections, every payload of the WebSocket connections and every datagram that no STUN query took. -/
theorem everything_gets_through (transports : MultiTransport) (tcpPeer : ι → SocketAddr) (wsPeer : κ → SocketAddr)
    (as : List (ReceiveAction ι κ)) :
    let s := exec next (start transports tcpPeer wsPeer) as
    ∃ n, ∀ ts, Along nextTask (fun s t => s.nextTask t ≠ s) s ts → ts.length ≤ n ∧
      ((exec nextTask s ts).AtRest → (exec nextTask s ts).Complete ∧
        (exec nextTask s ts).received .udp = s.onWay) := by
  intro s
  obtain ⟨sent, hs⟩ := sound_exec transports tcpPeer wsPeer as
  refine ⟨s.remaining, fun ts hts => ⟨hts.length_le remaining remaining_nextTask_lt, fun hrest => ?_⟩⟩
  obtain ⟨⟨sent', h⟩, honWay⟩ :
      (∃ sent', (exec nextTask s ts).Sound sent') ∧ (exec nextTask s ts).onWay = s.onWay := by
    refine Run.exec_invariant (I := fun s' : Receiving ι κ => (∃ sent', s'.Sound sent') ∧ s'.onWay = s.onWay)
      (fun s' t hs' => ?_) ⟨⟨sent, hs⟩, rfl⟩ ts
    obtain ⟨⟨sent', h⟩, heq⟩ := hs'
    exact ⟨h.nextTask t, (h.onWay_nextTask t).trans heq⟩
  exact ⟨hrest.complete h, (hrest.complete h).udp.trans honWay⟩

end remaining

end Receiving

end SeedNet
