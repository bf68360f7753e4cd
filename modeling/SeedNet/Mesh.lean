import SeedNet.Loops
import SeedNet.Completing

/-! # Many nodes and their datagrams

A `Mesh` is any number of nodes with the datagrams in flight between them; `Mesh.Delivers` is the
arrival of one of these, at the node whose address it names.  The mesh remembers the messages that the
nodes have decrypted and the packets they have written to their TUN devices.

`Link` says that two nodes have a working session: what the one encrypts next, the other takes for data
and decrypts.  `Link.opens` is the receiving end of a link and `Link.sends` the sending end. -/

namespace SeedNet

variable {S : Snow}

/-- A datagram in flight and the address it comes from. -/
structure Flight (S : Snow) where
  src : TransportAddr
  datagram : Datagram S

structure Mesh (S : Snow) where
  node : PeerId → Node S
  inFlight : List (Flight S) := []
  /-- the messages that the nodes have decrypted -/
  handled : List (PeerId × Message) := []
  /-- the packets that the nodes have written to their TUN devices -/
  tun : List (PeerId × Bytes) := []

namespace Mesh

variable (blake3 : Blake3) (members : List PeerId) (addr : PeerId → TransportAddr)

/-- The node `v` has made a step; `rest` is in flight besides what it sent. -/
def after (m : Mesh S) (v : PeerId) (o : Outcome S) (rest : List (Flight S)) : Mesh S where
  node := Function.update m.node v o.node
  inFlight := rest ++ o.out.map fun d => { src := addr v, datagram := d }
  handled := m.handled ++ o.handled.toList.map fun msg => (v, msg)
  tun := m.tun ++ o.tun.map fun packet => (v, packet)

/-- A datagram in flight arrives. -/
inductive Delivers : Mesh S → Mesh S → Prop
  | deliver (m : Mesh S) (v : PeerId) (before after : List (Flight S)) (p : Flight S) (a : Arrival S)
      (hv : v ∈ members) (hflight : m.inFlight = before ++ p :: after) (hdst : p.datagram.dst = addr v)
      (hfrom : a.fromAddr = p.src) (hdata : a.data = p.datagram.bytes) :
      Delivers m (m.after addr v ((m.node v).step blake3 (.receive a)) (before ++ after))

/-- The node `x` reads a packet from its TUN device. -/
def inject (m : Mesh S) (x : PeerId) (candidate : Option PeerId) (packet : Bytes) : Mesh S :=
  m.after addr x ((m.node x).loopStep blake3 (.tunPacket candidate packet)) m.inFlight

variable {blake3} {members} {addr}

/-- The only datagram in flight is the one that is delivered. -/
theorem Delivers.of_single {m m' : Mesh S} {p : Flight S} (h : Delivers blake3 members addr m m')
    (hflight : m.inFlight = [p]) : ∃ v a, v ∈ members ∧ p.datagram.dst = addr v ∧ a.fromAddr = p.src ∧
      a.data = p.datagram.bytes ∧ m' = m.after addr v ((m.node v).step blake3 (.receive a)) [] := by
  obtain ⟨v, before, after, q, a, hv, hq, hdst, hfrom, hdata⟩ := h
  rw [hflight] at hq
  obtain ⟨rfl, hcons⟩ | ⟨-, hnil⟩ := List.singleton_eq_append_iff.mp hq
  · obtain ⟨rfl, rfl⟩ := List.cons.inj hcons
    exact ⟨v, a, hv, hdst, hfrom, hdata, rfl⟩
  · cases hnil

end Mesh

/-! ### Links -/

/-- An idle inbound loop takes the message that is sealed for a session. -/
theorem Node.opens_sealed {n : Node S} {a : Arrival S} {peerId : PeerId} {session : PeerSession (SecureTransport S)}
    {ts : S.StatelessTransportState} {nonce : UInt64} {msg : Message} {d : Datagram S} (hidle : n.inbound = .idle)
    (hfrom : n.dataFrom a = some peerId) (hlookup : n.engine.sessions.lookup peerId = some session)
    (hdata : a.data = d.bytes) (hsealed : d.Sealed ts nonce msg) (hreads : Snow.Reads ts session.transport.state)
    (hfresh : session.transport.nonceWindow.fresh nonce = true)
    (htagged : ∀ payload room ct, S.transportWrite ts nonce payload room = .ok ct → ct.length = payload.length + 16)
    (hroom : (serializeMessage msg).length ≤ n.plainBuf.length) (hmsg : msg.Encodable) :
    ∃ t, n.opens a = some
      ({ n.retainResponders a.now with
          engine := n.engine.setTransport peerId session t
          plainBuf := copyInto n.plainBuf 0 (serializeMessage msg) }, msg) := by
  obtain ⟨t, hdec⟩ := SecureTransport.decryptInto_sealed hsealed hreads hfresh htagged hroom
  refine ⟨t, ?_⟩
  have hread := deserialize_serialize msg hmsg []
  rw [List.append_nil] at hread
  have hlookup' : (n.retainResponders a.now).engine.sessions.lookup peerId = some session := hlookup
  have hbuf : (n.retainResponders a.now).plainBuf = n.plainBuf := rfl
  rw [opens_of_idle n a hidle, hfrom, Option.bind_some]
  simp only [decryptData, hlookup', hdata, hbuf, hdec, copyInto_zero_take, hread]
  rfl

/-- A ciphertext is 16 bytes longer than the plaintext. -/
def Snow.Tagged (S : Snow) : Prop :=
  ∀ (t : S.StatelessTransportState) nonce payload room ct, S.transportWrite t nonce payload room = .ok ct →
    ct.length = payload.length + 16

/-- The sessions `su` of `u` with `v` and `sv` of `v` with `u` decrypt what their other end encrypts, and
nothing from `u` to `v` is lost. -/
structure Link (addr : PeerId → TransportAddr) (nodes : PeerId → Node S) (u v : PeerId)
    (su sv : PeerSession (SecureTransport S)) : Prop where
  session : (nodes u).engine.sessions.lookup v = some su
  underlay : su.underlay = addr v
  other : (nodes v).engine.sessions.lookup u = some sv
  /-- Noise encrypts what is short enough -/
  encrypts : ∀ payload : Bytes, payload.length + 16 ≤ maxMessageLen →
    ∃ ct, S.transportWrite su.transport.state su.transport.sendNonce payload (payload.length + 16) = .ok ct
  decrypts : Snow.Reads su.transport.state sv.transport.state
  /-- the next nonce of `u` is not a replay for `v` -/
  fresh : sv.transport.nonceWindow.fresh su.transport.sendNonce = true
  /-- the prefixes of the other branches of the inbound loop begin with `seednet-` -/
  unprefixed : toLeBytes su.transport.sendNonce ≠ holePunchProbePrefix.take nonceLen
  indexed : (nodes v).engine.addrIndex.lookup (addr u) = some u
  answered : (nodes v).pendingResponders.lookup (addr u).socketAddr = none
  idle : (nodes v).inbound = .idle
  buffer : maxUdp ≤ (nodes v).plainBuf.length

def Linked (addr : PeerId → TransportAddr) (nodes : PeerId → Node S) (u v : PeerId) : Prop :=
  ∃ su sv, Link addr nodes u v su sv

variable {addr : PeerId → TransportAddr} {nodes : PeerId → Node S} {u v : PeerId}
  {su sv : PeerSession (SecureTransport S)}

theorem not_startsWith_sealed {nonce : UInt64} {ct pre : Bytes} (hlen : nonceLen ≤ pre.length)
    (hne : toLeBytes nonce ≠ pre.take nonceLen) : startsWith (toLeBytes nonce ++ ct) pre = false := by
  apply Bool.eq_false_iff.mpr
  intro hstarts
  obtain ⟨rest, hrest⟩ := startsWith_iff.mp hstarts
  apply hne
  have htake := congrArg (List.take nonceLen) hrest
  rw [List.take_append_of_le_length hlen] at htake
  exact (List.take_left' (toLeBytes_length nonce)).symm.trans htake

/-- The inbound loop takes a datagram of `u` for data. -/
theorem Link.dataFrom (h : Link addr nodes u v su sv) {a : Arrival S} {ct : Bytes} (hfrom : a.fromAddr = addr u)
    (hdata : a.data = toLeBytes su.transport.sendNonce ++ ct) : (nodes v).dataFrom a = some u := by
  have hpunch : startsWith a.data holePunchProbePrefix = false := by
    rw [hdata]
    exact not_startsWith_sealed (by decide) h.unprefixed
  have hpending : (nodes v).pendingInitiator a = none := by
    have hstarts : startsWith a.data noiseHandshakeResponderPrefix = false := by
      rw [hdata]
      exact not_startsWith_sealed (by decide) h.unprefixed
    simp only [Node.pendingInitiator, hstarts, Bool.false_eq_true, if_false]
  have hresponder : ((nodes v).retainResponders a.now).pendingResponders.lookup a.fromAddr.socketAddr = none := by
    rw [Node.lookup_retainResponders, hfrom, h.answered, Option.filter_none]
  simp only [Node.dataFrom, hpunch, Bool.false_eq_true, if_false, hpending, hresponder]
  rw [hfrom, h.indexed]

/-- What `u` has encrypted next, `v` decrypts; its other sessions stay as they are. -/
theorem Link.opens (h : Link addr nodes u v su sv) (htagged : S.Tagged) {d : Datagram S} {msg : Message}
    (hsealed : d.Sealed su.transport.state su.transport.sendNonce msg) (hmsg : msg.Encodable)
    (hlen : (serializeMessage msg).length ≤ maxUdp) {a : Arrival S} (hfrom : a.fromAddr = addr u)
    (hdata : a.data = d.bytes) :
    ∃ m, (nodes v).opens a = some (m, msg) ∧
      ∀ w, w ≠ u → m.engine.sessions.lookup w = (nodes v).engine.sessions.lookup w := by
  have htaken : (nodes v).dataFrom a = some u := by
    obtain ⟨room, ct, -, hbytes⟩ := hsealed
    exact h.dataFrom hfrom (hdata.trans hbytes)
  obtain ⟨t, hopens⟩ := Node.opens_sealed h.idle htaken h.other hdata hsealed h.decrypts h.fresh
    (htagged su.transport.state su.transport.sendNonce) (hlen.trans h.buffer) hmsg
  exact ⟨_, hopens, fun w hw => (Map.lookup_replace ..).trans (if_neg hw)⟩

/-- What `u` sends to `v`, with its session as it was, is sealed for `v`. -/
theorem Link.sends (h : Link addr nodes u v su sv) {e : Engine (SecureTransport S)}
    (hsession : e.sessions.lookup v = (nodes u).engine.sessions.lookup v) (msg : Message)
    (hlen : (serializeMessage msg).length + 16 ≤ maxMessageLen) :
    ∃ d, (e.transmit [{ peer := v, msg := msg }]).2 = [d] ∧ d.dst = addr v ∧
      d.Sealed su.transport.state su.transport.sendNonce msg := by
  obtain ⟨ct, hwrite⟩ := h.encrypts (serializeMessage msg) hlen
  have hs : e.sessions.lookup v = some su := hsession.trans h.session
  obtain ⟨d, hout, hdst, hsealed, -⟩ := Engine.transmit_single (s := { peer := v, msg := msg }) hs hwrite
  exact ⟨d, hout, hdst.trans h.underlay, hsealed⟩

end SeedNet
