import SeedNet.Engine

/-! # The outbound loop

One turn of `run_outbound_loop` on a packet read from the TUN device, and the requests for relays
that an initiator sends when its handshake has timed out.

The maps are iterated in no particular order; where the source takes the first relay candidate
its iterator yields, `handleTunPacket` is given that candidate. -/

namespace SeedNet.Engine

variable {τ : Type} (e : Engine τ)

/-- A request to relay traffic to `peerId`, sent to `candidate` if that is a relay candidate. -/
def requestVia (candidate : Option PeerId) (peerId : PeerId) : List Send :=
  match candidate with
  | some relayId =>
    if relayId ∈ e.relayCandidates then [{ peer := relayId, msg := .relayRequest peerId }] else []
  | none => []

/-- The removal of the stale route of a peer. -/
def removeStaleRoute (peerId : PeerId) : Engine τ :=
  match e.routingTable.lookupPeerIp peerId with
  | some overlay => { e with routingTable := (e.routingTable.removeRoute ⟨overlay⟩).2 }
  | none => e

/-- The peer whose route that is. -/
def staleOwner (peerId : PeerId) : Option PeerId :=
  (e.routingTable.lookupPeerIp peerId).bind e.routingTable.lookup

/-- The destination of a packet, `0.0.0.0` if it is not IPv4. -/
def packetDst (packet : Bytes) : Ipv4Addr :=
  match parseIpv4Packet packet with
  | .ok p => p.dstIp
  | .error _ => .unspecified

/-- A packet for `peerId`: over its session, through a relay, or answered by a request for a relay. -/
def routePacket (candidate : Option PeerId) (packet : Bytes) (peerId : PeerId) : Reaction τ :=
  if peerId ∈ e.sessions then { engine := e, sends := [{ peer := peerId, msg := .data packet }] }
  else
    match e.relayPaths.lookup peerId with
    | some (relayId, _) =>
      { engine := e
        sends := [{ peer := relayId, msg := .relayData e.ourPeerId peerId (serializeMessage (.data packet)) }] }
    | none => { engine := e.removeStaleRoute peerId, sends := e.requestVia candidate peerId }

/-- A packet from the TUN device: ignored, written back, or routed. -/
def handleTunPacket (candidate : Option PeerId) (packet : Bytes) : Reaction τ :=
  if packet.isEmpty then { engine := e }
  else if packetDst packet = e.siOverlay.ip then { engine := e, tun := [packet] }
  else
    match e.routingTable.lookup (packetDst packet) with
    | none => { engine := e }
    | some peerId => e.routePacket candidate packet peerId

/-- The handshake with `addr` timed out: every other relay candidate is asked to relay to the peer
known at that address. -/
def timeoutRequests (addr : SocketAddr) : List Send :=
  match e.addrIndex.lookup (.udp addr) with
  | none => []
  | some targetId =>
    (e.relayCandidates.keys.filter (· ≠ targetId)).map fun relayId =>
      { peer := relayId, msg := .relayRequest targetId }

end SeedNet.Engine
