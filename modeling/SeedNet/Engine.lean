import SeedNet.Message
import SeedNet.Peer
import SeedNet.Routing

/-! # The engine's shared state

The maps and flags that the loops of `crates/core` share (`InboundArgs`, `InitiatorArgs`,
`OutboundArgs`, …), collected in one record `Engine τ`.  The type `τ` of a session's transport is a
parameter: the node model uses `SecureTransport`, the message-level network `Unit`.

Handlers do not encrypt.  They return the messages they send over sessions as `Send`s, which the
caller encrypts in order (`get_mut(..)`, `encrypt`, `send_to(..)` in the source); a message to a
peer without a session is dropped there, as `get_mut` finds nothing.

The second half of the file is what both handshake roles do once a handshake is complete, one
definition for each update of the source, since other tasks can run between them. -/

namespace SeedNet

/-- Per-peer session state: transport and underlay address. -/
structure PeerSession (τ : Type) where
  transport : τ
  underlay : TransportAddr
deriving DecidableEq

structure Engine (τ : Type) where
  ourPeerId : PeerId
  siOverlay : OverlayAddr
  siOverlayIpv6 : Ipv6Addr
  siHostname : String
  sessions : Map PeerId (PeerSession τ) := ∅
  addrIndex : Map TransportAddr PeerId := ∅
  relayCandidates : Map PeerId SocketAddr := ∅
  /-- destination → next-hop relay and hop count -/
  relayPaths : Map PeerId (PeerId × UInt8) := ∅
  routingTable : RoutingTable := {}
  peerMgr : PeerManager := {}
  stunAddr : Option SocketAddr := none
  canRelayFlag : Bool := false

/-- A message sent over the session of `peer`, to `addr` or else to the session's underlay address. -/
structure Send where
  peer : PeerId
  msg : Message
  addr : Option TransportAddr := none
deriving DecidableEq

/-- What handling one input leaves behind: the engine, the messages to send and the packets
written to the TUN device. -/
structure Reaction (τ : Type) where
  engine : Engine τ
  sends : List Send := []
  tun : List Bytes := []

/-- `u8::saturating_add`. -/
def saturatingAdd (a b : UInt8) : UInt8 := if a.toNat + b.toNat < 256 then a + b else 255

namespace Engine

variable {τ : Type} (blake3 : Blake3) (e : Engine τ)

/-- Sessions over UDP as directory entries of direct neighbours, without the peer `skip`. -/
def directPeers (skip : PeerId) : List DirectoryEntry :=
  e.sessions.entries.filterMap fun s =>
    match s.2.underlay with
    | .udp a => if s.1 = skip then none else some (s.1, a, 1)
    | _ => none

/-- The keys of the sessions other than `skip`. -/
def otherPeers (skip : PeerId) : List PeerId := e.sessions.keys.filter (· ≠ skip)

/-- A directory sent to every session other than `skip`. -/
def tellOthers (skip : PeerId) (entries : List DirectoryEntry) : List Send :=
  (e.otherPeers skip).map fun p => { peer := p, msg := .peerDirectory entries }

/-- A directory sent to `peer`, unless it is empty. -/
def tellPeer (peer : PeerId) (entries : List DirectoryEntry) (addr : Option TransportAddr) : List Send :=
  if entries.isEmpty then [] else [{ peer := peer, msg := .peerDirectory entries, addr := addr }]

/-- `derive_overlay_addr(id)`, then `add_route`. -/
def addDerivedRoute (peerId : PeerId) : Engine τ :=
  { e with routingTable := e.routingTable.addRoute (deriveOverlayAddr blake3 peerId) peerId }

/-- `discover` and the three transitions to `Connected`. -/
def registerPeer (peerId : PeerId) (underlay : SocketAddr) : Engine τ :=
  { e with peerMgr := e.peerMgr.register peerId underlay }

/-! ### After a completed handshake -/

/-- Direct → remove any relay path. -/
def removeRelayPath (peerId : PeerId) : Engine τ := { e with relayPaths := e.relayPaths.erase peerId }

def insertSession (peerId : PeerId) (transport : τ) (underlay : TransportAddr) : Engine τ :=
  { e with sessions := e.sessions.insert peerId ⟨transport, underlay⟩ }

def insertAddrIndex (underlay : TransportAddr) (peerId : PeerId) : Engine τ :=
  { e with addrIndex := e.addrIndex.insert underlay peerId }

/-- `Message::SessionInit` with our own addresses. -/
def sessionInit : Message := .sessionInit e.siOverlay (some e.siOverlayIpv6) e.siHostname e.stunAddr

def sendSessionInit (peerId : PeerId) (addr : TransportAddr) : List Send :=
  [{ peer := peerId, msg := e.sessionInit, addr := some addr }]

/-- Whether this node relays and knows its public address. -/
def relayAddr : Option SocketAddr := if e.canRelayFlag then e.stunAddr else none

/-- `Message::RelayAnnounce`, if we are a relay. -/
def announce (peerId : PeerId) (addr : TransportAddr) : List Send :=
  match e.relayAddr with
  | some ourPub => [{ peer := peerId, msg := .relayAnnounce e.ourPeerId ourPub, addr := some addr }]
  | none => []

/-- The directories that the initiator of a handshake sends, if we are a relay. -/
def initiatorDirectories (peerId : PeerId) (addr : SocketAddr) : List Send :=
  match e.relayAddr with
  | some _ =>
    tellPeer peerId (e.directPeers peerId) (some (.udp addr)) ++ e.tellOthers peerId [(peerId, addr, 1)]
  | none => []

/-- The updates of a completed handshake in one go. -/
def complete (peerId : PeerId) (transport : τ) (underlay : TransportAddr) : Engine τ :=
  ((((e.removeRelayPath peerId).insertSession peerId transport underlay).insertAddrIndex underlay
    peerId).addDerivedRoute blake3 peerId).registerPeer peerId underlay.socketAddr

/-! ### Periodic and one-off broadcasts -/

/-- Paths to peers that are not in `known`, with their hop counts, as far as their public address
is known. -/
def relayedPeers (skip : PeerId) (known : List DirectoryEntry) : List DirectoryEntry :=
  e.relayPaths.entries.filterMap fun r =>
    if r.1 ≠ skip ∧ ¬ known.any (fun k => k.1 = r.1) then
      (e.peerMgr.get r.1).bind fun p => p.publicAddr.map fun a => (r.1, a, r.2.2)
    else none

/-- The entries of all sessions over UDP. -/
def allDirectPeers : List DirectoryEntry :=
  e.sessions.entries.filterMap fun s =>
    match s.2.underlay with
    | .udp a => some (s.1, a, 1)
    | _ => none

/-- Every session gets `entries` without itself. -/
def tellAll (entries : List DirectoryEntry) : List Send :=
  e.sessions.keys.flatMap fun p => tellPeer p (entries.filter fun k => k.1 ≠ p) none

/-- The directory broadcast after STUN has completed. -/
def postStunBroadcast : List Send :=
  if e.sessions.len < 2 then []
  else e.tellAll (e.allDirectPeers ++ e.relayedPeers e.ourPeerId e.allDirectPeers)

/-- The periodic directory broadcast of relays. -/
def periodicBroadcast : List Send :=
  match e.relayAddr with
  | some _ => if e.allDirectPeers.length < 2 then [] else e.tellAll e.allDirectPeers
  | none => []

/-- `PeerEvent::Removed`: the session, then its `addr_index` entry. -/
def removeSession (peerId : PeerId) : Engine τ := { e with sessions := e.sessions.erase peerId }

def removeAddrIndex (underlay : TransportAddr) : Engine τ :=
  { e with addrIndex := e.addrIndex.erase underlay }

end Engine

end SeedNet
