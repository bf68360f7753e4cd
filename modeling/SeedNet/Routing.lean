import SeedNet.Common

/-! # The routing table

`RoutingTable` of `crates/routing/src/lib.rs`: the peer that owns an overlay address, and the
overlay address of a peer, as two maps that `addRoute`, `removeRoute` and `removePeer` update;
and the part of an IPv4 header that routing reads. -/

namespace SeedNet

structure RoutingTable where
  routes : Map Ipv4Addr PeerId := ∅
  peerAddrs : Map PeerId Ipv4Addr := ∅
deriving DecidableEq

namespace RoutingTable

instance : Inhabited RoutingTable := ⟨{}⟩

def addRoute (t : RoutingTable) (overlay : OverlayAddr) (peerId : PeerId) : RoutingTable where
  routes := t.routes.insert overlay.ip peerId
  peerAddrs := t.peerAddrs.insert peerId overlay.ip

def removeRoute (t : RoutingTable) (overlay : OverlayAddr) : Option PeerId × RoutingTable :=
  match t.routes.lookup overlay.ip with
  | none => (none, t)
  | some peerId =>
    (some peerId, { routes := t.routes.erase overlay.ip, peerAddrs := t.peerAddrs.erase peerId })

def removePeer (t : RoutingTable) (peerId : PeerId) : Option OverlayAddr × RoutingTable :=
  match t.peerAddrs.lookup peerId with
  | none => (none, t)
  | some ip => (some ⟨ip⟩, { routes := t.routes.erase ip, peerAddrs := t.peerAddrs.erase peerId })

def lookup (t : RoutingTable) (dstIp : Ipv4Addr) : Option PeerId := t.routes.lookup dstIp

def lookupPeerIp (t : RoutingTable) (peerId : PeerId) : Option Ipv4Addr := t.peerAddrs.lookup peerId

end RoutingTable

def ipv4HeaderMinLen : ℕ := 20

def ipv4SrcOffset : ℕ := 12

def ipv4DstOffset : ℕ := 16

structure ParsedPacket where
  srcIp : Ipv4Addr
  dstIp : Ipv4Addr
  payload : Bytes
deriving DecidableEq

/-- The four bytes of `data` from `i` on. -/
def ipv4At (data : Bytes) (i : ℕ) : Ipv4Addr :=
  ⟨data.getD i 0, data.getD (i + 1) 0, data.getD (i + 2) 0, data.getD (i + 3) 0⟩

/-- The addresses of an IPv4 packet, or the text of the error. -/
def parseIpv4Packet (data : Bytes) : Except String ParsedPacket :=
  if data.length < ipv4HeaderMinLen then .error s!"IPv4 packet too short: {data.length} bytes"
  else
    let version := data.headD 0 / 16
    if version ≠ 4 then .error s!"not an IPv4 packet: version {version}"
    else .ok { srcIp := ipv4At data ipv4SrcOffset, dstIp := ipv4At data ipv4DstOffset, payload := data }

end SeedNet
