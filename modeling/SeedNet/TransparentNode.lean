import SeedNet.Tasks
import SeedNet.TransparentNoise

/-! # Nodes over the transparent Noise instance

The nodes and the handshake datagrams that examples of runs are made of: node `k` has the device
key `k`, the identity `k` and, unless an example says otherwise, the address `addr k`. -/

namespace SeedNet.Transparent

def secret : Bytes32 := .replicate 200

def addr (k : UInt8) : SocketAddr := .v4 ⟨192, 0, 2, k⟩ 51820

def node (k : UInt8) : Node transparent where
  networkSecret := secret
  deviceKeys := { x25519StaticSecret := .replicate k, x25519PublicKey := .replicate k }
  engine :=
    { ourPeerId := .replicate k
      siOverlay := ⟨10, 88, k, k⟩
      siOverlayIpv6 := default
      siHostname := "node" }
  plainBuf := List.replicate 64 0

/-- Any function will do as BLAKE3. -/
def blake3 : Blake3 := fun bytes _ => bytes.headD 0

/-- Message A of an initiator with the ephemeral `ei`. -/
def messageA (ei : UInt8) : Bytes := noiseHandshakeInitiatorPrefix ++ [10, ei]

/-- Message B of the node `k` for the ephemerals `ei` and `er`. -/
def messageB (k ei er : UInt8) : Bytes :=
  noiseHandshakeResponderPrefix ++ 11 :: ei :: er :: (secret.bytes ++ (Bytes32.replicate k).bytes)

/-- Message C of the node `k` to the node `r` for the ephemerals `ei` and `er`. -/
def messageC (k r ei er : UInt8) : Bytes :=
  12 :: ei :: er :: (secret.bytes ++ ((Bytes32.replicate k).bytes ++ (Bytes32.replicate r).bytes))

/-- A datagram from `fromAddr`, with the randomness `rng` for its turn. -/
def arrival (fromAddr : SocketAddr) (rng : UInt8) (data : Bytes) : Arrival transparent :=
  { now := 0, nowMs := 0, rng := rng, fromAddr := .udp fromAddr, data := data }

/-- Node `k` shakes hands with node 1 from `fromAddr`, and the inbound loop finishes its turns. -/
def handshakeFrom (k : UInt8) (fromAddr : SocketAddr) (ei er : UInt8) : List (NodeAction transparent) :=
  [.receive (arrival fromAddr er (messageA ei)), .receive (arrival fromAddr er (messageC k 1 ei er))] ++
    List.replicate Node.Inbound.length .inbound

/-- Node `k` with a plaintext buffer that takes every message of the examples. -/
def roomyNode (k : UInt8) : Node transparent := { node k with plainBuf := List.replicate 256 0 }

/-- The initiator of a handshake from `fromAddr` sends node 1 a message, under this nonce of its session. -/
def messageArrival (fromAddr : SocketAddr) (ei er : UInt8) (nonce : UInt64) (msg : Message) : Arrival transparent :=
  arrival fromAddr 0
    (datagramOf { initiator := true, initiatorEph := ei, responderEph := er } nonce (serializeMessage msg))

def messageFrom (fromAddr : SocketAddr) (ei er : UInt8) (nonce : UInt64) (msg : Message) : NodeAction transparent :=
  .receive (messageArrival fromAddr ei er nonce msg)

end SeedNet.Transparent
