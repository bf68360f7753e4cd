import SeedNet.Common
import SeedNet.Postcard
import SeedNet.Noise
import SeedNet.Run
import SeedNet.TransparentNoise
import SeedNet.Replay
import SeedNet.FreshNonces
import SeedNet.Message
import SeedNet.Peer
import SeedNet.Routing
import SeedNet.Engine
import SeedNet.Handlers
import SeedNet.Outbound
import SeedNet.RelayNetwork
import SeedNet.RelayCascade
import SeedNet.RelayLoop
import SeedNet.Session
import SeedNet.Node
import SeedNet.Handshake
import SeedNet.Tasks
import SeedNet.Provenance
import SeedNet.Agreement
import SeedNet.TwoNodes
import SeedNet.TransparentHandshake
import SeedNet.SessionAgreement
import SeedNet.Completing
import SeedNet.Reordering
import SeedNet.Establishing
import SeedNet.InverseIndex
import SeedNet.TransparentNode
import SeedNet.AddrIndex
import SeedNet.HolePunch
import SeedNet.Rehandshake
import SeedNet.PendingHandshake
import SeedNet.RouteInverse
import SeedNet.Allocation
import SeedNet.ReturnPath
import SeedNet.Loops
import SeedNet.HandlerEffects
import SeedNet.Threads
import SeedNet.SharedState
import SeedNet.HandlerThreads
import SeedNet.Host
import SeedNet.RecordHandles
import SeedNet.CallsAlone
import SeedNet.HandlersAlone
import SeedNet.DirectPaths
import SeedNet.HealthCheck
import SeedNet.RouteOwnership
import SeedNet.OwnIdentity
import SeedNet.ReachablePeers
import SeedNet.RelayPromise
import SeedNet.Mesh
import SeedNet.RelayChain
import SeedNet.RelayPlaintext
import SeedNet.Flooding
import SeedNet.FirstHops
import SeedNet.PeerRemoval
import SeedNet.StunQueries
import SeedNet.Locks
import SeedNet.ShardGuards
import SeedNet.LiveRecords
import SeedNet.Json
import SeedNet.JsonWriter
import SeedNet.JsonStrings
import SeedNet.Digits
import SeedNet.PeersSnapshot
import SeedNet.Utf8
import SeedNet.Ipv6Text
import SeedNet.IdentifierText
import SeedNet.PeersFile
import SeedNet.PeerRecords
import SeedNet.SendPaths
import SeedNet.Nonces
import SeedNet.Frames
import SeedNet.StaleRoutes
import SeedNet.RouterAgreement
import SeedNet.MessageChannel
import SeedNet.ChannelExpiry
import SeedNet.ChannelIsolation
import SeedNet.TcpTransport
import SeedNet.HopCounts
import SeedNet.DirectorySize
import SeedNet.StateEvents
import SeedNet.CollisionProbing
import SeedNet.LeastOffer
import SeedNet.DirectoryOrder
import SeedNet.FrameStreams
import SeedNet.PunchEncoding
import SeedNet.StunResponse
import SeedNet.InterfaceRoutes
import SeedNet.PendingEntries
import SeedNet.Files
import SeedNet.FirstIdentity
import SeedNet.Responses
import SeedNet.OpenNetwork
import SeedNet.OpenPackets
import SeedNet.SecureChannel
import SeedNet.HandledOnce
import SeedNet.Destinations
import SeedNet.Membership
import SeedNet.Discovery
import SeedNet.MultiTransport
import SeedNet.CommandLine
