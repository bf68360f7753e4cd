import SeedNet.SharedState

/-! # Handlers as threads

The handlers of `crates/core/src/inbound.rs`, the treatment of a packet by `crates/core/src/outbound.rs` and of a
session by the health check, as threads: one step for each operation on the shared maps, in the order of the
source.  `Engine.handleMessage`, `Engine.handleTunPacket` and `Engine.healthcheck` are the same code without
interruption, as `HandlersAlone.lean` proves.

The lists that a handler sends in a directory are each collected in one step; they are sent one message at a time.

A handler sets neither address nor state through a handle, and its calls on the peer manager move a record along
`registration` only (`Op.Begins`); those of the outbound loop and of the health check move none (`Op.Looks`). -/

namespace SeedNet

open Threads (Thread)

variable {S : Snow}

/-- A handler that runs beside other tasks. -/
abbrev Handler (S : Snow) := Thread (Shared S) Op (Option ℕ)

/-- The transitions of a new record to `Connected`. -/
def registration : List PeerState := [.connecting, .handshaking, .connected]

namespace Handler

variable (blake3 : Blake3)

/-- The messages are sent one after the other. -/
def sendAll : List Send → Handler S → Handler S
  | [], k => k
  | m :: ms, k => .op (.send m) fun _ => sendAll ms k

/-- The setters are called one after the other, through a handle if there is one. -/
def setAll (p : Option ℕ) : List PeerSetter → Handler S → Handler S
  | [], k => k
  | f :: fs, k => .op (.set p f) fun _ => setAll p fs k

/-- `derive_overlay_addr(id)`, then `add_route`. -/
def addDerivedRoute (peerId : PeerId) (k : Handler S) : Handler S :=
  .op (.route (deriveOverlayAddr blake3 peerId) peerId) fun _ => k

/-- `discover`, and the transitions to `Connected` with their errors ignored. -/
def register (peerId : PeerId) (underlay : SocketAddr) : Handler S :=
  .op (.call (.discover peerId underlay) peerId registration) fun _ => .done

/-! ### Peer directories -/

/-- One entry of a directory received from the relay `rid`. -/
def directoryEntry (rid : PeerId) : DirectoryEntry → Handler S → Handler S
  | (pid, pubAddr, hopCount), k => .read fun s =>
    if pid = s.node.engine.ourPeerId then k
    else
      let effectiveHops := saturatingAdd hopCount 1
      .op (.call (.discover pid pubAddr) pid []) fun p =>
      .op (.set p (.publicAddr pubAddr)) fun _ =>
      .read fun s => if pid ∈ s.node.engine.sessions then k else
      .read fun s =>
        -- only if this path is better than the one we have
        let shouldUpdate := match s.node.engine.relayPaths.lookup pid with
          | none => true
          | some existing => decide (effectiveHops < existing.2)
        if shouldUpdate then
          .op (.relayPath pid (rid, effectiveHops)) fun _ =>
          addDerivedRoute blake3 pid <|
          .op (.send { peer := rid, msg := .relayRequest pid }) fun _ => k
        else k

def directoryEntries (rid : PeerId) : List DirectoryEntry → Handler S → Handler S
  | [], k => k
  | entry :: entries, k => directoryEntry blake3 rid entry (directoryEntries rid entries k)

def handlePeerDirectory (fromAddr : TransportAddr) (entries : List DirectoryEntry) : Handler S := .read fun s =>
  match s.node.engine.addrIndex.lookup fromAddr with
  | none => .done
  | some rid =>
    directoryEntries blake3 rid entries <| .read fun s =>
    if 2 ≤ s.node.engine.sessions.len then
      let passedOn := s.node.engine.rebroadcast entries
      if passedOn.isEmpty then .done
      else .read fun s => sendAll (s.node.engine.tellOthers rid passedOn) .done
    else .done

/-! ### Relay set-up and relayed data -/

/-- A node with at least two sessions relays; with fewer it takes the sender as its relay. -/
def handleRelayRequest (fromAddr : TransportAddr) (dstPeerId : PeerId) : Handler S := .read fun s =>
  if 2 ≤ s.node.engine.sessions.len then .read fun s =>
    match s.node.engine.addrIndex.lookup fromAddr with
    | none => .done
    | some reqId => .read fun s =>
      let dstDirect := decide (dstPeerId ∈ s.node.engine.sessions)
      .read fun s =>
        let dstNextRelay := (s.node.engine.relayPaths.lookup dstPeerId).map Prod.fst
        if dstDirect then
          sendAll [{ peer := reqId, msg := .relayReady s.node.engine.ourPeerId dstPeerId 1 },
            { peer := dstPeerId, msg := .relayReady s.node.engine.ourPeerId reqId 1 }] .done
        else
          match dstNextRelay with
          | none => .done
          | some nextRelayId => .read fun s =>
            let multiHops := saturatingAdd (((s.node.engine.relayPaths.lookup dstPeerId).map Prod.snd).getD 1) 1
            -- the next relay learns of the requester, for the return path
            sendAll [{ peer := reqId, msg := .relayReady s.node.engine.ourPeerId dstPeerId multiHops },
              { peer := nextRelayId, msg := .relayRequest reqId }] .done
  else .read fun s =>
    match s.node.engine.addrIndex.lookup fromAddr with
    | none => .done
    | some rid =>
      .op (.relayPath dstPeerId (rid, 1)) fun _ => addDerivedRoute blake3 dstPeerId .done

def handleRelayReady (relayPeerId dstPeerId : PeerId) (hopCount : UInt8) : Handler S :=
  .op (.relayPath dstPeerId (relayPeerId, hopCount)) fun _ =>
  addDerivedRoute blake3 dstPeerId (register dstPeerId Engine.fakeAddr)

/-- Relayed data is forwarded over the session or, without one, to the next relay. -/
def forward (srcPeerId dstPeerId : PeerId) (payload : Bytes) : Handler S :=
  .op (.send { peer := dstPeerId, msg := .relayData srcPeerId dstPeerId payload }) fun sent =>
  if sent.isSome then .done
  else .read fun s =>
    match s.node.engine.relayPaths.lookup dstPeerId with
    | some (nextRelayId, _) =>
      .op (.send { peer := nextRelayId, msg := .relayData srcPeerId dstPeerId payload }) fun _ => .done
    | none => .done

def handleRelayData (srcPeerId dstPeerId : PeerId) (payload : Bytes) : Handler S := .read fun s =>
  let toTun : Handler S := match deserializeMessage payload with
    | .ok (.data ipPkt) => .op (.tun ipPkt) fun _ => .done
    | _ => .done
  if dstPeerId = s.node.engine.ourPeerId then toTun
  else if dstPeerId ∈ s.node.engine.sessions then .read fun s =>
    if dstPeerId ∈ s.node.engine.sessions then forward srcPeerId dstPeerId payload
    else .read fun s =>
      if dstPeerId ∈ s.node.engine.relayPaths then forward srcPeerId dstPeerId payload else .done
  else .read fun s =>
    if s.node.engine.canRelayFlag = false then toTun
    else .read fun s =>
      if dstPeerId ∈ s.node.engine.sessions then forward srcPeerId dstPeerId payload
      else .read fun s =>
        if dstPeerId ∈ s.node.engine.relayPaths then forward srcPeerId dstPeerId payload else .done

/-! ### Session initialisation -/

/-- The directories sent on a `SessionInit`: the new peer learns of the others and they of it. -/
def introduce (peerId : PeerId) (fromAddr : TransportAddr) (k : Handler S) : Handler S :=
  match fromAddr with
  | .udp newPeerAddr => .read fun s =>
    if 2 ≤ s.node.engine.sessions.len then .read fun s =>
      let direct := s.node.engine.directPeers peerId
      .read fun s =>
        let existingPeers := direct ++ s.node.engine.relayedPeers peerId direct
        sendAll (Engine.tellPeer peerId existingPeers none) <| .read fun s =>
        sendAll (s.node.engine.tellOthers peerId [(peerId, newPeerAddr, 1)]) k
    else k
  | _ => k

/-- The setters that a `SessionInit` calls. -/
def peerInfo (overlayIpv6 : Option Ipv6Addr) (hostname : String) (publicAddr : Option SocketAddr) : List PeerSetter :=
  (overlayIpv6.map .overlayIpv6).toList ++ (if hostname.isEmpty then [] else [.hostname hostname]) ++
    (publicAddr.map .publicAddr).toList

def handleSessionInit (fromAddr : TransportAddr) (overlay : OverlayAddr) (overlayIpv6 : Option Ipv6Addr)
    (hostname : String) (publicAddr : Option SocketAddr) : Handler S := .read fun s =>
  match s.node.engine.addrIndex.lookup fromAddr with
  | none => .done
  | some peerId =>
    .op (.route overlay peerId) fun _ =>
    introduce peerId fromAddr <|
    .op (.call (.get peerId) peerId []) fun peer =>
    setAll peer (peerInfo overlayIpv6 hostname publicAddr) .done

/-! ### The dispatch -/

def handlePing (fromAddr : TransportAddr) (sentMs : UInt64) : Handler S := .read fun s =>
  match s.node.engine.addrIndex.lookup fromAddr with
  | some pid => .op (.send { peer := pid, msg := .pong sentMs, addr := some fromAddr }) fun _ => .done
  | none => .done

def handlePong (nowMs : UInt64) (fromAddr : TransportAddr) (sentMs : UInt64) : Handler S := .read fun s =>
  match s.node.engine.addrIndex.lookup fromAddr with
  | some pid =>
    .op (.call (.get pid) pid []) fun peer =>
    .op (.set peer (.latencyMs (Engine.rtt nowMs sentMs))) fun _ => .done
  | none => .done

/-- What the inbound loop does with a decrypted message. -/
def handleMessage (nowMs : UInt64) (fromAddr : TransportAddr) : Message → Handler S
  | .heartbeat => .done
  | .ping sentMs => handlePing fromAddr sentMs
  | .pong sentMs => handlePong nowMs fromAddr sentMs
  | .data payload => .op (.tun payload) fun _ => .done
  | .sessionInit overlay overlayIpv6 hostname publicAddr =>
    handleSessionInit fromAddr overlay overlayIpv6 hostname publicAddr
  | .relayAnnounce relayPeerId publicAddr => .op (.candidate relayPeerId publicAddr) fun _ => .done
  | .peerDirectory entries => handlePeerDirectory blake3 fromAddr entries
  | .relayRequest dstPeerId => handleRelayRequest blake3 fromAddr dstPeerId
  | .relayReady relayPeerId dstPeerId hopCount => handleRelayReady blake3 relayPeerId dstPeerId hopCount
  | .relayData srcPeerId dstPeerId payload => handleRelayData srcPeerId dstPeerId payload
  | .holePunchProbe _ | .holePunchAck _ => .done

/-! ### The outbound loop and the health check -/

/-- A packet for `peerId`: over its session, through a relay, or answered by a request for a relay. -/
def routePacket (candidate : Option PeerId) (packet : Bytes) (peerId : PeerId) : Handler S :=
  .op (.send { peer := peerId, msg := .data packet }) fun sent =>
  if sent.isSome then .done
  else .read fun s =>
    match s.node.engine.relayPaths.lookup peerId with
    | some (relayId, _) =>
      .op (.send
        { peer := relayId
          msg := .relayData s.node.engine.ourPeerId peerId (serializeMessage (.data packet)) }) fun _ => .done
    | none =>
      .op (.staleRoute peerId) fun _ => .read fun s => sendAll (s.node.engine.requestVia candidate peerId) .done

/-- A packet from the TUN device: ignored, written back, or routed. -/
def handleTunPacket (candidate : Option PeerId) (packet : Bytes) : Handler S :=
  if packet.isEmpty then .done
  else .read fun s =>
    if Engine.packetDst packet = s.node.engine.siOverlay.ip then .op (.tun packet) fun _ => .done
    else
      match s.node.engine.routingTable.lookup (Engine.packetDst packet) with
      | none => .done
      | some peerId => routePacket candidate packet peerId

/-- The iterator of the health check yields the session of `peerId`. -/
def healthcheck (nowMs : UInt64) (peerId : PeerId) : Handler S :=
  .op (.send { peer := peerId, msg := .ping nowMs }) fun sent =>
  if sent.isNone then .done
  else .op (.call (.get peerId) peerId []) fun peer =>
    if peer.isNone then .done
    else .read fun s =>
      if peerId ∈ s.node.engine.relayPaths then .read fun s =>
        match s.node.engine.relayPaths.lookup peerId with
        | some (relayId, _) => .op (.set peer (.pathKind (.relay relayId))) fun _ => .done
        -- `unwrap` panics, and the task is over
        | none => .done
      else .op (.set peer (.pathKind .direct)) fun _ => .done

end Handler

/-! ### What the operations of handlers have in common -/

/-- Neither address nor state. -/
def PeerSetter.Plain : PeerSetter → Prop
  | .underlayAddr _ | .transition _ => False
  | _ => True

/-- A call that returns the handle of the record of `peerId` begins. -/
def PeerCall.Begins (peerId : PeerId) : PeerCall → Prop
  | .discover id _ | .get id => id = peerId
  | _ => False

namespace Op

/-- A call begins, and goes along the end of `registration`. -/
def Begins : Op → Prop
  | .call c peerId rest => c.Begins peerId ∧ rest <:+ registration
  | .set _ f => f.Plain
  | _ => True

/-- No record is made, and none makes a transition. -/
def Looks : Op → Prop
  | .call c peerId rest => c = .get peerId ∧ rest = []
  | .set _ f => f.Plain
  | _ => True

end Op

namespace Handler

variable (blake3 : Blake3) {k : Handler S}

theorem uses_sendAll {P : Op → Prop} (hP : ∀ m, P (.send m)) (hk : k.Uses P) (ms : List Send) :
    (sendAll ms k).Uses P := by
  induction ms with
  | nil => exact hk
  | cons m ms ih => exact .op (hP m) fun _ => ih

theorem uses_setAll (hk : k.Uses Op.Begins) (p : Option ℕ) {fs : List PeerSetter} (hfs : ∀ f ∈ fs, f.Plain) :
    (setAll p fs k).Uses Op.Begins := by
  induction fs with
  | nil => exact hk
  | cons f fs ih =>
      exact .op (hfs f List.mem_cons_self) fun _ => ih fun g hg => hfs g (List.mem_cons_of_mem f hg)

theorem uses_register (peerId : PeerId) (underlay : SocketAddr) :
    (register peerId underlay : Handler S).Uses Op.Begins :=
  .op (⟨rfl, List.suffix_rfl⟩) fun _ => .done

theorem uses_directoryEntries (rid : PeerId) (hk : k.Uses Op.Begins) (entries : List DirectoryEntry) :
    (directoryEntries blake3 rid entries k).Uses Op.Begins := by
  induction entries with
  | nil => exact hk
  | cons entry entries ih =>
      obtain ⟨pid, pubAddr, hopCount⟩ := entry
      refine .read fun s => ?_
      split
      · exact ih
      · refine .op (⟨rfl, List.nil_suffix⟩) fun p => .op trivial fun _ => .read fun s => ?_
        split
        · exact ih
        · refine .read fun s => ?_
          dsimp only
          split_ifs
          · exact .op trivial fun _ => .op trivial fun _ => .op trivial fun _ => ih
          · exact ih

theorem uses_handlePeerDirectory (fromAddr : TransportAddr) (entries : List DirectoryEntry) :
    (handlePeerDirectory blake3 fromAddr entries : Handler S).Uses Op.Begins := by
  refine .read fun s => ?_
  split
  · exact .done
  · refine uses_directoryEntries blake3 _ (.read fun s => ?_) entries
    dsimp only
    split_ifs
    · exact .done
    · exact .read fun s => uses_sendAll (fun _ => trivial) .done _
    · exact .done

theorem uses_handleRelayRequest (fromAddr : TransportAddr) (dst : PeerId) :
    (handleRelayRequest blake3 fromAddr dst : Handler S).Uses Op.Begins := by
  refine .read fun s => ?_
  split
  · refine .read fun s => ?_
    split
    · exact .done
    · refine .read fun s => .read fun s' => ?_
      dsimp only
      split
      · exact uses_sendAll (fun _ => trivial) .done _
      · split
        · exact .done
        · exact .read fun s => uses_sendAll (fun _ => trivial) .done _
  · refine .read fun s => ?_
    split
    · exact .done
    · exact .op trivial fun _ => .op trivial fun _ => .done

theorem uses_forward (src dst : PeerId) (payload : Bytes) : (forward src dst payload : Handler S).Uses Op.Begins := by
  refine .op trivial fun sent => ?_
  split
  · exact .done
  · refine .read fun s => ?_
    split
    · exact .op trivial fun _ => .done
    · exact .done

theorem uses_handleRelayData (src dst : PeerId) (payload : Bytes) :
    (handleRelayData src dst payload : Handler S).Uses Op.Begins := by
  have htun : Thread.Uses Op.Begins (match deserializeMessage payload with
      | .ok (.data ipPkt) => (.op (.tun ipPkt) fun _ => .done : Handler S)
      | _ => .done) := by
    split
    · exact .op trivial fun _ => .done
    · exact .done
  have hreach : Thread.Uses Op.Begins (.read fun s =>
      if dst ∈ s.node.engine.sessions then forward src dst payload
      else .read fun s => if dst ∈ s.node.engine.relayPaths then forward src dst payload else .done : Handler S) := by
    refine .read fun s => ?_
    split
    · exact uses_forward src dst payload
    · refine .read fun s => ?_
      split
      · exact uses_forward src dst payload
      · exact .done
  refine .read fun s => ?_
  dsimp only
  split
  · exact htun
  · split
    · exact hreach
    · refine .read fun s => ?_
      split
      · exact htun
      · exact hreach

theorem uses_introduce (peerId : PeerId) (fromAddr : TransportAddr) (hk : k.Uses Op.Begins) :
    (introduce peerId fromAddr k).Uses Op.Begins := by
  unfold introduce
  split
  · refine .read fun s => ?_
    split
    · refine .read fun s => .read fun s' => uses_sendAll (fun _ => trivial) (.read fun s => ?_) _
      exact uses_sendAll (fun _ => trivial) hk _
    · exact hk
  · exact hk

theorem plain_peerInfo (overlayIpv6 : Option Ipv6Addr) (hostname : String) (publicAddr : Option SocketAddr) :
    ∀ f ∈ peerInfo overlayIpv6 hostname publicAddr, f.Plain := by
  intro f hf
  simp only [peerInfo, List.mem_append, Option.mem_toList, Option.map_eq_some_iff] at hf
  rcases hf with (⟨a, -, rfl⟩ | hf) | ⟨a, -, rfl⟩
  · trivial
  · split at hf
    · cases hf
    · rw [List.mem_singleton.mp hf]
      trivial
  · trivial

theorem uses_handleSessionInit (fromAddr : TransportAddr) (overlay : OverlayAddr) (overlayIpv6 : Option Ipv6Addr)
    (hostname : String) (publicAddr : Option SocketAddr) :
    (handleSessionInit fromAddr overlay overlayIpv6 hostname publicAddr : Handler S).Uses Op.Begins := by
  refine .read fun s => ?_
  split
  · exact .done
  · refine .op trivial fun _ => uses_introduce _ _ (.op (⟨rfl, List.nil_suffix⟩) fun peer => ?_)
    exact uses_setAll .done peer (plain_peerInfo overlayIpv6 hostname publicAddr)

theorem uses_handleMessage (nowMs : UInt64) (fromAddr : TransportAddr) (msg : Message) :
    (handleMessage blake3 nowMs fromAddr msg : Handler S).Uses Op.Begins := by
  cases msg with
  | heartbeat | holePunchProbe | holePunchAck => exact .done
  | ping sentMs =>
      refine .read fun s => ?_
      split
      · exact .op trivial fun _ => .done
      · exact .done
  | pong sentMs =>
      refine .read fun s => ?_
      split
      · exact .op (⟨rfl, List.nil_suffix⟩) fun _ => .op trivial fun _ => .done
      · exact .done
  | data | relayAnnounce => exact .op trivial fun _ => .done
  | sessionInit overlay overlayIpv6 hostname publicAddr =>
      exact uses_handleSessionInit fromAddr overlay overlayIpv6 hostname publicAddr
  | peerDirectory entries => exact uses_handlePeerDirectory blake3 fromAddr entries
  | relayRequest dst => exact uses_handleRelayRequest blake3 fromAddr dst
  | relayReady relayId dst hops => exact .op trivial fun _ => .op trivial fun _ => uses_register dst _
  | relayData src dst payload => exact uses_handleRelayData src dst payload

theorem uses_handleTunPacket (candidate : Option PeerId) (packet : Bytes) :
    (handleTunPacket candidate packet : Handler S).Uses Op.Looks := by
  unfold handleTunPacket
  split
  · exact .done
  · refine .read fun s => ?_
    split
    · exact .op trivial fun _ => .done
    · split
      · exact .done
      · refine .op trivial fun sent => ?_
        split
        · exact .done
        · refine .read fun s => ?_
          split
          · exact .op trivial fun _ => .done
          · exact .op trivial fun _ => .read fun s => uses_sendAll (fun _ => trivial) .done _

theorem uses_healthcheck (nowMs : UInt64) (peerId : PeerId) :
    (healthcheck nowMs peerId : Handler S).Uses Op.Looks := by
  refine .op trivial fun sent => ?_
  split
  · exact .done
  · refine .op (⟨rfl, rfl⟩) fun peer => ?_
    split
    · exact .done
    · refine .read fun s => ?_
      split
      · refine .read fun s => ?_
        split
        · exact .op trivial fun _ => .done
        · exact .done
      · exact .op trivial fun _ => .done

end Handler

end SeedNet
