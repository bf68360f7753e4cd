import SeedNet.Engine

/-! # Handlers of decrypted messages

The part of `run_inbound_loop` below a successful decryption: one definition for each handler of
`crates/core/src/inbound.rs`, and `handleMessage` for the `match` that selects it.  `fromAddr` is
the address the datagram came from.

`handleMessage_frame`: no message changes the sessions, the address index or the engine's own
identity and flags. -/

namespace SeedNet

/-- How far a directory entry is passed on. -/
def maxHopRebroadcast : UInt8 := 8

namespace Engine

variable {τ : Type} (blake3 : Blake3) (e : Engine τ)

/-! ### Peer directories -/

/-- One entry of a directory received from the relay `rid`. -/
def directoryEntry (rid : PeerId) : DirectoryEntry → Engine τ × List Send
  | (pid, pubAddr, hopCount) =>
    if pid = e.ourPeerId then (e, [])
    else
      let effectiveHops := saturatingAdd hopCount 1
      let e := { e with
        peerMgr := (e.peerMgr.discover pid pubAddr).update pid fun p =>
          { p with publicAddr := some pubAddr } }
      if pid ∈ e.sessions then (e, [])
      else
        -- only if this path is better than the one we have
        let shouldUpdate := match e.relayPaths.lookup pid with
          | none => true
          | some existing => decide (effectiveHops < existing.2)
        if shouldUpdate then
          ({ e with relayPaths := e.relayPaths.insert pid (rid, effectiveHops) }.addDerivedRoute blake3 pid,
            [{ peer := rid, msg := .relayRequest pid }])
        else (e, [])

def directoryEntries (rid : PeerId) : Engine τ → List DirectoryEntry → Engine τ × List Send
  | e, [] => (e, [])
  | e, entry :: entries =>
    let (e, sends) := e.directoryEntry blake3 rid entry
    let (e, sends') := directoryEntries rid e entries
    (e, sends ++ sends')

/-- The entries that are passed on to the other sessions. -/
def rebroadcast (entries : List DirectoryEntry) : List DirectoryEntry :=
  (entries.filter fun k => k.1 ≠ e.ourPeerId ∧ k.2.2 < maxHopRebroadcast).map fun k =>
    (k.1, k.2.1, saturatingAdd k.2.2 1)

def handlePeerDirectory (fromAddr : TransportAddr) (entries : List DirectoryEntry) : Reaction τ :=
  match e.addrIndex.lookup fromAddr with
  | none => { engine := e }
  | some rid =>
    let (e, sends) := e.directoryEntries blake3 rid entries
    let passedOn := e.rebroadcast entries
    if 2 ≤ e.sessions.len ∧ ¬ passedOn.isEmpty then
      { engine := e, sends := sends ++ e.tellOthers rid passedOn }
    else { engine := e, sends := sends }

/-! ### Relay set-up and relayed data -/

def handleRelayRequest (fromAddr : TransportAddr) (dstPeerId : PeerId) : Reaction τ :=
  if 2 ≤ e.sessions.len then
    match e.addrIndex.lookup fromAddr with
    | none => { engine := e }
    | some reqId =>
      if dstPeerId ∈ e.sessions then
        { engine := e
          sends := [{ peer := reqId, msg := .relayReady e.ourPeerId dstPeerId 1 },
            { peer := dstPeerId, msg := .relayReady e.ourPeerId reqId 1 }] }
      else
        match e.relayPaths.lookup dstPeerId with
        | none => { engine := e }
        | some (nextRelayId, hops) =>
          -- multi-hop: the next relay learns of the requester, for the return path
          { engine := e
            sends := [{ peer := reqId, msg := .relayReady e.ourPeerId dstPeerId (saturatingAdd hops 1) },
              { peer := nextRelayId, msg := .relayRequest reqId }] }
  else
    match e.addrIndex.lookup fromAddr with
    | none => { engine := e }
    | some rid =>
      { engine := { e with relayPaths := e.relayPaths.insert dstPeerId (rid, 1) }.addDerivedRoute blake3
          dstPeerId }

/-- `"0.0.0.0:0"`, under which relayed peers are registered. -/
def fakeAddr : SocketAddr := .v4 .unspecified 0

def handleRelayReady (relayPeerId dstPeerId : PeerId) (hopCount : UInt8) : Reaction τ :=
  { engine := ({ e with relayPaths := e.relayPaths.insert dstPeerId (relayPeerId, hopCount) }.addDerivedRoute
      blake3 dstPeerId).registerPeer dstPeerId fakeAddr }

def handleRelayData (srcPeerId dstPeerId : PeerId) (payload : Bytes) : Reaction τ :=
  if dstPeerId = e.ourPeerId ∨ (dstPeerId ∉ e.sessions ∧ e.canRelayFlag = false) then
    match deserializeMessage payload with
    | .ok (.data ipPkt) => { engine := e, tun := [ipPkt] }
    | _ => { engine := e }
  else if dstPeerId ∈ e.sessions then
    { engine := e, sends := [{ peer := dstPeerId, msg := .relayData srcPeerId dstPeerId payload }] }
  else
    match e.relayPaths.lookup dstPeerId with
    | some (nextRelayId, _) =>
      { engine := e, sends := [{ peer := nextRelayId, msg := .relayData srcPeerId dstPeerId payload }] }
    | none => { engine := e }

/-! ### Session initialisation -/

/-- The setters of `handle_session_init`, on the peer's record if there is one. -/
def setPeerInfo (peerId : PeerId) (overlayIpv6 : Option Ipv6Addr) (hostname : String)
    (publicAddr : Option SocketAddr) : Engine τ :=
  { e with peerMgr := e.peerMgr.update peerId fun p =>
      { p with
        overlayIpv6 := overlayIpv6.orElse fun _ => p.overlayIpv6
        hostname := if hostname.isEmpty then p.hostname else hostname
        publicAddr := publicAddr.orElse fun _ => p.publicAddr } }

/-- The directories sent on a `SessionInit`: the new peer learns of the others and they of it. -/
def introduce (peerId : PeerId) (fromAddr : TransportAddr) : List Send :=
  match fromAddr with
  | .udp newPeerAddr =>
    if 2 ≤ e.sessions.len then
      let direct := e.directPeers peerId
      tellPeer peerId (direct ++ e.relayedPeers peerId direct) none ++
        e.tellOthers peerId [(peerId, newPeerAddr, 1)]
    else []
  | _ => []

def handleSessionInit (fromAddr : TransportAddr) (overlay : OverlayAddr) (overlayIpv6 : Option Ipv6Addr)
    (hostname : String) (publicAddr : Option SocketAddr) : Reaction τ :=
  match e.addrIndex.lookup fromAddr with
  | none => { engine := e }
  | some peerId =>
    let e := { e with routingTable := e.routingTable.addRoute overlay peerId }
    { engine := e.setPeerInfo peerId overlayIpv6 hostname publicAddr
      sends := e.introduce peerId fromAddr }

/-! ### The dispatch -/

/-- `now_ms.saturating_sub(sent_ms) as u32`. -/
def rtt (nowMs sentMs : UInt64) : UInt32 := (nowMs.toNat - sentMs.toNat).toUInt32

/-- What the inbound loop does with a decrypted message. -/
def handleMessage (nowMs : UInt64) (fromAddr : TransportAddr) : Message → Reaction τ
  | .heartbeat => { engine := e }
  | .ping sentMs =>
    match e.addrIndex.lookup fromAddr with
    | some pid => { engine := e, sends := [{ peer := pid, msg := .pong sentMs, addr := some fromAddr }] }
    | none => { engine := e }
  | .pong sentMs =>
    match e.addrIndex.lookup fromAddr with
    | some pid => { engine := { e with
        peerMgr := e.peerMgr.update pid fun p => { p with latencyMs := some (rtt nowMs sentMs) } } }
    | none => { engine := e }
  | .data payload => { engine := e, tun := [payload] }
  | .sessionInit overlay overlayIpv6 hostname publicAddr =>
    e.handleSessionInit fromAddr overlay overlayIpv6 hostname publicAddr
  | .relayAnnounce relayPeerId publicAddr =>
    { engine := { e with relayCandidates := e.relayCandidates.insert relayPeerId publicAddr } }
  | .peerDirectory entries => e.handlePeerDirectory blake3 fromAddr entries
  | .relayRequest dstPeerId => e.handleRelayRequest blake3 fromAddr dstPeerId
  | .relayReady relayPeerId dstPeerId hopCount => e.handleRelayReady blake3 relayPeerId dstPeerId hopCount
  | .relayData srcPeerId dstPeerId payload => e.handleRelayData srcPeerId dstPeerId payload
  | .holePunchProbe _ | .holePunchAck _ => { engine := e }

/-! ### Frame -/

/-- What handlers of messages never touch. -/
structure Frame (e e' : Engine τ) : Prop where
  ourPeerId : e'.ourPeerId = e.ourPeerId
  sessions : e'.sessions = e.sessions
  addrIndex : e'.addrIndex = e.addrIndex
  canRelayFlag : e'.canRelayFlag = e.canRelayFlag
  stunAddr : e'.stunAddr = e.stunAddr
  sessionInit : e'.sessionInit = e.sessionInit

variable {e e' e'' : Engine τ}

theorem Frame.refl (e : Engine τ) : e.Frame e := ⟨rfl, rfl, rfl, rfl, rfl, rfl⟩

theorem Frame.trans (h : e.Frame e') (h' : e'.Frame e'') : e.Frame e'' :=
  ⟨h'.1.trans h.1, h'.2.trans h.2, h'.3.trans h.3, h'.4.trans h.4, h'.5.trans h.5, h'.6.trans h.6⟩

theorem directoryEntry_frame (rid : PeerId) (entry : DirectoryEntry) :
    e.Frame (e.directoryEntry blake3 rid entry).1 := by
  obtain ⟨pid, pubAddr, hopCount⟩ := entry
  unfold directoryEntry
  dsimp only
  split
  · exact .refl e
  · split
    · exact ⟨rfl, rfl, rfl, rfl, rfl, rfl⟩
    · split <;> exact ⟨rfl, rfl, rfl, rfl, rfl, rfl⟩

theorem directoryEntries_frame (rid : PeerId) (entries : List DirectoryEntry) (e : Engine τ) :
    e.Frame (directoryEntries blake3 rid e entries).1 := by
  induction entries generalizing e with
  | nil => exact .refl e
  | cons entry entries ih => exact (directoryEntry_frame blake3 rid entry).trans (ih _)

theorem handlePeerDirectory_frame (fromAddr : TransportAddr) (entries : List DirectoryEntry) :
    e.Frame (e.handlePeerDirectory blake3 fromAddr entries).engine := by
  unfold handlePeerDirectory
  split
  · exact .refl e
  · dsimp only
    split <;> exact directoryEntries_frame blake3 _ entries e

theorem handleRelayRequest_frame (fromAddr : TransportAddr) (dst : PeerId) :
    e.Frame (e.handleRelayRequest blake3 fromAddr dst).engine := by
  unfold handleRelayRequest
  split
  · split
    · exact .refl e
    · split
      · exact .refl e
      · split <;> exact .refl e
  · split <;> exact ⟨rfl, rfl, rfl, rfl, rfl, rfl⟩

theorem handleRelayData_engine (src dst : PeerId) (payload : Bytes) :
    (e.handleRelayData src dst payload).engine = e := by
  unfold handleRelayData
  split
  · split <;> rfl
  · split
    · rfl
    · split <;> rfl

theorem handleMessage_frame (nowMs : UInt64) (fromAddr : TransportAddr) (msg : Message) :
    e.Frame (e.handleMessage blake3 nowMs fromAddr msg).engine := by
  cases msg with
  | ping | pong => simp only [handleMessage]; split <;> exact ⟨rfl, rfl, rfl, rfl, rfl, rfl⟩
  | sessionInit overlay overlayIpv6 hostname publicAddr =>
      simp only [handleMessage, handleSessionInit]
      split <;> exact ⟨rfl, rfl, rfl, rfl, rfl, rfl⟩
  | peerDirectory entries => exact handlePeerDirectory_frame blake3 fromAddr entries
  | relayRequest dst => exact handleRelayRequest_frame blake3 fromAddr dst
  | relayData src dst payload =>
      rw [handleMessage, handleRelayData_engine]
      exact .refl e
  | _ => exact ⟨rfl, rfl, rfl, rfl, rfl, rfl⟩

end Engine

end SeedNet
