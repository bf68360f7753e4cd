import SeedNet.TransparentNode
import SeedNet.Loops

/-! # Removing a peer

`PeerManager::remove` deletes the record of a peer and sends `PeerEvent::Removed`; the peers-file loop
(`crates/core/src/peers_snapshot.rs`) handles that event by `Engine.handleRemoved`.  `Engine.removePeer` is the
one after the other.

Six tables refer to peers.  `RelayTable::remove_peer` of `crates/nat/src/relay.rs` shows the intended cleanup:
candidates, paths to the peer, paths through the peer.  The handler deletes the session and the index entry of
the session's address and nothing else, and it deletes that entry whoever owns it.

`removal_complete_iff`: removing a peer leaves nothing of it, and everything of the others, exactly if nothing
refers to the peer but its record, its session and the index entry of its session. -/

namespace SeedNet

open Run (exec)

namespace Engine

section handler

variable {τ : Type} (e : Engine τ)

/-- The handler of `PeerEvent::Removed`. -/
def handleRemoved (id : PeerId) : Engine τ :=
  match e.sessions.lookup id with
  | some session => (e.removeSession id).removeAddrIndex session.underlay
  | none => e

/-- What the peers-file loop does to the tables on an event. -/
def handlePeerEvent (e : Engine τ) : PeerEvent → Engine τ
  | .removed id => e.handleRemoved id
  | _ => e

/-- `PeerManager::remove`, and the handling of the events that it sends. -/
def removePeer (id : PeerId) : Engine τ :=
  let peerMgr := e.peerMgr.remove id
  (peerMgr.events.drop e.peerMgr.events.length).foldl handlePeerEvent { e with peerMgr := peerMgr }

end handler

/-! ### The condition -/

section

variable {τ : Type} (e : Engine τ) (p : PeerId)

/-- Nothing in `e'` refers to `p`, and what `e` has of other peers is still there and has not grown. -/
structure RemovalComplete (e' : Engine τ) : Prop where
  session : p ∉ e'.sessions
  candidate : p ∉ e'.relayCandidates
  index : ∀ v, e'.addrIndex.lookup v ≠ some p
  path : p ∉ e'.relayPaths
  hop : ∀ d relayId hops, e'.relayPaths.lookup d = some (relayId, hops) → relayId ≠ p
  route : ∀ ip, e'.routingTable.lookup ip ≠ some p
  otherRecords : ∀ q, q ≠ p → e'.peerMgr.get q = e.peerMgr.get q
  otherSessions : ∀ q, q ≠ p → e'.sessions.lookup q = e.sessions.lookup q
  otherCandidates : ∀ q, q ≠ p → e'.relayCandidates.lookup q = e.relayCandidates.lookup q
  otherIndex : ∀ v q, q ≠ p → (e'.addrIndex.lookup v = some q ↔ e.addrIndex.lookup v = some q)
  otherPaths : ∀ d relayId hops, d ≠ p → relayId ≠ p →
    (e'.relayPaths.lookup d = some (relayId, hops) ↔ e.relayPaths.lookup d = some (relayId, hops))
  otherRoutes : ∀ ip q, q ≠ p → (e'.routingTable.lookup ip = some q ↔ e.routingTable.lookup ip = some q)
  otherPeerIps : ∀ q, q ≠ p → e'.routingTable.lookupPeerIp q = e.routingTable.lookupPeerIp q

/-- Nothing refers to `p` but its record, its session and the index entry of its session's address, which is
its own. -/
structure Removable : Prop where
  candidate : p ∉ e.relayCandidates
  path : p ∉ e.relayPaths
  hop : ∀ d relayId hops, e.relayPaths.lookup d = some (relayId, hops) → relayId ≠ p
  route : ∀ ip, e.routingTable.lookup ip ≠ some p
  session : p ∈ e.sessions → p ∈ e.peerMgr.peers
  index : ∀ v, e.addrIndex.lookup v = some p →
    p ∈ e.peerMgr.peers ∧ ∃ session, e.sessions.lookup p = some session ∧ session.underlay = v
  ownIndex : p ∈ e.peerMgr.peers → ∀ session, e.sessions.lookup p = some session →
    ∀ q, e.addrIndex.lookup session.underlay = some q → q = p

end

/-! ### What removal does -/

section

variable {τ : Type} {e : Engine τ} {p : PeerId}

/-- A peer without a record is not removed at all, whatever refers to it. -/
theorem removePeer_of_not_mem (h : p ∉ e.peerMgr.peers) : e.removePeer p = e := by
  have hget : e.peerMgr.get p = none := AList.lookup_eq_none.mpr h
  have hremove : e.peerMgr.remove p = e.peerMgr := by rw [PeerManager.remove, hget]
  simp only [removePeer, hremove, List.drop_length, List.foldl_nil]

theorem removePeer_of_mem (h : p ∈ e.peerMgr.peers) :
    e.removePeer p = { e with peerMgr := e.peerMgr.remove p }.handleRemoved p := by
  obtain ⟨peer, hget⟩ := Map.mem_iff_lookup.mp h
  have hremove : e.peerMgr.remove p = { e.peerMgr with peers := e.peerMgr.peers.erase p }.send (.removed p) := by
    rw [PeerManager.remove, PeerManager.get, hget]
  have hevents : (e.peerMgr.remove p).events.drop e.peerMgr.events.length = [.removed p] := by
    rw [hremove, PeerManager.send, List.drop_left]
  simp only [removePeer, hevents, List.foldl_cons, List.foldl_nil, handlePeerEvent]

theorem get_remove (m : PeerManager) (q : PeerId) : (m.remove p).get q = if q = p then none else m.get q := by
  unfold PeerManager.remove
  split
  · exact Map.lookup_erase m.peers p q
  · next hget =>
      split
      · next hq => rw [hq, hget]
      · rfl

theorem lookup_sessions_handleRemoved (q : PeerId) :
    (e.handleRemoved p).sessions.lookup q = if q = p then none else e.sessions.lookup q := by
  unfold handleRemoved
  split
  · exact Map.lookup_erase e.sessions p q
  · next hl =>
      split
      · next hq => rw [hq, hl]
      · rfl

theorem lookup_addrIndex_handleRemoved (v : TransportAddr) :
    (e.handleRemoved p).addrIndex.lookup v =
      if (e.sessions.lookup p).map (·.underlay) = some v then none else e.addrIndex.lookup v := by
  unfold handleRemoved
  cases hl : e.sessions.lookup p with
  | none => rfl
  | some session =>
      refine (Map.lookup_erase e.addrIndex session.underlay v).trans ?_
      simp only [Option.map_some, Option.some.injEq, eq_comm]

/-- The handler knows of two tables only. -/
theorem handleRemoved_rest : (e.handleRemoved p).peerMgr = e.peerMgr ∧
    (e.handleRemoved p).relayCandidates = e.relayCandidates ∧ (e.handleRemoved p).relayPaths = e.relayPaths ∧
    (e.handleRemoved p).routingTable = e.routingTable := by
  unfold handleRemoved
  split <;> exact ⟨rfl, rfl, rfl, rfl⟩

/-- Removal leaves relay candidates, relay paths and routes alone. -/
theorem removePeer_rest : (e.removePeer p).relayCandidates = e.relayCandidates ∧
    (e.removePeer p).relayPaths = e.relayPaths ∧ (e.removePeer p).routingTable = e.routingTable := by
  by_cases hmem : p ∈ e.peerMgr.peers
  · rw [removePeer_of_mem hmem]
    exact handleRemoved_rest.2
  · rw [removePeer_of_not_mem hmem]
    exact ⟨rfl, rfl, rfl⟩

theorem get_removePeer {q : PeerId} (hq : q ≠ p) : (e.removePeer p).peerMgr.get q = e.peerMgr.get q := by
  by_cases hmem : p ∈ e.peerMgr.peers
  · rw [removePeer_of_mem hmem, handleRemoved_rest.1]
    exact (get_remove e.peerMgr q).trans (if_neg hq)
  · rw [removePeer_of_not_mem hmem]

theorem lookup_sessions_removePeer {q : PeerId} (hq : q ≠ p) :
    (e.removePeer p).sessions.lookup q = e.sessions.lookup q := by
  by_cases hmem : p ∈ e.peerMgr.peers
  · rw [removePeer_of_mem hmem]
    exact (lookup_sessions_handleRemoved q).trans (if_neg hq)
  · rw [removePeer_of_not_mem hmem]

theorem not_mem_sessions_removePeer : p ∉ (e.removePeer p).sessions ↔ (p ∈ e.sessions → p ∈ e.peerMgr.peers) := by
  by_cases hmem : p ∈ e.peerMgr.peers
  · rw [removePeer_of_mem hmem, ← AList.lookup_eq_none, lookup_sessions_handleRemoved, if_pos rfl]
    exact iff_of_true rfl fun _ => hmem
  · rw [removePeer_of_not_mem hmem]
    exact ⟨fun h hs => absurd hs h, fun h hs => hmem (h hs)⟩

/-- The address whose index entry removal deletes. -/
theorem lookup_addrIndex_removePeer (v : TransportAddr) :
    (e.removePeer p).addrIndex.lookup v =
      if p ∈ e.peerMgr.peers ∧ (e.sessions.lookup p).map (·.underlay) = some v then none
      else e.addrIndex.lookup v := by
  by_cases hmem : p ∈ e.peerMgr.peers
  · rw [removePeer_of_mem hmem]
    refine (lookup_addrIndex_handleRemoved v).trans ?_
    simp only [hmem, true_and]
  · rw [removePeer_of_not_mem hmem, if_neg fun h => hmem h.1]

/-- No index entry of `p` is left exactly if there was none but that of its session's address. -/
theorem index_removePeer_iff : (∀ v, (e.removePeer p).addrIndex.lookup v ≠ some p) ↔
    ∀ v, e.addrIndex.lookup v = some p →
      p ∈ e.peerMgr.peers ∧ ∃ session, e.sessions.lookup p = some session ∧ session.underlay = v := by
  refine forall_congr' fun v => ?_
  rw [lookup_addrIndex_removePeer]
  split
  · next h =>
      refine iff_of_true (fun hv => by cases hv) fun _ => ⟨h.1, ?_⟩
      exact Option.map_eq_some_iff.mp h.2
  · next h =>
      refine ⟨fun hne hv => absurd hv hne, fun himp hv => h ?_⟩
      obtain ⟨hmem, hsession⟩ := himp hv
      exact ⟨hmem, Option.map_eq_some_iff.mpr hsession⟩

/-- The index entries of others are kept exactly if the deleted one was not among them. -/
theorem otherIndex_removePeer_iff :
    (∀ v q, q ≠ p → ((e.removePeer p).addrIndex.lookup v = some q ↔ e.addrIndex.lookup v = some q)) ↔
      (p ∈ e.peerMgr.peers → ∀ session, e.sessions.lookup p = some session →
        ∀ q, e.addrIndex.lookup session.underlay = some q → q = p) := by
  constructor
  · intro h hmem session hl q hq
    by_contra hne
    have hdeleted : (e.removePeer p).addrIndex.lookup session.underlay = none := by
      rw [lookup_addrIndex_removePeer, if_pos ⟨hmem, by rw [hl]; rfl⟩]
    cases hdeleted.symm.trans ((h session.underlay q hne).mpr hq)
  · intro h v q hne
    rw [lookup_addrIndex_removePeer]
    split
    · next hv =>
        obtain ⟨session, hl, rfl⟩ := Option.map_eq_some_iff.mp hv.2
        exact ⟨fun hq => (by cases hq), fun hq => absurd (h hv.1 session hl q hq) hne⟩
    · rfl

end

end Engine

/-! ### The handler as steps of a node -/

/-- The two steps of the peers-file loop, with nothing between them. -/
theorem Node.removalStep_removed {S : Snow} {n : Node S} (h : n.removal = none) (p : PeerId) :
    (n.removed p).removalStep.engine = n.engine.handleRemoved p := by
  unfold Node.removed Engine.handleRemoved
  rw [h]
  cases n.engine.sessions.lookup p with
  | some session => rfl
  | none => simp only [Node.removalStep, h]

/-! ### The exact condition -/

/-- **Removal of peers.**  Whatever the state of the engine, removing `p` is complete exactly if nothing refers
to `p` but its record, its session and the index entry of its session. -/
theorem removal_complete_iff {τ : Type} (e : Engine τ) (p : PeerId) :
    e.RemovalComplete p (e.removePeer p) ↔ e.Removable p := by
  obtain ⟨hcandidates, hpaths, hroutes⟩ := Engine.removePeer_rest (e := e) (p := p)
  constructor
  · intro h
    exact
      { candidate := hcandidates ▸ h.candidate
        path := hpaths ▸ h.path
        hop := hpaths ▸ h.hop
        route := hroutes ▸ h.route
        session := Engine.not_mem_sessions_removePeer.mp h.session
        index := Engine.index_removePeer_iff.mp h.index
        ownIndex := Engine.otherIndex_removePeer_iff.mp h.otherIndex }
  · intro h
    exact
      { session := Engine.not_mem_sessions_removePeer.mpr h.session
        candidate := hcandidates ▸ h.candidate
        index := Engine.index_removePeer_iff.mpr h.index
        path := hpaths ▸ h.path
        hop := hpaths ▸ h.hop
        route := hroutes ▸ h.route
        otherRecords := fun q hq => Engine.get_removePeer hq
        otherSessions := fun q hq => Engine.lookup_sessions_removePeer hq
        otherCandidates := fun q _ => by rw [hcandidates]
        otherIndex := Engine.otherIndex_removePeer_iff.mpr h.ownIndex
        otherPaths := fun d relayId hops _ _ => by rw [hpaths]
        otherRoutes := fun ip q _ => by rw [hroutes]
        otherPeerIps := fun q _ => by rw [hroutes] }

open Transparent in
/-- Peer 7 completes a handshake and is removed: its route stays. -/
theorem removal_incomplete :
    ¬ ∀ (blake3 : Blake3) (n : Node transparent), n.Initial → ∀ (as : List (LoopAction transparent)) (p : PeerId),
      let e := (exec (Node.loopNext blake3) n as).engine
      e.RemovalComplete p (e.removePeer p) := by
  intro h
  let run : List (LoopAction transparent) := (handshakeFrom 7 (addr 2) 3 4).map .task
  let e := (exec (Node.loopNext blake3) (node 1) run).engine
  have hroute : (e.removePeer (.replicate 7)).routingTable.lookup (deriveOverlayAddr blake3 (.replicate 7)).ip =
      some (.replicate 7) := by decide +kernel
  exact (h blake3 (node 1) ⟨rfl, rfl, rfl, rfl, rfl, rfl, rfl⟩ run (.replicate 7)).route _ hroute

end SeedNet
