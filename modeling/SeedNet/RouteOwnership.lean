import SeedNet.Loops
import SeedNet.HandlerEffects
import SeedNet.RouteInverse
import SeedNet.TransparentNode

/-! # Who owns a route

Both handshake roles, `RelayReady`, `RelayRequest` and the directories install the route of the address
that is derived from the peer's identity; `SessionInit` installs a route of the address that the peer
itself supplies.

`Update.routed` says whose routes an update installs, and `Update.routingTable_induction` is the rule by
which properties of the routing table are proved.  `route_ownership_iff`: every route belongs to the peer
whose address it is, throughout a run, exactly if every `SessionInit` that is handled
carries the derived address of its sender. -/

namespace SeedNet

open Run (exec Along)

variable {S : Snow}

/-! ### The routes that an update installs -/

/-- The peers whose routes an update installs. -/
def Update.routed (e : Engine (SecureTransport S)) : Update S → List PeerId
  | .message _ fromAddr (.sessionInit ..) => (e.addrIndex.lookup fromAddr).toList
  | .message _ _ (.relayReady _ dst _) => [dst]
  | .message _ fromAddr (.relayRequest dst) => if e.sessions.len < 2 ∧ fromAddr ∈ e.addrIndex then [dst] else []
  | .message _ _ (.peerDirectory entries) =>
    (entries.filter fun entry => entry.1 ≠ e.ourPeerId ∧ entry.1 ∉ e.sessions ∧ e.Better entry).map (·.1)
  | .complete c => if c.stage = .route then [c.peerId] else []
  | _ => []

/-- The address that the update installs the route of a peer for. -/
def Update.overlay (blake3 : Blake3) (q : PeerId) : Update S → OverlayAddr
  | .message _ _ (.sessionInit overlay ..) => overlay
  | _ => deriveOverlayAddr blake3 q

namespace Engine

/-- Every relay path of `e` has become at most shorter. -/
def Improves {τ : Type} (e e' : Engine τ) : Prop :=
  ∀ p relayId hops, e.relayPaths.lookup p = some (relayId, hops) →
    ∃ relayId' hops', e'.relayPaths.lookup p = some (relayId', hops') ∧ hops' ≤ hops

theorem Improves.refl {τ : Type} (e : Engine τ) : e.Improves e := fun _ relayId hops h => ⟨relayId, hops, h, UInt8.le_refl _⟩

theorem Better.of_improves {τ : Type} {e e' : Engine τ} {entry : DirectoryEntry} (h : e'.Better entry)
    (hle : e.Improves e') : e.Better entry := by
  rintro ⟨relayId, hops⟩ hpath
  obtain ⟨relayId', hops', hpath', hhops⟩ := hle entry.1 relayId hops hpath
  exact UInt8.lt_of_lt_of_le (h (relayId', hops') hpath') hhops

theorem Improves.learn {τ : Type} {e e' : Engine τ} (h : e.Improves e') {entry : DirectoryEntry}
    (hbetter : e'.Better entry) (blake3 : Blake3) (rid : PeerId) :
    e.Improves ((e'.notePeer entry.1 entry.2.1).addRelayPath blake3 entry.1 rid (saturatingAdd entry.2.2 1)) := by
  intro p relayId hops hpath
  rw [lookup_addRelayPath]
  by_cases hp : p = entry.1
  · refine ⟨rid, saturatingAdd entry.2.2 1, if_pos hp, ?_⟩
    exact UInt8.le_of_lt (hbetter.of_improves h (relayId, hops) (hp ▸ hpath))
  · rw [if_neg hp]
    exact h p relayId hops hpath

end Engine

/-- What the routes that an update installs preserve, and the removal of the stale route of a peer without
a session, the update preserves. -/
theorem Update.routingTable_induction {P : RoutingTable → Prop} {blake3 : Blake3}
    {e : Engine (SecureTransport S)} {u : Update S}
    (hadd : ∀ t, ∀ q ∈ u.routed e, P t → P (t.addRoute (u.overlay blake3 q) q))
    (hstale : ∀ peerId ip ip', peerId ∉ e.sessions → e.routingTable.lookup ip = some peerId →
      e.routingTable.lookupPeerIp peerId = some ip' → P (e.routingTable.removeRoute ⟨ip'⟩).2)
    (h : P e.routingTable) : P (u.apply blake3 e).routingTable := by
  cases u with
  | message nowMs fromAddr msg =>
      cases msg with
      | sessionInit overlay overlayIpv6 hostname publicAddr =>
          rw [apply, Engine.handleMessage, Engine.handleSessionInit_engine]
          cases hfrom : e.addrIndex.lookup fromAddr with
          | none => exact h
          | some peerId => exact hadd _ peerId (Option.mem_toList.mpr hfrom) h
      | relayReady relayId dst hops => exact hadd _ dst List.mem_cons_self h
      | relayRequest dst =>
          rw [apply, Engine.handleMessage]
          rcases e.handleRelayRequest_engine blake3 fromAddr dst with ⟨rid, hlen, hfrom, heng⟩ | ⟨-, heng⟩
          · rw [heng]
            refine hadd _ dst ?_ h
            rw [routed, if_pos ⟨hlen, Map.mem_iff_lookup.mpr ⟨rid, hfrom⟩⟩]
            exact List.mem_cons_self
          · rw [heng]
            exact h
      | peerDirectory entries =>
          -- the entries are compared with the paths as they were before the directory
          refine (Engine.handlePeerDirectory_induction
            (P := fun e' => (e.Frame e' ∧ e.Improves e') ∧ P e'.routingTable) ?_ ?_ ⟨⟨.refl e, .refl e⟩, h⟩).2
          · rintro e' entry _ ⟨⟨hframe, hle⟩, hP⟩ _
            exact ⟨⟨hframe.trans ⟨rfl, rfl, rfl, rfl, rfl, rfl⟩, hle⟩, hP⟩
          · rintro rid - e' entry hmem ⟨⟨hframe, hle⟩, hP⟩ hself hdirect hbetter
            refine ⟨⟨hframe.trans ⟨rfl, rfl, rfl, rfl, rfl, rfl⟩, hle.learn hbetter blake3 rid⟩, ?_⟩
            rw [hframe.ourPeerId] at hself
            rw [hframe.sessions] at hdirect
            refine hadd _ entry.1 (List.mem_map_of_mem (List.mem_filter.mpr ⟨hmem, ?_⟩)) hP
            exact decide_eq_true ⟨hself, hdirect, hbetter.of_improves hle⟩
      | ping | pong => simp only [apply, Engine.handleMessage]; split <;> exact h
      | relayData src dst payload =>
          rw [apply, Engine.handleMessage, Engine.handleRelayData_engine]
          exact h
      | heartbeat | data | relayAnnounce | holePunchProbe | holePunchAck => exact h
  | complete c =>
      rw [apply, Completion.run]
      cases hstage : c.stage with
      | route =>
          refine hadd _ c.peerId ?_ h
          rw [routed, if_pos hstage]
          exact List.mem_cons_self
      | relayPath | session | addrIndex | register => exact h
      | sessionInit | announce | directories =>
          dsimp only
          rw [(Engine.sameTables_transmit _ e).routingTable]
          exact h
  | tunPacket candidate packet =>
      rw [apply]
      rcases e.handleTunPacket_engine candidate packet with heng | ⟨peerId, hroute, hdirect, heng⟩
      · rw [heng]
        exact h
      · rw [heng, Engine.removeStaleRoute]
        cases hip : e.routingTable.lookupPeerIp peerId with
        | none => exact h
        | some ip' => exact hstale peerId _ ip' hdirect hroute hip
  | healthcheck nowMs peerId =>
      rw [apply, Engine.healthcheck]
      split <;> exact h
  | none | removeSession | removeAddrIndex | relayFlag | stunAddr => exact h

/-! ### The condition -/

/-- A `SessionInit` carries the address that is derived from its sender's identity. -/
def Update.Honest (blake3 : Blake3) (e : Engine (SecureTransport S)) : Update S → Prop
  | .message _ fromAddr (.sessionInit overlay ..) =>
    ∀ p ∈ e.addrIndex.lookup fromAddr, overlay = deriveOverlayAddr blake3 p
  | _ => True

instance (blake3 : Blake3) (e : Engine (SecureTransport S)) : DecidablePred (Update.Honest (S := S) blake3 e)
  | .message _ fromAddr (.sessionInit overlay ..) =>
    inferInstanceAs (Decidable (∀ p ∈ e.addrIndex.lookup fromAddr, overlay = deriveOverlayAddr blake3 p))
  | .message _ _ (.data _) | .message _ _ .heartbeat | .message _ _ (.ping _) | .message _ _ (.pong _)
  | .message _ _ (.holePunchProbe _) | .message _ _ (.holePunchAck _) | .message _ _ (.relayRequest _)
  | .message _ _ (.relayReady ..) | .message _ _ (.relayData ..) | .message _ _ (.relayAnnounce ..)
  | .message _ _ (.peerDirectory _) | .none | .complete _ | .removeSession _ | .removeAddrIndex _ | .tunPacket ..
  | .healthcheck .. | .relayFlag _ | .stunAddr _ => isTrue trivial

section

variable {blake3 : Blake3} {e e' : Engine (SecureTransport S)}

theorem Update.Honest.overlay_eq {u : Update S} (h : u.Honest blake3 e) {q : PeerId} (hq : q ∈ u.routed e) :
    u.overlay blake3 q = deriveOverlayAddr blake3 q := by
  unfold Update.overlay
  split
  · exact h q (Option.mem_toList.mp hq)
  · rfl

theorem Engine.SameTables.honest (h : e.SameTables e') (u : Update S) (hu : u.Honest blake3 e) :
    u.Honest blake3 e' := by
  unfold Update.Honest at hu ⊢
  split
  · rw [h.addrIndex]
    exact hu
  · trivial

/-! ### The property -/

/-- Every route is one of the peer whose address it is. -/
def RoutingTable.Owned (blake3 : Blake3) (t : RoutingTable) : Prop :=
  ∀ ip p, t.lookup ip = some p → ip = (deriveOverlayAddr blake3 p).ip

/-- Every route leads to the peer whose address it is, and none leads out of the overlay subnet. -/
structure Engine.RouteOwnership (blake3 : Blake3) (e : Engine (SecureTransport S)) : Prop where
  owned : e.routingTable.Owned blake3
  inSubnet : ∀ ip p, e.routingTable.lookup ip = some p → ip.a = overlaySubnetBase.a ∧ ip.b = overlaySubnetBase.b

namespace RoutingTable

variable {t : RoutingTable}

theorem Owned.addRoute (h : t.Owned blake3) (q : PeerId) : (t.addRoute (deriveOverlayAddr blake3 q) q).Owned blake3 := by
  intro ip p hp
  rw [lookup_addRoute, Function.update_apply] at hp
  split at hp
  · next hip => rw [hip, Option.some.inj hp]
  · exact h ip p hp

theorem Owned.removeRoute (h : t.Owned blake3) (overlay : OverlayAddr) : (t.removeRoute overlay).2.Owned blake3 := by
  intro ip p hp
  cases hl : t.lookup overlay.ip with
  | none =>
      rw [removeRoute_of_none hl] at hp
      exact h ip p hp
  | some q =>
      rw [(lookup_removeRoute hl).1, Function.update_apply] at hp
      split at hp
      · cases hp
      · exact h ip p hp

end RoutingTable

theorem Engine.routeOwnership_iff : e.RouteOwnership blake3 ↔ e.routingTable.Owned blake3 := by
  refine ⟨fun h => h.owned, fun h => ⟨h, fun ip p hp => ?_⟩⟩
  rw [h ip p hp]
  exact ⟨rfl, rfl⟩

/-- An update keeps the routes with their owners exactly if it is honest. -/
theorem Update.owned_iff (u : Update S) (h : e.routingTable.Owned blake3) :
    u.Honest blake3 e ↔ (u.apply blake3 e).routingTable.Owned blake3 := by
  constructor
  · intro hu
    refine Update.routingTable_induction (fun t q hq ht => ?_) (fun _ _ ip' _ _ _ => h.removeRoute ⟨ip'⟩) h
    rw [hu.overlay_eq hq]
    exact ht.addRoute q
  · intro hnew
    unfold Update.Honest
    split
    · next nowMs fromAddr overlay overlayIpv6 hostname publicAddr =>
        intro p hp
        have hroute : ((Update.message nowMs fromAddr (.sessionInit overlay overlayIpv6 hostname publicAddr)).apply
            blake3 e).routingTable.lookup overlay.ip = some p := by
          rw [Update.apply, Engine.handleMessage, Engine.handleSessionInit_engine, Option.mem_def.mp hp]
          exact (congrFun (RoutingTable.lookup_addRoute overlay p) overlay.ip).trans (Function.update_self ..)
        exact congrArg OverlayAddr.mk (hnew overlay.ip p hroute)
    · trivial

end

/-- **Route ownership.**  The runs of an engine in which every route belongs to the peer whose address it is
are those in which every `SessionInit` that is handled carries its sender's own address. -/
theorem route_ownership_iff (blake3 : Blake3) (n : Node S) (hinit : n.Initial) (as : List (LoopAction S)) :
    Along (Node.loopNext blake3) (fun n a => (n.update a).Honest blake3 n.engine) n as ↔
      ∀ bs, bs <+: as → (exec (Node.loopNext blake3) n bs).engine.RouteOwnership blake3 := by
  have hstart : n.engine.routingTable.Owned blake3 := by
    intro ip p hp
    rw [hinit.routingTable] at hp
    cases hp
  simp only [Engine.routeOwnership_iff]
  refine Node.along_iff_tables (I := fun e => e.routingTable.Owned blake3) blake3 (fun hsame h => ?_)
    (fun u hsame => hsame.honest u) (fun e u he => u.owned_iff he) hstart as
  rw [hsame.routingTable]
  exact h

open Transparent in
/-- After one handshake with a peer, as responder, and an honest `SessionInit`. -/
theorem route_ownership_handshake :
    (exec (Node.loopNext blake3) (roomyNode 1) ((handshakeFrom 7 (addr 2) 3 4 ++
      [messageFrom (addr 2) 3 4 0 (.sessionInit ⟨10, 88, 8, 7⟩ none "" none)]).map .task)).engine.RouteOwnership blake3 :=
  (route_ownership_iff blake3 (roomyNode 1) ⟨rfl, rfl, rfl, rfl, rfl, rfl, rfl⟩ _).mp (by decide +kernel) _
    List.prefix_rfl

open Transparent in
/-- Peer 8 announces the address of peer 7 as its own: packets for 7 now go to 8. -/
theorem route_hijacked :
    ¬ ∀ (blake3 : Blake3) (n : Node transparent), n.Initial → ∀ as : List (LoopAction transparent),
      (exec (Node.loopNext blake3) n as).engine.RouteOwnership blake3 := by
  intro h
  let hijack : List (NodeAction transparent) :=
    handshakeFrom 7 (addr 2) 3 4 ++ handshakeFrom 8 (addr 5) 13 14 ++
      [messageFrom (addr 5) 13 14 0 (.sessionInit (deriveOverlayAddr blake3 (.replicate 7)) none "" none)]
  have howned := (h blake3 (roomyNode 1) ⟨rfl, rfl, rfl, rfl, rfl, rfl, rfl⟩ (hijack.map .task)).owned
  have hroute := howned (deriveOverlayAddr blake3 (.replicate 7)).ip (.replicate 8) (by decide +kernel)
  exact absurd hroute (by decide +kernel)

end SeedNet
