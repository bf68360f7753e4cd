import SeedNet.Outbound
import SeedNet.RouteInverse

/-! # Stale routes

A packet for a peer with neither a session nor a relay path makes the outbound loop remove "the stale route".
The loop does not remove the route that the packet took, but the one at the address that `lookup_peer_ip` gives
for the peer: `stale_route_removed_iff` says when these are the same.  They are as long as the two maps of the
table are inverse (`Engine.StaleFor.cleansExactly`). -/

namespace SeedNet

open Run (exec)

namespace Engine

variable {τ : Type} (e : Engine τ)

/-- The packet took the route to `peerId`, which cannot be reached. -/
structure StaleFor (packet : Bytes) (peerId : PeerId) : Prop where
  route : e.routingTable.lookup (packetDst packet) = some peerId
  noSession : peerId ∉ e.sessions
  noPath : peerId ∉ e.relayPaths

/-- After the packet its destination has no route, and all other routes are as before. -/
def CleansExactly (candidate : Option PeerId) (packet : Bytes) : Prop :=
  (e.handleTunPacket candidate packet).engine.routingTable.lookup =
    Function.update e.routingTable.lookup (packetDst packet) none

variable {e} {packet : Bytes} {peerId : PeerId}

/-- What the loop does to the routes. -/
theorem StaleFor.handleTunPacket (h : e.StaleFor packet peerId) (candidate : Option PeerId) :
    (e.handleTunPacket candidate packet).engine =
      if packet = [] ∨ packetDst packet = e.siOverlay.ip then e else e.removeStaleRoute peerId := by
  have hpath : e.relayPaths.lookup peerId = none := AList.lookup_eq_none.mpr h.noPath
  unfold Engine.handleTunPacket
  by_cases hnil : packet = []
  · simp [hnil]
  · by_cases hown : packetDst packet = e.siOverlay.ip
    · simp only [hown, List.isEmpty_iff, or_true, if_true]
      split <;> rfl
    · simp [hnil, hown, h.route, Engine.routePacket, h.noSession, hpath]

theorem lookup_removeStaleRoute_of_ne {ip : Ipv4Addr} (h : e.routingTable.lookupPeerIp peerId ≠ some ip) :
    (e.removeStaleRoute peerId).routingTable.lookup ip = e.routingTable.lookup ip := by
  unfold removeStaleRoute
  split
  · next ip' haddr =>
      have hne : ip ≠ ip' := fun heq => h (heq ▸ haddr)
      cases hroute : e.routingTable.lookup ip' with
      | none => rw [RoutingTable.removeRoute_of_none hroute]
      | some p => exact (congrFun (RoutingTable.lookup_removeRoute hroute).1 ip).trans (Function.update_of_ne hne ..)
  · rfl

theorem lookup_removeStaleRoute {ip : Ipv4Addr} (haddr : e.routingTable.lookupPeerIp peerId = some ip)
    (hroute : e.routingTable.lookup ip = some peerId) :
    (e.removeStaleRoute peerId).routingTable.lookup = Function.update e.routingTable.lookup ip none := by
  rw [removeStaleRoute, haddr]
  exact (RoutingTable.lookup_removeRoute hroute).1

end Engine

open Engine (packetDst) in
/-- **The stale route, and no other, is removed** exactly if the loop comes to its removal and the peer's
address is the destination of the packet. -/
theorem stale_route_removed_iff {τ : Type} (e : Engine τ) (candidate : Option PeerId) (packet : Bytes)
    (peerId : PeerId) (h : e.StaleFor packet peerId) :
    e.CleansExactly candidate packet ↔ packet ≠ [] ∧ packetDst packet ≠ e.siOverlay.ip ∧
      e.routingTable.lookupPeerIp peerId = some (packetDst packet) := by
  unfold Engine.CleansExactly
  rw [h.handleTunPacket]
  constructor
  · intro hclean
    have hgone := congrFun hclean (packetDst packet)
    rw [Function.update_self] at hgone
    split at hgone
    · cases h.route.symm.trans hgone
    · next hnot =>
        obtain ⟨hnil, hown⟩ := not_or.mp hnot
        refine ⟨hnil, hown, ?_⟩
        by_contra haddr
        rw [Engine.lookup_removeStaleRoute_of_ne haddr] at hgone
        cases h.route.symm.trans hgone
  · rintro ⟨hnil, hown, haddr⟩
    rw [if_neg (not_or.mpr ⟨hnil, hown⟩)]
    exact Engine.lookup_removeStaleRoute haddr h.route

/-- As long as the maps are inverse, the loop removes the right route. -/
theorem Engine.StaleFor.cleansExactly {τ : Type} {e : Engine τ} {packet : Bytes} {peerId : PeerId}
    (h : e.StaleFor packet peerId) (hinverse : e.routingTable.MutuallyInverse) (hnil : packet ≠ [])
    (hown : Engine.packetDst packet ≠ e.siOverlay.ip) (candidate : Option PeerId) :
    e.CleansExactly candidate packet := by
  have haddr : e.routingTable.lookupPeerIp peerId = some (Engine.packetDst packet) :=
    (hinverse peerId (Engine.packetDst packet)).mp h.route
  rw [CleansExactly, h.handleTunPacket, if_neg (not_or.mpr ⟨hnil, hown⟩)]
  exact lookup_removeStaleRoute haddr h.route

namespace Transparent

/-- A packet of 20 bytes for `10.88.1.d`. -/
def packetFor (d : UInt8) : Bytes := 0x45 :: List.replicate 15 0 ++ [10, 88, 1, d]

/-- An engine that has only a routing table. -/
def routed (ops : List RouteOp) : Engine Unit where
  ourPeerId := .replicate 9
  siOverlay := ⟨10, 88, 9, 9⟩
  siOverlayIpv6 := default
  siHostname := "node"
  routingTable := exec RoutingTable.apply .new ops

end Transparent

namespace Transparent

/-- Routes to three peers, and one that has been removed. -/
def routeOps : List RouteOp :=
  [.addRoute ⟨10, 88, 1, 1⟩ (.replicate 1), .addRoute ⟨10, 88, 2, 2⟩ (.replicate 2), .addRoute ⟨10, 88, 4, 4⟩ (.replicate 4),
    .removeRoute ⟨10, 88, 4, 4⟩, .addRoute ⟨10, 88, 3, 3⟩ (.replicate 3)]

end Transparent

open Transparent in
theorem stale_route_removed_others :
    (routed routeOps).routingTable.lookup ⟨10, 88, 3, 3⟩ = some (.replicate 3) ∧
      (routed routeOps).CleansExactly none (packetFor 1) :=
  ⟨by decide, (stale_route_removed_iff (routed routeOps) none (packetFor 1) (.replicate 1)
    ⟨by decide, by decide, by decide⟩).mpr ⟨by decide, by decide, by decide⟩⟩

open Transparent in
/-- A peer with two addresses: a packet for the first one removes the route of the second one. -/
theorem other_route_removed :
    ¬ ∀ (ops : List RouteOp) (packet : Bytes) (peerId : PeerId), (routed ops).StaleFor packet peerId →
      (routed ops).CleansExactly none packet := by
  intro h
  let twice : List RouteOp := [.addRoute ⟨10, 88, 1, 1⟩ (.replicate 1), .addRoute ⟨10, 88, 1, 2⟩ (.replicate 1)]
  have hclean := h twice (packetFor 1) (.replicate 1) ⟨by decide, by decide, by decide⟩
  have hkept : ((routed twice).handleTunPacket none (packetFor 1)).engine.routingTable.lookup ⟨10, 88, 1, 1⟩ =
      some (.replicate 1) := by decide
  rw [hclean] at hkept
  exact absurd hkept (by decide)

end SeedNet
