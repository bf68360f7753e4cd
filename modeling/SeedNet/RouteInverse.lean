import SeedNet.InverseIndex
import SeedNet.Routing
import SeedNet.Run

/-! # Routes and peer addresses

The two maps of a `RoutingTable` are written as each other's inverse: `removeRoute` looks up a peer
and erases its address, `removePeer` the other way round.  `addRoute` writes both maps whatever
was there, so a peer that gets a second address, or an address that gets a second peer, leaves an
entry behind in one of them.

`RouteOp.Keeps` excludes just that, and `routing_maps_inverse_iff` says that the maps are mutually
inverse throughout a sequence of calls exactly if every call of it meets the condition.
`dangling_route` is what the leftover entry does to a later `removePeer`. -/

namespace SeedNet

open InverseIndex (Inverse)
open Run (exec Along)

/-- A call on a routing table. -/
inductive RouteOp where
  | addRoute (overlay : OverlayAddr) (peerId : PeerId)
  | removeRoute (overlay : OverlayAddr)
  | removePeer (peerId : PeerId)
deriving DecidableEq

namespace RoutingTable

/-- `RoutingTable::new()`. -/
def new : RoutingTable where

variable (t : RoutingTable)

def apply : RouteOp → RoutingTable
  | .addRoute overlay peerId => t.addRoute overlay peerId
  | .removeRoute overlay => (t.removeRoute overlay).2
  | .removePeer peerId => (t.removePeer peerId).2

/-- `routes` and `peer_addrs` are mutually inverse. -/
def MutuallyInverse : Prop := Inverse t.lookupPeerIp t.lookup

/-- The call does not give a second address to a peer, nor a second peer to an address. -/
def Keeps : RouteOp → Prop
  | .addRoute overlay peerId =>
    (∀ ip ∈ t.lookupPeerIp peerId, ip = overlay.ip) ∧ ∀ p ∈ t.lookup overlay.ip, p = peerId
  | _ => True

instance : DecidablePred t.Keeps := fun op => by
  unfold Keeps
  cases op <;> infer_instance

variable {t}

/-! ### The maps after a call -/

theorem lookup_addRoute (overlay : OverlayAddr) (peerId : PeerId) :
    (t.addRoute overlay peerId).lookup = Function.update t.lookup overlay.ip (some peerId) := by
  funext ip
  simp only [lookup, addRoute, Map.lookup_insert, Function.update_apply]

theorem lookupPeerIp_addRoute (overlay : OverlayAddr) (peerId : PeerId) :
    (t.addRoute overlay peerId).lookupPeerIp = Function.update t.lookupPeerIp peerId (some overlay.ip) := by
  funext p
  simp only [lookupPeerIp, addRoute, Map.lookup_insert, Function.update_apply]

theorem lookup_removeRoute {overlay : OverlayAddr} {p : PeerId} (h : t.lookup overlay.ip = some p) :
    (t.removeRoute overlay).2.lookup = Function.update t.lookup overlay.ip none ∧
      (t.removeRoute overlay).2.lookupPeerIp = Function.update t.lookupPeerIp p none := by
  have h' : t.routes.lookup overlay.ip = some p := h
  constructor
  · funext ip
    simp only [lookup, removeRoute, h', Map.lookup_erase, Function.update_apply]
  · funext q
    simp only [lookupPeerIp, removeRoute, h', Map.lookup_erase, Function.update_apply]

theorem removeRoute_of_none {overlay : OverlayAddr} (h : t.lookup overlay.ip = none) :
    (t.removeRoute overlay).2 = t := by
  have h' : t.routes.lookup overlay.ip = none := h
  simp only [removeRoute, h']

theorem lookup_removePeer {p : PeerId} {ip : Ipv4Addr} (h : t.lookupPeerIp p = some ip) :
    (t.removePeer p).2.lookup = Function.update t.lookup ip none ∧
      (t.removePeer p).2.lookupPeerIp = Function.update t.lookupPeerIp p none := by
  have h' : t.peerAddrs.lookup p = some ip := h
  constructor
  · funext ip'
    simp only [lookup, removePeer, h', Map.lookup_erase, Function.update_apply]
  · funext q
    simp only [lookupPeerIp, removePeer, h', Map.lookup_erase, Function.update_apply]

theorem removePeer_of_none {p : PeerId} (h : t.lookupPeerIp p = none) : (t.removePeer p).2 = t := by
  have h' : t.peerAddrs.lookup p = none := h
  simp only [removePeer, h']

/-! ### What a call preserves -/

theorem mutuallyInverse_removeRoute (h : t.MutuallyInverse) (overlay : OverlayAddr) :
    (t.removeRoute overlay).2.MutuallyInverse := by
  cases hl : t.lookup overlay.ip with
  | none =>
      rw [removeRoute_of_none hl]
      exact h
  | some p =>
      obtain ⟨hroutes, haddrs⟩ := lookup_removeRoute hl
      rw [MutuallyInverse, hroutes, haddrs]
      exact h.erase ((h p overlay.ip).mp hl)

theorem mutuallyInverse_removePeer (h : t.MutuallyInverse) (p : PeerId) :
    (t.removePeer p).2.MutuallyInverse := by
  cases hl : t.lookupPeerIp p with
  | none =>
      rw [removePeer_of_none hl]
      exact h
  | some ip =>
      obtain ⟨hroutes, haddrs⟩ := lookup_removePeer hl
      rw [MutuallyInverse, hroutes, haddrs]
      exact h.erase hl

/-- A call leaves the maps inverse exactly if it meets the condition. -/
theorem keeps_iff (h : t.MutuallyInverse) (op : RouteOp) : t.Keeps op ↔ (t.apply op).MutuallyInverse := by
  cases op with
  | addRoute overlay peerId =>
      rw [apply, MutuallyInverse, lookup_addRoute, lookupPeerIp_addRoute]
      exact (h.insert_iff peerId overlay.ip).symm
  | removeRoute overlay => exact ⟨fun _ => mutuallyInverse_removeRoute h overlay, fun _ => trivial⟩
  | removePeer p => exact ⟨fun _ => mutuallyInverse_removePeer h p, fun _ => trivial⟩

theorem mutuallyInverse_new : new.MutuallyInverse := Inverse.empty

/-- A peer that was added at two addresses keeps the route of the first one when it is removed. -/
theorem dangling_route (t : RoutingTable) {o₁ o₂ : OverlayAddr} (hne : o₁.ip ≠ o₂.ip) (p : PeerId) :
    (((t.addRoute o₁ p).addRoute o₂ p).removePeer p).2.lookup o₁.ip = some p ∧
      (((t.addRoute o₁ p).addRoute o₂ p).removePeer p).2.lookupPeerIp p = none := by
  have haddr : ((t.addRoute o₁ p).addRoute o₂ p).lookupPeerIp p = some o₂.ip := by
    rw [lookupPeerIp_addRoute, Function.update_self]
  obtain ⟨hroutes, haddrs⟩ := lookup_removePeer haddr
  rw [hroutes, haddrs, lookup_addRoute, lookup_addRoute]
  refine ⟨?_, Function.update_self ..⟩
  rw [Function.update_of_ne hne, Function.update_of_ne hne, Function.update_self]

end RoutingTable

open RoutingTable in
/-- **Mutually inverse maps.**  Along a sequence of calls from the empty table, `routes[ip] = p` iff
`peer_addrs[p] = ip` in every table reached, if and only if no call gives a second address to a peer or a
second peer to an address. -/
theorem routing_maps_inverse_iff (ops : List RouteOp) :
    (∀ before, before <+: ops → ∀ ip p,
      (exec apply .new before).lookup ip = some p ↔ (exec apply .new before).lookupPeerIp p = some ip) ↔
      Along apply Keeps .new ops := by
  have hiff := Run.along_iff_invariant (I := MutuallyInverse) (fun _ op h => keeps_iff h op) mutuallyInverse_new ops
  constructor
  · intro h
    exact hiff.mpr fun before hbefore p ip => h before hbefore ip p
  · intro h before hbefore ip p
    exact hiff.mp h before hbefore p ip

open RoutingTable in
/-- One peer, added at two addresses. -/
theorem routing_maps_diverge :
    ¬ ∀ (ops : List RouteOp) (ip : Ipv4Addr) (p : PeerId),
      (exec apply .new ops).lookup ip = some p ↔ (exec apply .new ops).lookupPeerIp p = some ip := by
  intro h
  let readd : List RouteOp :=
    [.addRoute ⟨⟨10, 88, 1, 1⟩⟩ (.replicate 1), .addRoute ⟨⟨10, 88, 1, 2⟩⟩ (.replicate 1)]
  have hroute : (exec apply .new readd).lookupPeerIp (.replicate 1) = some ⟨10, 88, 1, 1⟩ :=
    (h readd ⟨10, 88, 1, 1⟩ (.replicate 1)).mp (by decide)
  exact absurd hroute (by decide)

end SeedNet
