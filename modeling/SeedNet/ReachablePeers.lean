import SeedNet.Host
import SeedNet.RouteOwnership

/-! # Reachable peers

A peer with a session is reached through the route of the address that is derived from its identity.
Different peers can have the same address, since BLAKE3 is cut down to 16 bits; the routing table then
keeps the route that was installed last, and the other peer cannot be reached.  The table of allocated
addresses (`AllocationTable`) resolves such collisions, but nothing in the engine asks it.

The outbound loop finds that a peer has neither session nor relay path, waits for the lock of the routing table and
removes the peer's route without looking again.  A handshake that ends in between loses the route that it has just
installed.

`connected_peer_reachable`: with honest peers, every connected peer can be reached in every state of a run
that installs no route of a peer while another connected peer has the same address, and that removes no route of a
connected peer. -/

namespace SeedNet

open Run (exec Along)

variable {S : Snow}

/-! ### The condition -/

namespace Node

variable (blake3 : Blake3) (n : Node S)

/-- A handshake with `p` has stored its session and installs its route soon. -/
def Routing (p : PeerId) : Prop :=
  ∃ who c, n.completion who = some c ∧ c.peerId = p ∧ (c.stage = .addrIndex ∨ c.stage = .route)

/-- `p` has a session, and the updates of its handshake are done. -/
def Connected (p : PeerId) : Prop := p ∈ n.engine.sessions ∧ ¬ n.Routing p

/-- No other connected peer has the address of `q`. -/
def Unclaimed (q : PeerId) : Prop :=
  ∀ p ∈ n.engine.sessions.keys, p ≠ q → deriveOverlayAddr blake3 p = deriveOverlayAddr blake3 q → n.Routing p

instance (p : PeerId) : Decidable (n.Routing p) :=
  decidable_of_iff (∃ who ∈ n.tasks, (n.completion who).any fun c =>
      decide (c.peerId = p ∧ (c.stage = .addrIndex ∨ c.stage = .route))) <| by
    constructor
    · rintro ⟨who, -, h⟩
      obtain ⟨c, hc, hd⟩ := (Option.any_eq_true _ _).mp h
      exact ⟨who, c, hc, of_decide_eq_true hd⟩
    · rintro ⟨who, c, hc, hd⟩
      exact ⟨who, n.mem_tasks hc, (Option.any_eq_true _ _).mpr ⟨c, hc, decide_eq_true hd⟩⟩

instance (p : PeerId) : Decidable (n.Connected p) := inferInstanceAs (Decidable (_ ∧ _))

instance (q : PeerId) : Decidable (n.Unclaimed blake3 q) := inferInstanceAs (Decidable (∀ p ∈ _, _ → _ → _))

end Node

/-- A route is installed for the peer whose address it is. -/
def Op.Honest (blake3 : Blake3) : Op → Prop
  | .route overlay q => overlay = deriveOverlayAddr blake3 q
  | _ => True

/-- The operation installs no route of the address of another connected peer, and removes none of a connected peer. -/
def Op.KeepsReachable (blake3 : Blake3) (n : Node S) : Op → Prop
  | .route _ q => n.Unclaimed blake3 q
  | .staleRoute q => ∀ p ∈ n.engine.staleOwner q, ¬ n.Connected p
  | _ => True

/-- The update installs no route of the address of another connected peer. -/
def Update.KeepsReachable (blake3 : Blake3) (n : Node S) : Update S → Prop
  | .complete c => c.stage = .route → n.Unclaimed blake3 c.peerId
  | _ => True

namespace Host

variable (blake3 : Blake3) (h : Host S)

/-- Each `SessionInit` carries the address of the peer for which it is handled. -/
def Honest : HostAction S → Prop
  | .run t => ∀ w ∈ h.nextOp t, w.Honest blake3
  | .loop _ => True

def KeepsReachable : HostAction S → Prop
  | .run t => ∀ w ∈ h.nextOp t, w.KeepsReachable blake3 h.node
  | .loop a => (h.loopUpdate a).KeepsReachable blake3 h.node

instance : DecidablePred (Op.Honest blake3) := fun w => by
  unfold Op.Honest
  split <;> infer_instance

instance (n : Node S) : DecidablePred (Op.KeepsReachable blake3 n) := fun w => by
  unfold Op.KeepsReachable
  split <;> infer_instance

instance (n : Node S) : ∀ u : Update S, Decidable (u.KeepsReachable blake3 n)
  | .complete c => inferInstanceAs (Decidable (c.stage = .route → n.Unclaimed blake3 c.peerId))
  | .none | .message .. | .removeSession _ | .removeAddrIndex _ | .tunPacket .. | .healthcheck .. | .relayFlag _
  | .stunAddr _ => isTrue trivial

instance : ∀ a : HostAction S, Decidable (h.Honest blake3 a)
  | .run t => Option.decidableForallMem (h.nextOp t)
  | .loop _ => isTrue trivial

instance : ∀ a : HostAction S, Decidable (h.KeepsReachable blake3 a)
  | .run t => Option.decidableForallMem (h.nextOp t)
  | .loop a => inferInstanceAs (Decidable ((h.loopUpdate a).KeepsReachable blake3 h.node))

end Host

/-! ### Routing tables that serve a set of peers -/

namespace RoutingTable

/-- The peers of `C` have their routes, and every address in the table is the one of its peer. -/
structure Serves (blake3 : Blake3) (t : RoutingTable) (C : PeerId → Prop) : Prop where
  ownAddr : ∀ p ip, t.lookupPeerIp p = some ip → ip = (deriveOverlayAddr blake3 p).ip
  served : ∀ p, C p → t.lookup (deriveOverlayAddr blake3 p).ip = some p

variable {blake3 : Blake3} {t : RoutingTable} {C C' : PeerId → Prop}

theorem Serves.mono (h : t.Serves blake3 C) (hC : ∀ p, C' p → C p) : t.Serves blake3 C' :=
  ⟨h.ownAddr, fun p hp => h.served p (hC p hp)⟩

/-- The route of a peer without a namesake in `C` is added. -/
theorem Serves.addRoute (h : t.Serves blake3 C) {q : PeerId}
    (hq : ∀ p, C p → p ≠ q → deriveOverlayAddr blake3 p ≠ deriveOverlayAddr blake3 q) :
    (t.addRoute (deriveOverlayAddr blake3 q) q).Serves blake3 fun p => C p ∨ p = q := by
  refine ⟨fun p ip hp => ?_, fun p hp => ?_⟩
  · rw [lookupPeerIp_addRoute, Function.update_apply] at hp
    split at hp
    · next hpq => rw [hpq, ← Option.some.inj hp]
    · exact h.ownAddr p ip hp
  · rw [lookup_addRoute, Function.update_apply]
    by_cases hpq : p = q
    · rw [if_pos (by rw [hpq]), hpq]
    · have hC : C p := hp.resolve_right hpq
      have hne : (deriveOverlayAddr blake3 p).ip ≠ (deriveOverlayAddr blake3 q).ip := fun hip =>
        hq p hC hpq (congrArg OverlayAddr.mk hip)
      rw [if_neg hne]
      exact h.served p hC

/-- A route that leads to no peer of `C` is removed. -/
theorem Serves.removeRoute (h : t.Serves blake3 C) {overlay : OverlayAddr}
    (howner : ∀ p ∈ t.lookup overlay.ip, ¬ C p) : (t.removeRoute overlay).2.Serves blake3 C := by
  cases hroute : t.lookup overlay.ip with
  | none =>
      rw [removeRoute_of_none hroute]
      exact h
  | some owner =>
      obtain ⟨hlookup, hpeer⟩ := lookup_removeRoute hroute
      refine ⟨fun p ip hp => ?_, fun p hp => ?_⟩
      · rw [hpeer, Function.update_apply] at hp
        split at hp
        · cases hp
        · exact h.ownAddr p ip hp
      · have hserved := h.served p hp
        rw [hlookup, Function.update_apply]
        split
        · next heq =>
            rw [heq] at hserved
            exact absurd hp (howner p hserved)
        · exact hserved

end RoutingTable

/-! ### Steps of the loops -/

section

variable {blake3 : Blake3} {e : Engine (SecureTransport S)}

/-- A new session is that of a completed handshake. -/
theorem Update.mem_sessions_apply {u : Update S} {p : PeerId} (h : p ∈ (u.apply blake3 e).sessions) :
    p ∈ e.sessions ∨ ∃ c, u = .complete c ∧ c.stage = .session ∧ p = c.peerId := by
  have heff := u.sessionEffect blake3 e
  generalize u.apply blake3 e = e' at heff h
  cases heff with
  | same hs hi =>
      rw [← AList.lookup_isSome, ← Option.isSome_map (f := (·.underlay)), hs p, Option.isSome_map,
        AList.lookup_isSome] at h
      exact .inl h
  | stores c hu hstage =>
      rcases (AList.mem_insert _).mp h with rfl | hmem
      · exact .inr ⟨c, hu, hstage, rfl⟩
      · exact .inl hmem
  | indexes | forgets => exact .inl h
  | removes peerId hu => exact .inl (AList.mem_erase.mp h).2

end

namespace Host

variable (blake3 : Blake3) {h : Host S} {a : LoopAction S}

/-- Whoever is connected after a step was so before, or its handshake has just installed its route. -/
theorem connected_loop (hbusy : ¬ h.Busy a) {p : PeerId} (hp : (h.next blake3 (.loop a)).node.Connected p) :
    h.node.Connected p ∨ ∃ c, h.loopUpdate a = .complete c ∧ c.stage = .route ∧ p = c.peerId := by
  obtain ⟨e, hbefore, hafter⟩ := tables_loop blake3 (h := h) a
  obtain ⟨hmem, hidle⟩ := hp
  have hrouting {who : Option ℕ} {c : Completion S} (hw : (h.node.loopNext blake3 a).completion who = some c)
      (hstage : c.stage = .addrIndex ∨ c.stage = .route) : c.peerId ≠ p := fun hpeer =>
    hidle ⟨who, c, (completion_loop blake3 hbusy who).trans hw, hpeer, hstage⟩
  rcases Update.mem_sessions_apply ((hafter.mem p).mp hmem) with hold | ⟨c, hc, hstage, rfl⟩
  · by_cases hrun : h.node.Routing p
    · obtain ⟨who, c, hw, hpeer, hstage⟩ := hrun
      rcases Node.completion_loopNext blake3 (a := a) hw with hsame | ⟨hu, hnext⟩
      · exact absurd hpeer (hrouting hsame hstage)
      · rcases hstage with hs | hs
        · rw [Completion.next, hs] at hnext
          exact absurd hpeer (hrouting (c := { c with stage := .route }) hnext (.inr rfl))
        · exact .inr ⟨c, (loopUpdate_eq_complete_iff hbusy).mpr hu, hs, hpeer.symm⟩
    · exact .inl ⟨(hbefore.mem p).mp hold, hrun⟩
  · -- its route comes next
    obtain ⟨b, who, rfl, htask, hw⟩ := Node.completion_of_update ((loopUpdate_eq_complete_iff hbusy).mp hc)
    have hnext := Node.completion_advances blake3 htask hw
    rw [Completion.next, hstage] at hnext
    exact absurd rfl (hrouting (c := { c with stage := .addrIndex }) hnext (.inl rfl))

theorem serves_loop (hs : h.engine.routingTable.Serves blake3 h.node.Connected)
    (hkeep : (h.loopUpdate a).KeepsReachable blake3 h.node) :
    (h.next blake3 (.loop a)).engine.routingTable.Serves blake3 (h.next blake3 (.loop a)).node.Connected := by
  by_cases hbusy : h.Busy a
  · rw [next_of_busy blake3 hbusy]
    exact hs
  obtain ⟨e, hbefore, hafter⟩ := tables_loop blake3 (h := h) a
  rw [hafter.routingTable]
  dsimp only
  by_cases hroute : ∃ c, h.loopUpdate a = .complete c ∧ c.stage = .route
  · obtain ⟨c, hc, hstage⟩ := hroute
    rw [hc] at hkeep ⊢
    rw [Update.routingTable_apply (u := .complete c) trivial]
    dsimp only
    rw [if_pos hstage]
    have hserves : e.routingTable.Serves blake3 h.node.Connected := hbefore.routingTable ▸ hs
    have hadded := hserves.addRoute fun p hp hne heq => hp.2 (hkeep hstage p (AList.mem_keys.mp hp.1) hne heq)
    refine hadded.mono fun p hp => ?_
    refine (connected_loop blake3 hbusy hp).imp_right ?_
    rintro ⟨d, hd, -, rfl⟩
    rw [hc] at hd
    cases hd
    rfl
  · have hsame : ((h.loopUpdate a).apply blake3 e).routingTable = h.engine.routingTable := by
      rw [Update.routingTable_apply (elementary_loopUpdate a), hbefore.routingTable]
      split
      · next c hc => exact if_neg fun hstage => hroute ⟨c, hc, hstage⟩
      · rfl
    rw [hsame]
    refine hs.mono fun p hp => (connected_loop blake3 hbusy hp).resolve_right ?_
    rintro ⟨c, hc, hstage, -⟩
    exact hroute ⟨c, hc, hstage⟩

end Host

namespace Shared

variable (w : Op) (s : Shared S)

/-- No operation of a handler connects or disconnects a peer. -/
theorem connected_perform (p : PeerId) : (perform w s).1.node.Connected p ↔ s.node.Connected p := by
  rw [Node.Connected, Node.Connected, (sameSessions_perform w s).mem, Node.Routing, Node.Routing]
  simp only [completion_perform]

variable {w s} {blake3 : Blake3}

theorem serves_perform (hs : s.node.engine.routingTable.Serves blake3 s.node.Connected) (hhonest : w.Honest blake3)
    (hkeep : w.KeepsReachable blake3 s.node) :
    (perform w s).1.node.engine.routingTable.Serves blake3 (perform w s).1.node.Connected := by
  suffices h : (perform w s).1.node.engine.routingTable.Serves blake3 s.node.Connected from
    h.mono fun p => (connected_perform w s p).mp
  rw [routingTable_perform]
  cases w with
  | route overlay q =>
      dsimp only
      rw [show overlay = deriveOverlayAddr blake3 q from hhonest]
      exact (hs.addRoute fun p hp hne heq => hp.2 (hkeep p (AList.mem_keys.mp hp.1) hne heq)).mono fun p hp => .inl hp
  | staleRoute q =>
      dsimp only
      rw [Engine.removeStaleRoute]
      cases hip : s.node.engine.routingTable.lookupPeerIp q with
      | none => exact hs
      | some ip =>
          refine hs.removeRoute fun p hp => hkeep p ?_
          rw [Engine.staleOwner, hip]
          exact hp
  | relayPath | candidate | send | tun | call | set => exact hs

end Shared

/-! ### Runs -/

theorem Host.serves_next (blake3 : Blake3) {h : Host S} {a : HostAction S}
    (hs : h.engine.routingTable.Serves blake3 h.node.Connected) (hhonest : h.Honest blake3 a)
    (hkeep : h.KeepsReachable blake3 a) :
    (h.next blake3 a).engine.routingTable.Serves blake3 (h.next blake3 a).node.Connected := by
  cases a with
  | loop a => exact serves_loop blake3 hs hkeep
  | run t =>
      rw [engine, node, shared_run]
      cases hop : h.nextOp t with
      | none => exact hs
      | some w => exact Shared.serves_perform hs (hhonest w hop) (hkeep w hop)

/-- **No connected peer is unreachable.**  With honest peers, and in a run in which no route of a peer is
installed while another connected peer has the same address, and no route of a connected peer is removed,
every connected peer has a route in every state. -/
theorem connected_peer_reachable (blake3 : Blake3) (h : Host S) (hinit : h.Initial) (as : List (HostAction S))
    (hhonest : Along (Host.next blake3) (Host.Honest blake3) h as)
    (hkeep : Along (Host.next blake3) (Host.KeepsReachable blake3) h as) (p : PeerId)
    (hp : (exec (Host.next blake3) h as).node.Connected p) :
    ∃ ip, (exec (Host.next blake3) h as).engine.routingTable.lookup ip = some p := by
  have hstart : h.engine.routingTable.Serves blake3 h.node.Connected := by
    have hroutes : h.engine.routingTable = {} := hinit.node.routingTable
    have hsessions : h.node.engine.sessions = ∅ := hinit.node.sessions
    rw [hroutes]
    refine ⟨fun q ip hq => ?_, fun q hq => ?_⟩
    · cases hq
    · rw [Node.Connected, hsessions] at hq
      exact absurd hq.1 (AList.notMem_empty q)
  have hrun := (hhonest.and hkeep).invariant (I := fun h : Host S => h.engine.routingTable.Serves blake3 h.node.Connected)
    (fun m a hm ha => Host.serves_next blake3 hm ha.1 ha.2) hstart
  exact ⟨_, hrun.served p hp⟩

namespace Transparent

/-- Peers 7 and 8 complete a handshake each and announce themselves. -/
def bothAnnounced : List (NodeAction transparent) :=
  handshakeFrom 7 (addr 2) 3 4 ++ handshakeFrom 8 (addr 5) 13 14 ++
    [messageFrom (addr 5) 13 14 0 (.sessionInit (deriveOverlayAddr blake3 (.replicate 8)) none "" none),
      messageFrom (addr 2) 3 4 0 (.sessionInit (deriveOverlayAddr blake3 (.replicate 7)) none "" none)]

end Transparent

open Transparent in
/-- Peer 8 is removed, and a packet for it finds its stale route; peer 7 is still reached. -/
theorem connected_peer_reachable_two :
    ∃ ip, (exec (Host.next blake3) (host 1) (atOnce bothAnnounced ++ outboundTo 7 ++
      atOnce [.removed (.replicate 8), .removal] ++ outboundTo 8)).engine.routingTable.lookup ip = some (.replicate 7) :=
  connected_peer_reachable blake3 (host 1) (host_initial 1) _ (by decide +kernel) (by decide +kernel) (.replicate 7)
    (by decide +kernel)

open Transparent in
/-- The route of peer 8 is gone. -/
example : (exec (Host.next blake3) (host 1) (atOnce bothAnnounced ++ outboundTo 7 ++
    atOnce [.removed (.replicate 8), .removal] ++ outboundTo 8)).engine.routingTable.routes.keys =
      [(deriveOverlayAddr blake3 (.replicate 7)).ip] := by decide +kernel

open Transparent in
/-- Two peers with the same address complete a handshake each: the first one cannot be reached any more. -/
theorem namesake_unreachable :
    ¬ ∀ (blake3 : Blake3) (h : Host transparent), h.Initial → ∀ as : List (HostAction transparent),
      Along (Host.next blake3) (Host.Honest blake3) h as →
        ∀ p, (exec (Host.next blake3) h as).node.Connected p →
          ∃ ip, (exec (Host.next blake3) h as).engine.routingTable.lookup ip = some p := by
  intro h
  let sameHash : Blake3 := fun _ _ => 0
  let both := atOnce (handshakeFrom 7 (addr 2) 3 4 ++ handshakeFrom 8 (addr 5) 13 14)
  obtain ⟨ip, hip⟩ := h sameHash (host 1) (host_initial 1) both (by decide +kernel) (.replicate 7) (by decide +kernel)
  have hroutes : (exec (Host.next sameHash) (host 1) both).engine.routingTable.routes.entries =
      [⟨⟨10, 88, 1, 0⟩, .replicate 8⟩] := by decide +kernel
  have hmem := AList.mem_lookup_iff.mp (Option.mem_def.mpr hip)
  rw [hroutes, List.mem_singleton] at hmem
  have hpeer : PeerId.replicate 7 = PeerId.replicate 8 := congrArg Sigma.snd hmem
  exact absurd hpeer (by decide)

open Transparent in
/-- A packet for peer 7 finds the route that was installed when 8 told of 7, but neither session nor relay path; while
the outbound loop waits for the lock of the routing table a new handshake of 7 comes to its end. -/
example :
    let late := exec (Host.next blake3) (host 1) (atOnce (bothAnnounced ++ [.removed (.replicate 7), .removal]) ++
      .loop (.tunPacket none (packetToPeer 7)) :: List.replicate 3 (.run .outbound) ++
      atOnce (handshakeFrom 7 (addr 2) 23 24) ++ List.replicate 5 (.run .outbound))
    late.node.Connected (.replicate 7) ∧
      late.engine.routingTable.routes.keys = [(deriveOverlayAddr blake3 (.replicate 8)).ip] := by
  decide +kernel

end SeedNet
