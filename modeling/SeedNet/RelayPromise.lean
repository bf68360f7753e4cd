import SeedNet.Loops
import SeedNet.TransparentNode

/-! # Promises of a relay

`handle_relay_request` answers `RelayReady` for a destination with a session or a relay path;
`handle_relay_data` forwards to a destination without a session only if `can_relay_flag` is set, and takes
the packet for its own otherwise.

`relay_keeps_promise_iff` is the exact condition under which a relay that has promised to relay to a
destination, and has kept its path, forwards a packet for it.  `promise_broken` is a relay behind
a NAT that takes the packet for its own. -/

namespace SeedNet

open Run (exec Along)

/-! ### Paths -/

namespace Engine

variable {τ : Type} (e : Engine τ)

/-- The peer that messages for `dst` are sent to. -/
def nextHop (dst : PeerId) : Option PeerId :=
  if dst ∈ e.sessions then some dst else (e.relayPaths.lookup dst).map Prod.fst

/-- A session or a relay path. -/
def HasPath (dst : PeerId) : Prop := dst ∈ e.sessions ∨ dst ∈ e.relayPaths

/-- The engine forwards to `dst`, not just to peers with a session, and the next hop has one. -/
def ForwardsTo (dst : PeerId) : Prop :=
  (dst ∈ e.sessions ∨ e.canRelayFlag = true) ∧ ∀ hop ∈ e.nextHop dst, hop ∈ e.sessions

instance (dst : PeerId) : Decidable (e.HasPath dst) := inferInstanceAs (Decidable (_ ∨ _))

instance (dst : PeerId) : Decidable (e.ForwardsTo dst) :=
  haveI := Option.decidableForallMem (p := fun hop => hop ∈ e.sessions) (e.nextHop dst)
  inferInstanceAs (Decidable (_ ∧ _))

variable {e}

/-- A packet for another node is handed on as it is, or not at all. -/
theorem handleRelayData_forwards_iff {src dst : PeerId} {payload : Bytes} (hdst : dst ≠ e.ourPeerId)
    (hpath : e.HasPath dst) :
    (∃ hop, e.nextHop dst = some hop ∧ hop ∈ e.sessions ∧
        (e.handleRelayData src dst payload).sends = [{ peer := hop, msg := .relayData src dst payload }] ∧
        (e.handleRelayData src dst payload).tun = []) ↔ e.ForwardsTo dst := by
  unfold handleRelayData ForwardsTo
  by_cases hs : dst ∈ e.sessions
  · have hhop : e.nextHop dst = some dst := if_pos hs
    have hcond : ¬ (dst = e.ourPeerId ∨ dst ∉ e.sessions ∧ e.canRelayFlag = false) := by
      rintro (h | h)
      · exact hdst h
      · exact h.1 hs
    rw [if_neg hcond, if_pos hs, hhop]
    refine iff_of_true ⟨dst, rfl, hs, rfl, rfl⟩ ⟨.inl hs, fun hop h => ?_⟩
    exact Option.some.inj h ▸ hs
  · obtain ⟨⟨next, hops⟩, hlookup⟩ := Map.mem_iff_lookup.mp (hpath.resolve_left hs)
    have hhop : e.nextHop dst = some next := by rw [nextHop, if_neg hs, hlookup, Option.map_some]
    cases hflag : e.canRelayFlag with
    | false =>
        rw [if_pos (.inr ⟨hs, rfl⟩)]
        refine iff_of_false ?_ fun h => h.1.elim hs fun h => by cases h
        rintro ⟨hop, -, -, hsends, -⟩
        split at hsends <;> cases hsends
    | true =>
        have hcond : ¬ (dst = e.ourPeerId ∨ dst ∉ e.sessions ∧ true = false) := by
          rintro (h | h)
          · exact hdst h
          · cases h.2
        rw [if_neg hcond, if_neg hs, hlookup, hhop]
        constructor
        · rintro ⟨hop, hnext, hmem, -⟩
          exact ⟨.inr rfl, fun hop' h => Option.some.inj (hnext.symm.trans h) ▸ hmem⟩
        · intro h
          exact ⟨next, rfl, h.2 next rfl, rfl, rfl⟩

end Engine

/-! ### Promises -/

/-- A `RelayReady` of the relay `relayId` for the destination `dst`. -/
def Message.Readies (relayId dst : PeerId) : Message → Prop
  | .relayReady relayPeerId dstPeerId _ => relayPeerId = relayId ∧ dstPeerId = dst
  | _ => False

instance (relayId dst : PeerId) : DecidablePred (Message.Readies relayId dst)
  | .relayReady relayPeerId dstPeerId _ => inferInstanceAs (Decidable (relayPeerId = relayId ∧ dstPeerId = dst))
  | .data _ | .heartbeat | .ping _ | .pong _ | .sessionInit .. | .holePunchProbe _ | .holePunchAck _
  | .relayRequest _ | .relayData .. | .relayAnnounce .. | .peerDirectory _ => isFalse id

/-- The requester, if there is one, is answered that `relayId` relays to `dst`. -/
def Reaction.Answers {τ : Type} (r : Reaction τ) (requester : Option PeerId) (relayId dst : PeerId) : Prop :=
  ∃ s ∈ r.sends, requester = some s.peer ∧ s.msg.Readies relayId dst

instance {τ : Type} (r : Reaction τ) (requester : Option PeerId) (relayId dst : PeerId) :
    Decidable (r.Answers requester relayId dst) := inferInstanceAs (Decidable (∃ s ∈ r.sends, _ ∧ _))

variable {S : Snow}

section

variable (blake3 : Blake3)

namespace Node

/-- The node answers a request for `dst`, in the datagram `a`, by `RelayReady` to the requester. -/
def Promises (n : Node S) (a : Arrival S) (dst : PeerId) : Prop :=
  n.messageIn a = some (.relayRequest dst) ∧
    ∃ r ∈ n.reaction blake3 a, r.Answers (n.engine.addrIndex.lookup a.fromAddr) n.engine.ourPeerId dst

instance (n : Node S) (a : Arrival S) (dst : PeerId) : Decidable (n.Promises blake3 a dst) :=
  haveI := Option.decidableExistsMem (p := fun r : Reaction (SecureTransport S) =>
    r.Answers (n.engine.addrIndex.lookup a.fromAddr) n.engine.ourPeerId dst) (n.reaction blake3 a)
  instDecidableAnd

/-- The node has promised to relay to `dst`, and has kept a session or a relay path to it since. -/
def Promised (n : Node S) (as : List (LoopAction S)) (dst : PeerId) : Prop :=
  ∃ before a since, as = before ++ .task (.receive a) :: since ∧
    (exec (Node.loopNext blake3) n before).Promises blake3 a dst ∧
    ∀ part, part <+: since →
      (exec (Node.loopNext blake3) n (before ++ .task (.receive a) :: part)).engine.HasPath dst

/-- The datagram `a` makes the node send `msg` to its next hop for `dst`, and nothing else: neither to
anyone else nor to its own TUN. -/
def HandsOn (n : Node S) (a : Arrival S) (dst : PeerId) (msg : Message) : Prop :=
  ∃ hop r, n.engine.nextHop dst = some hop ∧ hop ∈ n.engine.sessions ∧ n.reaction blake3 a = some r ∧
    r.sends = [{ peer := hop, msg := msg }] ∧ r.tun = []

end Node

namespace Engine.SameTables

variable {e e' : Engine (SecureTransport S)}

theorem nextHop (h : e.SameTables e') (dst : PeerId) : e'.nextHop dst = e.nextHop dst := by
  simp only [Engine.nextHop, h.mem, h.relayPaths]

theorem hasPath (h : e.SameTables e') (dst : PeerId) : e'.HasPath dst ↔ e.HasPath dst := by
  simp only [HasPath, h.mem, h.relayPaths]

theorem forwardsTo (h : e.SameTables e') (dst : PeerId) : e'.ForwardsTo dst ↔ e.ForwardsTo dst := by
  simp only [ForwardsTo, h.mem, h.canRelayFlag, h.nextHop]

end Engine.SameTables

namespace Node

variable {blake3} {n : Node S} {a : Arrival S} {src dst : PeerId} {payload : Bytes}

theorem handsOn_iff (hpath : n.engine.HasPath dst) (hmsg : n.messageIn a = some (.relayData src dst payload))
    (hdst : dst ≠ n.engine.ourPeerId) :
    n.HandsOn blake3 a dst (.relayData src dst payload) ↔ n.engine.ForwardsTo dst := by
  obtain ⟨⟨m, msg⟩, ho, rfl⟩ := Option.map_eq_some_iff.mp hmsg
  have hsame := (step_of_opens blake3 ho).2
  have hreact : n.reaction blake3 a = some (m.engine.handleRelayData src dst payload) := by
    rw [reaction, ho]
    rfl
  rw [← hsame.ourPeerId] at hdst
  rw [← hsame.forwardsTo, ← Engine.handleRelayData_forwards_iff hdst ((hsame.hasPath dst).mpr hpath)]
  constructor
  · rintro ⟨hop, r, hhop, hmem, hr, hsends, htun⟩
    cases hreact.symm.trans hr
    exact ⟨hop, (hsame.nextHop dst).trans hhop, (hsame.mem hop).mpr hmem, hsends, htun⟩
  · rintro ⟨hop, hhop, hmem, hsends, htun⟩
    exact ⟨hop, _, (hsame.nextHop dst).symm.trans hhop, (hsame.mem hop).mp hmem, hreact, hsends, htun⟩

theorem Promised.hasPath {as : List (LoopAction S)} (h : n.Promised blake3 as dst) :
    (exec (Node.loopNext blake3) n as).engine.HasPath dst := by
  obtain ⟨before, a, since, rfl, -, hkept⟩ := h
  exact hkept since List.prefix_rfl

end Node

end

/-- **Relays keep their promise** exactly if the destination has a session or `can_relay_flag` is set, and
the next hop has a session: after any run in which the node has promised to relay to `dst` and has kept its
path, a `RelayData` for `dst` is handed on, unchanged, under this condition and under no other. -/
theorem relay_keeps_promise_iff (blake3 : Blake3) (n : Node S) (as : List (LoopAction S)) (dst : PeerId)
    (hpromised : n.Promised blake3 as dst) (a : Arrival S) (src : PeerId) (payload : Bytes)
    (hmsg : (exec (Node.loopNext blake3) n as).messageIn a = some (.relayData src dst payload))
    (hdst : dst ≠ (exec (Node.loopNext blake3) n as).engine.ourPeerId) :
    (exec (Node.loopNext blake3) n as).HandsOn blake3 a dst (.relayData src dst payload) ↔
      (exec (Node.loopNext blake3) n as).engine.ForwardsTo dst :=
  Node.handsOn_iff hpromised.hasPath hmsg hdst

open Transparent in
/-- Peer 7 asks for a relay to peer 8, which has a session, and sends a packet. -/
theorem relay_keeps_promise_direct :
    (exec (Node.loopNext blake3) (roomyNode 1) ((handshakeFrom 7 (addr 2) 3 4 ++ handshakeFrom 8 (addr 5) 13 14 ++
      [messageFrom (addr 2) 3 4 0 (.relayRequest (.replicate 8))]).map .task)).HandsOn blake3
      (messageArrival (addr 2) 3 4 1 (.relayData (.replicate 7) (.replicate 8) [69])) (.replicate 8)
      (.relayData (.replicate 7) (.replicate 8) [69]) :=
  (relay_keeps_promise_iff blake3 (roomyNode 1) _ (.replicate 8)
    ⟨(handshakeFrom 7 (addr 2) 3 4 ++ handshakeFrom 8 (addr 5) 13 14).map .task,
      messageArrival (addr 2) 3 4 0 (.relayRequest (.replicate 8)), [], rfl, by decide +kernel, fun part hpart => by
        rw [List.prefix_nil.mp hpart]
        decide +kernel⟩
    (messageArrival (addr 2) 3 4 1 (.relayData (.replicate 7) (.replicate 8) [69])) (.replicate 7) [69]
    (by decide +kernel) (by decide +kernel)).mpr (by decide +kernel)

open Transparent in
/-- Peer 8 says that it reaches 9, and the node, which is not publicly routable, tells peer 7 that it relays
to 9.  The packet that 7 sends for 9 ends on the node's own TUN. -/
theorem promise_broken :
    ¬ ∀ (blake3 : Blake3) (n : Node transparent) (as : List (LoopAction transparent)) (dst : PeerId),
      n.Initial → n.Promised blake3 as dst → ∀ (a : Arrival transparent) (src : PeerId) (payload : Bytes),
        (exec (Node.loopNext blake3) n as).messageIn a = some (.relayData src dst payload) →
          dst ≠ (exec (Node.loopNext blake3) n as).engine.ourPeerId →
            (exec (Node.loopNext blake3) n as).HandsOn blake3 a dst (.relayData src dst payload) := by
  intro h
  let known : List (NodeAction transparent) :=
    handshakeFrom 7 (addr 2) 3 4 ++ handshakeFrom 8 (addr 5) 13 14 ++
      [messageFrom (addr 5) 13 14 0 (.peerDirectory [(.replicate 9, addr 6, 1)])]
  let asked := known ++ [messageFrom (addr 2) 3 4 0 (.relayRequest (.replicate 9))]
  let packet : Message := .data [69]
  let carried := messageArrival (addr 2) 3 4 1 (.relayData (.replicate 7) (.replicate 9) (serializeMessage packet))
  obtain ⟨hop, r, -, -, hr, -, htun⟩ := h blake3 (roomyNode 1) (asked.map .task) (.replicate 9)
    ⟨rfl, rfl, rfl, rfl, rfl, rfl, rfl⟩
    ⟨known.map .task, messageArrival (addr 2) 3 4 0 (.relayRequest (.replicate 9)), [], rfl, by decide +kernel,
      fun part hpart => by
        rw [List.prefix_nil.mp hpart]
        decide +kernel⟩
    carried (.replicate 7) (serializeMessage packet) (by decide +kernel) (by decide +kernel)
  have hown : ((exec (Node.loopNext blake3) (roomyNode 1) (asked.map .task)).reaction blake3 carried).map (·.tun) =
      some [[69]] := by decide +kernel
  rw [hr, Option.map_some, htun] at hown
  cases hown

end SeedNet
