import SeedNet.Loops
import SeedNet.Frames
import SeedNet.TransparentNode

/-! # The router and the outbound loop

`Router` of `crates/routing/src/lib.rs` decides where packets go, and so does the outbound loop of the engine,
which does not use it.  The router looks a packet up only if it is IPv4 and its destination in the overlay
subnet; the loop looks up every packet, `0.0.0.0` if it is not IPv4.  `router_agrees_iff` says for which packets
they decide the same. -/

namespace SeedNet

open Run (exec)

/-- `u32::from`. -/
def Ipv4Addr.toU32 (ip : Ipv4Addr) : UInt32 :=
  ip.a.toUInt32 <<< 24 ||| ip.b.toUInt32 <<< 16 ||| ip.c.toUInt32 <<< 8 ||| ip.d.toUInt32

def isOverlayDst (dstIp : Ipv4Addr) : Bool :=
  let mask : UInt32 := if overlaySubnetPrefix = 0 then 0 else ~~~0 <<< (32 - overlaySubnetPrefix).toUInt32
  dstIp.toU32 &&& mask == overlaySubnetBase.toU32 &&& mask

variable {S : Snow}

structure Router (S : Snow) where
  table : RoutingTable
  transports : Map PeerId (SecureTransport S) := ∅
  ourOverlay : OverlayAddr

def Router.routeOutbound (r : Router S) (packet : Bytes) : Except Error (Option (PeerId × Bytes)) × Router S :=
  match parseIpv4Packet packet with
  | .error e => (.error (.noiseTransport e), r)
  | .ok parsed =>
    if !isOverlayDst parsed.dstIp then (.ok none, r)
    else if parsed.dstIp = r.ourOverlay.ip then (.ok none, r)
    else
      match r.table.lookup parsed.dstIp with
      | none => (.ok none, r)
      | some peerId =>
        match r.transports.lookup peerId with
        | none => (.ok none, r)
        | some transport =>
          match transport.encrypt packet with
          | (.error e, t) => (.error e, { r with transports := r.transports.replace peerId t })
          | (.ok encrypted, t) =>
            (.ok (some (peerId, encrypted)), { r with transports := r.transports.replace peerId t })

/-- The router has the table, the address and the transports of the engine. -/
structure Router.Mirrors (r : Router S) (e : Engine (SecureTransport S)) : Prop where
  table : r.table = e.routingTable
  ourOverlay : r.ourOverlay = e.siOverlay
  transports : ∀ p, r.transports.lookup p = (e.sessions.lookup p).map (·.transport)

/-- The values of the map, under the same keys. -/
def Map.mapValues {K V W : Type} [DecidableEq K] (f : V → W) (m : Map K V) : Map K W :=
  ⟨m.entries.map (Sigma.map id fun _ => f), List.NodupKeys.map₂ (fun _ => f) m.entries m.nodupKeys⟩

/-- A router with what the engine has. -/
def Engine.router (e : Engine (SecureTransport S)) : Router S where
  table := e.routingTable
  transports := Map.mapValues (·.transport) e.sessions
  ourOverlay := e.siOverlay

theorem Engine.router_mirrors (e : Engine (SecureTransport S)) : e.router.Mirrors e where
  table := rfl
  ourOverlay := rfl
  transports p := List.dlookup_map₂ p

/-- `route_outbound` returns `Ok(Some((p, _)))`. -/
def Router.RoutesTo (r : Router S) (packet : Bytes) (p : PeerId) : Prop :=
  ∃ encrypted, (r.routeOutbound packet).1 = .ok (some (p, encrypted))

/-- The loop sends the packet over its session with `p`. -/
def Engine.SendsDirect (e : Engine (SecureTransport S)) (candidate : Option PeerId) (packet : Bytes) (p : PeerId) :
    Prop :=
  (e.handleTunPacket candidate packet).sends = [{ peer := p, msg := .data packet }] ∧
    (e.transmitOne { peer := p, msg := .data packet }).2 ≠ []

/-- The packet is IPv4, for an address of the overlay subnet. -/
def ForOverlay (packet : Bytes) : Prop := ∃ parsed, parseIpv4Packet packet = .ok parsed ∧ isOverlayDst parsed.dstIp = true

instance (packet : Bytes) : Decidable (ForOverlay packet) :=
  match h : parseIpv4Packet packet with
  | .ok parsed => decidable_of_iff (isOverlayDst parsed.dstIp = true)
      ⟨fun hdst => ⟨parsed, h, hdst⟩, fun ⟨_, h', hdst⟩ => Except.ok.inj (h.symm.trans h') ▸ hdst⟩
  | .error _ => .isFalse fun ⟨_, h', _⟩ => by cases h.symm.trans h'

example : isOverlayDst ⟨10, 88, 3, 4⟩ = true ∧ isOverlayDst ⟨10, 89, 3, 4⟩ = false := by decide

/-- The longest packet that the loop can encrypt. -/
def maxDirectPacket : ℕ := 65515

/-- The loop encrypts the message that carries the packet, which is up to 4 bytes longer. -/
theorem withinLimits_data_iff (nonce : UInt64) (packet : Bytes) :
    WithinLimits nonce (serializeMessage (.data packet)) ↔ nonce ≠ lastNonce ∧ packet.length ≤ maxDirectPacket := by
  refine and_congr_right fun _ => ?_
  have hle := length_le_data packet
  simp only [maxMessageLen, maxDirectPacket]
  constructor
  · intro h
    rw [length_data (by omega)] at h
    by_contra hlt
    have hlog : 2 ≤ Nat.log 128 packet.length := Nat.le_log_of_pow_le (by norm_num) (by omega)
    omega
  · intro h
    have hmono : Nat.log 128 packet.length ≤ Nat.log 128 65515 := Nat.log_mono_right h
    have hlog : Nat.log 128 65515 = 2 := (Nat.log_eq_iff (by norm_num)).mpr (by norm_num)
    rw [length_data (by omega)]
    omega

/-! ### The two decisions -/

section

variable {e : Engine (SecureTransport S)} {packet : Bytes} {p : PeerId}

open Engine (packetDst)

theorem transmitOne_ne_nil (hlimited : S.Limited) {s : Send} :
    (e.transmitOne s).2 ≠ [] ↔ ∃ session, e.sessions.lookup s.peer = some session ∧
      WithinLimits session.transport.sendNonce (serializeMessage s.msg) := by
  unfold Engine.transmitOne
  cases e.sessions.lookup s.peer with
  | none => simp
  | some session =>
      by_cases hlimits : WithinLimits session.transport.sendNonce (serializeMessage s.msg)
      · obtain ⟨datagram, hdatagram⟩ := session.transport.encrypt_ok hlimited hlimits
        simp [hdatagram, hlimits]
      · obtain ⟨err, herr⟩ := session.transport.encrypt_error hlimited hlimits
        simp [herr, hlimits]

/-- Only a session with the peer of the route gets the packet itself. -/
theorem eq_of_mem_routePacket {candidate : Option PeerId} {q : PeerId}
    (h : { peer := p, msg := .data packet } ∈ (e.routePacket candidate packet q).sends) : q = p := by
  unfold Engine.routePacket at h
  split at h
  · exact (congrArg Send.peer (List.mem_singleton.mp h)).symm
  · split at h
    · cases congrArg Send.msg (List.mem_singleton.mp h)
    · unfold Engine.requestVia at h
      split at h
      · split at h
        · cases congrArg Send.msg (List.mem_singleton.mp h)
        · cases h
      · cases h

theorem Engine.sendsDirect_iff (hlimited : S.Limited) (candidate : Option PeerId) :
    e.SendsDirect candidate packet p ↔ (packet ≠ [] ∧ packetDst packet ≠ e.siOverlay.ip ∧
      e.routingTable.lookup (packetDst packet) = some p) ∧ ∃ session, e.sessions.lookup p = some session ∧
        WithinLimits session.transport.sendNonce (serializeMessage (.data packet)) := by
  rw [SendsDirect, transmitOne_ne_nil hlimited]
  refine and_congr_left fun ⟨session, hsession, _⟩ => ?_
  have hmem : p ∈ e.sessions := Map.mem_iff_lookup.mpr ⟨session, hsession⟩
  constructor
  · intro hsends
    unfold handleTunPacket at hsends
    split at hsends
    · cases hsends
    · next hnil =>
        split at hsends
        · cases hsends
        · next hown =>
            split at hsends
            · cases hsends
            · next q hroute =>
                refine ⟨fun h => hnil (List.isEmpty_iff.mpr h), hown, ?_⟩
                have hmem' : { peer := p, msg := .data packet } ∈ (e.routePacket candidate packet q).sends :=
                  hsends ▸ List.mem_singleton_self _
                exact hroute.trans (congrArg some (eq_of_mem_routePacket hmem'))
  · rintro ⟨hnil, hown, hroute⟩
    simp [handleTunPacket, hnil, hown, hroute, routePacket, hmem]

theorem Router.routesTo_iff (hlimited : S.Limited) {r : Router S} (h : r.Mirrors e) :
    r.RoutesTo packet p ↔ (ForOverlay packet ∧ packetDst packet ≠ e.siOverlay.ip ∧
      e.routingTable.lookup (packetDst packet) = some p) ∧ ∃ session, e.sessions.lookup p = some session ∧
        WithinLimits session.transport.sendNonce packet := by
  unfold RoutesTo routeOutbound ForOverlay packetDst
  cases parseIpv4Packet packet with
  | error err => simp
  | ok parsed =>
      dsimp only
      rw [h.table, h.ourOverlay]
      by_cases hdst : isOverlayDst parsed.dstIp = true
      · by_cases hown : parsed.dstIp = e.siOverlay.ip
        · simp [hown]
        · cases hroute : e.routingTable.lookup parsed.dstIp with
          | none => simp [hdst, hown]
          | some q =>
              simp only [hdst, hown, Bool.not_true, Bool.false_eq_true, if_false, ne_eq, not_false_eq_true, Except.ok.injEq,
                exists_eq_left', true_and, Option.some.injEq]
              rw [h.transports]
              cases hsession : e.sessions.lookup q with
              | none =>
                  simp only [Option.map_none, Except.ok.injEq, reduceCtorEq, exists_false, false_iff]
                  rintro ⟨rfl, session, hlookup, -⟩
                  cases hsession.symm.trans hlookup
              | some session =>
                  dsimp only [Option.map_some]
                  have hone : (∃ s, e.sessions.lookup p = some s ∧ WithinLimits s.transport.sendNonce packet) ∧ q = p ↔
                      WithinLimits session.transport.sendNonce packet ∧ q = p := by
                    refine and_congr_left fun hqp => ?_
                    subst hqp
                    simp [hsession]
                  rw [and_comm (a := q = p), hone]
                  by_cases hlimits : WithinLimits session.transport.sendNonce packet
                  · obtain ⟨datagram, hdatagram⟩ := session.transport.encrypt_ok hlimited hlimits
                    simp [hdatagram, hlimits]
                  · obtain ⟨err, herr⟩ := session.transport.encrypt_error hlimited hlimits
                    simp [herr, hlimits]
      · simp [hdst]

end

/-- For a packet that has a session to go to, the loop and the router look at different things. -/
theorem sameChoice_iff (nonce : UInt64) (packet : Bytes) :
    (packet ≠ [] ∧ nonce ≠ lastNonce ∧ packet.length ≤ maxDirectPacket ↔
      ForOverlay packet ∧ WithinLimits nonce packet) ↔
      packet = [] ∨ ¬ WithinLimits nonce packet ∨ (ForOverlay packet ↔ packet.length ≤ maxDirectPacket) := by
  have hempty : ForOverlay packet → packet ≠ [] := by
    rintro ⟨parsed, hparsed, -⟩ rfl
    cases hparsed
  have hfits : packet.length ≤ maxDirectPacket → packet.length + 16 ≤ maxMessageLen := by
    simp only [maxDirectPacket, maxMessageLen]
    omega
  unfold WithinLimits
  tauto

/-- **The loop and the router agree** on a packet exactly if it goes nowhere, or can be encrypted by neither of
them, or is a packet of the overlay that is not too long for the loop. -/
theorem router_agrees_iff (hlimited : S.Limited) (e : Engine (SecureTransport S)) (r : Router S) (h : r.Mirrors e)
    (candidate : Option PeerId) (packet : Bytes) :
    (∀ p, e.SendsDirect candidate packet p ↔ r.RoutesTo packet p) ↔
      ∀ p session, e.routingTable.lookup (Engine.packetDst packet) = some p → e.sessions.lookup p = some session →
        Engine.packetDst packet ≠ e.siOverlay.ip →
          packet = [] ∨ ¬ WithinLimits session.transport.sendNonce packet ∨
            (ForOverlay packet ↔ packet.length ≤ maxDirectPacket) := by
  simp only [Engine.sendsDirect_iff hlimited, Router.routesTo_iff hlimited h, withinLimits_data_iff]
  constructor
  · intro hagree p session hroute hsession hown
    have hp := hagree p
    simp only [hroute, hsession, hown, ne_eq, not_false_eq_true, and_true, Option.some.injEq, exists_eq_left'] at hp
    exact (sameChoice_iff _ packet).mp hp
  · intro hcond p
    by_cases hroute : e.routingTable.lookup (Engine.packetDst packet) = some p
    · by_cases hown : Engine.packetDst packet = e.siOverlay.ip
      · simp [hown]
      · cases hsession : e.sessions.lookup p with
        | none => simp
        | some session =>
            have hsame := (sameChoice_iff _ packet).mpr (hcond p session hroute hsession hown)
            simpa [hroute, hown] using hsame
    · simp [hroute]

namespace Transparent

/-- A packet of 20 bytes for the address. -/
def packetTo (dst : Ipv4Addr) : Bytes := 0x45 :: List.replicate 15 0 ++ dst.octets

/-- An engine with one session and one route. -/
def neighbourEngine : Engine (SecureTransport limited) where
  ourPeerId := .replicate 1
  siOverlay := ⟨10, 88, 1, 1⟩
  siOverlayIpv6 := default
  siHostname := "node"
  sessions := AList.insert (.replicate 7) ⟨limitedTransport, .udp default⟩ ∅
  routingTable := RoutingTable.addRoute {} ⟨10, 88, 7, 7⟩ (.replicate 7)

/-- Peer 7 completes a handshake and introduces itself with this overlay address. -/
def introducedAs (overlay : Ipv4Addr) : List (LoopAction transparent) :=
  (handshakeFrom 7 (addr 2) 3 4 ++ [messageFrom (addr 2) 3 4 0 (.sessionInit ⟨overlay⟩ none "" none)]).map .task

end Transparent

open Transparent in
theorem router_agrees_connected :
    neighbourEngine.SendsDirect none (packetTo ⟨10, 88, 7, 7⟩) (.replicate 7) ↔
      neighbourEngine.router.RoutesTo (packetTo ⟨10, 88, 7, 7⟩) (.replicate 7) :=
  (router_agrees_iff limited_limited neighbourEngine neighbourEngine.router neighbourEngine.router_mirrors none
    (packetTo ⟨10, 88, 7, 7⟩)).mpr (fun _ _ _ _ _ => .inr (.inr (by decide))) (.replicate 7)

open Transparent in
/-- Peer 7 claims an address outside the overlay: the loop sends packets for it to 7, the router does not. -/
theorem router_disagrees :
    ¬ ∀ (blake3 : Blake3) (n : Node transparent), n.Initial → ∀ (as : List (LoopAction transparent))
      (r : Router transparent), r.Mirrors (exec (Node.loopNext blake3) n as).engine → ∀ candidate packet p,
        (exec (Node.loopNext blake3) n as).engine.SendsDirect candidate packet p ↔ r.RoutesTo packet p := by
  intro h
  let e := (exec (Node.loopNext blake3) (roomyNode 1) (introducedAs ⟨192, 168, 1, 5⟩)).engine
  let outside := packetTo ⟨192, 168, 1, 5⟩
  have hagree := h blake3 (roomyNode 1) ⟨rfl, rfl, rfl, rfl, rfl, rfl, rfl⟩ (introducedAs ⟨192, 168, 1, 5⟩) _
    e.router_mirrors none outside (.replicate 7)
  have hsends : (e.handleTunPacket none outside).sends = [{ peer := .replicate 7, msg := .data outside }] := by
    decide +kernel
  have hdatagram : (e.transmitOne { peer := .replicate 7, msg := .data outside }).2.isEmpty = false := by
    decide +kernel
  have hne : (e.transmitOne { peer := .replicate 7, msg := .data outside }).2 ≠ [] := fun hnil => by
    cases hdatagram.symm.trans (List.isEmpty_iff.mpr hnil)
  obtain ⟨encrypted, hroute⟩ := hagree.mp ⟨hsends, hne⟩
  have hnone : (e.router.routeOutbound outside).1 = .ok none := by
    decide +kernel
  cases hnone.symm.trans hroute

end SeedNet
