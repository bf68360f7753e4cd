import SeedNet.Mesh
import SeedNet.RelayPromise
import SeedNet.TransparentHandshake

/-! # Packets along a chain of relays

A packet for a peer without a session travels as one `RelayData`, which every relay of a loop-free chain
decrypts and encrypts again for the next one.  `RelayChain` says what the tables of these nodes hold, and
`AtHop` what the mesh looks like while the message is on its way to the next hop: `AtHop.step` takes the
message one hop further and `AtHop.arrives` out of the mesh.

`relay_transparent`: the destination writes exactly the packet, exactly once, and no other node writes
anything. -/

namespace SeedNet

open Relation (ReflTransGen)
open Run (Infinite)

variable {S : Snow}

/-! ### The tables along the chain -/

namespace Engine

variable {τ : Type} (e : Engine τ)

/-- The outbound loop routes the packet to the peer `dst`. -/
structure RoutesTo (packet : Bytes) (dst : PeerId) : Prop where
  notOwn : packetDst packet ≠ e.siOverlay.ip
  route : e.routingTable.lookup (packetDst packet) = some dst

/-- There is no session with `dst`, but a relay path to it through `next`. -/
structure RelaysVia (dst next : PeerId) : Prop where
  noSession : dst ∉ e.sessions
  path : ∃ hops, e.relayPaths.lookup dst = some (next, hops)
  session : next ∈ e.sessions

/-- `RelayData` for `dst` is handed on to `next`. -/
structure HandsTo (dst next : PeerId) : Prop where
  notOwn : dst ≠ e.ourPeerId
  hasPath : e.HasPath dst
  forwards : e.ForwardsTo dst
  nextHop : e.nextHop dst = some next

variable {e} {dst next : PeerId}

theorem RelaysVia.handsTo (h : e.RelaysVia dst next) (hdst : dst ≠ e.ourPeerId) (hflag : e.canRelayFlag = true) :
    e.HandsTo dst next := by
  obtain ⟨hops, hpath⟩ := h.path
  have hnext : e.nextHop dst = some next := by rw [Engine.nextHop, if_neg h.noSession, hpath, Option.map_some]
  refine ⟨hdst, .inr (Map.mem_iff_lookup.mpr ⟨_, hpath⟩), ⟨.inr hflag, fun hop hhop => ?_⟩, hnext⟩
  exact Option.some.inj (hnext.symm.trans hhop) ▸ h.session

theorem handsTo_of_session (hs : dst ∈ e.sessions) (hdst : dst ≠ e.ourPeerId) : e.HandsTo dst dst := by
  have hnext : e.nextHop dst = some dst := if_pos hs
  refine ⟨hdst, .inl hs, ⟨.inl hs, fun hop hhop => ?_⟩, hnext⟩
  exact Option.some.inj (hnext.symm.trans hhop) ▸ hs

theorem HandsTo.handleRelayData (h : e.HandsTo dst next) (src : PeerId) (payload : Bytes) :
    (e.handleRelayData src dst payload).sends = [{ peer := next, msg := .relayData src dst payload }] ∧
      (e.handleRelayData src dst payload).tun = [] := by
  obtain ⟨hop, hhop, -, hsends, htun⟩ := (handleRelayData_forwards_iff h.notOwn h.hasPath).mpr h.forwards
  cases hhop.symm.trans h.nextHop
  exact ⟨hsends, htun⟩

end Engine

/-- A loop-free chain of relays `vs` from `src` to `dst`. -/
structure RelayChain (members : List PeerId) (addr : PeerId → TransportAddr) (nodes : PeerId → Node S)
    (src : PeerId) (vs : List PeerId) (dst : PeerId) : Prop where
  nonempty : vs ≠ []
  distinct : (src :: (vs ++ [dst])).Nodup
  members : src :: (vs ++ [dst]) ⊆ members
  identity : ∀ v ∈ src :: (vs ++ [dst]), (nodes v).engine.ourPeerId = v
  linked : (src :: (vs ++ [dst])).IsChain (Linked addr nodes)
  source : ∀ v ∈ vs.head?, (nodes src).engine.RelaysVia dst v
  relays : vs.IsChain fun v w => (nodes v).engine.RelaysVia dst w ∧ (nodes v).engine.canRelayFlag = true

section chain

variable {members : List PeerId} {addr : PeerId → TransportAddr} {nodes : PeerId → Node S} {src dst : PeerId}
  {vs : List PeerId}

theorem Linked.mem_sessions {u v : PeerId} (h : Linked addr nodes u v) : v ∈ (nodes u).engine.sessions := by
  obtain ⟨su, _, h⟩ := h
  exact Map.mem_iff_lookup.mpr ⟨su, h.session⟩

/-- Every relay hands messages for `dst` on to the next node of the chain. -/
theorem RelayChain.handsTo (h : RelayChain members addr nodes src vs dst) :
    (vs ++ [dst]).IsChain fun v w => (nodes v).engine.HandsTo dst w := by
  have hother : ∀ v ∈ vs, dst ≠ (nodes v).engine.ourPeerId := by
    intro v hv heq
    have hmem : v ∈ src :: (vs ++ [dst]) := List.mem_cons_of_mem _ (List.mem_append_left _ hv)
    have hdisjoint : List.Disjoint vs [dst] := (List.nodup_append'.mp (List.nodup_cons.mp h.distinct).2).2.2
    rw [h.identity v hmem] at heq
    exact hdisjoint hv (List.mem_singleton.mpr heq.symm)
  refine List.isChain_append.mpr ⟨?_, List.isChain_singleton dst, fun v hv w hw => ?_⟩
  · exact h.relays.imp_of_mem_imp fun v w hv _ hvw => hvw.1.handsTo (hother v hv) hvw.2
  · cases hw
    have hlinked := (List.isChain_append.mp (List.isChain_cons.mp h.linked).2).2.2 v hv dst rfl
    exact Engine.handsTo_of_session hlinked.mem_sessions (hother v (List.mem_of_mem_getLast? hv))

/-! ### One hop -/

/-- What a packet travels as. -/
def relayed (src dst : PeerId) (packet : Bytes) : Message := .relayData src dst (serializeMessage (.data packet))

variable {packet : Bytes}

theorem relayed_length_le (src dst : PeerId) (hlen : packet.length ≤ overlayMtu + 100) :
    (serializeMessage (relayed src dst packet)).length ≤ 1474 := by
  have houter := relayData_length_le src dst (serializeMessage (.data packet))
  have hinner := data_length_le packet
  rw [relayed]
  simp only [overlayMtu] at hlen
  omega

theorem relayed_encodable (hlen : packet.length ≤ overlayMtu + 100) : (relayed src dst packet).Encodable := by
  have hinner := data_length_le packet
  show (serializeMessage (.data packet)).length < 2 ^ 64
  simp only [overlayMtu] at hlen
  omega

theorem deserialize_packet (hlen : packet.length ≤ overlayMtu + 100) :
    deserializeMessage (serializeMessage (.data packet)) = .ok (.data packet) := by
  have hmsg : (Message.data packet).Encodable := by
    show packet.length < 2 ^ 64
    simp only [overlayMtu] at hlen
    omega
  have hread := deserialize_serialize (.data packet) hmsg []
  rwa [List.append_nil] at hread

section hop

variable (blake3 : Blake3) {u v w : PeerId} {su sv sv' sw : PeerSession (SecureTransport S)} {d : Datagram S}
  {a : Arrival S}

/-- A relay sends the message on, sealed for the next hop, and nothing else. -/
theorem Link.hands_on (h : Link addr nodes u v su sv) (hnext : Link addr nodes v w sv' sw) (hne : w ≠ u)
    (hhands : (nodes v).engine.HandsTo dst w) (htagged : S.Tagged) (hlen : packet.length ≤ overlayMtu + 100)
    (hsealed : d.Sealed su.transport.state su.transport.sendNonce (relayed src dst packet))
    (hfrom : a.fromAddr = addr u) (hdata : a.data = d.bytes) :
    ((nodes v).step blake3 (.receive a)).handled = some (relayed src dst packet) ∧
      ((nodes v).step blake3 (.receive a)).tun = [] ∧
      ∃ d', ((nodes v).step blake3 (.receive a)).out = [d'] ∧ d'.dst = addr w ∧
        d'.Sealed sv'.transport.state sv'.transport.sendNonce (relayed src dst packet) := by
  have hbytes := relayed_length_le src dst hlen
  obtain ⟨m, hopens, hframe⟩ := h.opens htagged hsealed (relayed_encodable hlen)
    (hbytes.trans (by decide)) hfrom hdata
  obtain ⟨hstep, hsame⟩ := Node.step_of_opens blake3 hopens
  have hhands' : m.engine.HandsTo dst w := by
    refine ⟨?_, (hsame.hasPath dst).mpr hhands.hasPath, (hsame.forwardsTo dst).mpr hhands.forwards, ?_⟩
    · rw [hsame.ourPeerId]
      exact hhands.notOwn
    · rw [hsame.nextHop]
      exact hhands.nextHop
  obtain ⟨hsends, htun⟩ := hhands'.handleRelayData src (serializeMessage (.data packet))
  have hsession : (m.engine.handleRelayData src dst (serializeMessage (.data packet))).engine.sessions.lookup w =
      (nodes v).engine.sessions.lookup w := by
    rw [Engine.handleRelayData_engine]
    exact hframe w hne
  obtain ⟨d', hout, hdst, hsealed'⟩ := hnext.sends hsession (relayed src dst packet)
    (by simp only [maxMessageLen]; omega)
  rw [hstep]
  refine ⟨rfl, htun, d', ?_, hdst, hsealed'⟩
  rw [← hout]
  exact congrArg (fun sends => (Engine.transmit _ sends).2) hsends

/-- The destination writes the packet, and sends nothing. -/
theorem Link.writes (h : Link addr nodes u dst su sv) (hidentity : (nodes dst).engine.ourPeerId = dst)
    (htagged : S.Tagged) (hlen : packet.length ≤ overlayMtu + 100)
    (hsealed : d.Sealed su.transport.state su.transport.sendNonce (relayed src dst packet))
    (hfrom : a.fromAddr = addr u) (hdata : a.data = d.bytes) :
    ((nodes dst).step blake3 (.receive a)).handled = some (relayed src dst packet) ∧
      ((nodes dst).step blake3 (.receive a)).tun = [packet] ∧ ((nodes dst).step blake3 (.receive a)).out = [] := by
  have hbytes := relayed_length_le src dst hlen
  obtain ⟨m, hopens, -⟩ := h.opens htagged hsealed (relayed_encodable hlen) (hbytes.trans (by decide)) hfrom hdata
  obtain ⟨hstep, hsame⟩ := Node.step_of_opens blake3 hopens
  have hown : dst = m.engine.ourPeerId := (hsame.ourPeerId.trans hidentity).symm
  have hreact : m.engine.handleMessage blake3 a.nowMs a.fromAddr (relayed src dst packet) =
      { engine := m.engine, tun := [packet] } := by
    show m.engine.handleRelayData src dst (serializeMessage (.data packet)) = _
    rw [Engine.handleRelayData, if_pos (.inl hown), deserialize_packet hlen]
  rw [hstep]
  simp only [Node.onMessage, hreact]
  exact ⟨trivial, trivial, rfl⟩

/-- The outbound loop of the source sends the message to the first relay, and nothing else. -/
theorem Link.injects (candidate : Option PeerId) (h : Link addr nodes src v su sv)
    (hidentity : (nodes src).engine.ourPeerId = src) (hvia : (nodes src).engine.RelaysVia dst v)
    (hroute : (nodes src).engine.RoutesTo packet dst) (hne : packet ≠ []) (hlen : packet.length ≤ overlayMtu + 100) :
    ((nodes src).loopStep blake3 (.tunPacket candidate packet)).handled = none ∧
      ((nodes src).loopStep blake3 (.tunPacket candidate packet)).tun = [] ∧
      ∃ d, ((nodes src).loopStep blake3 (.tunPacket candidate packet)).out = [d] ∧ d.dst = addr v ∧
        d.Sealed su.transport.state su.transport.sendNonce (relayed src dst packet) := by
  have hbytes := relayed_length_le src dst hlen
  obtain ⟨hops, hpath⟩ := hvia.path
  have hnonempty : ¬ packet.isEmpty = true := fun he => hne (List.isEmpty_iff.mp he)
  have hreact : (nodes src).engine.handleTunPacket candidate packet =
      { engine := (nodes src).engine, sends := [{ peer := v, msg := relayed src dst packet }] } := by
    rw [Engine.handleTunPacket, if_neg hnonempty, if_neg hroute.notOwn, hroute.route]
    simp only [Engine.routePacket, if_neg hvia.noSession, hpath, hidentity, relayed]
  obtain ⟨d, hout, hdst, hsealed⟩ := h.sends rfl (relayed src dst packet)
    (by simp only [maxMessageLen]; omega)
  simp only [Node.loopStep, Node.react, hreact]
  exact ⟨trivial, trivial, d, hout, hdst, hsealed⟩

end hop

/-! ### Runs -/

section runs

variable (blake3 : Blake3) (members : List PeerId) (addr : PeerId → TransportAddr) (nodes : PeerId → Node S)
  (msg : Message) (dst : PeerId) (log : List (PeerId × Message))

/-- The message is on its way from `u`, through `hops`. -/
structure AtHop (net : Mesh S) (u : PeerId) (hops : List PeerId) : Prop where
  distinct : (u :: hops).Nodup
  members : hops ⊆ members
  linked : (u :: hops).IsChain (Linked addr nodes)
  hands : hops.IsChain fun v w => (nodes v).engine.HandsTo dst w
  last : hops.getLast? = some dst
  /-- the message has not come to the nodes ahead -/
  untouched : ∀ v ∈ hops, net.node v = nodes v
  flight : ∃ v ∈ hops.head?, ∃ su sv d, Link addr nodes u v su sv ∧
    net.inFlight = [{ src := addr u, datagram := d }] ∧ d.dst = addr v ∧
    d.Sealed su.transport.state su.transport.sendNonce msg
  handled : net.handled ++ hops.map (fun v => (v, msg)) = log
  silent : net.tun = []

/-- The message has arrived: nothing is left in flight, and only the destination has written. -/
structure Arrived (packet : Bytes) (net : Mesh S) : Prop where
  inFlight : net.inFlight = []
  handled : net.handled = log
  tun : net.tun = [(dst, packet)]

variable {members} {addr} {nodes} {dst} {log} {net net' : Mesh S} {src u v : PeerId} {hops : List PeerId}
  {packet : Bytes}

/-- The message can be delivered. -/
theorem AtHop.progress {msg : Message} (h : AtHop members addr nodes msg dst log net u hops) (rng : S.Rng) :
    ∃ net', net.Delivers blake3 members addr net' := by
  obtain ⟨v, hv, su, sv, d, -, hflight, hdst, -⟩ := h.flight
  have hmem : v ∈ hops := List.mem_of_mem_head? hv
  exact ⟨_, .deliver net v [] [] _ { now := 0, nowMs := 0, rng := rng, fromAddr := addr u, data := d.bytes }
    (h.members hmem) hflight hdst rfl rfl⟩

variable {blake3} (hinj : ∀ v ∈ members, ∀ w ∈ members, addr v = addr w → v = w) (htagged : S.Tagged)
  (hlen : packet.length ≤ overlayMtu + 100)
include hinj htagged hlen

/-- A relay takes the message one hop further. -/
theorem AtHop.step (h : AtHop members addr nodes (relayed src dst packet) dst log net u (v :: hops))
    (hmore : hops ≠ []) (hd : net.Delivers blake3 members addr net') :
    AtHop members addr nodes (relayed src dst packet) dst log net' v hops := by
  obtain ⟨w, rest, rfl⟩ := List.exists_cons_of_ne_nil hmore
  obtain ⟨v', hv', su, sv, d, hlink, hflight, hdst, hsealed⟩ := h.flight
  cases hv'
  obtain ⟨v', a, hmem, hdst', hfrom, hdata, rfl⟩ := hd.of_single hflight
  cases hinj v' hmem v (h.members List.mem_cons_self) (hdst'.symm.trans hdst)
  obtain ⟨-, hlinked⟩ := List.isChain_cons_cons.mp h.linked
  obtain ⟨⟨sv', sw, hnext⟩, -⟩ := List.isChain_cons_cons.mp hlinked
  obtain ⟨hhands, hrest⟩ := List.isChain_cons_cons.mp h.hands
  have hne : w ≠ u := fun he => (List.nodup_cons.mp h.distinct).1 (by simp [he])
  obtain ⟨hhandled, htun, d', hout, hdst'', hsealed'⟩ :=
    hlink.hands_on blake3 hnext hne hhands htagged hlen hsealed hfrom hdata
  have hnode : net.node v = nodes v := h.untouched v List.mem_cons_self
  have hdistinct := (List.nodup_cons.mp h.distinct).2
  refine ⟨hdistinct, fun _ hx => h.members (List.mem_cons_of_mem v hx), hlinked, hrest, h.last, ?_, ?_, ?_, ?_⟩
  · intro x hx
    have hxv : x ≠ v := fun he => (List.nodup_cons.mp hdistinct).1 (he ▸ hx)
    exact (Function.update_of_ne hxv _ _).trans (h.untouched x (List.mem_cons_of_mem v hx))
  · refine ⟨w, rfl, sv', sw, d', hnext, ?_, hdst'', hsealed'⟩
    simp only [Mesh.after, hnode, hout, List.map_cons, List.map_nil, List.nil_append]
  · simp only [Mesh.after, hnode, hhandled, Option.toList_some, List.map_cons, List.map_nil, List.append_assoc,
      List.cons_append, List.nil_append]
    exact h.handled
  · simp only [Mesh.after, hnode, htun, h.silent, List.map_nil, List.append_nil]

/-- The destination takes the message out of the mesh. -/
theorem AtHop.arrives (h : AtHop members addr nodes (relayed src dst packet) dst log net u [v])
    (hidentity : (nodes dst).engine.ourPeerId = dst) (hd : net.Delivers blake3 members addr net') :
    Arrived dst log packet net' := by
  obtain ⟨v', hv', su, sv, d, hlink, hflight, hdst, hsealed⟩ := h.flight
  cases hv'
  obtain rfl : dst = v := (Option.some.inj h.last).symm
  obtain ⟨v', a, hmem, hdst', hfrom, hdata, rfl⟩ := hd.of_single hflight
  cases hinj v' hmem dst (h.members List.mem_cons_self) (hdst'.symm.trans hdst)
  obtain ⟨hhandled, htun, hout⟩ := hlink.writes blake3 hidentity htagged hlen hsealed hfrom hdata
  have hnode : net.node dst = nodes dst := h.untouched dst List.mem_cons_self
  refine ⟨?_, ?_, ?_⟩
  · simp only [Mesh.after, hnode, hout, List.map_nil, List.append_nil]
  · simp only [Mesh.after, hnode, hhandled, Option.toList_some, List.map_cons, List.map_nil]
    exact h.handled
  · simp only [Mesh.after, hnode, htun, h.silent, List.map_cons, List.map_nil, List.nil_append]

/-- A delivery takes the message one hop further, or out of the mesh. -/
theorem AtHop.next (hidentity : (nodes dst).engine.ourPeerId = dst)
    (h : AtHop members addr nodes (relayed src dst packet) dst log net u hops)
    (hd : net.Delivers blake3 members addr net') :
    (∃ v rest, hops = v :: rest ∧ AtHop members addr nodes (relayed src dst packet) dst log net' v rest) ∨
      Arrived dst log packet net' := by
  cases hops with
  | nil => cases h.last
  | cons v rest =>
      by_cases hrest : rest = []
      · rw [hrest] at h
        exact .inr (h.arrives hinj htagged hlen hidentity hd)
      · exact .inl ⟨v, rest, rfl, h.step hinj htagged hlen hrest hd⟩

omit hinj htagged hlen in
theorem Arrived.not_delivers (h : Arrived dst log packet net) : ¬ net.Delivers blake3 members addr net' := by
  rintro ⟨v, before, after, p, a, -, hflight, -⟩
  rw [h.inFlight] at hflight
  cases List.append_eq_nil_iff.mp hflight.symm with
  | intro _ hnil => cases hnil

/-- Throughout every run the message is on its way, or has arrived. -/
theorem AtHop.run (hidentity : (nodes dst).engine.ourPeerId = dst)
    (h : AtHop members addr nodes (relayed src dst packet) dst log net u hops)
    (hrun : ReflTransGen (Mesh.Delivers blake3 members addr) net net') :
    (∃ v rest, AtHop members addr nodes (relayed src dst packet) dst log net' v rest) ∨
      Arrived dst log packet net' := by
  induction hrun with
  | refl => exact .inl ⟨u, hops, h⟩
  | tail _ hd ih =>
      rcases ih with ⟨v, rest, hat⟩ | harrived
      · rcases hat.next hinj htagged hlen hidentity hd with ⟨w, rest', -, hat'⟩ | harrived
        · exact .inl ⟨w, rest', hat'⟩
        · exact .inr harrived
      · exact absurd hd harrived.not_delivers

/-- Every run ends. -/
theorem AtHop.acc (hidentity : (nodes dst).engine.ourPeerId = dst)
    (h : AtHop members addr nodes (relayed src dst packet) dst log net u hops) :
    Acc (fun net' net => net.Delivers blake3 members addr net') net := by
  induction hops generalizing net u with
  | nil => cases h.last
  | cons v rest ih =>
      refine ⟨_, fun net' hd => ?_⟩
      rcases h.next hinj htagged hlen hidentity hd with ⟨w, rest', heq, hat⟩ | harrived
      · cases heq
        exact ih hat
      · exact ⟨_, fun _ hd' => absurd hd' harrived.not_delivers⟩

/-- Some run takes the message to the destination. -/
theorem AtHop.completes (rng : S.Rng) (hidentity : (nodes dst).engine.ourPeerId = dst)
    (h : AtHop members addr nodes (relayed src dst packet) dst log net u hops) :
    ∃ net', ReflTransGen (Mesh.Delivers blake3 members addr) net net' ∧ Arrived dst log packet net' := by
  induction hops generalizing net u with
  | nil => cases h.last
  | cons v rest ih =>
      obtain ⟨net', hd⟩ := h.progress blake3 rng
      rcases h.next hinj htagged hlen hidentity hd with ⟨w, rest', heq, hat⟩ | harrived
      · cases heq
        obtain ⟨net'', hrun, harrived⟩ := ih hat
        exact ⟨net'', .head hd hrun, harrived⟩
      · exact ⟨net', .single hd, harrived⟩

variable (blake3) in
omit hinj htagged in
/-- The outbound loop of the source puts the message on its way. -/
theorem RelayChain.atHop (h : RelayChain members addr nodes src vs dst) (hne : packet ≠ [])
    (hroute : (nodes src).engine.RoutesTo packet dst) (candidate : Option PeerId) :
    AtHop members addr nodes (relayed src dst packet) dst ((vs ++ [dst]).map fun v => (v, relayed src dst packet))
      (({ node := nodes } : Mesh S).inject blake3 addr src candidate packet) src (vs ++ [dst]) := by
  obtain ⟨v, rest, rfl⟩ := List.exists_cons_of_ne_nil h.nonempty
  have hlinked := h.linked
  rw [List.cons_append] at hlinked
  obtain ⟨⟨su, sv, hlink⟩, -⟩ := List.isChain_cons_cons.mp hlinked
  obtain ⟨hhandled, htun, d, hout, hdst, hsealed⟩ := hlink.injects blake3 candidate
    (h.identity src List.mem_cons_self) (h.source v rfl) hroute hne hlen
  refine ⟨h.distinct, fun _ hx => h.members (List.mem_cons_of_mem src hx), h.linked, h.handsTo,
    List.getLast?_concat, ?_, ⟨v, rfl, su, sv, d, hlink, ?_, hdst, hsealed⟩, ?_, ?_⟩
  · intro x hx
    have hxs : x ≠ src := fun he => (List.nodup_cons.mp h.distinct).1 (he ▸ hx)
    exact Function.update_of_ne hxs _ _
  · simp only [Mesh.inject, Mesh.after, hout, List.map_cons, List.map_nil, List.nil_append]
  · simp only [Mesh.inject, Mesh.after, hhandled, Option.toList_none, List.map_nil, List.append_nil, List.nil_append]
  · simp only [Mesh.inject, Mesh.after, htun, List.map_nil, List.append_nil]

end runs

end chain

/-! ### A line of four nodes -/

namespace Transparent

/-- One end of the session between the nodes `k` and `k + 1` of a line. -/
def lineEnd (initiator : Bool) (k : UInt8) : PeerSession (SecureTransport transparent) where
  transport :=
    { state := { initiator := initiator, initiatorEph := k, responderEph := k + 1 }
      remoteStatic := .replicate (if initiator then k + 1 else k)
      sendNonce := 0
      nonceWindow := {} }
  underlay := .udp (addr (if initiator then k + 1 else k))

/-- Node `k` of a line that leads to node 4. -/
def lineNode (k : UInt8) : Node transparent :=
  { node k with
    plainBuf := List.replicate maxUdp 0
    engine :=
      { (node k).engine with
        sessions := AList.insert (.replicate (k + 1)) (lineEnd true k)
          (AList.insert (.replicate (k - 1)) (lineEnd false (k - 1)) ∅)
        addrIndex := AList.insert (.udp (addr (k - 1))) (.replicate (k - 1)) ∅
        relayPaths := AList.insert (.replicate 4) (.replicate (k + 1), 1) ∅
        routingTable := ({} : RoutingTable).addRoute ⟨⟨10, 88, 4, 4⟩⟩ (.replicate 4)
        canRelayFlag := true } }

def lineAddr (p : PeerId) : TransportAddr := .udp (addr (p.asBytes.headD 0))

def line (p : PeerId) : Node transparent := lineNode (p.asBytes.headD 0)

def lineMembers : List PeerId := List.map PeerId.replicate [1, 2, 3, 4]

/-- An IPv4 packet for node 4. -/
def linePacket (payload : UInt8) : Bytes := 69 :: (List.replicate 15 0 ++ [10, 88, 4, 4, payload])

theorem tagged : transparent.Tagged := authentic.tagged

/-- Neighbours have a working session. -/
theorem line_linked (k : UInt8) : Linked lineAddr line (.replicate k) (.replicate (k + 1)) := by
  have hpred : k + 1 - 1 = k := by grind
  have hne : PeerId.replicate k ≠ PeerId.replicate (k + 1 + 1) := by
    intro h
    have hk : k = k + 1 + 1 := congrArg (fun p : PeerId => p.asBytes.headD 0) h
    grind
  refine ⟨lineEnd true k, lineEnd false k, ?_, rfl, ?_, ?_, ?_, rfl, ?_, ?_, rfl, rfl, ?_⟩
  · exact AList.lookup_insert _
  · show AList.lookup (PeerId.replicate k) (lineNode (k + 1)).engine.sessions = _
    rw [lineNode, hpred]
    exact (AList.lookup_insert_ne hne).trans (AList.lookup_insert _)
  · intro payload _
    exact ⟨payload ++ tag _ 0, if_neg (lt_irrefl _)⟩
  · intro nonce payload room ct h room' hroom
    exact transportRead_write h hroom
  · show toLeBytes 0 ≠ holePunchProbePrefix.take nonceLen
    decide
  · show AList.lookup (TransportAddr.udp (addr k)) (lineNode (k + 1)).engine.addrIndex = _
    rw [lineNode, hpred]
    exact AList.lookup_insert _
  · show maxUdp ≤ (List.replicate maxUdp 0).length
    rw [List.length_replicate]

theorem line_chain :
    RelayChain lineMembers lineAddr line (.replicate 1) [.replicate 2, .replicate 3] (.replicate 4) where
  nonempty := by decide
  distinct := by decide
  members := by decide
  identity := by decide
  linked := by
    exact .cons_cons (line_linked 1) (.cons_cons (line_linked 2) (.cons_cons (line_linked 3) (.singleton _)))
  source := by
    intro v hv
    cases hv
    exact ⟨by decide, ⟨1, by decide⟩, by decide⟩
  relays := .cons_cons ⟨⟨by decide, ⟨1, by decide⟩, by decide⟩, rfl⟩ (.singleton _)

theorem lineAddr_injective : ∀ v ∈ lineMembers, ∀ w ∈ lineMembers, lineAddr v = lineAddr w → v = w := by decide

theorem packetDst_linePacket (payload : UInt8) : Engine.packetDst (linePacket payload) = ⟨10, 88, 4, 4⟩ := by
  have hparse : parseIpv4Packet (linePacket payload) =
      .ok { srcIp := ⟨0, 0, 0, 0⟩, dstIp := ⟨10, 88, 4, 4⟩, payload := linePacket payload } := by
    have hversion : ¬ ((69 : UInt8) / 16 ≠ 4) := by decide
    have hlen : ¬ (linePacket payload).length < ipv4HeaderMinLen := by
      show ¬ 21 < 20
      decide
    rw [parseIpv4Packet, if_neg hlen]
    exact if_neg hversion
  rw [Engine.packetDst, hparse]

theorem line_routesTo (payload : UInt8) :
    (line (.replicate 1)).engine.RoutesTo (linePacket payload) (.replicate 4) where
  notOwn := by
    rw [packetDst_linePacket]
    decide
  route := by
    rw [packetDst_linePacket]
    decide

end Transparent

/-! ### Transparency -/

/-- **Relays are transparent**: a packet that the source sends along a chain of relays is written by the
destination exactly once, as it was, and by no other node.  Until then nothing is written and the message can be
delivered; and every run ends. -/
theorem relay_transparent (blake3 : Blake3) (htagged : S.Tagged) (rng : S.Rng) (members : List PeerId)
    (addr : PeerId → TransportAddr) (hinj : ∀ v ∈ members, ∀ w ∈ members, addr v = addr w → v = w)
    (nodes : PeerId → Node S) (src dst : PeerId) (vs : List PeerId)
    (hchain : RelayChain members addr nodes src vs dst) (packet : Bytes) (hne : packet ≠ [])
    (hlen : packet.length ≤ overlayMtu + 100) (hroute : (nodes src).engine.RoutesTo packet dst)
    (candidate : Option PeerId) :
    (∀ net, ReflTransGen (Mesh.Delivers blake3 members addr)
        (({ node := nodes } : Mesh S).inject blake3 addr src candidate packet) net →
      (net.inFlight = [] ∧ net.tun = [(dst, packet)]) ∨
        (net.tun = [] ∧ ∃ net', net.Delivers blake3 members addr net')) ∧
      ¬ Infinite (Mesh.Delivers blake3 members addr)
        (({ node := nodes } : Mesh S).inject blake3 addr src candidate packet) := by
  have hidentity : (nodes dst).engine.ourPeerId = dst := hchain.identity dst (by simp)
  have hstart := hchain.atHop blake3 hlen hne hroute candidate
  constructor
  · intro net hrun
    rcases hstart.run hinj htagged hlen hidentity hrun with ⟨v, rest, hat⟩ | harrived
    · exact .inr ⟨hat.silent, hat.progress blake3 rng⟩
    · exact .inl ⟨harrived.inFlight, harrived.tun⟩
  · exact Run.not_infinite_of_acc (hstart.acc hinj htagged hlen hidentity)

open Transparent in
/-- Node 1 sends a packet to node 4 through the nodes 2 and 3. -/
theorem relay_transparent_line :
    (∀ net, ReflTransGen (Mesh.Delivers blake3 lineMembers lineAddr)
        (({ node := line } : Mesh transparent).inject blake3 lineAddr (.replicate 1) none (linePacket 7)) net →
      (net.inFlight = [] ∧ net.tun = [(.replicate 4, linePacket 7)]) ∨
        (net.tun = [] ∧ ∃ net', net.Delivers blake3 lineMembers lineAddr net')) ∧
      ¬ Infinite (Mesh.Delivers blake3 lineMembers lineAddr)
        (({ node := line } : Mesh transparent).inject blake3 lineAddr (.replicate 1) none (linePacket 7)) :=
  relay_transparent blake3 tagged (3 : UInt8) lineMembers lineAddr lineAddr_injective line (.replicate 1) (.replicate 4)
    [.replicate 2, .replicate 3] line_chain (linePacket 7) (List.cons_ne_nil _ _) (by decide) (line_routesTo 7) none

end SeedNet
