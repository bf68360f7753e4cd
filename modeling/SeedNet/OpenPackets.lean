import SeedNet.OpenNetwork
import SeedNet.RelayChain

/-! # Packets on an open network

`Node.Emits` lists the messages that a step sends, and `Node.Writes` the packets that it writes to the TUN device.
`Message.Carries P` says that `P` holds of the packets that a message delivers, and of the peers they are for.

`packets_come_from_devices`: every packet that a node writes to its TUN device was read from the TUN device of a node. -/

namespace SeedNet

open Results (bind_eq_ok map_eq_ok)
open Run (exec Along)

variable {S : Snow}

/-! ### What handlers send and write -/

/-- Neither a packet nor a `SessionInit`. -/
def Message.isControl : Message → Bool
  | .data _ | .relayData .. | .sessionInit .. => false
  | _ => true

namespace Engine

variable {τ : Type} {blake3 : Blake3} {e : Engine τ} {s : Send} {nowMs : UInt64} {fromAddr : TransportAddr}
  {msg : Message} {packet : Bytes}

theorem control_tellOthers {skip : PeerId} {entries : List DirectoryEntry} (h : s ∈ e.tellOthers skip entries) :
    s.msg.isControl = true := by
  obtain ⟨p, -, rfl⟩ := List.mem_map.mp h
  rfl

theorem control_tellPeer {peer : PeerId} {entries : List DirectoryEntry} {addr : Option TransportAddr}
    (h : s ∈ tellPeer peer entries addr) : s.msg.isControl = true := by
  unfold tellPeer at h
  split at h
  · cases h
  · rw [List.mem_singleton.mp h]
    rfl

theorem control_introduce {peer : PeerId} (h : s ∈ e.introduce peer fromAddr) : s.msg.isControl = true := by
  unfold introduce at h
  split at h
  · split at h
    · exact (List.mem_append.mp h).elim control_tellPeer control_tellOthers
    · cases h
  · cases h

theorem control_handlePeerDirectory {entries : List DirectoryEntry}
    (h : s ∈ (e.handlePeerDirectory blake3 fromAddr entries).sends) : s.msg.isControl = true := by
  have hentries : ∀ rid, s ∈ (e.directoryEntries blake3 rid entries).2 → s.msg.isControl = true := by
    intro rid hs
    obtain ⟨d, hd⟩ := directoryEntries_sends blake3 rid entries e s hs
    rw [hd]
    rfl
  unfold handlePeerDirectory at h
  split at h
  · cases h
  · dsimp only at h
    split at h
    · exact (List.mem_append.mp h).elim (hentries _) control_tellOthers
    · exact hentries _ h

theorem control_handleRelayRequest {dst : PeerId} (h : s ∈ (e.handleRelayRequest blake3 fromAddr dst).sends) :
    s.msg.isControl = true := by
  unfold handleRelayRequest at h
  split at h
  · split at h
    · cases h
    · split at h
      · simp only [List.mem_cons, List.not_mem_nil, or_false] at h
        rcases h with rfl | rfl <;> rfl
      · split at h
        · cases h
        · simp only [List.mem_cons, List.not_mem_nil, or_false] at h
          rcases h with rfl | rfl <;> rfl
  · split at h <;> cases h

/-- A handler sends control messages, or hands `RelayData` on. -/
theorem handleMessage_sends (h : s ∈ (e.handleMessage blake3 nowMs fromAddr msg).sends) :
    s.msg.isControl = true ∨ ∃ src dst payload, msg = .relayData src dst payload ∧ s.msg = msg := by
  cases msg with
  | ping sentMs =>
      rw [handleMessage] at h
      split at h
      · rw [List.mem_singleton.mp h]
        exact .inl rfl
      · cases h
  | pong sentMs =>
      rw [handleMessage] at h
      split at h <;> cases h
  | sessionInit overlay overlayIpv6 hostname publicAddr =>
      rw [handleMessage, handleSessionInit] at h
      split at h
      · cases h
      · exact .inl (control_introduce h)
  | peerDirectory entries => exact .inl (control_handlePeerDirectory h)
  | relayRequest dst => exact .inl (control_handleRelayRequest h)
  | relayData src dst payload =>
      rw [handleMessage, handleRelayData] at h
      split at h
      · split at h <;> cases h
      · split at h
        · rw [List.mem_singleton.mp h]
          exact .inr ⟨src, dst, payload, rfl, rfl⟩
        · split at h
          · rw [List.mem_singleton.mp h]
            exact .inr ⟨src, dst, payload, rfl, rfl⟩
          · cases h
  | data | heartbeat | relayAnnounce | relayReady | holePunchProbe | holePunchAck => cases h

/-- The node takes `RelayData` for itself: it is the destination, or it cannot relay. -/
def Keeps (e : Engine τ) (dst : PeerId) : Prop := dst = e.ourPeerId ∨ dst ∉ e.sessions ∧ e.canRelayFlag = false

/-- A handler writes the packet of its message, or the one of a `RelayData` that the node keeps. -/
theorem handleMessage_tun (h : packet ∈ (e.handleMessage blake3 nowMs fromAddr msg).tun) :
    msg = .data packet ∨ ∃ src dst payload, msg = .relayData src dst payload ∧
      deserializeMessage payload = .ok (.data packet) ∧ e.Keeps dst := by
  cases msg with
  | data payload =>
      rw [List.mem_singleton.mp h]
      exact .inl rfl
  | relayData src dst payload =>
      rw [handleMessage, handleRelayData] at h
      split at h
      · next hkeeps =>
          split at h
          · next ipPkt hread =>
              rw [List.mem_singleton.mp h]
              exact .inr ⟨src, dst, payload, rfl, hread, hkeeps⟩
          · cases h
      · split at h
        · cases h
        · split at h <;> cases h
  | ping | pong =>
      rw [handleMessage] at h
      split at h <;> cases h
  | sessionInit overlay overlayIpv6 hostname publicAddr =>
      rw [handleMessage, handleSessionInit] at h
      split at h <;> cases h
  | peerDirectory entries =>
      rw [handleMessage, handlePeerDirectory] at h
      split at h
      · cases h
      · dsimp only at h
        split at h <;> cases h
  | relayRequest dst =>
      rw [handleMessage, handleRelayRequest] at h
      split at h
      · split at h
        · cases h
        · split at h
          · cases h
          · split at h <;> cases h
      · split at h <;> cases h
  | heartbeat | relayAnnounce | relayReady | holePunchProbe | holePunchAck => cases h

/-- The outbound loop sends a packet to the peer that its destination is routed to, or asks for a relay. -/
theorem handleTunPacket_sends {candidate : Option PeerId} (h : s ∈ (e.handleTunPacket candidate packet).sends) :
    s.msg.isControl = true ∨ ∃ peer, e.routingTable.lookup (packetDst packet) = some peer ∧
      (s.peer = peer ∧ s.msg = .data packet ∨
        s.msg = .relayData e.ourPeerId peer (serializeMessage (.data packet))) := by
  unfold handleTunPacket at h
  split at h
  · cases h
  · split at h
    · cases h
    · split at h
      · cases h
      · next peer hroute =>
          unfold routePacket at h
          split at h
          · rw [List.mem_singleton.mp h]
            exact .inr ⟨peer, hroute, .inl ⟨rfl, rfl⟩⟩
          · split at h
            · rw [List.mem_singleton.mp h]
              exact .inr ⟨peer, hroute, .inr rfl⟩
            · unfold requestVia at h
              split at h
              · split at h
                · rw [List.mem_singleton.mp h]
                  exact .inl rfl
                · cases h
              · cases h

end Engine

/-! ### The messages and packets of a step -/

/-- The outbound loop reads packets that fit its buffer, and the periodic loops send no packets. -/
def LoopAction.Ordinary : LoopAction S → Prop
  | .tunPacket _ packet => packet.length ≤ overlayMtu + 100
  | .task (.broadcast sends) => ∀ s ∈ sends, s.msg.isControl = true
  | _ => True

instance : DecidablePred (LoopAction.Ordinary (S := S))
  | .tunPacket _ packet => inferInstanceAs (Decidable (packet.length ≤ overlayMtu + 100))
  | .task (.broadcast sends) => inferInstanceAs (Decidable (∀ s ∈ sends, s.msg.isControl = true))
  | .task (.receive _) | .task .inbound | .task (.attempt ..) | .task (.start ..) | .task (.timeout _)
  | .task (.discover _) | .task .discovery | .task (.removed _) | .task .removal | .healthcheck .. | .relayFlag _
  | .stunAddr _ => isTrue trivial

namespace Node

variable {blake3 : Blake3} {n : Node S} {a : LoopAction S} {s : Send} {packet : Bytes}

/-- The messages that a step may send. -/
inductive Emits (n : Node S) (a : LoopAction S) (s : Send) : Prop
  | control (h : s.msg.isControl = true)
  | greeting (h : s.msg = n.engine.sessionInit)
  | forwarded (sender src dst : PeerId) (payload : Bytes) (h : (sender, .relayData src dst payload) ∈ n.decrypts a)
      (hmsg : s.msg = .relayData src dst payload)
  | routed (candidate : Option PeerId) (packet : Bytes) (ha : a = .tunPacket candidate packet)
      (hroute : n.engine.routingTable.lookup (Engine.packetDst packet) = some s.peer) (hmsg : s.msg = .data packet)
  | relayed (candidate : Option PeerId) (packet : Bytes) (dst : PeerId) (ha : a = .tunPacket candidate packet)
      (hroute : n.engine.routingTable.lookup (Engine.packetDst packet) = some dst)
      (hmsg : s.msg = relayed n.engine.ourPeerId dst packet)

/-- The packets that a step may write to the TUN device. -/
inductive Writes (n : Node S) (a : LoopAction S) (packet : Bytes) : Prop
  | own (candidate : Option PeerId) (ha : a = .tunPacket candidate packet)
      (hown : Engine.packetDst packet = n.engine.siOverlay.ip)
  | data (sender : PeerId) (h : (sender, .data packet) ∈ n.decrypts a)
  | kept (sender src dst : PeerId) (payload : Bytes) (h : (sender, .relayData src dst payload) ∈ n.decrypts a)
      (hread : deserializeMessage payload = .ok (.data packet)) (hkeeps : n.engine.Keeps dst)

theorem decrypts_of_opens {arrival : Arrival S} {m : Node S} {msg : Message}
    (h : n.opens arrival = some (m, msg)) : ∃ sender, n.decrypts (.task (.receive arrival)) = [(sender, msg)] := by
  obtain ⟨sender, -, -, -, hfrom, -⟩ := read_of_opens h
  refine ⟨sender, ?_⟩
  rw [decrypts, hfrom, messageIn, h]
  rfl

theorem emits_of_completion {c : Completion S} (h : s ∈ c.sends n.engine) : n.Emits a s := by
  unfold Completion.sends at h
  split at h
  · rw [List.mem_singleton.mp h]
    exact .greeting rfl
  · unfold Engine.announce at h
    split at h
    · rw [List.mem_singleton.mp h]
      exact .control rfl
    · cases h
  · unfold Engine.initiatorDirectories at h
    split at h
    · exact .control ((List.mem_append.mp h).elim Engine.control_tellPeer Engine.control_tellOthers)
    · cases h
  · cases h

theorem emits_of_completes {who : Option ℕ} (h : s ∈ (n.completes who).sends) : n.Emits a s := by
  unfold completes at h
  dsimp only at h
  split at h
  · exact emits_of_completion h
  · cases h

theorem control_requestsRelay {id : ℕ} (h : s ∈ n.requestsRelay id) : s.msg.isControl = true := by
  unfold requestsRelay at h
  split at h
  · split at h
    · unfold Engine.timeoutRequests at h
      split at h
      · cases h
      · obtain ⟨relayId, -, rfl⟩ := List.mem_map.mp h
        rfl
    · cases h
  · cases h

/-- The messages of a response, by the place that sends them. -/
theorem emits_of_response (hord : a.Ordinary) (h : s ∈ (n.response blake3 a).sends) : n.Emits a s := by
  cases a with
  | tunPacket candidate packet =>
      rcases Engine.handleTunPacket_sends h with hcontrol | ⟨peer, hroute, ⟨rfl, hmsg⟩ | hmsg⟩
      · exact .control hcontrol
      · exact .routed candidate packet rfl hroute hmsg
      · exact .relayed candidate packet peer rfl hroute hmsg
  | healthcheck nowMs peerId =>
      simp only [response, Engine.healthcheck] at h
      split at h
      · rw [List.mem_singleton.mp h]
        exact .control rfl
      · cases h
  | relayFlag | stunAddr => cases h
  | task a =>
      cases a with
      | receive arrival =>
          simp only [response] at h
          cases ho : n.opens arrival with
          | none =>
              rw [reaction, ho] at h
              cases h
          | some r =>
              obtain ⟨m, msg⟩ := r
              obtain ⟨sender, hmem⟩ := decrypts_of_opens ho
              rw [reaction, ho] at h
              rcases Engine.handleMessage_sends h with hcontrol | ⟨src, dst, payload, rfl, hmsg⟩
              · exact .control hcontrol
              · exact .forwarded sender src dst payload (hmem ▸ List.mem_singleton_self _) hmsg
      | inbound => exact emits_of_completes h
      | attempt id sent token =>
          rcases List.mem_append.mp h with h | h
          · exact emits_of_completes h
          · exact .control (control_requestsRelay h)
      | broadcast sends => exact .control (hord s h)
      | start | timeout | discover | discovery | removed | removal => cases h

/-- The packets of a response, by the place that writes them. -/
theorem writes_of_response (h : packet ∈ (n.response blake3 a).tun) : n.Writes a packet := by
  cases a with
  | tunPacket candidate packet' =>
      rw [response, Engine.handleTunPacket] at h
      split at h
      · cases h
      · split at h
        · next hown =>
            obtain rfl := List.mem_singleton.mp h
            exact .own candidate rfl hown
        · split at h
          · cases h
          · unfold Engine.routePacket at h
            split at h
            · cases h
            · split at h <;> cases h
  | healthcheck nowMs peerId =>
      simp only [response, Engine.healthcheck] at h
      split at h <;> cases h
  | relayFlag | stunAddr => cases h
  | task a =>
      cases a with
      | receive arrival =>
          simp only [response] at h
          cases ho : n.opens arrival with
          | none =>
              rw [reaction, ho] at h
              cases h
          | some r =>
              obtain ⟨m, msg⟩ := r
              obtain ⟨sender, hmem⟩ := decrypts_of_opens ho
              have hsame := (step_of_opens blake3 ho).2
              rw [reaction, ho] at h
              rcases Engine.handleMessage_tun h with rfl | ⟨src, dst, payload, rfl, hread, hkeeps⟩
              · exact .data sender (hmem ▸ List.mem_singleton_self _)
              · refine .kept sender src dst payload (hmem ▸ List.mem_singleton_self _) hread ?_
                rwa [Engine.Keeps, hsame.ourPeerId, hsame.mem, hsame.canRelayFlag] at hkeeps
      | _ => cases h

end Node

/-! ### What is read of a message -/

namespace Message

/-- The position of the variant in the enum. -/
def variant : Message → UInt32
  | .data _ => 0
  | .heartbeat => 1
  | .ping _ => 2
  | .pong _ => 3
  | .sessionInit .. => 4
  | .holePunchProbe _ => 5
  | .holePunchAck _ => 6
  | .relayRequest _ => 7
  | .relayReady .. => 8
  | .relayData .. => 9
  | .relayAnnounce .. => 10
  | .peerDirectory _ => 11

theorem serialize_variant (msg : Message) :
    ∃ fields, serializeMessage msg = Postcard.u32.encode msg.variant ++ fields := by
  cases msg with
  | heartbeat => exact ⟨[], (List.append_nil _).symm⟩
  | _ => exact ⟨_, rfl⟩

theorem variant_of_decodeFields {tag : UInt32} {bs rest : Bytes} {msg : Message}
    (h : decodeFields tag bs = .ok (msg, rest)) : msg.variant = tag := by
  have htag : ∀ k : UInt32, tag.toNat = k.toNat → k = tag := fun k hk => (UInt32.toNat_inj.mp hk).symm
  unfold decodeFields at h
  split at h
  case h_13 => cases h
  case h_2 hk =>
      cases h
      exact htag 1 hk
  all_goals
    obtain ⟨r, -, hr⟩ := map_eq_ok h
    cases hr
    exact htag _ (by assumption)

theorem decodeFields_of_read {tag : UInt32} {fields : Bytes} {msg : Message}
    (h : deserializeMessage (Postcard.u32.encode tag ++ fields) = .ok msg) :
    ∃ rest, decodeFields tag fields = .ok (msg, rest) := by
  rw [deserializeMessage] at h
  obtain ⟨⟨tag', fields'⟩, htag, h⟩ := bind_eq_ok h
  cases (Postcard.u32_lossless tag trivial fields).symm.trans htag
  obtain ⟨⟨msg', rest⟩, hdecode, hmsg⟩ := bind_eq_ok h
  cases hmsg
  exact ⟨rest, hdecode⟩

/-- A message is read as one of its own variant. -/
theorem variant_of_read {msg msg' : Message} (h : deserializeMessage (serializeMessage msg) = .ok msg') :
    msg'.variant = msg.variant := by
  obtain ⟨fields, hfields⟩ := msg.serialize_variant
  rw [hfields] at h
  obtain ⟨rest, hdecode⟩ := decodeFields_of_read h
  exact variant_of_decodeFields hdecode

theorem read_of_encodable {msg msg' : Message} (henc : msg.Encodable)
    (h : deserializeMessage (serializeMessage msg) = .ok msg') : msg' = msg := by
  have hsame := deserialize_serialize msg henc []
  rw [List.append_nil, h] at hsame
  exact Except.ok.inj hsame

/-- `P` holds of the packets that the message for `peer` delivers, and of the peers they are for. -/
def Carries (P : PeerId → Bytes → Prop) (peer : PeerId) : Message → Prop
  | .data packet => packet.length < 2 ^ 64 ∧ P peer packet
  | .relayData _ dst payload =>
    payload.length < 2 ^ 64 ∧ ∀ packet, deserializeMessage payload = .ok (.data packet) → P dst packet
  | _ => True

variable {P Q : PeerId → Bytes → Prop} {blake3 : Blake3} {peer : PeerId} {msg msg' : Message}

theorem Carries.mono (h : msg.Carries P peer) (hPQ : ∀ p packet, P p packet → Q p packet) : msg.Carries Q peer := by
  cases msg with
  | data packet => exact ⟨h.1, hPQ _ _ h.2⟩
  | relayData src dst payload => exact ⟨h.1, fun packet hread => hPQ _ _ (h.2 packet hread)⟩
  | _ => trivial

/-- The receiver of a message reads the packet that it carries. -/
theorem Carries.read (h : msg.Carries P peer) (hread : deserializeMessage (serializeMessage msg) = .ok msg') :
    msg'.Carries P peer := by
  have hvariant := variant_of_read hread
  cases msg with
  | data packet =>
      rw [read_of_encodable (show (Message.data packet).Encodable from h.1) hread]
      exact h
  | relayData src dst payload =>
      rw [read_of_encodable (show (Message.relayData src dst payload).Encodable from h.1) hread]
      exact h
  | _ =>
      cases msg' with
      | data | relayData => exact absurd hvariant (by simp [variant])
      | _ => trivial

theorem carries_of_control (h : msg.isControl = true) : msg.Carries P peer := by
  cases msg with
  | data | relayData => cases h
  | _ => trivial

end Message

namespace Node

variable {blake3 : Blake3} {n : Node S} {a : LoopAction S} {s : Send} {packet : Bytes} {P : PeerId → Bytes → Prop}

/-- What holds of the packets that are read and heard holds of the packets that are sent. -/
theorem Emits.carries (h : n.Emits a s) (hord : a.Ordinary)
    (hroute : ∀ candidate packet peer, a = .tunPacket candidate packet →
      n.engine.routingTable.lookup (Engine.packetDst packet) = some peer → P peer packet)
    (hheard : ∀ r ∈ n.decrypts a, r.2.Carries P n.engine.ourPeerId) : s.msg.Carries P s.peer := by
  cases h with
  | control h => exact Message.carries_of_control h
  | greeting h =>
      rw [h]
      trivial
  | forwarded sender src dst payload h hmsg =>
      rw [hmsg]
      exact hheard _ h
  | routed candidate packet ha hlookup hmsg =>
      subst ha
      rw [hmsg]
      have hlen : packet.length ≤ overlayMtu + 100 := hord
      simp only [overlayMtu] at hlen
      exact ⟨by omega, hroute candidate packet s.peer rfl hlookup⟩
  | relayed candidate packet dst ha hlookup hmsg =>
      subst ha
      have hlen : packet.length ≤ overlayMtu + 100 := hord
      rw [hmsg]
      have hencodable : (SeedNet.relayed n.engine.ourPeerId dst packet).Encodable := relayed_encodable hlen
      refine ⟨hencodable, fun packet' hread => ?_⟩
      cases (deserialize_packet hlen).symm.trans hread
      exact hroute candidate packet dst rfl hlookup

/-- A packet that is written was read, or heard for a peer. -/
theorem Writes.cases (h : n.Writes a packet) (hheard : ∀ r ∈ n.decrypts a, r.2.Carries P n.engine.ourPeerId) :
    (∃ candidate, a = .tunPacket candidate packet ∧ Engine.packetDst packet = n.engine.siOverlay.ip) ∨
      P n.engine.ourPeerId packet ∨
      ∃ sender src dst payload, (sender, .relayData src dst payload) ∈ n.decrypts a ∧ n.engine.Keeps dst ∧
        deserializeMessage payload = .ok (.data packet) ∧ P dst packet := by
  cases h with
  | own candidate ha hown => exact .inl ⟨candidate, ha, hown⟩
  | data sender h => exact .inr (.inl (hheard _ h).2)
  | kept sender src dst payload h hread hkeeps =>
      exact .inr (.inr ⟨sender, src, dst, payload, h, hkeeps, hread, (hheard _ h).2 packet hread⟩)

end Node

/-! ### Where packets come from -/

namespace OpenNetwork

variable {ι : Type} [DecidableEq ι] {blake3 : Blake3} {w : OpenNetwork ι S} {publicKey : Bytes32 → Bytes32}
  {networkSecret : Bytes32} {P Q : PeerId → Bytes → Prop}

/-- The packet has been read from the TUN device of a node. -/
def Read (w : OpenNetwork ι S) (packet : Bytes) : Prop := ∃ x, (x, packet) ∈ w.tunRead

/-- Every message that was sent carries only packets with the property `P`. -/
def Carries (w : OpenNetwork ι S) (networkSecret : Bytes32) (P : PeerId → Bytes → Prop) : Prop :=
  w.SendsOnly networkSecret fun _ peer msg => msg.Carries P peer

omit [DecidableEq ι] in
theorem Traced.heard_carries (laws : S.Bound publicKey networkSecret) (h : w.Traced publicKey networkSecret)
    (hcarries : w.Carries networkSecret P) {step : ι × LoopAction S} (hok : w.Unforged step) :
    ∀ r ∈ (w.node step.1).decrypts step.2, r.2.Carries P (w.peerId step.1) := by
  intro r hr
  obtain ⟨p, -, -, plain, -, hread, hP⟩ := h.heard laws hcarries hok hr
  exact hP.read hread

/-- Packets that are read with the property `Q` spread it to all packets on the way. -/
theorem Traced.carries_next (laws : S.Bound publicKey networkSecret) (h : w.Traced publicKey networkSecret)
    (hcarries : w.Carries networkSecret P) {step : ι × LoopAction S} (hok : w.Unforged step) (hord : step.2.Ordinary)
    (hPQ : ∀ p packet, P p packet → Q p packet)
    (hroute : ∀ candidate packet peer, step.2 = .tunPacket candidate packet →
      (w.node step.1).engine.routingTable.lookup (Engine.packetDst packet) = some peer → Q peer packet) :
    (w.next blake3 step).Carries networkSecret Q :=
  h.sendsOnly_next hcarries (fun _ _ _ hP => hP.mono hPQ) fun _ hs =>
    (Node.emits_of_response hord hs).carries hord hroute fun r hr => (h.heard_carries laws hcarries hok r hr).mono hPQ

theorem Read.next {packet : Bytes} (h : w.Read packet) (step : ι × LoopAction S) :
    (w.next blake3 step).Read packet := by
  obtain ⟨x, hx⟩ := h
  exact ⟨x, List.mem_append_left _ hx⟩

theorem read_of_tunPacket {x : ι} (candidate : Option PeerId) (packet : Bytes) :
    (w.next blake3 (x, .tunPacket candidate packet)).Read packet :=
  ⟨x, List.mem_append_right _ (List.mem_map_of_mem (List.mem_singleton_self packet))⟩

/-- A packet that a step writes is one of its response. -/
theorem mem_tunWritten {step : ι × LoopAction S} {p : ι × Bytes} (h : p ∈ (w.next blake3 step).tunWritten) :
    p ∈ w.tunWritten ∨ p.1 = step.1 ∧ (w.node step.1).Writes step.2 p.2 := by
  rcases List.mem_append.mp h with h | h
  · exact .inl h
  · obtain ⟨packet, hpacket, rfl⟩ := List.mem_map.mp h
    rw [Node.tun_of_response] at hpacket
    exact .inr ⟨rfl, Node.writes_of_response hpacket⟩

/-- **Packets come from TUN devices.**  Whatever arrives from the network, a packet that a node writes to its TUN device
was read, exactly as it is, from the TUN device of some node. -/
theorem packets_come_from_devices (blake3 : Blake3) (laws : S.Bound publicKey networkSecret)
    (h : w.Started publicKey networkSecret) {steps : List (ι × LoopAction S)}
    (hok : Along (next blake3) (fun w step => w.Unforged step ∧ step.2.Ordinary) w steps) :
    ∀ p ∈ (exec (next blake3) w steps).tunWritten, (exec (next blake3) w steps).Read p.2 := by
  have hstart : w.Traced publicKey networkSecret ∧ w.Carries networkSecret (fun _ => w.Read) ∧
      ∀ p ∈ w.tunWritten, w.Read p.2 := ⟨h.traced, h.sendsOnly _, fun p hp => absurd (h.tunWritten ▸ hp) List.not_mem_nil⟩
  refine (hok.invariant (I := fun w => w.Traced publicKey networkSecret ∧ w.Carries networkSecret (fun _ => w.Read) ∧
    ∀ p ∈ w.tunWritten, w.Read p.2) ?_ hstart).2.2
  rintro w ⟨x, a⟩ ⟨htraced, hcarries, hwritten⟩ ⟨hunforged, hord⟩
  refine ⟨htraced.next _, ?_, fun p hp => ?_⟩
  · refine htraced.carries_next laws hcarries hunforged hord (fun _ _ hread => hread.next _) ?_
    rintro candidate packet peer rfl -
    exact read_of_tunPacket candidate packet
  · rcases mem_tunWritten hp with hp | ⟨-, hwrites⟩
    · exact (hwritten p hp).next _
    · rcases hwrites.cases (htraced.heard_carries laws hcarries hunforged) with
        ⟨candidate, rfl, -⟩ | hread | ⟨-, -, -, -, -, -, -, hread⟩
      · exact read_of_tunPacket candidate p.2
      · exact hread.next _
      · exact hread.next _

end OpenNetwork

namespace Transparent

/-- A packet for the overlay address of node 2. -/
def toSecond : Bytes :=
  [69, 0, 0, 20] ++ List.replicate 8 0 ++ [10, 88, 2, 1] ++ (deriveOverlayAddr blake3 (.replicate 2)).ip.octets

/-- Node 1 shakes hands with node 2 and sends it a packet, which the network delivers twice. -/
def openDelivery : List (Bool × LoopAction named) :=
  openHandshake ++ (false, .tunPacket none toSecond) :: List.replicate 2 (firstToSecond 1 (.data toSecond))

end Transparent

open Transparent in
theorem packets_come_from_first_device :
    (exec (OpenNetwork.next blake3) openNetwork openDelivery).tunWritten = [(true, toSecond)] ∧
      ∀ p ∈ (exec (OpenNetwork.next blake3) openNetwork openDelivery).tunWritten,
        (exec (OpenNetwork.next blake3) openNetwork openDelivery).Read p.2 :=
  ⟨by decide +kernel,
    OpenNetwork.packets_come_from_devices blake3 (bound_named secret) openNetwork_started (by decide +kernel)⟩

end SeedNet
