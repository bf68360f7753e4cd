import SeedNet.LiveRecords
import SeedNet.OpenPackets

/-! # Where nodes send to

`Node.Reaches` lists the addresses that a step may send a datagram to, and `Node.told` the addresses that a step tells
a node: the source of a datagram, the addresses in the message that it carries, and the address that a handshake is
started at.

* `sends_only_to_known`: a node sends to no address that it has not been told before, apart from the queries that its
  STUN loop sends to the servers it knows from the start: the steps of that loop send nothing here.
* `stream_transports_unused`: on a network of nodes, nothing is ever sent over another transport than UDP: handshakes
  are started over UDP only, and everything else is an answer. -/

namespace SeedNet

open Run (exec Along)

variable {S : Snow}

/-! ### Public addresses -/

/-- The addresses that a message tells. -/
def Message.addresses : Message → List SocketAddr
  | .sessionInit _ _ _ publicAddr => publicAddr.toList
  | .peerDirectory entries => entries.map fun entry => entry.2.1
  | _ => []

namespace PeerManager

variable {K : SocketAddr → Prop} {m : PeerManager} {q : PeerId}

/-- `K` holds of the public addresses in the records. -/
def Publishes (K : SocketAddr → Prop) (m : PeerManager) : Prop :=
  ∀ p peer a, m.get p = some peer → peer.publicAddr = some a → K a

theorem Publishes.update {f : Peer → Peer} (h : m.Publishes K)
    (hf : ∀ peer a, m.get q = some peer → (f peer).publicAddr = some a → K a) : (m.update q f).Publishes K := by
  intro p peer a hpeer ha
  rw [get_update] at hpeer
  split at hpeer
  · obtain ⟨old, hold, rfl⟩ := Option.map_eq_some_iff.mp hpeer
    exact hf old a hold ha
  · exact h p peer a hpeer ha

theorem Publishes.discover (h : m.Publishes K) (underlay : SocketAddr) : (m.discover q underlay).Publishes K := by
  unfold PeerManager.discover
  split
  · exact h.update fun peer a hpeer ha => h q peer a hpeer ha
  · intro p peer a hpeer ha
    have hlookup := Map.lookup_insert m.peers q p { Peer.newWithUnderlay q underlay with state := .discovering }
    replace hpeer := hlookup.symm.trans hpeer
    split at hpeer
    · cases hpeer
      cases ha
    · exact h p peer a hpeer ha

theorem Publishes.transitionPeer (h : m.Publishes K) (next : PeerState) :
    (m.transitionPeer q next).2.Publishes K := by
  unfold PeerManager.transitionPeer
  split
  · exact h
  · next peer hpeer =>
      unfold Peer.transition PeerState.transition
      cases hcan : peer.state.canTransitionTo next with
      | false => exact h
      | true => exact Publishes.update (f := fun _ => { peer with state := next }) h fun _ a _ ha => h q peer a hpeer ha

theorem Publishes.register (h : m.Publishes K) (underlay : SocketAddr) : (m.register q underlay).Publishes K :=
  (((h.discover underlay).transitionPeer _).transitionPeer _).transitionPeer _

end PeerManager

namespace Update

variable {blake3 : Blake3} {e : Engine (SecureTransport S)} {K : SocketAddr → Prop}

/-- The addresses that an update tells. -/
def addresses : Update S → List SocketAddr
  | .message _ _ msg => msg.addresses
  | _ => []

/-- The public addresses that are recorded are those that messages tell. -/
theorem publishes {u : Update S} (h : e.peerMgr.Publishes K) (hu : ∀ a ∈ u.addresses, K a) :
    (u.apply blake3 e).peerMgr.Publishes K := by
  cases u with
  | message nowMs fromAddr msg =>
      rw [apply, Engine.handleMessage.eq_def]
      cases msg with
      | pong sentMs =>
          dsimp only
          split
          · exact h.update fun peer a hpeer ha => h _ peer a hpeer ha
          · exact h
      | ping =>
          dsimp only
          split <;> exact h
      | sessionInit overlay overlayIpv6 hostname publicAddr =>
          dsimp only
          rw [Engine.handleSessionInit_engine]
          split
          · refine PeerManager.Publishes.update h fun peer a hpeer ha => ?_
            cases publicAddr with
            | none => exact h _ peer a hpeer ha
            | some addr =>
                cases ha
                exact hu a (List.mem_singleton_self a)
          · exact h
      | peerDirectory entries =>
          have hnote : ∀ e : Engine (SecureTransport S), ∀ entry ∈ entries, e.peerMgr.Publishes K →
              (e.notePeer entry.1 entry.2.1).peerMgr.Publishes K := fun e entry hentry he =>
            PeerManager.Publishes.update (he.discover _) fun peer a _ ha => by
              cases ha
              exact hu _ (List.mem_map_of_mem hentry)
          exact Engine.handlePeerDirectory_induction (P := fun e' => e'.peerMgr.Publishes K)
            (fun e entry hentry he _ => hnote e entry hentry he)
            (fun _ _ e entry hentry he _ _ _ => hnote e entry hentry he) h
      | relayRequest dst =>
          dsimp only
          rcases e.handleRelayRequest_engine blake3 fromAddr dst with ⟨rid, -, -, heng⟩ | ⟨-, heng⟩ <;> rw [heng] <;> exact h
      | relayReady relayId dst hops => exact PeerManager.Publishes.register h Engine.fakeAddr
      | relayData src dst payload =>
          dsimp only
          rw [Engine.handleRelayData_engine]
          exact h
      | heartbeat | data | relayAnnounce | holePunchProbe | holePunchAck => exact h
  | complete c =>
      rw [apply, Completion.run]
      cases c.stage with
      | register => exact PeerManager.Publishes.register h c.underlay.socketAddr
      | session | addrIndex | route | relayPath => exact h
      | sessionInit | announce | directories =>
          dsimp only
          rw [(Engine.sameTables_transmit _ e).peerMgr]
          exact h
  | tunPacket candidate packet =>
      obtain ⟨t, heng⟩ := e.handleTunPacket_routes candidate packet
      rw [apply, heng]
      exact h
  | healthcheck nowMs peerId =>
      rw [apply, Engine.healthcheck]
      split
      · exact PeerManager.Publishes.update h fun peer a hpeer ha => h _ peer a hpeer ha
      · exact h
  | none | removeSession | removeAddrIndex | relayFlag | stunAddr => exact h

end Update

/-! ### The destinations of a step -/

namespace Engine

variable {e : Engine (SecureTransport S)}

theorem dst_of_mem_transmitOne {s : Send} {d : Datagram S} (h : d ∈ (e.transmitOne s).2) :
    s.addr = some d.dst ∨ ∃ session, e.sessions.lookup s.peer = some session ∧ session.underlay = d.dst := by
  unfold transmitOne at h
  cases hl : e.sessions.lookup s.peer with
  | none =>
      rw [hl] at h
      cases h
  | some session =>
      rw [hl] at h
      dsimp only at h
      split at h
      · obtain rfl := List.mem_singleton.mp h
        cases s.addr with
        | some addr => exact .inl rfl
        | none => exact .inr ⟨session, rfl, rfl⟩
      · cases h

/-- A message goes to the address given for it, or to the one of its session. -/
theorem dst_of_mem_transmit {sends : List Send} {d : Datagram S} (h : d ∈ (e.transmit sends).2) :
    ∃ s ∈ sends, s.addr = some d.dst ∨
      ∃ session, e.sessions.lookup s.peer = some session ∧ session.underlay = d.dst := by
  induction sends generalizing e with
  | nil => cases h
  | cons s sends ih =>
      rcases List.mem_append.mp h with h | h
      · exact ⟨s, List.mem_cons_self, dst_of_mem_transmitOne h⟩
      · obtain ⟨s', hs', haddr | ⟨session, hl, hunderlay⟩⟩ := ih h
        · exact ⟨s', List.mem_cons_of_mem s hs', .inl haddr⟩
        · have hsame := (sameSessions_transmitOne (e := e) s).underlay s'.peer
          obtain ⟨session', hl', heq⟩ := Option.map_eq_some_iff.mp (hsame.symm.trans (congrArg (Option.map _) hl))
          exact ⟨s', List.mem_cons_of_mem s hs', .inr ⟨session', hl', heq.trans hunderlay⟩⟩

section

variable {τ : Type} {blake3 : Blake3} {e : Engine τ} {s : Send} {nowMs : UInt64} {fromAddr addr : TransportAddr}
  {msg : Message}

theorem addr_tellOthers {skip : PeerId} {entries : List DirectoryEntry} (h : s ∈ e.tellOthers skip entries) :
    s.addr = none := by
  obtain ⟨p, -, rfl⟩ := List.mem_map.mp h
  rfl

theorem addr_tellPeer {peer : PeerId} {entries : List DirectoryEntry} {dst : Option TransportAddr}
    (h : s ∈ tellPeer peer entries dst) : s.addr = dst := by
  unfold tellPeer at h
  split at h
  · cases h
  · rw [List.mem_singleton.mp h]

theorem addr_introduce {peer : PeerId} (h : s ∈ e.introduce peer fromAddr) : s.addr = none := by
  unfold introduce at h
  split at h
  · split at h
    · exact (List.mem_append.mp h).elim addr_tellPeer addr_tellOthers
    · cases h
  · cases h

theorem addr_directoryEntry (rid : PeerId) (entry : DirectoryEntry) :
    ∀ s ∈ (e.directoryEntry blake3 rid entry).2, s.addr = none := by
  obtain ⟨pid, pubAddr, hopCount⟩ := entry
  unfold directoryEntry
  dsimp only
  split_ifs <;> simp

theorem addr_directoryEntries {rid : PeerId} {entries : List DirectoryEntry}
    (h : s ∈ (e.directoryEntries blake3 rid entries).2) : s.addr = none := by
  induction entries generalizing e with
  | nil => cases h
  | cons entry entries ih =>
      rcases List.mem_append.mp h with h | h
      · exact addr_directoryEntry rid entry s h
      · exact ih h

theorem addr_handlePeerDirectory {entries : List DirectoryEntry}
    (h : s ∈ (e.handlePeerDirectory blake3 fromAddr entries).sends) : s.addr = none := by
  unfold handlePeerDirectory at h
  split at h
  · cases h
  · dsimp only at h
    split at h
    · exact (List.mem_append.mp h).elim addr_directoryEntries addr_tellOthers
    · exact addr_directoryEntries h

/-- Only a `Pong` is sent to an address of its own: the one that the `Ping` came from. -/
theorem handleMessage_addr (h : s ∈ (e.handleMessage blake3 nowMs fromAddr msg).sends) (ha : s.addr = some addr) :
    addr = fromAddr := by
  have hnone : s.addr = none → addr = fromAddr := fun hn => by
    rw [hn] at ha
    cases ha
  cases msg with
  | ping sentMs =>
      rw [handleMessage] at h
      split at h
      · rw [List.mem_singleton.mp h] at ha
        exact (Option.some.inj ha).symm
      · cases h
  | pong sentMs =>
      rw [handleMessage] at h
      split at h <;> cases h
  | sessionInit overlay overlayIpv6 hostname publicAddr =>
      rw [handleMessage, handleSessionInit] at h
      split at h
      · cases h
      · exact hnone (addr_introduce h)
  | peerDirectory entries => exact hnone (addr_handlePeerDirectory h)
  | relayRequest dst =>
      refine hnone ?_
      rw [handleMessage, handleRelayRequest] at h
      split at h
      · split at h
        · cases h
        · split at h
          · simp only [List.mem_cons, List.not_mem_nil, or_false] at h
            rcases h with rfl | rfl <;> rfl
          · split at h
            · cases h
            · simp only [List.mem_cons, List.not_mem_nil, or_false] at h
              rcases h with rfl | rfl <;> rfl
      · split at h <;> cases h
  | relayData src dst payload =>
      refine hnone ?_
      rw [handleMessage, handleRelayData] at h
      split at h
      · split at h <;> cases h
      · split at h
        · rw [List.mem_singleton.mp h]
        · split at h
          · rw [List.mem_singleton.mp h]
          · cases h
  | data | heartbeat | relayAnnounce | relayReady | holePunchProbe | holePunchAck => cases h

end

end Engine

/-! ### What a step reaches -/

/-- The address of a completed handshake stays, and only an initiator gets to the directories. -/
theorem Completion.placed_of_next {c d : Completion S} (h : c.next = some d) :
    d.underlay = c.underlay ∧ d.initiator = c.initiator ∧ (d.stage = .directories → c.initiator = true) := by
  unfold Completion.next at h
  cases hs : c.stage with
  | register =>
      rw [hs] at h
      cases h
  | announce =>
      rw [hs] at h
      cases h
      refine ⟨rfl, rfl, fun hd => ?_⟩
      dsimp only at hd
      split at hd
      · assumption
      · cases hd
  | relayPath | session | addrIndex | route | sessionInit | directories =>
      rw [hs] at h
      cases h
      exact ⟨rfl, rfl, fun hd => by cases hd⟩

/-- The periodic loops send over sessions. -/
def LoopAction.OverSessions : LoopAction S → Prop
  | .task (.broadcast sends) => ∀ s ∈ sends, s.addr = none
  | _ => True

instance : DecidablePred (LoopAction.OverSessions (S := S))
  | .task (.broadcast sends) => inferInstanceAs (Decidable (∀ s ∈ sends, s.addr = none))
  | .task (.receive _) | .task .inbound | .task (.attempt ..) | .task (.start ..) | .task (.timeout _)
  | .task (.discover _) | .task .discovery | .task (.removed _) | .task .removal | .tunPacket .. | .healthcheck ..
  | .relayFlag _ | .stunAddr _ => isTrue trivial

/-- The source of the datagram that a step receives. -/
def LoopAction.source : LoopAction S → Option TransportAddr
  | .task (.receive arrival) => some arrival.fromAddr
  | _ => none

namespace Node

variable {blake3 : Blake3} {n : Node S} {a : LoopAction S}

/-- The addresses that a step may send to. -/
inductive Reaches (n : Node S) (a : LoopAction S) : TransportAddr → Prop
  | source (arrival : Arrival S) (ha : a = .task (.receive arrival)) : Reaches n a arrival.fromAddr
  | session (p : PeerId) (session : PeerSession (SecureTransport S))
      (h : n.engine.sessions.lookup p = some session) : Reaches n a session.underlay
  | completion (who : Option ℕ) (c : Completion S) (h : n.completion who = some c) : Reaches n a c.underlay
  | directories (who : Option ℕ) (c : Completion S) (h : n.completion who = some c) (hstage : c.stage = .directories) :
      Reaches n a (.udp c.underlay.socketAddr)
  | attempt (id : ℕ) (attempt : Attempt S) (h : n.attempts.lookup id = some attempt) : Reaches n a (.udp attempt.addr)
  | publicAddr (p : PeerId) (peer : Peer) (addr : SocketAddr) (h : n.engine.peerMgr.get p = some peer)
      (haddr : peer.publicAddr = some addr) : Reaches n a (.udp addr)

theorem Reaches.of_transmit {e : Engine (SecureTransport S)} {sends : List Send} {d : Datagram S}
    (hsame : n.engine.SameSessions e) (haddr : ∀ s ∈ sends, ∀ addr, s.addr = some addr → n.Reaches a addr)
    (h : d ∈ (e.transmit sends).2) : n.Reaches a d.dst := by
  obtain ⟨s, hs, ha | ⟨session, hl, hunderlay⟩⟩ := Engine.dst_of_mem_transmit h
  · exact haddr s hs d.dst ha
  · have heq := (hsame.underlay s.peer).symm.trans (congrArg (Option.map PeerSession.underlay) hl)
    obtain ⟨old, hold, hsame⟩ := Option.map_eq_some_iff.mp heq
    rw [← hunderlay, ← hsame]
    exact .session s.peer old hold

/-- What a completed handshake sends goes to its address. -/
theorem reaches_of_completion {who : Option ℕ} {c : Completion S} {s : Send} {addr : TransportAddr}
    (hc : n.completion who = some c) (h : s ∈ c.sends n.engine) (ha : s.addr = some addr) : n.Reaches a addr := by
  have hself (haddr : s.addr = some c.underlay) : n.Reaches a addr := by
    rw [← Option.some.inj (haddr.symm.trans ha)]
    exact .completion who c hc
  unfold Completion.sends at h
  split at h
  · exact hself (by rw [List.mem_singleton.mp h])
  · unfold Engine.announce at h
    split at h
    · exact hself (by rw [List.mem_singleton.mp h])
    · cases h
  · next hstage =>
      unfold Engine.initiatorDirectories at h
      split at h
      · rcases List.mem_append.mp h with h | h
        · rw [Engine.addr_tellPeer h] at ha
          cases ha
          exact .directories who c hc hstage
        · rw [Engine.addr_tellOthers h] at ha
          cases ha
      · cases h
  · cases h

theorem reaches_of_completes {who : Option ℕ} {s : Send} {addr : TransportAddr}
    (h : s ∈ (n.completes who).sends) (ha : s.addr = some addr) : n.Reaches a addr := by
  unfold completes at h
  dsimp only at h
  split at h
  · next c hc => exact reaches_of_completion hc h ha
  · cases h

/-- The addresses that messages are sent to. -/
theorem reaches_of_response (hover : a.OverSessions) {s : Send} {addr : TransportAddr}
    (h : s ∈ (n.response blake3 a).sends) (ha : s.addr = some addr) : n.Reaches a addr := by
  have hnone (hn : s.addr = none) : n.Reaches a addr := by
    rw [hn] at ha
    cases ha
  cases a with
  | tunPacket candidate packet =>
      refine hnone ?_
      simp only [response, Engine.handleTunPacket] at h
      split at h
      · cases h
      · split at h
        · cases h
        · split at h
          · cases h
          · unfold Engine.routePacket at h
            split at h
            · rw [List.mem_singleton.mp h]
            · split at h
              · rw [List.mem_singleton.mp h]
              · unfold Engine.requestVia at h
                split at h
                · split at h
                  · rw [List.mem_singleton.mp h]
                  · cases h
                · cases h
  | healthcheck nowMs peerId =>
      refine hnone ?_
      simp only [response, Engine.healthcheck] at h
      split at h
      · rw [List.mem_singleton.mp h]
      · cases h
  | relayFlag | stunAddr => cases h
  | task a =>
      cases a with
      | receive arrival =>
          simp only [response] at h
          cases ho : n.opens arrival with
          | none =>
              rw [reaction, ho] at h
              cases h
          | some r =>
              rw [reaction, ho] at h
              rw [Engine.handleMessage_addr h ha]
              exact .source arrival rfl
      | inbound => exact reaches_of_completes h ha
      | attempt id sent token =>
          rcases List.mem_append.mp h with h | h
          · exact reaches_of_completes h ha
          · refine hnone ?_
            unfold requestsRelay at h
            split at h
            · split at h
              · unfold Engine.timeoutRequests at h
                split at h
                · cases h
                · obtain ⟨relayId, -, rfl⟩ := List.mem_map.mp h
                  rfl
              · cases h
            · cases h
      | broadcast sends => exact hnone (hover s h)
      | start | timeout | discover | discovery | removed | removal => cases h

/-- The inbound loop answers to where a datagram came from. -/
theorem reaches_of_receive {arrival : Arrival S} {d : Datagram S} (h : d ∈ (n.receive blake3 arrival).out) :
    d.origin.isEncrypted = true ∨ d.dst = arrival.fromAddr := by
  unfold receive at h
  dsimp only at h
  split at h
  · unfold onHolePunch at h
    split at h
    · simp only [List.mem_cons, List.not_mem_nil, or_false] at h
      rcases h with rfl | rfl <;> exact .inr rfl
    · cases h
  · split at h
    · cases h
    · split at h
      · unfold onMessageC at h
        dsimp only at h
        split at h <;> cases h
      · split at h
        · obtain ⟨ts, nonce, msg, ho, -⟩ := mem_onData h
          rw [ho]
          exact .inl rfl
        · split at h
          · unfold onMessageA at h
            split at h
            · rw [List.mem_singleton.mp h]
              exact .inr rfl
            · cases h
          · cases h

/-- An initiator sends to its address, or to the public address of the peer. -/
theorem reaches_of_attempt {id : ℕ} {sent : Bool} {token : UInt64} {d : Datagram S}
    (h : d ∈ (n.attemptStep blake3 id sent token).out) : d.origin.isEncrypted = true ∨ n.Reaches a d.dst := by
  unfold attemptStep at h
  split at h
  · cases h
  · next attempt hat =>
      split at h
      · split at h
        · rw [List.mem_singleton.mp h]
          exact .inr (.attempt id attempt hat)
        · cases h
      · cases h
      · split at h
        · unfold onMessageB at h
          split at h
          · cases h
          · dsimp only at h
            split at h
            · cases h
            · split at h <;>
              · rw [List.mem_singleton.mp h]
                exact .inr (.attempt id attempt hat)
        · cases h
      · obtain ⟨ts, nonce, msg, ho, -⟩ := Completion.mem_run h
        rw [ho]
        exact .inl rfl
      · cases h
      · obtain ⟨ts, nonce, msg, ho, -⟩ := Engine.mem_transmit h
        rw [ho]
        exact .inl rfl
      · right
        dsimp only at h
        split at h
        · next pubAddr hpunch =>
            rw [List.mem_singleton.mp h]
            unfold punchTarget at hpunch
            split at hpunch
            · cases hpunch
            · split at hpunch
              · cases hpunch
              · next peer hpeer =>
                  split at hpunch
                  · cases hpunch
                  · next addr hpublic =>
                      split at hpunch
                      · cases hpunch
                      · cases hpunch
                        exact .publicAddr _ peer pubAddr hpeer hpublic
        · cases h

/-- What is sent without a session is an answer, or part of a handshake. -/
theorem reaches_of_plain {d : Datagram S} (h : d ∈ (n.loopStep blake3 a).out) (hplain : d.origin.isEncrypted = false) :
    n.Reaches a d.dst := by
  have hno (henc : d.origin.isEncrypted = true) : n.Reaches a d.dst := by
    rw [hplain] at henc
    cases henc
  have htransmit {e : Engine (SecureTransport S)} {sends : List Send} (h : d ∈ (e.transmit sends).2) :
      n.Reaches a d.dst := by
    obtain ⟨ts, nonce, msg, ho, -⟩ := Engine.mem_transmit h
    exact hno (by rw [ho]; rfl)
  cases a with
  | tunPacket | healthcheck => exact htransmit h
  | relayFlag | stunAddr => cases h
  | task a =>
      cases a with
      | receive arrival =>
          unfold loopStep step at h
          dsimp only at h
          split at h
          · rcases reaches_of_receive h with henc | hdst
            · exact hno henc
            · rw [hdst]
              exact .source arrival rfl
          · cases h
      | attempt id sent token => exact (reaches_of_attempt h).elim hno fun h => h
      | inbound =>
          simp only [loopStep, step, inboundStep] at h
          split at h
          · cases h
          · cases h
          · obtain ⟨ts, nonce, msg, ho, -⟩ := Completion.mem_run h
            exact hno (by rw [ho]; rfl)
      | start addr rng =>
          rw [loopStep, step, start_out.1] at h
          cases h
      | timeout id =>
          rw [loopStep, step, timeout_out.1] at h
          cases h
      | broadcast sends => exact htransmit h
      | discover | discovery | removed | removal => cases h

/-- The addresses that a step sends to. -/
theorem reaches_of_out (hover : a.OverSessions) {d : Datagram S} (h : d ∈ (n.loopStep blake3 a).out) :
    n.Reaches a d.dst := by
  cases henc : d.origin.isEncrypted with
  | true =>
      exact .of_transmit (response_sameSessions a) (fun s hs addr ha => reaches_of_response hover hs ha)
        (out_of_response h henc)
  | false => exact reaches_of_plain h henc

/-! ### What a step tells -/

variable (n) in
/-- The addresses that a step tells the node. -/
def told : LoopAction S → List TransportAddr
  | .task (.receive arrival) =>
    arrival.fromAddr :: ((n.messageIn arrival).map fun msg => msg.addresses.map .udp).getD []
  | .task (.start addr _) => [.udp addr]
  | _ => []

/-- What a step tells is the source of its datagram, or an address over UDP. -/
theorem mem_told {addr : TransportAddr} (h : addr ∈ n.told a) : addr ∈ a.source ∨ addr.kind = .udp := by
  unfold told at h
  split at h
  · next arrival =>
      rcases List.mem_cons.mp h with rfl | h
      · exact .inl rfl
      · cases hm : n.messageIn arrival with
        | none =>
            rw [hm] at h
            cases h
        | some msg =>
            rw [hm] at h
            obtain ⟨sa, -, rfl⟩ := List.mem_map.mp h
            exact .inr rfl
  · rw [List.mem_singleton.mp h]
    exact .inr rfl
  · cases h

/-- The addresses that a node sends to are among `K`. -/
structure Knows (K : TransportAddr → Prop) (n : Node S) : Prop where
  sessions : ∀ p session, n.engine.sessions.lookup p = some session → K session.underlay
  completions : ∀ who c, n.completion who = some c → K c.underlay
  initiators : ∀ who c, n.completion who = some c → c.initiator = true ∨ c.stage = .directories →
    c.underlay = .udp c.underlay.socketAddr
  attempts : ∀ id attempt, n.attempts.lookup id = some attempt → K (.udp attempt.addr)
  publicAddrs : n.engine.peerMgr.Publishes fun addr => K (.udp addr)

variable {K K' : TransportAddr → Prop}

theorem Knows.mono (h : n.Knows K) (hK : ∀ addr, K addr → K' addr) : n.Knows K' where
  sessions p session hl := hK _ (h.sessions p session hl)
  completions who c hc := hK _ (h.completions who c hc)
  initiators := h.initiators
  attempts id attempt hat := hK _ (h.attempts id attempt hat)
  publicAddrs p peer a hpeer ha := hK _ (h.publicAddrs p peer a hpeer ha)

/-- A step sends to what it knows, and to the source of the datagram. -/
theorem Knows.reaches (h : n.Knows K) (htold : ∀ addr ∈ n.told a, K addr) {addr : TransportAddr}
    (hr : n.Reaches a addr) : K addr := by
  cases hr with
  | source arrival ha =>
      subst ha
      exact htold _ List.mem_cons_self
  | session p session hl => exact h.sessions p session hl
  | completion who c hc => exact h.completions who c hc
  | directories who c hc hstage =>
      rw [← h.initiators who c hc (.inr hstage)]
      exact h.completions who c hc
  | attempt id attempt hat => exact h.attempts id attempt hat
  | publicAddr p peer addr hpeer ha => exact h.publicAddrs p peer addr hpeer ha

/-- The update of a step tells what the step tells. -/
theorem told_of_update (htold : ∀ addr ∈ n.told a, K addr) : ∀ addr ∈ (n.update a).addresses, K (.udp addr) := by
  intro addr haddr
  cases a with
  | tunPacket | healthcheck | relayFlag | stunAddr => cases haddr
  | task a =>
      cases a with
      | receive arrival =>
          cases ho : n.opens arrival with
          | none =>
              rw [update, ho] at haddr
              cases haddr
          | some r =>
              rw [update, ho] at haddr
              refine htold _ (List.mem_cons_of_mem _ ?_)
              rw [messageIn, ho]
              exact List.mem_map_of_mem haddr
      | inbound | attempt id =>
          simp only [update] at haddr
          unfold Update.ofCompletion at haddr
          split at haddr <;> cases haddr
      | removed | removal | discovery =>
          simp only [update] at haddr
          split at haddr <;> cases haddr
      | start | timeout | discover | broadcast => cases haddr

theorem Knows.sessions_loopNext (h : n.Knows K) {p : PeerId} {session : PeerSession (SecureTransport S)}
    (hl : (n.loopNext blake3 a).engine.sessions.lookup p = some session) : K session.underlay := by
  obtain ⟨e, hbefore, hafter⟩ := n.loopNext_tables blake3 a
  have hunderlay := (hafter.underlay p).symm.trans (congrArg (Option.map PeerSession.underlay) hl)
  have hold (he : (e.sessions.lookup p).map (·.underlay) = some session.underlay) : K session.underlay := by
    obtain ⟨old, hlookup, heq⟩ := Option.map_eq_some_iff.mp ((hbefore.underlay p).symm.trans he)
    exact heq ▸ h.sessions p old hlookup
  have heffect := Update.sessionEffect blake3 e (n.update a)
  generalize (n.update a).apply blake3 e = e' at heffect hunderlay
  cases heffect with
  | same hs => exact hold ((hs p).symm.trans hunderlay)
  | stores c hu hstage =>
      obtain ⟨_, who, -, -, hwho⟩ := completion_of_update hu
      dsimp only [Engine.insertSession] at hunderlay
      rw [Map.lookup_insert] at hunderlay
      split at hunderlay
      · rw [← Option.some.inj hunderlay]
        exact h.completions who c hwho
      · exact hold hunderlay
  | indexes => exact hold hunderlay
  | removes peer =>
      dsimp only [Engine.removeSession] at hunderlay
      rw [Map.lookup_erase] at hunderlay
      split at hunderlay
      · cases hunderlay
      · exact hold hunderlay
  | forgets => exact hold hunderlay

theorem Knows.attempts_next (h : n.Knows K) {a : NodeAction S} (htold : ∀ addr ∈ n.told (.task a), K addr) {id : ℕ}
    {attempt : Attempt S} (hat : (n.next blake3 a).attempts.lookup id = some attempt) : K (.udp attempt.addr) := by
  rcases attempts_of_next hat with ⟨old, hold, hsame⟩ | ⟨addr, rng, msgA, rfl, hinit, hstage⟩
  · rw [hsame.addr]
    exact h.attempts id old hold
  · simp only [Node.next, step, start, hinit] at hat
    split at hat
    · exact h.attempts id attempt hat
    · rw [Map.lookup_insert] at hat
      split at hat
      · rw [← Option.some.inj hat]
        exact htold _ List.mem_cons_self
      · exact h.attempts id attempt hat

/-- A completed handshake is with an address that the node knows. -/
theorem Knows.completions_next (h : n.Knows K) {a : NodeAction S} (htold : ∀ addr ∈ n.told (.task a), K addr)
    {who : Option ℕ} {c : Completion S} (hc : (n.next blake3 a).completion who = some c) :
    K c.underlay ∧ (c.initiator = true ∨ c.stage = .directories → c.underlay = .udp c.underlay.socketAddr) := by
  have hold (hwho : n.completion who = some c) : K c.underlay ∧
      (c.initiator = true ∨ c.stage = .directories → c.underlay = .udp c.underlay.socketAddr) :=
    ⟨h.completions who c hwho, h.initiators who c hwho⟩
  cases effect blake3 n a with
  | quiet hs hr hsame => exact hold ((hsame who).symm.trans hc)
  | removes id session hlookup hnone hs hr hsame => exact hold ((hsame who).symm.trans hc)
  | cleans underlay ha hsome hs hr hsame => exact hold ((hsame who).symm.trans hc)
  | forgets addr ha hsome hs hr hsame => exact hold ((hsame who).symm.trans hc)
  | accepts arrival responder created result ha hpunch hpending hfinish hs hr hnone hupdated =>
      rw [hupdated who] at hc
      split at hc
      · cases hc
        subst ha
        refine ⟨htold _ List.mem_cons_self, ?_⟩
        rintro (hrole | hstage)
        · cases hrole
        · cases hstage
      · exact hold hc
  | answers id token attempt data result ha hattempt hstage hinbox hanswer hs hr hnone hupdated =>
      rw [hupdated who] at hc
      split at hc
      · cases hc
        exact ⟨h.attempts id attempt hattempt, fun _ => rfl⟩
      · exact hold hc
  | advances w d ha hsome hs hr hupdated =>
      rw [hupdated who] at hc
      split at hc
      · obtain ⟨hunderlay, hrole, hstage⟩ := Completion.placed_of_next hc
        rw [hunderlay, hrole]
        exact ⟨h.completions w d hsome, fun hd => h.initiators w d hsome (.inl (hd.elim (fun hd => hd) hstage))⟩
      · exact hold hc

theorem Knows.loopNext (h : n.Knows K) (htold : ∀ addr ∈ n.told a, K addr) : (n.loopNext blake3 a).Knows K := by
  have hpublic : (n.loopNext blake3 a).engine.peerMgr.Publishes fun addr => K (.udp addr) := by
    obtain ⟨e, hbefore, hafter⟩ := n.loopNext_tables blake3 a
    rw [hafter.peerMgr]
    exact Update.publishes (hbefore.peerMgr ▸ h.publicAddrs) (told_of_update htold)
  cases a with
  | task a =>
      exact ⟨fun p session hl => h.sessions_loopNext hl, fun who c hc => (h.completions_next htold hc).1,
        fun who c hc => (h.completions_next htold hc).2, fun id attempt hat => h.attempts_next htold hat, hpublic⟩
  | tunPacket | healthcheck | relayFlag | stunAddr =>
      exact ⟨fun p session hl => h.sessions_loopNext hl,
        fun who c hc => h.completions who c ((completion_of_tasks rfl rfl who).symm.trans hc),
        fun who c hc => h.initiators who c ((completion_of_tasks rfl rfl who).symm.trans hc), h.attempts, hpublic⟩

end Node

theorem Node.Initial.knows {n : Node S} (h : n.Initial) (K : TransportAddr → Prop) : n.Knows K where
  sessions p session hl := by
    rw [h.sessions, AList.lookup_empty] at hl
    cases hl
  completions who c hc := by
    rw [h.completion] at hc
    cases hc
  initiators who c hc := by
    rw [h.completion] at hc
    cases hc
  attempts id attempt hat := by
    rw [h.attempts, AList.lookup_empty] at hat
    cases hat
  publicAddrs p peer a hpeer := by
    rw [PeerManager.get, h.peers, AList.lookup_empty] at hpeer
    cases hpeer

/-! ### Runs of a node -/

/-- A node, the addresses that it has been told, and what it has sent. -/
structure AddressBook (S : Snow) where
  node : Node S
  told : List TransportAddr := []
  sent : List (Datagram S) := []

namespace AddressBook

def next (blake3 : Blake3) (w : AddressBook S) (a : LoopAction S) : AddressBook S :=
  { node := w.node.loopNext blake3 a
    told := w.told ++ w.node.told a
    sent := w.sent ++ (w.node.loopStep blake3 a).out }

/-- **A node sends to no address that it has not been told**: every datagram but a STUN query goes to the source of one
that has arrived, to an address that a handshake was started at, or to one that a message named. -/
theorem sends_only_to_known (blake3 : Blake3) {n : Node S} (h : n.Initial) {as : List (LoopAction S)}
    (hover : ∀ a ∈ as, a.OverSessions) :
    ∀ d ∈ (exec (next blake3) { node := n } as).sent, d.dst ∈ (exec (next blake3) { node := n } as).told := by
  let kept (w : AddressBook S) := w.node.Knows (· ∈ w.told) ∧ ∀ d ∈ w.sent, d.dst ∈ w.told
  have hstart : kept { node := n } := ⟨h.knows _, List.forall_mem_nil _⟩
  have hok : Along (next blake3) (fun _ a => a.OverSessions) { node := n } as := Run.along_of_forall _ hover
  refine (hok.invariant (I := kept) ?_ hstart).2
  rintro w a ⟨hknows, hsent⟩ hov
  have hknows' := hknows.mono fun addr (haddr : addr ∈ w.told) => List.mem_append_left (w.node.told a) haddr
  have htold : ∀ addr ∈ w.node.told a, addr ∈ w.told ++ w.node.told a := fun addr => List.mem_append_right _
  refine ⟨hknows'.loopNext htold, fun d hd => ?_⟩
  rcases List.mem_append.mp hd with hd | hd
  · exact List.mem_append_left _ (hsent d hd)
  · exact hknows'.reaches htold (Node.reaches_of_out hov hd)

end AddressBook

/-! ### Transports -/

namespace OpenNetwork

variable {ι : Type} [DecidableEq ι]

/-- What arrives over another transport than UDP, some node has sent over it. -/
def Carried (w : OpenNetwork ι S) (step : ι × LoopAction S) : Prop :=
  step.2.OverSessions ∧ ∀ addr ∈ step.2.source, addr.kind ≠ .udp → ∃ p ∈ w.sent, p.2.dst.kind = addr.kind

instance (w : OpenNetwork ι S) (step : ι × LoopAction S) : Decidable (w.Carried step) :=
  have : Decidable (∀ addr ∈ step.2.source, addr.kind ≠ .udp → ∃ p ∈ w.sent, p.2.dst.kind = addr.kind) :=
    Option.decidableForallMem _
  inferInstanceAs (Decidable (_ ∧ _))

/-- **Only UDP is used.**  Nodes start handshakes over UDP only, and otherwise answer: on a network of nodes nothing is
ever sent over TCP or WebSocket. -/
theorem stream_transports_unused (blake3 : Blake3) {w : OpenNetwork ι S} (h : ∀ x, (w.node x).Initial)
    (hsent : w.sent = []) {steps : List (ι × LoopAction S)} (hok : Along (next blake3) Carried w steps) :
    ∀ p ∈ (exec (next blake3) w steps).sent, p.2.dst.kind = .udp := by
  let onlyUdp (w : OpenNetwork ι S) :=
    (∀ x, (w.node x).Knows fun addr => addr.kind = .udp) ∧ ∀ p ∈ w.sent, p.2.dst.kind = .udp
  have hstart : onlyUdp w := ⟨fun x => (h x).knows _, fun p hp => absurd (hsent ▸ hp) List.not_mem_nil⟩
  refine (hok.invariant (I := onlyUdp) ?_ hstart).2
  rintro w ⟨x, a⟩ ⟨hknows, hsent⟩ ⟨hover, hcarried⟩
  have htold : ∀ addr ∈ (w.node x).told a, addr.kind = .udp := by
    intro addr haddr
    rcases Node.mem_told haddr with hsource | hudp
    · by_contra hkind
      obtain ⟨p, hp, hdst⟩ := hcarried addr hsource hkind
      exact hkind (hdst ▸ hsent p hp)
    · exact hudp
  refine ⟨fun y => ?_, fun p hp => ?_⟩
  · rw [next_node]
    split
    · next hy =>
        obtain rfl : y = x := hy
        exact (hknows y).loopNext htold
    · exact hknows y
  · rcases List.mem_append.mp hp with hp | hp
    · exact hsent p hp
    · obtain ⟨d, hd, rfl⟩ := List.mem_map.mp hp
      exact (hknows x).reaches htold (Node.reaches_of_out hover hd)

end OpenNetwork

/-! ### Runs -/

namespace Transparent

theorem openNetwork_initial (x : Bool) : (openNetwork.node x).Initial := by
  cases x <;> exact ⟨rfl, rfl, rfl, rfl, rfl, rfl, rfl⟩

/-- The steps of node 2. -/
def secondGreeting : List (LoopAction named) := (openGreeting.filter (·.1)).map Prod.snd

end Transparent

open Transparent in
theorem sends_only_to_known_greeting :
    (exec (AddressBook.next blake3) { node := openNetwork.node true } secondGreeting).sent.length = 2 ∧
      ∀ d ∈ (exec (AddressBook.next blake3) { node := openNetwork.node true } secondGreeting).sent,
        d.dst ∈ (exec (AddressBook.next blake3) { node := openNetwork.node true } secondGreeting).told :=
  ⟨by decide +kernel, AddressBook.sends_only_to_known blake3 (openNetwork_initial true) (by decide +kernel)⟩

open Transparent in
theorem stream_transports_unused_greeting :
    (exec (OpenNetwork.next blake3) openNetwork openGreeting).sent.length = 5 ∧
      ∀ p ∈ (exec (OpenNetwork.next blake3) openNetwork openGreeting).sent, p.2.dst.kind = .udp :=
  ⟨by decide +kernel,
    OpenNetwork.stream_transports_unused blake3 openNetwork_initial rfl (by decide +kernel)⟩

end SeedNet
