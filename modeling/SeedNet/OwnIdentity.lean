import SeedNet.Loops
import SeedNet.HandlerEffects
import SeedNet.TransparentNode

/-! # A node and its own identity

An initiator gives up when its handshake proves its own key, and the handler of directories skips an
entry about itself.  The responder, `RelayReady` and `RelayRequest` make no such check; a node that dials
its own public address is a responder to itself.

`never_own_peer`: a run in which no message C proves the node's own key, and no message of the relay
set-up names the node itself as destination, never lists the node among its peers. -/

namespace SeedNet

open Run (exec Along)

/-- The engine's own identity is nobody it talks to. -/
structure Engine.NotSelf {τ : Type} (e : Engine τ) : Prop where
  session : e.ourPeerId ∉ e.sessions
  relayPath : e.ourPeerId ∉ e.relayPaths
  peer : e.ourPeerId ∉ e.peerMgr.peers
  addrIndex : ∀ u, e.addrIndex.lookup u ≠ some e.ourPeerId

variable {S : Snow}

/-! ### The condition -/

/-- A message of the relay set-up does not make the engine itself a destination. -/
def Update.NamesOther (e : Engine (SecureTransport S)) : Update S → Prop
  | .message _ _ (.relayReady _ dst _) => dst ≠ e.ourPeerId
  | .message _ fromAddr (.relayRequest dst) => e.sessions.len < 2 → fromAddr ∈ e.addrIndex → dst ≠ e.ourPeerId
  | _ => True

namespace Node

variable (n : Node S) (a : Arrival S)

/-- The identity that a datagram proves to a responder that takes it as message C. -/
def proves : Option PeerId :=
  if startsWith a.data holePunchProbePrefix then none
  else
    match n.pendingInitiator a, (n.retainResponders a.now).pendingResponders.lookup a.fromAddr.socketAddr with
    | none, some (responder, _) =>
      (responder.finish a.data).toOption.map fun result => .fromBytes result.transport.remoteStaticKey
    | _, _ => none

/-- The step `a` makes the node no peer of itself. -/
def MeetsOthers (a : LoopAction S) : Prop :=
  (match a with
    | .task (.receive arrival) => n.inbound = .idle → n.proves arrival ≠ some n.engine.ourPeerId
    | _ => True) ∧
  (n.update a).NamesOther n.engine

end Node

instance (e : Engine (SecureTransport S)) : DecidablePred (Update.NamesOther (S := S) e)
  | .message _ _ (.relayReady _ dst _) => inferInstanceAs (Decidable (dst ≠ e.ourPeerId))
  | .message _ fromAddr (.relayRequest dst) =>
    inferInstanceAs (Decidable (e.sessions.len < 2 → fromAddr ∈ e.addrIndex → dst ≠ e.ourPeerId))
  | .message _ _ (.data _) | .message _ _ .heartbeat | .message _ _ (.ping _) | .message _ _ (.pong _)
  | .message _ _ (.sessionInit ..) | .message _ _ (.holePunchProbe _) | .message _ _ (.holePunchAck _)
  | .message _ _ (.relayData ..) | .message _ _ (.relayAnnounce ..) | .message _ _ (.peerDirectory _)
  | .none | .complete _ | .removeSession _ | .removeAddrIndex _ | .tunPacket .. | .healthcheck .. | .relayFlag _
  | .stunAddr _ => isTrue trivial

instance (n : Node S) (a : LoopAction S) : Decidable (n.MeetsOthers a) := by
  unfold Node.MeetsOthers
  refine @instDecidableAnd _ _ ?_ inferInstance
  split <;> infer_instance

/-! ### Updates of the tables -/

namespace Engine

variable {τ : Type} {e e' : Engine τ}

/-- Only new keys of the tables matter. -/
theorem NotSelf.mono (h : e.NotSelf) (hid : e'.ourPeerId = e.ourPeerId)
    (hs : e.ourPeerId ∈ e'.sessions → e.ourPeerId ∈ e.sessions)
    (hr : e.ourPeerId ∈ e'.relayPaths → e.ourPeerId ∈ e.relayPaths)
    (hp : e.ourPeerId ∈ e'.peerMgr.peers → e.ourPeerId ∈ e.peerMgr.peers)
    (ha : ∀ u, e'.addrIndex.lookup u = some e.ourPeerId → e.addrIndex.lookup u = some e.ourPeerId) : e'.NotSelf := by
  constructor
  · rw [hid]
    exact fun hmem => h.session (hs hmem)
  · rw [hid]
    exact fun hmem => h.relayPath (hr hmem)
  · rw [hid]
    exact fun hmem => h.peer (hp hmem)
  · intro u hu
    rw [hid] at hu
    exact h.addrIndex u (ha u hu)

variable (blake3 : Blake3)

theorem NotSelf.addRelayPath (h : e.NotSelf) {dst : PeerId} (hdst : dst ≠ e.ourPeerId) (relayId : PeerId)
    (hops : UInt8) : (e.addRelayPath blake3 dst relayId hops).NotSelf := by
  refine h.mono rfl id (fun hmem => ?_) id fun _ => id
  exact ((e.mem_addRelayPath blake3).mp hmem).resolve_left hdst.symm

theorem NotSelf.registerPeer (h : e.NotSelf) {peerId : PeerId} (hid : peerId ≠ e.ourPeerId) (underlay : SocketAddr) :
    (e.registerPeer peerId underlay).NotSelf := by
  refine h.mono rfl id id (fun hmem => ?_) fun _ => id
  exact (PeerManager.mem_register.mp hmem).resolve_left hid.symm

theorem NotSelf.notePeer (h : e.NotSelf) {peerId : PeerId} (hid : peerId ≠ e.ourPeerId) (pubAddr : SocketAddr) :
    (e.notePeer peerId pubAddr).NotSelf := by
  refine h.mono rfl id id (fun hmem => ?_) fun _ => id
  exact (PeerManager.mem_discover.mp (PeerManager.mem_update.mp hmem)).resolve_left hid.symm

theorem NotSelf.updatePeer (h : e.NotSelf) (peerId : PeerId) (f : Peer → Peer) :
    { e with peerMgr := e.peerMgr.update peerId f }.NotSelf :=
  h.mono rfl id id PeerManager.mem_update.mp fun _ => id

theorem NotSelf.insertSession (h : e.NotSelf) {peerId : PeerId} (hid : peerId ≠ e.ourPeerId) (transport : τ)
    (underlay : TransportAddr) : (e.insertSession peerId transport underlay).NotSelf := by
  refine h.mono rfl (fun hmem => ?_) id id fun _ => id
  exact ((AList.mem_insert _).mp hmem).resolve_left hid.symm

theorem NotSelf.insertAddrIndex (h : e.NotSelf) {peerId : PeerId} (hid : peerId ≠ e.ourPeerId)
    (underlay : TransportAddr) : (e.insertAddrIndex underlay peerId).NotSelf := by
  refine h.mono rfl id id id fun u hu => ?_
  rw [Engine.insertAddrIndex, Map.lookup_insert] at hu
  split at hu
  · exact absurd (Option.some.inj hu) hid
  · exact hu

theorem NotSelf.removeAddrIndex (h : e.NotSelf) (underlay : TransportAddr) : (e.removeAddrIndex underlay).NotSelf := by
  refine h.mono rfl id id id fun u hu => ?_
  rw [Engine.removeAddrIndex, Map.lookup_erase] at hu
  split at hu
  · cases hu
  · exact hu

theorem NotSelf.handlePeerDirectory (h : e.NotSelf) (fromAddr : TransportAddr) (entries : List DirectoryEntry) :
    (e.handlePeerDirectory blake3 fromAddr entries).engine.NotSelf := by
  apply handlePeerDirectory_induction (P := NotSelf) _ _ h
  · intro e entry _ he hself
    exact he.notePeer hself _
  · intro rid _ e entry _ he hself _ _
    exact (he.notePeer hself _).addRelayPath blake3 hself rid _

end Engine

namespace Engine

variable {e e' : Engine (SecureTransport S)} (blake3 : Blake3)

theorem SameTables.notSelf (h : e.SameTables e') (he : e.NotSelf) : e'.NotSelf := by
  refine he.mono h.ourPeerId (h.mem _).mp ?_ ?_ ?_
  · rw [h.relayPaths]
    exact id
  · rw [h.peerMgr]
    exact id
  · rw [h.addrIndex]
    exact fun _ => id

theorem SameTables.namesOther (h : e.SameTables e') {u : Update S} (hu : u.NamesOther e) : u.NamesOther e' := by
  unfold Update.NamesOther at hu ⊢
  split
  · rw [h.ourPeerId]
    exact hu
  · intro hlen hfrom
    rw [h.len] at hlen
    rw [h.addrIndex] at hfrom
    rw [h.ourPeerId]
    exact hu hlen hfrom
  · trivial

theorem NotSelf.message (h : e.NotSelf) {nowMs : UInt64} {fromAddr : TransportAddr} {msg : Message}
    (hu : (Update.message nowMs fromAddr msg : Update S).NamesOther e) :
    (e.handleMessage blake3 nowMs fromAddr msg).engine.NotSelf := by
  cases msg with
  | relayReady relayId dst hops => exact (h.addRelayPath blake3 hu relayId hops).registerPeer hu fakeAddr
  | relayRequest dst =>
      rw [handleMessage]
      rcases e.handleRelayRequest_engine blake3 fromAddr dst with ⟨rid, hlen, hfrom, heng⟩ | ⟨-, heng⟩
      · rw [heng]
        exact h.addRelayPath blake3 (hu hlen (Map.mem_iff_lookup.mpr ⟨rid, hfrom⟩)) rid 1
      · rw [heng]
        exact h
  | peerDirectory entries => exact h.handlePeerDirectory blake3 fromAddr entries
  | sessionInit overlay overlayIpv6 hostname publicAddr =>
      rw [handleMessage, handleSessionInit_engine]
      cases e.addrIndex.lookup fromAddr with
      | none => exact h
      | some peerId =>
          have hroute : (e.addRoute overlay peerId).NotSelf := h.mono rfl id id id fun _ => id
          exact hroute.updatePeer peerId _
  | pong sentMs =>
      rw [handleMessage]
      split
      · exact h.updatePeer _ _
      · exact h
  | ping sentMs =>
      rw [handleMessage]
      split <;> exact h
  | relayData src dst payload =>
      rw [handleMessage, handleRelayData_engine]
      exact h
  | relayAnnounce relayId publicAddr => exact h.mono rfl id id id fun _ => id
  | heartbeat | data | holePunchProbe | holePunchAck => exact h

theorem NotSelf.complete (h : e.NotSelf) {c : Completion S} (hc : c.peerId ≠ e.ourPeerId) :
    (c.run blake3 e).1.NotSelf := by
  rw [Completion.run]
  cases c.stage with
  | relayPath => exact h.mono rfl id (fun hmem => (AList.mem_erase.mp hmem).2) id fun _ => id
  | session => exact h.insertSession hc _ _
  | addrIndex => exact h.insertAddrIndex hc _
  | route => exact h.mono rfl id id id fun _ => id
  | register => exact h.registerPeer hc _
  | sessionInit | announce | directories => exact (sameTables_transmit _ e).notSelf h

theorem NotSelf.apply (h : e.NotSelf) {u : Update S} (hu : u.NamesOther e)
    (hc : ∀ c, u = .complete c → c.peerId ≠ e.ourPeerId) : (u.apply blake3 e).NotSelf := by
  cases u with
  | message nowMs fromAddr msg => exact h.message blake3 hu
  | complete c => exact h.complete blake3 (hc c rfl)
  | removeSession peerId => exact h.mono rfl (fun hmem => (AList.mem_erase.mp hmem).2) id id fun _ => id
  | removeAddrIndex underlay => exact h.removeAddrIndex underlay
  | tunPacket candidate packet =>
      obtain ⟨t, heng⟩ := e.handleTunPacket_routes candidate packet
      rw [Update.apply, heng]
      exact h.mono rfl id id id fun _ => id
  | healthcheck nowMs peerId =>
      rw [Update.apply, healthcheck]
      split
      · exact h.updatePeer _ _
      · exact h
  | relayFlag | stunAddr => exact h.mono rfl id id id fun _ => id
  | none => exact h

end Engine

/-! ### Completions -/

namespace Node

variable {n : Node S} (blake3 : Blake3)

/-- A receive that ends in a completion took a message C that proves its peer's identity. -/
theorem receive_completion {a : Arrival S} {c : Completion S} (hidle : n.inbound = .idle)
    (h : (n.receive blake3 a).node.inbound = .complete c) : n.proves a = some c.peerId := by
  unfold receive at h
  unfold proves
  dsimp only at h
  split at h
  · next hpunch =>
      unfold onHolePunch at h
      split at h <;> cases hidle.symm.trans h
  · next hpunch =>
      rw [if_neg hpunch]
      split at h
      · cases h
      · next hpending =>
          replace hpending : n.pendingInitiator a = none := hpending
          rw [hpending]
          split at h
          · next responder created hresponder =>
              rw [hresponder]
              unfold onMessageC at h
              dsimp only at h ⊢
              cases hfin : responder.finish a.data with
              | ok result =>
                  rw [hfin] at h
                  cases h
                  rfl
              | error err =>
                  rw [hfin] at h
                  cases hidle.symm.trans h
          · split at h
            · have hsame := onData_sameTasks blake3 (n.retainResponders a.now) a ‹PeerId›
              cases (hidle.symm.trans (hsame.inbound.symm.trans h))
            · split at h
              · unfold onMessageA at h
                split at h <;> cases hidle.symm.trans h
              · cases hidle.symm.trans h

/-- The self check of an initiator: its completions are for other nodes. -/
theorem onMessageB_completion {id : ℕ} {attempt : Attempt S} {data : Bytes} {sent : Bool} {c : Completion S}
    (hat : n.attempts.lookup id = some attempt)
    (h : (n.onMessageB id attempt data sent).node.completion (some id) = some c) :
    c.peerId ≠ n.engine.ourPeerId := by
  have hend : (n.endAttempt id).completion (some id) = none := by rw [completion_endAttempt id, if_pos rfl]
  unfold onMessageB at h
  split at h
  · cases hend.symm.trans h
  · next result hans =>
      split at h
      · cases hend.symm.trans h
      · dsimp only at h
        split at h
        · cases hend.symm.trans h
        · next hself =>
            rw [completion_setStage hat, if_pos rfl] at h
            cases h
            exact hself

/-- A completion of the next state is one of this state, one that a message C proves, or one of an
initiator. -/
theorem completion_next {a : NodeAction S} {who : Option ℕ} {c : Completion S}
    (h : (n.next blake3 a).completion who = some c) :
    (∃ d, n.completion who = some d ∧ c.peerId = d.peerId) ∨
      (∃ arrival, a = .receive arrival ∧ n.inbound = .idle ∧ n.proves arrival = some c.peerId) ∨
      c.peerId ≠ n.engine.ourPeerId := by
  have hsame (hw : (n.next blake3 a).completion who = n.completion who) :
      ∃ d, n.completion who = some d ∧ c.peerId = d.peerId := ⟨c, hw.symm.trans h, rfl⟩
  cases effect blake3 n a with
  | quiet hs hr hc => exact .inl (hsame (hc who))
  | removes id session hlookup hnone hs hr hc => exact .inl (hsame (hc who))
  | cleans underlay ha hsome hs hr hc => exact .inl (hsame (hc who))
  | forgets addr ha hsome hs hr hc => exact .inl (hsame (hc who))
  | advances w d ha hsome hs hr hc =>
      refine .inl ?_
      by_cases hwho : who = w
      · rw [hc who, if_pos hwho] at h
        refine ⟨d, hwho ▸ hsome, ?_⟩
        unfold Completion.next at h
        split at h <;> cases h <;> rfl
      · exact hsame (by rw [hc who, if_neg hwho])
  | accepts arrival responder created result ha hpunch hpending hfinish hs hr hnone hc =>
      by_cases hwho : who = none
      · subst hwho ha
        refine .inr (.inl ⟨arrival, rfl, ?_⟩)
        rw [next, step] at h
        cases hi : n.inbound with
        | dispatch | complete =>
            rw [hi] at h
            cases hnone.symm.trans h
        | idle =>
            rw [hi] at h
            exact ⟨rfl, receive_completion blake3 hi (inbound_of_completion h)⟩
      · exact .inl (hsame (by rw [hc who, if_neg hwho]))
  | answers id token attempt data result ha hattempt hstage hinbox hanswer hs hr hnone hc =>
      by_cases hwho : who = some id
      · subst hwho ha
        refine .inr (.inr ?_)
        simp only [next, step, attemptStep, hattempt, hstage, hinbox] at h
        exact onMessageB_completion hattempt h
      · exact .inl (hsame (by rw [hc who, if_neg hwho]))

/-! ### Runs -/

/-- The node is nobody it talks to, nor about to talk to. -/
structure Remote (n : Node S) : Prop where
  tables : n.engine.NotSelf
  completion : ∀ who c, n.completion who = some c → c.peerId ≠ n.engine.ourPeerId

theorem Remote.loopNext (h : n.Remote) {a : LoopAction S} (ha : n.MeetsOthers a) : (n.loopNext blake3 a).Remote := by
  obtain ⟨e, hbefore, hafter⟩ := n.loopNext_tables blake3 a
  constructor
  · refine hafter.notSelf ((hbefore.notSelf h.tables).apply blake3 (hbefore.namesOther ha.2) fun c hc => ?_)
    obtain ⟨-, who, -, -, hwho⟩ := completion_of_update hc
    rw [hbefore.ourPeerId]
    exact h.completion who c hwho
  · intro who c hc
    rw [n.loopNext_ourPeerId blake3 a]
    cases a with
    | task a =>
        rcases completion_next blake3 hc with ⟨d, hd, hpeer⟩ | ⟨arrival, rfl, hidle, hproves⟩ | hne
        · rw [hpeer]
          exact h.completion who d hd
        · intro hself
          rw [hself] at hproves
          exact ha.1 hidle hproves
        · exact hne
    | tunPacket | healthcheck | relayFlag | stunAddr => exact h.completion who c hc

end Node

/-- **A node is never its own peer**, in every state of a run whose steps all meet `MeetsOthers`. -/
theorem never_own_peer (blake3 : Blake3) (n : Node S) (hinit : n.Initial) (as : List (LoopAction S))
    (hok : Along (Node.loopNext blake3) Node.MeetsOthers n as) : (exec (Node.loopNext blake3) n as).engine.NotSelf := by
  have hstart : n.Remote := by
    refine ⟨⟨?_, ?_, ?_, fun u hu => ?_⟩, fun who c hc => ?_⟩
    · rw [hinit.sessions]
      exact AList.notMem_empty _
    · rw [hinit.relayPaths]
      exact AList.notMem_empty _
    · rw [hinit.peers]
      exact AList.notMem_empty _
    · rw [hinit.addrIndex] at hu
      cases hu
    · rw [hinit.completion] at hc
      cases hc
  exact (hok.invariant (fun m a hm ha => hm.loopNext blake3 ha) hstart).tables

open Transparent in
/-- After one handshake with a peer, as responder. -/
theorem never_own_peer_handshake :
    (exec (Node.loopNext blake3) (node 1) ((handshakeFrom 7 (addr 2) 3 4).map .task)).engine.NotSelf :=
  never_own_peer blake3 (node 1) ⟨rfl, rfl, rfl, rfl, rfl, rfl, rfl⟩ ((handshakeFrom 7 (addr 2) 3 4).map .task)
    (by decide +kernel)

open Transparent in
/-- A node dials its own address: as initiator it gives up, as responder it stores the session. -/
theorem own_peer :
    ¬ ∀ (blake3 : Blake3) (n : Node transparent), n.Initial → ∀ as : List (LoopAction transparent),
      (exec (Node.loopNext blake3) n as).engine.NotSelf := by
  intro h
  let dial : List (NodeAction transparent) :=
    [.start (addr 1) (3 : UInt8), .attempt 0 true 0, .receive (arrival (addr 1) 4 (messageA 3)),
      .receive (arrival (addr 1) 0 (messageB 1 3 4)), .inbound, .attempt 0 true 0,
      .receive (arrival (addr 1) 0 (messageC 1 1 3 4)), .inbound, .inbound]
  exact (h blake3 (node 1) ⟨rfl, rfl, rfl, rfl, rfl, rfl, rfl⟩ (dial.map .task)).session (by decide +kernel)

end SeedNet
