import SeedNet.ReachablePeers

/-! # First hops of relay paths

A relay path is of use only if there is a session with its first hop.  Directories and requests
give the path through the peer that sent them, which `addr_index` names; `RelayReady` gives it through the peer
that the message itself names, and nothing compares that with the sessions.

`relay_paths_connected_iff`: as long as no peer is removed, every relay path starts at a peer with a session
exactly if every `RelayReady` that is handled names one. -/

namespace SeedNet

open Run (exec Along)

/-! ### The condition -/

namespace Engine

variable {τ : Type} (e : Engine τ)

/-- Every relay path starts at a peer with a session. -/
def FirstHopsConnected : Prop := ∀ d relayId hops, e.relayPaths.lookup d = some (relayId, hops) → relayId ∈ e.sessions

/-- Every relay path starts at a connected node: the outbound loop never finds a relay without a session. -/
structure RelaysConnected : Prop where
  paths : e.FirstHopsConnected
  outbound : ∀ candidate packet, ∀ s ∈ (e.handleTunPacket candidate packet).sends,
    ∀ src dst payload, s.msg = .relayData src dst payload → s.peer ∈ e.sessions

variable {e}

theorem FirstHopsConnected.outbound (h : e.FirstHopsConnected) (candidate : Option PeerId) (packet : Bytes)
    {s : Send} (hs : s ∈ (e.handleTunPacket candidate packet).sends) {src dst : PeerId} {payload : Bytes}
    (hmsg : s.msg = .relayData src dst payload) : s.peer ∈ e.sessions := by
  unfold handleTunPacket at hs
  split at hs
  · cases hs
  · split at hs
    · cases hs
    · split at hs
      · cases hs
      · next peerId _ =>
          unfold routePacket at hs
          split at hs
          · obtain rfl := List.mem_singleton.mp hs
            cases hmsg
          · split at hs
            · next relayId hops hpath =>
                obtain rfl := List.mem_singleton.mp hs
                exact h peerId relayId hops hpath
            · unfold requestVia at hs
              split at hs
              · split at hs
                · obtain rfl := List.mem_singleton.mp hs
                  cases hmsg
                · cases hs
              · cases hs

theorem relaysConnected_iff : e.RelaysConnected ↔ e.FirstHopsConnected :=
  ⟨fun h => h.paths, fun h => ⟨h, fun candidate packet _ hs _ _ _ hmsg => h.outbound candidate packet hs hmsg⟩⟩

end Engine

variable {S : Snow}

/-- A `RelayReady` names a relay that has a session. -/
def Update.NamesConnected (e : Engine (SecureTransport S)) : Update S → Prop
  | .message _ _ (.relayReady relayId _ _) => relayId ∈ e.sessions
  | _ => True

/-- The step removes no peer. -/
def LoopAction.KeepsPeers : LoopAction S → Prop
  | .task (.removed _) => False
  | _ => True

instance (e : Engine (SecureTransport S)) : ∀ u : Update S, Decidable (u.NamesConnected e)
  | .message _ _ (.relayReady relayId _ _) => inferInstanceAs (Decidable (relayId ∈ e.sessions))
  | .message _ _ (.data _) | .message _ _ .heartbeat | .message _ _ (.ping _) | .message _ _ (.pong _)
  | .message _ _ (.sessionInit ..) | .message _ _ (.holePunchProbe _) | .message _ _ (.holePunchAck _)
  | .message _ _ (.relayRequest _) | .message _ _ (.relayData ..) | .message _ _ (.relayAnnounce ..)
  | .message _ _ (.peerDirectory _) | .none | .complete _ | .removeSession _ | .removeAddrIndex _ | .tunPacket ..
  | .healthcheck .. | .relayFlag _ | .stunAddr _ => isTrue trivial

instance : ∀ a : LoopAction S, Decidable a.KeepsPeers
  | .task (.removed _) => isFalse id
  | .task (.receive _) | .task .inbound | .task (.start ..) | .task (.attempt ..) | .task (.timeout _)
  | .task (.discover _) | .task .discovery | .task .removal | .task (.broadcast _) | .tunPacket .. | .healthcheck ..
  | .relayFlag _ | .stunAddr _ => isTrue trivial

/-! ### Updates -/

namespace Update

variable (blake3 : Blake3) {e : Engine (SecureTransport S)} {u : Update S} {d relayId : PeerId} {hops : UInt8}

/-- Where a relay path comes from. -/
theorem relayPath_origin (h : (u.apply blake3 e).relayPaths.lookup d = some (relayId, hops)) :
    e.relayPaths.lookup d = some (relayId, hops) ∨ (∃ v, e.addrIndex.lookup v = some relayId) ∨
      ∃ nowMs fromAddr, u = .message nowMs fromAddr (.relayReady relayId d hops) := by
  let Known (m : Map PeerId (PeerId × UInt8)) : Prop := ∀ d relayId hops, m.lookup d = some (relayId, hops) →
    e.relayPaths.lookup d = some (relayId, hops) ∨ (∃ v, e.addrIndex.lookup v = some relayId) ∨
      ∃ nowMs fromAddr, u = .message nowMs fromAddr (.relayReady relayId d hops)
  have hready : ∀ nowMs fromAddr relayId dst hops, u = .message nowMs fromAddr (.relayReady relayId dst hops) →
      Known (e.relayPaths.insert dst (relayId, hops)) := by
    intro nowMs fromAddr relayId dst hops hu d relayId' hops' hpath
    rw [Map.lookup_insert] at hpath
    split at hpath
    · next hd =>
        cases hpath
        exact .inr (.inr ⟨nowMs, fromAddr, hd ▸ hu⟩)
    · exact .inl hpath
  -- directories and requests give the path through their sender
  have hlearn : ∀ fromAddr rid, e.addrIndex.lookup fromAddr = some rid → ∀ m dst hops, Known m →
      Known (m.insert dst (rid, hops)) := by
    intro fromAddr rid hfrom m dst hops hm d relayId' hops' hpath
    rw [Map.lookup_insert] at hpath
    split at hpath
    · cases hpath
      exact .inr (.inl ⟨fromAddr, hfrom⟩)
    · exact hm d relayId' hops' hpath
  have herase : ∀ c, u = .complete c → c.stage = .relayPath → Known (e.relayPaths.erase c.peerId) := by
    intro c _ _ d relayId' hops' hpath
    rw [Map.lookup_erase] at hpath
    split at hpath
    · cases hpath
    · exact .inl hpath
  have hknown : Known (u.apply blake3 e).relayPaths := relayPaths_induction hready hlearn herase fun _ _ _ => .inl
  exact hknown d relayId hops h

/-- Sessions are lost only by removal. -/
theorem mem_sessions_of_keeps (hu : ∀ p, u ≠ .removeSession p) {p : PeerId} (h : p ∈ e.sessions) :
    p ∈ (u.apply blake3 e).sessions := by
  have heff := u.sessionEffect blake3 e
  generalize u.apply blake3 e = e' at heff
  cases heff with
  | same hs hi =>
      rw [← AList.lookup_isSome, ← Option.isSome_map (f := (·.underlay)), hs p, Option.isSome_map, AList.lookup_isSome]
      exact h
  | stores c => exact (AList.mem_insert _).mpr (.inr h)
  | indexes | forgets => exact h
  | removes peerId he => exact absurd he (hu peerId)

end Update

/-! ### Indexed peers have sessions -/

/-- The index entry is written right after the session. -/
theorem Completion.session_of_next {c d : Completion S} (h : d.next = some c) (hstage : c.stage = .addrIndex) :
    d.stage = .session ∧ c.peerId = d.peerId := by
  obtain ⟨initiator, peerId, underlay, transport, stage⟩ := d
  cases stage with
  | session =>
      cases h
      exact ⟨rfl, rfl⟩
  | announce =>
      cases h
      cases initiator <;> cases hstage
  | relayPath | addrIndex | route | sessionInit | directories | register =>
      cases h
      try cases hstage

namespace Node

/-- Every indexed address belongs to a peer with a session, also once the indexing of a new session is done. -/
structure Indexed (n : Node S) : Prop where
  index : ∀ v p, n.engine.addrIndex.lookup v = some p → p ∈ n.engine.sessions
  stored : ∀ who c, n.completion who = some c → c.stage = .addrIndex → c.peerId ∈ n.engine.sessions

variable {n : Node S} (blake3 : Blake3)

theorem update_of_keepsPeers {a : LoopAction S} (ha : a.KeepsPeers) (p : PeerId) : n.update a ≠ .removeSession p := by
  cases a with
  | task a =>
      cases a with
      | removed => exact absurd ha id
      | inbound | attempt =>
          simp only [update, Update.ofCompletion]
          split <;> exact fun h => by cases h
      | receive | removal | discovery =>
          simp only [update]
          split <;> exact fun h => by cases h
      | start | timeout | discover | broadcast => exact fun h => by cases h
  | tunPacket | healthcheck | relayFlag | stunAddr => exact fun h => by cases h

theorem Indexed.loopNext (h : n.Indexed) {a : LoopAction S} (ha : a.KeepsPeers) : (n.loopNext blake3 a).Indexed := by
  obtain ⟨e, hbefore, hafter⟩ := n.loopNext_tables blake3 a
  have hkeep : ∀ p ∈ n.engine.sessions, p ∈ (n.loopNext blake3 a).engine.sessions := by
    intro p hp
    exact (hafter.mem p).mpr
      (Update.mem_sessions_of_keeps blake3 (update_of_keepsPeers ha) ((hbefore.mem p).mpr hp))
  constructor
  · intro v p hv
    rw [hafter.addrIndex] at hv
    have heff := (n.update a).sessionEffect blake3 e
    generalize (n.update a).apply blake3 e = e' at heff hv
    have hold (hv : e.addrIndex.lookup v = some p) : p ∈ (n.loopNext blake3 a).engine.sessions :=
      hkeep p (h.index v p (hbefore.addrIndex ▸ hv))
    cases heff with
    | same hs hi => exact hold (hi ▸ hv)
    | stores c => exact hold hv
    | removes peerId => exact hold hv
    | forgets underlay =>
        rw [Engine.removeAddrIndex, Map.lookup_erase] at hv
        split at hv
        · cases hv
        · exact hold hv
    | indexes c hu hstage =>
        rw [Engine.insertAddrIndex, Map.lookup_insert] at hv
        split at hv
        · cases hv
          obtain ⟨-, who, -, -, hwho⟩ := completion_of_update hu
          exact hkeep c.peerId (h.stored who c hwho hstage)
        · exact hold hv
  · intro who c hc hstage
    rcases completion_origin blake3 hc with hold | hnew | ⟨d, hd, hnext⟩
    · exact hkeep c.peerId (h.stored who c hold hstage)
    · cases hnew.symm.trans hstage
    · -- the session is stored by the update before
      obtain ⟨hsession, hpeer⟩ := Completion.session_of_next hnext hstage
      rw [hpeer]
      refine (hafter.mem d.peerId).mpr ?_
      rw [hd, Update.apply, Completion.run, hsession]
      exact (AList.mem_insert _).mpr (.inl rfl)

theorem Initial.indexed (h : n.Initial) : n.Indexed := by
  constructor
  · intro v p hv
    rw [h.addrIndex] at hv
    cases hv
  · intro who c hc
    rw [h.completion] at hc
    cases hc

/-! ### Steps -/

/-- A step keeps the first hops connected exactly if it meets the condition. -/
theorem firstHops_iff (h : n.Indexed) (hpaths : n.engine.FirstHopsConnected) {a : LoopAction S} (ha : a.KeepsPeers) :
    (n.update a).NamesConnected n.engine ↔ (n.loopNext blake3 a).engine.FirstHopsConnected := by
  obtain ⟨e, hbefore, hafter⟩ := n.loopNext_tables blake3 a
  have hkeep : ∀ p ∈ n.engine.sessions, p ∈ (n.loopNext blake3 a).engine.sessions := by
    intro p hp
    exact (hafter.mem p).mpr
      (Update.mem_sessions_of_keeps blake3 (update_of_keepsPeers ha) ((hbefore.mem p).mpr hp))
  constructor
  · intro hnames d relayId hops hpath
    rw [hafter.relayPaths] at hpath
    apply hkeep
    rcases Update.relayPath_origin blake3 hpath with hold | ⟨v, hv⟩ | ⟨nowMs, fromAddr, hu⟩
    · exact hpaths d relayId hops (hbefore.relayPaths ▸ hold)
    · exact h.index v relayId (hbefore.addrIndex ▸ hv)
    · rw [hu] at hnames
      exact hnames
  · intro hnext
    unfold Update.NamesConnected
    split
    · next nowMs fromAddr relayId dst hops hu =>
        have hsame := Engine.handleMessage_frame blake3 (e := e) nowMs fromAddr (.relayReady relayId dst hops)
        have hpath : (n.loopNext blake3 a).engine.relayPaths.lookup dst = some (relayId, hops) := by
          rw [hafter.relayPaths, hu]
          exact (e.lookup_addRelayPath blake3 dst relayId dst hops).trans (if_pos rfl)
        have hmem := (hafter.mem relayId).mp (hnext dst relayId hops hpath)
        rw [hu, Update.apply, hsame.sessions] at hmem
        exact (hbefore.mem relayId).mp hmem
    · trivial

end Node

/-- **Relay paths start at connected nodes.**  The runs without removal that never leave this property are
those in which every `RelayReady` that is handled names a relay with a session. -/
theorem relay_paths_connected_iff (blake3 : Blake3) (n : Node S) (hinit : n.Initial) (as : List (LoopAction S))
    (hkeep : ∀ a ∈ as, a.KeepsPeers) :
    Along (Node.loopNext blake3) (fun n a => (n.update a).NamesConnected n.engine) n as ↔
      ∀ bs, bs <+: as → (exec (Node.loopNext blake3) n bs).engine.RelaysConnected := by
  have hstart : n.engine.FirstHopsConnected := by
    intro d relayId hops hpath
    rw [hinit.relayPaths] at hpath
    cases hpath
  simp only [Engine.relaysConnected_iff]
  exact Run.along_iff_invariant_of_allowed (J := Node.Indexed) (I := fun m => m.engine.FirstHopsConnected)
    (fun m a hm (ha : a.KeepsPeers) => hm.loopNext blake3 ha)
    (fun m a hm hpaths ha => Node.firstHops_iff blake3 hm hpaths ha) hinit.indexed hstart as hkeep

namespace Transparent

/-- Peer 7 completes a handshake, tells of peer 9 and says that it relays to peer 8. -/
def relaying : List (LoopAction transparent) :=
  (handshakeFrom 7 (addr 2) 3 4 ++ [messageFrom (addr 2) 3 4 0 (.peerDirectory [(.replicate 9, addr 9, 1)]),
    messageFrom (addr 2) 3 4 1 (.relayReady (.replicate 7) (.replicate 8) 1)]).map .task

end Transparent

open Transparent in
theorem relay_paths_connected_relaying :
    (exec (Node.loopNext blake3) (roomyNode 1) relaying).engine.relayPaths.lookup (.replicate 9) =
        some (.replicate 7, 2) ∧
      (exec (Node.loopNext blake3) (roomyNode 1) relaying).engine.relayPaths.lookup (.replicate 8) =
        some (.replicate 7, 1) ∧
      (exec (Node.loopNext blake3) (roomyNode 1) relaying).engine.RelaysConnected :=
  ⟨by decide +kernel, by decide +kernel,
    (relay_paths_connected_iff blake3 (roomyNode 1) ⟨rfl, rfl, rfl, rfl, rfl, rfl, rfl⟩ relaying (by decide)).mp
      (by decide +kernel) _ List.prefix_rfl⟩

open Transparent in
/-- Peer 7 completes a handshake and says that peer 9, which the node does not know, relays to peer 8. -/
theorem relay_unconnected :
    ¬ ∀ (blake3 : Blake3) (n : Node transparent), n.Initial → ∀ as : List (LoopAction transparent),
      (∀ a ∈ as, a.KeepsPeers) → (exec (Node.loopNext blake3) n as).engine.RelaysConnected := by
  intro h
  let run : List (LoopAction transparent) := (handshakeFrom 7 (addr 2) 3 4 ++
    [messageFrom (addr 2) 3 4 0 (.relayReady (.replicate 9) (.replicate 8) 1)]).map .task
  have hpath : (exec (Node.loopNext blake3) (roomyNode 1) run).engine.relayPaths.lookup (.replicate 8) =
      some (.replicate 9, 1) := by decide +kernel
  have hmem := (h blake3 (roomyNode 1) ⟨rfl, rfl, rfl, rfl, rfl, rfl, rfl⟩ run (by decide)).paths _ _ _ hpath
  exact absurd hmem (by decide +kernel)

end SeedNet
