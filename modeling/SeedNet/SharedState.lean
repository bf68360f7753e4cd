import SeedNet.Threads
import SeedNet.PeerRecords
import SeedNet.Loops

/-! # What the tasks of a node share

`Engine.handleMessage` and `Engine.handleTunPacket` run a handler as one step.  In the source a handler awaits the
lock of the routing table, the locks of peer records and the socket, and on a runtime with several threads the other
tasks run between any two of its operations on the shared maps.  `Op` has these operations and `Shared.perform` what
each of them does; the handlers are threads of such operations (`HandlerThreads.lean`).

A record is an object that handles refer to, as in `PeerRecords.lean`, and a call on the peer manager takes the
stages of a `PeerCall`.  The node's own `PeerManager` is what the objects in the table contain
(`PeerTable.manager`), so that whatever is said of the tables of a node can be said here. -/

namespace SeedNet

open Threads (Thread)

namespace Map

variable {K V W : Type} [DecidableEq K]

omit [DecidableEq K] in
theorem keys_filterMap_sublist (f : V → Option W) : ∀ l : List (Sigma fun _ : K => V),
    (l.filterMap fun s => (f s.2).map (Sigma.mk (β := fun _ : K => W) s.1)).keys.Sublist l.keys
  | [] => List.Sublist.slnil
  | ⟨c, v⟩ :: l => by
      have ih := keys_filterMap_sublist f l
      cases hv : f v with
      | none =>
          rw [List.filterMap_cons_none (by simp [hv])]
          exact ih.cons c
      | some w =>
          rw [List.filterMap_cons_some (b := ⟨c, w⟩) (by simp [hv])]
          exact ih.cons_cons c

/-- The values that `f` finds for those of `m`. -/
def collect (m : Map K V) (f : V → Option W) : Map K W where
  entries := m.entries.filterMap fun s => (f s.2).map (Sigma.mk s.1)
  nodupKeys := List.Nodup.sublist (keys_filterMap_sublist f m.entries) m.nodupKeys

theorem dlookup_filterMap (f : V → Option W) (k : K) : ∀ l : List (Sigma fun _ : K => V), l.NodupKeys →
    (l.filterMap fun s => (f s.2).map (Sigma.mk (β := fun _ : K => W) s.1)).dlookup k = (l.dlookup k).bind f
  | [], _ => rfl
  | ⟨c, v⟩ :: l, h => by
      have ih := dlookup_filterMap f k l (List.nodupKeys_cons.mp h).2
      have hc : c ∉ l.keys := (List.nodupKeys_cons.mp h).1
      cases hv : f v with
      | none =>
          rw [List.filterMap_cons_none (by simp [hv]), ih]
          by_cases hk : k = c
          · subst hk
            rw [List.dlookup_eq_none.mpr hc, List.dlookup_cons_eq, Option.bind_some, hv]
            rfl
          · rw [List.dlookup_cons_ne (β := fun _ : K => V) _ ⟨c, v⟩ hk]
      | some w =>
          rw [List.filterMap_cons_some (b := ⟨c, w⟩) (by simp [hv])]
          by_cases hk : k = c
          · subst hk
            rw [List.dlookup_cons_eq, List.dlookup_cons_eq, Option.bind_some, hv]
          · rw [List.dlookup_cons_ne (β := fun _ : K => W) _ ⟨c, w⟩ hk,
              List.dlookup_cons_ne (β := fun _ : K => V) _ ⟨c, v⟩ hk, ih]

@[simp] theorem lookup_collect (m : Map K V) (f : V → Option W) (k : K) :
    (m.collect f).lookup k = (m.lookup k).bind f :=
  dlookup_filterMap f k m.entries m.nodupKeys

end Map

namespace PeerTable

/-- The records by value, and the events sent so far. -/
def manager (s : PeerTable) : PeerManager where
  peers := s.table.collect fun o => s.objects[o]?
  events := s.events

@[simp] theorem get_manager (s : PeerTable) (id : PeerId) : s.manager.get id = s.record id :=
  Map.lookup_collect ..

end PeerTable

/-! ### The state -/

variable {S : Snow}

/-- What the tasks of a node share, with what they have sent and written to the TUN device so far. -/
structure Shared (S : Snow) where
  node : Node S
  records : PeerTable := {}
  agree : node.engine.peerMgr = records.manager
  out : List (Datagram S) := []
  tun : List Bytes := []

namespace Shared

variable (s : Shared S)

/-- The node has made a step that concerns no record. -/
def setNode (n : Node S) : Shared S :=
  { s with node := { n with engine := { n.engine with peerMgr := s.records.manager } }, agree := rfl }

def setRecords (r : PeerTable) : Shared S :=
  { s with
    node := { s.node with engine := { s.node.engine with peerMgr := r.manager } }
    records := r
    agree := rfl }

theorem setNode_node {n : Node S} (h : n.engine.peerMgr = s.node.engine.peerMgr) : (s.setNode n).node = n := by
  show { n with engine := { n.engine with peerMgr := s.records.manager } } = n
  rw [← s.agree, ← h]

end Shared

/-! ### Operations -/

/-- An operation that other tasks see as one. -/
inductive Op where
  /-- `relay_paths.insert` -/
  | relayPath (dst : PeerId) (path : PeerId × UInt8)
  /-- `add_route`, under the lock of the routing table -/
  | route (overlay : OverlayAddr) (peerId : PeerId)
  /-- `lookup_peer_ip` and `remove_route`, under the lock of the routing table -/
  | staleRoute (peerId : PeerId)
  | candidate (relayId : PeerId) (addr : SocketAddr)
  /-- `sessions.get_mut`, `encrypt` and `send_to`; there is a result if there is a session -/
  | send (s : Send)
  | tun (packet : Bytes)
  /-- a stage of a call on the peer manager; `rest` are the transitions of the same record that come next -/
  | call (c : PeerCall) (peerId : PeerId) (rest : List PeerState)
  /-- a setter through a handle, if there is one -/
  | set (o : Option ℕ) (f : PeerSetter)

namespace Shared

/-- What follows a stage of a call: the next stage, the next transition, or the handle that the call returns. -/
def afterCall (peerId : PeerId) : List PeerState → PeerCall → Op ⊕ Option ℕ
  | [], .returned _ o => .inr (some o)
  | [], .finished => .inr none
  | next :: rest, .returned _ _ | next :: rest, .finished => .inl (.call (.transitionPeer peerId next) peerId rest)
  | rest, c => .inl (.call c peerId rest)

def perform : Threads.Perform (Shared S) Op (Option ℕ)
  | .relayPath dst path, s =>
    ({ s with node := { s.node with
        engine := { s.node.engine with relayPaths := s.node.engine.relayPaths.insert dst path } } }, .inr none)
  | .route overlay peerId, s =>
    ({ s with node := { s.node with engine := s.node.engine.addRoute overlay peerId } }, .inr none)
  | .staleRoute peerId, s => (s.setNode { s.node with engine := s.node.engine.removeStaleRoute peerId }, .inr none)
  | .candidate relayId addr, s =>
    ({ s with node := { s.node with
        engine := { s.node.engine with relayCandidates := s.node.engine.relayCandidates.insert relayId addr } } },
      .inr none)
  | .send m, s =>
    let sent := s.node.engine.transmitOne m
    ({ s.setNode { s.node with engine := sent.1 } with out := s.out ++ sent.2 },
      .inr (if m.peer ∈ s.node.engine.sessions then some 0 else none))
  | .tun packet, s => ({ s with tun := s.tun ++ [packet] }, .inr none)
  | .call c peerId rest, s =>
    (s.setRecords (s.records.perform c).1, afterCall peerId rest (s.records.perform c).2)
  | .set o f, s =>
    match o with
    | some o => (s.setRecords (s.records.modify o f.apply), .inr none)
    | none => (s, .inr none)

/-! ### What an operation does to the tables -/

variable (w : Op) (s : Shared S)

theorem engine_staleRoute (peerId : PeerId) :
    (perform (.staleRoute peerId) s).1.node.engine = s.node.engine.removeStaleRoute peerId := by
  have hsame : (s.node.engine.removeStaleRoute peerId).peerMgr = s.node.engine.peerMgr := by
    unfold Engine.removeStaleRoute
    split <;> rfl
  exact congrArg Node.engine (s.setNode_node (n := { s.node with engine := s.node.engine.removeStaleRoute peerId }) hsame)

theorem engine_send (m : Send) : (perform (.send m) s).1.node.engine = (s.node.engine.transmitOne m).1 :=
  congrArg Node.engine (s.setNode_node (n := { s.node with engine := (s.node.engine.transmitOne m).1 })
    (Engine.sameTables_transmitOne m).peerMgr)

/-- No operation concerns the handshakes. -/
theorem completion_perform (who : Option ℕ) : (perform w s).1.node.completion who = s.node.completion who := by
  cases w with
  | set o f => cases o <;> rfl
  | relayPath | route | staleRoute | candidate | send | tun | call => rfl

theorem sameSessions_perform : s.node.engine.SameSessions (perform w s).1.node.engine := by
  cases w with
  | send m =>
      rw [engine_send]
      exact Engine.sameSessions_transmitOne m
  | staleRoute peerId =>
      rw [engine_staleRoute, Engine.removeStaleRoute]
      split <;> exact ⟨rfl, rfl, rfl, rfl, rfl, fun _ => rfl⟩
  | set o f => cases o <;> exact ⟨rfl, rfl, rfl, rfl, rfl, fun _ => rfl⟩
  | relayPath | route | candidate | tun | call => exact ⟨rfl, rfl, rfl, rfl, rfl, fun _ => rfl⟩

theorem relayPaths_perform : (perform w s).1.node.engine.relayPaths =
    match w with
    | .relayPath dst path => s.node.engine.relayPaths.insert dst path
    | _ => s.node.engine.relayPaths := by
  cases w with
  | send m =>
      rw [engine_send]
      exact (Engine.sameTables_transmitOne m).relayPaths
  | staleRoute peerId =>
      rw [engine_staleRoute, Engine.removeStaleRoute]
      split <;> rfl
  | set o f => cases o <;> rfl
  | relayPath | route | candidate | tun | call => rfl

theorem routingTable_perform : (perform w s).1.node.engine.routingTable =
    match w with
    | .route overlay peerId => s.node.engine.routingTable.addRoute overlay peerId
    | .staleRoute peerId => (s.node.engine.removeStaleRoute peerId).routingTable
    | _ => s.node.engine.routingTable := by
  cases w with
  | send m =>
      rw [engine_send]
      exact (Engine.sameTables_transmitOne m).routingTable
  | staleRoute peerId => rw [engine_staleRoute]
  | set o f => cases o <;> rfl
  | relayPath | route | candidate | tun | call => rfl

theorem records_perform : (perform w s).1.records =
    match w with
    | .call c _ _ => (s.records.perform c).1
    | .set (some o) f => s.records.modify o f.apply
    | _ => s.records := by
  cases w with
  | set o f => cases o <;> rfl
  | relayPath | route | staleRoute | candidate | send | tun | call => rfl

end Shared

end SeedNet
