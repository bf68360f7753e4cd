import SeedNet.Loops
import SeedNet.TransparentNode

/-! # The health check, one map operation after another

`Engine.healthcheck` runs as one step.  In `SeedNetEngine::run` of `crates/core/src/lib.rs` it is a task of its own,
and the other tasks run between its operations on the maps: it looks the peer up, asks whether there is a relay path,
reads the path and unwraps it.  `HealthState.next` interleaves these operations with the steps of the loops.

Without such steps in between the two agree (`visit_uninterrupted`), as do the entries of a directory and its handler
(`exec_entries`).  With them, a handshake with the peer may remove the path after the question:
`healthcheck_unwraps_iff` says that nothing else makes the unwrap fail. -/

namespace SeedNet

open Run (exec Along)

variable {S : Snow}

/-! ### Operations -/

/-- The next operation of the health check. -/
inductive HealthStage where
  /-- on to another session -/
  | idle
  /-- `peer_mgr.get` -/
  | get (peerId : PeerId)
  /-- `relay_paths.contains_key` -/
  | containsKey (peerId : PeerId)
  /-- `relay_paths.get`, of which the result is unwrapped -/
  | unwrap (peerId : PeerId)
  /-- `peer.set_path_kind` -/
  | setPathKind (peerId : PeerId) (newPath : PathKind)
  | panicked
deriving DecidableEq

/-- A node, and how far its health check is. -/
structure HealthState (S : Snow) where
  node : Node S
  health : HealthStage := .idle

/-- A step of a loop, or the next operation of the health check. -/
inductive HealthAction (S : Snow) where
  | loop (a : LoopAction S)
  /-- an entry of a directory from the relay `rid`, of which the inbound loop handles one after the other -/
  | entry (rid : PeerId) (entry : DirectoryEntry)
  | check

namespace HealthState

variable (blake3 : Blake3) (s : HealthState S)

/-- The iterator yields the session of `peerId`: a ping is encrypted and sent. -/
def visit (nowMs : UInt64) (peerId : PeerId) : HealthState S :=
  if s.health = .idle ∧ peerId ∈ s.node.engine.sessions then
    { node := (s.node.react { engine := s.node.engine, sends := [{ peer := peerId, msg := .ping nowMs }] }).node
      health := .get peerId }
  else s

def setPathKind (peerId : PeerId) (newPath : PathKind) : HealthState S where
  node := { s.node with
    engine := { s.node.engine with
      peerMgr := s.node.engine.peerMgr.update peerId fun p => { p with pathKind := newPath } } }
  health := .idle

/-- The next operation on a map. -/
def check : HealthState S :=
  match s.health with
  | .idle | .panicked => s
  | .get peerId => { s with health := if peerId ∈ s.node.engine.peerMgr.peers then .containsKey peerId else .idle }
  | .containsKey peerId =>
    { s with health := if peerId ∈ s.node.engine.relayPaths then .unwrap peerId else .setPathKind peerId .direct }
  | .unwrap peerId =>
    match s.node.engine.relayPaths.lookup peerId with
    | some (relayId, _) => { s with health := .setPathKind peerId (.relay relayId) }
    | none => { s with health := .panicked }
  | .setPathKind peerId newPath => s.setPathKind peerId newPath

def next : HealthAction S → HealthState S
  | .loop (.healthcheck nowMs peerId) => s.visit nowMs peerId
  | .loop a => { s with node := s.node.loopNext blake3 a }
  | .entry rid entry =>
    let (e, sends) := s.node.engine.directoryEntry blake3 rid entry
    { s with node := (s.node.react { engine := e, sends := sends }).node }
  | .check => s.check

/-! ### Without interruption -/

theorem check_get (n : Node S) (peerId : PeerId) : check ⟨n, .get peerId⟩ =
    ⟨n, if peerId ∈ n.engine.peerMgr.peers then .containsKey peerId else .idle⟩ := rfl

theorem check_containsKey (n : Node S) (peerId : PeerId) : check ⟨n, .containsKey peerId⟩ =
    ⟨n, if peerId ∈ n.engine.relayPaths then .unwrap peerId else .setPathKind peerId .direct⟩ := rfl

theorem check_unwrap_some {n : Node S} {peerId relayId : PeerId} {hops : UInt8}
    (h : n.engine.relayPaths.lookup peerId = some (relayId, hops)) :
    check ⟨n, .unwrap peerId⟩ = ⟨n, .setPathKind peerId (.relay relayId)⟩ := by
  simp only [check, h]

theorem check_unwrap_none {n : Node S} {peerId : PeerId} (h : n.engine.relayPaths.lookup peerId = none) :
    check ⟨n, .unwrap peerId⟩ = ⟨n, .panicked⟩ := by
  simp only [check, h]

theorem transmit_setPeerMgr (m : PeerManager) (sends : List Send) (e : Engine (SecureTransport S)) :
    { e with peerMgr := m }.transmit sends = ({ (e.transmit sends).1 with peerMgr := m }, (e.transmit sends).2) := by
  have hself : e.transmit sends = ({ e with sessions := (e.transmit sends).1.sessions }, (e.transmit sends).2) :=
    Engine.transmit_of_sessions rfl sends
  have hsame : { e with peerMgr := m }.sessions = e.sessions := rfl
  refine (Engine.transmit_of_sessions hsame sends).trans (Prod.ext ?_ rfl)
  exact congrArg (fun e => { e with peerMgr := m }) (congrArg Prod.fst hself).symm

/-- The operations one after the other set the path kind that there is. -/
theorem exec_check (n : Node S) (peerId : PeerId) :
    exec (next blake3) ⟨n, .get peerId⟩ [.check, .check, .check, .check] =
      setPathKind ⟨n, .idle⟩ peerId (n.engine.pathKind peerId) := by
  simp only [Run.exec_cons, Run.exec_nil, next, check_get]
  by_cases hp : peerId ∈ n.engine.peerMgr.peers
  · simp only [if_pos hp, check_containsKey]
    cases hr : n.engine.relayPaths.lookup peerId with
    | none => simp only [if_neg (AList.lookup_eq_none.mp hr), Engine.pathKind, hr]; rfl
    | some path =>
        have hmem : peerId ∈ n.engine.relayPaths := Map.mem_iff_lookup.mpr ⟨path, hr⟩
        simp only [if_pos hmem, check_unwrap_some hr, Engine.pathKind, hr]
        rfl
  · have hnone : n.engine.peerMgr.get peerId = none := AList.lookup_eq_none.mpr hp
    simp only [if_neg hp, setPathKind, PeerManager.update, hnone]
    rfl

/-- A visit after which the operations follow at once is the step of the loops. -/
theorem visit_uninterrupted (n : Node S) (nowMs : UInt64) (peerId : PeerId) :
    exec (next blake3) ⟨n, .idle⟩ [.loop (.healthcheck nowMs peerId), .check, .check, .check, .check] =
      ⟨n.loopNext blake3 (.healthcheck nowMs peerId), .idle⟩ := by
  rw [Run.exec_cons, next, visit]
  by_cases hs : peerId ∈ n.engine.sessions
  · rw [if_pos ⟨rfl, hs⟩, exec_check]
    have hsame := Engine.sameTables_transmit [{ peer := peerId, msg := .ping nowMs }] n.engine
    simp only [setPathKind, Node.loopNext, Node.loopStep, Node.react, Engine.healthcheck, if_pos hs,
      transmit_setPeerMgr, Engine.pathKind, hsame.relayPaths, hsame.peerMgr]
  · rw [if_neg fun h => hs h.2]
    simp only [Node.loopNext, Node.loopStep, Node.react, Engine.healthcheck, if_neg hs]
    rfl

theorem sameTables_directoryEntry {e e' : Engine (SecureTransport S)} (h : e.SameTables e') (rid : PeerId)
    (entry : DirectoryEntry) :
    (e.directoryEntry blake3 rid entry).1.SameTables (e'.directoryEntry blake3 rid entry).1 := by
  obtain ⟨pid, pubAddr, hopCount⟩ := entry
  simp only [Engine.directoryEntry, Engine.addDerivedRoute, h.ourPeerId, h.peerMgr, h.relayPaths, h.routingTable,
    h.mem]
  split_ifs
  · exact h
  all_goals
    exact ⟨⟨rfl, h.addrIndex, h.canRelayFlag, h.stunAddr, h.sessionInit, h.sessions⟩, h.relayCandidates, rfl, rfl,
      rfl⟩

/-- The entries one after the other are the loop of the handler, up to the counters of the sessions. -/
theorem exec_entries (rid : PeerId) (entries : List DirectoryEntry) {e : Engine (SecureTransport S)}
    (s : HealthState S) (h : e.SameTables s.node.engine) :
    (Engine.directoryEntries blake3 rid e entries).1.SameTables
      (exec (next blake3) s (entries.map (.entry rid))).node.engine := by
  induction entries generalizing e s with
  | nil => exact h
  | cons entry entries ih =>
      have hentry : (e.directoryEntry blake3 rid entry).1.SameTables (s.next blake3 (.entry rid entry)).node.engine :=
        (sameTables_directoryEntry blake3 h rid entry).trans (Engine.sameTables_transmit _ _)
      exact ih _ hentry

end HealthState

/-! ### Relay paths -/

namespace Update

/-- A handshake with `peerId` removes its relay path. -/
def RemovesPath (peerId : PeerId) : Update S → Prop
  | .complete c => c.stage = .relayPath ∧ c.peerId = peerId
  | _ => False

instance (peerId : PeerId) : ∀ u : Update S, Decidable (u.RemovesPath peerId)
  | .complete c => inferInstanceAs (Decidable (c.stage = .relayPath ∧ c.peerId = peerId))
  | .none | .message .. | .removeSession _ | .removeAddrIndex _ | .tunPacket .. | .healthcheck .. | .relayFlag _
  | .stunAddr _ => isFalse id

variable (blake3 : Blake3) {e : Engine (SecureTransport S)} {u : Update S} {peerId : PeerId}

theorem relayPath_removed (h : u.RemovesPath peerId) : peerId ∉ (u.apply blake3 e).relayPaths := by
  cases u with
  | complete c =>
      obtain ⟨hstage, rfl⟩ := h
      rw [apply, Completion.run, hstage]
      exact fun hmem => (AList.mem_erase.mp hmem).1 rfl
  | none | message | removeSession | removeAddrIndex | tunPacket | healthcheck | relayFlag | stunAddr => exact h.elim

/-- Only a handshake with the peer removes a relay path. -/
theorem relayPath_kept (h : peerId ∈ e.relayPaths) (hu : ¬ u.RemovesPath peerId) :
    peerId ∈ (u.apply blake3 e).relayPaths := by
  have herase : ∀ c, u = .complete c → c.stage = .relayPath → peerId ∈ e.relayPaths.erase c.peerId := by
    rintro c rfl hstage
    exact AList.mem_erase.mpr ⟨fun hp => hu ⟨hstage, hp.symm⟩, h⟩
  exact relayPaths_induction (P := (peerId ∈ ·)) (fun _ _ _ _ _ _ => (AList.mem_insert _).mpr (.inr h))
    (fun _ _ _ _ _ _ hm => (AList.mem_insert _).mpr (.inr hm)) herase h

end Update

theorem Node.relayPath_loopNext_iff (blake3 : Blake3) {n : Node S} {a : LoopAction S} {peerId : PeerId}
    (h : peerId ∈ n.engine.relayPaths) :
    peerId ∈ (n.loopNext blake3 a).engine.relayPaths ↔ ¬ (n.update a).RemovesPath peerId := by
  obtain ⟨e, hbefore, hafter⟩ := n.loopNext_tables blake3 a
  rw [hafter.relayPaths]
  refine ⟨fun hmem hu => Update.relayPath_removed blake3 hu hmem, fun hu => ?_⟩
  exact Update.relayPath_kept blake3 (hbefore.relayPaths ▸ h) hu

/-! ### The unwrap -/

/-- The peer of which the path is read next. -/
def HealthStage.unwraps : HealthStage → Option PeerId
  | .unwrap peerId => some peerId
  | _ => none

/-- The step does not remove a path that the health check has found and not yet read. -/
def HealthAction.KeepsFound (s : HealthState S) : HealthAction S → Prop
  | .loop a => ∀ peerId ∈ s.health.unwraps, ¬ (s.node.update a).RemovesPath peerId
  | _ => True

instance (s : HealthState S) : ∀ a : HealthAction S, Decidable (a.KeepsFound s)
  | .loop _ => Option.decidableForallMem s.health.unwraps
  | .entry .. | .check => isTrue trivial

namespace HealthState

variable (blake3 : Blake3) (s : HealthState S)

/-- The health check has not panicked, and its next operation does not panic either. -/
def Unwraps : Prop := s.health ≠ .panicked ∧ s.check.health ≠ .panicked

variable {s}

theorem unwraps_iff :
    s.Unwraps ↔ s.health ≠ .panicked ∧ ∀ peerId ∈ s.health.unwraps, peerId ∈ s.node.engine.relayPaths := by
  obtain ⟨n, health⟩ := s
  refine and_congr_right fun hp => ?_
  cases health with
  | idle | setPathKind => exact iff_of_true (fun h => by cases h) fun _ h => by cases h
  | panicked => exact absurd rfl hp
  | get peerId =>
      refine iff_of_true ?_ fun _ h => by cases h
      rw [check_get]
      split_ifs <;> exact HealthStage.noConfusion
  | containsKey peerId =>
      refine iff_of_true ?_ fun _ h => by cases h
      rw [check_containsKey]
      split_ifs <;> exact HealthStage.noConfusion
  | unwrap peerId =>
      cases hl : n.engine.relayPaths.lookup peerId with
      | none =>
          rw [check_unwrap_none hl]
          exact iff_of_false (fun h => h rfl) fun h => AList.lookup_eq_none.mp hl (h peerId rfl)
      | some path =>
          rw [check_unwrap_some hl]
          refine iff_of_true HealthStage.noConfusion ?_
          rintro _ ⟨⟩
          exact Map.mem_iff_lookup.mpr ⟨path, hl⟩

/-- The path that is asked for is the one that is read next. -/
theorem unwraps_check (h : s.Unwraps) : s.check.Unwraps := by
  rw [unwraps_iff]
  refine ⟨h.2, ?_⟩
  obtain ⟨n, health⟩ := s
  cases health with
  | idle | setPathKind | panicked => exact fun _ h => by cases h
  | get peerId =>
      rw [check_get]
      split_ifs <;> exact fun _ h => by cases h
  | containsKey peerId =>
      rw [check_containsKey]
      split_ifs with hmem
      · rintro _ ⟨⟩
        exact hmem
      · exact fun _ h => by cases h
  | unwrap peerId =>
      rw [check]
      dsimp only
      split <;> exact fun _ h => by cases h

theorem unwraps_visit (h : s.Unwraps) (nowMs : UInt64) (peerId : PeerId) : (s.visit nowMs peerId).Unwraps := by
  rw [visit]
  split_ifs
  · exact unwraps_iff.mpr ⟨HealthStage.noConfusion, fun _ h => by cases h⟩
  · exact h

/-- Entries of a directory only add paths. -/
theorem unwraps_entry (h : s.Unwraps) (rid : PeerId) (entry : DirectoryEntry) :
    (s.next blake3 (.entry rid entry)).Unwraps := by
  rw [unwraps_iff] at h ⊢
  refine ⟨h.1, fun peerId hpeer => ?_⟩
  have hpath := h.2 peerId hpeer
  have hkept : peerId ∈ (s.node.engine.directoryEntry blake3 rid entry).1.relayPaths := by
    have heff := Engine.directoryEntry_effect blake3 s.node.engine rid entry
    generalize (s.node.engine.directoryEntry blake3 rid entry).1 = e at heff
    cases heff with
    | skipped | noted => exact hpath
    | learned => exact (Engine.mem_addRelayPath blake3 _).mpr (.inr hpath)
  exact (Engine.sameTables_transmit _ _).relayPaths.symm ▸ hkept

theorem keepsFound_iff (a : HealthAction S) (h : s.Unwraps) : a.KeepsFound s ↔ (s.next blake3 a).Unwraps := by
  cases a with
  | check => exact iff_of_true trivial (unwraps_check h)
  | entry rid entry => exact iff_of_true trivial (unwraps_entry blake3 h rid entry)
  | loop a =>
      have hloop : HealthAction.KeepsFound s (.loop a) ↔ Unwraps ⟨s.node.loopNext blake3 a, s.health⟩ := by
        rw [unwraps_iff] at h ⊢
        rw [and_iff_right h.1]
        exact forall₂_congr fun peerId hpeer => (Node.relayPath_loopNext_iff blake3 (h.2 peerId hpeer)).symm
      cases a with
      | healthcheck nowMs peerId => exact iff_of_true (fun _ _ => id) (unwraps_visit h nowMs peerId)
      | task | tunPacket | relayFlag | stunAddr => exact hloop

/-- Nothing starts the task again: there are no more pings and no more path kinds. -/
theorem exec_panicked (h : s.health = .panicked) (as : List (HealthAction S)) :
    (exec (next blake3) s as).health = .panicked := by
  refine Run.exec_invariant (I := fun s : HealthState S => s.health = .panicked) (fun s a h => ?_) h as
  cases a with
  | check => rw [next, check, h]; exact h
  | entry => exact h
  | loop a =>
      cases a with
      | healthcheck => rw [next, visit, h, if_neg fun hidle => HealthStage.noConfusion hidle.1]; exact h
      | task | tunPacket | relayFlag | stunAddr => exact h

end HealthState

/-- **The health check does not unwrap a path that is missing** exactly if no handshake with the peer removes the path
after the health check has found it and before it reads it. -/
theorem healthcheck_unwraps_iff (blake3 : Blake3) (n : Node S) (as : List (HealthAction S)) :
    Along (HealthState.next blake3) (fun s a => a.KeepsFound s) ⟨n, .idle⟩ as ↔
      ∀ bs, bs <+: as → (exec (HealthState.next blake3) ⟨n, .idle⟩ bs).Unwraps :=
  Run.along_iff_invariant (fun s a h => HealthState.keepsFound_iff blake3 a h)
    (HealthState.unwraps_iff.mpr ⟨HealthStage.noConfusion, fun _ h => by cases h⟩) as

open Transparent in
/-- Peer 7 has a session and, since 8 relays to it, a relay path.  While the health check looks at it, a second
handshake with 7 completes. -/
theorem healthcheck_panics :
    ¬ ∀ (blake3 : Blake3) (n : Node transparent), n.Initial → ∀ as : List (HealthAction transparent),
      (exec (HealthState.next blake3) ⟨n, .idle⟩ as).health ≠ .panicked := by
  intro h
  let relayed : List (NodeAction transparent) :=
    handshakeFrom 7 (addr 2) 3 4 ++ handshakeFrom 8 (addr 5) 13 14 ++
      [messageFrom (addr 5) 13 14 0 (.relayReady (.replicate 8) (.replicate 7) 1)]
  let again : List (NodeAction transparent) :=
    [.receive (arrival (addr 6) 24 (messageA 23)), .receive (arrival (addr 6) 24 (messageC 7 1 23 24))]
  let checked : List (HealthAction transparent) := [.loop (.healthcheck 0 (.replicate 7)), .check, .check]
  refine h blake3 (roomyNode 1) ⟨rfl, rfl, rfl, rfl, rfl, rfl, rfl⟩
    ((relayed ++ again).map (.loop ∘ .task) ++ checked ++ [.loop (.task .inbound), .check]) ?_
  decide +kernel

end SeedNet
