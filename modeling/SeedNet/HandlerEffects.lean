import SeedNet.Handlers
import SeedNet.Outbound

/-! # What handlers do to the tables

One inversion lemma for each handler that changes more than one table: the entries of a directory, the
two messages of the relay set-up, `SessionInit` and the packets of the outbound loop.  Invariants of the
engine's tables are proved from these. -/

namespace SeedNet.Engine

variable {τ : Type} (blake3 : Blake3) (e : Engine τ)

/-! ### Names for the updates -/

/-- A peer that a directory names: its record and its public address. -/
def notePeer (peerId : PeerId) (pubAddr : SocketAddr) : Engine τ :=
  { e with
    peerMgr := (e.peerMgr.discover peerId pubAddr).update peerId fun p => { p with publicAddr := some pubAddr } }

/-- A relay path, and the route of its destination. -/
def addRelayPath (dst relayId : PeerId) (hops : UInt8) : Engine τ :=
  { e with relayPaths := e.relayPaths.insert dst (relayId, hops) }.addDerivedRoute blake3 dst

def addRoute (overlay : OverlayAddr) (peerId : PeerId) : Engine τ :=
  { e with routingTable := e.routingTable.addRoute overlay peerId }

@[simp] theorem lookup_addRelayPath (dst relayId p : PeerId) (hops : UInt8) :
    (e.addRelayPath blake3 dst relayId hops).relayPaths.lookup p =
      if p = dst then some (relayId, hops) else e.relayPaths.lookup p :=
  Map.lookup_insert ..

theorem mem_addRelayPath {dst relayId p : PeerId} {hops : UInt8} :
    p ∈ (e.addRelayPath blake3 dst relayId hops).relayPaths ↔ p = dst ∨ p ∈ e.relayPaths :=
  AList.mem_insert _

/-! ### Directories -/

/-- The path that an entry offers is better than the one in the table. -/
def Better (entry : DirectoryEntry) : Prop :=
  ∀ path ∈ e.relayPaths.lookup entry.1, saturatingAdd entry.2.2 1 < path.2

instance (entry : DirectoryEntry) : Decidable (e.Better entry) := Option.decidableForallMem (e.relayPaths.lookup entry.1)

/-- What an entry of a directory from the relay `rid` does. -/
inductive EntryEffect (rid : PeerId) (entry : DirectoryEntry) : Engine τ → Prop
  | skipped : EntryEffect rid entry e
  | noted (hself : entry.1 ≠ e.ourPeerId) : EntryEffect rid entry (e.notePeer entry.1 entry.2.1)
  | learned (hself : entry.1 ≠ e.ourPeerId) (hdirect : entry.1 ∉ e.sessions) (hbetter : e.Better entry) :
      EntryEffect rid entry
        ((e.notePeer entry.1 entry.2.1).addRelayPath blake3 entry.1 rid (saturatingAdd entry.2.2 1))

theorem directoryEntry_effect (rid : PeerId) (entry : DirectoryEntry) :
    EntryEffect blake3 e rid entry (e.directoryEntry blake3 rid entry).1 := by
  obtain ⟨pid, pubAddr, hopCount⟩ := entry
  unfold directoryEntry
  dsimp only
  split
  · exact .skipped
  · next hself =>
      split
      · exact .noted hself
      · next hdirect =>
          split
          · next hupdate =>
              refine .learned hself hdirect fun path hpath => ?_
              rw [Option.mem_def.mp hpath] at hupdate
              exact of_decide_eq_true hupdate
          · exact .noted hself

/-- Only requests are sent for an entry. -/
theorem directoryEntry_sends (rid : PeerId) (entry : DirectoryEntry) :
    ∀ s ∈ (e.directoryEntry blake3 rid entry).2, s.msg = .relayRequest entry.1 := by
  obtain ⟨pid, pubAddr, hopCount⟩ := entry
  unfold directoryEntry
  dsimp only
  split_ifs <;> simp

/-- Only requests are sent for the entries. -/
theorem directoryEntries_sends (rid : PeerId) (entries : List DirectoryEntry) (e : Engine τ) :
    ∀ s ∈ (directoryEntries blake3 rid e entries).2, ∃ d, s.msg = .relayRequest d := by
  induction entries generalizing e with
  | nil => simp [directoryEntries]
  | cons entry entries ih =>
      intro s hs
      rcases List.mem_append.mp hs with hs | hs
      · exact ⟨entry.1, directoryEntry_sends blake3 e rid entry s hs⟩
      · exact ih _ s hs

variable {blake3} {e}

/-- What every noted peer and every learned path of a directory preserves, the directory preserves. -/
theorem directoryEntries_induction {P : Engine τ → Prop} {rid : PeerId} {entries : List DirectoryEntry}
    (hnote : ∀ e, ∀ entry ∈ entries, P e → entry.1 ≠ e.ourPeerId → P (e.notePeer entry.1 entry.2.1))
    (hlearn : ∀ e, ∀ entry ∈ entries, P e → entry.1 ≠ e.ourPeerId → entry.1 ∉ e.sessions → e.Better entry →
      P ((e.notePeer entry.1 entry.2.1).addRelayPath blake3 entry.1 rid (saturatingAdd entry.2.2 1)))
    (h : P e) : P (directoryEntries blake3 rid e entries).1 := by
  induction entries generalizing e with
  | nil => exact h
  | cons entry entries ih =>
      have hentry : P (e.directoryEntry blake3 rid entry).1 := by
        have heff := directoryEntry_effect blake3 e rid entry
        generalize (e.directoryEntry blake3 rid entry).1 = e' at heff
        cases heff with
        | skipped => exact h
        | noted hself => exact hnote e entry List.mem_cons_self h hself
        | learned hself hdirect hbetter => exact hlearn e entry List.mem_cons_self h hself hdirect hbetter
      exact ih (fun e entry' he => hnote e entry' (List.mem_cons_of_mem _ he))
        (fun e entry' he => hlearn e entry' (List.mem_cons_of_mem _ he)) hentry

theorem handlePeerDirectory_induction {P : Engine τ → Prop} {fromAddr : TransportAddr} {entries : List DirectoryEntry}
    (hnote : ∀ e, ∀ entry ∈ entries, P e → entry.1 ≠ e.ourPeerId → P (e.notePeer entry.1 entry.2.1))
    (hlearn : ∀ rid, e.addrIndex.lookup fromAddr = some rid → ∀ e, ∀ entry ∈ entries, P e →
      entry.1 ≠ e.ourPeerId → entry.1 ∉ e.sessions → e.Better entry →
        P ((e.notePeer entry.1 entry.2.1).addRelayPath blake3 entry.1 rid (saturatingAdd entry.2.2 1)))
    (h : P e) : P (e.handlePeerDirectory blake3 fromAddr entries).engine := by
  unfold handlePeerDirectory
  cases hfrom : e.addrIndex.lookup fromAddr with
  | none => exact h
  | some rid =>
      have hall : P (e.directoryEntries blake3 rid entries).1 :=
        directoryEntries_induction hnote (hlearn rid hfrom) h
      dsimp only
      split <;> exact hall

/-! ### Relay set-up -/

variable (blake3) (e)

/-- A node with fewer than two sessions takes the requester as its relay. -/
theorem handleRelayRequest_engine (fromAddr : TransportAddr) (dst : PeerId) :
    (∃ rid, e.sessions.len < 2 ∧ e.addrIndex.lookup fromAddr = some rid ∧
        (e.handleRelayRequest blake3 fromAddr dst).engine = e.addRelayPath blake3 dst rid 1) ∨
      ¬ (e.sessions.len < 2 ∧ fromAddr ∈ e.addrIndex) ∧ (e.handleRelayRequest blake3 fromAddr dst).engine = e := by
  by_cases hlen : 2 ≤ e.sessions.len
  · refine .inr ⟨fun h => absurd h.1 (by omega), ?_⟩
    rw [handleRelayRequest, if_pos hlen]
    split
    · rfl
    · split
      · rfl
      · split <;> rfl
  · cases hfrom : e.addrIndex.lookup fromAddr with
    | none =>
        refine .inr ⟨fun h => absurd h.2 (AList.lookup_eq_none.mp hfrom), ?_⟩
        rw [handleRelayRequest, if_neg hlen, hfrom]
    | some rid =>
        refine .inl ⟨rid, by omega, rfl, ?_⟩
        rw [handleRelayRequest, if_neg hlen, hfrom]
        rfl

/-! ### Session initialisation -/

theorem handleSessionInit_engine (fromAddr : TransportAddr) (overlay : OverlayAddr) (overlayIpv6 : Option Ipv6Addr)
    (hostname : String) (publicAddr : Option SocketAddr) :
    (e.handleSessionInit fromAddr overlay overlayIpv6 hostname publicAddr).engine =
      match e.addrIndex.lookup fromAddr with
      | some peerId => (e.addRoute overlay peerId).setPeerInfo peerId overlayIpv6 hostname publicAddr
      | none => e := by
  unfold handleSessionInit
  cases e.addrIndex.lookup fromAddr <;> rfl

/-! ### The outbound loop -/

/-- A packet changes at most the routes, and only for a peer without session and relay path. -/
theorem handleTunPacket_engine (candidate : Option PeerId) (packet : Bytes) :
    (e.handleTunPacket candidate packet).engine = e ∨
      ∃ peerId, e.routingTable.lookup (packetDst packet) = some peerId ∧ peerId ∉ e.sessions ∧
        (e.handleTunPacket candidate packet).engine = e.removeStaleRoute peerId := by
  unfold handleTunPacket
  split
  · exact .inl rfl
  · split
    · exact .inl rfl
    · split
      · exact .inl rfl
      · next peerId hroute =>
          unfold routePacket
          split
          · exact .inl rfl
          · next hdirect =>
              split
              · exact .inl rfl
              · exact .inr ⟨peerId, hroute, hdirect, rfl⟩

/-- A packet leaves everything but the routes alone. -/
theorem handleTunPacket_routes (candidate : Option PeerId) (packet : Bytes) :
    ∃ t, (e.handleTunPacket candidate packet).engine = { e with routingTable := t } := by
  rcases e.handleTunPacket_engine candidate packet with heng | ⟨peerId, -, -, heng⟩
  · exact ⟨e.routingTable, heng⟩
  · rw [heng, removeStaleRoute]
    split
    · exact ⟨_, rfl⟩
    · exact ⟨e.routingTable, rfl⟩

end SeedNet.Engine
