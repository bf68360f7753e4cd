import SeedNet.Host

/-! # Direct paths and relay paths

The outbound loop prefers a session to a relay path; the health check and `peers.json` report a relay
whenever there is a relay path.  They agree as long as no peer has both, which both handshake roles and
the handler of directories see to.  The handlers of `RelayReady` and `RelayRequest` do not look
for a session.

The handlers run beside the handshakes, operation by operation: a directory is checked against the sessions before
its path is written, and a session may be stored in between.  `direct_beats_relay_iff`: a run keeps the two tables
apart exactly if no relay path of a peer with a session is written, and no session of a peer with a relay path. -/

namespace SeedNet

open Run (exec Along)

namespace Engine

variable {τ : Type} (e : Engine τ)

/-! ### The path of a peer -/

/-- `connection`, `relay_via` and `relay_hops` of a peer's entry in `peers.json`. -/
def connection (peerId : PeerId) : String × Option PeerId × UInt8 :=
  match e.relayPaths.lookup peerId with
  | some (relayId, hops) => ("relay", some relayId, hops)
  | none => ("direct", none, 0)

/-- The message that carries a packet for `peerId` over a path. -/
def carry (packet : Bytes) (peerId : PeerId) : PathKind → Send
  | .direct => { peer := peerId, msg := .data packet }
  | .relay relayId =>
    { peer := relayId, msg := .relayData e.ourPeerId peerId (serializeMessage (.data packet)) }

/-- No peer has both a session and a relay path. -/
def Exclusive : Prop := ∀ p, p ∈ e.sessions → p ∉ e.relayPaths

/-- A packet for a peer that can be reached takes the path that the health check and `peers.json`
report for this peer. -/
def ReportsUsedPath : Prop :=
  ∀ p, p ∈ e.sessions ∨ p ∈ e.relayPaths → ∀ candidate packet,
    (e.routePacket candidate packet p).sends = [e.carry packet p (e.pathKind p)] ∧
      ((e.connection p).1 = "direct" ↔ p ∈ e.sessions)

/-- Direct beats relay. -/
structure DirectBeatsRelay : Prop where
  exclusive : e.Exclusive
  reports : e.ReportsUsedPath

variable {e}

theorem Exclusive.reports (h : e.Exclusive) : e.ReportsUsedPath := by
  intro p hp candidate packet
  by_cases hs : p ∈ e.sessions
  · have hnone : e.relayPaths.lookup p = none := AList.lookup_eq_none.mpr (h p hs)
    simp only [routePacket, hs, if_true, pathKind, connection, hnone, carry, and_self]
  · have hr : p ∈ e.relayPaths := hp.resolve_left hs
    obtain ⟨⟨relayId, hops⟩, hpath⟩ := Map.mem_iff_lookup.mp hr
    simp only [routePacket, hs, if_false, pathKind, connection, hpath, carry, true_and, iff_false]
    decide

theorem directBeatsRelay_iff : e.DirectBeatsRelay ↔ e.Exclusive := ⟨fun h => h.exclusive, fun h => ⟨h, h.reports⟩⟩

end Engine

/-! ### The condition -/

/-- The operation gives no peer with a session a relay path. -/
def Op.KeepsExclusive {S : Snow} (e : Engine (SecureTransport S)) : Op → Prop
  | .relayPath dst _ => dst ∉ e.sessions
  | _ => True

/-- The update stores no session of a peer with a relay path. -/
def Update.KeepsExclusive {S : Snow} (e : Engine (SecureTransport S)) : Update S → Prop
  | .complete c => c.stage = .session → c.peerId ∉ e.relayPaths
  | _ => True

/-- The step gives no peer with a session a relay path, and no peer with a relay path a session. -/
def Host.KeepsExclusive {S : Snow} (h : Host S) : HostAction S → Prop
  | .run t => ∀ w ∈ h.nextOp t, w.KeepsExclusive h.engine
  | .loop a => (h.loopUpdate a).KeepsExclusive h.engine

instance {S : Snow} (e : Engine (SecureTransport S)) (w : Op) : Decidable (w.KeepsExclusive e) := by
  unfold Op.KeepsExclusive
  split <;> infer_instance

instance {S : Snow} (e : Engine (SecureTransport S)) (u : Update S) : Decidable (u.KeepsExclusive e) := by
  unfold Update.KeepsExclusive
  split <;> infer_instance

instance {S : Snow} (h : Host S) : ∀ a : HostAction S, Decidable (h.KeepsExclusive a)
  | .run t => Option.decidableForallMem (h.nextOp t)
  | .loop a => inferInstanceAs (Decidable ((h.loopUpdate a).KeepsExclusive h.engine))

namespace Engine

section

variable {τ : Type} {e e' : Engine τ}

theorem Exclusive.congr (h : e.Exclusive) (hs : ∀ p, p ∈ e'.sessions ↔ p ∈ e.sessions)
    (hr : e'.relayPaths = e.relayPaths) : e'.Exclusive := by
  intro p hp
  rw [hr]
  exact h p ((hs p).mp hp)

theorem exclusive_insertPath_iff (h : e.Exclusive) {dst : PeerId} {path : PeerId × UInt8}
    (hs : ∀ p, p ∈ e'.sessions ↔ p ∈ e.sessions) (hr : e'.relayPaths = e.relayPaths.insert dst path) :
    dst ∉ e.sessions ↔ e'.Exclusive := by
  constructor
  · intro hdst p hp hmem
    rw [hr] at hmem
    rcases (AList.mem_insert _).mp hmem with rfl | hpath
    · exact hdst ((hs p).mp hp)
    · exact h p ((hs p).mp hp) hpath
  · intro hnew hdst
    refine hnew dst ((hs dst).mpr hdst) ?_
    rw [hr]
    exact (AList.mem_insert _).mpr (.inl rfl)

theorem exclusive_insertSession_iff (h : e.Exclusive) (peerId : PeerId) (transport : τ) (underlay : TransportAddr) :
    peerId ∉ e.relayPaths ↔ (e.insertSession peerId transport underlay).Exclusive := by
  constructor
  · intro hpath p hp
    rcases (AList.mem_insert _).mp hp with rfl | hs
    · exact hpath
    · exact h p hs
  · intro hnew
    exact hnew peerId ((AList.mem_insert _).mpr (.inl rfl))

end

variable {S : Snow} {e e' : Engine (SecureTransport S)} (blake3 : Blake3)

theorem SameTables.exclusive (h : e.SameTables e') (he : e.Exclusive) : e'.Exclusive :=
  he.congr h.mem h.relayPaths

theorem SameTables.keepsExclusive (h : e.SameTables e') (u : Update S) : u.KeepsExclusive e' ↔ u.KeepsExclusive e := by
  cases u with
  | complete c => rw [Update.KeepsExclusive, Update.KeepsExclusive, h.relayPaths]
  | _ => rfl

theorem exclusive_complete_iff (h : e.Exclusive) (c : Completion S) :
    (Update.complete c).KeepsExclusive e ↔ (c.run blake3 e).1.Exclusive := by
  rw [Update.KeepsExclusive, Completion.run]
  cases hstage : c.stage with
  | session => simpa using exclusive_insertSession_iff h c.peerId c.transport c.underlay
  | relayPath =>
      refine iff_of_true (fun hne => absurd hne (by decide)) fun p hp hmem => ?_
      exact h p hp (AList.mem_erase.mp hmem).2
  | addrIndex | route | register => exact iff_of_true (fun hne => absurd hne (by decide)) h
  | sessionInit | announce | directories =>
      exact iff_of_true (fun hne => absurd hne (by decide)) ((sameTables_transmit _ e).exclusive h)

end Engine

namespace Host

variable {S : Snow} (blake3 : Blake3) {h : Host S}

/-- A step keeps the two tables apart exactly if it meets the condition. -/
theorem exclusive_iff (hx : h.engine.Exclusive) (a : HostAction S) :
    h.KeepsExclusive a ↔ (h.next blake3 a).engine.Exclusive := by
  cases a with
  | run t =>
      cases hop : h.nextOp t with
      | none =>
          rw [engine_run_none blake3 hop, KeepsExclusive, hop]
          exact iff_of_true (fun w hw => by cases hw) hx
      | some w =>
          have hs := (Shared.sameSessions_perform w h.shared).mem
          have hr := Shared.relayPaths_perform w h.shared
          rw [engine_run_some blake3 hop, KeepsExclusive, hop]
          simp only [Option.mem_some_iff, forall_eq']
          cases w with
          | relayPath dst path => exact Engine.exclusive_insertPath_iff hx hs hr
          | route | staleRoute | candidate | send | tun | call | set => exact iff_of_true trivial (hx.congr hs hr)
  | loop a =>
      obtain ⟨e, hbefore, hafter⟩ := tables_loop blake3 (h := h) a
      have hxe : e.Exclusive := hbefore.exclusive hx
      have hmain : (h.loopUpdate a).KeepsExclusive e ↔ ((h.loopUpdate a).apply blake3 e).Exclusive := by
        have helementary := elementary_loopUpdate (h := h) a
        cases hu : h.loopUpdate a with
        | complete c => exact Engine.exclusive_complete_iff blake3 hxe c
        | removeSession peerId => exact iff_of_true trivial fun p hp => hxe p (AList.mem_erase.mp hp).2
        | none | removeAddrIndex | relayFlag | stunAddr => exact iff_of_true trivial hxe
        | message | tunPacket | healthcheck =>
            rw [hu] at helementary
            exact helementary.elim
      rw [KeepsExclusive, ← hbefore.keepsExclusive, hmain]
      exact ⟨fun hy => hafter.exclusive hy, fun hy => hafter.symm.exclusive hy⟩

end Host

/-- **Direct beats relay.**  The runs of an engine that never leave this property are those in which no relay path of a
peer with a session is written, and no session of a peer with a relay path. -/
theorem direct_beats_relay_iff {S : Snow} (blake3 : Blake3) (h : Host S) (hinit : h.Initial)
    (as : List (HostAction S)) :
    Along (Host.next blake3) Host.KeepsExclusive h as ↔
      ∀ bs, bs <+: as → (exec (Host.next blake3) h bs).engine.DirectBeatsRelay := by
  have hstart : h.engine.Exclusive := by
    have hnone : h.engine.sessions = ∅ := hinit.node.sessions
    intro p hp
    rw [hnone] at hp
    exact absurd hp (AList.notMem_empty p)
  simp only [Engine.directBeatsRelay_iff]
  exact Run.along_iff_invariant (I := fun h : Host S => h.engine.Exclusive) (fun h a hx => Host.exclusive_iff blake3 hx a)
    hstart as

open Transparent in
/-- A peer is first reached over a relay, and then directly. -/
theorem direct_beats_relay_upgrade : (exec (Host.next blake3) (host 1) (atOnce upgrade)).engine.DirectBeatsRelay :=
  (direct_beats_relay_iff blake3 (host 1) (host_initial 1) (atOnce upgrade)).mp (by decide +kernel) _ List.prefix_rfl

open Transparent in
/-- Peers 7 and 8 complete a handshake each; then 8 says that it relays to 7.  Packets for 7 still go
over its session, and the health check reports the relay. -/
theorem direct_and_relayed :
    ¬ ∀ (blake3 : Blake3) (h : Host transparent), h.Initial → ∀ as : List (HostAction transparent),
      (exec (Host.next blake3) h as).engine.DirectBeatsRelay := by
  intro h
  let late : List (NodeAction transparent) :=
    handshakeFrom 7 (addr 2) 3 4 ++ handshakeFrom 8 (addr 5) 13 14 ++
      [messageFrom (addr 5) 13 14 0 (.relayReady (.replicate 8) (.replicate 7) 1)]
  have hboth := (h blake3 (host 1) (host_initial 1) (atOnce late)).exclusive (.replicate 7)
  exact hboth (by decide +kernel) (by decide +kernel)

end SeedNet
