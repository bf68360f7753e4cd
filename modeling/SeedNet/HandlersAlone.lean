import SeedNet.CallsAlone

/-! # Handlers without interruption

`Handlers.lean`, `Outbound.lean` and `Loops.lean` have each handler as one function, `HandlerThreads.lean` as a thread
of operations.  `Shared.Made` says what a thread has done so far, as a `Reaction` whose messages have been sent, and
each theorem `leads_…` that a handler without interruption makes the reaction of the function.

`Host.loop_alone` connects the two models: a step of a loop and the steps of its thread do what `Node.loopStep` does,
with the same messages in the same order. -/

namespace SeedNet

open Run (exec)
open Threads (Thread Pool)

variable {S : Snow}

/-! ### What a thread has done -/

namespace Shared

open Threads.Thread (Returns Leads)

/-- From `s₀` on, a thread has made the updates of `r`, sent its messages and written its packets. -/
structure Made (s₀ : Shared S) (r : Reaction (SecureTransport S)) (s : Shared S) : Prop where
  node : s.node = { s₀.node with engine := { r.engine with
    sessions := (s₀.node.engine.transmit r.sends).1.sessions
    peerMgr := s.records.manager } }
  sessions : r.engine.sessions = s₀.node.engine.sessions
  records : s.records.Shows r.engine.peerMgr
  out : s.out = s₀.out ++ (s₀.node.engine.transmit r.sends).2
  tun : s.tun = s₀.tun ++ r.tun

namespace Made

variable {s₀ s : Shared S} {r : Reaction (SecureTransport S)} (h : Made s₀ r s)

include h

theorem engine : s.node.engine = { r.engine with
    sessions := (s₀.node.engine.transmit r.sends).1.sessions
    peerMgr := s.records.manager } := by
  rw [h.node]

theorem sameSessions : r.engine.SameSessions s.node.engine := by
  have hsame := (Engine.sameTables_transmit r.sends s₀.node.engine).toSameSessions
  refine ⟨?_, ?_, ?_, ?_, ?_, fun p => ?_⟩
  iterate 5 rw [h.engine]
  · rfl
  · rw [h.engine, h.sessions]
    exact hsame.sessions p

theorem keys : s.node.engine.sessions.keys = r.engine.sessions.keys := by
  rw [h.engine, h.sessions]
  exact Engine.keys_transmit r.sends

theorem tellOthers (skip : PeerId) (entries : List DirectoryEntry) :
    s.node.engine.tellOthers skip entries = r.engine.tellOthers skip entries := by
  rw [Engine.tellOthers, Engine.otherPeers, h.keys]
  rfl

theorem directPeers (skip : PeerId) : s.node.engine.directPeers skip = r.engine.directPeers skip :=
  h.sameSessions.directPeers h.keys skip

theorem relayedPeers (skip : PeerId) (known : List DirectoryEntry) :
    s.node.engine.relayedPeers skip known = r.engine.relayedPeers skip known := by
  rw [Engine.relayedPeers, Engine.relayedPeers, h.engine]
  dsimp only
  refine List.filterMap_congr fun x _ => ?_
  rw [PeerTable.get_manager, h.records.peers]

/-! The operations. -/

/-- A change of other tables than sessions and records. -/
theorem change {s' : Shared S} {f : Engine (SecureTransport S) → Engine (SecureTransport S)}
    (hf : ∀ e ss m, f { e with sessions := ss, peerMgr := m } = { f e with sessions := ss, peerMgr := m })
    (hnode : s'.node = { s.node with engine := f s.node.engine }) (hrecords : s'.records = s.records)
    (hout : s'.out = s.out) (htun : s'.tun = s.tun) : Made s₀ { r with engine := f r.engine } s' := by
  have hself : f r.engine = { f r.engine with sessions := r.engine.sessions, peerMgr := r.engine.peerMgr } :=
    hf r.engine r.engine.sessions r.engine.peerMgr
  refine ⟨?_, ?_, ?_, hout.trans h.out, htun.trans h.tun⟩
  · rw [hnode, h.node, hf, hrecords]
  · exact (congrArg Engine.sessions hself).trans h.sessions
  · have hpeers : (f r.engine).peerMgr = r.engine.peerMgr := (congrArg Engine.peerMgr hself).trans rfl
    rw [hrecords, hpeers]
    exact h.records

theorem relayPath (dst : PeerId) (path : PeerId × UInt8) :
    Made s₀ { r with engine := { r.engine with relayPaths := r.engine.relayPaths.insert dst path } }
      (perform (.relayPath dst path) s).1 :=
  h.change (f := fun e => { e with relayPaths := e.relayPaths.insert dst path }) (fun _ _ _ => rfl) rfl rfl rfl rfl

theorem route (overlay : OverlayAddr) (peerId : PeerId) :
    Made s₀ { r with engine := r.engine.addRoute overlay peerId } (perform (.route overlay peerId) s).1 :=
  h.change (f := fun e => e.addRoute overlay peerId) (fun _ _ _ => rfl) rfl rfl rfl rfl

theorem candidate (relayId : PeerId) (addr : SocketAddr) :
    Made s₀ { r with engine := { r.engine with relayCandidates := r.engine.relayCandidates.insert relayId addr } }
      (perform (.candidate relayId addr) s).1 :=
  h.change (f := fun e => { e with relayCandidates := e.relayCandidates.insert relayId addr }) (fun _ _ _ => rfl)
    rfl rfl rfl rfl

theorem staleRoute (peerId : PeerId) :
    Made s₀ { r with engine := r.engine.removeStaleRoute peerId } (perform (.staleRoute peerId) s).1 := by
  refine h.change (f := fun e => e.removeStaleRoute peerId) (fun e ss m => ?_) ?_ rfl rfl rfl
  · unfold Engine.removeStaleRoute
    dsimp only
    split <;> rfl
  · refine s.setNode_node (n := { s.node with engine := s.node.engine.removeStaleRoute peerId }) ?_
    show (s.node.engine.removeStaleRoute peerId).peerMgr = _
    unfold Engine.removeStaleRoute
    split <;> rfl

theorem packet (p : Bytes) : Made s₀ { r with tun := r.tun ++ [p] } (perform (.tun p) s).1 :=
  ⟨h.node, h.sessions, h.records, h.out, by rw [perform, h.tun, List.append_assoc]⟩

theorem send (m : Send) : Made s₀ { r with sends := r.sends ++ [m] } (perform (.send m) s).1 := by
  have hsessions : s.node.engine.sessions = (s₀.node.engine.transmit r.sends).1.sessions := by rw [h.engine]
  have hone := Engine.transmitOne_of_sessions hsessions m
  have hsent := Engine.transmit_append (e := s₀.node.engine) r.sends [m]
  refine ⟨?_, h.sessions, h.records, ?_, h.tun⟩
  · show { s.node with engine := { (s.node.engine.transmitOne m).1 with peerMgr := s.records.manager } } = _
    rw [hone, hsent, h.node]
    rfl
  · show s.out ++ (s.node.engine.transmitOne m).2 = _
    have hlast (e : Engine (SecureTransport S)) : (e.transmit [m]).2 = (e.transmitOne m).2 := List.append_nil _
    rw [hone, hsent, h.out, List.append_assoc, hlast]

omit h in
/-- A message to a peer without a session makes no difference. -/
theorem unsent_iff {m : Send} (hno : m.peer ∉ r.engine.sessions) :
    Made s₀ { r with sends := r.sends ++ [m] } s ↔ Made s₀ r s := by
  have hsame (hsessions : r.engine.sessions = s₀.node.engine.sessions) :
      s₀.node.engine.transmit (r.sends ++ [m]) = s₀.node.engine.transmit r.sends := by
    have hlookup : (s₀.node.engine.transmit r.sends).1.sessions.lookup m.peer = none := by
      refine AList.lookup_eq_none.mpr fun hmem => hno ?_
      rw [hsessions]
      exact ((Engine.sameTables_transmit r.sends s₀.node.engine).mem m.peer).mp hmem
    have hlast : (s₀.node.engine.transmit r.sends).1.transmit [m] = ((s₀.node.engine.transmit r.sends).1, []) := by
      show ((Engine.transmitOne _ m).1, (Engine.transmitOne _ m).2 ++ []) = _
      rw [Engine.transmitOne, hlookup]
      rfl
    rw [Engine.transmit_append, hlast, List.append_nil]
  constructor
  · intro h
    have hsame := hsame h.sessions
    exact ⟨hsame ▸ h.node, h.sessions, h.records, hsame ▸ h.out, h.tun⟩
  · intro h
    have hsame := hsame h.sessions
    exact ⟨hsame.symm ▸ h.node, h.sessions, h.records, hsame.symm ▸ h.out, h.tun⟩

omit h in
theorem setRecords {t : PeerTable} {m : PeerManager} (h : Made s₀ r s) (ht : t.Shows m) :
    Made s₀ { r with engine := { r.engine with peerMgr := m } } (s.setRecords t) :=
  ⟨by rw [Shared.setRecords, h.node], h.sessions, ht, h.out, h.tun⟩

end Made

/-! ### The handlers -/

section handlers

variable (blake3 : Blake3) {s₀ : Shared S} {r r' : Reaction (SecureTransport S)} {B : Shared S → Prop} {k : Handler S}

/-- A thread whose next operation has one stage. -/
theorem leads_op {w : Op} {x : Option ℕ} {k : Option ℕ → Handler S}
    (hmade : ∀ s, Made s₀ r s → Made s₀ r' (perform w s).1) (hresult : ∀ s, Made s₀ r s → (perform w s).2 = .inr x)
    (hk : (k x).Leads perform (Made s₀ r') B) : (Thread.op w k).Leads perform (Made s₀ r) B := by
  refine .op (R := fun y s => y = x ∧ Made s₀ r' s) (fun s hs => ⟨x, (perform w s).1, .stage ?_, rfl, hmade s hs⟩) ?_
  · rw [hresult s hs]
    exact .result x _
  · rintro y s ⟨rfl, hs⟩
    exact hk s hs

theorem leads_send {m : Send} {k : Option ℕ → Handler S} (hmem : m.peer ∈ r.engine.sessions)
    (hk : (k (some 0)).Leads perform (Made s₀ { r with sends := r.sends ++ [m] }) B) :
    (Thread.op (.send m) k).Leads perform (Made s₀ r) B := by
  refine leads_op (fun _ hs => hs.send m) (fun s hs => ?_) hk
  show Sum.inr (if m.peer ∈ s.node.engine.sessions then some 0 else none) = _
  rw [if_pos ((hs.sameSessions.mem m.peer).mpr hmem)]

/-- Without a session there is nothing to send. -/
theorem leads_unsent {m : Send} {k : Option ℕ → Handler S} (hno : m.peer ∉ r.engine.sessions)
    (hk : (k none).Leads perform (Made s₀ r) B) : (Thread.op (.send m) k).Leads perform (Made s₀ r) B := by
  refine leads_op (fun _ hs => (Made.unsent_iff hno).mp (hs.send m)) (fun s hs => ?_) hk
  show Sum.inr (if m.peer ∈ s.node.engine.sessions then some 0 else none) = _
  rw [if_neg fun hmem => hno ((hs.sameSessions.mem m.peer).mp hmem)]

/-- A message whose result does not matter. -/
theorem leads_tell {m : Send} (hk : k.Leads perform (Made s₀ { r with sends := r.sends ++ [m] }) B) :
    (Thread.op (.send m) fun _ => k).Leads perform (Made s₀ r) B := by
  by_cases hmem : m.peer ∈ r.engine.sessions
  · exact leads_send hmem hk
  · exact leads_unsent hmem (hk.of_imp fun _ hs => (Made.unsent_iff hmem).mpr hs)

theorem leads_sendAll (ms : List Send) (hk : k.Leads perform (Made s₀ { r with sends := r.sends ++ ms }) B) :
    (Handler.sendAll ms k).Leads perform (Made s₀ r) B := by
  induction ms generalizing r with
  | nil =>
      rw [List.append_nil] at hk
      exact hk
  | cons m ms ih =>
      refine leads_tell (ih ?_)
      rw [List.append_assoc]
      exact hk

theorem leads_addDerivedRoute (peerId : PeerId)
    (hk : k.Leads perform (Made s₀ { r with engine := r.engine.addDerivedRoute blake3 peerId }) B) :
    (Handler.addDerivedRoute blake3 peerId k).Leads perform (Made s₀ r) B :=
  leads_op (fun _ hs => hs.route _ peerId) (fun _ _ => rfl) hk

/-- The thread holds the handle of `id`, if there is one. -/
def Held (s₀ : Shared S) (r : Reaction (SecureTransport S)) (id : PeerId) (p : Option ℕ) (s : Shared S) : Prop :=
  Made s₀ r s ∧ s.records.table.lookup id = p

theorem Held.update_none {id : PeerId} {s : Shared S} (h : Held s₀ r id none s) (f : Peer → Peer) :
    Made s₀ { r with engine := { r.engine with peerMgr := r.engine.peerMgr.update id f } } s := by
  have hupdate : r.engine.peerMgr.update id f = r.engine.peerMgr := by
    rw [PeerManager.update, h.1.records.lookup_eq_none h.2]
  rw [hupdate]
  exact h.1

theorem leads_get {id : PeerId} {k : Option ℕ → Handler S} (hk : ∀ p, (k p).Leads perform (Held s₀ r id p) B) :
    (Thread.op (.call (.get id) id []) k).Leads perform (Made s₀ r) B :=
  .op (fun _ hs => ⟨_, _, returns_get, hs.setRecords hs.records, rfl⟩) hk

theorem leads_discover {id : PeerId} {a : SocketAddr} {k : Option ℕ → Handler S}
    (hk : ∀ p, (k p).Leads perform
      (Held s₀ { r with engine := { r.engine with peerMgr := r.engine.peerMgr.discover id a } } id p) B) :
    (Thread.op (.call (.discover id a) id []) k).Leads perform (Made s₀ r) B := by
  refine .op (fun s hs => ?_) hk
  obtain ⟨t, o, ht, hl, hreturns⟩ := returns_discover hs.records a
  exact ⟨some o, _, hreturns [] _ _ (.result (some o) _), hs.setRecords ht, hl⟩

theorem leads_set {id : PeerId} {p : Option ℕ} {f : PeerSetter}
    (hk : k.Leads perform
      (Held s₀ { r with engine := { r.engine with peerMgr := r.engine.peerMgr.update id f.apply } } id p) B) :
    (Thread.op (.set p f) fun _ => k).Leads perform (Held s₀ r id p) B := by
  refine .op (R := fun _ => Held s₀ { r with engine := { r.engine with
      peerMgr := r.engine.peerMgr.update id f.apply } } id p) (fun s hs => ?_) fun _ => hk
  cases p with
  | some o =>
      refine ⟨none, _, .stage (.result none _), ?_, hs.2⟩
      exact hs.1.setRecords (hs.1.records.modify hs.2 fun p _ => f.id_apply p)
  | none => exact ⟨none, _, .stage (.result none _), hs.update_none f.apply, hs.2⟩

theorem leads_directoryEntry (rid : PeerId) (entry : DirectoryEntry)
    (hk : k.Leads perform (Made s₀ { r with
      engine := (r.engine.directoryEntry blake3 rid entry).1
      sends := r.sends ++ (r.engine.directoryEntry blake3 rid entry).2 }) B) :
    (Handler.directoryEntry blake3 rid entry k).Leads perform (Made s₀ r) B := by
  obtain ⟨pid, pubAddr, hopCount⟩ := entry
  refine .read fun s hs => ?_
  rw [hs.engine]
  dsimp only
  unfold Engine.directoryEntry at hk
  dsimp only at hk
  split
  · next hself =>
      rw [if_pos hself, List.append_nil] at hk
      exact hk
  · next hother =>
      rw [if_neg hother] at hk
      refine leads_discover fun p => leads_set (.of_imp (.read fun s hs => ?_) fun _ hs => hs.1)
      rw [if_congr (hs.sameSessions.mem pid) rfl rfl]
      split
      · next hmem =>
          rw [if_pos hmem, List.append_nil] at hk
          exact hk
      · next hmem =>
          rw [if_neg hmem] at hk
          refine .read fun s hs => ?_
          rw [hs.engine]
          dsimp only
          generalize r.engine.relayPaths.lookup pid = existing at hk ⊢
          cases existing with
          | none =>
              exact leads_op (fun _ hs => hs.relayPath pid _) (fun _ _ => rfl)
                (leads_addDerivedRoute blake3 pid (leads_tell hk))
          | some existing =>
              dsimp only at hk ⊢
              split
              · next hupdate =>
                  rw [if_pos hupdate] at hk
                  exact leads_op (fun _ hs => hs.relayPath pid _) (fun _ _ => rfl)
                    (leads_addDerivedRoute blake3 pid (leads_tell hk))
              · next hupdate =>
                  rw [if_neg hupdate, List.append_nil] at hk
                  exact hk

theorem leads_directoryEntries (rid : PeerId) (entries : List DirectoryEntry)
    (hk : k.Leads perform (Made s₀ { r with
      engine := (r.engine.directoryEntries blake3 rid entries).1
      sends := r.sends ++ (r.engine.directoryEntries blake3 rid entries).2 }) B) :
    (Handler.directoryEntries blake3 rid entries k).Leads perform (Made s₀ r) B := by
  induction entries generalizing r with
  | nil =>
      rw [Engine.directoryEntries, List.append_nil] at hk
      exact hk
  | cons entry entries ih =>
      refine leads_directoryEntry blake3 rid entry (ih ?_)
      rw [List.append_assoc]
      exact hk

variable (e : Engine (SecureTransport S)) (fromAddr : TransportAddr)

theorem leads_handlePeerDirectory (entries : List DirectoryEntry) :
    (Handler.handlePeerDirectory blake3 fromAddr entries).Leads perform (Made s₀ { engine := e })
      (Made s₀ (e.handlePeerDirectory blake3 fromAddr entries)) := by
  refine .read fun s hs => ?_
  rw [hs.engine, Engine.handlePeerDirectory]
  dsimp only
  cases e.addrIndex.lookup fromAddr with
  | none => exact .done fun _ hs => hs
  | some rid =>
      refine leads_directoryEntries blake3 rid entries (.read fun s hs => ?_)
      have hpassed : s.node.engine.rebroadcast entries =
          (e.directoryEntries blake3 rid entries).1.rebroadcast entries := by
        rw [hs.engine]
        rfl
      rw [hs.sameSessions.len, hpassed]
      dsimp only
      split
      · next hlen =>
          split
          · next hempty =>
              rw [if_neg fun h => h.2 hempty]
              exact .done fun _ hs => hs
          · next hempty =>
              rw [if_pos ⟨hlen, hempty⟩]
              refine .read fun s hs => ?_
              rw [hs.tellOthers]
              exact leads_sendAll _ (.done fun _ hs => hs)
      · next hlen =>
          rw [if_neg fun h => hlen h.1]
          exact .done fun _ hs => hs

theorem leads_handleRelayRequest (dstPeerId : PeerId) :
    (Handler.handleRelayRequest blake3 fromAddr dstPeerId).Leads perform (Made s₀ { engine := e })
      (Made s₀ (e.handleRelayRequest blake3 fromAddr dstPeerId)) := by
  refine .read fun s hs => ?_
  rw [hs.sameSessions.len, Engine.handleRelayRequest]
  split
  · refine .read fun s hs => ?_
    rw [hs.engine]
    dsimp only
    cases e.addrIndex.lookup fromAddr with
    | none => exact .done fun _ hs => hs
    | some reqId =>
        refine .read fun s₁ h₁ => .read fun s₂ h₂ => ?_
        rw [decide_eq_decide.mpr (h₁.sameSessions.mem dstPeerId), h₂.engine]
        dsimp only
        split
        · next hmem =>
            rw [if_pos (of_decide_eq_true hmem)]
            exact leads_sendAll _ (.done fun _ hs => hs)
        · next hmem =>
            rw [if_neg fun h => hmem (decide_eq_true h)]
            cases hpath : e.relayPaths.lookup dstPeerId with
            | none => exact .done fun _ hs => hs
            | some path =>
                refine .read fun s hs => ?_
                rw [hs.engine]
                dsimp only
                rw [hpath]
                exact leads_sendAll _ (.done fun _ hs => hs)
  · refine .read fun s hs => ?_
    rw [hs.engine]
    dsimp only
    cases e.addrIndex.lookup fromAddr with
    | none => exact .done fun _ hs => hs
    | some rid =>
        exact leads_op (fun _ hs => hs.relayPath dstPeerId _) (fun _ _ => rfl)
          (leads_addDerivedRoute blake3 dstPeerId (.done fun _ hs => hs))

theorem leads_register (peerId : PeerId) (a : SocketAddr) :
    (Handler.register peerId a).Leads perform (Made s₀ r)
      (Made s₀ { r with engine := r.engine.registerPeer peerId a }) := by
  refine .op (R := fun _ => Made s₀ { r with engine := r.engine.registerPeer peerId a }) (fun s hs => ?_) fun _ =>
    .done fun _ hs => hs
  obtain ⟨t, ht, hreturns⟩ := returns_register hs.records a
  exact ⟨none, _, hreturns, hs.setRecords ht⟩

theorem leads_handleRelayReady (relayPeerId dstPeerId : PeerId) (hopCount : UInt8) :
    (Handler.handleRelayReady blake3 relayPeerId dstPeerId hopCount).Leads perform (Made s₀ { engine := e })
      (Made s₀ (e.handleRelayReady blake3 relayPeerId dstPeerId hopCount)) :=
  leads_op (fun _ hs => hs.relayPath dstPeerId _) (fun _ _ => rfl)
    (leads_addDerivedRoute blake3 dstPeerId (leads_register dstPeerId Engine.fakeAddr))

/-- Relayed data is for this node, or it is forwarded. -/
theorem leads_local {t u : Handler S} {dst : PeerId} {forUs onward : Reaction (SecureTransport S)}
    (ht : t.Leads perform (Made s₀ { engine := e }) (Made s₀ forUs))
    (hu : u.Leads perform (Made s₀ { engine := e }) (Made s₀ onward)) :
    (Thread.read fun s => if dst = s.node.engine.ourPeerId then t
      else if dst ∈ s.node.engine.sessions then u
      else .read fun s => if s.node.engine.canRelayFlag = false then t else u).Leads perform (Made s₀ { engine := e })
      (Made s₀ (if dst = e.ourPeerId ∨ (dst ∉ e.sessions ∧ e.canRelayFlag = false) then forUs else onward)) := by
  refine .read fun s hs => ?_
  rw [if_congr (hs.sameSessions.mem dst) rfl rfl, hs.engine]
  dsimp only
  by_cases hown : dst = e.ourPeerId
  · rw [if_pos hown, if_pos (.inl hown)]
    exact ht
  · rw [if_neg hown]
    by_cases hmem : dst ∈ e.sessions
    · rw [if_pos hmem, if_neg fun h => h.elim hown fun h => h.1 hmem]
      exact hu
    · rw [if_neg hmem]
      refine .read fun s hs => ?_
      rw [hs.engine]
      dsimp only
      by_cases hflag : e.canRelayFlag = false
      · rw [if_pos hflag, if_pos (.inr ⟨hmem, hflag⟩)]
        exact ht
      · rw [if_neg hflag, if_neg fun h => h.elim hown fun h => hflag h.2]
        exact hu

theorem leads_handleRelayData (srcPeerId dstPeerId : PeerId) (payload : Bytes) :
    (Handler.handleRelayData srcPeerId dstPeerId payload).Leads perform (Made s₀ { engine := e })
      (Made s₀ (e.handleRelayData srcPeerId dstPeerId payload)) := by
  refine leads_local e ?_ (.read fun s hs => ?_)
  · cases deserializeMessage payload with
    | error err => exact .done fun _ hs => hs
    | ok msg =>
        cases msg with
        | data ipPkt => exact leads_op (fun _ hs => hs.packet ipPkt) (fun _ _ => rfl) (.done fun _ hs => hs)
        | heartbeat | ping | pong | sessionInit | relayAnnounce | peerDirectory | relayRequest | relayReady | relayData
        | holePunchProbe | holePunchAck => exact .done fun _ hs => hs
  · rw [if_congr (hs.sameSessions.mem dstPeerId) rfl rfl]
    split
    · next hmem => exact leads_send hmem (.done fun _ hs => hs)
    · next hmem =>
        refine .read fun s hs => ?_
        rw [hs.engine]
        dsimp only
        split
        · refine leads_unsent hmem (.read fun s hs => ?_)
          rw [hs.engine]
          dsimp only
          cases e.relayPaths.lookup dstPeerId with
          | none => exact .done fun _ hs => hs
          | some path => exact leads_tell (.done fun _ hs => hs)
        · next hno =>
            rw [AList.lookup_eq_none.mpr hno]
            exact .done fun _ hs => hs

theorem leads_introduce (peerId : PeerId)
    (hk : k.Leads perform (Made s₀ { r with sends := r.sends ++ r.engine.introduce peerId fromAddr }) B) :
    (Handler.introduce peerId fromAddr k).Leads perform (Made s₀ r) B := by
  have hnone : r.engine.introduce peerId fromAddr = [] → k.Leads perform (Made s₀ r) B := by
    intro hempty
    rw [hempty, List.append_nil] at hk
    exact hk
  cases fromAddr with
  | tcp | ws | wss => exact hnone rfl
  | udp newPeerAddr =>
      refine .read fun s hs => ?_
      rw [hs.sameSessions.len]
      split
      · next hlen =>
          refine .read fun s₁ h₁ => .read fun s₂ h₂ => ?_
          dsimp only
          rw [h₁.directPeers, h₂.relayedPeers]
          refine leads_sendAll _ (.read fun s hs => ?_)
          rw [hs.tellOthers]
          refine leads_sendAll _ ?_
          rw [Engine.introduce] at hk
          dsimp only at hk
          rw [if_pos hlen] at hk
          rw [List.append_assoc]
          exact hk
      · next hlen =>
          refine hnone ?_
          rw [Engine.introduce]
          exact if_neg hlen

theorem foldl_peerInfo (overlayIpv6 : Option Ipv6Addr) (hostname : String) (publicAddr : Option SocketAddr) :
    (fun p => (Handler.peerInfo overlayIpv6 hostname publicAddr).foldl PeerSetter.apply p) = fun p =>
      { p with
        overlayIpv6 := overlayIpv6.orElse fun _ => p.overlayIpv6
        hostname := if hostname.isEmpty then p.hostname else hostname
        publicAddr := publicAddr.orElse fun _ => p.publicAddr } := by
  funext p
  rw [Handler.peerInfo, List.foldl_append, List.foldl_append]
  cases overlayIpv6 <;> cases publicAddr <;> split <;> rfl

/-- The setters one after the other are one change of the record. -/
theorem leads_setAll {id : PeerId} {p : Option ℕ} (fs : List PeerSetter)
    (hk : k.Leads perform (Made s₀ { r with engine := { r.engine with
      peerMgr := r.engine.peerMgr.update id fun p => fs.foldl PeerSetter.apply p } }) B) :
    (Handler.setAll p fs k).Leads perform (Held s₀ r id p) B := by
  induction fs generalizing r with
  | nil =>
      refine hk.of_imp fun s hs => ?_
      exact ⟨hs.1.node, hs.1.sessions, hs.1.records.update_self id, hs.1.out, hs.1.tun⟩
  | cons f fs ih =>
      refine leads_set (ih ?_)
      rw [PeerManager.update_update]
      exact hk

theorem leads_handleSessionInit (overlay : OverlayAddr) (overlayIpv6 : Option Ipv6Addr) (hostname : String)
    (publicAddr : Option SocketAddr) :
    (Handler.handleSessionInit fromAddr overlay overlayIpv6 hostname publicAddr).Leads perform
      (Made s₀ { engine := e }) (Made s₀ (e.handleSessionInit fromAddr overlay overlayIpv6 hostname publicAddr)) := by
  refine .read fun s hs => ?_
  rw [hs.engine, Engine.handleSessionInit]
  dsimp only
  cases e.addrIndex.lookup fromAddr with
  | none => exact .done fun _ hs => hs
  | some peerId =>
      refine leads_op (fun _ hs => hs.route overlay peerId) (fun _ _ => rfl) (leads_introduce fromAddr peerId ?_)
      refine leads_get fun peer => leads_setAll _ (.done fun s hs => ?_)
      rw [foldl_peerInfo] at hs
      exact hs

theorem leads_handleMessage (nowMs : UInt64) (msg : Message) :
    (Handler.handleMessage blake3 nowMs fromAddr msg).Leads perform (Made s₀ { engine := e })
      (Made s₀ (e.handleMessage blake3 nowMs fromAddr msg)) := by
  cases msg with
  | heartbeat | holePunchProbe | holePunchAck => exact .done fun _ hs => hs
  | data payload => exact leads_op (fun _ hs => hs.packet payload) (fun _ _ => rfl) (.done fun _ hs => hs)
  | relayAnnounce relayPeerId publicAddr =>
      exact leads_op (fun _ hs => hs.candidate relayPeerId publicAddr) (fun _ _ => rfl) (.done fun _ hs => hs)
  | ping sentMs =>
      refine .read fun s hs => ?_
      rw [hs.engine, Engine.handleMessage]
      dsimp only
      cases e.addrIndex.lookup fromAddr with
      | none => exact .done fun _ hs => hs
      | some pid => exact leads_tell (.done fun _ hs => hs)
  | pong sentMs =>
      refine .read fun s hs => ?_
      rw [hs.engine, Engine.handleMessage]
      dsimp only
      cases e.addrIndex.lookup fromAddr with
      | none => exact .done fun _ hs => hs
      | some pid => exact leads_get fun peer => leads_set (.done fun _ hs => hs.1)
  | sessionInit overlay overlayIpv6 hostname publicAddr =>
      exact leads_handleSessionInit e fromAddr overlay overlayIpv6 hostname publicAddr
  | peerDirectory entries => exact leads_handlePeerDirectory blake3 e fromAddr entries
  | relayRequest dst => exact leads_handleRelayRequest blake3 e fromAddr dst
  | relayReady relayId dst hops => exact leads_handleRelayReady blake3 e relayId dst hops
  | relayData src dst payload => exact leads_handleRelayData e src dst payload

theorem leads_routePacket (candidate : Option PeerId) (packet : Bytes) (peerId : PeerId) :
    (Handler.routePacket candidate packet peerId).Leads perform (Made s₀ { engine := e })
      (Made s₀ (e.routePacket candidate packet peerId)) := by
  unfold Engine.routePacket
  split
  · next hmem => exact leads_send hmem (.done fun _ hs => hs)
  · next hmem =>
      refine leads_unsent hmem (.read fun s hs => ?_)
      rw [hs.engine]
      dsimp only
      cases e.relayPaths.lookup peerId with
      | some path => exact leads_tell (.done fun _ hs => hs)
      | none =>
          refine leads_op (fun _ hs => hs.staleRoute peerId) (fun _ _ => rfl) (.read fun s hs => ?_)
          have hrequest : s.node.engine.requestVia candidate peerId = e.requestVia candidate peerId := by
            rw [hs.engine]
            show (e.removeStaleRoute peerId).requestVia candidate peerId = _
            unfold Engine.removeStaleRoute
            split <;> rfl
          rw [hrequest]
          exact leads_sendAll _ (.done fun _ hs => hs)

theorem leads_handleTunPacket (candidate : Option PeerId) (packet : Bytes) :
    (Handler.handleTunPacket candidate packet).Leads perform (Made s₀ { engine := e })
      (Made s₀ (e.handleTunPacket candidate packet)) := by
  unfold Handler.handleTunPacket Engine.handleTunPacket
  split
  · exact .done fun _ hs => hs
  · refine .read fun s hs => ?_
    rw [hs.engine]
    dsimp only
    split
    · exact leads_op (fun _ hs => hs.packet packet) (fun _ _ => rfl) (.done fun _ hs => hs)
    · cases e.routingTable.lookup (Engine.packetDst packet) with
      | none => exact .done fun _ hs => hs
      | some peerId => exact leads_routePacket e candidate packet peerId

theorem leads_healthcheck (nowMs : UInt64) (peerId : PeerId) :
    (Handler.healthcheck nowMs peerId).Leads perform (Made s₀ { engine := e })
      (Made s₀ (e.healthcheck nowMs peerId)) := by
  unfold Engine.healthcheck
  split
  · next hmem =>
      refine leads_send hmem (leads_get fun peer => ?_)
      cases peer with
      | none => exact .done fun s hs => hs.update_none _
      | some o =>
          refine .read fun s hs => ?_
          rw [hs.1.engine]
          dsimp only
          split
          · next hpath =>
              refine .read fun s hs => ?_
              rw [hs.1.engine]
              dsimp only
              obtain ⟨path, hl⟩ := Map.mem_iff_lookup.mp hpath
              rw [hl]
              refine leads_set (.done fun s hs => ?_)
              rw [Engine.pathKind, hl]
              exact hs.1
          · next hno =>
              refine leads_set (.done fun s hs => ?_)
              rw [Engine.pathKind, AList.lookup_eq_none.mpr hno]
              exact hs.1
  · next hmem => exact leads_unsent hmem (.done fun _ hs => hs)

end handlers

end Shared

/-! ### Steps of the loops -/

namespace Host

open Shared (Made perform)

variable (blake3 : Blake3) {h : Host S}

/-- The state that `o` leaves after `s₀`, with the records in whatever order. -/
structure Left (s₀ : Shared S) (o : Outcome S) (s : Shared S) : Prop where
  node : s.node = { o.node with engine := { o.node.engine with peerMgr := s.records.manager } }
  records : s.records.Shows o.node.engine.peerMgr
  out : s.out = s₀.out ++ o.out
  tun : s.tun = s₀.tun ++ o.tun

theorem left_of_made {s₀ s : Shared S} {r : Reaction (SecureTransport S)} (hmade : Made s₀ r s) :
    Left s₀ (s₀.node.react r) s := by
  have hsent := Engine.transmit_of_sessions hmade.sessions r.sends
  refine ⟨?_, ?_, ?_, hmade.tun⟩
  · rw [hmade.node, Node.react, hsent]
  · rw [Node.react, hsent]
    exact hmade.records
  · rw [hmade.out, Node.react, hsent]

theorem made_self {s : Shared S} (hlisted : ∀ id o, s.records.table.lookup id = some o →
    ∃ p, s.records.objects[o]? = some p ∧ p.id = id) : Made s { engine := s.node.engine } s := by
  refine ⟨?_, rfl, ?_, (List.append_nil _).symm, (List.append_nil _).symm⟩
  · rw [← s.agree]
    rfl
  · rw [s.agree]
    exact ⟨fun id => (s.records.get_manager id).symm, rfl, hlisted⟩

/-- A thread that begins and is not interrupted. -/
theorem exec_start {t : HostTask} {th : Handler S} {B : Shared S → Prop} (hidle : h.tasks = ∅)
    (hlisted : ∀ id o, h.shared.records.table.lookup id = some o →
      ∃ p, h.shared.records.objects[o]? = some p ∧ p.id = id)
    (hleads : th.Leads perform (Made h.shared { engine := h.engine }) B) :
    ∃ n, (exec (next blake3) (Pool.start h t th) (List.replicate n (.run t))).tasks = ∅ ∧
      B (exec (next blake3) (Pool.start h t th) (List.replicate n (.run t))).shared := by
  obtain ⟨s', hends, hB⟩ := hleads h.shared (made_self hlisted)
  obtain ⟨n, hended⟩ := Pool.exec_start_of_ends (t := t) hends rfl (by rw [hidle]; exact AList.notMem_empty t)
  have hruns (n : ℕ) (h : Host S) : exec (next blake3) h (List.replicate n (.run t)) =
      exec (Pool.run perform) h (List.replicate n t) := by
    induction n generalizing h with
    | zero => rfl
    | succ n ih => exact ih _
  refine ⟨n, ?_, ?_⟩
  · rw [hruns]
    refine Map.eq_empty fun t' => ?_
    rw [hended.lookup, hidle]
    split <;> rfl
  · rw [hruns, hended.shared]
    exact hB

/-- No other update than a registration concerns the records. -/
theorem peerMgr_apply {u : Update S} {e : Engine (SecureTransport S)} (hu : u.Elementary)
    (hregister : ∀ c, u = .complete c → c.stage ≠ .register) : (u.apply blake3 e).peerMgr = e.peerMgr := by
  cases u with
  | complete c =>
      have hstage := hregister c rfl
      rw [Update.apply, Completion.run]
      cases hs : c.stage with
      | relayPath | session | addrIndex | route => rfl
      | register => exact absurd hs hstage
      | sessionInit | announce | directories => exact (Engine.sameTables_transmit _ e).peerMgr
  | none | removeSession | removeAddrIndex | relayFlag | stunAddr => rfl
  | message | tunPacket | healthcheck => exact hu.elim

section alone

variable (hlisted : ∀ id o, h.shared.records.table.lookup id = some o →
  ∃ p, h.shared.records.objects[o]? = some p ∧ p.id = id)

include hlisted

/-- A step that starts no thread. -/
theorem left_makes {a : LoopAction S} (hu : (h.node.update a).Elementary)
    (hregister : ∀ c, h.node.update a = .complete c → c.stage ≠ .register) :
    Left h.shared (h.node.loopStep blake3 a) (h.makes (h.node.loopStep blake3 a)).shared := by
  obtain ⟨e, hbefore, hafter⟩ := h.node.loopNext_tables blake3 a
  have hpeers : (h.node.loopStep blake3 a).node.engine.peerMgr = h.node.engine.peerMgr :=
    hafter.peerMgr.trans ((peerMgr_apply blake3 hu hregister).trans hbefore.peerMgr)
  refine ⟨rfl, ?_, rfl, rfl⟩
  rw [hpeers]
  exact (made_self hlisted).records

theorem receive_alone (hidle : h.tasks = ∅) (a : Arrival S) :
    ∃ n, (exec (next blake3) (h.receive blake3 a) (List.replicate n (.run (.worker none)))).tasks = ∅ ∧
      Left h.shared (h.node.step blake3 (.receive a))
        (exec (next blake3) (h.receive blake3 a) (List.replicate n (.run (.worker none)))).shared := by
  unfold receive
  cases ho : h.node.opens a with
  | none =>
      have hnone : h.node.update (.task (.receive a)) = .none := by rw [Node.update, ho]
      refine ⟨0, hidle, left_makes (a := .task (.receive a)) blake3 hlisted ?_ ?_⟩
      · rw [hnone]
        trivial
      · rw [hnone]
        exact fun c hc => by cases hc
  | some opened =>
      obtain ⟨m, msg⟩ := opened
      obtain ⟨hstep, hsame⟩ := Node.step_of_opens blake3 ho
      have hnode : (h.shared.setNode m).node = m := h.shared.setNode_node hsame.peerMgr
      obtain ⟨n, htasks, hmade⟩ := exec_start (t := .worker none) (h := { h with shared := h.shared.setNode m })
        blake3 hidle hlisted (Shared.leads_handleMessage blake3 _ a.fromAddr a.nowMs msg)
      have hleft : Left (h.shared.setNode m) ((h.shared.setNode m).node.react
          ((h.shared.setNode m).node.engine.handleMessage blake3 a.nowMs a.fromAddr msg)) _ := left_of_made hmade
      rw [hnode] at hleft
      rw [hstep]
      exact ⟨n, htasks, hleft.node, hleft.records, hleft.out, hleft.tun⟩

theorem advance_alone (hidle : h.tasks = ∅) {who : Option ℕ} {a : NodeAction S}
    (hupdate : h.node.update (.task a) = .ofCompletion (h.node.completion who)) :
    ∃ n, (exec (next blake3) (h.advance blake3 who a) (List.replicate n (.run (.worker who)))).tasks = ∅ ∧
      Left h.shared (h.node.step blake3 a)
        (exec (next blake3) (h.advance blake3 who a) (List.replicate n (.run (.worker who)))).shared := by
  unfold advance
  cases hc : h.node.completion who with
  | none =>
      rw [hc] at hupdate
      refine ⟨0, hidle, left_makes (a := .task a) blake3 hlisted ?_ ?_⟩
      · rw [hupdate]
        trivial
      · rw [hupdate]
        exact fun c hc => by cases hc
  | some c =>
      rw [hc] at hupdate
      dsimp only
      split
      · next hstage =>
          obtain ⟨n, htasks, hmade⟩ := exec_start (t := .worker who) (h := h.makes (h.node.step blake3 a)) blake3 hidle
            hlisted (Shared.leads_register c.peerId c.underlay.socketAddr)
          obtain ⟨e, hbefore, hafter⟩ := h.node.loopNext_tables blake3 (.task a)
          have hpeers : (h.node.step blake3 a).node.engine.peerMgr =
              h.shared.records.manager.register c.peerId c.underlay.socketAddr := by
            refine hafter.peerMgr.trans ?_
            rw [hupdate, ← h.shared.agree]
            show ((Update.complete c).apply blake3 e).peerMgr = _
            rw [Update.apply, Completion.run, hstage]
            exact congrArg (fun m => m.register c.peerId c.underlay.socketAddr) hbefore.peerMgr
          refine ⟨n, htasks, hmade.node, ?_, ?_, ?_⟩
          · rw [hpeers]
            exact hmade.records
          · exact hmade.out.trans (List.append_nil _)
          · exact hmade.tun.trans (List.append_nil _)
      · next hstage =>
          refine ⟨0, hidle, left_makes (a := .task a) blake3 hlisted ?_ ?_⟩
          · rw [hupdate]
            trivial
          · rw [hupdate]
            exact fun d hd => (Update.complete.inj hd) ▸ hstage

end alone

/-- When no thread is under way, a step of a loop and the steps of its thread are a step of the node. -/
theorem loop_alone (hs : h.Sound) (hidle : h.tasks = ∅) (a : LoopAction S) :
    ∃ t n, (exec (next blake3) h (.loop a :: List.replicate n (.run t))).tasks = ∅ ∧
      Left h.shared (h.node.loopStep blake3 a)
        (exec (next blake3) h (.loop a :: List.replicate n (.run t))).shared := by
  have hlisted (id : PeerId) (o : ℕ) (hl : h.shared.records.table.lookup id = some o) :
      ∃ p, h.shared.records.objects[o]? = some p ∧ p.id = id := by
    obtain ⟨p, hp, hid, -⟩ := hs.listed id o hl
    exact ⟨p, hp, hid⟩
  have hbusy : ¬ h.Busy a := by
    rintro ⟨t, -, ht⟩
    rw [hidle] at ht
    exact AList.notMem_empty t ht
  have hnext : h.next blake3 (.loop a) = h.loop blake3 a := if_neg hbusy
  simp only [Run.exec_cons, hnext]
  cases a with
  | tunPacket candidate packet =>
      obtain ⟨n, htasks, hmade⟩ := exec_start (t := .outbound) blake3 hidle hlisted
        (Shared.leads_handleTunPacket h.engine candidate packet)
      exact ⟨.outbound, n, htasks, left_of_made hmade⟩
  | healthcheck nowMs peerId =>
      obtain ⟨n, htasks, hmade⟩ := exec_start (t := .health) blake3 hidle hlisted
        (Shared.leads_healthcheck h.engine nowMs peerId)
      exact ⟨.health, n, htasks, left_of_made hmade⟩
  | relayFlag addr => exact ⟨.health, 0, hidle, left_makes blake3 hlisted trivial fun c hc => by cases hc⟩
  | stunAddr addr => exact ⟨.health, 0, hidle, left_makes blake3 hlisted trivial fun c hc => by cases hc⟩
  | task a =>
      cases a with
      | receive a => exact ⟨_, receive_alone blake3 hlisted hidle a⟩
      | inbound => exact ⟨_, advance_alone blake3 hlisted hidle rfl⟩
      | attempt id sent token => exact ⟨_, advance_alone blake3 hlisted hidle rfl⟩
      | start | timeout | discover | broadcast =>
          exact ⟨.health, 0, hidle, left_makes blake3 hlisted trivial fun c hc => by cases hc⟩
      | discovery | removed | removal =>
          refine ⟨.health, 0, hidle, left_makes blake3 hlisted ?_ ?_⟩
          · rw [Node.update]
            split <;> trivial
          · rw [Node.update]
            split <;> exact fun c hc => by cases hc

end Host

end SeedNet
