import SeedNet.PeersSnapshot
import SeedNet.PeerRemoval
import SeedNet.RouteInverse
import SeedNet.LiveRecords

/-! # When the peers file is rewritten

`run_peers_file_loop` of `crates/core/src/peers_snapshot.rs` writes a new snapshot on two kinds of events, while
the values that it shows are changed by many handlers.  `Daemon` adds that loop to a node whose handlers are
interleaved: it receives the events of the peer manager in order, looks for the connected peers one by one, and then
reads their entries value by value, so that the other tasks run in between.

`PeerView` is what the file shows of a connected peer, and `Op.revise` what an operation of a thread makes of it.  An
operation either leaves every view as it is but for that, or it makes a record `Connected`, and the event that has
the file rewritten comes next (`Host.view_run`).  A step that changes no view leaves what the loop has read so far as
good as new (`PeersFileStage.UpToDate`), and a rewriting event makes it read everything again.  So the file is up to
date whenever all events have been received, if no operation revises a view while no such event is on its way:
`peers_file_current`. -/

namespace SeedNet

open Run (exec Along)
open Threads (Pool)

/-! ### What the file shows of a peer -/

structure PeerView where
  overlay : Option Ipv4Addr
  overlayIpv6 : Option Ipv6Addr
  hostname : String
  publicAddr : Option SocketAddr
  path : Option (PeerId × UInt8)
  latencyMs : Option UInt32
  underlay : Option SocketAddr
deriving DecidableEq

/-- The events on which the file is rewritten. -/
def PeerEvent.Rewrites : PeerEvent → Prop
  | .removed _ => True
  | .stateChanged _ _ next => next = .connected
  | _ => False

instance : DecidablePred PeerEvent.Rewrites
  | .removed _ => .isTrue trivial
  | .stateChanged _ _ next => inferInstanceAs (Decidable (next = .connected))
  | .discovered .. | .overlayAssigned .. => .isFalse id

namespace Engine

variable {τ : Type} (e : Engine τ)

def viewOf (p : PeerId) (peer : Peer) : PeerView where
  overlay := e.routingTable.lookupPeerIp p
  overlayIpv6 := peer.overlayIpv6
  hostname := peer.hostname
  publicAddr := peer.publicAddr
  path := e.relayPaths.lookup p
  latencyMs := peer.latencyMs
  underlay := peer.underlayAddr

/-- What the file shows of `p`, if it is connected. -/
def view (p : PeerId) : Option PeerView :=
  (e.peerMgr.get p).bind fun peer => if peer.state = .connected then some (e.viewOf p peer) else none

variable {e} {e' e'' : Engine τ}

theorem view_eq_some {p : PeerId} {v : PeerView} :
    e.view p = some v ↔ ∃ peer, e.peerMgr.get p = some peer ∧ peer.state = .connected ∧ e.viewOf p peer = v := by
  simp [view, Option.bind_eq_some_iff]

theorem mem_connectedPeers_iff {p : PeerId} : p ∈ e.peerMgr.connectedPeers ↔ ∃ v, e.view p = some v := by
  rw [PeerManager.mem_connectedPeers]
  constructor
  · rintro ⟨peer, hget, hstate⟩
    exact ⟨_, view_eq_some.mpr ⟨peer, hget, hstate, rfl⟩⟩
  · rintro ⟨v, hv⟩
    obtain ⟨peer, hget, hstate, -⟩ := view_eq_some.mp hv
    exact ⟨peer, hget, hstate⟩

theorem nodup_connectedPeers (m : PeerManager) : m.connectedPeers.Nodup :=
  m.peers.keys_nodup.sublist (List.filter_sublist.map _)

/-- Engines with the same views have the same connected peers, in some order, and show the same of them. -/
theorem connectedPeers_perm (h : ∀ p, e'.view p = e.view p) : e'.peerMgr.connectedPeers.Perm e.peerMgr.connectedPeers := by
  rw [List.perm_ext_iff_of_nodup (nodup_connectedPeers _) (nodup_connectedPeers _)]
  intro p
  rw [mem_connectedPeers_iff, mem_connectedPeers_iff, h p]

end Engine

/-- What `build_peer_entry` makes of the values that it has read. -/
def PeerView.entry (id : PeerId) (v : PeerView) : PeerEntry where
  id := id.display
  idShort := id.short
  overlay := (v.overlay.map Ipv4Addr.display).getD ""
  overlayIpv6 := (v.overlayIpv6.map Ipv6Addr.display).getD ""
  hostname := v.hostname
  publicAddr := (v.publicAddr.map SocketAddr.display).getD ""
  connection := if v.path.isSome then "relay" else "direct"
  relayVia := (v.path.map fun entry => entry.1.short).getD ""
  relayHops := (v.path.map fun entry => entry.2).getD 0
  latencyMs := (v.latencyMs.map fun ms => decimal ms.toNat).getD ""
  underlay := (v.underlay.map SocketAddr.display).getD ""

/-- The entry of a connected peer is that of its view. -/
theorem Engine.peerEntry_of_view {τ : Type} {e : Engine τ} {p : PeerId} {v : PeerView} (h : e.view p = some v) :
    e.peerEntry p = v.entry p := by
  obtain ⟨peer, hget, -, rfl⟩ := view_eq_some.mp h
  simp only [peerEntry, PeerView.entry, viewOf, hget, Option.bind_some, Option.map_some, Option.getD_some,
    PeerEntry.mk.injEq, true_and, and_true]
  exact if_congr AList.lookup_isSome.symm rfl rfl

/-! ### What an operation makes of the view of a connected peer -/

def PeerSetter.revise (v : PeerView) : PeerSetter → PeerView
  | .overlayIpv6 addr => { v with overlayIpv6 := some addr }
  | .underlayAddr addr => { v with underlay := some addr }
  | .hostname name => { v with hostname := name }
  | .publicAddr addr => { v with publicAddr := some addr }
  | .latencyMs rtt => { v with latencyMs := some rtt }
  | .overlayAddr _ | .pathKind _ | .transition _ => v

variable {S : Snow}

/-- What an operation makes of the view `v` of a connected peer `p`; nothing remains if another record is inserted. -/
def Op.revise (h : Host S) (p : PeerId) (v : PeerView) : Op → Option PeerView
  | .relayPath dst path => some (if p = dst then { v with path := some path } else v)
  | .route overlay peerId => some (if p = peerId then { v with overlay := some overlay.ip } else v)
  | .staleRoute peerId => some (if h.engine.staleOwner peerId = some p then { v with overlay := none } else v)
  | .call (.setUnderlay _ o a) _ _ => some (if h.table.lookup p = some o then { v with underlay := some a } else v)
  | .call (.insert id _ _) _ _ => if p = id then none else some v
  | .set (some o) f => some (if h.table.lookup p = some o then f.revise v else v)
  | _ => some v

/-- What an update of a loop makes of it. -/
def Update.revise (blake3 : Blake3) (p : PeerId) (v : PeerView) : Update S → PeerView
  | .complete c =>
    if p = c.peerId then
      match c.stage with
      | .relayPath => { v with path := Option.none }
      | .route => { v with overlay := some (deriveOverlayAddr blake3 p).ip }
      | _ => v
    else v
  | _ => v

namespace Engine

variable {τ : Type} (e : Engine τ)

/-- What the file shows of a record, if it is connected. -/
def shows (p : PeerId) (peer : Peer) : Option PeerView :=
  if peer.state = .connected then some (e.viewOf p peer) else none

theorem view_eq (p : PeerId) : e.view p = (e.peerMgr.get p).bind (e.shows p) := rfl

end Engine

namespace Host

variable {h : Host S}

theorem get_eq (p : PeerId) : h.engine.peerMgr.get p = (h.table.lookup p).bind fun o => h.shared.records.objects[o]? := by
  rw [engine, node, h.shared.agree, PeerTable.get_manager]
  rfl

theorem view_of_lookup {p : PeerId} {o : ℕ} (hl : h.table.lookup p = some o) :
    h.engine.view p = h.shared.records.objects[o]?.bind (h.engine.shows p) := by
  rw [Engine.view_eq, get_eq, hl, Option.bind_some]

theorem view_of_none {p : PeerId} (hl : h.table.lookup p = none) : h.engine.view p = none := by
  rw [Engine.view_eq, get_eq, hl]
  rfl

variable (blake3 : Blake3) {t : HostTask} {w : Op}

/-- The view of a peer whose handle stays where it is follows from what is done to its object. -/
theorem view_run_of_shows (hs : h.Sound) (hw : h.nextOp t = some w) {p : PeerId} {g : PeerView → Option PeerView}
    (hno : ∀ o a peerId rest, w ≠ .call (.insert p o a) peerId rest)
    (hshows : ∀ o peer, h.table.lookup p = some o → h.shared.records.objects[o]? = some peer → peer.id = p →
      (h.next blake3 (.run t)).engine.shows p (w.effect o peer) = (h.engine.shows p peer).bind g) :
    (h.next blake3 (.run t)).engine.view p = (h.engine.view p).bind g := by
  have htable := lookup_table_run blake3 hw hno
  cases hl : h.table.lookup p with
  | none => rw [view_of_none (htable.trans hl), view_of_none hl, Option.bind_none]
  | some o =>
      obtain ⟨peer, hpeer, hid, -⟩ := hs.listed p o hl
      rw [view_of_lookup (htable.trans hl), view_of_lookup hl, object_run blake3 hw hpeer, hpeer, Option.bind_some,
        Option.bind_some]
      exact hshows o peer hl hpeer hid

/-! ### What an operation does to the views -/

theorem lookupPeerIp_removeStaleRoute {e : Engine (SecureTransport S)} (q p : PeerId) :
    (e.removeStaleRoute q).routingTable.lookupPeerIp p =
      if e.staleOwner q = some p then none else e.routingTable.lookupPeerIp p := by
  rw [Engine.removeStaleRoute, Engine.staleOwner]
  cases hip : e.routingTable.lookupPeerIp q with
  | none => rfl
  | some ip =>
      rw [Option.bind_some]
      cases howner : e.routingTable.lookup ip with
      | none =>
          have hsame : (e.routingTable.removeRoute ⟨ip⟩).2 = e.routingTable := RoutingTable.removeRoute_of_none howner
          exact congrArg (RoutingTable.lookupPeerIp · p) hsame
      | some owner =>
          refine (congrFun (RoutingTable.lookup_removeRoute howner).2 p).trans ?_
          rw [Function.update_apply]
          simp only [Option.some.injEq, eq_comm]

end Host

/-- The events that a stage of a call sends. -/
def PeerCall.sends : PeerCall → List PeerEvent
  | .sendDiscovered id _ underlay => [.discovered id underlay]
  | .sendStateChanged id _ prev next => [.stateChanged id prev next]
  | _ => []

/-- The events that an operation sends. -/
def Op.sends : Op → List PeerEvent
  | .call c _ _ => c.sends
  | _ => []

theorem PeerTable.events_perform (s : PeerTable) (c : PeerCall) : (s.perform c).1.events = s.events ++ c.sends := by
  cases c with
  | discover id | get id | transitionPeer id =>
      refine Eq.trans ?_ (List.append_nil _).symm
      rw [perform]
      cases s.table.lookup id <;> rfl
  | readState id o next =>
      refine Eq.trans ?_ (List.append_nil _).symm
      rw [perform]
      cases s.objects[o]? <;> rfl
  | transitionTo id o prev next =>
      refine Eq.trans ?_ (List.append_nil _).symm
      rw [perform]
      cases s.objects[o]? with
      | none => rfl
      | some p =>
          dsimp only
          cases p.transition next <;> rfl
  | sendDiscovered | sendStateChanged => rfl
  | setUnderlay | transition | insert | returned | finished => exact (List.append_nil _).symm

namespace Host

variable {h : Host S} (blake3 : Blake3) {t : HostTask} {w : Op}

def events (h : Host S) : List PeerEvent := h.engine.peerMgr.events

/-- A task has made a record `Connected`, and sends the event next. -/
def Announcing (h : Host S) : Prop :=
  ∃ who, ∃ w ∈ h.nextOp (.worker who), ∃ event ∈ w.sends, event.Rewrites

theorem events_eq : h.events = h.shared.records.events := by
  rw [events, engine, node, h.shared.agree]
  rfl

theorem events_run (hw : h.nextOp t = some w) : (h.next blake3 (.run t)).events = h.events ++ w.sends := by
  rw [events_eq, events_eq, records_run blake3 hw, Shared.records_perform]
  cases w with
  | call c => exact PeerTable.events_perform _ c
  | set o f => cases o <;> exact (List.append_nil _).symm
  | relayPath | route | staleRoute | candidate | send | tun => exact (List.append_nil _).symm

theorem viewOf_run (hw : h.nextOp t = some w) (p : PeerId) (peer : Peer) :
    (h.next blake3 (.run t)).engine.viewOf p peer =
      match w with
      | .relayPath dst path =>
        if p = dst then { h.engine.viewOf p peer with path := some path } else h.engine.viewOf p peer
      | .route overlay q =>
        if p = q then { h.engine.viewOf p peer with overlay := some overlay.ip } else h.engine.viewOf p peer
      | .staleRoute q =>
        if h.engine.staleOwner q = some p then { h.engine.viewOf p peer with overlay := none }
        else h.engine.viewOf p peer
      | _ => h.engine.viewOf p peer := by
  have hroutes := Shared.routingTable_perform w h.shared
  have hpaths := Shared.relayPaths_perform w h.shared
  rw [engine_run_some blake3 hw, Engine.viewOf, hroutes, hpaths]
  cases w with
  | relayPath dst path =>
      dsimp only
      rw [Map.lookup_insert]
      split <;> rfl
  | route overlay q =>
      dsimp only
      rw [RoutingTable.lookupPeerIp_addRoute, Function.update_apply]
      split <;> rfl
  | staleRoute q =>
      dsimp only
      have hremove := lookupPeerIp_removeStaleRoute (e := h.engine) q p
      rw [show h.shared.node.engine = h.engine from rfl, hremove]
      split <;> rfl
  | candidate | send | tun | call | set => rfl

section run

variable (hs : h.Sound) (hw : h.nextOp t = some w)

include hs hw

/-- What the file shows of a record whose state stays as it is. -/
theorem view_run_of_viewOf {p : PeerId} (g : PeerView → PeerView)
    (hno : ∀ o a peerId rest, w ≠ .call (.insert p o a) peerId rest)
    (hkeep : ∀ o peer, h.table.lookup p = some o → h.shared.records.objects[o]? = some peer →
      (w.effect o peer).state = peer.state ∧
        (h.next blake3 (.run t)).engine.viewOf p (w.effect o peer) = g (h.engine.viewOf p peer)) :
    (h.next blake3 (.run t)).engine.view p = (h.engine.view p).bind fun v => some (g v) := by
  refine view_run_of_shows blake3 hs hw hno fun o peer hl hpeer _ => ?_
  obtain ⟨hstate, hview⟩ := hkeep o peer hl hpeer
  rw [Engine.shows, Engine.shows, hstate, hview]
  split <;> rfl

/-- A transition to `Connected` is announced next, the others do not concern connected peers. -/
theorem view_run_transitionTo {id peerId : PeerId} {o : ℕ} {prev next : PeerState} {rest : List PeerState}
    (hw₀ : w = .call (.transitionTo id o prev next) peerId rest) :
    (h.next blake3 (.run t)).Announcing ∨
      ∀ p, (h.next blake3 (.run t)).engine.view p = (h.engine.view p).bind fun v => some v := by
  subst hw₀
  obtain ⟨peer, hpeer, hid⟩ := hs.held t _ peerId rest o hw rfl
  have hnext : next ∈ registration := (hs.regular hw).2.subset List.mem_cons_self
  by_cases hreach : peer.state.canTransitionTo next = true ∧ next = .connected
  · left
    obtain ⟨hcan, rfl⟩ := hreach
    have hstage : (h.shared.records.perform (.transitionTo id o prev .connected)).2 =
        .sendStateChanged id o prev .connected := by
      rw [PeerTable.perform, hpeer]
      simp [Peer.transition, PeerState.transition, hcan, Except.map]
    have hperforms := hs.performs t _ hw
    cases t with
    | outbound | health => cases hperforms.1
    | worker who =>
        have hannounce : (h.next blake3 (.run (.worker who))).nextOp (.worker who) =
            some (.call (.sendStateChanged id o prev .connected) peerId rest) := by
          refine Pool.nextOp_run_of_stage hw ?_
          have hstays : Shared.afterCall peerId rest (.sendStateChanged id o prev .connected) =
              .inl (.call (.sendStateChanged id o prev .connected) peerId rest) := by cases rest <;> rfl
          exact (congrArg (Shared.afterCall peerId rest) hstage).trans hstays
        exact ⟨who, _, hannounce, _, List.mem_singleton_self _, rfl⟩
  · right
    intro p
    refine view_run_of_shows blake3 hs hw (fun _ _ _ _ h => by cases h) fun o' peer' hl hpeer' _ => ?_
    have hview := viewOf_run blake3 hw p
    have hsame : (h.next blake3 (.run t)).engine.shows p peer' = h.engine.shows p peer' := by
      rw [Engine.shows, Engine.shows, hview]
    rw [Op.effect, PeerCall.effect]
    split
    · next heq =>
        subst heq
        obtain rfl : peer = peer' := Option.some.inj (hpeer.symm.trans hpeer')
        rw [Peer.transition_getD]
        by_cases hcan : peer.state.canTransitionTo next = true
        · -- neither the old state nor the new one is `Connected`
          have hne : next ≠ .connected := fun heq => hreach ⟨hcan, heq⟩
          have hbefore : peer.state ≠ .connected := by
            intro heq
            rw [heq] at hcan
            revert hcan hnext
            cases next <;> decide
          rw [if_pos hcan, Engine.shows, Engine.shows, if_neg hne, if_neg hbefore]
          rfl
        · rw [if_neg hcan, hsame]
          cases h.engine.shows p peer <;> rfl
    · rw [hsame]
      cases h.engine.shows p peer' <;> rfl

/-- An inserted record is not connected. -/
theorem view_run_insert {id peerId : PeerId} {o : ℕ} {a : SocketAddr} {rest : List PeerState}
    (hw₀ : w = .call (.insert id o a) peerId rest) (p : PeerId) :
    (h.next blake3 (.run t)).engine.view p = (h.engine.view p).bind fun v => if p = id then none else some v := by
  subst hw₀
  by_cases hp : p = id
  · subst hp
    obtain ⟨⟨peer, hpeer, -, hstate⟩, -⟩ := hs.drafts t _ o a .discovering hw rfl
    have hstate' : ((Op.call (.insert p o a) peerId rest).effect o peer).state ≠ .connected := by
      rw [show (Op.call (.insert p o a) peerId rest).effect o peer = peer from rfl, hstate]
      decide
    rw [view_of_lookup (lookup_table_insert blake3 hw), object_run blake3 hw hpeer, Option.bind_some, Engine.shows,
      if_neg hstate']
    simp
  · simp only [if_neg hp]
    refine view_run_of_viewOf blake3 hs hw (fun v => v) ?_ fun o' peer hl hpeer => ⟨rfl, viewOf_run blake3 hw p peer⟩
    rintro o' a' peerId' rest' heq
    cases heq
    exact hp rfl

theorem view_run_set {o : ℕ} {f : PeerSetter} (hw₀ : w = .set (some o) f) (p : PeerId) :
    (h.next blake3 (.run t)).engine.view p =
      (h.engine.view p).bind fun v => some (if h.table.lookup p = some o then f.revise v else v) := by
  subst hw₀
  have hplain : f.Plain := hs.regular hw
  refine view_run_of_viewOf blake3 hs hw (fun v => if h.table.lookup p = some o then f.revise v else v) nofun
    fun o' peer hl hpeer => ?_
  rw [viewOf_run blake3 hw, hl, Op.effect]
  by_cases ho : o = o'
  · subst ho
    rw [if_pos rfl]
    dsimp only
    rw [if_pos rfl]
    cases f with
    | underlayAddr | transition => exact hplain.elim
    | overlayAddr | overlayIpv6 | hostname | publicAddr | latencyMs | pathKind => exact ⟨rfl, rfl⟩
  · have hne : some o' ≠ some o := fun heq => ho (Option.some.inj heq).symm
    rw [if_neg ho]
    dsimp only
    rw [if_neg hne]
    exact ⟨rfl, rfl⟩

/-- An operation revises the views, unless an event that has the file rewritten is sent or comes next. -/
theorem view_run : (∃ event ∈ w.sends, event.Rewrites) ∨ (h.next blake3 (.run t)).Announcing ∨
    ∀ p, (h.next blake3 (.run t)).engine.view p = (h.engine.view p).bind fun v => w.revise h p v := by
  have hview := viewOf_run blake3 hw
  -- nothing is done to the record of a peer
  have hsame (hno : ∀ p o a peerId rest, w ≠ .call (.insert p o a) peerId rest)
      (heffect : ∀ o peer, (∃ id, h.table.lookup id = some o) → w.effect o peer = peer)
      (hviewOf : ∀ p peer, (h.next blake3 (.run t)).engine.viewOf p peer = h.engine.viewOf p peer) (p : PeerId) :
      (h.next blake3 (.run t)).engine.view p = (h.engine.view p).bind fun v => some v := by
    refine view_run_of_viewOf blake3 hs hw (fun v => v) (hno p) fun o peer hl hpeer => ?_
    rw [heffect o peer ⟨p, hl⟩]
    exact ⟨rfl, hviewOf p peer⟩
  cases w with
  | relayPath dst path =>
      exact .inr (.inr fun p => view_run_of_viewOf blake3 hs hw (fun v => if p = dst then { v with path := some path } else v)
        nofun fun o peer hl hpeer => ⟨rfl, hview p peer⟩)
  | route overlay q =>
      exact .inr (.inr fun p => view_run_of_viewOf blake3 hs hw
        (fun v => if p = q then { v with overlay := some overlay.ip } else v) nofun
        fun o peer hl hpeer => ⟨rfl, hview p peer⟩)
  | staleRoute q =>
      exact .inr (.inr fun p => view_run_of_viewOf blake3 hs hw
        (fun v => if h.engine.staleOwner q = some p then { v with overlay := none } else v) nofun
        fun o peer hl hpeer => ⟨rfl, hview p peer⟩)
  | candidate | send | tun => exact .inr (.inr (hsame nofun (fun _ _ _ => rfl) hview))
  | set o f =>
      cases o with
      | none => exact .inr (.inr (hsame nofun (fun _ _ _ => rfl) hview))
      | some o => exact .inr (.inr (view_run_set blake3 hs hw rfl))
  | call c peerId rest =>
      cases c with
      | discover | sendDiscovered | get | transitionPeer | readState | returned | finished =>
          exact .inr (.inr (hsame nofun (fun _ _ _ => rfl) hview))
      | insert id o a => exact .inr (.inr (view_run_insert blake3 hs hw rfl))
      | transitionTo id o prev next => exact .inr (view_run_transitionTo blake3 hs hw rfl)
      | sendStateChanged id o prev next =>
          by_cases hnext : next = .connected
          · exact .inl ⟨_, List.mem_singleton_self _, hnext⟩
          · exact .inr (.inr (hsame nofun (fun _ _ _ => rfl) hview))
      | transition id o a =>
          refine .inr (.inr (hsame nofun (fun o' peer hl => if_neg ?_) hview))
          rintro rfl
          obtain ⟨id', hl⟩ := hl
          exact (hs.drafts t _ o a .disconnected hw rfl).2 id' hl
      | setUnderlay id o a =>
          refine .inr (.inr fun p => view_run_of_viewOf blake3 hs hw
            (fun v => if h.table.lookup p = some o then { v with underlay := some a } else v) nofun
            fun o' peer hl hpeer => ?_)
          rw [hview, hl, Op.effect, PeerCall.effect]
          by_cases ho : o = o'
          · subst ho
            rw [if_pos rfl]
            dsimp only
            rw [if_pos rfl]
            exact ⟨rfl, rfl⟩
          · have hne : some o' ≠ some o := fun heq => ho (Option.some.inj heq).symm
            rw [if_neg ho]
            dsimp only
            rw [if_neg hne]
            exact ⟨rfl, rfl⟩

end run

theorem events_loop (a : LoopAction S) : (h.next blake3 (.loop a)).events = h.events :=
  congrArg PeerManager.events (peerMgr_loop blake3 a)

/-- All that a step of a loop does to the views is its update. -/
theorem view_loop (a : LoopAction S) (p : PeerId) : (h.next blake3 (.loop a)).engine.view p =
    (h.engine.view p).map fun v => (h.loopUpdate a).revise blake3 p v := by
  obtain ⟨e, hbefore, hafter⟩ := tables_loop blake3 (h := h) a
  have helementary := elementary_loopUpdate (h := h) a
  have hview (peer : Peer) : (h.next blake3 (.loop a)).engine.viewOf p peer =
      (h.loopUpdate a).revise blake3 p (h.engine.viewOf p peer) := by
    rw [Engine.viewOf, hafter.routingTable, hafter.relayPaths]
    dsimp only
    rw [Update.routingTable_apply helementary, Update.relayPaths_apply helementary, hbefore.routingTable,
      hbefore.relayPaths]
    cases h.loopUpdate a with
    | complete c =>
        rw [Update.revise]
        dsimp only
        by_cases hp : p = c.peerId
        · subst hp
          cases c.stage <;> simp [Engine.viewOf, RoutingTable.lookupPeerIp_addRoute]
        · cases c.stage <;> simp [Engine.viewOf, RoutingTable.lookupPeerIp_addRoute, hp]
    | none | message | removeSession | removeAddrIndex | tunPacket | healthcheck | relayFlag | stunAddr => rfl
  have hpeerMgr : (h.next blake3 (.loop a)).engine.peerMgr = h.engine.peerMgr := peerMgr_loop blake3 a
  rw [Engine.view_eq, Engine.view_eq, hpeerMgr]
  cases h.engine.peerMgr.get p with
  | none => rfl
  | some peer =>
      rw [Option.bind_some, Option.bind_some, Engine.shows, Engine.shows, hview]
      split <;> rfl

/-- An announced event is sent in the end. -/
theorem Announcing.run (h₀ : h.Announcing) (hw : h.nextOp t = some w) :
    (∃ event ∈ w.sends, event.Rewrites) ∨ (h.next blake3 (.run t)).Announcing := by
  obtain ⟨who, w', hw', hevent⟩ := h₀
  by_cases ht : HostTask.worker who = t
  · subst ht
    obtain rfl : w' = w := Option.some.inj (hw'.symm.trans hw)
    exact .inl hevent
  · exact .inr ⟨who, w', (Pool.nextOp_run_of_ne ht).trans hw', hevent⟩

/-- The step leaves the views of connected peers as they are: it writes nothing, or what is there already. -/
def Quiet (h : Host S) : HostAction S → Prop
  | .run t => ∀ w ∈ h.nextOp t, ∀ p, ∀ v ∈ h.engine.view p, w.revise h p v = some v
  | .loop a => ∀ p, ∀ v ∈ h.engine.view p, (h.loopUpdate a).revise blake3 p v = v

instance : Decidable h.Announcing :=
  decidable_of_iff (∃ who ∈ h.workers, ∃ w ∈ h.nextOp (.worker who), ∃ event ∈ w.sends, event.Rewrites)
    ⟨fun ⟨who, _, h₀⟩ => ⟨who, h₀⟩, fun ⟨who, w, hw, h₀⟩ => ⟨who, mem_workers_of_nextOp hw, w, hw, h₀⟩⟩

instance (P : PeerId → PeerView → Prop) [∀ p, DecidablePred (P p)] :
    Decidable (∀ p, ∀ v ∈ h.engine.view p, P p v) :=
  decidable_of_iff (∀ p ∈ h.engine.peerMgr.connectedPeers, ∀ v ∈ h.engine.view p, P p v)
    ⟨fun h₀ p v hv => h₀ p (Engine.mem_connectedPeers_iff.mpr ⟨v, hv⟩) v hv, fun h₀ p _ => h₀ p⟩

instance (blake3 : Blake3) : DecidablePred (h.Quiet blake3)
  | .run t => inferInstanceAs (Decidable (∀ w ∈ h.nextOp t, ∀ p, ∀ v ∈ h.engine.view p, w.revise h p v = some v))
  | .loop a => inferInstanceAs (Decidable (∀ p, ∀ v ∈ h.engine.view p, (h.loopUpdate a).revise blake3 p v = v))

/-- The views are the same, and so are the handles of the peers that are shown. -/
structure SameViews (h h' : Host S) : Prop where
  view : ∀ p, h'.engine.view p = h.engine.view p
  handle : ∀ p v, h.engine.view p = some v → h'.table.lookup p = h.table.lookup p

/-- What a step does to the views, and which events it sends. -/
theorem view_next (hs : h.Sound) (a : HostAction S) : ∃ new, (h.next blake3 a).events = h.events ++ new ∧
    ((∃ event ∈ new, event.Rewrites) ∨ (h.next blake3 a).Announcing ∨
      ¬ h.Announcing ∧ (h.Quiet blake3 a → SameViews h (h.next blake3 a))) := by
  cases a with
  | loop a =>
      refine ⟨[], (events_loop blake3 a).trans (List.append_nil _).symm, ?_⟩
      by_cases hannounce : h.Announcing
      · obtain ⟨who, w, hw, hevent⟩ := hannounce
        exact .inr (.inl ⟨who, w, nextOp_loop_of_some blake3 hw a, hevent⟩)
      · refine .inr (.inr ⟨hannounce, fun hquiet => ⟨fun p => ?_, fun p v hv => ?_⟩⟩)
        · rw [view_loop]
          cases hv : h.engine.view p with
          | none => rfl
          | some v => exact congrArg some (hquiet p v hv)
        · rw [table_loop]
  | run t =>
      cases hw : h.nextOp t with
      | none =>
          have hshared : (h.next blake3 (.run t)).shared = h.shared := by
            rw [shared_run, hw]
            rfl
          have hengine := engine_run_none blake3 hw
          refine ⟨[], (congrArg (fun e : Engine (SecureTransport S) => e.peerMgr.events) hengine).trans
            (List.append_nil _).symm, ?_⟩
          by_cases hannounce : h.Announcing
          · obtain ⟨who, w, hw', hevent⟩ := hannounce
            have hne : HostTask.worker who ≠ t := by
              rintro rfl
              cases hw.symm.trans hw'
            exact .inr (.inl ⟨who, w, (Pool.nextOp_run_of_ne hne).trans hw', hevent⟩)
          · refine .inr (.inr ⟨hannounce, fun _ => ⟨fun p => by rw [hengine], fun p v _ => ?_⟩⟩)
            rw [table, hshared]
            rfl
      | some w =>
          refine ⟨w.sends, events_run blake3 hw, ?_⟩
          by_cases hannounce : h.Announcing
          · exact (hannounce.run blake3 hw).imp_right .inl
          · refine (view_run blake3 hs hw).imp_right (Or.imp_right fun hview => ⟨hannounce, fun hquiet => ?_⟩)
            refine ⟨fun p => ?_, fun p v hv => ?_⟩
            · rw [hview p]
              cases hv : h.engine.view p with
              | none => rfl
              | some v => exact hquiet w hw p v hv
            · refine lookup_table_run blake3 hw ?_
              rintro o a peerId rest rfl
              have hrevise := hquiet _ hw p v hv
              rw [Op.revise, if_pos rfl] at hrevise
              cases hrevise

end Host

/-! ### Entries, read value by value -/

/-- The reads of `build_peer_entry`. -/
inductive EntryRead where
  | overlay
  /-- `peer_mgr.get(id)` -/
  | handle
  | underlay
  | overlayIpv6
  | hostname
  | publicAddr
  | path
  | latency
deriving DecidableEq

/-- An entry that is being read: the handle of the record, and the values so far. -/
structure Reading where
  id : PeerId
  handle : Option ℕ := none
  view : PeerView :=
    { overlay := none, overlayIpv6 := none, hostname := "", publicAddr := none, path := none, latencyMs := none
      underlay := none }
deriving DecidableEq

/-- The record is looked up again for the latency. -/
def Reading.order : List EntryRead :=
  [.overlay, .handle, .underlay, .overlayIpv6, .hostname, .publicAddr, .path, .handle, .latency]

namespace Host

variable (h : Host S)

/-- The object of the handle. -/
def held (r : Reading) : Option Peer := r.handle.bind fun o => h.shared.records.objects[o]?

def read (r : Reading) : EntryRead → Reading
  | .overlay => { r with view := { r.view with overlay := h.engine.routingTable.lookupPeerIp r.id } }
  | .handle => { r with handle := h.table.lookup r.id }
  | .underlay => { r with view := { r.view with underlay := (h.held r).bind (·.underlayAddr) } }
  | .overlayIpv6 => { r with view := { r.view with overlayIpv6 := (h.held r).bind (·.overlayIpv6) } }
  | .hostname => { r with view := { r.view with hostname := ((h.held r).map (·.hostname)).getD "" } }
  | .publicAddr => { r with view := { r.view with publicAddr := (h.held r).bind (·.publicAddr) } }
  | .path => { r with view := { r.view with path := h.engine.relayPaths.lookup r.id } }
  | .latency => { r with view := { r.view with latencyMs := (h.held r).bind (·.latencyMs) } }

/-- The entry, if the rest of it is read without interruption. -/
def finish (r : Reading) (reads : List EntryRead) : Reading := reads.foldl h.read r

/-- No handle, or that of the record in the table. -/
def Holds (r : Reading) : Prop := r.handle = none ∨ r.handle = h.table.lookup r.id

variable {h} {h' : Host S} {r : Reading}

@[simp] theorem read_id (x : EntryRead) : (h.read r x).id = r.id := by cases x <;> rfl

theorem Holds.read (hr : h.Holds r) (x : EntryRead) : h.Holds (h.read r x) := by
  cases x with
  | handle => exact .inr rfl
  | overlay | underlay | overlayIpv6 | hostname | publicAddr | path | latency => exact hr

theorem view_eq_some {p : PeerId} {v : PeerView} (hv : h.engine.view p = some v) :
    ∃ o peer, h.table.lookup p = some o ∧ h.shared.records.objects[o]? = some peer ∧ peer.state = .connected ∧
      h.engine.viewOf p peer = v := by
  obtain ⟨peer, hget, hstate, hview⟩ := Engine.view_eq_some.mp hv
  rw [get_eq] at hget
  obtain ⟨o, hl, hpeer⟩ := Option.bind_eq_some_iff.mp hget
  exact ⟨o, peer, hl, hpeer, hstate, hview⟩

/-- Without interruption, what is read is the view. -/
theorem finish_order {p : PeerId} {v : PeerView} (hv : h.engine.view p = some v) :
    (h.finish { id := p } Reading.order).view = v := by
  obtain ⟨o, peer, hl, hpeer, -, rfl⟩ := view_eq_some hv
  simp [finish, Reading.order, read, held, hl, hpeer, Engine.viewOf]

/-- A read is of what the views show. -/
theorem read_congr (hsame : SameViews h h') (hr : h.Holds r) {v : PeerView} (hv : h.engine.view r.id = some v)
    (x : EntryRead) : h'.read r x = h.read r x := by
  have hhandle := hsame.handle r.id v hv
  obtain ⟨o, peer, hl, hpeer, -, rfl⟩ := view_eq_some hv
  obtain ⟨o', peer', hl', hpeer', -, hview⟩ := view_eq_some ((hsame.view r.id).trans hv)
  obtain rfl : o = o' := Option.some.inj (hl.symm.trans (hhandle.symm.trans hl'))
  simp only [Engine.viewOf, PeerView.mk.injEq] at hview
  obtain ⟨hoverlay, hipv6, hhostname, hpublic, hpath, hlatency, hunderlay⟩ := hview
  have hheld : h'.held r = none ∧ h.held r = none ∨ h'.held r = some peer' ∧ h.held r = some peer := by
    rw [held, held]
    rcases hr with hr | hr
    · rw [hr]
      exact .inl ⟨rfl, rfl⟩
    · rw [hr, hl]
      exact .inr ⟨hpeer', hpeer⟩
  have hbind {α : Type} (f : Peer → Option α) (hf : f peer' = f peer) : (h'.held r).bind f = (h.held r).bind f := by
    obtain ⟨hnone, hnone'⟩ | ⟨hsome, hsome'⟩ := hheld
    · rw [hnone, hnone']
    · rw [hsome, hsome', Option.bind_some, Option.bind_some, hf]
  have hname : (h'.held r).map (·.hostname) = (h.held r).map (·.hostname) := by
    obtain ⟨hnone, hnone'⟩ | ⟨hsome, hsome'⟩ := hheld
    · rw [hnone, hnone']
    · rw [hsome, hsome', Option.map_some, Option.map_some, hhostname]
  cases x with
  | overlay => rw [read, read, hoverlay]
  | handle => rw [read, read, hhandle]
  | underlay => rw [read, read, hbind _ hunderlay]
  | overlayIpv6 => rw [read, read, hbind _ hipv6]
  | hostname => rw [read, read, hname]
  | publicAddr => rw [read, read, hbind _ hpublic]
  | path => rw [read, read, hpath]
  | latency => rw [read, read, hbind _ hlatency]

theorem finish_congr (hsame : SameViews h h') (hr : h.Holds r) {v : PeerView} (hv : h.engine.view r.id = some v)
    (reads : List EntryRead) : h'.finish r reads = h.finish r reads := by
  induction reads generalizing r with
  | nil => rfl
  | cons x reads ih =>
      have hread := read_congr hsame hr hv x
      show h'.finish (h'.read r x) reads = h.finish (h.read r x) reads
      rw [hread]
      exact ih (hr.read x) (by rwa [read_id])

end Host

/-! ### The peers-file loop -/

/-- How far the peers-file loop is. -/
inductive PeersFileStage where
  | starting
  | waiting
  /-- the handler of `Removed` -/
  | removeSession (id : PeerId)
  | removeIndex
  /-- `connected_peers`: the records to be looked at, and those that were, with whether they were connected -/
  | collect (todo : List PeerId) (looked : List (PeerId × Bool))
  /-- `build_peers_json`: the peers whose entries are to be read, and the entries so far -/
  | entries (todo : List PeerId) (texts : List String)
  | reading (r : Reading) (reads : List EntryRead) (todo : List PeerId) (texts : List String)
deriving DecidableEq

/-- The peers that have been found connected. -/
def connectedOf (looked : List (PeerId × Bool)) : List PeerId := (looked.filter (·.2)).map (·.1)

/-- A node with its peers-file loop. -/
structure Daemon (S : Snow) where
  host : Host S
  localJson : String
  /-- how many events have been received or missed, once the loop's receiver has subscribed -/
  received : Option ℕ := none
  stage : PeersFileStage := .starting
  /-- what `peers.json` contains -/
  file : String := ""

inductive DaemonAction (S : Snow) where
  | host (a : HostAction S)
  /-- events sent earlier are missed -/
  | subscribe
  /-- the next step of the peers-file loop -/
  | work
  /-- the iterator of `connected_peers` comes to a record that was inserted meanwhile -/
  | late (id : PeerId)

/-- The handler of removed peers is part of the peers-file loop. -/
def HostAction.ofPeersFile : HostAction S → Bool
  | .loop (.task (.removed _)) | .loop (.task .removal) => true
  | _ => false

namespace Host

variable (h : Host S)

/-- `state().await == PeerState::Connected`. -/
def isConnected (p : PeerId) : Bool := (h.engine.peerMgr.get p).any fun peer => decide (peer.state = .connected)

end Host

namespace Daemon

variable (blake3 : Blake3) (d : Daemon S)

def engine : Engine (SecureTransport S) := d.host.engine

/-- What the loop begins on an event. -/
def begin : PeerEvent → PeersFileStage
  | .removed id => .removeSession id
  | .stateChanged _ _ .connected => .collect d.host.table.keys []
  | _ => .waiting

/-- `peer_events.recv()` -/
def receive : Daemon S :=
  match d.received with
  | none => d
  | some k =>
    match d.host.events[k]? with
    | none => d
    | some event => { d with received := some (k + 1), stage := d.begin event }

def work : Daemon S :=
  match d.stage with
  | .starting =>
    if d.received.isSome then
      { d with stage := .waiting, file := "\x7b\"local\":" ++ d.localJson ++ ",\"peers\":[]\x7d" }
    else d
  | .waiting => d.receive
  | .removeSession id => { d with host := d.host.next blake3 (.loop (.task (.removed id))), stage := .removeIndex }
  | .removeIndex =>
    let host := d.host.next blake3 (.loop (.task .removal))
    { d with host := host, stage := .collect host.table.keys [] }
  | .collect (id :: todo) looked => { d with stage := .collect todo (looked ++ [(id, d.host.isConnected id)]) }
  | .collect [] looked => { d with stage := .entries (connectedOf looked) [] }
  | .entries (id :: todo) texts => { d with stage := .reading { id := id } Reading.order todo texts }
  | .entries [] texts => { d with stage := .waiting, file := peersText d.localJson texts }
  | .reading r (x :: reads) todo texts => { d with stage := .reading (d.host.read r x) reads todo texts }
  | .reading r [] todo texts => { d with stage := .entries todo (texts ++ [(r.view.entry r.id).text]) }

def next : DaemonAction S → Daemon S
  | .host a => if a.ofPeersFile then d else { d with host := d.host.next blake3 a }
  | .subscribe => if d.received.isSome then d else { d with received := some d.host.events.length }
  | .work => d.work blake3
  | .late id =>
    match d.stage with
    | .collect todo looked =>
      if id ∈ d.host.table ∧ id ∉ todo ∧ id ∉ looked.map (·.1) then { d with stage := .collect (todo ++ [id]) looked }
      else d
    | _ => d

/-- The loop has not started, and the node has. -/
structure Initial : Prop where
  host : d.host.Initial
  received : d.received = none
  stage : d.stage = .starting

/-- The loop has received every event and is done with it. -/
def CaughtUp : Prop := d.received = some d.host.events.length ∧ d.stage = .waiting

instance : Decidable d.CaughtUp :=
  inferInstanceAs (Decidable (d.received = some d.host.events.length ∧ d.stage = .waiting))

/-- The file is what `build_peers_json` makes of the state, in some order of the connected peers. -/
def FileCurrent : Prop := ∃ ids : List PeerId, ids.Perm d.engine.peerMgr.connectedPeers ∧
  d.file = peersText d.localJson (ids.map d.engine.buildPeerEntry)

/-- An event that has the file rewritten is still to be received. -/
def Behind : Prop := ∃ k ∈ d.received, ∃ event ∈ d.host.events.drop k, event.Rewrites

/-- The receiver subscribes before a peer is connected.  After that a step of another task changes nothing that the file
shows, unless an event that has it rewritten is still to be received, or to be sent by the task that has made a record
`Connected`. -/
def KeepsFile : DaemonAction S → Prop
  | .host a => d.received = none ∨ d.Behind ∨ d.host.Announcing ∨ d.host.Quiet blake3 a
  | .subscribe => d.received = none → d.host.Announcing ∨ d.engine.peerMgr.connectedPeers = []
  | .work | .late _ => True

instance : Decidable d.Behind :=
  inferInstanceAs (Decidable (∃ k ∈ d.received, ∃ event ∈ d.host.events.drop k, event.Rewrites))

instance : DecidablePred (d.KeepsFile blake3)
  | .host a => inferInstanceAs
      (Decidable (d.received = none ∨ d.Behind ∨ d.host.Announcing ∨ d.host.Quiet blake3 a))
  | .subscribe => inferInstanceAs
      (Decidable (d.received = none → d.host.Announcing ∨ d.engine.peerMgr.connectedPeers = []))
  | .work | .late _ => .isTrue trivial

end Daemon

/-! ### The invariant of the loop -/

/-- What has been read so far is still so, and the rest will be read as it is now. -/
def PeersFileStage.UpToDate (h : Host S) (localJson file : String) : PeersFileStage → Prop
  | .starting => h.engine.peerMgr.connectedPeers = []
  | .waiting => ∃ ids : List PeerId, ids.Perm h.engine.peerMgr.connectedPeers ∧
      file = peersText localJson (ids.map h.engine.buildPeerEntry)
  | .removeSession _ | .removeIndex => True
  | .collect todo looked =>
    (connectedOf looked ++ todo.filter h.isConnected).Perm h.engine.peerMgr.connectedPeers
  | .entries todo texts => ∃ ids : List PeerId, (ids ++ todo).Perm h.engine.peerMgr.connectedPeers ∧
      texts = ids.map h.engine.buildPeerEntry
  | .reading r reads todo texts => ∃ ids : List PeerId, (ids ++ r.id :: todo).Perm h.engine.peerMgr.connectedPeers ∧
      texts = ids.map h.engine.buildPeerEntry ∧ h.Holds r ∧ h.engine.view r.id = some (h.finish r reads).view

namespace Host

variable {h h' : Host S}

/-- The texts of connected peers follow from their views. -/
theorem map_buildPeerEntry (hsame : SameViews h h') {ids : List PeerId}
    (hids : ∀ p ∈ ids, p ∈ h.engine.peerMgr.connectedPeers) :
    ids.map h'.engine.buildPeerEntry = ids.map h.engine.buildPeerEntry := by
  refine List.map_congr_left fun p hp => ?_
  obtain ⟨v, hv⟩ := Engine.mem_connectedPeers_iff.mp (hids p hp)
  rw [Engine.buildPeerEntry, Engine.buildPeerEntry, Engine.peerEntry_of_view hv,
    Engine.peerEntry_of_view ((hsame.view p).trans hv)]

theorem isConnected_eq (p : PeerId) : h.isConnected p = (h.engine.view p).isSome := by
  rw [isConnected, Engine.view]
  cases h.engine.peerMgr.get p with
  | none => rfl
  | some peer =>
      rw [Option.any_some, Option.bind_some]
      split <;> simp_all

/-- Every connected peer is among the records. -/
theorem filter_keys_perm (h : Host S) : (h.table.keys.filter h.isConnected).Perm h.engine.peerMgr.connectedPeers := by
  rw [List.perm_ext_iff_of_nodup (h.table.keys_nodup.filter _) (Engine.nodup_connectedPeers _)]
  intro p
  rw [List.mem_filter, isConnected_eq, Option.isSome_iff_exists, Engine.mem_connectedPeers_iff]
  refine ⟨And.right, fun hview => ⟨?_, hview⟩⟩
  obtain ⟨v, hv⟩ := hview
  obtain ⟨o, peer, hl, -⟩ := view_eq_some hv
  exact Map.mem_iff_lookup.mpr ⟨o, hl⟩

end Host

namespace PeersFileStage

variable {h h' : Host S} {localJson file : String}

/-- The loop is up to date as long as the views are the same. -/
theorem UpToDate.congr {stage : PeersFileStage} (hup : stage.UpToDate h localJson file) (hsame : Host.SameViews h h') :
    stage.UpToDate h' localJson file := by
  have hperm : h'.engine.peerMgr.connectedPeers.Perm h.engine.peerMgr.connectedPeers :=
    Engine.connectedPeers_perm hsame.view
  cases stage with
  | starting =>
      rw [UpToDate] at hup ⊢
      exact List.perm_nil.mp (hup ▸ hperm)
  | waiting =>
      obtain ⟨ids, hids, hfile⟩ := hup
      refine ⟨ids, hids.trans hperm.symm, hfile.trans ?_⟩
      exact congrArg _ (Host.map_buildPeerEntry hsame fun p => hids.mem_iff.mp).symm
  | removeSession | removeIndex => trivial
  | collect todo looked =>
      have hconnected : h'.isConnected = h.isConnected := by
        funext p
        rw [Host.isConnected_eq, Host.isConnected_eq, hsame.view]
      rw [UpToDate] at hup ⊢
      rw [hconnected]
      exact hup.trans hperm.symm
  | entries todo texts =>
      obtain ⟨ids, hids, htexts⟩ := hup
      refine ⟨ids, hids.trans hperm.symm, htexts.trans ?_⟩
      exact (Host.map_buildPeerEntry hsame fun p hp => hids.mem_iff.mp (List.mem_append_left _ hp)).symm
  | reading r reads todo texts =>
      obtain ⟨ids, hids, htexts, hholds, hview⟩ := hup
      refine ⟨ids, hids.trans hperm.symm, htexts.trans ?_, ?_, ?_⟩
      · exact (Host.map_buildPeerEntry hsame fun p hp => hids.mem_iff.mp (List.mem_append_left _ hp)).symm
      · exact hholds.imp_right fun hhandle => hhandle.trans (hsame.handle r.id _ hview).symm
      · exact (hsame.view r.id).trans (hview.trans (by rw [Host.finish_congr hsame hholds hview]))

/-- Before the first peer is looked at, the loop is up to date. -/
theorem upToDate_collect : (collect h.table.keys []).UpToDate h localJson file := h.filter_keys_perm

theorem UpToDate.collect_next {id : PeerId} {todo : List PeerId} {looked : List (PeerId × Bool)}
    (hup : (collect (id :: todo) looked).UpToDate h localJson file) :
    (collect todo (looked ++ [(id, h.isConnected id)])).UpToDate h localJson file := by
  rw [UpToDate] at hup ⊢
  rw [List.filter_cons] at hup
  rw [connectedOf, List.filter_append, List.map_append]
  cases hid : h.isConnected id with
  | true =>
      rw [if_pos hid] at hup
      rw [List.append_assoc]
      exact hup
  | false =>
      rw [if_neg (by simp [hid])] at hup
      rw [List.append_assoc]
      exact hup

/-- A connected peer that is not to be looked at has been found already. -/
theorem UpToDate.collect_late {id : PeerId} {todo : List PeerId} {looked : List (PeerId × Bool)}
    (hup : (collect todo looked).UpToDate h localJson file) (htodo : id ∉ todo) (hlooked : id ∉ looked.map (·.1)) :
    (collect (todo ++ [id]) looked).UpToDate h localJson file := by
  rw [UpToDate] at hup ⊢
  have hid : h.isConnected id = false := by
    by_contra hid
    rw [Bool.not_eq_false] at hid
    rw [Host.isConnected_eq, Option.isSome_iff_exists, ← Engine.mem_connectedPeers_iff, ← hup.mem_iff,
      List.mem_append] at hid
    rcases hid with hfound | hfound
    · exact hlooked ((List.filter_sublist.map _).subset hfound)
    · exact htodo (List.mem_filter.mp hfound).1
  rw [List.filter_append, List.filter_singleton, hid, cond_false, List.append_nil]
  exact hup

theorem UpToDate.collect_done {looked : List (PeerId × Bool)} (hup : (collect [] looked).UpToDate h localJson file) :
    (entries (connectedOf looked) []).UpToDate h localJson file :=
  ⟨[], by simpa [UpToDate] using hup, rfl⟩

/-- Every peer that is still to be shown is connected. -/
theorem UpToDate.entries_next {id : PeerId} {todo : List PeerId} {texts : List String}
    (hup : (entries (id :: todo) texts).UpToDate h localJson file) :
    (reading { id := id } Reading.order todo texts).UpToDate h localJson file := by
  obtain ⟨ids, hids, htexts⟩ := hup
  have hmem : id ∈ h.engine.peerMgr.connectedPeers := hids.mem_iff.mp (List.mem_append_right _ List.mem_cons_self)
  obtain ⟨v, hv⟩ := Engine.mem_connectedPeers_iff.mp hmem
  exact ⟨ids, hids, htexts, .inl rfl, hv.trans (congrArg some (Host.finish_order hv).symm)⟩

theorem UpToDate.entries_done {texts : List String} (hup : (entries [] texts).UpToDate h localJson file) :
    waiting.UpToDate h localJson (peersText localJson texts) := by
  obtain ⟨ids, hids, rfl⟩ := hup
  exact ⟨ids, by simpa using hids, rfl⟩

theorem UpToDate.reading_next {r : Reading} {x : EntryRead} {reads : List EntryRead} {todo : List PeerId}
    {texts : List String} (hup : (reading r (x :: reads) todo texts).UpToDate h localJson file) :
    (reading (h.read r x) reads todo texts).UpToDate h localJson file := by
  obtain ⟨ids, hids, htexts, hholds, hview⟩ := hup
  refine ⟨ids, ?_, htexts, hholds.read x, ?_⟩
  · rwa [Host.read_id]
  · rw [Host.read_id]
    exact hview

theorem UpToDate.reading_done {r : Reading} {todo : List PeerId} {texts : List String}
    (hup : (reading r [] todo texts).UpToDate h localJson file) :
    (entries todo (texts ++ [(r.view.entry r.id).text])).UpToDate h localJson file := by
  obtain ⟨ids, hids, rfl, -, hview⟩ := hup
  refine ⟨ids ++ [r.id], ?_, ?_⟩
  · rwa [List.append_assoc]
  · rw [List.map_append, List.map_singleton, Engine.buildPeerEntry, Engine.peerEntry_of_view hview]
    rfl

end PeersFileStage

namespace Daemon

variable {blake3 : Blake3} {d : Daemon S}

/-- Once the loop has started, it is up to date or will be woken up. -/
structure Tracks (d : Daemon S) : Prop where
  sound : d.host.Sound
  started : d.received = none → d.stage = .starting
  bounded : ∀ k ∈ d.received, k ≤ d.host.events.length
  upToDate : d.received ≠ none → d.Behind ∨ d.host.Announcing ∨ d.stage.UpToDate d.host d.localJson d.file

/-- An event that is still to be received stays so, whatever other tasks do. -/
theorem Behind.host (h : d.Behind) {host : Host S} {new : List PeerEvent} (hevents : host.events = d.host.events ++ new) :
    { d with host := host }.Behind := by
  obtain ⟨k, hk, event, hmem, hrewrites⟩ := h
  refine ⟨k, hk, event, ?_, hrewrites⟩
  show event ∈ host.events.drop k
  rw [hevents, List.drop_append]
  exact List.mem_append_left _ hmem

/-- An event that is sent is to be received. -/
theorem Tracks.behind_of_new (h : d.Tracks) (hstarted : d.received ≠ none) {host : Host S} {new : List PeerEvent}
    (hevents : host.events = d.host.events ++ new) (hnew : ∃ event ∈ new, event.Rewrites) :
    { d with host := host }.Behind := by
  obtain ⟨k, hk⟩ := Option.ne_none_iff_exists'.mp hstarted
  obtain ⟨event, hmem, hrewrites⟩ := hnew
  refine ⟨k, hk, event, ?_, hrewrites⟩
  show event ∈ host.events.drop k
  rw [hevents, List.drop_append_of_le_length (h.bounded k hk)]
  exact List.mem_append_right _ hmem

theorem Tracks.host (h : d.Tracks) {a : HostAction S} (hkeep : d.KeepsFile blake3 (.host a)) :
    { d with host := d.host.next blake3 a }.Tracks := by
  obtain ⟨new, hevents, hviews⟩ := Host.view_next blake3 h.sound a
  refine ⟨h.sound.next blake3 a, h.started, fun k hk => ?_, fun hstarted => ?_⟩
  · rw [hevents, List.length_append]
    exact (h.bounded k hk).trans (Nat.le_add_right _ _)
  · rcases hviews with hnew | hannounce | ⟨hquiet, hsame⟩
    · exact .inl (h.behind_of_new hstarted hevents hnew)
    · exact .inr (.inl hannounce)
    · rcases h.upToDate hstarted with hbehind | hannounce | hup
      · exact .inl (hbehind.host hevents)
      · exact absurd hannounce hquiet
      · rcases hkeep with hnone | hbehind | hannounce | hkeep
        · exact absurd hnone hstarted
        · exact .inl (hbehind.host hevents)
        · exact absurd hannounce hquiet
        · exact .inr (.inr (hup.congr (hsame hkeep)))

theorem Tracks.subscribe (h : d.Tracks) (hkeep : d.KeepsFile blake3 .subscribe) :
    (d.next blake3 .subscribe).Tracks := by
  rw [next]
  cases hreceived : d.received with
  | some k => exact h
  | none =>
      have hstage := h.started hreceived
      refine ⟨h.sound, nofun, fun k hk => ?_, fun _ => .inr ?_⟩
      · exact (Option.some.inj hk).ge
      · refine (hkeep hreceived).imp_right fun hnone => ?_
        show PeersFileStage.UpToDate d.host d.localJson d.file d.stage
        rw [hstage]
        exact hnone

/-- A step of the loop that does not receive, nor write the tables. -/
theorem Tracks.proceed (h : d.Tracks) {stage : PeersFileStage} {file : String} (hstarted : d.received ≠ none)
    (hup : d.stage.UpToDate d.host d.localJson d.file → stage.UpToDate d.host d.localJson file) :
    { d with stage := stage, file := file }.Tracks :=
  ⟨h.sound, fun hnone => absurd hnone hstarted, h.bounded, fun _ => (h.upToDate hstarted).imp_right (Or.imp_right hup)⟩

theorem peersText_nil (localJson : String) :
    peersText localJson [] = "\x7b\"local\":" ++ localJson ++ ",\"peers\":[]\x7d" := by
  rw [← String.toList_inj]
  simp [peersText]

/-- An event that does not have the file rewritten leaves the loop waiting. -/
theorem begin_of_not_rewrites {event : PeerEvent} (h : ¬ event.Rewrites) : d.begin event = .waiting := by
  cases event with
  | removed id => exact absurd trivial h
  | discovered | overlayAssigned => rfl
  | stateChanged id prev next =>
      cases next with
      | connected => exact absurd rfl h
      | disconnected | discovering | connecting | handshaking | dead => rfl

/-- On any other event it has everything to read again. -/
theorem upToDate_begin {event : PeerEvent} (h : event.Rewrites) : (d.begin event).UpToDate d.host d.localJson d.file := by
  cases event with
  | removed id => exact trivial
  | discovered | overlayAssigned => cases h
  | stateChanged id prev next =>
      obtain rfl : next = .connected := h
      exact PeersFileStage.upToDate_collect

theorem Tracks.received (h : d.Tracks) (hwaiting : d.stage = .waiting) {k : ℕ} {event : PeerEvent}
    (hreceived : d.received = some k) (hevent : d.host.events[k]? = some event) :
    { d with received := some (k + 1), stage := d.begin event }.Tracks := by
  obtain ⟨hk, hget⟩ := List.getElem?_eq_some_iff.mp hevent
  refine ⟨h.sound, nofun, fun k' hk' => ?_, fun _ => ?_⟩
  · obtain rfl : k + 1 = k' := Option.some.inj hk'
    exact hk
  · by_cases hrewrites : event.Rewrites
    · exact .inr (.inr (upToDate_begin hrewrites))
    · rcases h.upToDate (hreceived ▸ Option.some_ne_none k) with ⟨k', hk', e, hmem, he⟩ | hrest
      · obtain rfl : k = k' := Option.some.inj (hreceived.symm.trans hk')
        refine .inl ⟨k + 1, rfl, e, ?_, he⟩
        rw [List.drop_eq_getElem_cons hk, hget, List.mem_cons] at hmem
        rcases hmem with rfl | hmem
        · exact absurd he hrewrites
        · exact hmem
      · refine .inr (hrest.imp_right fun hup => ?_)
        rw [begin_of_not_rewrites hrewrites]
        rwa [hwaiting] at hup

theorem Tracks.receive (h : d.Tracks) (hwaiting : d.stage = .waiting) : d.receive.Tracks := by
  unfold Daemon.receive
  split
  · exact h
  · split
    · exact h
    · exact h.received hwaiting ‹_› ‹_›

/-- The handler of removed peers changes nothing that the file shows. -/
theorem revise_ofPeersFile {a : LoopAction S} (ha : (HostAction.loop a).ofPeersFile) (p : PeerId) (v : PeerView) :
    (d.host.loopUpdate a).revise blake3 p v = v := by
  unfold Host.loopUpdate
  split
  · rfl
  · cases a with
    | tunPacket | healthcheck | relayFlag | stunAddr => cases ha
    | task a =>
        cases a with
        | removed | removal =>
            dsimp only [Node.update]
            split <;> rfl
        | receive | inbound | start | attempt | timeout | discover | discovery | broadcast => cases ha

/-- A step of that handler. -/
theorem Tracks.removal (h : d.Tracks) (hstarted : d.received ≠ none) {a : LoopAction S}
    (ha : (HostAction.loop a).ofPeersFile) {stage : PeersFileStage}
    (hup : stage.UpToDate (d.host.next blake3 (.loop a)) d.localJson d.file) :
    { d with host := d.host.next blake3 (.loop a), stage := stage }.Tracks := by
  have hquiet : d.KeepsFile blake3 (.host (.loop a)) := .inr (.inr (.inr fun p v _ => revise_ofPeersFile ha p v))
  have hhost := h.host hquiet
  exact ⟨hhost.sound, fun hreceived => absurd hreceived hstarted, hhost.bounded, fun _ =>
    (hhost.upToDate hstarted).imp_right (Or.imp_right fun _ => hup)⟩

theorem Tracks.work (h : d.Tracks) : (d.work blake3).Tracks := by
  by_cases hreceived : d.received = none
  · have hidle : d.work blake3 = d := by
      rw [Daemon.work, h.started hreceived, hreceived]
      rfl
    exact hidle.symm ▸ h
  unfold Daemon.work
  split
  · next hstage =>
      rw [if_pos (Option.isSome_iff_ne_none.mpr hreceived)]
      refine h.proceed hreceived fun hup => ?_
      rw [hstage] at hup
      exact ⟨[], hup ▸ .nil, (peersText_nil d.localJson).symm⟩
  · next hstage => exact h.receive hstage
  · exact h.removal hreceived rfl trivial
  · exact h.removal hreceived rfl PeersFileStage.upToDate_collect
  · next hstage => exact h.proceed hreceived fun hup => (hstage ▸ hup).collect_next
  · next hstage => exact h.proceed hreceived fun hup => (hstage ▸ hup).collect_done
  · next hstage => exact h.proceed hreceived fun hup => (hstage ▸ hup).entries_next
  · next hstage => exact h.proceed hreceived fun hup => (hstage ▸ hup).entries_done
  · next hstage => exact h.proceed hreceived fun hup => (hstage ▸ hup).reading_next
  · next hstage => exact h.proceed hreceived fun hup => (hstage ▸ hup).reading_done

theorem Tracks.late (h : d.Tracks) (id : PeerId) : (d.next blake3 (.late id)).Tracks := by
  by_cases hreceived : d.received = none
  · rw [Daemon.next, h.started hreceived]
    exact h
  rw [Daemon.next]
  split
  · next hstage =>
      split
      · next hlate => exact h.proceed hreceived fun hup => (hstage ▸ hup).collect_late hlate.2.1 hlate.2.2
      · exact h
  · exact h

theorem Tracks.next (h : d.Tracks) {a : DaemonAction S} (hkeep : d.KeepsFile blake3 a) : (d.next blake3 a).Tracks := by
  cases a with
  | subscribe => exact h.subscribe hkeep
  | work => exact h.work
  | late id => exact h.late id
  | host a =>
      rw [Daemon.next]
      split
      · exact h
      · exact h.host hkeep

theorem Initial.tracks (h : d.Initial) : d.Tracks where
  sound := h.host.sound
  started _ := h.stage
  bounded k hk := by
    rw [h.received] at hk
    cases hk
  upToDate hstarted := absurd h.received hstarted

/-- Once the loop has caught up and no event is to be announced, the file is current. -/
theorem Tracks.fileCurrent (h : d.Tracks) (hcaught : d.CaughtUp) (hrest : ¬ d.host.Announcing) : d.FileCurrent := by
  obtain ⟨hreceived, hwaiting⟩ := hcaught
  have hstarted : d.received ≠ none := by
    rw [hreceived]
    exact Option.some_ne_none _
  rcases h.upToDate hstarted with ⟨k, hk, event, hmem, -⟩ | hannounce | hup
  · obtain rfl : k = d.host.events.length := Option.some.inj (hk.symm.trans hreceived)
    rw [List.drop_length] at hmem
    cases hmem
  · exact absurd hannounce hrest
  · rwa [hwaiting] at hup

end Daemon

/-- **`peers.json` is current** whenever the peers-file loop has received every event and none is to be sent, in a run in
which nothing that the file shows changes while no event that has it rewritten is on its way. -/
theorem peers_file_current (blake3 : Blake3) (d : Daemon S) (hinit : d.Initial) (as : List (DaemonAction S))
    (has : Along (Daemon.next blake3) (Daemon.KeepsFile blake3) d as) {bs : List (DaemonAction S)} (hbs : bs <+: as)
    (hcaught : (exec (Daemon.next blake3) d bs).CaughtUp) (hrest : ¬ (exec (Daemon.next blake3) d bs).host.Announcing) :
    (exec (Daemon.next blake3) d bs).FileCurrent := by
  obtain ⟨cs, rfl⟩ := hbs
  have hsteps := ((Run.along_append bs cs).mp has).1
  exact (hsteps.invariant (fun d a h hkeep => h.next hkeep) hinit.tracks).fileCurrent hcaught hrest

namespace Transparent

/-- Node 1 with its peers-file loop. -/
def daemon : Daemon transparent where
  host := host 1
  localJson := "\x7b\x7d"

theorem daemon_initial : daemon.Initial := ⟨host_initial 1, rfl, rfl⟩

/-- The loop has subscribed, and peer 7 completes a handshake. -/
def connection : List (DaemonAction transparent) :=
  .subscribe :: (atOnce (handshakeFrom 7 (addr 2) 3 4)).map .host

/-- The first file is written, the events of the handshake are received, and the file is written again. -/
def rewriting : List (DaemonAction transparent) := List.replicate 20 .work

/-- Peer 7 introduces itself. -/
def introduction : List (DaemonAction transparent) :=
  (atOnce [messageFrom (addr 2) 3 4 0 (.sessionInit ⟨10, 88, 7, 7⟩ none "alice" none)]).map .host

end Transparent

open Transparent in
/-- The peer introduces itself before the file is written. -/
theorem peers_file_current_alice :
    (exec (Daemon.next blake3) daemon (connection ++ introduction ++ rewriting)).FileCurrent :=
  peers_file_current blake3 daemon daemon_initial (connection ++ introduction ++ rewriting) (by decide +kernel)
    List.prefix_rfl (by decide +kernel) (by decide +kernel)

open Transparent in
/-- The peer introduces itself after the file has been written. -/
theorem introduction_not_written :
    ¬ ∀ (blake3 : Blake3) (d : Daemon transparent), d.Initial → ∀ as : List (DaemonAction transparent),
      (exec (Daemon.next blake3) d as).host.AtRest → (exec (Daemon.next blake3) d as).CaughtUp →
        (exec (Daemon.next blake3) d as).FileCurrent := by
  intro h
  have hcurrent := h blake3 daemon daemon_initial (connection ++ rewriting ++ introduction)
  have hrest : (exec (Daemon.next blake3) daemon (connection ++ rewriting ++ introduction)).host.AtRest := by
    decide +kernel
  have hcaught : (exec (Daemon.next blake3) daemon (connection ++ rewriting ++ introduction)).CaughtUp := by
    decide +kernel
  have hpeers : (exec (Daemon.next blake3) daemon (connection ++ rewriting ++ introduction)).engine.peerMgr.connectedPeers =
      [.replicate 7] := by decide +kernel
  have hfile : let d := exec (Daemon.next blake3) daemon (connection ++ rewriting ++ introduction)
      d.file ≠ peersText d.localJson [d.engine.buildPeerEntry (.replicate 7)] := by decide +kernel
  generalize exec (Daemon.next blake3) daemon (connection ++ rewriting ++ introduction) = d at *
  obtain ⟨ids, hids, htext⟩ := hcurrent hrest hcaught
  rw [hpeers, List.perm_singleton] at hids
  rw [hids] at htext
  exact hfile htext

end SeedNet
