import SeedNet.Common

/-! # Peers and the peer manager

`crates/peer/src/{state,peer,manager}.rs`.  `PeerState` is the lifecycle of a peer with its
validated transitions, `Peer` the record kept for it, and `PeerManager` the table of records
together with the events it has sent on its broadcast channel, oldest first.

The time at which a state was entered is left out: nothing in the engine reads it. -/

namespace SeedNet

/-- The lifecycle of a peer. -/
inductive PeerState where
  | disconnected
  | discovering
  | connecting
  | handshaking
  | connected
  | dead
deriving DecidableEq, Repr, Inhabited

inductive TransitionError where
  | invalidTransition (prev next : PeerState)
deriving DecidableEq, Repr

namespace PeerState

def canTransitionTo : PeerState → PeerState → Bool
  | .disconnected, .discovering
  | .discovering, .connecting
  | .discovering, .disconnected
  | .connecting, .handshaking
  | .connecting, .disconnected
  | .handshaking, .connected
  | .handshaking, .disconnected
  | .connected, .disconnected
  | .connected, .dead
  | .dead, .disconnected => true
  | _, _ => false

def transition (s next : PeerState) : Except TransitionError PeerState :=
  if s.canTransitionTo next then .ok next else .error (.invalidTransition s next)

end PeerState

/-- How a peer is currently reached. -/
inductive PathKind where
  | direct
  | relay (relay : PeerId)
deriving DecidableEq, Inhabited

/-- The record of a remote device. -/
structure Peer where
  id : PeerId
  overlayAddr : Option OverlayAddr := none
  overlayIpv6 : Option Ipv6Addr := none
  underlayAddr : Option SocketAddr := none
  publicAddr : Option SocketAddr := none
  hostname : String := ""
  state : PeerState := .disconnected
  latencyMs : Option UInt32 := none
  pathKind : PathKind := .direct
deriving DecidableEq

namespace Peer

def newWithUnderlay (id : PeerId) (addr : SocketAddr) : Peer := { id := id, underlayAddr := some addr }

def transition (p : Peer) (next : PeerState) : Except TransitionError Peer :=
  (p.state.transition next).map fun s => { p with state := s }

theorem id_transition {p q : Peer} {next : PeerState} (h : p.transition next = .ok q) : q.id = p.id := by
  rw [transition, PeerState.transition] at h
  split at h
  · cases h
    rfl
  · cases h

end Peer

inductive PeerEvent where
  | discovered (id : PeerId) (underlay : SocketAddr)
  | stateChanged (id : PeerId) (prev next : PeerState)
  | overlayAssigned (id : PeerId) (overlay : OverlayAddr)
  | removed (id : PeerId)
deriving DecidableEq

structure PeerManager where
  peers : Map PeerId Peer := ∅
  /-- the events sent so far -/
  events : List PeerEvent := []
deriving DecidableEq

namespace PeerManager

instance : Inhabited PeerManager := ⟨{}⟩

def get (m : PeerManager) (id : PeerId) : Option Peer := m.peers.lookup id

def insert (m : PeerManager) (p : Peer) : PeerManager := { m with peers := m.peers.insert p.id p }

def send (m : PeerManager) (e : PeerEvent) : PeerManager := { m with events := m.events ++ [e] }

/-- A setter of `Peer`, applied to the record of `id`. -/
def update (m : PeerManager) (id : PeerId) (f : Peer → Peer) : PeerManager :=
  match m.get id with
  | some p => { m with peers := m.peers.insert id (f p) }
  | none => m

def remove (m : PeerManager) (id : PeerId) : PeerManager :=
  match m.get id with
  | some _ => { m with peers := m.peers.erase id }.send (.removed id)
  | none => m

def discover (m : PeerManager) (id : PeerId) (underlay : SocketAddr) : PeerManager :=
  match m.get id with
  | some _ => m.update id fun p => { p with underlayAddr := some underlay }
  | none =>
    let peer := Peer.newWithUnderlay id underlay
    let peer := (peer.transition .discovering).toOption.getD peer
    (m.insert peer).send (.discovered id underlay)

def transitionPeer (m : PeerManager) (id : PeerId) (next : PeerState) :
    Except TransitionError PeerState × PeerManager :=
  match m.get id with
  | none => (.error (.invalidTransition .dead next), m)
  | some peer =>
    match peer.transition next with
    | .error e => (.error e, m)
    | .ok p => (.ok next, (m.update id fun _ => p).send (.stateChanged id peer.state next))

/-- `discover`, then the three transitions to `Connected` with their errors ignored, as both
handshake roles and the handler of `RelayReady` do. -/
def register (m : PeerManager) (id : PeerId) (underlay : SocketAddr) : PeerManager :=
  let m := m.discover id underlay
  let m := (m.transitionPeer id .connecting).2
  let m := (m.transitionPeer id .handshaking).2
  (m.transitionPeer id .connected).2

/-! Whose records there are. -/

variable {m : PeerManager} {id id' : PeerId}

theorem mem_update {f : Peer → Peer} : id' ∈ (m.update id f).peers ↔ id' ∈ m.peers := by
  unfold update
  cases h : m.get id with
  | none => rfl
  | some p =>
      have hid : id ∈ m.peers := Map.mem_iff_lookup.mpr ⟨p, h⟩
      dsimp only
      rw [AList.mem_insert]
      exact ⟨fun hor => hor.elim (fun he => he ▸ hid) fun hmem => hmem, .inr⟩

theorem mem_discover {underlay : SocketAddr} : id' ∈ (m.discover id underlay).peers ↔ id' = id ∨ id' ∈ m.peers := by
  unfold discover
  cases h : m.get id with
  | none => exact AList.mem_insert _
  | some p =>
      have hid : id ∈ m.peers := Map.mem_iff_lookup.mpr ⟨p, h⟩
      dsimp only
      rw [mem_update]
      exact ⟨.inr, fun hor => hor.elim (fun he => he ▸ hid) fun hmem => hmem⟩

theorem mem_transitionPeer {next : PeerState} : id' ∈ (m.transitionPeer id next).2.peers ↔ id' ∈ m.peers := by
  unfold transitionPeer
  split
  · rfl
  · split
    · rfl
    · exact mem_update

theorem mem_register {underlay : SocketAddr} : id' ∈ (m.register id underlay).peers ↔ id' = id ∨ id' ∈ m.peers := by
  simp only [register, mem_transitionPeer, mem_discover]

/-! Address and state of a record. -/

variable {p q : PeerId} {a : SocketAddr}

/-- The underlay address and the state of a record. -/
def contact (m : PeerManager) (p : PeerId) : Option (Option SocketAddr × PeerState) :=
  (m.get p).map fun peer => (peer.underlayAddr, peer.state)

theorem get_update (f : Peer → Peer) : (m.update q f).get p = if p = q then (m.get q).map f else m.get p := by
  unfold update
  cases h : m.get q with
  | some peer => exact Map.lookup_insert m.peers q p (f peer)
  | none =>
      dsimp only
      split
      · next hp => rw [hp, h, Option.map_none]
      · rfl

theorem update_update (m : PeerManager) (q : PeerId) (f g : Peer → Peer) :
    (m.update q f).update q g = m.update q fun p => g (f p) := by
  have hget := get_update (m := m) (p := q) (q := q) f
  rw [if_pos rfl] at hget
  rw [update, hget]
  unfold update
  cases m.get q with
  | none => rfl
  | some p => exact congrArg (fun peers => { m with peers := peers }) (AList.insert_insert m.peers)

/-- `discover` keeps the state of a record that there is. -/
theorem contact_discover : (m.discover q a).contact p =
    if p = q then some (some a, ((m.contact q).map Prod.snd).getD .discovering) else m.contact p := by
  unfold discover contact
  cases h : m.get q with
  | some peer =>
      dsimp only
      rw [get_update, h]
      split <;> rfl
  | none =>
      have hlookup := Map.lookup_insert m.peers q p
        { Peer.newWithUnderlay q a with state := .discovering }
      refine (congrArg (Option.map fun peer : Peer => (peer.underlayAddr, peer.state)) hlookup).trans ?_
      split <;> rfl

theorem contact_transitionPeer (next : PeerState) : (m.transitionPeer q next).2.contact p =
    if p = q then (m.contact q).map fun c => (c.1, if c.2.canTransitionTo next then next else c.2)
    else m.contact p := by
  have hsame (h : m.get q = none ∨ ∃ peer, m.get q = some peer ∧ peer.state.canTransitionTo next = false) :
      m.contact p = if p = q then (m.contact q).map fun c => (c.1, if c.2.canTransitionTo next then next else c.2)
        else m.contact p := by
    split
    · next hp =>
        rw [hp, contact]
        rcases h with h | ⟨peer, h, hno⟩
        · rw [h]; rfl
        · rw [h, Option.map_some, Option.map_some, if_neg (by simp [hno])]
    · rfl
  unfold transitionPeer
  cases h : m.get q with
  | none => exact hsame (.inl h)
  | some peer =>
      dsimp only
      rw [Peer.transition, PeerState.transition]
      cases hcan : peer.state.canTransitionTo next with
      | false => exact hsame (.inr ⟨peer, h, hcan⟩)
      | true =>
          show (m.update q _).contact p = _
          rw [contact, get_update, contact, h]
          split
          · simp [hcan]
          · rfl

end PeerManager

end SeedNet
