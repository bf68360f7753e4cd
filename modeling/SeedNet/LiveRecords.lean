import SeedNet.RecordHandles

/-! # Records of connected peers

A handshake ends with `discover` and the transitions to `Connected`, so the record of a peer with a session has
the address of the session (`Engine.PeersLive`).  The same `discover` overwrites the address of any record that
a directory names, and `RelayReady` registers its destination under the placeholder `0.0.0.0:0`.  And `discover` looks a
record up before it inserts a new one, so it can insert a record over one that another task has made `Connected`.

`Op.KeepsRecords` is the condition on the operations of threads: no address of a peer with a session is set to another
one, and no record of such a peer is replaced, unless a handshake at the session's address is still to record the
peer.  The invariant `Host.RecordsLive` allows for the handshakes that are still to register a peer; `peer_table_live` is
what follows for the states in which no message is being handled and no handshake is being completed. -/

namespace SeedNet

open Run (exec Along)
open Threads (Pool)

variable {S : Snow}

/-! ### The way to `Connected` -/

namespace PeerState

/-- The state after these transitions, errors ignored. -/
def climb (s : PeerState) : List PeerState → PeerState
  | [] => s
  | next :: todo => climb (if s.canTransitionTo next then next else s) todo

/-- Only a disconnected and a dead peer do not get there. -/
theorem climb_registration {s : PeerState} : s.climb registration = .connected ↔ s.Live := by
  cases s <;> decide

/-- A step on the way, made by another task, leads to `Connected` as well. -/
theorem climb_step {s next : PeerState} {todo : List PeerState} (hnext : next ∈ registration)
    (htodo : todo <:+ registration) (h : s.climb todo = .connected) :
    (if s.canTransitionTo next then next else s).climb todo = .connected := by
  have hfinite : ∀ next ∈ registration, ∀ todo ∈ registration.tails, s.climb todo = .connected →
      (if s.canTransitionTo next then next else s).climb todo = .connected := by
    cases s <;> decide
  exact hfinite next hnext todo ((List.mem_tails ..).mpr htodo) h

end PeerState

/-- The transitions to be made that still concern the record in the table. -/
def PeerCall.pending (table : Map PeerId ℕ) (rest : List PeerState) : PeerCall → List PeerState
  | .transitionPeer _ next => next :: rest
  | .readState id o next | .transitionTo id o _ next => if table.lookup id = some o then next :: rest else rest
  | _ => rest

/-- What follows a stored session, up to the last update. -/
theorem Completion.next_of_stored {c : Completion S} (hstored : ¬ c.Unstored) (hlast : c.stage ≠ .register) :
    ∃ stage, c.next = some { c with stage := stage } ∧ ¬ Unstored { c with stage := stage } := by
  unfold next
  cases hstage : c.stage with
  | relayPath => exact absurd (.inl hstage) hstored
  | session => exact absurd (.inr hstage) hstored
  | register => exact absurd hstage hlast
  | addrIndex | route | sessionInit | directories => exact ⟨_, rfl, by simp [Unstored]⟩
  | announce => exact ⟨_, rfl, by cases c.initiator <;> simp [Unstored]⟩

/-! ### The condition -/

/-- A registration of `p` under this address that is still to look the record up, or to insert a new one. -/
def Op.RecordsAnew (p : PeerId) (a : SocketAddr) : Op → Prop
  | .call (.discover id b) _ rest | .call (.transition id _ b) _ rest | .call (.insert id _ b) _ rest =>
    id = p ∧ b = a ∧ rest = registration
  | _ => False

/-- A registration of `p` that has found the record and sets this address next. -/
def Op.Overwrites (table : Map PeerId ℕ) (p : PeerId) (a : SocketAddr) : Op → Prop
  | .call (.setUnderlay id o b) _ rest => id = p ∧ b = a ∧ rest = registration ∧ table.lookup p = some o
  | _ => False

/-- A registration of `p` under way, the record of which comes to `Connected` from the state `s`. -/
def Op.Climbs (table : Map PeerId ℕ) (p : PeerId) (s : PeerState) : Op → Prop
  | .call c id rest => id = p ∧ s.climb (c.pending table rest) = .connected
  | _ => False

namespace Op

theorem recordsAnew_iff {w : Op} {p : PeerId} {a : SocketAddr} : w.RecordsAnew p a ↔ ∃ id,
    w = .call (.discover p a) id registration ∨ ∃ o, w = .call (.transition p o a) id registration ∨
      w = .call (.insert p o a) id registration := by
  constructor
  · intro h
    unfold RecordsAnew at h
    split at h
    · obtain ⟨rfl, rfl, rfl⟩ := h
      exact ⟨_, .inl rfl⟩
    · obtain ⟨rfl, rfl, rfl⟩ := h
      exact ⟨_, .inr ⟨_, .inl rfl⟩⟩
    · obtain ⟨rfl, rfl, rfl⟩ := h
      exact ⟨_, .inr ⟨_, .inr rfl⟩⟩
    · exact h.elim
  · rintro ⟨id, rfl | ⟨o, rfl | rfl⟩⟩ <;> exact ⟨rfl, rfl, rfl⟩

theorem overwrites_iff {w : Op} {table : Map PeerId ℕ} {p : PeerId} {a : SocketAddr} : w.Overwrites table p a ↔
    ∃ o id, w = .call (.setUnderlay p o a) id registration ∧ table.lookup p = some o := by
  constructor
  · intro h
    unfold Overwrites at h
    split at h
    · obtain ⟨rfl, rfl, rfl, hl⟩ := h
      exact ⟨_, _, rfl, hl⟩
    · exact h.elim
  · rintro ⟨o, id, rfl, hl⟩
    exact ⟨rfl, rfl, rfl, hl⟩

theorem climbs_iff {w : Op} {table : Map PeerId ℕ} {p : PeerId} {s : PeerState} : w.Climbs table p s ↔
    ∃ c rest, w = .call c p rest ∧ s.climb (c.pending table rest) = .connected := by
  constructor
  · intro h
    unfold Climbs at h
    split at h
    · obtain ⟨rfl, hclimb⟩ := h
      exact ⟨_, _, rfl, hclimb⟩
    · exact h.elim
  · rintro ⟨c, rest, rfl, hclimb⟩
    exact ⟨rfl, hclimb⟩

end Op

namespace Host

variable (h : Host S)

/-- Address and state of the record of `p`. -/
def contact (p : PeerId) : Option (Option SocketAddr × PeerState) := h.engine.peerMgr.contact p

/-- A handshake with `p` at this address has stored its session, and is still to look the record of `p` up or to insert a
new one. -/
def Anew (who : Option ℕ) (p : PeerId) (a : SocketAddr) : Prop :=
  (∃ c ∈ h.node.completion who, ¬ c.Unstored ∧ c.peerId = p ∧ c.underlay.socketAddr = a) ∨
    ∃ w ∈ h.nextOp (.worker who), w.RecordsAnew p a

/-- Such a handshake is still to record the address, in the record that is in the table then. -/
def Ahead (who : Option ℕ) (p : PeerId) (a : SocketAddr) : Prop :=
  h.Anew who p a ∨ ∃ w ∈ h.nextOp (.worker who), w.Overwrites h.table p a

/-- Such a handshake has recorded the address and makes the transitions. -/
def Climbs (who : Option ℕ) (p : PeerId) (a : SocketAddr) : Prop :=
  ∃ s, h.contact p = some (some a, s) ∧ ∃ w ∈ h.nextOp (.worker who), w.Climbs h.table p s

end Host

/-- The operation of the task `t` sets no other address for a peer with a session and replaces no record of one, unless
a registration at the session's address comes later; or it is the insertion of such a registration. -/
def Op.KeepsRecords (h : Host S) (t : HostTask) : Op → Prop
  | .call (.setUnderlay id o b) _ _ => h.table.lookup id = some o → ∀ session ∈ h.engine.sessions.lookup id,
    b = session.underlay.socketAddr ∨ ∃ who, t ≠ .worker who ∧ h.Ahead who id session.underlay.socketAddr
  | .call (.insert id _ b) _ rest => ∀ session ∈ h.engine.sessions.lookup id,
    (b = session.underlay.socketAddr ∧ rest = registration) ∨
      ∃ who, t ≠ .worker who ∧ h.Anew who id session.underlay.socketAddr
  | _ => True

namespace Host

variable (h : Host S)

def KeepsRecords : HostAction S → Prop
  | .run t => ∀ w ∈ h.nextOp t, w.KeepsRecords h t
  | .loop _ => True

/-- The record of `p` is connected and has this address, or a handshake at the address is about to see to that. -/
def RecordLive (p : PeerId) (a : SocketAddr) : Prop :=
  h.contact p = some (some a, .connected) ∨ ∃ who, h.Ahead who p a ∨ h.Climbs who p a

/-- The records of peers with sessions are connected and have the addresses of the sessions, or handshakes at these
addresses are about to see to that. -/
def RecordsLive : Prop := ∀ p, ∀ session ∈ h.engine.sessions.lookup p, h.RecordLive p session.underlay.socketAddr

/-- No message is being handled, and no handshake is being completed. -/
def AtRest : Prop := ∀ who, h.node.completion who = none ∧ HostTask.worker who ∉ h.tasks

end Host

/-! The conditions can be evaluated: the tasks that matter are those of the node and those that run threads. -/

instance (p : PeerId) (a : SocketAddr) : DecidablePred (Op.RecordsAnew p a) := fun w => by
  unfold Op.RecordsAnew
  split <;> infer_instance

instance (table : Map PeerId ℕ) (p : PeerId) (a : SocketAddr) : DecidablePred (Op.Overwrites table p a) := fun w => by
  unfold Op.Overwrites
  split <;> infer_instance

namespace Host

variable (h : Host S)

def workers : List (Option ℕ) :=
  h.node.tasks ++ h.tasks.keys.filterMap fun t => match t with | .worker who => some who | _ => none

variable {h}

theorem mem_workers_of_completion {who : Option ℕ} {c : Completion S} (hc : h.node.completion who = some c) :
    who ∈ h.workers := List.mem_append_left _ (h.node.mem_tasks hc)

theorem mem_workers_of_mem {who : Option ℕ} (hmem : HostTask.worker who ∈ h.tasks) : who ∈ h.workers :=
  List.mem_append_right _ (List.mem_filterMap.mpr ⟨.worker who, AList.mem_keys.mp hmem, rfl⟩)

theorem mem_workers_of_nextOp {who : Option ℕ} {w : Op} (hw : h.nextOp (.worker who) = some w) : who ∈ h.workers := by
  obtain ⟨th, hth, -⟩ := Option.bind_eq_some_iff.mp hw
  exact mem_workers_of_mem (Map.mem_iff_lookup.mpr ⟨th, hth⟩)

theorem Ahead.mem_workers {who : Option ℕ} {p : PeerId} {a : SocketAddr} (h₀ : h.Ahead who p a) : who ∈ h.workers := by
  rcases h₀ with (⟨c, hc, -⟩ | ⟨w, hw, -⟩) | ⟨w, hw, -⟩
  · exact mem_workers_of_completion hc
  · exact mem_workers_of_nextOp hw
  · exact mem_workers_of_nextOp hw

variable (h)

instance (who : Option ℕ) (p : PeerId) (a : SocketAddr) : Decidable (h.Anew who p a) :=
  inferInstanceAs (Decidable ((∃ c ∈ h.node.completion who, _) ∨ ∃ w ∈ h.nextOp (.worker who), w.RecordsAnew p a))

instance (who : Option ℕ) (p : PeerId) (a : SocketAddr) : Decidable (h.Ahead who p a) :=
  inferInstanceAs (Decidable (h.Anew who p a ∨ ∃ w ∈ h.nextOp (.worker who), w.Overwrites h.table p a))

instance (t : HostTask) (p : PeerId) (a : SocketAddr) : Decidable (∃ who, t ≠ .worker who ∧ h.Ahead who p a) :=
  decidable_of_iff (∃ who ∈ h.workers, t ≠ .worker who ∧ h.Ahead who p a)
    ⟨fun ⟨who, _, h₀⟩ => ⟨who, h₀⟩, fun ⟨who, ht, h₀⟩ => ⟨who, h₀.mem_workers, ht, h₀⟩⟩

instance (t : HostTask) (p : PeerId) (a : SocketAddr) : Decidable (∃ who, t ≠ .worker who ∧ h.Anew who p a) :=
  decidable_of_iff (∃ who ∈ h.workers, t ≠ .worker who ∧ h.Anew who p a)
    ⟨fun ⟨who, _, h₀⟩ => ⟨who, h₀⟩, fun ⟨who, ht, h₀⟩ => ⟨who, Ahead.mem_workers (.inl h₀), ht, h₀⟩⟩

instance (t : HostTask) : DecidablePred (Op.KeepsRecords h t) := fun w => by
  unfold Op.KeepsRecords
  split <;> infer_instance

instance : DecidablePred h.KeepsRecords
  | .run t => Option.decidableForallMem (h.nextOp t)
  | .loop _ => isTrue trivial

instance : Decidable h.AtRest :=
  decidable_of_iff (∀ who ∈ h.workers, (h.node.completion who).isNone ∧ HostTask.worker who ∉ h.tasks) <| by
    constructor
    · intro hall who
      by_cases hmem : who ∈ h.workers
      · exact ⟨Option.isNone_iff_eq_none.mp (hall who hmem).1, (hall who hmem).2⟩
      · refine ⟨?_, fun ht => hmem (mem_workers_of_mem ht)⟩
        cases hc : h.node.completion who with
        | none => rfl
        | some c => exact absurd (mem_workers_of_completion hc) hmem
    · exact fun hrest who _ => ⟨Option.isNone_iff_eq_none.mpr (hrest who).1, (hrest who).2⟩

end Host

/-- Every peer with a session is recorded as connected, under the address of its session. -/
def Engine.PeersLive (e : Engine (SecureTransport S)) : Prop :=
  ∀ p session, e.sessions.lookup p = some session →
    ∃ peer, e.peerMgr.get p = some peer ∧ peer.state = .connected ∧
      peer.underlayAddr = some session.underlay.socketAddr

/-! ### What an operation does to a record -/

namespace Host

variable {h : Host S}

theorem contact_eq_some {p : PeerId} {u : Option SocketAddr} {s : PeerState} : h.contact p = some (u, s) ↔
    ∃ o peer, h.table.lookup p = some o ∧ h.shared.records.objects[o]? = some peer ∧ peer.underlayAddr = u ∧
      peer.state = s := by
  have hget : h.engine.peerMgr.get p = h.shared.records.record p := by
    rw [engine, node, h.shared.agree, PeerTable.get_manager]
  rw [contact, PeerManager.contact, hget, PeerTable.record, Option.map_eq_some_iff]
  constructor
  · rintro ⟨peer, hpeer, heq⟩
    obtain ⟨o, ho, hp⟩ := Option.bind_eq_some_iff.mp hpeer
    cases heq
    exact ⟨o, peer, ho, hp, rfl, rfl⟩
  · rintro ⟨o, peer, ho, hp, rfl, rfl⟩
    exact ⟨peer, Option.bind_eq_some_iff.mpr ⟨o, ho, hp⟩, rfl⟩

/-- No record in the table is disconnected or dead. -/
theorem Sound.live (hs : h.Sound) {p : PeerId} {u : Option SocketAddr} {s : PeerState} (hc : h.contact p = some (u, s)) :
    s.Live := by
  obtain ⟨o, peer, hl, hpeer, -, rfl⟩ := contact_eq_some.mp hc
  obtain ⟨peer', hpeer', -, hlive⟩ := hs.listed p o hl
  obtain rfl : peer = peer' := Option.some.inj (hpeer.symm.trans hpeer')
  exact hlive

/-- What an operation does to a record with the address `u` and the state `s`. -/
inductive ContactEffect (h h' : Host S) (w : Op) (p : PeerId) (u : Option SocketAddr) (s : PeerState) : Prop
  | same (hcontact : h'.contact p = some (u, s)) (htable : h'.table.lookup p = h.table.lookup p)
      (hmoves : ∀ o prev next peerId rest, w = .call (.transitionTo p o prev next) peerId rest → h.table.lookup p ≠ some o)
      (hsets : ∀ o b peerId rest, w = .call (.setUnderlay p o b) peerId rest → h.table.lookup p ≠ some o)
  | sets (o : ℕ) (b : SocketAddr) (peerId : PeerId) (rest : List PeerState)
      (hw : w = .call (.setUnderlay p o b) peerId rest) (hl : h.table.lookup p = some o)
      (hcontact : h'.contact p = some (some b, s)) (htable : h'.table.lookup p = h.table.lookup p)
  | moves (o : ℕ) (prev next : PeerState) (peerId : PeerId) (rest : List PeerState)
      (hw : w = .call (.transitionTo p o prev next) peerId rest) (hl : h.table.lookup p = some o)
      (hcontact : h'.contact p = some (u, if s.canTransitionTo next then next else s))
      (htable : h'.table.lookup p = h.table.lookup p)
  | inserts (o : ℕ) (b : SocketAddr) (peerId : PeerId) (rest : List PeerState)
      (hw : w = .call (.insert p o b) peerId rest) (hcontact : h'.contact p = some (some b, .discovering))

variable (blake3 : Blake3) {t : HostTask} {w : Op}

theorem contactEffect (hs : h.Sound) (hw : h.nextOp t = some w) {p : PeerId} {u : Option SocketAddr} {s : PeerState}
    (hc : h.contact p = some (u, s)) : ContactEffect h (h.next blake3 (.run t)) w p u s := by
  obtain ⟨o, peer, hl, hpeer, rfl, rfl⟩ := contact_eq_some.mp hc
  by_cases hinsert : ∃ o b peerId rest, w = .call (.insert p o b) peerId rest
  · obtain ⟨o', b, peerId, rest, rfl⟩ := hinsert
    obtain ⟨⟨q, hq, haddr, hstate⟩, -⟩ := hs.drafts t _ o' b .discovering hw rfl
    exact .inserts o' b peerId rest rfl
      (contact_eq_some.mpr ⟨o', q, lookup_table_insert blake3 hw, object_run blake3 hw hq, haddr, hstate⟩)
  · have htable : (h.next blake3 (.run t)).table.lookup p = h.table.lookup p :=
      lookup_table_run blake3 hw fun o' b peerId rest heq => hinsert ⟨o', b, peerId, rest, heq⟩
    have hcontact {u : Option SocketAddr} {s : PeerState} (hu : (w.effect o peer).underlayAddr = u)
        (hst : (w.effect o peer).state = s) : (h.next blake3 (.run t)).contact p = some (u, s) :=
      contact_eq_some.mpr ⟨o, _, htable.trans hl, object_run blake3 hw hpeer, hu, hst⟩
    by_cases hobj : w.object = some o
    · cases w with
      | relayPath | route | staleRoute | candidate | send | tun | set => cases hobj
      | call c id rest =>
          -- the handle and the record are of the same peer
          obtain ⟨q, hq, hid⟩ := hs.held t c id rest o hw hobj
          obtain ⟨q', hq', hid', -⟩ := hs.listed p o hl
          obtain rfl : q = q' := Option.some.inj (hq.symm.trans hq')
          obtain rfl : id = p := hid.symm.trans hid'
          have hpeer' : c.peer = some id := (hs.regular hw).1
          have hdraft (o' : ℕ) (a : SocketAddr) (st : PeerState) (hd : c.draft = some (o', a, st)) : o' ≠ o := by
            rintro rfl
            exact (hs.drafts t _ o' a st hw hd).2 id hl
          cases c with
          | discover | get | transitionPeer | finished => cases hobj
          | transition id' o' a => exact absurd (Option.some.inj hobj) (hdraft o' a _ rfl)
          | insert id' o' a => exact absurd (Option.some.inj hobj) (hdraft o' a _ rfl)
          | sendDiscovered | readState | sendStateChanged | returned => exact .same (hcontact rfl rfl) htable nofun nofun
          | setUnderlay id' o' b =>
              cases hobj
              cases hpeer'
              refine .sets o b id rest rfl hl (hcontact ?_ ?_) htable
              · simp [Op.effect, PeerCall.effect]
              · simp [Op.effect, PeerCall.effect]
          | transitionTo id' o' prev next =>
              cases hobj
              cases hpeer'
              refine .moves o prev next id rest rfl hl (hcontact ?_ ?_) htable
              · simp [Op.effect, PeerCall.effect, Peer.transition_getD]
              · simp [Op.effect, PeerCall.effect, Peer.transition_getD]
    · obtain ⟨hu, hst⟩ := Op.contact_effect (p := peer) (hs.regular hw) hobj
      refine .same (hcontact hu hst) htable ?_ ?_
      · rintro o' prev next peerId rest rfl heq
        exact hobj (heq.symm.trans hl)
      · rintro o' b peerId rest rfl heq
        exact hobj (heq.symm.trans hl)

end Host

/-! ### Steps of threads -/

namespace PeerCall

variable {table table' : Map PeerId ℕ} {p : PeerId} {c : PeerCall}

theorem pending_congr (hpeer : c.peer = some p) (h : table'.lookup p = table.lookup p) (rest : List PeerState) :
    c.pending table' rest = c.pending table rest := by
  cases c with
  | readState | transitionTo =>
      cases hpeer
      rw [pending, pending, h]
  | discover | setUnderlay | transition | insert | sendDiscovered | get | transitionPeer | sendStateChanged | returned
  | finished => rfl

theorem pending_of_ended (hc : c = .finished ∨ ∃ id o, c = .returned id o) (rest : List PeerState) :
    c.pending table rest = rest := by
  rcases hc with rfl | ⟨id, o, rfl⟩ <;> rfl

theorem pending_suffix (c : PeerCall) (rest : List PeerState) : c.pending table rest <:+ c.todo rest := by
  cases c with
  | readState id o next | transitionTo id o prev next =>
      rw [pending]
      split
      · exact List.suffix_rfl
      · exact List.suffix_cons next rest
  | discover | setUnderlay | transition | insert | sendDiscovered | get | transitionPeer | sendStateChanged | returned
  | finished => exact List.suffix_rfl

/-- A stage that makes no transition leaves all of them to be made. -/
theorem pending_perform {s : PeerTable} (hpeer : c.peer = some p) (hp : s.table.lookup p ≠ none)
    (hobj : ∀ o ∈ c.object, s.objects[o]? ≠ none)
    (hmoves : ∀ o prev next, c = .transitionTo p o prev next → s.table.lookup p ≠ some o)
    (htable : table'.lookup p = s.table.lookup p) (rest : List PeerState) :
    (s.perform c).2.pending table' rest = c.pending s.table rest := by
  cases c with
  | discover id | get id =>
      rw [PeerTable.perform]
      cases s.table.lookup id <;> rfl
  | transitionPeer id next =>
      cases hpeer
      rw [PeerTable.perform]
      cases hl : s.table.lookup p with
      | none => exact absurd hl hp
      | some o => exact if_pos (htable.trans hl)
  | readState id o next =>
      cases hpeer
      rw [PeerTable.perform]
      cases ho : s.objects[o]? with
      | none => exact absurd ho (hobj o rfl)
      | some peer =>
          dsimp only
          rw [pending, pending, htable]
  | transitionTo id o prev next =>
      cases hpeer
      rw [PeerTable.perform, pending, if_neg (hmoves o prev next rfl)]
      cases s.objects[o]? with
      | none => rfl
      | some peer =>
          dsimp only
          cases peer.transition next <;> rfl
  | setUnderlay | transition | insert | sendDiscovered | sendStateChanged | returned | finished => rfl

/-- After a transition the others are still to be made. -/
theorem pending_transitionTo {s : PeerTable} (id : PeerId) (o : ℕ) (prev next : PeerState) (rest : List PeerState) :
    (s.perform (.transitionTo id o prev next)).2.pending table' rest = rest := by
  rw [PeerTable.perform]
  cases s.objects[o]? with
  | none => rfl
  | some peer =>
      dsimp only
      cases peer.transition next <;> rfl

end PeerCall

namespace Host

variable {h : Host S} (blake3 : Blake3)

theorem completion_run (t : HostTask) (who : Option ℕ) :
    (h.next blake3 (.run t)).node.completion who = h.node.completion who := by
  rw [node, shared_run]
  cases h.nextOp t with
  | none => rfl
  | some w => exact Shared.completion_perform w h.shared who

theorem underlay_run (t : HostTask) (p : PeerId) :
    ((h.next blake3 (.run t)).engine.sessions.lookup p).map (·.underlay) =
      (h.engine.sessions.lookup p).map (·.underlay) := by
  cases hw : h.nextOp t with
  | none => rw [engine_run_none blake3 hw]
  | some w =>
      rw [engine_run_some blake3 hw]
      exact (Shared.sameSessions_perform w h.shared).underlay p

theorem Anew.run_of_ne {t : HostTask} {who : Option ℕ} {p : PeerId} {a : SocketAddr} (h₀ : h.Anew who p a)
    (ht : t ≠ .worker who) : (h.next blake3 (.run t)).Anew who p a := by
  rw [Anew, completion_run]
  refine h₀.imp_right ?_
  rintro ⟨w, hw, hanew⟩
  exact ⟨w, (Pool.nextOp_run_of_ne (Ne.symm ht)).trans hw, hanew⟩

section run

variable {t : HostTask} {w : Op} (hw : h.nextOp t = some w)

include hw

theorem Ahead.run_of_ne {who : Option ℕ} {p : PeerId} {a : SocketAddr} (h₀ : h.Ahead who p a) (ht : t ≠ .worker who)
    (hno : ∀ o b peerId rest, w ≠ .call (.insert p o b) peerId rest) : (h.next blake3 (.run t)).Ahead who p a := by
  refine h₀.imp (fun hanew => hanew.run_of_ne blake3 ht) ?_
  rintro ⟨w', hw', hover⟩
  obtain ⟨o, id, rfl, hl⟩ := Op.overwrites_iff.mp hover
  exact ⟨_, (Pool.nextOp_run_of_ne (Ne.symm ht)).trans hw', rfl, rfl, rfl, (lookup_table_run blake3 hw hno).trans hl⟩

end run

/-- The task goes on with a record that comes to `Connected` by the transitions still to be made. -/
theorem climbs_run {who : Option ℕ} {c : PeerCall} {p : PeerId} {a : SocketAddr} {rest : List PeerState} {s : PeerState}
    (hw : h.nextOp (.worker who) = some (.call c p rest))
    (hcontact : (h.next blake3 (.run (.worker who))).contact p = some (some a, s))
    (hclimb : s.climb ((h.shared.records.perform c).2.pending (h.next blake3 (.run (.worker who))).table rest) =
      .connected) :
    (h.next blake3 (.run (.worker who))).contact p = some (some a, .connected) ∨
      (h.next blake3 (.run (.worker who))).Climbs who p a := by
  have hstage {w' : Op} (hstage : Shared.afterCall p rest (h.shared.records.perform c).2 = .inl w') :
      (h.next blake3 (.run (.worker who))).nextOp (.worker who) = some w' := Pool.nextOp_run_of_stage hw hstage
  have hfollows := Shared.follows_afterCall p rest (h.shared.records.perform c).2
  generalize hr : Shared.afterCall p rest (h.shared.records.perform c).2 = r at hfollows
  cases hfollows with
  | stays => exact .inr ⟨s, hcontact, _, hstage hr, rfl, hclimb⟩
  | moves next rest' hc hrest =>
      rw [PeerCall.pending_of_ended hc, hrest] at hclimb
      exact .inr ⟨s, hcontact, _, hstage hr, rfl, hclimb⟩
  | ends r hc hrest =>
      rw [PeerCall.pending_of_ended hc, hrest] at hclimb
      exact .inl (hclimb ▸ hcontact)

/-- A registration that is still to record the address does so, or comes closer to it. -/
theorem Ahead.run_self (hs : h.Sound) {who : Option ℕ} {p : PeerId} {a : SocketAddr} (h₀ : h.Ahead who p a) {w : Op}
    (hw : h.nextOp (.worker who) = some w) (hno : ∀ o b peerId rest, w ≠ .call (.insert p o b) peerId rest) :
    (h.next blake3 (.run (.worker who))).contact p = some (some a, .connected) ∨
      (h.next blake3 (.run (.worker who))).Ahead who p a ∨ (h.next blake3 (.run (.worker who))).Climbs who p a := by
  have htable := lookup_table_run blake3 hw hno
  rcases h₀ with (⟨c, hc, hcompletion⟩ | ⟨w', hw', hanew⟩) | ⟨w', hw', hover⟩
  · exact .inr (.inl (.inl (.inl ⟨c, (completion_run blake3 _ who).trans hc, hcompletion⟩)))
  · obtain rfl : w' = w := Option.some.inj (hw'.symm.trans hw)
    obtain ⟨id, rfl | ⟨o, rfl | rfl⟩⟩ := Op.recordsAnew_iff.mp hanew
    · -- `discover` looks the record up
      cases hl : h.table.lookup p with
      | some o =>
          have hstage : (h.shared.records.perform (.discover p a)).2 = .setUnderlay p o a := by
            rw [PeerTable.perform, show h.shared.records.table.lookup p = some o from hl]
          refine .inr (.inl (.inr ⟨.call (.setUnderlay p o a) id registration, ?_, rfl, rfl, rfl, htable.trans hl⟩))
          exact Pool.nextOp_run_of_stage hw (congrArg (Shared.afterCall id registration) hstage)
      | none =>
          have hstage : (h.shared.records.perform (.discover p a)).2 =
              .transition p h.shared.records.objects.length a := by
            rw [PeerTable.perform, show h.shared.records.table.lookup p = none from hl]
          refine .inr (.inl (.inl (.inr ?_)))
          refine ⟨.call (.transition p h.shared.records.objects.length a) id registration, ?_, rfl, rfl, rfl⟩
          exact Pool.nextOp_run_of_stage hw (congrArg (Shared.afterCall id registration) hstage)
    · exact .inr (.inl (.inl (.inr ⟨_, Pool.nextOp_run_of_stage hw rfl, rfl, rfl, rfl⟩)))
    · exact absurd rfl (hno o a id registration)
  · obtain rfl : w' = w := Option.some.inj (hw'.symm.trans hw)
    obtain ⟨o, id, rfl, hl⟩ := Op.overwrites_iff.mp hover
    obtain rfl : p = id := Option.some.inj (hs.regular hw).1
    obtain ⟨peer, hpeer, -⟩ := hs.listed p o hl
    have hcontact : h.contact p = some (peer.underlayAddr, peer.state) :=
      contact_eq_some.mpr ⟨o, peer, hl, hpeer, rfl, rfl⟩
    cases contactEffect blake3 hs hw hcontact with
    | same _ _ _ hsets => exact absurd hl (hsets o a p registration rfl)
    | sets o' b peerId rest hw₀ _ hnew =>
        cases hw₀
        exact (climbs_run blake3 hw hnew (PeerState.climb_registration.mpr (hs.live hcontact))).imp_right .inr
    | moves o' prev next peerId rest hw₀ => cases hw₀
    | inserts o' b peerId rest hw₀ => cases hw₀

/-- After the insertion of a record, a registration at the session's address makes its transitions, or is still to record
the address. -/
theorem live_of_inserts (hs : h.Sound) {t : HostTask} {o : ℕ} {b a : SocketAddr} {id p : PeerId} {rest : List PeerState}
    (hw : h.nextOp t = some (.call (.insert p o b) id rest))
    (hkeep : (b = a ∧ rest = registration) ∨ ∃ who, t ≠ .worker who ∧ h.Anew who p a) :
    (h.next blake3 (.run t)).RecordLive p a := by
  rcases hkeep with ⟨rfl, rfl⟩ | ⟨who, ht, hanew⟩
  · obtain ⟨⟨q, hq, haddr, hstate⟩, -⟩ := hs.drafts t _ o b .discovering hw rfl
    have hcontact : (h.next blake3 (.run t)).contact p = some (some b, .discovering) :=
      contact_eq_some.mpr ⟨o, q, lookup_table_insert blake3 hw, object_run blake3 hw hq, haddr, hstate⟩
    have hperforms := hs.performs t _ hw
    cases t with
    | outbound | health => cases hperforms.1
    | worker who =>
        obtain rfl : p = id := Option.some.inj (hs.regular hw).1
        have hclimb := climbs_run blake3 hw hcontact (PeerState.climb_registration.mpr (by decide))
        exact hclimb.imp_right fun hclimbs => ⟨who, .inr hclimbs⟩
  · exact .inr ⟨who, .inl (.inl (hanew.run_of_ne blake3 ht))⟩

section run

variable {t : HostTask} {w : Op} (hw : h.nextOp t = some w) (hkeep : w.KeepsRecords h t) (hs : h.Sound)

include hw hkeep

/-- What another task sets does no harm. -/
theorem live_of_sets {o : ℕ} {b : SocketAddr} {id p : PeerId} {rest : List PeerState}
    {session : PeerSession (SecureTransport S)} (hset : w = .call (.setUnderlay p o b) id rest)
    (hl : h.table.lookup p = some o) (hsession : h.engine.sessions.lookup p = some session) :
    b = session.underlay.socketAddr ∨ ∃ who, (h.next blake3 (.run t)).Ahead who p session.underlay.socketAddr := by
  subst hset
  refine (hkeep hl session hsession).imp_right ?_
  rintro ⟨who, ht, hahead⟩
  exact ⟨who, hahead.run_of_ne blake3 hw ht nofun⟩

include hs

/-- A registration that makes its transitions goes on to do so, whatever the other tasks do. -/
theorem live_of_climbs {who : Option ℕ} {p : PeerId} {session : PeerSession (SecureTransport S)}
    (hsession : h.engine.sessions.lookup p = some session) (h₀ : h.Climbs who p session.underlay.socketAddr)
    (hno : ∀ o b id rest, w ≠ .call (.insert p o b) id rest) :
    (h.next blake3 (.run t)).RecordLive p session.underlay.socketAddr := by
  obtain ⟨s, hcontact, w', hw', hclimbs⟩ := h₀
  obtain ⟨c, rest, rfl, hclimb⟩ := Op.climbs_iff.mp hclimbs
  obtain ⟨hpeer, htodo⟩ := hs.regular hw'
  by_cases ht : t = .worker who
  · subst ht
    obtain rfl : w = .call c p rest := Option.some.inj (hw.symm.trans hw')
    have hgo {s' : PeerState} (hnew : (h.next blake3 (.run (.worker who))).contact p =
          some (some session.underlay.socketAddr, s'))
        (hclimb : s'.climb ((h.shared.records.perform c).2.pending (h.next blake3 (.run (.worker who))).table rest) =
          .connected) : (h.next blake3 (.run (.worker who))).RecordLive p session.underlay.socketAddr :=
      (climbs_run blake3 hw hnew hclimb).imp_right fun h₀ => ⟨who, .inr h₀⟩
    cases contactEffect blake3 hs hw hcontact with
    | same hnew htable hmoves =>
        refine hgo hnew ?_
        rw [PeerCall.pending_perform hpeer ?_ ?_ ?_ htable]
        · exact hclimb
        · obtain ⟨o, -, hl, -⟩ := contact_eq_some.mp hcontact
          exact fun hnone => by cases hnone.symm.trans hl
        · intro o ho hnone
          obtain ⟨peer, hobj, -⟩ := hs.held _ c p rest o hw ho
          cases hnone.symm.trans hobj
        · rintro o prev next rfl
          exact hmoves o prev next p rest rfl
    | sets o b id rest' hw₀ hl hnew =>
        rcases live_of_sets blake3 hw hkeep hw₀ hl hsession with rfl | ⟨who', h₀⟩
        · cases hw₀
          exact hgo hnew hclimb
        · exact .inr ⟨who', .inl h₀⟩
    | moves o prev next id rest' hw₀ hl hnew =>
        cases hw₀
        refine hgo hnew ?_
        rw [PeerCall.pending_transitionTo]
        rwa [PeerCall.pending, if_pos hl] at hclimb
    | inserts o b id rest' hw₀ => exact absurd hw₀ (hno o b id rest')
  · have hw'' : (h.next blake3 (.run t)).nextOp (.worker who) = some (.call c p rest) :=
      (Pool.nextOp_run_of_ne (Ne.symm ht)).trans hw'
    have hgo {s' : PeerState} (hnew : (h.next blake3 (.run t)).contact p = some (some session.underlay.socketAddr, s'))
        (hclimb : s'.climb (c.pending h.table rest) = .connected)
        (htable : (h.next blake3 (.run t)).table.lookup p = h.table.lookup p) :
        (h.next blake3 (.run t)).Climbs who p session.underlay.socketAddr := by
      refine ⟨s', hnew, _, hw'', rfl, ?_⟩
      rw [PeerCall.pending_congr hpeer htable]
      exact hclimb
    cases contactEffect blake3 hs hw hcontact with
    | same hnew htable => exact .inr ⟨who, .inr (hgo hnew hclimb htable)⟩
    | sets o b id rest' hw₀ hl hnew htable =>
        rcases live_of_sets blake3 hw hkeep hw₀ hl hsession with rfl | ⟨who', h₀⟩
        · exact .inr ⟨who, .inr (hgo hnew hclimb htable)⟩
        · exact .inr ⟨who', .inl h₀⟩
    | moves o prev next id rest' hw₀ hl hnew htable =>
        have hregular := hs.regular hw
        rw [hw₀] at hregular
        have hsuffix : c.pending h.table rest <:+ registration := (c.pending_suffix rest).trans htodo
        exact .inr ⟨who, .inr (hgo hnew
          (PeerState.climb_step (hregular.2.subset List.mem_cons_self) hsuffix hclimb) htable)⟩
    | inserts o b id rest' hw₀ => exact absurd hw₀ (hno o b id rest')

theorem live_run {p : PeerId} {session : PeerSession (SecureTransport S)}
    (hsession : h.engine.sessions.lookup p = some session)
    (hlive : h.RecordLive p session.underlay.socketAddr) :
    (h.next blake3 (.run t)).RecordLive p session.underlay.socketAddr := by
  by_cases hinsert : ∃ o b id rest, w = .call (.insert p o b) id rest
  · obtain ⟨o, b, id, rest, rfl⟩ := hinsert
    exact live_of_inserts blake3 hs hw (hkeep session hsession)
  have hno (o : ℕ) (b : SocketAddr) (id : PeerId) (rest : List PeerState) : w ≠ .call (.insert p o b) id rest :=
    fun hw₀ => hinsert ⟨o, b, id, rest, hw₀⟩
  rcases hlive with hconnected | ⟨who, h₀ | h₀⟩
  · cases contactEffect blake3 hs hw hconnected with
    | same hnew => exact .inl hnew
    | sets o b id rest hw₀ hl hnew =>
        rcases live_of_sets blake3 hw hkeep hw₀ hl hsession with rfl | ⟨who, h₀⟩
        · exact .inl hnew
        · exact .inr ⟨who, .inl h₀⟩
    | moves o prev next id rest hw₀ hl hnew =>
        have hregular := hs.regular hw
        rw [hw₀] at hregular
        have hstep := PeerState.climb_step (s := .connected) (hregular.2.subset List.mem_cons_self) List.nil_suffix rfl
        rw [PeerState.climb] at hstep
        exact .inl (hstep ▸ hnew)
    | inserts o b id rest hw₀ => exact absurd hw₀ (hno o b id rest)
  · by_cases ht : t = .worker who
    · subst ht
      exact (h₀.run_self blake3 hs hw hno).imp_right fun hnew => ⟨who, hnew⟩
    · exact .inr ⟨who, .inl (h₀.run_of_ne blake3 hw ht hno)⟩
  · exact live_of_climbs blake3 hw hkeep hs hsession h₀ hno

end run

/-! ### Steps of the loops -/

theorem contact_loop (a : LoopAction S) (p : PeerId) : (h.next blake3 (.loop a)).contact p = h.contact p := by
  rw [contact, contact, peerMgr_loop]

theorem table_loop (a : LoopAction S) : (h.next blake3 (.loop a)).table = h.table :=
  congrArg PeerTable.table (records_loop blake3 a)

/-- A stored session is registered in the end. -/
theorem Anew.loop {who : Option ℕ} {p : PeerId} {addr : SocketAddr} (h₀ : h.Anew who p addr) {a : LoopAction S}
    (hbusy : ¬ h.Busy a) : (h.next blake3 (.loop a)).Anew who p addr := by
  rcases h₀ with ⟨c, hc, hstored, rfl, rfl⟩ | ⟨w, hw, hanew⟩
  · by_cases ha : a.worker = some who
    · cases a with
      | tunPacket | healthcheck | relayFlag | stunAddr => cases ha
      | task a =>
          by_cases hstage : c.stage = .register
          · exact .inr ⟨_, nextOp_register blake3 hbusy ha hc hstage, rfl, rfl, rfl⟩
          · obtain ⟨stage, hnext, hstored'⟩ := Completion.next_of_stored hstored hstage
            have hcompletion := (Node.completion_advances blake3 ha hc).trans hnext
            exact .inl ⟨{ c with stage := stage }, (completion_loop blake3 hbusy who).trans hcompletion, hstored', rfl, rfl⟩
    · have hsame := Node.completion_other blake3 ha hc
      exact .inl ⟨c, (completion_loop blake3 hbusy who).trans hsame, hstored, rfl, rfl⟩
  · exact .inr ⟨w, nextOp_loop_of_some blake3 hw a, hanew⟩

/-- A session is from before, or that of a handshake that is still to register its peer. -/
theorem session_origin {a : LoopAction S} (hbusy : ¬ h.Busy a) {p : PeerId} {session : PeerSession (SecureTransport S)}
    (hl : (h.next blake3 (.loop a)).engine.sessions.lookup p = some session) :
    (∃ old, h.engine.sessions.lookup p = some old ∧ old.underlay = session.underlay) ∨
      ∃ who, (h.next blake3 (.loop a)).Anew who p session.underlay.socketAddr := by
  obtain ⟨e, hbefore, hafter⟩ := tables_loop blake3 (h := h) a
  have hold (hl : (e.sessions.lookup p).map (·.underlay) = some session.underlay) :
      ∃ old, h.engine.sessions.lookup p = some old ∧ old.underlay = session.underlay :=
    Option.map_eq_some_iff.mp ((hbefore.underlay p).symm.trans hl)
  have hnew : (((h.loopUpdate a).apply blake3 e).sessions.lookup p).map (·.underlay) = some session.underlay := by
    have hunderlay := hafter.underlay p
    rw [hl, Option.map_some] at hunderlay
    exact hunderlay.symm
  have heff := (h.loopUpdate a).sessionEffect blake3 e
  generalize (h.loopUpdate a).apply blake3 e = e' at heff hnew
  cases heff with
  | same hs hi => exact .inl (hold (hs p ▸ hnew))
  | indexes c hu hstage => exact .inl (hold hnew)
  | forgets underlay hu => exact .inl (hold hnew)
  | removes peerId hu =>
      rw [Engine.removeSession, Map.lookup_erase] at hnew
      split at hnew
      · cases hnew
      · exact .inl (hold hnew)
  | stores c hu hstage =>
      rw [Engine.insertSession, Map.lookup_insert] at hnew
      split at hnew
      · next hp =>
          obtain ⟨b, who, rfl, htask, hwho⟩ := Node.completion_of_update ((loopUpdate_eq_complete_iff hbusy).mp hu)
          have hnext := (completion_loop blake3 hbusy who).trans (Node.completion_advances blake3 htask hwho)
          rw [Completion.next, hstage] at hnext
          refine .inr ⟨who, .inl ⟨{ c with stage := .addrIndex }, hnext, ?_, hp.symm, ?_⟩⟩
          · exact fun hun => by cases hun <;> contradiction
          · exact congrArg TransportAddr.socketAddr (Option.some.inj hnew)
      · exact .inl (hold hnew)

/-- A step that changes no record and takes no operation away. -/
theorem RecordLive.idle {h' : Host S} {p : PeerId} {addr : SocketAddr} (h₀ : h.RecordLive p addr)
    (hcontact : h'.contact p = h.contact p) (htable : h'.table = h.table)
    (hanew : ∀ who, h.Anew who p addr → h'.Anew who p addr)
    (hnext : ∀ t w, h.nextOp t = some w → h'.nextOp t = some w) : h'.RecordLive p addr := by
  rcases h₀ with hconnected | ⟨who, (h₀ | ⟨w, hw, hover⟩) | ⟨s, hs, w, hw, hclimbs⟩⟩
  · exact .inl (hcontact.trans hconnected)
  · exact .inr ⟨who, .inl (.inl (hanew who h₀))⟩
  · exact .inr ⟨who, .inl (.inr ⟨w, hnext _ w hw, htable ▸ hover⟩)⟩
  · exact .inr ⟨who, .inr ⟨s, hcontact.trans hs, w, hnext _ w hw, htable ▸ hclimbs⟩⟩

theorem RecordLive.run_of_none {p : PeerId} {addr : SocketAddr} (h₀ : h.RecordLive p addr) {t : HostTask}
    (hw : h.nextOp t = none) : (h.next blake3 (.run t)).RecordLive p addr := by
  have hshared : (h.next blake3 (.run t)).shared = h.shared := by
    rw [shared_run, hw]
    rfl
  have hne {t' : HostTask} {w : Op} (hw' : h.nextOp t' = some w) : t' ≠ t := by
    rintro rfl
    cases hw.symm.trans hw'
  have hnext (t' : HostTask) (w : Op) (hw' : h.nextOp t' = some w) : (h.next blake3 (.run t)).nextOp t' = some w :=
    (Pool.nextOp_run_of_ne (hne hw')).trans hw'
  refine h₀.idle ?_ (congrArg (fun s : Shared S => s.records.table) hshared) (fun who hanew => ?_) hnext
  · rw [contact, contact, engine_run_none blake3 hw]
  · rw [Anew, completion_run]
    refine hanew.imp_right ?_
    rintro ⟨w, hw', hrecords⟩
    exact ⟨w, hnext _ w hw', hrecords⟩

/-! ### Runs -/

theorem RecordsLive.next (hlive : h.RecordsLive) (hs : h.Sound) {a : HostAction S} (hkeep : h.KeepsRecords a) :
    (h.next blake3 a).RecordsLive := by
  intro p session hl
  cases a with
  | loop a =>
      by_cases hbusy : h.Busy a
      · rw [next_of_busy blake3 hbusy] at hl ⊢
        exact hlive p session hl
      · rcases session_origin blake3 hbusy hl with ⟨old, hold, haddr⟩ | ⟨who, hanew⟩
        · rw [← haddr]
          exact (hlive p old hold).idle (contact_loop blake3 a p) (table_loop blake3 a)
            (fun who hanew => hanew.loop blake3 hbusy) fun t w hw => nextOp_loop_of_some blake3 hw a
        · exact .inr ⟨who, .inl (.inl hanew)⟩
  | run t =>
      have hunderlay := underlay_run blake3 (h := h) t p
      rw [hl, Option.map_some] at hunderlay
      obtain ⟨old, hold, haddr⟩ := Option.map_eq_some_iff.mp hunderlay.symm
      rw [← haddr]
      cases hw : h.nextOp t with
      | some w => exact live_run blake3 hw (hkeep w hw) hs hold (hlive p old hold)
      | none => exact (hlive p old hold).run_of_none blake3 hw

theorem Initial.recordsLive (hinit : h.Initial) : h.RecordsLive := by
  intro p session hl
  have hnone : h.engine.sessions = ∅ := hinit.node.sessions
  rw [hnone] at hl
  cases hl

/-- In a state at rest, every peer with a session has its record. -/
theorem AtRest.peersLive (hrest : h.AtRest) (hlive : h.RecordsLive) : h.engine.PeersLive := by
  have hidle (who : Option ℕ) (w : Op) : h.nextOp (.worker who) ≠ some w := by
    intro hw
    obtain ⟨th, hth, -⟩ := Option.bind_eq_some_iff.mp hw
    exact (hrest who).2 (Map.mem_iff_lookup.mpr ⟨th, hth⟩)
  intro p session hl
  rcases hlive p session hl with hconnected | ⟨who, ((⟨c, hc, -⟩ | ⟨w, hw, -⟩) | ⟨w, hw, -⟩) | ⟨s, -, w, hw, -⟩⟩
  · obtain ⟨peer, hget, heq⟩ := Option.map_eq_some_iff.mp hconnected
    rw [Prod.mk.injEq] at heq
    exact ⟨peer, hget, heq.2, heq.1⟩
  · cases (hrest who).1.symm.trans hc
  · exact absurd hw (hidle who w)
  · exact absurd hw (hidle who w)
  · exact absurd hw (hidle who w)

end Host

/-- **The peer table agrees with the live sessions.**  In a run in which no operation sets another address for a peer with a
session or replaces its record, unless a handshake at the session's address is still to record the peer, the records
agree with the sessions in every state in which no message is being handled and no handshake is being completed. -/
theorem peer_table_live (blake3 : Blake3) (h : Host S) (hinit : h.Initial) (as : List (HostAction S))
    (has : Along (Host.next blake3) Host.KeepsRecords h as) {bs : List (HostAction S)} (hbs : bs <+: as)
    (hrest : (exec (Host.next blake3) h bs).AtRest) : (exec (Host.next blake3) h bs).engine.PeersLive := by
  obtain ⟨cs, rfl⟩ := hbs
  have hsteps := ((Run.along_append bs cs).mp has).1
  have hlive := hsteps.invariant (I := fun h : Host S => h.Sound ∧ h.RecordsLive)
    (fun h a hI hkeep => ⟨hI.1.next blake3 a, hI.2.next blake3 hI.1 hkeep⟩) ⟨hinit.sound, hinit.recordsLive⟩
  exact hrest.peersLive hlive.2

open Transparent in
/-- Peer 7 tells of peer 9 and says that it relays to it; then 9 completes a handshake itself. -/
theorem peer_table_live_handshake : (exec (Host.next blake3) (host 1) (atOnce upgrade)).engine.PeersLive :=
  peer_table_live blake3 (host 1) (host_initial 1) (atOnce upgrade) (by decide +kernel) List.prefix_rfl
    (by decide +kernel)

open Transparent in
/-- Peers 7 and 8 complete handshakes, and 8 says that it relays to 7. -/
theorem relay_ready_overwrites :
    ¬ ∀ (blake3 : Blake3) (h : Host transparent), h.Initial → ∀ as : List (HostAction transparent),
      (exec (Host.next blake3) h as).AtRest → (exec (Host.next blake3) h as).engine.PeersLive := by
  intro h
  let run := atOnce (handshakeFrom 7 (addr 2) 3 4 ++ handshakeFrom 8 (addr 3) 5 6 ++
    [messageFrom (addr 3) 5 6 0 (.relayReady (.replicate 8) (.replicate 7) 1)])
  have hlive := h blake3 (host 1) (host_initial 1) run
  have hrest : (exec (Host.next blake3) (host 1) run).AtRest := by decide +kernel
  have hsession : ((exec (Host.next blake3) (host 1) run).engine.sessions.lookup (.replicate 7)).map (·.underlay) =
      some (.udp (addr 2)) := by decide +kernel
  have haddr : ((exec (Host.next blake3) (host 1) run).engine.peerMgr.get (.replicate 7)).map (·.underlayAddr) =
      some (some Engine.fakeAddr) := by decide +kernel
  generalize exec (Host.next blake3) (host 1) run = h' at hlive hrest hsession haddr
  obtain ⟨session, hl, hunderlay⟩ := Option.map_eq_some_iff.mp hsession
  obtain ⟨peer, hget, -, hpeer⟩ := hlive hrest _ session hl
  rw [hget, Option.map_some, hpeer, hunderlay] at haddr
  exact absurd haddr (by decide)

open Transparent in
/-- The inbound loop has looked up peer 9, which 7 tells of, and found no record; a handshake with 9 comes to its end;
then the inbound loop inserts its own record over that of the handshake. -/
example :
    let late := exec (Host.next blake3) (host 1) (atOnce (handshakeFrom 7 (addr 2) 3 4 ++
        [.start (addr 9) (5 : UInt8), .attempt 0 true 0, .receive (arrival (addr 9) 0 (messageB 9 5 6)), .inbound]) ++
      .loop (.task (messageFrom (addr 2) 3 4 0 (.peerDirectory [(.replicate 9, addr 9, 1)]))) ::
        List.replicate 4 (.run (.worker none)) ++
      List.replicate 12 (.loop (.task (.attempt 0 true 0))) ++ List.replicate 20 (.run (.worker (some 0))) ++
      List.replicate 20 (.run (.worker none)))
    late.AtRest ∧ .replicate 9 ∈ late.engine.sessions ∧
      late.contact (.replicate 9) = some (some (addr 9), .discovering) := by
  decide +kernel

end SeedNet
