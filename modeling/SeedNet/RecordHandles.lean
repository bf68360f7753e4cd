import SeedNet.Host

/-! # Handles of records

A call on the peer manager goes on with the handle that it has read from the table, while other tasks insert new
objects and change those that there are.  `PeerCall.object` is the object of the handle, `Op.effect` what an
operation does to an object, and `Stage` where the handle of the next stage of a call comes from.

`Host.Sound` has what every reachable node keeps: an object in the table has the identity under which it is listed and is
on its way to `Connected`; a new object that is still to be inserted (`PeerCall.draft`) has the address and the state
that its call gives it, and no other task has a handle of it. -/

namespace SeedNet

open Threads (Thread Pool)

/-! ### Objects -/

namespace PeerCall

/-- The peer that a call is about. -/
def peer : PeerCall → Option PeerId
  | .discover id _ | .setUnderlay id _ _ | .transition id _ _ | .insert id _ _ | .sendDiscovered id _ _ | .get id
  | .transitionPeer id _ | .readState id _ _ | .transitionTo id _ _ _ | .sendStateChanged id _ _ _
  | .returned id _ => some id
  | .finished => none

/-- The transitions that are still to be made, `rest` after those of the call. -/
def todo (rest : List PeerState) : PeerCall → List PeerState
  | .transitionPeer _ next | .readState _ _ next | .transitionTo _ _ _ next => next :: rest
  | _ => rest

/-- The object that a call has a handle of. -/
def object : PeerCall → Option ℕ
  | .setUnderlay _ o _ | .transition _ o _ | .insert _ o _ | .sendDiscovered _ o _ | .readState _ o _
  | .transitionTo _ o _ _ | .sendStateChanged _ o _ _ | .returned _ o => some o
  | .discover .. | .get _ | .transitionPeer .. | .finished => none

/-- The object that a call is about to insert, with its address and state. -/
def draft : PeerCall → Option (ℕ × SocketAddr × PeerState)
  | .transition _ o underlay => some (o, underlay, .disconnected)
  | .insert _ o underlay => some (o, underlay, .discovering)
  | _ => none

/-- What a stage does to the object `o`. -/
def effect (o : ℕ) (p : Peer) : PeerCall → Peer
  | .setUnderlay _ o' underlay => if o' = o then { p with underlayAddr := some underlay } else p
  | .transition _ o' _ => if o' = o then (p.transition .discovering).toOption.getD p else p
  | .transitionTo _ o' _ next => if o' = o then (p.transition next).toOption.getD p else p
  | _ => p

end PeerCall

/-- What an operation does to the object `o`. -/
def Op.effect (o : ℕ) (p : Peer) : Op → Peer
  | .call c _ _ => c.effect o p
  | .set (some o') f => if o' = o then f.apply p else p
  | _ => p

namespace Peer

/-- A transition that fails leaves the state as it is. -/
theorem transition_getD (p : Peer) (next : PeerState) : (p.transition next).toOption.getD p =
    { p with state := if p.state.canTransitionTo next then next else p.state } := by
  rw [transition, PeerState.transition]
  split <;> rfl

end Peer

theorem PeerSetter.id_apply (f : PeerSetter) (p : Peer) : (f.apply p).id = p.id := by
  cases f with
  | transition next =>
      rw [PeerSetter.apply, Peer.transition_getD]
  | overlayAddr | overlayIpv6 | underlayAddr | hostname | publicAddr | latencyMs | pathKind => rfl

namespace PeerTable

variable {s : PeerTable} {o : ℕ} {p : Peer}

theorem object_modify (ho : s.objects[o]? = some p) (o' : ℕ) (f : Peer → Peer) :
    (s.modify o' f).objects[o]? = some (if o' = o then f p else p) := by
  rw [modify, List.getElem?_modify, ho]
  rfl

/-- The newest object. -/
theorem modify_last (s : PeerTable) (p : Peer) (f : Peer → Peer) :
    { s with objects := s.objects ++ [p] }.modify s.objects.length f = { s with objects := s.objects ++ [f p] } := by
  have hlast (l : List Peer) : (l ++ [p]).modify l.length f = l ++ [f p] := by
    induction l with
    | nil => rfl
    | cons q l ih => exact congrArg (q :: ·) ih
  exact congrArg (fun l => { s with objects := l }) (hlast s.objects)

theorem object_perform (ho : s.objects[o]? = some p) (c : PeerCall) :
    (s.perform c).1.objects[o]? = some (c.effect o p) := by
  cases c with
  | setUnderlay | transition => exact object_modify ho _ _
  | transitionTo id o' prev next =>
      rw [perform, PeerCall.effect]
      cases ho' : s.objects[o']? with
      | none =>
          have hne : o' ≠ o := by
            rintro rfl
            cases ho'.symm.trans ho
          rw [if_neg hne]
          exact ho
      | some p' =>
          dsimp only
          cases htransition : p'.transition next with
          | ok q =>
              refine (object_modify ho o' fun _ => q).trans ?_
              split
              · next heq =>
                  obtain rfl := Option.some.inj ((heq ▸ ho').symm.trans ho)
                  rw [htransition]
                  rfl
              · rfl
          | error e =>
              refine ho.trans ?_
              split
              · next heq =>
                  obtain rfl := Option.some.inj ((heq ▸ ho').symm.trans ho)
                  rw [htransition]
                  rfl
              · rfl
  | discover id underlay =>
      rw [perform]
      cases s.table.lookup id with
      | some o' => exact ho
      | none => exact (List.getElem?_append_left (List.getElem?_eq_some_iff.mp ho).1).trans ho
  | get id | transitionPeer id =>
      rw [perform]
      cases s.table.lookup id <;> exact ho
  | readState id o' next =>
      rw [perform]
      cases s.objects[o']? <;> exact ho
  | insert | sendDiscovered | sendStateChanged | returned | finished => exact ho

theorem table_perform (c : PeerCall) : (s.perform c).1.table =
    match c with
    | .insert id o _ => s.table.insert id o
    | _ => s.table := by
  cases c with
  | discover id | get id | transitionPeer id =>
      rw [perform]
      cases s.table.lookup id <;> rfl
  | readState id o next =>
      rw [perform]
      cases s.objects[o]? <;> rfl
  | transitionTo id o prev next =>
      rw [perform]
      cases s.objects[o]? with
      | none => rfl
      | some p =>
          dsimp only
          cases p.transition next <;> rfl
  | setUnderlay | transition | insert | sendDiscovered | sendStateChanged | returned | finished => rfl

/-! ### The next stage -/

/-- Where the handle of the next stage of a call comes from. -/
inductive Stage (s : PeerTable) (c c' : PeerCall) : Prop
  | none (hobj : c'.object = none)
  | new (id : PeerId) (underlay : SocketAddr) (hc : c = .discover id underlay)
      (hc' : c' = .transition id s.objects.length underlay)
      (hobj : (s.perform c).1.objects[s.objects.length]? = some (Peer.newWithUnderlay id underlay))
  | ready (id : PeerId) (o : ℕ) (underlay : SocketAddr) (hc : c = .transition id o underlay)
      (hc' : c' = .insert id o underlay)
  | keeps (o : ℕ) (hobj : c'.object = some o) (hdraft : c'.draft = Option.none) (hold : c.object = some o)
  | found (id : PeerId) (o : ℕ) (hobj : c'.object = some o) (hdraft : c'.draft = Option.none) (hid : c.peer = some id)
      (hl : s.table.lookup id = some o)

theorem stage_perform (c : PeerCall) : Stage s c (s.perform c).2 := by
  cases c with
  | discover id underlay =>
      rw [perform]
      cases hl : s.table.lookup id with
      | some o => exact .found id o rfl rfl rfl hl
      | none =>
          refine .new id underlay rfl rfl ?_
          rw [perform, hl]
          exact List.getElem?_concat_length
  | get id | transitionPeer id =>
      rw [perform]
      cases hl : s.table.lookup id with
      | some o => exact .found id o rfl rfl rfl hl
      | none => exact .none rfl
  | transition id o underlay => exact .ready id o underlay rfl rfl
  | setUnderlay id o | insert id o | sendDiscovered id o | returned id o => exact .keeps o rfl rfl rfl
  | readState id o next =>
      rw [perform]
      cases s.objects[o]? with
      | none => exact .none rfl
      | some p => exact .keeps o rfl rfl rfl
  | transitionTo id o prev next =>
      rw [perform]
      cases s.objects[o]? with
      | none => exact .none rfl
      | some p =>
          dsimp only
          cases p.transition next with
          | ok q => exact .keeps o rfl rfl rfl
          | error e => exact .none rfl
  | sendStateChanged | finished => exact .none rfl

/-- The next stage of a call is about the same peer. -/
theorem peer_perform (c : PeerCall) : (s.perform c).2 = .finished ∨ (s.perform c).2.peer = c.peer := by
  cases c with
  | discover id =>
      rw [perform]
      cases s.table.lookup id <;> exact .inr rfl
  | get id | transitionPeer id =>
      rw [perform]
      cases s.table.lookup id
      · exact .inl rfl
      · exact .inr rfl
  | readState id o next =>
      rw [perform]
      cases s.objects[o]?
      · exact .inl rfl
      · exact .inr rfl
  | transitionTo id o prev next =>
      rw [perform]
      cases s.objects[o]? with
      | none => exact .inl rfl
      | some p =>
          dsimp only
          cases p.transition next
          · exact .inl rfl
          · exact .inr rfl
  | sendStateChanged | finished => exact .inl rfl
  | setUnderlay | transition | insert | sendDiscovered | returned => exact .inr rfl

/-- It has no more transitions to make. -/
theorem todo_perform (c : PeerCall) (rest : List PeerState) : (s.perform c).2.todo rest <:+ c.todo rest := by
  cases c with
  | discover id | get id =>
      rw [perform]
      cases s.table.lookup id <;> exact List.suffix_rfl
  | transitionPeer id next =>
      rw [perform]
      cases s.table.lookup id
      · exact List.suffix_cons next rest
      · exact List.suffix_rfl
  | readState id o next =>
      rw [perform]
      cases s.objects[o]?
      · exact List.suffix_cons next rest
      · exact List.suffix_rfl
  | transitionTo id o prev next =>
      rw [perform]
      cases s.objects[o]? with
      | none => exact List.suffix_cons next rest
      | some p =>
          dsimp only
          cases p.transition next <;> exact List.suffix_cons next rest
  | sendStateChanged | finished | setUnderlay | transition | insert | sendDiscovered | returned => exact List.suffix_rfl

end PeerTable

/-! ### Operations of tasks -/

variable {S : Snow}

/-- Neither disconnected nor dead. -/
def PeerState.Live (s : PeerState) : Prop := s ≠ .disconnected ∧ s ≠ .dead

instance : DecidablePred PeerState.Live := fun _ => inferInstanceAs (Decidable (_ ∧ _))

namespace Op

/-- A call is about one peer, and has transitions of `registration` to make. -/
def Regular : Op → Prop
  | .call c peerId rest => c.peer = some peerId ∧ c.todo rest <:+ registration
  | .set _ f => f.Plain
  | _ => True

/-- The object that the operation has a handle of. -/
def object : Op → Option ℕ
  | .call c _ _ => c.object
  | _ => none

/-- The object that a call of the operation is about to insert. -/
def draft : Op → Option (ℕ × SocketAddr × PeerState)
  | .call c _ _ => c.draft
  | _ => none

variable {w : Op} {o : ℕ} {p : Peer}

theorem object_of_draft {a : SocketAddr} {st : PeerState} (h : w.draft = some (o, a, st)) : w.object = some o := by
  cases w with
  | call c =>
      cases c <;> cases h <;> rfl
  | relayPath | route | staleRoute | candidate | send | tun | set => cases h

theorem Begins.object (h : w.Begins) : w.object = none := by
  cases w with
  | call c =>
      cases c with
      | discover | get => rfl
      | setUnderlay | transition | insert | sendDiscovered | transitionPeer | readState | transitionTo | sendStateChanged
      | returned | finished => exact h.1.elim
  | relayPath | route | staleRoute | candidate | send | tun | set => rfl

theorem Begins.regular (h : w.Begins) : w.Regular := by
  cases w with
  | call c peerId rest =>
      obtain ⟨hc, hrest⟩ := h
      cases c with
      | discover id | get id => exact ⟨congrArg some hc, hrest⟩
      | setUnderlay | transition | insert | sendDiscovered | transitionPeer | readState | transitionTo | sendStateChanged
      | returned | finished => exact hc.elim
  | set o f => exact h
  | relayPath | route | staleRoute | candidate | send | tun => trivial

theorem Looks.regular (h : w.Looks) : w.Regular := by
  cases w with
  | call c peerId rest =>
      obtain ⟨rfl, rfl⟩ := h
      exact ⟨rfl, List.nil_suffix⟩
  | set o f => exact h
  | relayPath | route | staleRoute | candidate | send | tun => trivial

theorem Looks.object (h : w.Looks) : w.object = none := by
  cases w with
  | call c peerId rest =>
      obtain ⟨rfl, -⟩ := h
      rfl
  | relayPath | route | staleRoute | candidate | send | tun | set => rfl

/-- A record that is looked at makes no further stage. -/
theorem Looks.perform_ne {s : Shared S} (h : w.Looks) (w' : Op) : (Shared.perform w s).2 ≠ .inl w' := by
  cases w with
  | call c peerId rest =>
      obtain ⟨rfl, rfl⟩ := h
      show Shared.afterCall peerId [] (s.records.perform (.get peerId)).2 ≠ _
      rw [PeerTable.perform]
      cases s.records.table.lookup peerId <;> exact Sum.inr_ne_inl
  | set o f => cases o <;> exact Sum.inr_ne_inl
  | relayPath | route | staleRoute | candidate | send | tun => exact Sum.inr_ne_inl

/-- An operation keeps the identity of every object, and an object that was live stays so. -/
theorem id_effect : (w.effect o p).id = p.id := by
  cases w with
  | call c =>
      cases c with
      | setUnderlay | transition | transitionTo =>
          simp only [effect, PeerCall.effect, Peer.transition_getD]
          split <;> rfl
      | discover | insert | sendDiscovered | get | transitionPeer | readState | sendStateChanged | returned | finished => rfl
  | set o' f =>
      cases o' with
      | none => rfl
      | some o' =>
          rw [effect]
          split
          · cases f with
            | transition next => simp only [PeerSetter.apply, Peer.transition_getD]
            | overlayAddr | overlayIpv6 | underlayAddr | hostname | publicAddr | latencyMs | pathKind => rfl
          · rfl
  | relayPath | route | staleRoute | candidate | send | tun => rfl

theorem live_effect (h : w.Regular) (hlive : p.state.Live) : (w.effect o p).state.Live := by
  have hif {c : Prop} [Decidable c] {st : PeerState} (hst : st.Live) : (if c then st else p.state).Live := by
    split
    · exact hst
    · exact hlive
  cases w with
  | call c peerId rest =>
      cases c with
      | setUnderlay => simpa only [effect, PeerCall.effect, apply_ite Peer.state, ite_self] using hlive
      | transition id o' a =>
          simp only [effect, PeerCall.effect, Peer.transition_getD, apply_ite Peer.state]
          split
          · exact hif (by decide)
          · exact hlive
      | transitionTo id o' prev next =>
          have hnext : next.Live := by
            have hmem : next ∈ registration := h.2.subset List.mem_cons_self
            revert hmem
            cases next <;> decide
          simp only [effect, PeerCall.effect, Peer.transition_getD, apply_ite Peer.state]
          split
          · exact hif hnext
          · exact hlive
      | discover | insert | sendDiscovered | get | transitionPeer | readState | sendStateChanged | returned | finished =>
          exact hlive
  | set o' f =>
      cases o' with
      | none => exact hlive
      | some o' =>
          rw [effect]
          split
          · cases f with
            | transition | underlayAddr => exact h.elim
            | overlayAddr | overlayIpv6 | hostname | publicAddr | latencyMs | pathKind => exact hlive
          · exact hlive
  | relayPath | route | staleRoute | candidate | send | tun => exact hlive

/-- Only an operation with a handle of an object changes its address or state. -/
theorem contact_effect (h : w.Regular) (ho : w.object ≠ some o) :
    (w.effect o p).underlayAddr = p.underlayAddr ∧ (w.effect o p).state = p.state := by
  cases w with
  | call c peerId rest =>
      cases c with
      | setUnderlay | transition | transitionTo =>
          simp only [effect, PeerCall.effect]
          rw [if_neg fun heq => ho (congrArg some heq)]
          exact ⟨rfl, rfl⟩
      | discover | insert | sendDiscovered | get | transitionPeer | readState | sendStateChanged | returned | finished =>
          exact ⟨rfl, rfl⟩
  | set o' f =>
      cases o' with
      | none => exact ⟨rfl, rfl⟩
      | some o' =>
          rw [effect]
          split
          · cases f with
            | transition | underlayAddr => exact h.elim
            | overlayAddr | overlayIpv6 | hostname | publicAddr | latencyMs | pathKind => exact ⟨rfl, rfl⟩
          · exact ⟨rfl, rfl⟩
  | relayPath | route | staleRoute | candidate | send | tun => exact ⟨rfl, rfl⟩

end Op

namespace Shared

variable {w w' : Op} {s : Shared S}

theorem object_perform {o : ℕ} {p : Peer} (ho : s.records.objects[o]? = some p) (w : Op) :
    (perform w s).1.records.objects[o]? = some (w.effect o p) := by
  rw [records_perform]
  cases w with
  | call c => exact PeerTable.object_perform ho c
  | set o' f =>
      cases o' with
      | none => exact ho
      | some o' => exact PeerTable.object_modify ho o' f.apply
  | relayPath | route | staleRoute | candidate | send | tun => exact ho

theorem table_perform (w : Op) : (perform w s).1.records.table =
    match w with
    | .call (.insert id o _) _ _ => s.records.table.insert id o
    | _ => s.records.table := by
  rw [records_perform]
  cases w with
  | call c => exact (PeerTable.table_perform c).trans (by cases c <;> rfl)
  | set o' f => cases o' <;> rfl
  | relayPath | route | staleRoute | candidate | send | tun => rfl

/-- What follows a stage `c` of a call: the stage itself, the next transition, or the end. -/
inductive Follows (peerId : PeerId) (rest : List PeerState) (c : PeerCall) : Op ⊕ Option ℕ → Prop
  | stays (hc : c ≠ .finished) : Follows peerId rest c (.inl (.call c peerId rest))
  | moves (next : PeerState) (rest' : List PeerState) (hc : c = .finished ∨ ∃ id o, c = .returned id o)
      (hrest : rest = next :: rest') : Follows peerId rest c (.inl (.call (.transitionPeer peerId next) peerId rest'))
  | ends (r : Option ℕ) (hc : c = .finished ∨ ∃ id o, c = .returned id o) (hrest : rest = []) :
      Follows peerId rest c (.inr r)

theorem follows_afterCall (peerId : PeerId) (rest : List PeerState) (c : PeerCall) :
    Follows peerId rest c (afterCall peerId rest c) := by
  cases c with
  | returned id o =>
      cases rest with
      | nil => exact .ends _ (.inr ⟨id, o, rfl⟩) rfl
      | cons next rest => exact .moves next rest (.inr ⟨id, o, rfl⟩) rfl
  | finished =>
      cases rest with
      | nil => exact .ends _ (.inl rfl) rfl
      | cons next rest => exact .moves next rest (.inl rfl) rfl
  | discover | setUnderlay | transition | insert | sendDiscovered | get | transitionPeer | readState | transitionTo
  | sendStateChanged =>
      cases rest <;> exact .stays PeerCall.noConfusion

/-- The next stage of a call is one of a call on the same peer. -/
theorem stage_perform {c : PeerCall} {peerId : PeerId} {rest : List PeerState}
    (hw : (perform (.call c peerId rest) s).2 = .inl w') :
    ∃ c' rest', w' = .call c' peerId rest' ∧ s.records.Stage c c' := by
  have hfollows := follows_afterCall peerId rest (s.records.perform c).2
  rw [show afterCall peerId rest (s.records.perform c).2 = .inl w' from hw] at hfollows
  cases hfollows with
  | stays hc => exact ⟨_, _, rfl, s.records.stage_perform c⟩
  | moves next rest' => exact ⟨_, _, rfl, .none rfl⟩

/-- The operations of a call are regular to its end. -/
theorem regular_perform (h : w.Regular) (hw : (perform w s).2 = .inl w') : w'.Regular := by
  cases w with
  | call c peerId rest =>
      obtain ⟨hpeer, htodo⟩ := h
      have hsuffix := (s.records.todo_perform c rest).trans htodo
      have hpeer' := s.records.peer_perform c
      have hfollows := follows_afterCall peerId rest (s.records.perform c).2
      rw [show afterCall peerId rest (s.records.perform c).2 = .inl w' from hw] at hfollows
      cases hfollows with
      | stays hc => exact ⟨(hpeer'.resolve_left hc).trans hpeer, hsuffix⟩
      | moves next rest' hc hrest =>
          have htodo' : (s.records.perform c).2.todo rest = next :: rest' := by
            rcases hc with hc | ⟨id, o, hc⟩ <;> rw [hc, hrest] <;> rfl
          rw [htodo'] at hsuffix
          exact ⟨rfl, hsuffix⟩
  | set o f => cases o <;> cases hw
  | relayPath | route | staleRoute | candidate | send | tun => cases hw

end Shared

/-! ### What every reachable node keeps -/

/-- What a task performs. -/
def HostTask.Performs : HostTask → Op → Prop
  | .worker _ => Op.Regular
  | .outbound | .health => Op.Looks

namespace HostTask

variable {t : HostTask} {w : Op}

theorem Begins.performs (h : t.Begins w) : t.Performs w := by
  cases t with
  | worker who => exact Op.Begins.regular h
  | outbound | health => exact h

theorem Begins.object (h : t.Begins w) : w.object = none := by
  cases t with
  | worker who => exact Op.Begins.object h
  | outbound | health => exact Op.Looks.object h

theorem Performs.regular (h : t.Performs w) : w.Regular := by
  cases t with
  | worker who => exact h
  | outbound | health => exact Op.Looks.regular h

theorem Performs.stage {w' : Op} {s : Shared S} (h : t.Performs w) (hw : (Shared.perform w s).2 = .inl w') :
    t.Performs w' := by
  cases t with
  | worker who => exact Shared.regular_perform h hw
  | outbound | health => exact absurd hw (Op.Looks.perform_ne h w')

end HostTask

namespace Host

def table (h : Host S) : Map PeerId ℕ := h.shared.records.table

structure Sound (h : Host S) : Prop where
  begins : h.Each HostTask.Begins
  performs : ∀ t w, h.nextOp t = some w → t.Performs w
  listed : ∀ id o, h.table.lookup id = some o →
    ∃ p, h.shared.records.objects[o]? = some p ∧ p.id = id ∧ p.state.Live
  held : ∀ t c id rest o, h.nextOp t = some (.call c id rest) → c.object = some o →
    ∃ p, h.shared.records.objects[o]? = some p ∧ p.id = id
  drafts : ∀ t w o a st, h.nextOp t = some w → w.draft = some (o, a, st) →
    (∃ p, h.shared.records.objects[o]? = some p ∧ p.underlayAddr = some a ∧ p.state = st) ∧
      ∀ id, h.table.lookup id ≠ some o
  apart : ∀ t t' w w' o a st, t ≠ t' → h.nextOp t = some w → h.nextOp t' = some w' → w.draft = some (o, a, st) →
    w'.object ≠ some o

variable {h : Host S}

namespace Sound

theorem regular (hs : h.Sound) {t : HostTask} {w : Op} (hw : h.nextOp t = some w) : w.Regular :=
  (hs.performs t w hw).regular

/-- A handle refers to an object that there is. -/
theorem lt_length (hs : h.Sound) {t : HostTask} {w : Op} {o : ℕ} (hw : h.nextOp t = some w) (ho : w.object = some o) :
    o < h.shared.records.objects.length := by
  cases w with
  | call c id rest =>
      obtain ⟨p, hp, -⟩ := hs.held t c id rest o hw ho
      exact (List.getElem?_eq_some_iff.mp hp).1
  | relayPath | route | staleRoute | candidate | send | tun | set => cases ho

/-- A step that changes no record keeps this, if each operation begins or was there before. -/
theorem idle {h' : Host S} (hs : h.Sound) (hbegins : h'.Each HostTask.Begins)
    (hrecords : h'.shared.records = h.shared.records)
    (hnext : ∀ t w, h'.nextOp t = some w → t.Begins w ∨ h.nextOp t = some w) : h'.Sound := by
  have hold {t : HostTask} {w : Op} {o : ℕ} (hw : h'.nextOp t = some w) (ho : w.object = some o) :
      h.nextOp t = some w := by
    refine (hnext t w hw).resolve_left fun hb => ?_
    rw [hb.object] at ho
    cases ho
  refine ⟨hbegins, fun t w hw => ?_, ?_, ?_, ?_, fun t t' w w' o a st hne hw hw' hd ho => ?_⟩
  · exact (hnext t w hw).elim HostTask.Begins.performs (hs.performs t w)
  · rw [table, hrecords]
    exact hs.listed
  · rw [hrecords]
    exact fun t c id rest o hw ho => hs.held t c id rest o (hold hw ho) ho
  · rw [table, hrecords]
    exact fun t w o a st hw hd => hs.drafts t w o a st (hold hw (Op.object_of_draft hd)) hd
  · exact hs.apart t t' w w' o a st hne (hold hw (Op.object_of_draft hd)) (hold hw' ho) hd ho

/-- Where the next operation of a task comes from when `t` has performed `w`. -/
theorem nextOp_run (hs : h.Sound) (blake3 : Blake3) {t t' : HostTask} {w w' : Op} (hw : h.nextOp t = some w)
    (hw' : (h.next blake3 (.run t)).nextOp t' = some w') :
    t'.Begins w' ∨ (t' ≠ t ∧ h.nextOp t' = some w') ∨ (t' = t ∧ (Shared.perform w h.shared).2 = .inl w') := by
  by_cases ht : t' = t
  · subst ht
    rcases hs.begins.nextOp_run hw' with hb | ⟨w₀, hw₀, hstage⟩
    · exact .inl hb
    · rw [hw] at hw₀
      cases hw₀
      exact .inr (.inr ⟨rfl, hstage⟩)
  · exact .inr (.inl ⟨ht, (Pool.nextOp_run_of_ne ht).symm.trans hw'⟩)

/-- The handle of the next stage of an operation. -/
theorem stage (hs : h.Sound) {t : HostTask} {w w' : Op} (hw : h.nextOp t = some w)
    (hw' : (Shared.perform w h.shared).2 = .inl w') :
    ∃ c c' id rest rest', w = .call c id rest ∧ w' = .call c' id rest' ∧ c.peer = some id ∧
      h.shared.records.Stage c c' := by
  cases w with
  | call c id rest =>
      obtain ⟨c', rest', rfl, hstage⟩ := Shared.stage_perform hw'
      exact ⟨c, c', id, rest, rest', rfl, rfl, (hs.regular hw).1, hstage⟩
  | set o f => cases o <;> cases hw'
  | relayPath | route | staleRoute | candidate | send | tun => cases hw'

end Sound

end Host

theorem Shared.table_perform_cases {s : Shared S} {w : Op} {id : PeerId} {o : ℕ}
    (hl : (Shared.perform w s).1.records.table.lookup id = some o) :
    s.records.table.lookup id = some o ∨ ∃ a peerId rest, w = .call (.insert id o a) peerId rest := by
  rw [table_perform] at hl
  split at hl
  · next id' o' a peerId rest =>
      rw [Map.lookup_insert] at hl
      split at hl
      · next heq =>
          cases hl
          cases heq
          exact .inr ⟨a, peerId, rest, rfl⟩
      · exact .inl hl
  · exact .inl hl

namespace Host

variable {h : Host S}

namespace Sound

section run

variable (hs : h.Sound) (blake3 : Blake3) {t : HostTask} {w : Op} (hw : h.nextOp t = some w)

include hs hw

theorem listed_run (id : PeerId) (o : ℕ) (hl : (Shared.perform w h.shared).1.records.table.lookup id = some o) :
    ∃ p, (Shared.perform w h.shared).1.records.objects[o]? = some p ∧ p.id = id ∧ p.state.Live := by
  rcases Shared.table_perform_cases hl with hold | ⟨a, peerId, rest, rfl⟩
  · obtain ⟨p, hp, hid, hlive⟩ := hs.listed id o hold
    exact ⟨_, Shared.object_perform hp w, Op.id_effect.trans hid, Op.live_effect (hs.regular hw) hlive⟩
  · obtain ⟨p, hp, hid⟩ := hs.held t _ peerId rest o hw rfl
    obtain ⟨⟨q, hq, -, hstate⟩, -⟩ := hs.drafts t _ o a .discovering hw rfl
    obtain rfl := Option.some.inj (hp.symm.trans hq)
    have hpeer : some id = some peerId := (hs.regular hw).1
    refine ⟨p, Shared.object_perform hp _, hid.trans (Option.some.inj hpeer).symm, ?_⟩
    rw [hstate]
    decide

theorem held_run {t' : HostTask} {c : PeerCall} {id : PeerId} {rest : List PeerState} {o : ℕ}
    (hc : (h.next blake3 (.run t)).nextOp t' = some (.call c id rest)) (ho : c.object = some o) :
    ∃ p, (Shared.perform w h.shared).1.records.objects[o]? = some p ∧ p.id = id := by
  have hkeep {o : ℕ} {p : Peer} (hp : h.shared.records.objects[o]? = some p) (hid : p.id = id) :
      ∃ p, (Shared.perform w h.shared).1.records.objects[o]? = some p ∧ p.id = id :=
    ⟨_, Shared.object_perform hp w, Op.id_effect.trans hid⟩
  rcases hs.nextOp_run blake3 hw hc with hb | ⟨-, hold⟩ | ⟨rfl, hstage⟩
  · cases ho.symm.trans hb.object
  · obtain ⟨p, hp, hid⟩ := hs.held t' c id rest o hold ho
    exact hkeep hp hid
  · obtain ⟨c₀, c', id', rest₀, rest', rfl, heq, hpeer, hfrom⟩ := hs.stage hw hstage
    cases heq
    cases hfrom with
    | none hobj => cases ho.symm.trans hobj
    | new id₀ a hc₀ hc' hobj =>
        subst hc₀ hc'
        cases ho
        exact ⟨_, hobj, Option.some.inj hpeer⟩
    | ready id₀ o₀ a hc₀ hc' =>
        subst hc₀ hc'
        cases ho
        obtain ⟨p, hp, hid⟩ := hs.held t' _ id rest₀ o hw rfl
        exact hkeep hp hid
    | keeps o₀ hobj hdraft hold =>
        obtain rfl := Option.some.inj (ho.symm.trans hobj)
        obtain ⟨p, hp, hid⟩ := hs.held t' _ id rest₀ o hw hold
        exact hkeep hp hid
    | found id₀ o₀ hobj hdraft hid₀ hl =>
        obtain rfl := Option.some.inj (ho.symm.trans hobj)
        obtain rfl := Option.some.inj (hpeer.symm.trans hid₀)
        obtain ⟨p, hp, hid, -⟩ := hs.listed id o hl
        exact hkeep hp hid

theorem drafts_run {t' : HostTask} {w' : Op} {o : ℕ} {a : SocketAddr} {st : PeerState}
    (hw' : (h.next blake3 (.run t)).nextOp t' = some w') (hd : w'.draft = some (o, a, st)) :
    (∃ p, (Shared.perform w h.shared).1.records.objects[o]? = some p ∧ p.underlayAddr = some a ∧ p.state = st) ∧
      ∀ id, (Shared.perform w h.shared).1.records.table.lookup id ≠ some o := by
  rcases hs.nextOp_run blake3 hw hw' with hb | ⟨hne, hold⟩ | ⟨rfl, hstage⟩
  · cases (Op.object_of_draft hd).symm.trans hb.object
  · obtain ⟨⟨p, hp, haddr, hstate⟩, hnone⟩ := hs.drafts t' w' o a st hold hd
    have ho : w.object ≠ some o := hs.apart t' t w' w o a st hne hold hw hd
    obtain ⟨haddr', hstate'⟩ := Op.contact_effect (p := p) (hs.regular hw) ho
    refine ⟨⟨_, Shared.object_perform hp w, haddr'.trans haddr, hstate'.trans hstate⟩, fun id hl => ?_⟩
    rcases Shared.table_perform_cases hl with hl | ⟨a', peerId, rest, rfl⟩
    · exact hnone id hl
    · exact ho rfl
  · obtain ⟨c, c', id', rest, rest', rfl, rfl, hpeer, hstage⟩ := hs.stage hw hstage
    cases hstage with
    | none hobj => cases (Op.object_of_draft hd).symm.trans hobj
    | new id₀ a₀ hc hc' hobj =>
        subst hc hc'
        cases hd
        refine ⟨⟨_, hobj, rfl, rfl⟩, fun id hl => ?_⟩
        rcases Shared.table_perform_cases hl with hl | ⟨a', peerId, rest, hc⟩
        · obtain ⟨p, hp, -⟩ := hs.listed id _ hl
          exact absurd (List.getElem?_eq_some_iff.mp hp).1 (Nat.lt_irrefl _)
        · cases hc
    | ready id₀ o₀ a₀ hc hc' =>
        subst hc hc'
        cases hd
        obtain ⟨⟨p, hp, haddr, hstate⟩, hnone⟩ := hs.drafts t' _ o a .disconnected hw rfl
        refine ⟨⟨_, Shared.object_perform hp _, ?_, ?_⟩, fun id hl => ?_⟩
        · simp only [Op.effect, PeerCall.effect, if_true, Peer.transition_getD, haddr]
        · simp only [Op.effect, PeerCall.effect, if_true, Peer.transition_getD, hstate]
          rfl
        · rcases Shared.table_perform_cases hl with hl | ⟨a', peerId, rest, hc⟩
          · exact hnone id hl
          · cases hc
    | keeps o₀ hobj hdraft => cases hd.symm.trans hdraft
    | found id₀ o₀ hobj hdraft => cases hd.symm.trans hdraft

theorem apart_run {t₁ t₂ : HostTask} {w₁ w₂ : Op} {o : ℕ} {a : SocketAddr} {st : PeerState} (hne : t₁ ≠ t₂)
    (hw₁ : (h.next blake3 (.run t)).nextOp t₁ = some w₁) (hw₂ : (h.next blake3 (.run t)).nextOp t₂ = some w₂)
    (hd : w₁.draft = some (o, a, st)) : w₂.object ≠ some o := by
  intro ho
  rcases hs.nextOp_run blake3 hw hw₂ with hb | ⟨hne₂, hold₂⟩ | ⟨rfl, hstage₂⟩
  · cases ho.symm.trans hb.object
  · rcases hs.nextOp_run blake3 hw hw₁ with hb | ⟨-, hold₁⟩ | ⟨rfl, hstage₁⟩
    · cases (Op.object_of_draft hd).symm.trans hb.object
    · exact hs.apart t₁ t₂ w₁ w₂ o a st hne hold₁ hold₂ hd ho
    · obtain ⟨c, c', id', rest, rest', rfl, rfl, -, hstage⟩ := hs.stage hw hstage₁
      cases hstage with
      | none hobj => cases (Op.object_of_draft hd).symm.trans hobj
      | new id₀ a₀ hc hc' =>
          subst hc'
          cases hd
          exact absurd (hs.lt_length hold₂ ho) (Nat.lt_irrefl _)
      | ready id₀ o₀ a₀ hc hc' =>
          subst hc hc'
          cases hd
          exact hs.apart t₁ t₂ _ w₂ o a .disconnected hne hw hold₂ rfl ho
      | keeps o₀ hobj hdraft => cases hd.symm.trans hdraft
      | found id₀ o₀ hobj hdraft => cases hd.symm.trans hdraft
  · rcases hs.nextOp_run blake3 hw hw₁ with hb | ⟨-, hold₁⟩ | ⟨rfl, -⟩
    · cases (Op.object_of_draft hd).symm.trans hb.object
    · have hapart := hs.apart t₁ t₂ w₁ w o a st hne hold₁ hw hd
      obtain ⟨c, c', id', rest, rest', rfl, rfl, -, hstage⟩ := hs.stage hw hstage₂
      cases hstage with
      | none hobj => cases ho.symm.trans hobj
      | new id₀ a₀ hc hc' =>
          subst hc'
          cases ho
          exact absurd (hs.lt_length hold₁ (Op.object_of_draft hd)) (Nat.lt_irrefl _)
      | ready id₀ o₀ a₀ hc hc' =>
          subst hc hc'
          exact hapart ho
      | keeps o₀ hobj hdraft hkept => exact hapart (hkept.trans (hobj.symm.trans ho))
      | found id₀ o₀ hobj hdraft hid₀ hl =>
          obtain rfl := Option.some.inj (ho.symm.trans hobj)
          exact (hs.drafts t₁ w₁ o a st hold₁ hd).2 id₀ hl
    · exact hne rfl

end run

theorem next (hs : h.Sound) (blake3 : Blake3) (a : HostAction S) : (h.next blake3 a).Sound := by
  cases a with
  | loop a =>
      exact hs.idle (begins_next blake3 hs.begins (.loop a)) (records_loop blake3 a) fun t w hw => nextOp_loop blake3 hw
  | run t =>
      have hbegins := begins_next blake3 hs.begins (.run t)
      have hshared := shared_run blake3 (h := h) t
      cases hw : h.nextOp t with
      | none =>
          rw [hw] at hshared
          refine hs.idle hbegins (congrArg Shared.records hshared) fun t' w hw' => ?_
          by_cases ht : t' = t
          · subst ht
            refine (hs.begins.nextOp_run hw').imp_right ?_
            rintro ⟨w₀, hw₀, -⟩
            cases hw.symm.trans hw₀
          · exact .inr ((Pool.nextOp_run_of_ne ht).symm.trans hw')
      | some w =>
          rw [hw] at hshared
          have hrecords : (h.next blake3 (.run t)).shared.records = (Shared.perform w h.shared).1.records :=
            congrArg Shared.records hshared
          refine ⟨hbegins, fun t' w' hw' => ?_, ?_, ?_, ?_, fun t₁ t₂ w₁ w₂ o a st => hs.apart_run blake3 hw⟩
          · rcases hs.nextOp_run blake3 hw hw' with hb | ⟨-, hold⟩ | ⟨rfl, hstage⟩
            · exact hb.performs
            · exact hs.performs t' w' hold
            · exact (hs.performs t' w hw).stage hstage
          · rw [table, hrecords]
            exact hs.listed_run hw
          · rw [hrecords]
            exact fun t' c id rest o => hs.held_run blake3 hw
          · rw [table, hrecords]
            exact fun t' w' o a st => hs.drafts_run blake3 hw

end Sound

theorem Initial.sound (hinit : h.Initial) : h.Sound := by
  have hidle (t : HostTask) : h.nextOp t = none := by
    rw [Pool.nextOp, hinit.tasks]
    rfl
  refine ⟨hinit.begins, fun t w hw => ?_, fun id o hl => ?_, fun t c id rest o hw => ?_, fun t w o a st hw => ?_,
    fun t t' w w' o a st _ hw => ?_⟩
  · cases (hidle t).symm.trans hw
  · rw [table, hinit.records] at hl
    cases hl
  · cases (hidle t).symm.trans hw
  · cases (hidle t).symm.trans hw
  · cases (hidle t).symm.trans hw

/-! ### What a step of a thread does to the records -/

section run

variable (blake3 : Blake3) {t : HostTask} {w : Op} (hw : h.nextOp t = some w)

include hw

theorem records_run : (h.next blake3 (.run t)).shared.records = (Shared.perform w h.shared).1.records := by
  rw [shared_run, hw]
  rfl

theorem object_run {o : ℕ} {p : Peer} (ho : h.shared.records.objects[o]? = some p) :
    (h.next blake3 (.run t)).shared.records.objects[o]? = some (w.effect o p) := by
  rw [records_run blake3 hw]
  exact Shared.object_perform ho w

theorem lookup_table_run {id : PeerId} (hno : ∀ o a peerId rest, w ≠ .call (.insert id o a) peerId rest) :
    (h.next blake3 (.run t)).table.lookup id = h.table.lookup id := by
  rw [table, records_run blake3 hw, Shared.table_perform]
  split
  · next id' o a peerId rest =>
      rw [Map.lookup_insert, if_neg]
      · rfl
      · rintro rfl
        exact hno o a peerId rest rfl
  · rfl

end run

theorem lookup_table_insert (blake3 : Blake3) {t : HostTask} {id peerId : PeerId} {o : ℕ} {a : SocketAddr}
    {rest : List PeerState} (hw : h.nextOp t = some (.call (.insert id o a) peerId rest)) :
    (h.next blake3 (.run t)).table.lookup id = some o := by
  rw [table, records_run blake3 hw, Shared.table_perform]
  exact AList.lookup_insert _

end Host

end SeedNet
