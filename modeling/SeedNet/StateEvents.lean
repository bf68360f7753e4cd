import SeedNet.LiveRecords
import SeedNet.PeerRecords

/-! # State events and finished handshakes

`PeerManager::transition_peer` reads the state of a peer under one guard of its record, makes the transition under
another, and sends `StateChanged` with the state that it has read (`crates/peer/src/manager.rs`).  A run of a
`PeerTable` shows what each call changes and sends; both are read off the states before and after a step.
`state_events_iff`: the events tell what changed exactly if no transition succeeds from another state than the one
that its call has read.

Both handshake roles register a peer with `discover` and three calls of `transition_peer` whose errors they ignore.
`registered_iff`: the record is then `Connected` exactly if it was neither `Disconnected` nor `Dead`, in which
states `discover` leaves the record of a known peer. -/

namespace SeedNet

open Run (exec Along trace watch)

/-! ### What a run shows -/

/-- What a call shows: a record that it changed, an event that it sent, an error that it returned. -/
inductive CallSign where
  | changed (id : PeerId) (prev next : PeerState)
  | sent (event : PeerEvent)
  | failed
deriving DecidableEq

namespace CallSign

/-- What the call `i` has shown. -/
def ofCall (i : ℕ) (h : List (ℕ × CallSign)) : List CallSign :=
  h.filterMap fun sign => if sign.1 = i then some sign.2 else none

@[simp] theorem ofCall_append (i : ℕ) (h h' : List (ℕ × CallSign)) : ofCall i (h ++ h') = ofCall i h ++ ofCall i h' :=
  List.filterMap_append

theorem ofCall_map (i j : ℕ) (signs : List CallSign) :
    ofCall i (signs.map fun sign => (j, sign)) = if j = i then signs else [] := by
  unfold ofCall
  rw [List.filterMap_map]
  split
  · next h =>
      subst h
      simp only [Function.comp_def, if_true]
      exact List.filterMap_some
  · next h =>
      simp only [Function.comp_def, if_neg h]
      exact List.filterMap_eq_nil_iff.mpr fun _ _ => rfl

end CallSign

open CallSign (ofCall ofCall_append ofCall_map)

namespace PeerTable

/-- The records that differ before and after a step. -/
def changes (before after : List Peer) : List CallSign :=
  (before.zip after).filterMap fun (p, p') => if p = p' then none else some (.changed p.id p.state p'.state)

/-- The next operation of the call finds that it must return an error. -/
def fails (s : PeerTable) : PeerCall → Bool
  | .transitionPeer id _ => (s.table.lookup id).isNone
  | .transitionTo _ o _ next => (s.objects[o]?).any fun p => !p.state.canTransitionTo next
  | _ => false

/-- What a step from `s` to `s'` shows. -/
def shown (s s' : PeerTable) (failed : Bool) : List CallSign :=
  changes s.objects s'.objects ++ (s'.events.drop s.events.length).map .sent ++ if failed then [.failed] else []

def observe (s : PeerTable) : PeerTableAction → List (ℕ × CallSign)
  | .step i => (shown s (s.step i) ((s.calls[i]?).any s.fails)).map fun sign => (i, sign)
  | _ => []

/-- A call of `transition_peer` has shown what it should, as far as it is: at its end it has failed and shown
nothing else, or it has changed one record and then sent the event for that. -/
def Faithful : Option PeerCall → List CallSign → Prop
  | some .finished, signs =>
    signs = [.failed] ∨ ∃ id prev next, signs = [.changed id prev next, .sent (.stateChanged id prev next)]
  | some (.sendStateChanged id _ prev next), signs => signs = [.changed id prev next]
  | _, signs => signs = []

/-- In every state of the run, every call has shown what it should. -/
def EventsFaithful (s : PeerTable) (as : List PeerTableAction) : Prop :=
  ∀ bs, bs <+: as → ∀ i, Faithful (exec next s bs).calls[i]? (ofCall i (trace next observe s bs))

/-- A transition that is about to be made is made from the state that its call has read. -/
def Current (s : PeerTable) : PeerCall → Prop
  | .transitionTo _ o prev next => ∀ p ∈ s.objects[o]?, p.state.canTransitionTo next = true → p.state = prev
  | _ => True

instance (s : PeerTable) : DecidablePred s.Current
  | .transitionTo _ o prev next =>
    inferInstanceAs (Decidable (∀ p ∈ s.objects[o]?, p.state.canTransitionTo next = true → p.state = prev))
  | .discover .. | .setUnderlay .. | .transition .. | .insert .. | .sendDiscovered .. | .get _ | .transitionPeer ..
  | .readState .. | .sendStateChanged .. | .returned .. | .finished => .isTrue trivial

def ReadsCurrent (s : PeerTable) : PeerTableAction → Prop
  | .step i => ∀ call ∈ s.calls[i]?, s.Current call
  | _ => True

instance (s : PeerTable) : DecidablePred s.ReadsCurrent
  | .step i => inferInstanceAs (Decidable (∀ call ∈ s.calls[i]?, s.Current call))
  | .discover .. | .get _ | .transitionPeer .. | .set .. => .isTrue trivial

/-! ### The operations of `transition_peer` -/

/-- Every identity is mapped to a record of its own. -/
def HasRecord (s : PeerTable) (id : PeerId) (o : ℕ) : Prop := (s.objects[o]?).map (·.id) = some id

/-- `PeerManager::insert` maps the identity of a record to the record. -/
def Keyed (s : PeerTable) : Prop := ∀ id o, s.table.lookup id = some o → s.HasRecord id o

end PeerTable

/-- The call is one of `transition_peer`. -/
def PeerCall.OfTransition : PeerCall → Prop
  | .transitionPeer .. | .readState .. | .transitionTo .. | .sendStateChanged .. | .finished => True
  | _ => False

/-- A call of `transition_peer` begins, or does its next operation. -/
def PeerTableAction.OfTransition : PeerTableAction → Prop
  | .transitionPeer .. | .step _ => True
  | _ => False

namespace PeerTable

/-- All calls under way are calls of `transition_peer`, with handles to the records of their peers. -/
structure OnlyTransitions (s : PeerTable) : Prop where
  keyed : s.Keyed
  calls : ∀ call ∈ s.calls, call.OfTransition
  handles : ∀ call ∈ s.calls, ∀ id o, call.handle = some (id, o) → s.HasRecord id o

/-- What an operation of `transition_peer` does. -/
inductive TransitionEffect (s : PeerTable) : PeerCall → PeerTable → PeerCall → Prop
  | quiet {call call'} (hfails : s.fails call = false) (hcurrent : s.Current call) (hof : call'.OfTransition)
      (hcall : ∀ signs, Faithful (some call) signs ↔ signs = [])
      (hcall' : ∀ signs, Faithful (some call') signs ↔ signs = [])
      (hhandle : ∀ id o, call'.handle = some (id, o) → s.HasRecord id o) : TransitionEffect s call s call'
  | fails {call} (hfails : s.fails call = true) (hcurrent : s.Current call)
      (hcall : ∀ signs, Faithful (some call) signs ↔ signs = []) : TransitionEffect s call s .finished
  | changes (id : PeerId) (o : ℕ) (prev next : PeerState) (p : Peer) (hp : s.objects[o]? = some p) (hid : p.id = id)
      (hvalid : p.state.canTransitionTo next = true) :
      TransitionEffect s (.transitionTo id o prev next) (s.modify o fun _ => { p with state := next })
        (.sendStateChanged id o prev next)
  | sends (id : PeerId) (o : ℕ) (prev next : PeerState) :
      TransitionEffect s (.sendStateChanged id o prev next) (s.send (.stateChanged id prev next)) .finished
  | done : TransitionEffect s .finished s .finished

variable {s : PeerTable}

theorem HasRecord.exists {id : PeerId} {o : ℕ} (h : s.HasRecord id o) : ∃ p, s.objects[o]? = some p ∧ p.id = id :=
  Option.map_eq_some_iff.mp h

theorem transitionEffect (h : s.OnlyTransitions) {call : PeerCall} (hcall : call ∈ s.calls) :
    TransitionEffect s call (s.perform call).1 (s.perform call).2 := by
  have hown := h.handles call hcall
  cases call with
  | transitionPeer id next =>
      rw [perform]
      cases hl : s.table.lookup id with
      | some o =>
          refine .quiet (by simp [fails, hl]) trivial trivial (fun _ => Iff.rfl) (fun _ => Iff.rfl) fun id' o' hh => ?_
          cases hh
          exact h.keyed id o hl
      | none => exact .fails (by simp [fails, hl]) trivial fun _ => Iff.rfl
  | readState id o next =>
      obtain ⟨p, hp, hid⟩ := (hown id o rfl).exists
      rw [perform, hp]
      exact .quiet rfl trivial trivial (fun _ => Iff.rfl) (fun _ => Iff.rfl) hown
  | transitionTo id o prev next =>
      obtain ⟨p, hp, hid⟩ := (hown id o rfl).exists
      rw [perform, hp]
      by_cases hvalid : p.state.canTransitionTo next = true
      · have hnext : p.transition next = .ok { p with state := next } := by
          simp only [Peer.transition, PeerState.transition, if_pos hvalid, Except.map]
        dsimp only
        rw [hnext]
        exact .changes id o prev next p hp hid hvalid
      · have hnext : p.transition next = .error (.invalidTransition p.state next) := by
          simp only [Peer.transition, PeerState.transition, if_neg hvalid, Except.map]
        dsimp only
        rw [hnext]
        refine .fails ?_ (fun p' hp' hvalid' => ?_) fun _ => Iff.rfl
        · rw [fails, hp, Option.any_some, Bool.not_eq_true', Bool.eq_false_iff]
          exact hvalid
        · cases hp.symm.trans hp'
          exact absurd hvalid' hvalid
  | sendStateChanged id o prev next => exact .sends id o prev next
  | finished => exact .done
  | discover | setUnderlay | transition | insert | sendDiscovered | get | returned => exact (h.calls _ hcall).elim

/-! ### What a step shows -/

theorem changes_cons (p p' : Peer) (before after : List Peer) : changes (p :: before) (p' :: after) =
    if p = p' then changes before after else .changed p.id p.state p'.state :: changes before after := by
  by_cases h : p = p' <;> simp [changes, h]

theorem changes_self (objects : List Peer) : changes objects objects = [] := by
  induction objects with
  | nil => rfl
  | cons p objects ih => rw [changes_cons, if_pos rfl, ih]

/-- No state can be left for itself, so a transition is seen. -/
theorem changes_modify {objects : List Peer} {o : ℕ} {p : Peer} (hp : objects[o]? = some p) {next : PeerState}
    (hvalid : p.state.canTransitionTo next = true) :
    changes objects (objects.modify o fun _ => { p with state := next }) = [.changed p.id p.state next] := by
  have hne : p ≠ { p with state := next } := by
    intro heq
    have hstate : p.state = next := congrArg Peer.state heq
    rw [hstate] at hvalid
    cases next <;> cases hvalid
  induction objects generalizing o with
  | nil => cases hp
  | cons q objects ih =>
      cases o with
      | zero =>
          cases Option.some.inj hp
          rw [List.modify_zero_cons, changes_cons, if_neg hne, changes_self]
      | succ o => rw [List.modify_succ_cons, changes_cons, if_pos rfl, ih hp]

theorem shown_same (failed : Bool) : shown s s failed = if failed then [.failed] else [] := by
  rw [shown, changes_self, List.drop_length]
  rfl

theorem step_eq {i : ℕ} {call : PeerCall} (h : s.calls[i]? = some call) :
    s.step i = { (s.perform call).1 with calls := s.calls.set i (s.perform call).2 } := by
  rw [step, h]

/-- Every call has shown what it should. -/
def AllFaithful (s : PeerTable) (h : List (ℕ × CallSign)) : Prop := ∀ i, Faithful s.calls[i]? (ofCall i h)

/-- An operation of the call `i` matters to what this call has shown. -/
theorem allFaithful_set {h : List (ℕ × CallSign)} (hall : s.AllFaithful h) {i : ℕ} {call : PeerCall}
    (hcall : s.calls[i]? = some call) {s' : PeerTable} {call' : PeerCall} (hcalls : s'.calls = s.calls.set i call')
    (signs : List CallSign) : s'.AllFaithful (h ++ signs.map fun sign => (i, sign)) ↔
      Faithful (some call') (ofCall i h ++ signs) := by
  have hlt : i < s.calls.length := (List.getElem?_eq_some_iff.mp hcall).1
  have hset : s'.calls[i]? = some call' := by rw [hcalls, List.getElem?_set_self hlt]
  constructor
  · intro hnext
    have hi := hnext i
    rw [hset, ofCall_append, ofCall_map, if_pos rfl] at hi
    exact hi
  · intro hi j
    rw [ofCall_append, ofCall_map]
    by_cases hj : i = j
    · subst hj
      rw [if_pos rfl, hset]
      exact hi
    · rw [if_neg hj, List.append_nil, hcalls, List.getElem?_set_ne hj]
      exact hall j

theorem allFaithful_step (honly : s.OnlyTransitions) {h : List (ℕ × CallSign)} (hall : s.AllFaithful h) (i : ℕ) :
    s.ReadsCurrent (.step i) ↔ (s.step i).AllFaithful (h ++ s.observe (.step i)) := by
  cases hcall : s.calls[i]? with
  | none =>
      have hsame : s.step i = s := by rw [step, hcall]
      rw [observe, hsame, hcall, Option.any_none, shown_same]
      simp [ReadsCurrent, hcall, hall]
  | some call =>
      have heffect := transitionEffect honly (List.mem_of_getElem? hcall)
      have hreads : s.ReadsCurrent (.step i) ↔ s.Current call := by simp [ReadsCurrent, hcall]
      have hbefore : Faithful (some call) (ofCall i h) := hcall ▸ hall i
      rw [hreads, observe, allFaithful_set hall hcall (by rw [step_eq hcall]), step_eq hcall, hcall, Option.any_some]
      show _ ↔ Faithful _ (ofCall i h ++ shown s (s.perform call).1 (s.fails call))
      generalize s.perform call = r at heffect ⊢
      obtain ⟨s', call'⟩ := r
      dsimp only at heffect ⊢
      cases heffect with
      | quiet hfails hcurrent hof hquiet hquiet' hhandle =>
          rw [hfails, shown_same, (hquiet _).mp hbefore]
          exact iff_of_true hcurrent ((hquiet' _).mpr rfl)
      | fails hfails hcurrent hquiet =>
          rw [hfails, shown_same, (hquiet _).mp hbefore]
          exact iff_of_true hcurrent (.inl rfl)
      | changes id o prev next p hp hid hvalid =>
          have hsilent : ofCall i h = [] := hbefore
          have hshown : shown s (s.modify o fun _ => { p with state := next }) false =
              [.changed id p.state next] := by
            show changes s.objects _ ++ (s.events.drop s.events.length).map .sent ++ [] = _
            rw [modify, changes_modify hp hvalid, List.drop_length, hid]
            rfl
          rw [show s.fails (.transitionTo id o prev next) = false by simp [fails, hp, hvalid], hshown, hsilent]
          constructor
          · intro hcurrent
            show [CallSign.changed id p.state next] = [.changed id prev next]
            rw [hcurrent p hp hvalid]
          · intro hnext p' hp' _
            have heq : [CallSign.changed id p.state next] = [.changed id prev next] := hnext
            cases hp.symm.trans hp'
            simpa using heq
      | sends id o prev next =>
          have hchanged : ofCall i h = [.changed id prev next] := hbefore
          have hshown : shown s (s.send (.stateChanged id prev next)) false = [.sent (.stateChanged id prev next)] := by
            show changes s.objects s.objects ++ ((s.events ++ [_]).drop s.events.length).map .sent ++ [] = _
            rw [changes_self, List.drop_left]
            rfl
          rw [show s.fails (.sendStateChanged id o prev next) = false from rfl, hshown, hchanged]
          exact iff_of_true trivial (.inr ⟨id, prev, next, rfl⟩)
      | done =>
          rw [show s.fails .finished = false from rfl, shown_same, if_neg Bool.false_ne_true, List.append_nil]
          exact iff_of_true trivial hbefore

/-! ### Runs of `transition_peer` alone -/

theorem hasRecord_modify {id : PeerId} {o o' : ℕ} {p : Peer} (hp : s.objects[o]? = some p) (next : PeerState)
    (h : s.HasRecord id o') : (s.modify o fun _ => { p with state := next }).HasRecord id o' := by
  unfold HasRecord at h ⊢
  by_cases ho : o = o'
  · subst ho
    rw [hp] at h
    rw [modify, List.getElem?_modify_eq, hp]
    exact h
  · rw [modify, List.getElem?_modify_ne _ _ ho]
    exact h

/-- The calls after an operation of one of them. -/
theorem OnlyTransitions.set (h : s.OnlyTransitions) {s' : PeerTable} {i : ℕ} {call' : PeerCall}
    (hrecords : ∀ id o, s.HasRecord id o → s'.HasRecord id o) (htable : s'.table = s.table)
    (hcall' : call'.OfTransition) (hhandle : ∀ id o, call'.handle = some (id, o) → s.HasRecord id o) :
    OnlyTransitions { s' with calls := s.calls.set i call' } where
  keyed id o hl := hrecords id o (h.keyed id o (htable ▸ hl))
  calls call hmem := (List.mem_or_eq_of_mem_set hmem).elim (h.calls call) fun heq => heq ▸ hcall'
  handles call hmem id o hh :=
    hrecords id o ((List.mem_or_eq_of_mem_set hmem).elim (fun hold => h.handles call hold id o hh)
      fun heq => hhandle id o (heq ▸ hh))

theorem OnlyTransitions.step (h : s.OnlyTransitions) (i : ℕ) : (s.step i).OnlyTransitions := by
  cases hcall : s.calls[i]? with
  | none =>
      rw [PeerTable.step, hcall]
      exact h
  | some call =>
      have hmem := List.mem_of_getElem? hcall
      have heffect := transitionEffect h hmem
      rw [step_eq hcall]
      generalize s.perform call = r at heffect ⊢
      obtain ⟨s', call'⟩ := r
      dsimp only at heffect ⊢
      cases heffect with
      | quiet hfails hcurrent hof hquiet hquiet' hhandle =>
          exact h.set (fun _ _ hr => hr) rfl hof hhandle
      | fails => exact h.set (fun _ _ hr => hr) rfl trivial (fun _ _ hh => by cases hh)
      | changes id o prev next p hp hid hvalid =>
          exact h.set (fun _ _ hr => hasRecord_modify hp next hr) rfl trivial fun id o hh => h.handles _ hmem id o hh
      | sends => exact h.set (fun _ _ hr => hr) rfl trivial (fun _ _ hh => by cases hh)
      | done => exact h.set (fun _ _ hr => hr) rfl trivial (fun _ _ hh => by cases hh)

theorem OnlyTransitions.next (h : s.OnlyTransitions) {a : PeerTableAction} (ha : a.OfTransition) :
    (s.next a).OnlyTransitions := by
  cases a with
  | step i => exact h.step i
  | transitionPeer id next =>
      refine ⟨h.keyed, fun call hmem => ?_, fun call hmem id o hh => ?_⟩
      · rcases List.mem_append.mp hmem with hold | hnew
        · exact h.calls call hold
        · rw [List.mem_singleton.mp hnew]
          trivial
      · rcases List.mem_append.mp hmem with hold | hnew
        · exact h.handles call hold id o hh
        · rw [List.mem_singleton.mp hnew] at hh
          cases hh
  | discover | get | set => exact ha.elim

theorem allFaithful_next (honly : s.OnlyTransitions) {h : List (ℕ × CallSign)} (hall : s.AllFaithful h)
    {a : PeerTableAction} (ha : a.OfTransition) : s.ReadsCurrent a ↔ (s.next a).AllFaithful (h ++ s.observe a) := by
  cases a with
  | step i => exact allFaithful_step honly hall i
  | transitionPeer id next =>
      refine iff_of_true trivial fun i => ?_
      have hi := hall i
      show Faithful (s.calls ++ [.transitionPeer id next])[i]? (ofCall i (h ++ []))
      rw [List.append_nil, List.getElem?_append]
      split
      · exact hi
      · next hge =>
          -- the new call has shown nothing, as no call with its number has
          rw [List.getElem?_eq_none (not_lt.mp hge)] at hi
          rcases Nat.eq_zero_or_pos (i - s.calls.length) with h0 | hpos
          · rw [h0]
            exact hi
          · rw [List.getElem?_eq_none (Nat.succ_le_of_lt hpos)]
            exact hi
  | discover | get | set => exact ha.elim

end PeerTable

/-- **State events are faithful** in exactly those interleavings of calls of `transition_peer` in which every
transition that is made starts from the state that its call has read. -/
theorem state_events_iff (s : PeerTable) (hkeyed : s.Keyed) (hcalls : s.calls = []) (as : List PeerTableAction)
    (has : ∀ a ∈ as, a.OfTransition) : Along PeerTable.next PeerTable.ReadsCurrent s as ↔ s.EventsFaithful as := by
  have honly : s.OnlyTransitions := ⟨hkeyed, by simp [hcalls], by simp [hcalls]⟩
  have hempty : s.AllFaithful [] := fun i => by
    rw [hcalls, List.getElem?_nil]
    rfl
  rw [← Run.along_watch PeerTable.next PeerTable.observe s []]
  exact Run.along_iff_trace_invariant (I := PeerTable.AllFaithful) (J := fun s _ => s.OnlyTransitions)
    (A := PeerTableAction.OfTransition) (fun _ _ _ honly ha => honly.next ha)
    (fun _ _ _ honly hall ha => PeerTable.allFaithful_next honly hall ha) honly hempty as has

/-- A table with one record in this state. -/
def tableWith (state : PeerState) : PeerTable where
  objects := [{ id := .replicate 7, state := state }]
  table := (∅ : Map PeerId ℕ).insert (.replicate 7) 0

theorem keyed_tableWith (state : PeerState) : (tableWith state).Keyed := by
  intro id o hl
  rw [tableWith, Map.lookup_insert] at hl
  split at hl
  · next h =>
      cases hl
      rw [h]
      rfl
  · cases hl

/-- Two calls that run one after the other. -/
theorem state_events_one_by_one : (tableWith .connected).EventsFaithful
    [.transitionPeer (.replicate 7) .dead, .step 0, .step 0, .step 0, .step 0,
      .transitionPeer (.replicate 7) .disconnected, .step 1, .step 1, .step 1, .step 1] :=
  (state_events_iff (tableWith .connected) (keyed_tableWith .connected) rfl _ (by
    simp [PeerTableAction.OfTransition])).mp (by decide)

/-- Two calls read the state of the peer, and then one after the other make their transitions. -/
def overlapping : List PeerTableAction :=
  [.transitionPeer (.replicate 7) .dead, .transitionPeer (.replicate 7) .disconnected,
    .step 0, .step 1, .step 0, .step 1, .step 0, .step 0, .step 1, .step 1]

/-- A connected peer becomes `Dead` and then `Disconnected`, and the second change is announced as one from
`Connected`. -/
theorem state_event_stale : ¬ ∀ (s : PeerTable), s.Keyed → s.calls = [] → ∀ as : List PeerTableAction,
    (∀ a ∈ as, a.OfTransition) → s.EventsFaithful as := by
  intro h
  have htransitions : ∀ a ∈ overlapping, a.OfTransition := by simp [overlapping, PeerTableAction.OfTransition]
  have hevents := h (tableWith .connected) (keyed_tableWith .connected) rfl overlapping htransitions overlapping
    List.prefix_rfl 1
  have hcall : (exec PeerTable.next (tableWith .connected) overlapping).calls[1]? = some .finished := by decide
  have hshown : ofCall 1 (trace PeerTable.next PeerTable.observe (tableWith .connected) overlapping) =
      [.changed (.replicate 7) .dead .disconnected,
        .sent (.stateChanged (.replicate 7) .connected .disconnected)] := by decide
  rw [hcall, hshown] at hevents
  rcases hevents with hfailed | ⟨id, prev, next, hchanged⟩
  · simp at hfailed
  · simp only [List.cons.injEq, CallSign.changed.injEq, CallSign.sent.injEq, PeerEvent.stateChanged.injEq] at hchanged
    have hprev : PeerState.dead = .connected := hchanged.1.2.1.trans hchanged.2.1.2.1.symm
    cases hprev

/-! ### Finished handshakes -/

inductive ManagerCall where
  | insert (peer : Peer)
  | discover (id : PeerId) (underlay : SocketAddr)
  | transitionPeer (id : PeerId) (next : PeerState)
  | remove (id : PeerId)

namespace PeerManager

def call (m : PeerManager) : ManagerCall → PeerManager
  | .insert peer => m.insert peer
  | .discover id underlay => m.discover id underlay
  | .transitionPeer id next => (m.transitionPeer id next).2
  | .remove id => m.remove id

variable {m : PeerManager} {q : PeerId} {a : SocketAddr}

theorem contact_register_self : (m.register q a).contact q =
    some (some a, (((m.contact q).map Prod.snd).getD .discovering).climb registration) := by
  simp only [register, contact_transitionPeer, contact_discover, if_true, Option.map_some, registration, PeerState.climb]

/-- The record of a peer is there and says that it is connected. -/
def Connected (m : PeerManager) (id : PeerId) : Prop := ∃ peer, m.get id = some peer ∧ peer.state = .connected

theorem connected_iff_contact : m.Connected q ↔ ((m.contact q).map Prod.snd) = some .connected := by
  simp [Connected, contact, Option.map_eq_some_iff]

end PeerManager

/-- **A finished handshake yields a connected peer** exactly if the record of the peer, where there is one, is
neither `Disconnected` nor `Dead`. -/
theorem registered_iff (history : List ManagerCall) (id : PeerId) (underlay : SocketAddr) :
    ((exec PeerManager.call {} history).register id underlay).Connected id ↔
      ∀ peer, (exec PeerManager.call {} history).get id = some peer →
        peer.state ≠ .disconnected ∧ peer.state ≠ .dead := by
  generalize exec PeerManager.call {} history = m
  rw [PeerManager.connected_iff_contact, PeerManager.contact_register_self, Option.map_some, Option.some.injEq,
    PeerState.climb_registration, PeerManager.contact]
  cases m.get id with
  | none => simp [PeerState.Live]
  | some peer => simp [PeerState.Live]

/-- A peer that was declared dead completes a new handshake, and its record stays `Dead`. -/
theorem dead_peer_stays_dead : ¬ ∀ (history : List ManagerCall) (id : PeerId) (underlay : SocketAddr),
    ((exec PeerManager.call {} history).register id underlay).Connected id := by
  intro h
  let id : PeerId := .replicate 7
  let underlay : SocketAddr := .v4 ⟨192, 0, 2, 1⟩ 51820
  have hconnected := PeerManager.connected_iff_contact.mp (h [.discover id underlay, .transitionPeer id .connecting,
    .transitionPeer id .handshaking, .transitionPeer id .connected, .transitionPeer id .dead] id underlay)
  exact absurd hconnected (by decide)

/-- The engine itself leaves no record disconnected or dead, so its own handshakes always end connected. -/
theorem Host.registers {S : Snow} (blake3 : Blake3) (h : Host S) (hinit : h.Initial) (as : List (HostAction S))
    (id : PeerId) (underlay : SocketAddr) :
    ((exec (Host.next blake3) h as).engine.peerMgr.register id underlay).Connected id := by
  have hs : (exec (Host.next blake3) h as).Sound :=
    Run.exec_invariant (I := Host.Sound) (fun _ a hs => hs.next blake3 a) hinit.sound as
  rw [PeerManager.connected_iff_contact, PeerManager.contact_register_self, Option.map_some, Option.some.injEq,
    PeerState.climb_registration]
  cases hc : (exec (Host.next blake3) h as).engine.peerMgr.contact id with
  | none => exact ⟨nofun, nofun⟩
  | some c => exact hs.live hc

end SeedNet
