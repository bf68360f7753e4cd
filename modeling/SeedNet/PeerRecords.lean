import SeedNet.Peer
import SeedNet.Run

/-! # Concurrent calls on the peer table

A `Peer` is a handle: clones share one object, and `PeerManager::peers` maps an identity to a handle.  Calls on
the manager run concurrently, and other calls run between any two of their operations on the map, on the lock of
an object and on the event channel (`crates/peer/src/manager.rs`).  A `PeerTable` has the objects, the map, the
events and the calls, finished ones included; a run is a list of such operations in any order.

`discover` looks an identity up and inserts a new object later.  Two calls for a new identity can both find
nothing: then both insert, the second object replaces the first, both send `Discovered`, and what is set through
a handle to the first object is lost.  `one_record_iff`: there is one record per peer exactly if no call
inserts over a record. -/

namespace SeedNet

open Run (exec Along)

/-- A setter of `Peer`, or a transition through a handle. -/
inductive PeerSetter where
  | overlayAddr (addr : OverlayAddr)
  | overlayIpv6 (addr : Ipv6Addr)
  | underlayAddr (addr : SocketAddr)
  | hostname (name : String)
  | publicAddr (addr : SocketAddr)
  | latencyMs (rtt : UInt32)
  | pathKind (kind : PathKind)
  | transition (next : PeerState)

def PeerSetter.apply (p : Peer) : PeerSetter → Peer
  | .overlayAddr addr => { p with overlayAddr := some addr }
  | .overlayIpv6 addr => { p with overlayIpv6 := some addr }
  | .underlayAddr addr => { p with underlayAddr := some addr }
  | .hostname name => { p with hostname := name }
  | .publicAddr addr => { p with publicAddr := some addr }
  | .latencyMs rtt => { p with latencyMs := some rtt }
  | .pathKind kind => { p with pathKind := kind }
  | .transition next => (p.transition next).toOption.getD p

/-- How far a call is.  `o` is the object that the call's handle refers to. -/
inductive PeerCall where
  | discover (id : PeerId) (underlay : SocketAddr)
  /-- there is a record: its address is set next -/
  | setUnderlay (id : PeerId) (o : ℕ) (underlay : SocketAddr)
  /-- there is none: a new object becomes `Discovering`, is inserted and announced -/
  | transition (id : PeerId) (o : ℕ) (underlay : SocketAddr)
  | insert (id : PeerId) (o : ℕ) (underlay : SocketAddr)
  | sendDiscovered (id : PeerId) (o : ℕ) (underlay : SocketAddr)
  | get (id : PeerId)
  | transitionPeer (id : PeerId) (next : PeerState)
  | readState (id : PeerId) (o : ℕ) (next : PeerState)
  | transitionTo (id : PeerId) (o : ℕ) (prev next : PeerState)
  | sendStateChanged (id : PeerId) (o : ℕ) (prev next : PeerState)
  /-- the call has returned a handle, or another result -/
  | returned (id : PeerId) (o : ℕ)
  | finished
deriving DecidableEq

namespace PeerCall

/-- The handle that a call has got from the map, or put there. -/
def handle : PeerCall → Option (PeerId × ℕ)
  | .setUnderlay id o _ | .sendDiscovered id o _ | .readState id o _ | .transitionTo id o _ _
  | .sendStateChanged id o _ _ | .returned id o => some (id, o)
  | .discover .. | .transition .. | .insert .. | .get _ | .transitionPeer .. | .finished => none

/-- The event `Discovered` is sent for `id` next. -/
def announces (id : PeerId) : PeerCall → Bool
  | .sendDiscovered id' _ _ => decide (id' = id)
  | _ => false

end PeerCall

structure PeerTable where
  objects : List Peer := []
  table : Map PeerId ℕ := ∅
  events : List PeerEvent := []
  calls : List PeerCall := []

inductive PeerTableAction where
  | discover (id : PeerId) (underlay : SocketAddr)
  | get (id : PeerId)
  | transitionPeer (id : PeerId) (next : PeerState)
  /-- the next operation of a call -/
  | step (call : ℕ)
  /-- a setter through the handle that a call has returned -/
  | set (call : ℕ) (f : PeerSetter)

namespace PeerTable

/-- An object is changed under its lock. -/
def modify (s : PeerTable) (o : ℕ) (f : Peer → Peer) : PeerTable := { s with objects := s.objects.modify o f }

def send (s : PeerTable) (e : PeerEvent) : PeerTable := { s with events := s.events ++ [e] }

/-- The next operation of a call, and how far the call is then. -/
def perform (s : PeerTable) : PeerCall → PeerTable × PeerCall
  | .discover id underlay =>
    match s.table.lookup id with
    | some o => (s, .setUnderlay id o underlay)
    | none =>
      ({ s with objects := s.objects ++ [Peer.newWithUnderlay id underlay] },
        .transition id s.objects.length underlay)
  | .setUnderlay id o underlay => (s.modify o fun p => { p with underlayAddr := some underlay }, .returned id o)
  | .transition id o underlay =>
    (s.modify o fun p => (p.transition .discovering).toOption.getD p, .insert id o underlay)
  | .insert id o underlay => ({ s with table := s.table.insert id o }, .sendDiscovered id o underlay)
  | .sendDiscovered id o underlay => (s.send (.discovered id underlay), .returned id o)
  | .get id =>
    match s.table.lookup id with
    | some o => (s, .returned id o)
    | none => (s, .finished)
  | .transitionPeer id next =>
    match s.table.lookup id with
    | some o => (s, .readState id o next)
    | none => (s, .finished)
  | .readState id o next =>
    match s.objects[o]? with
    | some p => (s, .transitionTo id o p.state next)
    | none => (s, .finished)
  | .transitionTo id o prev next =>
    match s.objects[o]? with
    | some p =>
      match p.transition next with
      | .ok p => (s.modify o fun _ => p, .sendStateChanged id o prev next)
      | .error _ => (s, .finished)
    | none => (s, .finished)
  | .sendStateChanged id _ prev next => (s.send (.stateChanged id prev next), .finished)
  | .returned id o => (s, .returned id o)
  | .finished => (s, .finished)

def step (s : PeerTable) (i : ℕ) : PeerTable :=
  match s.calls[i]? with
  | some call =>
    let (s', call') := s.perform call
    { s' with calls := s.calls.set i call' }
  | none => s

def set (s : PeerTable) (i : ℕ) (f : PeerSetter) : PeerTable :=
  match s.calls[i]? with
  | some (.returned _ o) => s.modify o f.apply
  | _ => s

/-- A call begins. -/
def begin (s : PeerTable) (call : PeerCall) : PeerTable := { s with calls := s.calls ++ [call] }

def next (s : PeerTable) : PeerTableAction → PeerTable
  | .discover id underlay => s.begin (.discover id underlay)
  | .get id => s.begin (.get id)
  | .transitionPeer id next => s.begin (.transitionPeer id next)
  | .step i => s.step i
  | .set i f => s.set i f

/-! ### One record per peer -/

/-- What is in the record of a peer. -/
def record (s : PeerTable) (id : PeerId) : Option Peer := (s.table.lookup id).bind fun o => s.objects[o]?

/-- The number of `Discovered` events sent for a peer. -/
def discovered (s : PeerTable) (id : PeerId) : ℕ :=
  s.events.countP fun e =>
    match e with
    | .discovered id' _ => decide (id' = id)
    | _ => false

/-- One event `Discovered` for each record, sent or about to be sent, and every handle refers to the record. -/
structure OneRecord (s : PeerTable) : Prop where
  discovered : ∀ id, s.discovered id + s.calls.countP (·.announces id) = if id ∈ s.table then 1 else 0
  handles : ∀ call ∈ s.calls, ∀ id o, call.handle = some (id, o) → s.table.lookup id = some o

/-- The step inserts no object over a record. -/
def InsertsNew (s : PeerTable) : PeerTableAction → Prop
  | .step i => ∀ id o underlay, s.calls[i]? = some (.insert id o underlay) → id ∉ s.table
  | _ => True

/-! ### What an operation does -/

variable {s : PeerTable}

theorem discovered_send (e : PeerEvent) (id : PeerId) : (s.send e).discovered id = s.discovered id +
    match e with
    | .discovered id' _ => if id' = id then 1 else 0
    | _ => 0 := by
  rw [discovered, send, List.countP_append, discovered]
  cases e <;> simp [List.countP_cons]

/-- The operations that matter to the map: an insertion, the event after it, and all others. -/
inductive Performed (s : PeerTable) : PeerCall → PeerTable → PeerCall → Prop
  | quiet {call call' s'} (hinsert : ∀ id o underlay, call ≠ .insert id o underlay) (htable : s'.table = s.table)
      (hdiscovered : ∀ id, s'.discovered id = s.discovered id)
      (hcall : ∀ id, call.announces id = false) (hcall' : ∀ id, call'.announces id = false)
      (hhandle : ∀ id o, call'.handle = some (id, o) → call.handle = some (id, o) ∨ s.table.lookup id = some o) :
      Performed s call s' call'
  | inserts (id : PeerId) (o : ℕ) (underlay : SocketAddr) :
      Performed s (.insert id o underlay) { s with table := s.table.insert id o } (.sendDiscovered id o underlay)
  | announces (id : PeerId) (o : ℕ) (underlay : SocketAddr) :
      Performed s (.sendDiscovered id o underlay) (s.send (.discovered id underlay)) (.returned id o)

theorem performed (s : PeerTable) (call : PeerCall) : Performed s call (s.perform call).1 (s.perform call).2 := by
  cases call with
  | insert id o underlay => exact .inserts id o underlay
  | sendDiscovered id o underlay => exact .announces id o underlay
  | discover id | get id | transitionPeer id =>
      rw [perform]
      cases hl : s.table.lookup id with
      | some o =>
          refine .quiet nofun rfl (fun _ => rfl) (fun _ => rfl) (fun _ => rfl) fun id' o' h => .inr ?_
          cases h
          exact hl
      | none => exact .quiet nofun rfl (fun _ => rfl) (fun _ => rfl) (fun _ => rfl) nofun
  | readState id o next =>
      rw [perform]
      cases s.objects[o]? with
      | some p => exact .quiet nofun rfl (fun _ => rfl) (fun _ => rfl) (fun _ => rfl) fun _ _ h => .inl h
      | none => exact .quiet nofun rfl (fun _ => rfl) (fun _ => rfl) (fun _ => rfl) nofun
  | transitionTo id o prev next =>
      rw [perform]
      cases s.objects[o]? with
      | some p =>
          dsimp only
          cases p.transition next with
          | ok p => exact .quiet nofun rfl (fun _ => rfl) (fun _ => rfl) (fun _ => rfl) fun _ _ h => .inl h
          | error e => exact .quiet nofun rfl (fun _ => rfl) (fun _ => rfl) (fun _ => rfl) nofun
      | none => exact .quiet nofun rfl (fun _ => rfl) (fun _ => rfl) (fun _ => rfl) nofun
  | sendStateChanged id o prev next =>
      exact .quiet nofun rfl (discovered_send _) (fun _ => rfl) (fun _ => rfl) nofun
  | setUnderlay | returned => exact .quiet nofun rfl (fun _ => rfl) (fun _ => rfl) (fun _ => rfl) fun _ _ h => .inl h
  | transition | finished => exact .quiet nofun rfl (fun _ => rfl) (fun _ => rfl) (fun _ => rfl) nofun

/-! ### Steps -/

theorem countP_set {p : PeerCall → Bool} {calls : List PeerCall} {i : ℕ} {call : PeerCall}
    (h : calls[i]? = some call) (call' : PeerCall) :
    (calls.set i call').countP p + (if p call then 1 else 0) = calls.countP p + if p call' then 1 else 0 := by
  obtain ⟨hi, hget⟩ := List.getElem?_eq_some_iff.mp h
  have hle : (if p call then 1 else 0) ≤ calls.countP p := by
    split
    · next hp => exact List.countP_pos_iff.mpr ⟨call, List.mem_of_getElem? h, hp⟩
    · exact Nat.zero_le _
  rw [List.countP_set hi, hget]
  omega

/-- The handles after an operation, if the operation leaves those of before alone. -/
theorem handles_set {calls : List PeerCall} {i : ℕ} {call' : PeerCall} {table table' : Map PeerId ℕ}
    (h : ∀ call ∈ calls, ∀ id o, call.handle = some (id, o) → table.lookup id = some o)
    (htable : ∀ id o, table.lookup id = some o → table'.lookup id = some o)
    (hcall' : ∀ id o, call'.handle = some (id, o) → table'.lookup id = some o) :
    ∀ call ∈ calls.set i call', ∀ id o, call.handle = some (id, o) → table'.lookup id = some o := by
  intro call hmem id o hhandle
  rcases List.mem_or_eq_of_mem_set hmem with hold | rfl
  · exact htable id o (h call hold id o hhandle)
  · exact hcall' id o hhandle

/-- A step keeps one record per peer exactly if it inserts no object over a record. -/
theorem step_oneRecord (h : s.OneRecord) (i : ℕ) : s.InsertsNew (.step i) ↔ (s.step i).OneRecord := by
  cases hcall : s.calls[i]? with
  | none =>
      rw [step, hcall]
      exact iff_of_true (fun _ _ _ hc => by cases hcall.symm.trans hc) h
  | some call =>
      have hinsertsNew : s.InsertsNew (.step i) ↔ ∀ id o underlay, call = .insert id o underlay → id ∉ s.table := by
        simp only [InsertsNew, hcall, Option.some.injEq]
      have hown (id : PeerId) (o : ℕ) (hhandle : call.handle = some (id, o)) : s.table.lookup id = some o :=
        h.handles call (List.mem_of_getElem? hcall) id o hhandle
      have hperformed := s.performed call
      rw [hinsertsNew, step, hcall]
      dsimp only
      generalize s.perform call = r at hperformed
      obtain ⟨s', call'⟩ := r
      have hcount (id : PeerId) := countP_set (p := (·.announces id)) hcall call'
      dsimp only at hperformed hcount ⊢
      cases hperformed with
      | quiet hinsert htable hdiscovered hb ha hhandle =>
          refine iff_of_true (fun id o underlay hc => absurd hc (hinsert id o underlay)) ⟨fun id => ?_, ?_⟩
          · have hid := hcount id
            rw [hb, ha] at hid
            show s'.discovered id + _ = if id ∈ s'.table then 1 else 0
            rw [htable, hdiscovered, ← h.discovered id]
            simpa using hid
          · refine handles_set h.handles (fun id o hl => by rw [htable]; exact hl) fun id o hh => ?_
            rw [htable]
            exact (hhandle id o hh).elim (hown id o) fun hl => hl
      | inserts id o underlay =>
          -- one more `Discovered` is about to be sent, of `id`
          have hafter (id' : PeerId) : s.discovered id' +
              (s.calls.set i (.sendDiscovered id o underlay)).countP (·.announces id') =
                (if id' ∈ s.table then 1 else 0) + if id' = id then 1 else 0 := by
            have hid := hcount id'
            rw [← h.discovered id']
            simp only [PeerCall.announces, Bool.false_eq_true, if_false, decide_eq_true_eq, eq_comm (a := id)] at hid ⊢
            omega
          constructor
          · intro hnew
            have hnot : id ∉ s.table := hnew id o underlay rfl
            refine ⟨fun id' => ?_, ?_⟩
            · refine (hafter id').trans ?_
              show _ = if id' ∈ s.table.insert id o then 1 else 0
              simp only [AList.mem_insert]
              by_cases hid : id' = id
              · subst hid
                simp [hnot]
              · simp [hid]
            · refine handles_set h.handles (fun id' o' hl => ?_) fun id' o' hh => ?_
              · have hne : id' ≠ id := fun he => hnot (he ▸ Map.mem_iff_lookup.mpr ⟨o', hl⟩)
                rw [Map.lookup_insert, if_neg hne]
                exact hl
              · cases hh
                exact AList.lookup_insert _
          · intro hnext id' o' underlay' hc hmem
            cases hc
            have hone : _ = if id ∈ s.table.insert id o then 1 else 0 := hnext.discovered id
            have htwo := (hafter id).symm.trans hone
            rw [if_pos hmem, if_pos rfl, if_pos ((AList.mem_insert _).mpr (.inl rfl))] at htwo
            omega
      | announces id o underlay =>
          refine iff_of_true (fun id o underlay hc => by cases hc) ⟨fun id' => ?_, ?_⟩
          · have hid := hcount id'
            show (s.send (.discovered id underlay)).discovered id' + _ = if id' ∈ s.table then 1 else 0
            rw [discovered_send, ← h.discovered id']
            simp only [PeerCall.announces, Bool.false_eq_true, if_false, decide_eq_true_eq] at hid ⊢
            omega
          · exact handles_set h.handles (fun _ _ hl => hl) hown

theorem begin_oneRecord (h : s.OneRecord) {call : PeerCall} (hb : ∀ id, call.announces id = false)
    (hhandle : call.handle = none) : (s.begin call).OneRecord := by
  refine ⟨fun id => ?_, fun c hc id o hh => ?_⟩
  · have hcount : (s.calls ++ [call]).countP (·.announces id) = s.calls.countP (·.announces id) := by
      rw [List.countP_append, List.countP_singleton, hb]
      rfl
    exact (congrArg (s.discovered id + ·) hcount).trans (h.discovered id)
  · rcases List.mem_append.mp hc with hold | hnew
    · exact h.handles c hold id o hh
    · rw [List.mem_singleton.mp hnew, hhandle] at hh
      cases hh

theorem set_table (i : ℕ) (f : PeerSetter) :
    (s.set i f).table = s.table ∧ (s.set i f).events = s.events ∧ (s.set i f).calls = s.calls := by
  unfold set
  split <;> exact ⟨rfl, rfl, rfl⟩

theorem insertsNew_iff (h : s.OneRecord) (a : PeerTableAction) : s.InsertsNew a ↔ (s.next a).OneRecord := by
  cases a with
  | step i => exact step_oneRecord h i
  | discover | get | transitionPeer => exact iff_of_true trivial (begin_oneRecord h (fun _ => rfl) rfl)
  | set i f =>
      obtain ⟨htable, hevents, hcalls⟩ := s.set_table i f
      refine iff_of_true trivial ⟨fun id => ?_, ?_⟩
      · show (s.set i f).discovered id + (s.set i f).calls.countP _ = if id ∈ (s.set i f).table then 1 else 0
        rw [discovered, htable, hevents, hcalls]
        exact h.discovered id
      · show ∀ call ∈ (s.set i f).calls, ∀ id o, _ → (s.set i f).table.lookup id = some o
        rw [htable, hcalls]
        exact h.handles

/-- A record is replaced only by an insertion over it. -/
theorem lookup_next {a : PeerTableAction} (ha : s.InsertsNew a) {id : PeerId} {o : ℕ}
    (h : s.table.lookup id = some o) : (s.next a).table.lookup id = some o := by
  cases a with
  | discover | get | transitionPeer => exact h
  | set i f =>
      show (s.set i f).table.lookup id = some o
      rw [(s.set_table i f).1]
      exact h
  | step i =>
      show (s.step i).table.lookup id = some o
      unfold step
      cases hcall : s.calls[i]? with
      | none => exact h
      | some call =>
          have hperformed := s.performed call
          dsimp only
          generalize s.perform call = r at hperformed
          obtain ⟨s', call'⟩ := r
          dsimp only at hperformed ⊢
          cases hperformed with
          | quiet hinsert htable => rw [htable]; exact h
          | announces => exact h
          | inserts id' o' underlay =>
              have hne : id ≠ id' := fun he => ha id' o' underlay hcall (he ▸ Map.mem_iff_lookup.mpr ⟨o, h⟩)
              exact (Map.lookup_insert ..).trans ((if_neg hne).trans h)

/-- What is set through a handle is set in the record. -/
theorem OneRecord.record_set (h : s.OneRecord) {i : ℕ} {id : PeerId} {o : ℕ}
    (hcall : s.calls[i]? = some (.returned id o)) (f : PeerSetter) :
    (s.next (.set i f)).record id = (s.record id).map fun p => f.apply p := by
  have hstored : s.table.lookup id = some o := h.handles _ (List.mem_of_getElem? hcall) id o rfl
  have hset : s.next (.set i f) = s.modify o f.apply := by rw [next, set, hcall]
  have hstored' : (s.modify o f.apply).table.lookup id = some o := hstored
  rw [hset, record, record, hstored, hstored', Option.bind_some, Option.bind_some, modify]
  simp only [List.getElem?_modify, if_true, Option.map_eq_map]

/-- In every state of a run from the empty table, a record once present is the same object later, each record
has been announced once or is about to be, all handles refer to the records, and so what is set through them is
set in the records. -/
structure OneRecordPerPeer (as : List PeerTableAction) : Prop where
  stored : ∀ bs cs, bs <+: cs → cs <+: as → ∀ id o,
    (exec next {} bs).table.lookup id = some o → (exec next {} cs).table.lookup id = some o
  oneRecord : ∀ bs, bs <+: as → (exec next {} bs).OneRecord
  kept : ∀ bs, bs <+: as → ∀ i id o f, (exec next {} bs).calls[i]? = some (.returned id o) →
    ((exec next {} bs).next (.set i f)).record id = ((exec next {} bs).record id).map fun p => f.apply p

end PeerTable

/-- **One record per peer.**  The interleavings of calls that keep one record per peer are those in which no
`discover` inserts its object over a record. -/
theorem one_record_iff (as : List PeerTableAction) :
    Along PeerTable.next PeerTable.InsertsNew {} as ↔ PeerTable.OneRecordPerPeer as := by
  have hempty : PeerTable.OneRecord {} := ⟨fun _ => rfl, fun _ hc => by cases hc⟩
  have hruns := Run.along_iff_invariant (I := PeerTable.OneRecord) (fun s a h => PeerTable.insertsNew_iff h a) hempty as
  refine ⟨fun h => ?_, fun h => hruns.mpr h.oneRecord⟩
  have hone := hruns.mp h
  refine ⟨?_, hone, fun bs hbs i id o f hcall => (hone bs hbs).record_set hcall f⟩
  rintro bs cs ⟨ds, rfl⟩ ⟨es, rfl⟩ id o hl
  rw [Run.along_append, Run.along_append] at h
  rw [Run.exec_append]
  exact h.1.2.invariant (I := fun s => s.table.lookup id = some o) (fun _ _ hs ha => PeerTable.lookup_next ha hs) hl

/-- Two handshakes with a new peer end at the same time: both calls of `discover` find no record. -/
theorem discover_twice : ¬ ∀ as : List PeerTableAction, PeerTable.OneRecordPerPeer as := by
  intro h
  let id : PeerId := .replicate 7
  let underlay (k : UInt8) : SocketAddr := .v4 ⟨192, 0, 2, k⟩ 51820
  let first : List PeerTableAction :=
    [.discover id (underlay 2), .discover id (underlay 3), .step 0, .step 1, .step 0, .step 1, .step 0]
  have hbefore : (exec PeerTable.next {} first).table.lookup id = some 0 := by decide
  have hafter := (h (first ++ [.step 1])).stored first _ (List.prefix_append ..) List.prefix_rfl id 0 hbefore
  exact absurd hafter (by decide)

end SeedNet
