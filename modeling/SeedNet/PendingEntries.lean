import SeedNet.TransparentNode
import SeedNet.Run

/-! # Entries in `pending`

`do_initiator_handshake` inserts the sender of its channel under the peer's address, and removes the entry of that
address when message A cannot be sent or the wait for message B is over (`crates/core/src/handshake.rs`).  In between
the inbound loop may have taken the sender, and a later attempt for the address may have inserted its own.

`EntryEffect` says what a step does to the entries.  `pending_owned_iff`: every attempt removes no entry but its own,
and is handed a message B until then, exactly in the runs in which no attempt comes to the removal while another one
for its address still has its sender in the map. -/

namespace SeedNet

open Run (exec Along trace watch)

variable {S : Snow}

namespace AttemptStage

/-- The task has its entry, as long as nobody else has taken or removed it. -/
def pends : AttemptStage S → Bool
  | .sendA _ | .sendFailed | .waitB | .timedOut => true
  | _ => false

/-- The task removes the entry next. -/
def removes : AttemptStage S → Bool
  | .sendFailed | .timedOut => true
  | _ => false

/-- The wait for message B is over. -/
def isOver : AttemptStage S → Bool
  | .timedOut | .requestRelay | .holePunch => true
  | _ => false

end AttemptStage

/-- What happens to an entry. -/
inductive PendingEvent where
  /-- the inbound loop took the sender of attempt `id` -/
  | dispatched (id : ℕ)
  /-- attempt `id` removed the entry that `owner` had inserted -/
  | removed (id owner : ℕ)
deriving DecidableEq

namespace Node

variable (blake3 : Blake3) (n : Node S)

/-- The removals of attempt `id`: the entries of the node before its step that are not in the node after it. -/
def removals (id : ℕ) (n' : Node S) : List PendingEvent :=
  (n.pending.entries.filter fun e => e.1 ∉ n'.pending).map fun e => .removed id e.2

/-- What a step does to the entries, read off the nodes before and after it. -/
def observeEntries (a : NodeAction S) : List PendingEvent :=
  let n' := n.next blake3 a
  match a with
  | .receive _ =>
    match n.inbound, n'.inbound with
    | .idle, .dispatch id _ => [.dispatched id]
    | _, _ => []
  | .attempt id _ _ => n.removals id n'
  | _ => []

/-- **Each attempt owns its entry**, after the events `h`. -/
structure EntriesOwned (h : List PendingEvent) : Prop where
  own : ∀ id owner, .removed id owner ∈ h → owner = id
  handed : ∀ id attempt, n.attempts.lookup id = some attempt → attempt.stage.isOver = false →
    .dispatched id ∉ h → n.inbound = .idle → ∀ a : Arrival S, a.fromAddr.socketAddr = attempt.addr →
      startsWith a.data noiseHandshakeResponderPrefix = true →
        (n.next blake3 (.receive a)).inbound = .dispatch id a.data
  returned : ∀ addr id, n.pending.lookup addr = some id →
    ∃ attempt, n.attempts.lookup id = some attempt ∧ attempt.addr = addr

/-- If the step is an attempt at its removal, then no other attempt for the address is before its own, unless the
inbound loop has taken its sender. -/
def RemovesAlone (h : List PendingEvent) : NodeAction S → Prop
  | .attempt id _ _ =>
    ∀ attempt, n.attempts.lookup id = some attempt → attempt.stage.removes = true →
      ∀ id' other, n.attempts.lookup id' = some other → other.addr = attempt.addr → other.stage.pends = true →
        id' ≠ id → .dispatched id' ∈ h
  | _ => True

/-! ### What a step does to the entries -/

/-- The address whose entry attempt `id` has not come past removing. -/
def waiter (id : ℕ) : Option SocketAddr :=
  (n.attempts.lookup id).bind fun attempt => if attempt.stage.pends then some attempt.addr else none

/-- Message B for attempt `id` is on its way or has arrived. -/
def Given (id : ℕ) : Prop :=
  (∃ data, n.inbound = .dispatch id data) ∨
    ∃ attempt, n.attempts.lookup id = some attempt ∧
      (attempt.inbox.isSome = true ∨ attempt.stage.completion.isSome = true)

variable {n}

theorem waiter_eq_some {id : ℕ} {addr : SocketAddr} : n.waiter id = some addr ↔
    ∃ attempt, n.attempts.lookup id = some attempt ∧ attempt.stage.pends = true ∧ attempt.addr = addr := by
  rw [waiter, Option.bind_eq_some_iff]
  refine exists_congr fun attempt => and_congr_right fun _ => ?_
  cases attempt.stage.pends <;> simp

theorem waiter_of_lookup {id : ℕ} {attempt : Attempt S} (h : n.attempts.lookup id = some attempt) :
    n.waiter id = if attempt.stage.pends then some attempt.addr else none := by
  rw [waiter, h, Option.bind_some]

theorem waiter_of_attempts {n' : Node S} (h : n'.attempts = n.attempts) (i : ℕ) : n'.waiter i = n.waiter i := by
  rw [waiter, waiter, h]

/-- Task `id` goes on to `stage`. -/
structure Moves (n n' : Node S) (id : ℕ) (attempt : Attempt S) (stage : AttemptStage S) : Prop where
  attempts : n'.attempts = n.attempts.replace id { attempt with stage := stage }
  inbound : n'.inbound = n.inbound
  nextAttempt : n'.nextAttempt = n.nextAttempt

/-- Task `id` returns. -/
structure Returns (n n' : Node S) (id : ℕ) : Prop where
  attempts : n'.attempts = n.attempts.erase id
  inbound : n'.inbound = n.inbound
  nextAttempt : n'.nextAttempt = n.nextAttempt

theorem Moves.waiter {n' : Node S} {id : ℕ} {attempt : Attempt S} {stage : AttemptStage S}
    (h : n.Moves n' id attempt stage) (hattempt : n.attempts.lookup id = some attempt) (i : ℕ) :
    n'.waiter i = if i = id then (if stage.pends then some attempt.addr else none) else n.waiter i := by
  simp only [Node.waiter, h.attempts, Map.lookup_replace, hattempt, Option.map_some]
  split <;> rfl

theorem Returns.waiter {n' : Node S} {id : ℕ} (h : n.Returns n' id) (i : ℕ) :
    n'.waiter i = if i = id then none else n.waiter i := by
  simp only [Node.waiter, h.attempts, Map.lookup_erase]
  split <;> rfl

theorem Given.of_attempts {n' : Node S} {id : ℕ} (hin : ∀ data, n'.inbound = .dispatch id data → n.Given id)
    (h : n'.attempts = n.attempts) (hg : n'.Given id) : n.Given id := by
  rcases hg with ⟨data, hdata⟩ | hattempt
  · exact hin data hdata
  · rw [h] at hattempt
    exact .inr hattempt

theorem Moves.given {n' : Node S} {id i : ℕ} {attempt : Attempt S} {stage : AttemptStage S}
    (h : n.Moves n' id attempt stage) (hattempt : n.attempts.lookup id = some attempt)
    (hstage : stage.completion.isSome = true → n.Given id) (hg : n'.Given i) : n.Given i := by
  rcases hg with ⟨data, hdata⟩ | ⟨found, hlookup, hfound⟩
  · exact .inl ⟨data, h.inbound ▸ hdata⟩
  · rw [h.attempts, Map.lookup_replace] at hlookup
    split at hlookup
    · next hi =>
        subst hi
        rw [hattempt, Option.map_some, Option.some.injEq] at hlookup
        subst hlookup
        exact hfound.elim (fun hinbox => .inr ⟨attempt, hattempt, .inl hinbox⟩) hstage
    · exact .inr ⟨found, hlookup, hfound⟩

theorem Returns.given {n' : Node S} {id i : ℕ} (h : n.Returns n' id) (hg : n'.Given i) : n.Given i := by
  rcases hg with ⟨data, hdata⟩ | ⟨found, hlookup, hfound⟩
  · exact .inl ⟨data, h.inbound ▸ hdata⟩
  · rw [h.attempts, Map.lookup_erase] at hlookup
    split at hlookup
    · cases hlookup
    · exact .inr ⟨found, hlookup, hfound⟩

variable (n) in
/-- The step is not that of an attempt at its removal. -/
def NotRemoving (a : NodeAction S) : Prop :=
  ∀ id sent token, a = .attempt id sent token → ∀ attempt, n.attempts.lookup id = some attempt →
    attempt.stage.removes = false

theorem notRemoving_of_ne {a : NodeAction S} (h : ∀ id sent token, a ≠ .attempt id sent token) : n.NotRemoving a :=
  fun id sent token ha => absurd ha (h id sent token)

theorem notRemoving_of_stage {id : ℕ} {attempt : Attempt S} (hattempt : n.attempts.lookup id = some attempt)
    (h : attempt.stage.removes = false) (sent : Bool) (token : UInt64) : n.NotRemoving (.attempt id sent token) := by
  intro i sent' token' ha found hfound
  cases ha
  rw [hattempt] at hfound
  cases hfound
  exact h

/-- What the action `a` does to the entries and their tasks, and the events it shows. -/
inductive EntryEffect (n n' : Node S) (a : NodeAction S) : List PendingEvent → Prop
  | quiet (hp : n'.pending = n.pending) (hw : ∀ i, n'.waiter i = n.waiter i) (hg : ∀ i, n'.Given i → n.Given i)
      (hnext : n'.nextAttempt = n.nextAttempt) (hremoves : n.NotRemoving a) : EntryEffect n n' a []
  | dispatches (id : ℕ) (addr : SocketAddr) (hlookup : n.pending.lookup addr = some id)
      (hp : n'.pending = n.pending.erase addr) (hw : ∀ i, n'.waiter i = n.waiter i)
      (hg : ∀ i, n'.Given i → i = id ∨ n.Given i) (hnext : n'.nextAttempt = n.nextAttempt)
      (hremoves : n.NotRemoving a) : EntryEffect n n' a [.dispatched id]
  | starts (addr : SocketAddr) (hlookup : n.pending.lookup addr = none)
      (hp : n'.pending = n.pending.insert addr n.nextAttempt)
      (hw : ∀ i, n'.waiter i = if i = n.nextAttempt then some addr else n.waiter i)
      (hg : ∀ i, n'.Given i → n.Given i) (hnext : n'.nextAttempt = n.nextAttempt + 1)
      (hremoves : n.NotRemoving a) : EntryEffect n n' a []
  /-- an attempt stops waiting: it was given message B, or its sender is gone -/
  | leaves (id : ℕ) (addr : SocketAddr) (hwaiter : n.waiter id = some addr) (hp : n'.pending = n.pending)
      (hw : ∀ i, n'.waiter i = if i = id then none else n.waiter i) (hg : ∀ i, n'.Given i → n.Given i)
      (hgone : n.Given id ∨ n.pending.lookup addr ≠ some id) (hnext : n'.nextAttempt = n.nextAttempt)
      (hremoves : n.NotRemoving a) : EntryEffect n n' a []
  | removes (id : ℕ) (attempt : Attempt S) (sent : Bool) (token : UInt64) (events : List PendingEvent)
      (ha : a = .attempt id sent token) (hattempt : n.attempts.lookup id = some attempt)
      (hstage : attempt.stage.removes = true) (hp : n'.pending = n.pending.erase attempt.addr)
      (hw : ∀ i, n'.waiter i = if i = id then none else n.waiter i) (hg : ∀ i, n'.Given i → n.Given i)
      (hnext : n'.nextAttempt = n.nextAttempt)
      (hevents : ∀ e, e ∈ events ↔ ∃ owner, n.pending.lookup attempt.addr = some owner ∧ e = .removed id owner) :
      EntryEffect n n' a events

variable {blake3}

/-- The two nodes have the same entries and the same attempts. -/
structure SameEntries (n n' : Node S) : Prop where
  pending : n'.pending = n.pending
  attempts : n'.attempts = n.attempts
  nextAttempt : n'.nextAttempt = n.nextAttempt

theorem quiet_of_same {n' : Node S} {a : NodeAction S} (h : n.SameEntries n')
    (hin : ∀ id data, n'.inbound = .dispatch id data → n.inbound = .dispatch id data)
    (hremoves : n.NotRemoving a) : EntryEffect n n' a [] :=
  .quiet h.pending (waiter_of_attempts h.attempts)
    (fun _ => Given.of_attempts (fun data hdata => .inl ⟨data, hin _ data hdata⟩) h.attempts) h.nextAttempt hremoves

theorem receive_entries (a : Arrival S) :
    EntryEffect n (n.next blake3 (.receive a)) (.receive a) (n.observeEntries blake3 (.receive a)) := by
  have hnot : n.NotRemoving (.receive a) := notRemoving_of_ne fun _ _ _ h => by cases h
  unfold observeEntries next step
  cases hidle : n.inbound with
  | dispatch | complete => exact quiet_of_same ⟨rfl, rfl, rfl⟩ (fun _ _ h => h) hnot
  | idle =>
      have h := received blake3 n a
      dsimp only
      generalize n.receive blake3 a = o at h
      cases h with
      | dispatched id hpending =>
          unfold pendingInitiator at hpending
          split at hpending
          · refine .dispatches id a.fromAddr.socketAddr hpending rfl (fun _ => rfl) ?_ rfl hnot
            rintro i (⟨data, hdata⟩ | hattempt)
            · cases hdata
              exact .inl rfl
            · exact .inr (.inr hattempt)
          · cases hpending
      | punched out | ignored =>
          have hin : (n.retainResponders a.now).inbound = .idle := hidle
          simp only [hin]
          exact quiet_of_same ⟨rfl, rfl, rfl⟩ (fun _ _ h => h) hnot
      | rejected | answered =>
          have hin : (n.retainResponders a.now).inbound = .idle := hidle
          simp only [hin]
          refine quiet_of_same ⟨rfl, rfl, rfl⟩ (fun _ _ h => ?_) hnot
          cases h
      | accepted responder created result hpunch hresponder hfin =>
          refine quiet_of_same ⟨rfl, rfl, rfl⟩ (fun _ _ h => ?_) hnot
          cases h
      | data peerId hindex =>
          have h := onData_sameTasks blake3 (n.retainResponders a.now) a peerId
          have hin : ((n.retainResponders a.now).onData blake3 a peerId).node.inbound = .idle := h.inbound.trans hidle
          simp only [hin]
          refine quiet_of_same ⟨h.pending, h.attempts, h.nextAttempt⟩ (fun _ _ h' => ?_) hnot
          rw [hin] at h'
          cases h'

theorem deliverToAttempt_entries (id : ℕ) (data : Bytes) (hin : n.inbound = .dispatch id data) :
    EntryEffect n { n.deliverToAttempt id data with inbound := .idle } .inbound [] := by
  have hnot : n.NotRemoving .inbound := notRemoving_of_ne fun _ _ _ h => by cases h
  have hgiven : n.Given id := .inl ⟨data, hin⟩
  unfold deliverToAttempt
  cases hattempt : n.attempts.lookup id with
  | none =>
      refine quiet_of_same ⟨rfl, rfl, rfl⟩ (fun _ _ h => ?_) hnot
      cases h
  | some attempt =>
      dsimp only
      split
      case h_3 =>
        refine quiet_of_same ⟨rfl, rfl, rfl⟩ (fun _ _ h => ?_) hnot
        cases h
      all_goals
        refine .quiet rfl (fun i => ?_) (fun i => ?_) rfl hnot
        · simp only [waiter, Map.lookup_replace, hattempt, Option.map_some]
          split
          · next hi => rw [hi, hattempt]; rfl
          · rfl
        · rintro (⟨data', hdata⟩ | ⟨found, hlookup, hfound⟩)
          · cases hdata
          · rw [Map.lookup_replace] at hlookup
            split at hlookup
            · next hi => exact hi ▸ hgiven
            · exact .inr ⟨found, hlookup, hfound⟩

theorem start_entries (addr : SocketAddr) (rng : S.Rng) :
    EntryEffect n (n.start addr rng).node (.start addr rng) [] := by
  have hnot : n.NotRemoving (.start addr rng) := notRemoving_of_ne fun _ _ _ h => by cases h
  unfold start
  split
  · exact quiet_of_same ⟨rfl, rfl, rfl⟩ (fun _ _ h => h) hnot
  · next msgA handshake _ =>
      split
      · exact quiet_of_same ⟨rfl, rfl, rfl⟩ (fun _ _ h => h) hnot
      · next haddr =>
          refine .starts addr (AList.lookup_eq_none.mpr haddr) rfl (fun i => ?_) ?_ rfl hnot
          · simp only [waiter, Map.lookup_insert]
            split <;> rfl
          · rintro i (hin | ⟨found, hlookup, hfound⟩)
            · exact .inl hin
            · rw [Map.lookup_insert] at hlookup
              split at hlookup
              · cases hlookup
                -- nothing has arrived for a new task
                simp [AttemptStage.completion] at hfound
              · exact .inr ⟨found, hlookup, hfound⟩

theorem removals_of_same {n' : Node S} (hp : n'.pending = n.pending) (id : ℕ) : n.removals id n' = [] := by
  rw [removals, List.map_eq_nil_iff, List.filter_eq_nil_iff]
  rintro ⟨addr, owner⟩ he
  have hmem : addr ∈ n'.pending := by
    rw [hp]
    exact Map.mem_iff_lookup.mpr ⟨owner, AList.mem_lookup_iff.mpr he⟩
  simpa using hmem

theorem mem_removals {n' : Node S} {addr : SocketAddr} (hp : n'.pending = n.pending.erase addr) (id : ℕ)
    (e : PendingEvent) :
    e ∈ n.removals id n' ↔ ∃ owner, n.pending.lookup addr = some owner ∧ e = .removed id owner := by
  rw [removals, hp, List.mem_map]
  constructor
  · rintro ⟨⟨addr', owner⟩, hentry, rfl⟩
    rw [List.mem_filter, ← AList.mem_lookup_iff, decide_eq_true_iff, AList.mem_erase, not_and] at hentry
    have hmem : addr' ∈ n.pending := Map.mem_iff_lookup.mpr ⟨owner, hentry.1⟩
    have haddr : addr' = addr := by
      by_contra hne
      exact hentry.2 hne hmem
    subst haddr
    exact ⟨owner, hentry.1, rfl⟩
  · rintro ⟨owner, hlookup, rfl⟩
    refine ⟨⟨addr, owner⟩, List.mem_filter.mpr ⟨AList.mem_lookup_iff.mp hlookup, ?_⟩, rfl⟩
    simp [AList.mem_erase]

section Attempt

variable {id : ℕ} {attempt : Attempt S} (hattempt : n.attempts.lookup id = some attempt)
include hattempt

variable {n' : Node S} {a : NodeAction S}

/-- The attempt goes on, with its entry or after it. -/
theorem Moves.quiet {stage : AttemptStage S} (h : n.Moves n' id attempt stage) (hp : n'.pending = n.pending)
    (hpends : stage.pends = attempt.stage.pends) (hcompletion : stage.completion.isSome = true → n.Given id)
    (hremoves : n.NotRemoving a) : EntryEffect n n' a [] := by
  refine .quiet hp (fun i => ?_) (fun i => h.given hattempt hcompletion) h.nextAttempt hremoves
  rw [h.waiter hattempt, hpends]
  split
  · next hi => rw [hi, waiter_of_lookup hattempt]
  · rfl

/-- The attempt returns after its entry was removed or taken. -/
theorem Returns.quiet (h : n.Returns n' id) (hp : n'.pending = n.pending) (hpends : attempt.stage.pends = false)
    (hremoves : n.NotRemoving a) : EntryEffect n n' a [] := by
  refine .quiet hp (fun i => ?_) (fun i => h.given) h.nextAttempt hremoves
  rw [h.waiter]
  split
  · next hi => rw [hi, waiter_of_lookup hattempt, hpends]; rfl
  · rfl

theorem Returns.leaves (h : n.Returns n' id) (hp : n'.pending = n.pending) (hpends : attempt.stage.pends = true)
    (hgone : n.Given id ∨ n.pending.lookup attempt.addr ≠ some id)
    (hremoves : n.NotRemoving a) : EntryEffect n n' a [] := by
  refine .leaves id attempt.addr ?_ hp h.waiter (fun i => h.given) hgone h.nextAttempt hremoves
  rw [waiter_of_lookup hattempt, hpends]
  rfl

theorem onMessageB_entries {data : Bytes} (sent : Bool) (token : UInt64) (hstage : attempt.stage = .waitB)
    (hinbox : attempt.inbox = some data) :
    EntryEffect n (n.onMessageB id attempt data sent).node (.attempt id sent token) [] := by
  have hgiven : n.Given id := .inr ⟨attempt, hattempt, .inl (by rw [hinbox]; rfl)⟩
  have hpends : attempt.stage.pends = true := by rw [hstage]; rfl
  have hremoves := notRemoving_of_stage hattempt (by rw [hstage]; rfl) sent token
  have hreturns : n.Returns (n.endAttempt id) id := ⟨rfl, rfl, rfl⟩
  have hend := hreturns.leaves hattempt rfl hpends (.inl hgiven) hremoves
  unfold onMessageB
  split
  · exact hend
  · next result _ =>
      split
      · exact hend
      · dsimp only
        split
        · exact hend
        · have hmoves : n.Moves (n.setStage id attempt (.complete
              { initiator := true
                peerId := .fromBytes result.transport.remoteStaticKey
                underlay := .udp attempt.addr
                transport := result.transport })) id attempt _ := ⟨rfl, rfl, rfl⟩
          refine .leaves id attempt.addr ?_ rfl (hmoves.waiter hattempt)
            (fun i => hmoves.given hattempt fun _ => hgiven) (.inl hgiven) rfl hremoves
          rw [waiter_of_lookup hattempt, hpends]
          rfl

end Attempt

theorem onMessageB_pending (id : ℕ) (attempt : Attempt S) (data : Bytes) (sent : Bool) :
    (n.onMessageB id attempt data sent).node.pending = n.pending := by
  unfold onMessageB
  split
  · rfl
  · split
    · rfl
    · dsimp only
      split <;> rfl

theorem removes_entries {n' : Node S} {id : ℕ} {attempt : Attempt S} (sent : Bool) (token : UInt64)
    (hattempt : n.attempts.lookup id = some attempt) (hstage : attempt.stage.removes = true)
    (hp : n'.pending = n.pending.erase attempt.addr) (hw : ∀ i, n'.waiter i = if i = id then none else n.waiter i)
    (hg : ∀ i, n'.Given i → n.Given i) (hnext : n'.nextAttempt = n.nextAttempt) :
    EntryEffect n n' (.attempt id sent token) (n.removals id n') :=
  .removes id attempt sent token _ rfl hattempt hstage hp hw hg hnext (mem_removals hp id)

/-- A step of a task that leaves the pending entries as they are. -/
theorem attempt_of_same {n' : Node S} {id : ℕ} {sent : Bool} {token : UInt64}
    (hstep : n.next blake3 (.attempt id sent token) = n') (hp : n'.pending = n.pending)
    (h : EntryEffect n n' (.attempt id sent token) []) :
    EntryEffect n (n.next blake3 (.attempt id sent token)) (.attempt id sent token)
      (n.observeEntries blake3 (.attempt id sent token)) := by
  subst hstep
  have hnil : n.observeEntries blake3 (.attempt id sent token) = [] := removals_of_same hp id
  rw [hnil]
  exact h

/-- While the task waits for message B, only the end of its channel lets it go on without a message. -/
theorem waitB_entries {id : ℕ} (sent : Bool) (token : UInt64) {attempt : Attempt S}
    (hattempt : n.attempts.lookup id = some attempt) (hstage : attempt.stage = .waitB) :
    EntryEffect n (n.next blake3 (.attempt id sent token)) (.attempt id sent token)
      (n.observeEntries blake3 (.attempt id sent token)) := by
  have hstep : n.next blake3 (.attempt id sent token) = (n.attemptStep blake3 id sent token).node := rfl
  have hremoves := notRemoving_of_stage hattempt (by rw [hstage]; rfl) sent token
  cases hinbox : attempt.inbox with
  | some data =>
      simp only [attemptStep, hattempt, hstage, hinbox] at hstep
      exact attempt_of_same hstep (onMessageB_pending id attempt data sent)
        (onMessageB_entries hattempt sent token hstage hinbox)
  | none =>
      simp only [attemptStep, hattempt, hstage, hinbox] at hstep
      cases hdropped : n.channelDropped id attempt with
      | false =>
          simp only [hdropped, Bool.false_eq_true, if_false] at hstep
          exact attempt_of_same hstep rfl (.quiet rfl (fun _ => rfl) (fun _ h => h) rfl hremoves)
      | true =>
          simp only [hdropped, if_true] at hstep
          simp only [channelDropped, Bool.and_eq_true, decide_eq_true_iff] at hdropped
          exact attempt_of_same hstep rfl
            (Returns.leaves hattempt ⟨rfl, rfl, rfl⟩ rfl (by rw [hstage]; rfl) (.inr hdropped.1) hremoves)

/-- A completed handshake has given its entry back. -/
theorem complete_entries {id : ℕ} (sent : Bool) (token : UInt64) {attempt : Attempt S} {c : Completion S}
    (hattempt : n.attempts.lookup id = some attempt) (hstage : attempt.stage = .complete c) :
    EntryEffect n (n.next blake3 (.attempt id sent token)) (.attempt id sent token)
      (n.observeEntries blake3 (.attempt id sent token)) := by
  have hstep : n.next blake3 (.attempt id sent token) = (n.attemptStep blake3 id sent token).node := rfl
  have hremoves := notRemoving_of_stage hattempt (by rw [hstage]; rfl) sent token
  have hgiven : n.Given id := .inr ⟨attempt, hattempt, .inr (by rw [hstage]; rfl)⟩
  simp only [attemptStep, hattempt, hstage] at hstep
  cases hnext : c.next with
  | none =>
      simp only [hnext] at hstep
      exact attempt_of_same hstep rfl (Returns.quiet hattempt ⟨rfl, rfl, rfl⟩ rfl (by rw [hstage]; rfl) hremoves)
  | some c' =>
      simp only [hnext] at hstep
      exact attempt_of_same hstep rfl
        (Moves.quiet hattempt ⟨rfl, rfl, rfl⟩ rfl (by rw [hstage]; rfl) (fun _ => hgiven) hremoves)

theorem attempt_entries (id : ℕ) (sent : Bool) (token : UInt64) :
    EntryEffect n (n.next blake3 (.attempt id sent token)) (.attempt id sent token)
      (n.observeEntries blake3 (.attempt id sent token)) := by
  cases hattempt : n.attempts.lookup id with
  | none =>
      have hstep : n.next blake3 (.attempt id sent token) = n := by rw [next, step, attemptStep, hattempt]
      refine attempt_of_same hstep rfl ?_
      refine .quiet rfl (fun _ => rfl) (fun _ h => h) rfl fun i s t ha found hfound => ?_
      cases ha
      rw [hattempt] at hfound
      cases hfound
  | some attempt =>
      have hstep : n.next blake3 (.attempt id sent token) = (n.attemptStep blake3 id sent token).node := rfl
      simp only [attemptStep, hattempt] at hstep
      cases hstage : attempt.stage with
      | sendA taggedA =>
          have hremoves := notRemoving_of_stage hattempt (by rw [hstage]; rfl) sent token
          cases sent <;> simp only [hstage, Bool.false_eq_true, if_true, if_false] at hstep
          all_goals
            refine attempt_of_same hstep rfl
              (Moves.quiet hattempt ⟨rfl, rfl, rfl⟩ rfl (by rw [hstage]; rfl) (fun h => ?_) hremoves)
            cases h
      | sendFailed =>
          simp only [hstage] at hstep
          have hreturns : n.Returns (n.next blake3 (.attempt id sent token)) id := by
            rw [hstep]
            exact ⟨rfl, rfl, rfl⟩
          exact removes_entries sent token hattempt (by rw [hstage]; rfl) (by rw [hstep]) hreturns.waiter
            (fun _ => hreturns.given) hreturns.nextAttempt
      | waitB => exact waitB_entries sent token hattempt hstage
      | complete c => exact complete_entries sent token hattempt hstage
      | timedOut =>
          simp only [hstage] at hstep
          have hmoves : n.Moves (n.next blake3 (.attempt id sent token)) id attempt .requestRelay := by
            rw [hstep]
            exact ⟨rfl, rfl, rfl⟩
          exact removes_entries sent token hattempt (by rw [hstage]; rfl) (by rw [hstep]; rfl) (hmoves.waiter hattempt)
            (fun _ => hmoves.given hattempt fun h => by cases h) hmoves.nextAttempt
      | requestRelay =>
          have hremoves := notRemoving_of_stage hattempt (by rw [hstage]; rfl) sent token
          simp only [hstage] at hstep
          refine attempt_of_same hstep rfl
            (Moves.quiet hattempt ⟨rfl, rfl, rfl⟩ rfl (by rw [hstage]; rfl) (fun h => ?_) hremoves)
          cases h
      | holePunch =>
          have hremoves := notRemoving_of_stage hattempt (by rw [hstage]; rfl) sent token
          simp only [hstage] at hstep
          exact attempt_of_same hstep rfl (Returns.quiet hattempt ⟨rfl, rfl, rfl⟩ rfl (by rw [hstage]; rfl) hremoves)

theorem timeout_entries (id : ℕ) : EntryEffect n (n.timeout id).node (.timeout id) [] := by
  have hnot : n.NotRemoving (.timeout id) := notRemoving_of_ne fun _ _ _ h => by cases h
  unfold timeout
  cases hattempt : n.attempts.lookup id with
  | none => exact quiet_of_same ⟨rfl, rfl, rfl⟩ (fun _ _ h => h) hnot
  | some attempt =>
      dsimp only
      split
      · next hstage _ =>
          refine Moves.quiet hattempt ⟨rfl, rfl, rfl⟩ rfl (by rw [hstage]; rfl) (fun h => ?_) hnot
          cases h
      · exact quiet_of_same ⟨rfl, rfl, rfl⟩ (fun _ _ h => h) hnot

theorem discover_sameEntries (addr : SocketAddr) :
    n.SameEntries (n.discover addr) ∧ (n.discover addr).inbound = n.inbound := by
  unfold discover
  split
  · split <;> exact ⟨⟨rfl, rfl, rfl⟩, rfl⟩
  · exact ⟨⟨rfl, rfl, rfl⟩, rfl⟩

theorem discoveryStep_sameEntries : n.SameEntries n.discoveryStep ∧ n.discoveryStep.inbound = n.inbound := by
  unfold discoveryStep
  split <;> exact ⟨⟨rfl, rfl, rfl⟩, rfl⟩

theorem removed_sameEntries (id : PeerId) : n.SameEntries (n.removed id) ∧ (n.removed id).inbound = n.inbound := by
  unfold removed
  split <;> exact ⟨⟨rfl, rfl, rfl⟩, rfl⟩

theorem removalStep_sameEntries : n.SameEntries n.removalStep ∧ n.removalStep.inbound = n.inbound := by
  unfold removalStep
  split <;> exact ⟨⟨rfl, rfl, rfl⟩, rfl⟩

variable (blake3) in
/-- Every step of a node has one of the effects. -/
theorem entryEffect (n : Node S) (a : NodeAction S) :
    EntryEffect n (n.next blake3 a) a (n.observeEntries blake3 a) := by
  have helsewhere : ∀ n' : Node S, n.SameEntries n' ∧ n'.inbound = n.inbound → ∀ a : NodeAction S,
      (∀ id sent token, a ≠ .attempt id sent token) → EntryEffect n n' a [] :=
    fun _ h _ ha => quiet_of_same h.1 (fun _ _ hin => h.2 ▸ hin) (notRemoving_of_ne ha)
  cases a with
  | receive a => exact receive_entries a
  | attempt id sent token => exact attempt_entries id sent token
  | start addr rng => exact start_entries addr rng
  | timeout id => exact timeout_entries id
  | inbound =>
      have hnot : n.NotRemoving .inbound := notRemoving_of_ne fun _ _ _ h => by cases h
      unfold observeEntries next step inboundStep
      cases hin : n.inbound with
      | idle => exact quiet_of_same ⟨rfl, rfl, rfl⟩ (fun _ _ h => h) hnot
      | dispatch id data => exact deliverToAttempt_entries id data hin
      | complete c =>
          refine quiet_of_same ⟨rfl, rfl, rfl⟩ (fun _ _ h => ?_) hnot
          cases hnext : c.next with
          | none => simp [hnext, Inbound.continue] at h
          | some c' => simp [hnext, Inbound.continue] at h
  | discover addr => exact helsewhere _ (discover_sameEntries addr) _ fun _ _ _ h => by cases h
  | discovery => exact helsewhere _ discoveryStep_sameEntries _ fun _ _ _ h => by cases h
  | removed id => exact helsewhere _ (removed_sameEntries id) _ fun _ _ _ h => by cases h
  | removal => exact helsewhere _ removalStep_sameEntries _ fun _ _ _ h => by cases h
  | broadcast sends =>
      exact quiet_of_same ⟨rfl, rfl, rfl⟩ (fun _ _ h => h) (notRemoving_of_ne fun _ _ _ h => by cases h)

/-! ### Runs -/

variable (n) in
/-- What holds of the entries after the events `h`, whatever the attempts do. -/
structure Tracked (h : List PendingEvent) : Prop where
  /-- an entry belongs to an attempt that has not come past its removal, and its sender is still there -/
  entries : ∀ addr id, n.pending.lookup addr = some id → n.waiter id = some addr ∧ .dispatched id ∉ h
  given : ∀ id, n.Given id → .dispatched id ∈ h
  started : ∀ id, .dispatched id ∈ h → id < n.nextAttempt
  /-- as long as no attempt has removed the entry of another, each one's entry is there up to its own removal -/
  kept : (∀ id owner, .removed id owner ∈ h → owner = id) →
    ∀ id addr, n.waiter id = some addr → .dispatched id ∉ h → n.pending.lookup addr = some id

theorem lt_of_waiter {id : ℕ} {addr : SocketAddr} (h : n.waiter id = some addr) : id < n.nextAttempt := by
  obtain ⟨attempt, hlookup, -⟩ := waiter_eq_some.mp h
  exact n.attempts_lt id (Map.mem_iff_lookup.mpr ⟨attempt, hlookup⟩)

namespace Tracked

variable {n' : Node S} {h : List PendingEvent} (ht : n.Tracked h)
include ht

theorem quiet (hp : n'.pending = n.pending) (hw : ∀ i, n'.waiter i = n.waiter i) (hg : ∀ i, n'.Given i → n.Given i)
    (hnext : n'.nextAttempt = n.nextAttempt) : n'.Tracked h := by
  constructor
  case entries => rw [hp]; exact fun addr id hl => hw id ▸ ht.entries addr id hl
  case given => exact fun id hgiven => ht.given id (hg id hgiven)
  case started => rw [hnext]; exact ht.started
  case kept => rw [hp]; exact fun hown id addr hl => ht.kept hown id addr (hw id ▸ hl)

theorem dispatches {id : ℕ} {addr : SocketAddr} (hlookup : n.pending.lookup addr = some id)
    (hp : n'.pending = n.pending.erase addr) (hw : ∀ i, n'.waiter i = n.waiter i)
    (hg : ∀ i, n'.Given i → i = id ∨ n.Given i) (hnext : n'.nextAttempt = n.nextAttempt) :
    n'.Tracked (h ++ [.dispatched id]) := by
  have hentry := ht.entries addr id hlookup
  constructor
  case entries =>
    intro addr' id' hl
    rw [hp, Map.lookup_erase] at hl
    split at hl
    · cases hl
    · next hne =>
        have hentry' := ht.entries addr' id' hl
        refine ⟨(hw id').trans hentry'.1, ?_⟩
        simp only [List.mem_append, List.mem_singleton, PendingEvent.dispatched.injEq, not_or]
        refine ⟨hentry'.2, fun hid => hne ?_⟩
        subst hid
        exact Option.some.inj (hentry'.1.symm.trans hentry.1)
  case given =>
    intro i hgiven
    rcases hg i hgiven with rfl | hold
    · exact List.mem_append_right _ (List.mem_singleton_self _)
    · exact List.mem_append_left _ (ht.given i hold)
  case started =>
    intro i hi
    rw [hnext]
    rcases List.mem_append.mp hi with hold | hnew
    · exact ht.started i hold
    · cases List.mem_singleton.mp hnew
      exact lt_of_waiter hentry.1
  case kept =>
    intro hown i addr' hwaiter hi
    rw [hw] at hwaiter
    simp only [List.mem_append, List.mem_singleton, PendingEvent.dispatched.injEq, not_or] at hi
    have hl := ht.kept (fun i o ho => hown i o (List.mem_append_left _ ho)) i addr' hwaiter hi.1
    rw [hp, Map.lookup_erase, if_neg, hl]
    rintro rfl
    exact hi.2 (Option.some.inj (hl.symm.trans hlookup))

theorem starts {addr : SocketAddr} (hlookup : n.pending.lookup addr = none)
    (hp : n'.pending = n.pending.insert addr n.nextAttempt)
    (hw : ∀ i, n'.waiter i = if i = n.nextAttempt then some addr else n.waiter i)
    (hg : ∀ i, n'.Given i → n.Given i) (hnext : n'.nextAttempt = n.nextAttempt + 1) : n'.Tracked h := by
  have hfresh : .dispatched n.nextAttempt ∉ h := fun hmem => absurd (ht.started _ hmem) (lt_irrefl _)
  constructor
  case entries =>
    intro addr' id' hl
    rw [hp, Map.lookup_insert] at hl
    split at hl
    · next haddr =>
        cases hl
        rw [hw, if_pos rfl, haddr]
        exact ⟨rfl, hfresh⟩
    · have hentry := ht.entries addr' id' hl
      rw [hw, if_neg (lt_of_waiter hentry.1).ne]
      exact hentry
  case given => exact fun id hgiven => ht.given id (hg id hgiven)
  case started =>
    intro i hi
    rw [hnext]
    exact Nat.lt_succ_of_lt (ht.started i hi)
  case kept =>
    intro hown i addr' hwaiter hi
    rw [hw] at hwaiter
    rw [hp, Map.lookup_insert]
    split at hwaiter
    · next hid =>
        cases hwaiter
        rw [if_pos rfl, hid]
    · have hl := ht.kept hown i addr' hwaiter hi
      rw [if_neg, hl]
      rintro rfl
      rw [hlookup] at hl
      cases hl

theorem leaves {id : ℕ} {addr : SocketAddr} (hwaiter : n.waiter id = some addr) (hp : n'.pending = n.pending)
    (hw : ∀ i, n'.waiter i = if i = id then none else n.waiter i) (hg : ∀ i, n'.Given i → n.Given i)
    (hgone : n.Given id ∨ n.pending.lookup addr ≠ some id) (hnext : n'.nextAttempt = n.nextAttempt) :
    n'.Tracked h := by
  constructor
  case entries =>
    intro addr' id' hl
    rw [hp] at hl
    have hentry := ht.entries addr' id' hl
    rw [hw, if_neg]
    · exact hentry
    · rintro rfl
      rcases hgone with hgiven | hother
      · exact hentry.2 (ht.given _ hgiven)
      · rw [hwaiter, Option.some.injEq] at hentry
        exact hother (hentry.1 ▸ hl)
  case given => exact fun i hgiven => ht.given i (hg i hgiven)
  case started => rw [hnext]; exact ht.started
  case kept =>
    intro hown i addr' hwaiter' hi
    rw [hw] at hwaiter'
    rw [hp]
    split at hwaiter'
    · cases hwaiter'
    · exact ht.kept hown i addr' hwaiter' hi

theorem removes {id : ℕ} {attempt : Attempt S} {events : List PendingEvent}
    (hattempt : n.attempts.lookup id = some attempt) (hp : n'.pending = n.pending.erase attempt.addr)
    (hw : ∀ i, n'.waiter i = if i = id then none else n.waiter i) (hg : ∀ i, n'.Given i → n.Given i)
    (hnext : n'.nextAttempt = n.nextAttempt)
    (hevents : ∀ e, e ∈ events ↔ ∃ owner, n.pending.lookup attempt.addr = some owner ∧ e = .removed id owner) :
    n'.Tracked (h ++ events) := by
  have hdispatched : ∀ i, .dispatched i ∈ h ++ events ↔ .dispatched i ∈ h := by
    intro i
    rw [List.mem_append, or_iff_left]
    intro hi
    obtain ⟨owner, -, he⟩ := (hevents _).mp hi
    cases he
  constructor
  case entries =>
    intro addr' id' hl
    rw [hp, Map.lookup_erase] at hl
    split at hl
    · cases hl
    · next hne =>
        have hentry := ht.entries addr' id' hl
        rw [hw, if_neg, hdispatched]
        · exact hentry
        · rintro rfl
          obtain ⟨found, hfound, -, haddr⟩ := waiter_eq_some.mp hentry.1
          rw [hattempt] at hfound
          cases hfound
          exact hne haddr.symm
  case given => exact fun i hgiven => (hdispatched i).mpr (ht.given i (hg i hgiven))
  case started =>
    intro i hi
    rw [hnext]
    exact ht.started i ((hdispatched i).mp hi)
  case kept =>
    intro hown i addr' hwaiter hi
    rw [hdispatched] at hi
    rw [hw] at hwaiter
    split at hwaiter
    · cases hwaiter
    · next hne =>
        have hl := ht.kept (fun i o ho => hown i o (List.mem_append_left _ ho)) i addr' hwaiter hi
        rw [hp, Map.lookup_erase, if_neg, hl]
        rintro rfl
        -- the removal would have been of the entry of `i`
        exact hne (hown id i (List.mem_append_right _ ((hevents _).mpr ⟨i, hl, rfl⟩)))

/-- Every step keeps the entries tracked. -/
theorem next (a : NodeAction S) : (n.next blake3 a).Tracked (h ++ n.observeEntries blake3 a) := by
  have heffect := entryEffect blake3 n a
  generalize n.next blake3 a = n' at heffect
  generalize n.observeEntries blake3 a = events at heffect
  cases heffect with
  | quiet hp hw hg hnext hremoves => exact (List.append_nil h).symm ▸ ht.quiet hp hw hg hnext
  | dispatches id addr hlookup hp hw hg hnext hremoves => exact ht.dispatches hlookup hp hw hg hnext
  | starts addr hlookup hp hw hg hnext hremoves => exact (List.append_nil h).symm ▸ ht.starts hlookup hp hw hg hnext
  | leaves id addr hwaiter hp hw hg hgone hnext hremoves =>
      exact (List.append_nil h).symm ▸ ht.leaves hwaiter hp hw hg hgone hnext
  | removes id attempt sent token events ha hattempt hstage hp hw hg hnext hevents =>
      exact ht.removes hattempt hp hw hg hnext hevents

end Tracked

/-- If no attempt has removed the entry of another, each one owns its entry. -/
theorem Tracked.owned {h : List PendingEvent} (ht : n.Tracked h)
    (hown : ∀ id owner, .removed id owner ∈ h → owner = id) : n.EntriesOwned blake3 h where
  own := hown
  returned addr id hl := by
    obtain ⟨attempt, hattempt, -, haddr⟩ := waiter_eq_some.mp (ht.entries addr id hl).1
    exact ⟨attempt, hattempt, haddr⟩
  handed id attempt hattempt hover hdispatched hidle a haddr hprefix := by
    -- an attempt that has completed was given message B
    have hnone : attempt.stage.completion.isSome ≠ true := fun hc =>
      hdispatched (ht.given id (.inr ⟨attempt, hattempt, .inr hc⟩))
    have hpends : attempt.stage.pends = true := by
      cases hstage : attempt.stage <;> rw [hstage] at hover hnone
      case sendA | sendFailed | waitB => rfl
      case complete => exact absurd rfl hnone
      all_goals cases hover
    have hlookup := ht.kept hown id attempt.addr (waiter_eq_some.mpr ⟨attempt, hattempt, hpends, rfl⟩) hdispatched
    have hpending : n.pendingInitiator a = some id := by
      rw [pendingInitiator, if_pos hprefix, haddr, hlookup]
    rw [Node.next, step, hidle]
    dsimp only
    rw [receive_messageB (responder_not_holePunch hprefix) hpending]

theorem NotRemoving.removesAlone {h : List PendingEvent} {a : NodeAction S} (hremoves : n.NotRemoving a) :
    n.RemovesAlone h a := by
  cases a with
  | attempt id sent token =>
      intro attempt hattempt hstage
      rw [hremoves id sent token rfl attempt hattempt] at hstage
      cases hstage
  | receive | inbound | start | timeout | discover | discovery | removed | removal | broadcast => trivial

/-- A step removes the entry of another attempt only if it does not remove alone. -/
theorem Tracked.removesAlone_iff {h : List PendingEvent} (ht : n.Tracked h)
    (hown : ∀ id owner, .removed id owner ∈ h → owner = id) (a : NodeAction S) :
    n.RemovesAlone h a ↔ ∀ id owner, .removed id owner ∈ n.observeEntries blake3 a → owner = id := by
  have heffect := entryEffect blake3 n a
  generalize n.next blake3 a = n' at heffect
  generalize n.observeEntries blake3 a = events at heffect
  have hquiet : ∀ events : List PendingEvent, (∀ id owner, .removed id owner ∉ events) → n.NotRemoving a →
      (n.RemovesAlone h a ↔ ∀ id owner, .removed id owner ∈ events → owner = id) := fun _ hevents hremoves =>
    iff_of_true hremoves.removesAlone fun id owner hmem => absurd hmem (hevents id owner)
  cases heffect with
  | quiet hp hw hg hnext hremoves => exact hquiet [] (by simp) hremoves
  | dispatches id addr hlookup hp hw hg hnext hremoves => exact hquiet [.dispatched id] (by simp) hremoves
  | starts addr hlookup hp hw hg hnext hremoves => exact hquiet [] (by simp) hremoves
  | leaves id addr hwaiter hp hw hg hgone hnext hremoves => exact hquiet [] (by simp) hremoves
  | removes id attempt sent token events ha hattempt hstage hp hw hg hnext hevents =>
      subst ha
      constructor
      · intro halone i owner hmem
        obtain ⟨owner', hlookup, he⟩ := (hevents _).mp hmem
        cases he
        obtain ⟨hwaiter, hdispatched⟩ := ht.entries _ _ hlookup
        obtain ⟨other, hother, hpends, haddr⟩ := waiter_eq_some.mp hwaiter
        by_contra hne
        exact hdispatched (halone attempt hattempt hstage owner other hother haddr hpends hne)
      · intro hremoved found hfound hremoves i other hother haddr hpends hne
        rw [hattempt] at hfound
        cases hfound
        by_contra hdispatched
        have hlookup := ht.kept hown i attempt.addr (waiter_eq_some.mpr ⟨other, hother, hpends, haddr⟩) hdispatched
        exact hne (hremoved id i ((hevents _).mpr ⟨i, hlookup, rfl⟩))

theorem Tracked.owned_iff {h : List PendingEvent} (ht : n.Tracked h) :
    n.EntriesOwned blake3 h ↔ ∀ id owner, .removed id owner ∈ h → owner = id :=
  ⟨fun howned => howned.own, ht.owned⟩

end Node

/-- **Each initiator attempt owns its entry in `pending`** in exactly those runs in which no attempt comes to the
removal of its entry while the sender of another one for its address is still in the map. -/
theorem pending_owned_iff (blake3 : Blake3) (n : Node S) (hpending : n.pending = ∅) (hattempts : n.attempts = ∅)
    (hinbound : n.inbound = .idle) (as : List (NodeAction S)) :
    Along (watch (Node.next blake3) (Node.observeEntries blake3)) (fun w a => w.1.RemovesAlone w.2 a) (n, []) as ↔
      ∀ bs, bs <+: as → (exec (Node.next blake3) n bs).EntriesOwned blake3
        (trace (Node.next blake3) (Node.observeEntries blake3) n bs) := by
  have htracked : n.Tracked [] := by
    constructor
    case entries => simp [hpending]
    case given => simp [Node.Given, hattempts, hinbound]
    case started => simp
    case kept => simp [Node.waiter, hattempts]
  refine Run.along_iff_trace_invariant (J := Node.Tracked) (A := fun _ => True) (fun _ _ a ht _ => ht.next a) ?_
    htracked (htracked.owned (by simp)) as fun _ _ => trivial
  intro n h a ht howned _
  rw [ht.removesAlone_iff howned.own, (ht.next a).owned_iff]
  constructor
  · intro hstep id owner hmem
    exact (List.mem_append.mp hmem).elim (howned.own id owner) (hstep id owner)
  · exact fun hall id owner hmem => hall id owner (List.mem_append_right _ hmem)

namespace Transparent

/-- Attempt 0 waits no longer after the inbound loop has taken its sender, so attempt 1 can insert its own; then
attempt 0 comes to its removal. -/
def lateRemoval : List (NodeAction transparent) :=
  [.start (addr 2) (3 : UInt8), .attempt 0 true 0, .receive (arrival (addr 2) 0 (messageB 2 3 4)), .timeout 0, .inbound,
    .start (addr 2) (5 : UInt8), .attempt 0 true 0]

end Transparent

open Transparent

theorem pending_owned_late :
    Along (watch (Node.next blake3) (Node.observeEntries blake3)) (fun w a => w.1.RemovesAlone w.2 a) (node 1, [])
      lateRemoval ↔
      ∀ bs, bs <+: lateRemoval → (exec (Node.next blake3) (node 1) bs).EntriesOwned blake3
        (trace (Node.next blake3) (Node.observeEntries blake3) (node 1) bs) :=
  pending_owned_iff blake3 (node 1) rfl rfl rfl lateRemoval

/-- Attempt 0 removes the entry of attempt 1, which then is not handed the message B it waits for. -/
theorem late_removal_takes_other :
    trace (Node.next blake3) (Node.observeEntries blake3) (node 1) lateRemoval = [.dispatched 0, .removed 0 1] ∧
    ((exec (Node.next blake3) (node 1) lateRemoval).attempts.lookup 1).map (fun attempt =>
      (attempt.addr, attempt.stage.isOver)) = some (addr 2, false) ∧
    (exec (Node.next blake3) (node 1)
      (lateRemoval ++ [.receive (arrival (addr 2) 0 (messageB 2 5 6))])).inbound = .idle := by
  refine ⟨by decide +kernel, by decide +kernel, by decide +kernel⟩

end SeedNet
