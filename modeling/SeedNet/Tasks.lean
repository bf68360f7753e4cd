import SeedNet.Handshake

/-! # The tasks of a node, interleaved

`Node.step` is one atomic step of any task of a node: the inbound loop, an initiator, the
discovery loop's treatment of one address (`crates/core/src/discovery.rs`), the handler of
`PeerEvent::Removed` (`crates/core/src/peers_snapshot.rs`), or one of the loops that only send over
sessions.  A run of a node is a list of such steps in any order.

`Node.effect` says once what a step can do to the sessions, to the address index and to the
completions under way; invariants over these are proved from it. -/

namespace SeedNet

variable {S : Snow}

/-- One step of one task. -/
inductive NodeAction (S : Snow) where
  /-- the inbound loop receives a datagram -/
  | receive (a : Arrival S)
  | inbound
  | start (addr : SocketAddr) (rng : S.Rng)
  | attempt (id : ℕ) (sent : Bool) (token : UInt64)
  | timeout (id : ℕ)
  /-- the discovery loop comes to this address -/
  | discover (addr : SocketAddr)
  | discovery
  | removed (id : PeerId)
  | removal
  /-- messages of the outbound, ping, heartbeat and broadcast loops -/
  | broadcast (sends : List Send)

def Inbound.completion : Inbound S → Option (Completion S)
  | .complete c => some c
  | _ => none

def AttemptStage.completion : AttemptStage S → Option (Completion S)
  | .complete c => some c
  | _ => none

/-- The task with completions that a step belongs to: `none` is the inbound loop. -/
def NodeAction.task : NodeAction S → Option (Option ℕ)
  | .inbound => some none
  | .attempt id _ _ => some (some id)
  | _ => none

namespace Node

variable (blake3 : Blake3) (n : Node S)

/-! ### The discovery loop -/

def discover (addr : SocketAddr) : Node S :=
  match n.discovery with
  | none => if n.engine.stunAddr = some addr then n else { n with discovery := some (.connected addr) }
  | some _ => n

/-- `addr_index.get(..).map(|peer_id| sessions.contains_key(&*peer_id)).unwrap_or(false)`. -/
def alreadyConnected (addr : SocketAddr) : Bool :=
  match n.engine.addrIndex.lookup (.udp addr) with
  | some peerId => decide (peerId ∈ n.engine.sessions)
  | none => false

/-- The next check of the discovery loop; the last stage removes a stale entry. -/
def discoveryStep : Node S :=
  match n.discovery with
  | none => n
  | some (.connected addr) =>
    { n with discovery := if n.alreadyConnected addr then none else some (.pending addr) }
  | some (.pending addr) =>
    { n with discovery := if addr ∈ n.pending then none else some (.lookup addr) }
  | some (.lookup addr) =>
    { n with discovery := (n.engine.addrIndex.lookup (.udp addr)).map (.contains addr) }
  | some (.contains addr peerId) =>
    { n with discovery := if peerId ∈ n.engine.sessions then none else some (.remove addr) }
  | some (.remove addr) => { n with engine := n.engine.removeAddrIndex (.udp addr), discovery := none }

/-! ### Removed peers -/

/-- `sessions.remove(&id)`. -/
def removed (id : PeerId) : Node S :=
  match n.removal, n.engine.sessions.lookup id with
  | none, some session =>
    { n with engine := n.engine.removeSession id, removal := some session.underlay }
  | _, _ => n

/-- `addr_index.remove(&session.underlay)`. -/
def removalStep : Node S :=
  match n.removal with
  | some underlay => { n with engine := n.engine.removeAddrIndex underlay, removal := none }
  | none => n

/-! ### Steps -/

def step : NodeAction S → Outcome S
  | .receive a =>
    match n.inbound with
    | .idle => n.receive blake3 a
    | _ => { node := n }
  | .inbound => n.inboundStep blake3
  | .start addr rng => n.start addr rng
  | .attempt id sent token => n.attemptStep blake3 id sent token
  | .timeout id => n.timeout id
  | .discover addr => { node := n.discover addr }
  | .discovery => { node := n.discoveryStep }
  | .removed id => { node := n.removed id }
  | .removal => { node := n.removalStep }
  | .broadcast sends =>
    let r := n.engine.transmit sends
    { node := { n with engine := r.1 }, out := r.2 }

/-- The node after a step. -/
def next (a : NodeAction S) : Node S := (n.step blake3 a).node

/-! ### What a step does -/

/-- The completion that a task is at: `none` is the inbound loop, `some id` an initiator. -/
def completion : Option ℕ → Option (Completion S)
  | none => n.inbound.completion
  | some id => (n.attempts.lookup id).bind fun attempt => attempt.stage.completion

/-- The tasks that can have completions. -/
def tasks : List (Option ℕ) := none :: n.attempts.keys.map some

theorem mem_tasks {who : Option ℕ} {c : Completion S} (h : n.completion who = some c) : who ∈ n.tasks := by
  cases who with
  | none => exact List.mem_cons_self
  | some id =>
      obtain ⟨attempt, hat, -⟩ := Option.bind_eq_some_iff.mp h
      have hkey : id ∈ n.attempts.keys := AList.mem_keys.mp (Map.mem_iff_lookup.mpr ⟨attempt, hat⟩)
      exact List.mem_cons_of_mem _ (List.mem_map_of_mem hkey)

/-- `n'` differs from `n` in the completion of `who` alone. -/
def CompletionsUpdated (n n' : Node S) (who : Option ℕ) (c : Option (Completion S)) : Prop :=
  ∀ w, n'.completion w = if w = who then c else n.completion w

/-- What the action `a` does to the parts of a node that its tasks share, one case for each kind of
update. -/
inductive Effect (n n' : Node S) (a : NodeAction S) : Prop
  /-- nothing but counters and windows of the sessions, and tasks that have no completed handshake -/
  | quiet (hs : n.engine.SameSessions n'.engine) (hr : n'.removal = n.removal)
      (hc : ∀ w, n'.completion w = n.completion w)
  /-- the inbound loop took a message C that its responder accepts -/
  | accepts (arrival : Arrival S) (responder : ResponderHandshake S) (created : ℕ) (result : HandshakeResult S)
      (ha : a = .receive arrival) (hpunch : startsWith arrival.data holePunchProbePrefix = false)
      (hpending : n.pendingResponders.lookup arrival.fromAddr.socketAddr = some (responder, created))
      (hfinish : responder.finish arrival.data = .ok result)
      (hs : n'.engine = n.engine) (hr : n'.removal = n.removal) (hnone : n.completion none = none)
      (hc : CompletionsUpdated n n' none (some
        { initiator := false
          peerId := .fromBytes result.transport.remoteStaticKey
          underlay := arrival.fromAddr
          transport := result.transport }))
  /-- an initiator took a message B that it accepts, and sent message C -/
  | answers (id : ℕ) (token : UInt64) (attempt : Attempt S) (data : Bytes) (result : HandshakeResult S)
      (ha : a = .attempt id true token)
      (hattempt : n.attempts.lookup id = some attempt) (hstage : attempt.stage = .waitB)
      (hinbox : attempt.inbox = some data) (hanswer : attempt.answer data = .ok result)
      (hs : n'.engine = n.engine) (hr : n'.removal = n.removal) (hnone : n.completion (some id) = none)
      (hc : CompletionsUpdated n n' (some id) (some
        { initiator := true
          peerId := .fromBytes result.transport.remoteStaticKey
          underlay := .udp attempt.addr
          transport := result.transport }))
  /-- the next update after a completed handshake -/
  | advances (who : Option ℕ) (c : Completion S) (ha : a.task = some who) (hsome : n.completion who = some c)
      (hs : n'.engine = (c.run blake3 n.engine).1) (hr : n'.removal = n.removal)
      (hc : CompletionsUpdated n n' who c.next)
  | removes (id : PeerId) (session : PeerSession (SecureTransport S))
      (hlookup : n.engine.sessions.lookup id = some session) (hnone : n.removal = none)
      (hs : n'.engine = n.engine.removeSession id) (hr : n'.removal = some session.underlay)
      (hc : ∀ w, n'.completion w = n.completion w)
  | cleans (underlay : TransportAddr) (ha : a = .removal) (hsome : n.removal = some underlay)
      (hs : n'.engine = n.engine.removeAddrIndex underlay) (hr : n'.removal = none)
      (hc : ∀ w, n'.completion w = n.completion w)
  | forgets (addr : SocketAddr) (ha : a = .discovery) (hsome : n.discovery = some (.remove addr))
      (hs : n'.engine = n.engine.removeAddrIndex (.udp addr)) (hr : n'.removal = n.removal)
      (hc : ∀ w, n'.completion w = n.completion w)

variable {blake3} {n}

/-! Completions after the updates of a task. -/

theorem completion_of_tasks {n n' : Node S} (hi : n'.inbound = n.inbound) (ha : n'.attempts = n.attempts)
    (w : Option ℕ) : n'.completion w = n.completion w := by
  cases w with
  | none => simp only [completion, hi]
  | some id => simp only [completion, ha]

theorem completion_inbound : n.completion none = n.inbound.completion := rfl

theorem completion_some_of_lookup {id : ℕ} {attempt : Attempt S} (h : n.attempts.lookup id = some attempt) :
    n.completion (some id) = attempt.stage.completion := by
  simp only [completion, h, Option.bind_some]

theorem completion_setStage {id : ℕ} {attempt : Attempt S} (h : n.attempts.lookup id = some attempt)
    (stage : AttemptStage S) : CompletionsUpdated n (n.setStage id attempt stage) (some id) stage.completion := by
  intro w
  cases w with
  | none => simp [completion, setStage]
  | some i =>
      simp only [completion, setStage, Map.lookup_replace, Option.some.injEq]
      by_cases hi : i = id
      · subst hi
        simp [h]
      · simp [hi]

theorem completion_endAttempt (id : ℕ) : CompletionsUpdated n (n.endAttempt id) (some id) none := by
  intro w
  cases w with
  | none => simp [completion, endAttempt]
  | some i =>
      simp only [completion, endAttempt, Map.lookup_erase, Option.some.injEq]
      by_cases hi : i = id <;> simp [hi]

theorem CompletionsUpdated.same {n n' : Node S} {who : Option ℕ} {c : Option (Completion S)}
    (h : CompletionsUpdated n n' who c) (hc : n.completion who = c) (w : Option ℕ) :
    n'.completion w = n.completion w := by
  rw [h w]
  split
  · next hw => rw [hw, hc]
  · rfl

/-! ### Every step has one of the effects -/

theorem receive_effect (a : Arrival S) (hidle : n.inbound = .idle) :
    Effect blake3 n (n.receive blake3 a).node (.receive a) := by
  have hnone : n.completion none = none := by rw [completion_inbound, hidle]; rfl
  have h := received blake3 n a
  generalize n.receive blake3 a = o at h
  cases h with
  | punched out => exact .quiet (.refl _) rfl (completion_of_tasks rfl rfl)
  | dispatched id hpending =>
      refine .quiet (.refl _) rfl fun w => ?_
      cases w with
      | none => exact hnone.symm
      | some id => rfl
  | accepted responder created result hpunch hresponder hfin =>
      rw [lookup_retainResponders] at hresponder
      refine .accepts a responder created result rfl hpunch (Option.filter_eq_some_iff.mp hresponder).1 hfin rfl rfl
        hnone fun w => ?_
      cases w with
      | none => rfl
      | some id => rfl
  | data peerId hindex =>
      have h := onData_sameTasks blake3 (n.retainResponders a.now) a peerId
      exact .quiet (onData_sameSessions blake3 (n.retainResponders a.now) a peerId) h.removal
        (completion_of_tasks h.inbound h.attempts)
  | rejected | answered | ignored => exact .quiet (.refl _) rfl (completion_of_tasks rfl rfl)

theorem deliverToAttempt_engine (id : ℕ) (data : Bytes) : (n.deliverToAttempt id data).engine = n.engine := by
  unfold deliverToAttempt
  split
  · rfl
  · split <;> rfl

theorem deliverToAttempt_removal (id : ℕ) (data : Bytes) : (n.deliverToAttempt id data).removal = n.removal := by
  unfold deliverToAttempt
  split
  · rfl
  · split <;> rfl

theorem deliverToAttempt_completion (id : ℕ) (data : Bytes) (w : Option ℕ) :
    (n.deliverToAttempt id data).completion w = n.completion w := by
  unfold deliverToAttempt
  cases hat : n.attempts.lookup id with
  | none => rfl
  | some attempt =>
      dsimp only
      split <;> try rfl
      all_goals
        cases w with
        | none => rfl
        | some i =>
            simp only [completion, Map.lookup_replace]
            by_cases hi : i = id
            · subst hi
              simp [hat]
            · simp [hi]

theorem inboundStep_effect : Effect blake3 n (n.inboundStep blake3).node .inbound := by
  unfold inboundStep
  cases hi : n.inbound with
  | idle => exact .quiet (.refl _) rfl fun _ => rfl
  | dispatch id data =>
      have hnone : n.completion none = none := by rw [completion_inbound, hi]; rfl
      refine .quiet ?_ ?_ fun w => ?_
      · rw [deliverToAttempt_engine]
        exact .refl _
      · exact deliverToAttempt_removal id data
      · cases w with
        | none => exact hnone.symm
        | some i => exact deliverToAttempt_completion id data (some i)
  | complete c =>
      refine .advances none c rfl (by rw [completion_inbound, hi]; rfl) rfl rfl fun w => ?_
      cases w with
      | none => cases hn : c.next <;> simp [completion, Inbound.completion, Inbound.continue, hn]
      | some id => rfl

theorem start_effect (addr : SocketAddr) (rng : S.Rng) :
    Effect blake3 n (n.start addr rng).node (.start addr rng) := by
  unfold start
  split
  · exact .quiet (.refl _) rfl fun _ => rfl
  · split
    · exact .quiet (.refl _) rfl fun _ => rfl
    · refine .quiet (.refl _) rfl fun w => ?_
      cases w with
      | none => rfl
      | some id =>
          simp only [completion, Map.lookup_insert]
          by_cases hid : id = n.nextAttempt
          · -- the number of a new task is not in use
            have hnew : n.attempts.lookup id = none := by
              rw [AList.lookup_eq_none]
              exact fun h => absurd (n.attempts_lt id h) (by omega)
            rw [if_pos hid, hnew]
            rfl
          · rw [if_neg hid]

theorem onMessageB_effect {id : ℕ} {attempt : Attempt S} {data : Bytes} (sent : Bool) (token : UInt64)
    (hat : n.attempts.lookup id = some attempt) (hstage : attempt.stage = .waitB)
    (hinbox : attempt.inbox = some data) :
    Effect blake3 n (n.onMessageB id attempt data sent).node (.attempt id sent token) := by
  have hnone : n.completion (some id) = none := by
    rw [completion_some_of_lookup hat, hstage]
    rfl
  have hend : Effect blake3 n (n.endAttempt id) (.attempt id sent token) :=
    .quiet (.refl _) rfl ((completion_endAttempt id).same hnone)
  unfold onMessageB
  split
  · exact hend
  · next result hans =>
      cases sent with
      | false => exact hend
      | true =>
          dsimp only
          split
          · next h => exact absurd h (by simp)
          · split
            · exact hend
            · exact .answers id token attempt data result rfl hat hstage hinbox hans rfl rfl hnone
                (completion_setStage hat _)

theorem attemptStep_effect (id : ℕ) (sent : Bool) (token : UInt64) :
    Effect blake3 n (n.attemptStep blake3 id sent token).node (.attempt id sent token) := by
  unfold attemptStep
  cases hat : n.attempts.lookup id with
  | none => exact .quiet (.refl _) rfl fun _ => rfl
  | some attempt =>
      have hcomp := completion_some_of_lookup hat
      dsimp only
      cases hstage : attempt.stage with
      | sendA taggedA =>
          rw [hstage] at hcomp
          cases sent <;> exact .quiet (.refl _) rfl ((completion_setStage hat _).same hcomp)
      | sendFailed =>
          rw [hstage] at hcomp
          exact .quiet (.refl _) rfl ((completion_endAttempt id).same hcomp)
      | waitB =>
          rw [hstage] at hcomp
          cases hinbox : attempt.inbox with
          | some data => exact onMessageB_effect sent token hat hstage hinbox
          | none =>
              dsimp only
              split
              · exact .quiet (.refl _) rfl ((completion_endAttempt id).same hcomp)
              · exact .quiet (.refl _) rfl fun _ => rfl
      | complete c =>
          rw [hstage] at hcomp
          dsimp only
          cases hn : c.next with
          | none =>
              refine .advances (some id) c rfl hcomp rfl rfl ?_
              rw [hn]
              exact completion_endAttempt id
          | some c' =>
              refine .advances (some id) c rfl hcomp rfl rfl ?_
              rw [hn]
              exact completion_setStage hat (.complete c')
      | timedOut =>
          rw [hstage] at hcomp
          exact .quiet (.refl _) rfl ((completion_setStage hat _).same hcomp)
      | requestRelay =>
          rw [hstage] at hcomp
          exact .quiet (Engine.sameSessions_transmit _ _) rfl ((completion_setStage hat _).same hcomp)
      | holePunch =>
          rw [hstage] at hcomp
          exact .quiet (.refl _) rfl ((completion_endAttempt id).same hcomp)

theorem timeout_effect (id : ℕ) : Effect blake3 n (n.timeout id).node (.timeout id) := by
  unfold timeout
  cases hat : n.attempts.lookup id with
  | none => exact .quiet (.refl _) rfl fun _ => rfl
  | some attempt =>
      have hcomp := completion_some_of_lookup hat
      dsimp only
      split
      · next hstage _ =>
          rw [hstage] at hcomp
          exact .quiet (.refl _) rfl ((completion_setStage hat _).same hcomp)
      · exact .quiet (.refl _) rfl fun _ => rfl

theorem discoveryStep_effect : Effect blake3 n n.discoveryStep .discovery := by
  unfold discoveryStep
  cases hd : n.discovery with
  | none => exact .quiet (.refl _) rfl fun _ => rfl
  | some stage =>
      cases stage with
      | remove addr => exact .forgets addr rfl hd rfl rfl (completion_of_tasks rfl rfl)
      | connected | pending | lookup | contains => exact .quiet (.refl _) rfl (completion_of_tasks rfl rfl)

theorem removed_effect (id : PeerId) : Effect blake3 n (n.removed id) (.removed id) := by
  unfold removed
  split
  · next session hr hl => exact .removes id session hl hr rfl rfl (completion_of_tasks rfl rfl)
  · exact .quiet (.refl _) rfl fun _ => rfl

theorem removalStep_effect : Effect blake3 n n.removalStep .removal := by
  unfold removalStep
  split
  · next underlay hr => exact .cleans underlay rfl hr rfl rfl (completion_of_tasks rfl rfl)
  · exact .quiet (.refl _) rfl fun _ => rfl

variable (blake3) in
/-- Every step of a node has one of the effects. -/
theorem effect (n : Node S) (a : NodeAction S) : Effect blake3 n (n.next blake3 a) a := by
  unfold next
  cases a with
  | receive a =>
      unfold step
      cases hi : n.inbound with
      | idle => exact receive_effect a hi
      | dispatch | complete => exact .quiet (.refl _) rfl fun _ => rfl
  | inbound => exact inboundStep_effect
  | start addr rng => exact start_effect addr rng
  | attempt id sent token => exact attemptStep_effect id sent token
  | timeout id => exact timeout_effect id
  | discover addr =>
      simp only [step, discover]
      split
      · split <;> exact .quiet (.refl _) rfl (completion_of_tasks rfl rfl)
      · exact .quiet (.refl _) rfl fun _ => rfl
  | discovery => exact discoveryStep_effect
  | removed id => exact removed_effect id
  | removal => exact removalStep_effect
  | broadcast sends => exact .quiet (Engine.sameSessions_transmit _ _) rfl (completion_of_tasks rfl rfl)

variable (blake3) in
/-- No step changes the node's own identity, or what it says of itself in a `SessionInit`. -/
theorem next_identity (n : Node S) (a : NodeAction S) :
    (n.next blake3 a).engine.ourPeerId = n.engine.ourPeerId ∧
      (n.next blake3 a).engine.sessionInit = n.engine.sessionInit := by
  cases effect blake3 n a with
  | quiet hs hr hc => exact ⟨hs.ourPeerId, hs.sessionInit⟩
  | accepts arrival responder created result ha hpunch hpending hfinish hs hr hnone hc =>
      rw [hs]
      exact ⟨rfl, rfl⟩
  | answers id token attempt data result ha hattempt hstage hinbox hanswer hs hr hnone hc =>
      rw [hs]
      exact ⟨rfl, rfl⟩
  | advances who c ha hsome hs hr hc =>
      rw [hs]
      exact Completion.run_identity _ c _
  | removes id session hlookup hnone hs hr hc =>
      rw [hs]
      exact ⟨rfl, rfl⟩
  | cleans underlay ha hsome hs hr hc =>
      rw [hs]
      exact ⟨rfl, rfl⟩
  | forgets addr ha hsome hs hr hc =>
      rw [hs]
      exact ⟨rfl, rfl⟩

end Node

end SeedNet
