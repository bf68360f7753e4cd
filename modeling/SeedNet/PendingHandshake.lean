import SeedNet.Provenance
import SeedNet.TransparentNode
import SeedNet.Run

/-! # Handshakes in progress

A pending responder, and a pending initiator, is taken out of its map before the datagram that
took it out is looked at.  For an address with one of them in progress and datagrams from that
address:

* a responder survives a datagram only if an earlier branch of the loop takes it: a hole punch, or
  a datagram with the prefix of message B while an initiator waits for one (`Node.Captured`);
* an initiator survives a datagram only if it does not have the prefix of message B.

`handshake_completes_iff`: after a sequence of other datagrams the genuine message still completes
the handshake if and only if all of the sequence are of these kinds. -/

namespace SeedNet

open Run (exec Along)

variable {S : Snow}

namespace Node

variable (blake3 : Blake3) (n : Node S)

/-! ### Whole turns -/

/-- What the steps of a turn after its receive leave alone. -/
structure SameMaps (n n' : Node S) : Prop where
  networkSecret : n'.networkSecret = n.networkSecret
  deviceKeys : n'.deviceKeys = n.deviceKeys
  ourPeerId : n'.engine.ourPeerId = n.engine.ourPeerId
  pending : n'.pending = n.pending
  pendingResponders : n'.pendingResponders = n.pendingResponders

variable {n} {n' n'' : Node S} {blake3}

theorem SameMaps.refl (n : Node S) : n.SameMaps n := ⟨rfl, rfl, rfl, rfl, rfl⟩

theorem SameMaps.trans (h : n.SameMaps n') (h' : n'.SameMaps n'') : n.SameMaps n'' :=
  ⟨h'.1.trans h.1, h'.2.trans h.2, h'.3.trans h.3, h'.4.trans h.4, h'.5.trans h.5⟩

theorem deliverToAttempt_sameMaps (id : ℕ) (data : Bytes) : n.SameMaps (n.deliverToAttempt id data) := by
  unfold deliverToAttempt
  split
  · exact .refl n
  · split <;> exact ⟨rfl, rfl, rfl, rfl, rfl⟩

theorem inboundStep_sameMaps : n.SameMaps (n.inboundStep blake3).node := by
  unfold inboundStep
  split
  · exact .refl n
  · next id data _ =>
      obtain ⟨h1, h2, h3, h4, h5⟩ := deliverToAttempt_sameMaps (n := n) id data
      exact ⟨h1, h2, h3, h4, h5⟩
  · exact ⟨rfl, rfl, (Completion.run_identity _ _ _).1, rfl, rfl⟩

theorem settleFor_sameMaps (k : ℕ) : n.SameMaps (settleFor blake3 k n).node := by
  induction k generalizing n with
  | zero => exact .refl n
  | succ k ih => exact inboundStep_sameMaps.trans ih

theorem settleFor_add (j k : ℕ) (n : Node S) :
    (settleFor blake3 (j + k) n).node = (settleFor blake3 k (settleFor blake3 j n).node).node := by
  induction j generalizing n with
  | zero => rw [Nat.zero_add]; rfl
  | succ j ih =>
      rw [Nat.succ_add]
      exact ih _

theorem settleFor_of_idle (h : n.inbound = .idle) (k : ℕ) : (settleFor blake3 k n).node = n := by
  induction k generalizing n with
  | zero => rfl
  | succ k ih =>
      have hstep : (n.inboundStep blake3).node = n := by simp only [inboundStep, h]
      rw [settleFor, hstep]
      exact ih h

/-- The session and the index entry of a completed handshake are stored. -/
def Stored (c : Completion S) (e : Engine (SecureTransport S)) : Prop :=
  e.addrIndex.lookup c.underlay = some c.peerId ∧
    (e.sessions.lookup c.peerId).map (fun s => (s.transport.state, s.underlay)) =
      some (c.transport.state, c.underlay)

theorem Stored.of_same {c : Completion S} {e e' : Engine (SecureTransport S)} (h : Stored c e)
    (hs : e.SameSessions e') : Stored c e' := by
  refine ⟨?_, ?_⟩
  · rw [hs.addrIndex]
    exact h.1
  · rw [hs.sessions]
    exact h.2

theorem next_late {c c' : Completion S} (h : c.stage ∉ [Stage.relayPath, .session, .addrIndex])
    (hn : c.next = some c') : c'.stage ∉ [Stage.relayPath, .session, .addrIndex] := by
  obtain ⟨initiator, p, u, t, stage⟩ := c
  cases stage <;> simp only [Completion.next, Option.some.injEq, reduceCtorEq] at hn h <;> subst hn
  case announce => cases initiator <;> simp
  all_goals simp at h ⊢

/-- Once the index entry is written, the rest of the turn leaves the two maps alone. -/
theorem settleFor_sameSessions (k : ℕ) {c : Completion S} (h : n.inbound = .complete c)
    (hstage : c.stage ∉ [Stage.relayPath, .session, .addrIndex]) :
    n.engine.SameSessions (settleFor blake3 k n).node.engine := by
  induction k generalizing n c with
  | zero => exact .refl _
  | succ k ih =>
      have hin : (n.inboundStep blake3).node.inbound = .continue c.next := by simp only [inboundStep, h]
      have hrun : n.engine.SameSessions (n.inboundStep blake3).node.engine := by
        simp only [inboundStep, h]
        exact Completion.run_sameSessions blake3 (fun hs => hstage (by simp [hs])) fun hs => hstage (by simp [hs])
      refine hrun.trans ?_
      rw [settleFor]
      cases hn : c.next with
      | none =>
          rw [hn] at hin
          dsimp only
          rw [settleFor_of_idle hin]
          exact .refl _
      | some c' =>
          rw [hn] at hin
          exact ih hin (next_late hstage hn)

/-- The session that a completed handshake stores is there at the end of its turn. -/
theorem settle_complete {c : Completion S} (h : n.inbound = .complete c) (hstage : c.stage = .relayPath)
    (hrole : c.initiator = false) :
    (settleFor blake3 Inbound.length n).node.inbound = .idle ∧
      Stored c (settleFor blake3 Inbound.length n).node.engine := by
  obtain ⟨_, p, u, t, _⟩ := c
  dsimp only at hstage hrole
  subst hstage hrole
  let c : Stage → Completion S := fun stage =>
    { initiator := false, peerId := p, underlay := u, transport := t, stage := stage }
  let n₃ := (settleFor blake3 3 n).node
  have hin : n₃.inbound = .complete (c .route) := by
    simp only [n₃, settleFor, inboundStep, h, Completion.next, Inbound.continue, c]
  have hstored : Stored (c .route) n₃.engine := by
    simp only [n₃, c, settleFor, inboundStep, h, Completion.next, Completion.run, Inbound.continue, Stored,
      Engine.insertAddrIndex, Engine.insertSession, AList.lookup_insert, Option.map_some, and_self]
  have hrest : (settleFor blake3 Inbound.length n).node = (settleFor blake3 4 n₃).node := settleFor_add 3 4 n
  rw [hrest]
  constructor
  · simp only [settleFor, inboundStep, hin, Completion.next, Inbound.continue, c, Bool.false_eq_true, if_false]
  · exact hstored.of_same (settleFor_sameSessions 4 hin (by simp [c]))

/-! ### What a receive does to the inbound loop -/

variable (blake3) in
/-- The loop waits for the next datagram, hands message B over, or has accepted message C. -/
theorem receive_inbound (a : Arrival S) (h : n.inbound = .idle) :
    (n.receive blake3 a).node.inbound = .idle ∨
      (∃ id data, (n.receive blake3 a).node.inbound = .dispatch id data) ∨
      ∃ responder created result,
        n.pendingResponders.lookup a.fromAddr.socketAddr = some (responder, created) ∧
        responder.finish a.data = .ok result ∧
        (n.receive blake3 a).node.inbound = .complete
          { initiator := false
            peerId := .fromBytes result.transport.remoteStaticKey
            underlay := a.fromAddr
            transport := result.transport } := by
  have hrec := received blake3 n a
  generalize n.receive blake3 a = o at hrec
  cases hrec with
  | dispatched id hpending => exact .inr (.inl ⟨id, a.data, rfl⟩)
  | accepted responder created result hpunch hresponder hfin =>
      rw [lookup_retainResponders] at hresponder
      exact .inr (.inr ⟨responder, created, result, (Option.filter_eq_some_iff.mp hresponder).1, hfin, rfl⟩)
  | data peerId hindex =>
      exact .inl ((onData_sameTasks blake3 (n.retainResponders a.now) a peerId).inbound.trans h)
  | punched | rejected | answered | ignored => exact .inl h

/-! ### Turns -/

/-- The node after a whole turn. -/
def turnNode (blake3 : Blake3) (n : Node S) (a : Arrival S) : Node S := (n.turn blake3 a).node

theorem turnNode_eq (a : Arrival S) :
    n.turnNode blake3 a = (settleFor blake3 Inbound.length (n.receive blake3 a).node).node := rfl

theorem settleFor_dispatch {id : ℕ} {data : Bytes} (h : n.inbound = .dispatch id data) (k : ℕ) :
    (settleFor blake3 (k + 1) n).node = (n.inboundStep blake3).node := by
  have hstep : (n.inboundStep blake3).node.inbound = .idle := by simp only [inboundStep, h]
  rw [settleFor]
  exact settleFor_of_idle hstep k

theorem turn_idle (a : Arrival S) (h : n.inbound = .idle) : (n.turnNode blake3 a).inbound = .idle := by
  rw [turnNode_eq]
  rcases receive_inbound blake3 a h with hi | ⟨id, data, hi⟩ | ⟨responder, created, result, -, -, hi⟩
  · rw [settleFor_of_idle hi]
    exact hi
  · rw [Inbound.length, settleFor_dispatch hi]
    simp only [inboundStep, hi]
  · exact (settle_complete hi rfl rfl).1

variable (blake3) in
theorem turn_sameMaps (a : Arrival S) : (n.receive blake3 a).node.SameMaps (n.turnNode blake3 a) := by
  rw [turnNode_eq]
  exact settleFor_sameMaps Inbound.length

theorem answer_turn (a : Arrival S) : (n.turnNode blake3 a).answer = n.answer := by
  obtain ⟨hs, hk⟩ := receive_keys blake3 n a
  have h := turn_sameMaps blake3 (n := n) a
  funext d msgA
  simp only [answer, h.networkSecret, h.deviceKeys, hs, hk]

/-! ### A pending responder -/

/-- The datagram is taken by a branch of the loop before the one for message C. -/
def Captured (n : Node S) (a : Arrival S) : Prop :=
  startsWith a.data holePunchProbePrefix = true ∨ (n.pendingInitiator a).isSome

instance (n : Node S) (a : Arrival S) : Decidable (n.Captured a) := inferInstanceAs (Decidable (_ ∨ _))

/-- The completion of a responder that accepted a message C from `addr`. -/
def responderCompletion (addr : TransportAddr) (result : HandshakeResult S) : Completion S where
  initiator := false
  peerId := .fromBytes result.transport.remoteStaticKey
  underlay := addr
  transport := result.transport

variable (blake3) (n)

/-- The responder `r` waits for message C of the address of `c`; `c` is that message, and `ds` are
other datagrams from the same address, which Noise rejects. -/
structure AwaitsMessageC (r : ResponderHandshake S) (created : ℕ) (ds : List (Arrival S)) (c : Arrival S)
    (result : HandshakeResult S) : Prop where
  idle : n.inbound = .idle
  pending : n.pendingResponders.lookup c.fromAddr.socketAddr = some (r, created)
  genuine : r.finish c.data = .ok result
  source : ∀ d ∈ ds, d.fromAddr.socketAddr = c.fromAddr.socketAddr
  inTime : ∀ d ∈ c :: ds, d.now - created < handshakeTimeout
  wrong : ∀ d ∈ ds, ∃ e, S.readMessage r.state d.data = .error e
  /-- `c` is not the message C of a responder that answers one of `ds` -/
  other : ∀ d ∈ ds, ∀ msgA msgB r', n.answer d msgA = .ok (msgB, r') → ∃ e, S.readMessage r'.state c.data = .error e

/-- Message C establishes the session of `result`. -/
structure CompletesAsResponder (c : Arrival S) (result : HandshakeResult S) : Prop where
  accepted : (n.receive blake3 c).node.inbound = .complete (responderCompletion c.fromAddr result)
  stored : Stored (responderCompletion c.fromAddr result) (n.turnNode blake3 c).engine

variable {blake3} {n}

theorem finish_error {r : ResponderHandshake S} {msg : Bytes} {e : String} (h : S.readMessage r.state msg = .error e) :
    ∃ e', r.finish msg = .error e' := by
  simp only [ResponderHandshake.finish, readStep, h, Except.mapError, bind, Except.bind]
  exact ⟨_, rfl⟩

theorem not_captured {a : Arrival S} (h : ¬ n.Captured a) :
    startsWith a.data holePunchProbePrefix = false ∧ n.pendingInitiator a = none := by
  simpa [Captured, not_or] using h

/-- A captured datagram leaves the responder where it is. -/
theorem AwaitsMessageC.captured {r : ResponderHandshake S} {created : ℕ} {d c : Arrival S} {ds : List (Arrival S)}
    {result : HandshakeResult S} (h : n.AwaitsMessageC r created (d :: ds) c result) (hd : n.Captured d) :
    (turnNode blake3 n d).AwaitsMessageC r created ds c result := by
  have hin : d.now - created < handshakeTimeout := h.inTime d (by simp)
  have hkept : (n.receive blake3 d).node.pendingResponders.lookup c.fromAddr.socketAddr = some (r, created) := by
    have hretain : (n.retainResponders d.now).pendingResponders.lookup c.fromAddr.socketAddr =
        some (r, created) := by simp [lookup_retainResponders, h.pending, Option.filter, hin]
    rcases Bool.eq_false_or_eq_true (startsWith d.data holePunchProbePrefix) with hpre | hpre
    · rw [receive_holePunch hpre, onHolePunch]
      split <;> exact hretain
    · obtain ⟨id, hid⟩ := Option.isSome_iff_exists.mp (hd.resolve_left (by simp [hpre]))
      rw [receive_messageB hpre hid]
      exact hretain
  exact
    { idle := turn_idle d h.idle
      pending := by
        rw [(turn_sameMaps blake3 d).pendingResponders]
        exact hkept
      genuine := h.genuine
      source := fun x hx => h.source x (List.mem_cons_of_mem _ hx)
      inTime := fun x hx => h.inTime x (by rcases List.mem_cons.mp hx with rfl | hx <;> simp [*])
      wrong := fun x hx => h.wrong x (List.mem_cons_of_mem _ hx)
      other := fun x hx => by
        rw [answer_turn]
        exact h.other x (List.mem_cons_of_mem _ hx) }

/-- No pending responder accepts `c` any more. -/
structure Lost (n : Node S) (c : Arrival S) (ds : List (Arrival S)) : Prop where
  idle : n.inbound = .idle
  source : ∀ d ∈ ds, d.fromAddr.socketAddr = c.fromAddr.socketAddr
  rejects : ∀ r' created, n.pendingResponders.lookup c.fromAddr.socketAddr = some (r', created) →
    ∃ e, S.readMessage r'.state c.data = .error e
  other : ∀ d ∈ ds, ∀ msgA msgB r', n.answer d msgA = .ok (msgB, r') → ∃ e, S.readMessage r'.state c.data = .error e

/-- A datagram that is not captured takes the responder with it. -/
theorem AwaitsMessageC.lost {r : ResponderHandshake S} {created : ℕ} {d c : Arrival S} {ds : List (Arrival S)}
    {result : HandshakeResult S} (h : n.AwaitsMessageC r created (d :: ds) c result) (hd : ¬ n.Captured d) :
    (turnNode blake3 n d).Lost c ds := by
  obtain ⟨hpre, hpending⟩ := not_captured hd
  have hin : d.now - created < handshakeTimeout := h.inTime d (by simp)
  obtain ⟨e, he⟩ := h.wrong d List.mem_cons_self
  obtain ⟨e', he'⟩ := finish_error he
  have hsrc := h.source d List.mem_cons_self
  have hnone : (n.receive blake3 d).node.pendingResponders.lookup c.fromAddr.socketAddr = none := by
    rw [receive_messageC hpre hpending (hsrc ▸ h.pending) hin]
    simp only [onMessageC, he', hsrc]
    exact AList.lookup_erase _ _
  refine ⟨turn_idle d h.idle, fun x hx => h.source x (List.mem_cons_of_mem _ hx), fun r' t hr => ?_, fun x hx => ?_⟩
  · rw [(turn_sameMaps blake3 d).pendingResponders, hnone] at hr
    cases hr
  · rw [answer_turn]
    exact h.other x (List.mem_cons_of_mem _ hx)

theorem Lost.turn {d c : Arrival S} {ds : List (Arrival S)} (h : n.Lost c (d :: ds)) :
    (turnNode blake3 n d).Lost c ds := by
  refine ⟨turn_idle d h.idle, fun x hx => h.source x (List.mem_cons_of_mem _ hx), fun r' t hr => ?_, fun x hx => ?_⟩
  · rw [(turn_sameMaps blake3 d).pendingResponders, ← h.source d List.mem_cons_self] at hr
    rcases responders_of_receive hr with hold | ⟨msgA, msgB, hans⟩
    · exact h.rejects r' t (h.source d List.mem_cons_self ▸ hold)
    · exact h.other d List.mem_cons_self msgA msgB r' hans
  · rw [answer_turn]
    exact h.other x (List.mem_cons_of_mem _ hx)

theorem Lost.not_completes {c : Arrival S} {ds : List (Arrival S)} (h : n.Lost c ds) (result : HandshakeResult S) :
    ¬ (exec (turnNode blake3) n ds).CompletesAsResponder blake3 c result := by
  induction ds generalizing n with
  | cons d ds ih => exact ih h.turn
  | nil =>
      intro hc
      have hacc := hc.accepted
      rcases receive_inbound blake3 c h.idle with hi | ⟨id, data, hi⟩ | ⟨r', t, res, hr, hfin, -⟩
      · cases hacc.symm.trans hi
      · cases hacc.symm.trans hi
      · obtain ⟨e, he⟩ := h.rejects r' t hr
        obtain ⟨e', he'⟩ := finish_error he
        cases he'.symm.trans hfin

/-- Message C completes the handshake of a responder exactly if every datagram before it was
captured by an earlier branch and message C is not. -/
theorem AwaitsMessageC.completes_iff {r : ResponderHandshake S} {created : ℕ} {ds : List (Arrival S)}
    {c : Arrival S} {result : HandshakeResult S} (h : n.AwaitsMessageC r created ds c result) :
    (exec (turnNode blake3) n ds).CompletesAsResponder blake3 c result ↔
      Along (turnNode blake3) Captured n ds ∧ ¬ (exec (turnNode blake3) n ds).Captured c := by
  induction ds generalizing n with
  | nil =>
      have hin := h.inTime c (by simp)
      simp only [Run.exec_nil, Along, true_and]
      constructor
      · intro hc hcap
        have hacc := hc.accepted
        rcases Bool.eq_false_or_eq_true (startsWith c.data holePunchProbePrefix) with hpre | hpre
        · rw [receive_holePunch hpre, onHolePunch] at hacc
          split at hacc <;> cases h.idle.symm.trans hacc
        · obtain ⟨id, hid⟩ := Option.isSome_iff_exists.mp (hcap.resolve_left (by simp [hpre]))
          rw [receive_messageB hpre hid] at hacc
          cases hacc
      · intro hcap
        obtain ⟨hpre, hpending⟩ := not_captured hcap
        have hacc : (n.receive blake3 c).node.inbound = .complete (responderCompletion c.fromAddr result) := by
          rw [receive_messageC hpre hpending h.pending hin]
          simp only [onMessageC, h.genuine]
          rfl
        refine ⟨hacc, ?_⟩
        rw [turnNode_eq]
        exact (settle_complete hacc rfl rfl).2
  | cons d ds ih =>
      simp only [Run.exec_cons, Along]
      by_cases hd : n.Captured d
      · rw [ih (h.captured hd)]
        simp only [hd, true_and]
      · simp only [hd, false_and, iff_false]
        exact (h.lost hd).not_completes result

/-! ### A pending initiator -/

/-- The completion of an initiator that accepted a message B from `addr`. -/
def initiatorCompletion (addr : SocketAddr) (result : HandshakeResult S) : Completion S where
  initiator := true
  peerId := .fromBytes result.transport.remoteStaticKey
  underlay := .udp addr
  transport := result.transport

/-- The next step of task `id`, with everything it sends sent. -/
def taskNode (blake3 : Blake3) (id : ℕ) (n : Node S) : Node S := (n.attemptStep blake3 id true 0).node

/-- A datagram and its turn (`some a`), or a step of task `id` in between (`none`). -/
def waitNode (blake3 : Blake3) (id : ℕ) (n : Node S) : Option (Arrival S) → Node S
  | some a => n.turnNode blake3 a
  | none => n.taskNode blake3 id

variable (blake3) (n)

/-- Task `id` waits for message B of its address; `b` is that message, and `ms` are other datagrams
from the same address, which Noise rejects, with steps of the task among them. -/
structure AwaitsMessageB (id : ℕ) (attempt : Attempt S) (ms : List (Option (Arrival S))) (b : Arrival S)
    (result : HandshakeResult S) : Prop where
  idle : n.inbound = .idle
  pending : n.pending.lookup attempt.addr = some id
  waiting : n.attempts.lookup id = some attempt
  stage : attempt.stage = .waitB
  inbox : attempt.inbox = none
  source : ∀ d, some d ∈ some b :: ms → d.fromAddr.socketAddr = attempt.addr
  tagged : startsWith b.data noiseHandshakeResponderPrefix = true
  genuine : attempt.answer b.data = .ok result
  peer : PeerId.fromBytes result.transport.remoteStaticKey ≠ n.engine.ourPeerId
  wrong : ∀ d, some d ∈ ms → ∃ e, S.readMessage attempt.handshake.state
    (d.data.drop noiseHandshakeResponderPrefix.length) = .error e

/-- Message B completes the handshake of task `id`, and the task stores the session. -/
structure CompletesAsInitiator (id : ℕ) (addr : SocketAddr) (b : Arrival S) (result : HandshakeResult S) :
    Prop where
  answered : ((n.turnNode blake3 b).taskNode blake3 id).completion (some id) =
    some (initiatorCompletion addr result)
  stored : Stored (initiatorCompletion addr result)
    (((((n.turnNode blake3 b).taskNode blake3 id).taskNode blake3 id).taskNode blake3 id).taskNode blake3 id).engine

variable {blake3} {n}

theorem settleFor_attempts (h : ∀ id data, n.inbound ≠ .dispatch id data) (k : ℕ) :
    (settleFor blake3 k n).node.attempts = n.attempts := by
  induction k generalizing n with
  | zero => rfl
  | succ k ih =>
      cases hi : n.inbound with
      | idle => rw [settleFor_of_idle hi]
      | dispatch id data => exact absurd hi (h id data)
      | complete c =>
          have hstep : (n.inboundStep blake3).node.attempts = n.attempts := by simp only [inboundStep, hi]
          rw [← hstep]
          refine ih fun id data => ?_
          simp only [inboundStep, hi]
          cases c.next <;> simp [Inbound.continue]

variable (blake3) in
/-- A turn whose datagram is for no initiator leaves the initiators alone. -/
theorem turn_initiators {a : Arrival S} (hidle : n.inbound = .idle) (h : n.pendingInitiator a = none) :
    (n.turnNode blake3 a).attempts = n.attempts ∧ (n.turnNode blake3 a).pending = n.pending ∧
      (n.turnNode blake3 a).engine.ourPeerId = n.engine.ourPeerId := by
  have hkept : (n.receive blake3 a).node.attempts = n.attempts ∧ (n.receive blake3 a).node.pending = n.pending ∧
      (n.receive blake3 a).node.engine.ourPeerId = n.engine.ourPeerId ∧
      ∀ id data, (n.receive blake3 a).node.inbound ≠ .dispatch id data := by
    have hrec := received blake3 n a
    generalize n.receive blake3 a = o at hrec
    cases hrec with
    | dispatched id hpending => cases hpending.symm.trans h
    | accepted => exact ⟨rfl, rfl, rfl, by simp⟩
    | data peerId hindex =>
        have hs := onData_sameTasks blake3 (n.retainResponders a.now) a peerId
        refine ⟨hs.attempts, hs.pending, (onData_sameSessions blake3 (n.retainResponders a.now) a peerId).ourPeerId,
          fun id data => ?_⟩
        rw [hs.inbound]
        intro hc
        cases hidle.symm.trans hc
    | punched | rejected | answered | ignored =>
        refine ⟨rfl, rfl, rfl, fun id data hc => ?_⟩
        cases hidle.symm.trans hc
  obtain ⟨h1, h2, h3, h4⟩ := hkept
  have hmaps := turn_sameMaps blake3 (n := n) a
  refine ⟨?_, hmaps.pending.trans h2, hmaps.ourPeerId.trans h3⟩
  rw [turnNode_eq, settleFor_attempts h4]
  exact h1

variable (blake3) in
/-- A turn whose datagram is for the waiting task `id`. -/
theorem turn_dispatch {a : Arrival S} {id : ℕ} {attempt : Attempt S}
    (hpre : startsWith a.data noiseHandshakeResponderPrefix = true)
    (hpending : n.pending.lookup a.fromAddr.socketAddr = some id) (hwait : n.attempts.lookup id = some attempt)
    (hstage : attempt.stage = .waitB) :
    (n.turnNode blake3 a).pending = n.pending.erase a.fromAddr.socketAddr ∧
      (n.turnNode blake3 a).attempts = n.attempts.replace id { attempt with inbox := some a.data } ∧
      (n.turnNode blake3 a).engine = n.engine := by
  have hinit : n.pendingInitiator a = some id := by simp only [pendingInitiator, hpre, if_true, hpending]
  let n₁ := (n.receive blake3 a).node
  have hrec : n₁ = { n.retainResponders a.now with
      pending := n.pending.erase a.fromAddr.socketAddr
      inbound := .dispatch id a.data } := by
    simp only [n₁, receive_messageB (responder_not_holePunch hpre) hinit]
  have hin : n₁.inbound = .dispatch id a.data := by rw [hrec]
  let n₂ := (n₁.inboundStep blake3).node
  have hstep : n₂ = { n₁.deliverToAttempt id a.data with inbound := .idle } := by
    simp only [n₂, inboundStep, hin]
  have hturn : n.turnNode blake3 a = n₂ := by
    rw [turnNode_eq, Inbound.length]
    exact settleFor_dispatch hin 6
  have hdel : n₁.deliverToAttempt id a.data =
      { n₁ with
        attempts := n₁.attempts.replace id { attempt with inbox := some a.data }
        attempts_lt := fun i hi => n₁.attempts_lt i (AList.mem_replace.mp hi) } := by
    have hwait₁ : n₁.attempts.lookup id = some attempt := by rw [hrec]; exact hwait
    simp only [deliverToAttempt, hwait₁, hstage]
  rw [hturn, hstep, hdel, hrec]
  exact ⟨rfl, rfl, rfl⟩

theorem taskNode_waiting {id : ℕ} {attempt : Attempt S} (hwait : n.attempts.lookup id = some attempt)
    (hstage : attempt.stage = .waitB) (hinbox : attempt.inbox = none)
    (hpending : n.pending.lookup attempt.addr = some id) : n.taskNode blake3 id = n := by
  have hdropped : n.channelDropped id attempt = false := by simp [channelDropped, hpending]
  simp only [taskNode, attemptStep, hwait, hstage, hinbox, hdropped, Bool.false_eq_true, if_false]

theorem taskNode_answer {id : ℕ} {attempt : Attempt S} {data : Bytes}
    (hwait : n.attempts.lookup id = some attempt) (hstage : attempt.stage = .waitB)
    (hinbox : attempt.inbox = some data) :
    n.taskNode blake3 id = (n.onMessageB id attempt data true).node := by
  simp only [taskNode, attemptStep, hwait, hstage, hinbox]

variable (blake3) in
theorem taskNode_complete {id : ℕ} {attempt : Attempt S} {c c' : Completion S}
    (hwait : n.attempts.lookup id = some attempt) (hstage : attempt.stage = .complete c) (hn : c.next = some c') :
    (n.taskNode blake3 id).engine = (c.run blake3 n.engine).1 ∧
      (n.taskNode blake3 id).attempts.lookup id = some { attempt with stage := .complete c' } := by
  simp only [taskNode, attemptStep, hwait, hstage, hn]
  exact ⟨rfl, by simp [setStage, Map.lookup_replace, hwait]⟩

theorem answer_error {attempt : Attempt S} {data : Bytes} {e : String}
    (h : S.readMessage attempt.handshake.state (data.drop noiseHandshakeResponderPrefix.length) = .error e) :
    ∃ e', attempt.answer data = .error e' := by
  unfold Attempt.answer
  cases startsWith data noiseHandshakeResponderPrefix with
  | false => exact ⟨_, rfl⟩
  | true =>
      simp only [InitiatorHandshake.readMessageB, readStep, h, Except.mapError, Except.map, bind, Except.bind]
      exact ⟨_, rfl⟩

/-- The right message B at the right time. -/
theorem AwaitsMessageB.completes {id : ℕ} {attempt : Attempt S} {b : Arrival S} {result : HandshakeResult S}
    (h : n.AwaitsMessageB id attempt [] b result) :
    n.CompletesAsInitiator blake3 id attempt.addr b result := by
  have hpending : n.pending.lookup b.fromAddr.socketAddr = some id := by
    rw [h.source b (by simp)]
    exact h.pending
  obtain ⟨-, hattempts, hengine⟩ := turn_dispatch blake3 h.tagged hpending h.waiting h.stage
  let n₁ := n.turnNode blake3 b
  let at₁ : Attempt S := { attempt with inbox := some b.data }
  have hwait₁ : n₁.attempts.lookup id = some at₁ := by
    simp only [n₁, hattempts, Map.lookup_replace, if_true, h.waiting, Option.map_some, at₁]
  -- the task takes message B
  let n₂ := n₁.taskNode blake3 id
  have hanswer : at₁.answer b.data = .ok result := h.genuine
  have hpeer : PeerId.fromBytes result.transport.remoteStaticKey ≠ n₁.engine.ourPeerId := by
    simp only [n₁, hengine]
    exact h.peer
  have hn₂ : n₂ = n₁.setStage id at₁ (.complete (initiatorCompletion attempt.addr result)) := by
    simp only [n₂]
    rw [taskNode_answer hwait₁ h.stage rfl, onMessageB, hanswer]
    simp only [Bool.not_true, Bool.false_eq_true, if_false, if_neg hpeer]
    rfl
  have hwait₂ : n₂.attempts.lookup id =
      some { at₁ with stage := .complete (initiatorCompletion attempt.addr result) } := by
    rw [hn₂]
    simp [setStage, Map.lookup_replace, hwait₁]
  refine ⟨?_, ?_⟩
  · change n₂.completion (some id) = _
    rw [completion_some_of_lookup hwait₂]
    rfl
  · -- relay path, session and index entry
    obtain ⟨-, hwait₃⟩ := taskNode_complete blake3 hwait₂ rfl rfl
    obtain ⟨hengine₄, hwait₄⟩ := taskNode_complete blake3 hwait₃ rfl rfl
    obtain ⟨hengine₅, -⟩ := taskNode_complete blake3 hwait₄ rfl rfl
    change Stored _ (((n₂.taskNode blake3 id).taskNode blake3 id).taskNode blake3 id).engine
    rw [hengine₅, hengine₄]
    simp only [Completion.run, Stored, Engine.insertAddrIndex, Engine.insertSession, initiatorCompletion,
      AList.lookup_insert, Option.map_some, and_self]

/-- A datagram without the prefix of message B does not reach the task. -/
theorem AwaitsMessageB.other {id : ℕ} {attempt : Attempt S} {d b : Arrival S} {ms : List (Option (Arrival S))}
    {result : HandshakeResult S} (h : n.AwaitsMessageB id attempt (some d :: ms) b result)
    (hd : startsWith d.data noiseHandshakeResponderPrefix = false) :
    (n.turnNode blake3 d).AwaitsMessageB id attempt ms b result := by
  have hnone : n.pendingInitiator d = none := by simp [pendingInitiator, hd]
  obtain ⟨hattempts, hpending, hid⟩ := turn_initiators blake3 h.idle hnone
  have hmem : ∀ x, some x ∈ some b :: ms → some x ∈ some b :: some d :: ms := fun x hx => by
    rcases List.mem_cons.mp hx with hx | hx
    · exact hx ▸ List.mem_cons_self
    · exact List.mem_cons_of_mem _ (List.mem_cons_of_mem _ hx)
  exact
    { idle := turn_idle d h.idle
      pending := by rw [hpending]; exact h.pending
      waiting := by rw [hattempts]; exact h.waiting
      stage := h.stage
      inbox := h.inbox
      source := fun x hx => h.source x (hmem x hx)
      tagged := h.tagged
      genuine := h.genuine
      peer := by rw [hid]; exact h.peer
      wrong := fun x hx => h.wrong x (List.mem_cons_of_mem _ hx) }

theorem AwaitsMessageB.step {id : ℕ} {attempt : Attempt S} {b : Arrival S} {ms : List (Option (Arrival S))}
    {result : HandshakeResult S} (h : n.AwaitsMessageB id attempt (none :: ms) b result) :
    (n.taskNode blake3 id).AwaitsMessageB id attempt ms b result := by
  rw [taskNode_waiting h.waiting h.stage h.inbox h.pending]
  have hmem : ∀ x, some x ∈ some b :: ms → some x ∈ some b :: none :: ms := fun x hx => by
    rcases List.mem_cons.mp hx with hx | hx
    · exact hx ▸ List.mem_cons_self
    · exact List.mem_cons_of_mem _ (List.mem_cons_of_mem _ hx)
  exact { h with
    source := fun x hx => h.source x (hmem x hx)
    wrong := fun x hx => h.wrong x (List.mem_cons_of_mem _ hx) }

/-- No initiator waits for the address any more, and task `id` has got a message it rejects. -/
structure Spoiled (n : Node S) (id : ℕ) (addr : SocketAddr) (b : Arrival S) (ms : List (Option (Arrival S))) :
    Prop where
  idle : n.inbound = .idle
  source : ∀ d, some d ∈ some b :: ms → d.fromAddr.socketAddr = addr
  pending : n.pending.lookup addr = none
  attempt : ∀ attempt, n.attempts.lookup id = some attempt → attempt.stage = .waitB ∧
    ∃ data e, attempt.inbox = some data ∧ attempt.answer data = .error e

theorem AwaitsMessageB.spoiled {id : ℕ} {attempt : Attempt S} {d b : Arrival S} {ms : List (Option (Arrival S))}
    {result : HandshakeResult S} (h : n.AwaitsMessageB id attempt (some d :: ms) b result)
    (hd : startsWith d.data noiseHandshakeResponderPrefix = true) :
    (n.turnNode blake3 d).Spoiled id attempt.addr b ms := by
  have hsrc := h.source d (by simp)
  obtain ⟨hpending, hattempts, -⟩ := turn_dispatch blake3 hd (hsrc ▸ h.pending) h.waiting h.stage
  obtain ⟨e, he⟩ := h.wrong d List.mem_cons_self
  refine ⟨turn_idle d h.idle, fun x hx => ?_, ?_, fun at' hat => ?_⟩
  · refine h.source x ?_
    rcases List.mem_cons.mp hx with hx | hx
    · exact hx ▸ List.mem_cons_self
    · exact List.mem_cons_of_mem _ (List.mem_cons_of_mem _ hx)
  · rw [hpending, hsrc]
    exact AList.lookup_erase _ _
  · simp only [hattempts, Map.lookup_replace, if_true, h.waiting, Option.map_some, Option.some.injEq] at hat
    subst hat
    obtain ⟨e', he'⟩ := @answer_error S { attempt with inbox := some d.data } _ _ he
    exact ⟨h.stage, d.data, e', rfl, he'⟩

variable (blake3) in
theorem Spoiled.next {id : ℕ} {addr : SocketAddr} {b : Arrival S} {m : Option (Arrival S)}
    {ms : List (Option (Arrival S))} (h : n.Spoiled id addr b (m :: ms)) :
    (n.waitNode blake3 id m).Spoiled id addr b ms := by
  have hsource : ∀ x, some x ∈ some b :: ms → x.fromAddr.socketAddr = addr := fun x hx => by
    refine h.source x ?_
    rcases List.mem_cons.mp hx with hx | hx
    · exact hx ▸ List.mem_cons_self
    · exact List.mem_cons_of_mem _ (List.mem_cons_of_mem _ hx)
  cases m with
  | some d =>
      have hnone : n.pendingInitiator d = none := by
        rw [pendingInitiator, h.source d (by simp), h.pending, ite_self]
      obtain ⟨hattempts, hpending, -⟩ := turn_initiators blake3 h.idle hnone
      refine ⟨turn_idle d h.idle, hsource, ?_, ?_⟩
      · rw [waitNode, hpending]
        exact h.pending
      · rw [waitNode, hattempts]
        exact h.attempt
  | none =>
      cases hat : n.attempts.lookup id with
      | none =>
          have hsame : n.waitNode blake3 id none = n := by simp only [waitNode, taskNode, attemptStep, hat]
          rw [hsame]
          exact ⟨h.idle, hsource, h.pending, h.attempt⟩
      | some attempt =>
          obtain ⟨hstage, data, e, hinbox, herr⟩ := h.attempt attempt hat
          have hend : n.waitNode blake3 id none = n.endAttempt id := by
            rw [waitNode, taskNode_answer hat hstage hinbox, onMessageB, herr]
          rw [hend]
          refine ⟨h.idle, hsource, h.pending, fun at' hat' => ?_⟩
          rw [endAttempt, AList.lookup_erase] at hat'
          cases hat'

theorem Spoiled.not_completes {id : ℕ} {addr : SocketAddr} {b : Arrival S} {ms : List (Option (Arrival S))}
    (h : n.Spoiled id addr b ms) (result : HandshakeResult S) :
    ¬ (exec (waitNode blake3 id) n ms).CompletesAsInitiator blake3 id addr b result := by
  induction ms generalizing n with
  | cons m ms ih => exact ih (h.next blake3)
  | nil =>
      intro hc
      have hlast : ((n.turnNode blake3 b).taskNode blake3 id).Spoiled id addr b [] := by
        have h' : n.Spoiled id addr b [some b, none] :=
          ⟨h.idle, fun x hx => h.source x (by simpa using hx), h.pending, h.attempt⟩
        exact (h'.next blake3).next blake3
      have hanswered := hc.answered
      rw [Run.exec_nil] at hanswered
      obtain ⟨at', hat, hcomp⟩ := Option.bind_eq_some_iff.mp hanswered
      rw [(hlast.attempt at' hat).1] at hcomp
      cases hcomp

/-- Message B completes the handshake of an initiator exactly if no datagram before it has its
prefix. -/
theorem AwaitsMessageB.completes_iff {id : ℕ} {attempt : Attempt S} {ms : List (Option (Arrival S))} {b : Arrival S}
    {result : HandshakeResult S} (h : n.AwaitsMessageB id attempt ms b result) :
    (exec (waitNode blake3 id) n ms).CompletesAsInitiator blake3 id attempt.addr b result ↔
      ∀ d, some d ∈ ms → startsWith d.data noiseHandshakeResponderPrefix = false := by
  induction ms generalizing n with
  | nil => simp only [Run.exec_nil, h.completes, List.not_mem_nil, false_imp_iff, implies_true]
  | cons m ms ih =>
      rw [Run.exec_cons]
      cases m with
      | none =>
          rw [waitNode, ih h.step]
          simp
      | some d =>
          rcases Bool.eq_false_or_eq_true (startsWith d.data noiseHandshakeResponderPrefix) with hd | hd
          · refine iff_of_false ((h.spoiled hd).not_completes result) fun hall => ?_
            have hfalse := hall d List.mem_cons_self
            rw [hd] at hfalse
            cases hfalse
          · rw [waitNode, ih (h.other hd)]
            simp [hd]

end Node

/-- **Handshakes in progress.**  A pending responder completes its handshake on message C exactly if
each datagram before it was captured by an earlier branch of the loop and message C is not; a
pending initiator completes it on message B exactly if no datagram before it has that prefix. -/
theorem handshake_completes_iff (blake3 : Blake3) (n : Node S) :
    (∀ r created ds c result, n.AwaitsMessageC r created ds c result →
      ((exec (Node.turnNode blake3) n ds).CompletesAsResponder blake3 c result ↔
        Along (Node.turnNode blake3) Node.Captured n ds ∧ ¬ (exec (Node.turnNode blake3) n ds).Captured c)) ∧
    (∀ id attempt ms b result, n.AwaitsMessageB id attempt ms b result →
      ((exec (Node.waitNode blake3 id) n ms).CompletesAsInitiator blake3 id attempt.addr b result ↔
        ∀ d, some d ∈ ms → startsWith d.data noiseHandshakeResponderPrefix = false)) :=
  ⟨fun _ _ _ _ _ h => h.completes_iff, fun _ _ _ _ _ h => h.completes_iff⟩

/-! ### Examples of both roles -/

namespace Transparent

/-- The responder of a node has the ephemeral that its turn drew. -/
theorem answer_eph {n : Node transparent} {a : Arrival transparent} {msgA msgB : Bytes}
    {r : ResponderHandshake transparent} (h : n.answer a msgA = .ok (msgB, r)) :
    State.initiator r.state = false ∧ State.eph r.state = a.rng := by
  obtain ⟨s₀, s₁, p, hbuild, hread, hwrite⟩ := Node.answer_eq_ok h
  have hs₀ : State.initiator s₀ = false ∧ State.eph s₀ = a.rng := by
    simp only [transparent] at hbuild
    split at hbuild
    · cases hbuild
      exact ⟨rfl, rfl⟩
    · cases hbuild
  have hs₁ := readMessage_keeps hread
  have hs₂ := writeMessage_keeps hwrite
  exact ⟨hs₂.1.trans (hs₁.1.trans hs₀.1), hs₂.2.trans (hs₁.2.trans hs₀.2)⟩

/-- Message C names the ephemeral of the responder that reads it. -/
theorem readMessage_error {s : State} {ei er : UInt8} {body : Bytes} (hs : s.initiator = false) (he : er ≠ s.eph) :
    ∃ e, readMessage s (12 :: ei :: er :: body) = .error e := by
  unfold readMessage
  rw [hs]
  split
  · next h => exact absurd h (by simp)
  · next h => exact absurd h (by simp)
  · next h =>
      simp only [List.cons.injEq, true_and] at h
      obtain ⟨rfl, rfl, rfl⟩ := h
      split
      · rw [if_neg fun h => he h.2.1]
        exact ⟨_, rfl⟩
      · exact ⟨_, rfl⟩
  · exact ⟨_, rfl⟩

/-- Node 1 has answered message A of `addr 2`. -/
def responding : Node transparent := ((node 1).receive blake3 (arrival (addr 2) 4 (messageA 3))).node

/-- Node 1 has sent message A to `addr 2`. -/
def initiating : Node transparent :=
  exec (Node.next blake3) (node 1) [.start (addr 2) (3 : UInt8), .attempt 0 true 0]

/-- The responder of `responding`. -/
def responder : ResponderHandshake transparent :=
  ⟨{ initiator := false, prologue := secret.bytes, static := .replicate 1, eph := 4, peerEph := some 3, stage := 2 }⟩

/-- The task of `initiating`. -/
def waiting : Attempt transparent where
  addr := addr 2
  handshake := ⟨{ initiator := true, prologue := secret.bytes, static := .replicate 1, eph := 3, stage := 1 }⟩
  stage := .waitB

def responderResult : HandshakeResult transparent where
  transport :=
    { state := ⟨false, 3, 4⟩, remoteStatic := .replicate 7, sendNonce := 0, nonceWindow := {} }
  msgBytes := []

def initiatorResult : HandshakeResult transparent where
  transport :=
    { state := ⟨true, 3, 4⟩, remoteStatic := .replicate 7, sendNonce := 0, nonceWindow := {} }
  msgBytes := messageC 1 7 3 4

/-- One datagram `d` before message C. -/
theorem awaitsMessageC (data : Bytes) (hd : ∃ e, readMessage responder.state data = .error e) :
    responding.AwaitsMessageC responder 0 [arrival (addr 2) 5 data] (arrival (addr 2) 6 (messageC 7 1 3 4))
      responderResult where
  idle := rfl
  pending := rfl
  genuine := rfl
  source := by simp [arrival]
  inTime := by simp [arrival, handshakeTimeout]
  wrong := by
    intro d hmem
    rw [List.mem_singleton.mp hmem]
    exact hd
  other := by
    intro d hmem msgA msgB r' hans
    obtain ⟨hrole, heph⟩ := answer_eph hans
    rw [List.mem_singleton.mp hmem] at heph
    refine readMessage_error hrole ?_
    rw [heph]
    change (4 : UInt8) ≠ 5
    decide

/-- One datagram `d` before message B. -/
theorem awaitsMessageB (data : Bytes) (hd : ∃ e, readMessage waiting.handshake.state
    (data.drop noiseHandshakeResponderPrefix.length) = .error e) :
    initiating.AwaitsMessageB 0 waiting [some (arrival (addr 2) 5 data)] (arrival (addr 2) 6 (messageB 7 3 4))
      initiatorResult where
  idle := rfl
  pending := rfl
  waiting := rfl
  stage := rfl
  inbox := rfl
  source := by
    intro d hmem
    simp only [List.mem_cons, Option.some.injEq, List.not_mem_nil, or_false] at hmem
    rcases hmem with rfl | rfl <;> rfl
  tagged := by decide
  genuine := rfl
  peer := by decide
  wrong := by
    intro d hmem
    rw [Option.some.inj (List.mem_singleton.mp hmem)]
    exact hd

end Transparent

open Transparent

/-- After a hole-punch probe, message C and message B still complete their handshakes. -/
theorem handshake_completes_after_probe :
    (exec (Node.turnNode blake3) responding
      [arrival (addr 2) 5 (holePunchProbePrefix ++ serializeMessage (.holePunchProbe 0))]).CompletesAsResponder blake3
        (arrival (addr 2) 6 (messageC 7 1 3 4)) responderResult ∧
    (exec (Node.waitNode blake3 0) initiating
      [some (arrival (addr 2) 5 (holePunchProbePrefix ++ serializeMessage (.holePunchProbe 0)))]).CompletesAsInitiator
        blake3 0 (addr 2) (arrival (addr 2) 6 (messageB 7 3 4)) initiatorResult :=
  ⟨((handshake_completes_iff blake3 responding).1 _ _ _ _ _ (awaitsMessageC _ ⟨_, rfl⟩)).mpr
      ⟨by decide +kernel, by decide +kernel⟩,
    ((handshake_completes_iff blake3 initiating).2 _ _ _ _ _ (awaitsMessageB _ ⟨_, rfl⟩)).mpr (by
      intro d hd
      rw [Option.some.inj (List.mem_singleton.mp hd)]
      decide +kernel)⟩

/-- One stray byte before message C, or a spoofed message B before the real one, and the handshake
is gone. -/
theorem handshake_aborted :
    (¬ ∀ (n : Node transparent) r created ds c result, n.AwaitsMessageC r created ds c result →
      (exec (Node.turnNode blake3) n ds).CompletesAsResponder blake3 c result) ∧
    (¬ ∀ (n : Node transparent) id attempt ms b result, n.AwaitsMessageB id attempt ms b result →
      (exec (Node.waitNode blake3 id) n ms).CompletesAsInitiator blake3 id attempt.addr b result) := by
  constructor
  · intro h
    have hwait := awaitsMessageC [0] ⟨_, rfl⟩
    exact absurd (hwait.completes_iff.mp (h _ _ _ _ _ _ hwait)).1 (by decide +kernel)
  · intro h
    have hwait := awaitsMessageB (noiseHandshakeResponderPrefix ++ [0]) ⟨_, rfl⟩
    have hall := hwait.completes_iff.mp (h _ _ _ _ _ _ hwait)
    exact absurd (hall _ List.mem_cons_self) (by decide +kernel)

end SeedNet
