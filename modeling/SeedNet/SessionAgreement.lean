import SeedNet.Agreement
import SeedNet.Run
import SeedNet.TransparentHandshake
import SeedNet.TwoNodes

/-! # The sessions of two nodes belong to one handshake

Two nodes on one network secret, over a network that reorders, duplicates and loses datagrams.  A
node stores a session as initiator, once it has sent message C, and as responder, once it has
accepted message C; the session that was stored last counts.

`Net.OneAtATime` is the condition under which the two nodes end with the two ends of one handshake:
when an initiator takes message B, no other message C is in flight, neither node is about to store a
session, and the other node has none with this one.  The code does not check it: two handshakes in
opposite directions can cross (`sessions_disagree`).

The proof is a simulation.  `Net.Simulates` relates the network to `Agreement.State`, where an offer
is a message C in flight; `sessions_agree` reads the result of that module back. -/

namespace SeedNet

open Function (update)
open Run (exec Along)
open Relation (ReflTransGen)
open Snow (SameHandshake)

variable {S : Snow}

/-! ### The condition -/

/-- Task `id` takes message B from its channel in its next step. -/
def Node.takesMessageB (n : Node S) (id : ℕ) : Bool :=
  match n.attempts.lookup id with
  | none => false
  | some attempt =>
    match attempt.stage, attempt.inbox with
    | .waitB, some _ => true
    | _, _ => false

/-- A node that has just started. -/
structure Node.Started (publicKey : Bytes32 → Bytes32) (networkSecret : Bytes32) (n : Node S) : Prop where
  secret_eq : n.networkSecret = networkSecret
  publicKey_eq : n.deviceKeys.x25519PublicKey = publicKey n.deviceKeys.x25519StaticSecret
  ourPeerId_eq : n.engine.ourPeerId = n.deviceKeys.peerId
  sessions : n.engine.sessions = ∅
  attempts : n.attempts = ∅
  pendingResponders : n.pendingResponders = ∅
  inbound : n.inbound = .idle

namespace Net

/-- Nothing of another handshake gets in the way of one that the node `x` completes now. -/
structure Alone (s : Net S) (x : Bool) : Prop where
  inFlight : ∀ p ∈ s.inFlight, p.2.origin.isMessageC = false
  stored : ∀ y who c, (s.node y).completion who = some c → ¬ c.Unstored
  session : (s.node x).engine.ourPeerId ∉ (s.node (!x)).engine.sessions

/-- The node of which an initiator takes message B in this action, and sends message C. -/
def completing (s : Net S) : Net.Action S → Option Bool
  | .node x (.attempt id true _) => if (s.node x).takesMessageB id then some x else none
  | _ => none

/-- Message B is taken only if no other handshake is in the way. -/
def OneAtATime (s : Net S) (a : Net.Action S) : Prop := ∀ x ∈ s.completing a, s.Alone x

structure Started (publicKey : Bytes32 → Bytes32) (networkSecret : Bytes32) (s : Net S) : Prop where
  node : ∀ x, (s.node x).Started publicKey networkSecret
  inFlight : s.inFlight = []

/-- No datagram is in flight, and no handshake is under way. -/
structure Quiescent (s : Net S) : Prop where
  inFlight : s.inFlight = []
  attempts : ∀ x, Map.len (s.node x).attempts = 0
  pendingResponders : ∀ x, Map.len (s.node x).pendingResponders = 0
  inbound : ∀ x, (s.node x).inbound = .idle

/-- The static key of the node `x`. -/
def staticKey (s : Net S) (x : Bool) : Bytes32 := (s.node x).deviceKeys.x25519StaticSecret

/-- If both nodes have a session with the other one, the two are the two ends of one handshake, and each
decrypts what the other one encrypts. -/
def Agree (networkSecret : Bytes32) (s : Net S) : Prop :=
  ∀ a b, (s.node false).engine.sessions.lookup (s.node true).engine.ourPeerId = some a →
    (s.node true).engine.sessions.lookup (s.node false).engine.ourPeerId = some b →
      (SameHandshake networkSecret (s.staticKey false) (s.staticKey true) a.transport.state b.transport.state ∨
        SameHandshake networkSecret (s.staticKey true) (s.staticKey false) b.transport.state a.transport.state) ∧
      a.transport.Decrypts b.transport ∧ b.transport.Decrypts a.transport

/-! The conditions can be computed. -/

instance (s : Net S) (x : Bool) : Decidable (s.Alone x) :=
  decidable_of_iff ((∀ p ∈ s.inFlight, p.2.origin.isMessageC = false) ∧
      (∀ y, ∀ who ∈ (s.node y).tasks, ((s.node y).completion who).all fun c => decide (¬ c.Unstored)) ∧
      (s.node x).engine.ourPeerId ∉ (s.node (!x)).engine.sessions) <| by
    constructor
    · rintro ⟨hflight, hstored, hsession⟩
      refine ⟨hflight, fun y who c hc => ?_, hsession⟩
      have hall := hstored y who ((s.node y).mem_tasks hc)
      rw [hc] at hall
      exact of_decide_eq_true hall
    · rintro ⟨hflight, hstored, hsession⟩
      refine ⟨hflight, fun y who _ => ?_, hsession⟩
      cases hc : (s.node y).completion who with
      | none => rfl
      | some c => exact decide_eq_true (hstored y who c hc)

instance (s : Net S) (a : Net.Action S) : Decidable (s.OneAtATime a) :=
  Option.decidableForallMem (p := s.Alone) (s.completing a)

instance (s : Net S) : Decidable s.Quiescent :=
  decidable_of_iff (s.inFlight.length = 0 ∧ ∀ x, Map.len (s.node x).attempts = 0 ∧
      Map.len (s.node x).pendingResponders = 0 ∧ (s.node x).inbound = .idle)
    ⟨fun h => ⟨List.eq_nil_of_length_eq_zero h.1, fun x => (h.2 x).1, fun x => (h.2 x).2.1, fun x => (h.2 x).2.2⟩,
      fun h => ⟨by rw [h.inFlight]; rfl, fun x => ⟨h.attempts x, h.pendingResponders x, h.inbound x⟩⟩⟩

end Net

/-! ### One node and one of its peers -/

theorem Completion.not_unstored_of_next {c d : Completion S} (hc : c.stage ≠ .relayPath) (hd : c.next = some d) :
    ¬ d.Unstored := by
  obtain ⟨initiator, p, u, t, stage⟩ := c
  cases stage <;> simp only [Completion.next, Option.some.injEq, reduceCtorEq] at hd hc <;> subst hd
  case relayPath => exact absurd rfl hc
  case announce => cases initiator <;> simp [Completion.Unstored]
  all_goals simp [Completion.Unstored]

namespace Node

variable {blake3 : Blake3} {n n' : Node S} {a : NodeAction S} {p : PeerId}

/-- The transport state of the session with `p`. -/
def sessionState (n : Node S) (p : PeerId) : Option S.StatelessTransportState :=
  (n.engine.sessions.lookup p).map (·.transport.state)

/-- The task `who` is about to store a session with `p`. -/
def Storing (n : Node S) (p : PeerId) (who : Option ℕ) (t : S.StatelessTransportState) : Prop :=
  ∃ c, n.completion who = some c ∧ c.peerId = p ∧ c.Unstored ∧ c.transport.state = t

/-- What a step does to the sessions with `p`, stored and about to be stored. -/
inductive PeerEffect (p : PeerId) (n n' : Node S) (a : NodeAction S) : Prop
  | same (hs : n'.sessionState p = n.sessionState p) (hw : ∀ w t, n'.Storing p w t ↔ n.Storing p w t)
  | accepts (arrival : Arrival S) (responder : ResponderHandshake S) (created : ℕ) (result : HandshakeResult S)
      (ha : a = .receive arrival) (hpunch : startsWith arrival.data holePunchProbePrefix = false)
      (hpending : n.pendingResponders.lookup arrival.fromAddr.socketAddr = some (responder, created))
      (hfinish : responder.finish arrival.data = .ok result)
      (hpeer : PeerId.fromBytes result.transport.remoteStatic = p)
      (hs : n'.sessionState p = n.sessionState p) (hnone : ∀ t, ¬ n.Storing p none t)
      (hw : ∀ w t, n'.Storing p w t ↔ w = none ∧ t = result.transport.state ∨ w ≠ none ∧ n.Storing p w t)
  | answers (id : ℕ) (token : UInt64) (attempt : Attempt S) (data : Bytes) (result : HandshakeResult S)
      (ha : a = .attempt id true token)
      (hattempt : n.attempts.lookup id = some attempt) (hstage : attempt.stage = .waitB)
      (hinbox : attempt.inbox = some data) (hanswer : attempt.answer data = .ok result)
      (hpeer : PeerId.fromBytes result.transport.remoteStatic = p)
      (hs : n'.sessionState p = n.sessionState p) (hnone : ∀ t, ¬ n.Storing p (some id) t)
      (hw : ∀ w t, n'.Storing p w t ↔ w = some id ∧ t = result.transport.state ∨ w ≠ some id ∧ n.Storing p w t)
  | stores (who : Option ℕ) (t : S.StatelessTransportState) (hold : n.Storing p who t)
      (hs : n'.sessionState p = some t) (hw : ∀ w u, n'.Storing p w u ↔ w ≠ who ∧ n.Storing p w u)
  | drops (hs : n'.sessionState p = none) (hw : ∀ w t, n'.Storing p w t ↔ n.Storing p w t)

theorem sessionState_of_same (h : n.engine.SameSessions n'.engine) (p : PeerId) :
    n'.sessionState p = n.sessionState p := by
  have hp := congrArg (Option.map Prod.fst) (h.sessions p)
  simpa only [sessionState, Option.map_map, Function.comp_def] using hp

theorem sessionState_of_sessions (h : n'.engine.sessions = n.engine.sessions) (p : PeerId) :
    n'.sessionState p = n.sessionState p := by
  simp only [sessionState, h]

theorem storing_of_completions (h : ∀ w, n'.completion w = n.completion w) (w : Option ℕ)
    (t : S.StatelessTransportState) : n'.Storing p w t ↔ n.Storing p w t := by
  simp only [Storing, h w]

theorem storing_of_updated {who : Option ℕ} {c : Option (Completion S)} (h : CompletionsUpdated n n' who c)
    (w : Option ℕ) (t : S.StatelessTransportState) :
    n'.Storing p w t ↔ (w = who ∧ ∃ d, c = some d ∧ d.peerId = p ∧ d.Unstored ∧ d.transport.state = t) ∨
      (w ≠ who ∧ n.Storing p w t) := by
  simp only [Storing, h w]
  by_cases hw : w = who <;> simp [hw]

/-- A new completion is about to be stored. -/
theorem storing_of_new {who : Option ℕ} {c : Completion S} (h : CompletionsUpdated n n' who (some c))
    (hc : c.Unstored) (hp : c.peerId = p) (w : Option ℕ) (t : S.StatelessTransportState) :
    n'.Storing p w t ↔ w = who ∧ t = c.transport.state ∨ w ≠ who ∧ n.Storing p w t := by
  rw [storing_of_updated h]
  refine or_congr_left (and_congr_right fun _ => ⟨?_, ?_⟩)
  · rintro ⟨d, hd, -, -, rfl⟩
    cases hd
    rfl
  · rintro rfl
    exact ⟨c, rfl, hp, hc, rfl⟩

/-- A completion of another peer, or one that is stored, does not count. -/
theorem storing_of_other {who : Option ℕ} {c : Option (Completion S)} (h : CompletionsUpdated n n' who c)
    (hnone : ∀ t, ¬ n.Storing p who t) (hc : ∀ d, c = some d → d.peerId = p → ¬ d.Unstored) (w : Option ℕ)
    (t : S.StatelessTransportState) : n'.Storing p w t ↔ n.Storing p w t := by
  rw [storing_of_updated h]
  constructor
  · rintro (⟨rfl, d, hd, hp, hu, -⟩ | ⟨-, ht⟩)
    · exact absurd hu (hc d hd hp)
    · exact ht
  · intro ht
    refine .inr ⟨?_, ht⟩
    rintro rfl
    exact hnone t ht

theorem sessionState_run {c : Completion S} (h : n'.engine = (c.run blake3 n.engine).1) (hc : c.stage ≠ .session)
    (p : PeerId) : n'.sessionState p = n.sessionState p := by
  by_cases ha : c.stage = .addrIndex
  · simp only [sessionState, h, Completion.run, ha, Engine.insertAddrIndex]
  · refine sessionState_of_same ?_ p
    rw [h]
    exact Completion.run_sameSessions blake3 hc ha

theorem peerEffect_advances {who : Option ℕ} {c : Completion S} (hsome : n.completion who = some c)
    (hs : n'.engine = (c.run blake3 n.engine).1) (hc : CompletionsUpdated n n' who c.next) :
    PeerEffect p n n' a := by
  have hold : ∀ t, n.Storing p who t → c.peerId = p ∧ c.Unstored ∧ c.transport.state = t := by
    rintro t ⟨d, hd, h⟩
    rw [hsome] at hd
    cases hd
    exact h
  by_cases hpath : c.stage = .relayPath
  · -- still to be stored
    refine .same (sessionState_run hs (by simp [hpath]) p) fun w t => ?_
    have hnext : c.next = some { c with stage := .session } := by simp only [Completion.next, hpath]
    rw [storing_of_updated hc, hnext]
    constructor
    · rintro (⟨rfl, d, hd, hp, hu, ht⟩ | ⟨-, ht⟩)
      · cases hd
        exact ⟨c, hsome, hp, .inl hpath, ht⟩
      · exact ht
    · intro ht
      by_cases hw : w = who
      · subst hw
        obtain ⟨hp, -, ht⟩ := hold t ht
        exact .inl ⟨rfl, _, rfl, hp, .inr rfl, ht⟩
      · exact .inr ⟨hw, ht⟩
  · have hnext : ∀ d, c.next = some d → d.peerId = p → ¬ d.Unstored :=
      fun d hd _ => Completion.not_unstored_of_next hpath hd
    by_cases hses : c.stage = .session
    · simp only [Completion.run, hses] at hs
      by_cases hp : c.peerId = p
      · refine .stores who c.transport.state ⟨c, hsome, hp, .inr hses, rfl⟩ ?_ fun w u => ?_
        · simp only [sessionState, hs, Engine.insertSession, Map.lookup_insert, hp, if_true, Option.map_some]
        · rw [storing_of_updated hc]
          constructor
          · rintro (⟨rfl, d, hd, hdp, hu, -⟩ | h)
            · exact absurd hu (hnext d hd hdp)
            · exact h
          · exact .inr
      · refine .same ?_ (storing_of_other hc (fun t ht => hp (hold t ht).1) hnext)
        simp only [sessionState, hs, Engine.insertSession, Map.lookup_insert, if_neg (Ne.symm hp)]
    · refine .same (sessionState_run hs hses p) (storing_of_other hc (fun t ht => ?_) hnext)
      exact (hold t ht).2.1.elim hpath hses

variable (blake3 n a p) in
theorem peerEffect : PeerEffect p n (n.next blake3 a) a := by
  have hnever : ∀ who, n.completion who = none → ∀ t, ¬ n.Storing p who t := by
    rintro who hnone t ⟨c, hc, -⟩
    cases hnone.symm.trans hc
  cases effect blake3 n a with
  | quiet hs hr hc => exact .same (sessionState_of_same hs p) (storing_of_completions hc)
  | accepts arrival responder created result ha hpunch hpending hfinish hs hr hnone hc =>
      have hses := sessionState_of_sessions (congrArg Engine.sessions hs) p
      by_cases hp : PeerId.fromBytes result.transport.remoteStatic = p
      · exact .accepts arrival responder created result ha hpunch hpending hfinish hp hses (hnever none hnone)
          (storing_of_new hc (.inl rfl) hp)
      · refine .same hses (storing_of_other hc (hnever none hnone) fun d hd hdp => ?_)
        cases hd
        exact absurd hdp hp
  | answers id token attempt data result ha hattempt hstage hinbox hanswer hs hr hnone hc =>
      have hses := sessionState_of_sessions (congrArg Engine.sessions hs) p
      by_cases hp : PeerId.fromBytes result.transport.remoteStatic = p
      · exact .answers id token attempt data result ha hattempt hstage hinbox hanswer hp hses
          (hnever (some id) hnone) (storing_of_new hc (.inl rfl) hp)
      · refine .same hses (storing_of_other hc (hnever (some id) hnone) fun d hd hdp => ?_)
        cases hd
        exact absurd hdp hp
  | advances who c ha hsome hs hr hc => exact peerEffect_advances hsome hs hc
  | removes id session hlookup hnone hs hr hc =>
      by_cases hp : p = id
      · refine .drops ?_ (storing_of_completions hc)
        simp only [sessionState, hs, Engine.removeSession, Map.lookup_erase, hp, if_true, Option.map_none]
      · refine .same ?_ (storing_of_completions hc)
        simp only [sessionState, hs, Engine.removeSession, Map.lookup_erase, if_neg hp]
  | cleans underlay ha hsome hs hr hc =>
      exact .same (sessionState_of_sessions (by rw [hs]; rfl) p) (storing_of_completions hc)
  | forgets addr ha hsome hs hr hc =>
      exact .same (sessionState_of_sessions (by rw [hs]; rfl) p) (storing_of_completions hc)

/-- A message C for `p` goes out in the step after which its task is about to store the session. -/
theorem storing_of_sent {d : Datagram S} {t : SecureTransport S} (hd : d ∈ (n.step blake3 a).out)
    (ho : d.origin = .messageC t) (hp : PeerId.fromBytes t.remoteStatic = p) (hne : p ≠ n.engine.ourPeerId) :
    ∃ id token attempt data result, a = .attempt id true token ∧ n.attempts.lookup id = some attempt ∧
      attempt.inbox = some data ∧ attempt.answer data = .ok result ∧ t = result.transport ∧
      (n.next blake3 a).Storing p (some id) t.state ∧ ∀ u, ¬ n.Storing p (some id) u := by
  cases mem_out hd with
  | messageC id token attempt data result hattempt hstage hinbox hanswer =>
      cases ho
      have hnot : PeerId.fromBytes result.transport.remoteStaticKey ≠ n.engine.ourPeerId := fun h => hne (hp ▸ h)
      refine ⟨id, token, attempt, data, result, rfl, hattempt, hinbox, hanswer, rfl, ?_, ?_⟩
      · let c : Completion S :=
          { initiator := true
            peerId := .fromBytes result.transport.remoteStaticKey
            underlay := .udp attempt.addr
            transport := result.transport }
        have hnext : n.next blake3 (.attempt id true token) = n.setStage id attempt (.complete c) := by
          simp only [next, step, attemptStep, hattempt, hstage, hinbox, onMessageB, hanswer, Bool.not_true,
            Bool.false_eq_true, if_false, if_neg hnot, c]
        rw [hnext]
        refine ⟨c, ?_, hp, .inl rfl, rfl⟩
        rw [completion_setStage hattempt, if_pos rfl]
        rfl
      · rintro u ⟨c, hc, -⟩
        rw [completion_some_of_lookup hattempt, hstage] at hc
        cases hc
  | encrypted a d state nonce msg horigin hsealed => cases horigin.symm.trans ho
  | messageA | messageB | holePunch => cases ho

end Node

/-! ### The simulation -/

namespace Net

variable {blake3 : Blake3} {addr : Bool → SocketAddr} {peer : Bool → PeerId} {s s' : Net S}
  {t t' : Agreement.State S.StatelessTransportState}

/-- The pairing that `Agreement` is about: the two ends of one handshake. -/
def Ends (networkSecret : Bytes32) (key : Bool → Bytes32) (x : Bool) (ti tr : S.StatelessTransportState) : Prop :=
  SameHandshake networkSecret (key x) (key (!x)) ti tr

/-- The sessions of the nodes with each other, stored and about to be stored, are the keys of `t`, and a
message C in flight is its offer. -/
structure Simulates (peer : Bool → PeerId) (s : Net S) (t : Agreement.State S.StatelessTransportState) : Prop where
  stored : ∀ x, t.stored x = (s.node x).sessionState (peer (!x))
  storing : ∀ x u, t.storing x = some u ↔ ∃ who, (s.node x).Storing (peer (!x)) who u
  unique : ∀ x who who' u u', (s.node x).Storing (peer (!x)) who u → (s.node x).Storing (peer (!x)) who' u' →
    who = who'
  offer : ∀ x d tr, (x, d) ∈ s.inFlight → d.origin = .messageC tr → PeerId.fromBytes tr.remoteStatic = peer (!x) →
    t.offer = some (x, tr.state) ∧ ∀ i u, ¬ (s.node (!x)).Storing (peer x) (some i) u

/-- It is enough to look at the node that has made a step. -/
theorem Simulates.moved (h : Simulates peer s t) {x : Bool} {n' : Node S} (hnode : s'.node = update s.node x n')
    (hother : t'.stored (!x) = t.stored (!x) ∧ t'.storing (!x) = t.storing (!x))
    (hstored : t'.stored x = n'.sessionState (peer (!x)))
    (hstoring : ∀ u, t'.storing x = some u ↔ ∃ who, n'.Storing (peer (!x)) who u)
    (hunique : ∀ who who' u u', n'.Storing (peer (!x)) who u → n'.Storing (peer (!x)) who' u' → who = who')
    (hoffer : ∀ y d tr, (y, d) ∈ s'.inFlight → d.origin = .messageC tr →
      PeerId.fromBytes tr.remoteStatic = peer (!y) →
      t'.offer = some (y, tr.state) ∧ ∀ i u, ¬ (s'.node (!y)).Storing (peer y) (some i) u) :
    Simulates peer s' t' := by
  have hx : s'.node x = n' := by rw [hnode, Function.update_self]
  have hy : s'.node (!x) = s.node (!x) := by rw [hnode, Function.update_of_ne (Bool.self_ne_not x).symm]
  refine ⟨fun y => ?_, fun y u => ?_, fun y => ?_, hoffer⟩
  · rcases Bool.eq_or_eq_not y x with rfl | rfl
    · rw [hx]
      exact hstored
    · rw [hy, hother.1]
      exact h.stored _
  · rcases Bool.eq_or_eq_not y x with rfl | rfl
    · rw [hx]
      exact hstoring u
    · rw [hy, hother.2]
      exact h.storing _ u
  · rcases Bool.eq_or_eq_not y x with rfl | rfl
    · rw [hx]
      exact hunique
    · rw [hy]
      exact h.unique _

/-- `Simulates.moved`, when one completion alone is about to store its session. -/
theorem Simulates.moved_single (h : Simulates peer s t) {x : Bool} {n' : Node S} (hnode : s'.node = update s.node x n')
    (hother : t'.stored (!x) = t.stored (!x) ∧ t'.storing (!x) = t.storing (!x))
    (hstored : t'.stored x = n'.sessionState (peer (!x))) {who : Option ℕ} {u : S.StatelessTransportState}
    (hstoring : t'.storing x = some u) (hw : ∀ w v, n'.Storing (peer (!x)) w v ↔ w = who ∧ v = u)
    (hoffer : ∀ y d tr, (y, d) ∈ s'.inFlight → d.origin = .messageC tr →
      PeerId.fromBytes tr.remoteStatic = peer (!y) →
      t'.offer = some (y, tr.state) ∧ ∀ i u, ¬ (s'.node (!y)).Storing (peer y) (some i) u) :
    Simulates peer s' t' := by
  refine h.moved hnode hother hstored (fun v => ?_) (fun w w' v v' hst hst' => ?_) hoffer
  · simp only [hstoring, hw, Option.some.injEq]
    exact ⟨fun hu => ⟨who, rfl, hu.symm⟩, fun ⟨_, _, hu⟩ => hu.symm⟩
  · exact ((hw w v).mp hst).1.trans ((hw w' v').mp hst').1.symm

theorem Simulates.storing_eq_none (h : Simulates peer s t) {x : Bool}
    (hnone : ∀ who u, ¬ (s.node x).Storing (peer (!x)) who u) : t.storing x = none := by
  refine Option.eq_none_iff_forall_ne_some.mpr fun u hu => ?_
  obtain ⟨who, hst⟩ := (h.storing x u).mp hu
  exact hnone who u hst

variable {publicKey : Bytes32 → Bytes32} {networkSecret : Bytes32} {key : Bool → Bytes32}

/-- The inbound loop of `x` accepts a message C. -/
theorem Simulates.accepts (h : Simulates peer s t) (hne : ∀ x, peer x ≠ peer (!x)) {x : Bool}
    (laws : S.Authentic publicKey networkSecret) (hhonest : s.Honest networkSecret key)
    (hkeys : ∀ x, peer x = .fromBytes (publicKey (key x))) {arrival : Arrival S} {responder : ResponderHandshake S}
    {created : ℕ} {result : HandshakeResult S} (hrecv : ∃ y d, (y, d) ∈ s.inFlight ∧ arrival.data = d.bytes)
    (hpunch : startsWith arrival.data holePunchProbePrefix = false)
    (hpending : (s.node x).pendingResponders.lookup arrival.fromAddr.socketAddr = some (responder, created))
    (hfinish : responder.finish arrival.data = .ok result)
    (hpeer : PeerId.fromBytes result.transport.remoteStatic = peer (!x)) :
    ∃ tr, t.offer = some (!x, tr) ∧ Ends networkSecret key (!x) tr result.transport.state ∧
      ∀ i u, ¬ (s.node x).Storing (peer (!x)) (some i) u := by
  obtain ⟨y, d, hin, hdata⟩ := hrecv
  rw [hdata] at hpunch hfinish
  obtain ⟨msgB, hB⟩ := (hhonest.node x).responders _ _ _ hpending
  have hgenuine := hhonest.datagram _ hin
  -- what the responder accepts is a message C, of the node that the session is with
  have hend := responderEnd_of_finish hB hfinish
  obtain ⟨payload, state, hread, -⟩ := ResponderHandshake.finish_eq_ok hfinish
  obtain ⟨tr, ho⟩ := laws.rejects _ _ _ hB _ d hgenuine hpunch _ _ hread
  have hstart : Snow.InitiatorEnd networkSecret (key y) d.bytes tr := by
    simpa only [Datagram.Genuine, ho] using hgenuine
  obtain ⟨hr, hi⟩ := laws.statics _ _ _ _ _ hstart hend
  have hy : y = !x := by
    rcases Bool.eq_or_eq_not y x with rfl | hy
    · rw [hi, ← hkeys] at hpeer
      exact absurd hpeer (hne y)
    · exact hy
  subst hy
  obtain ⟨hoffer, hbusy⟩ := h.offer (!x) d tr hin ho (by rw [hr, Bool.not_not, hkeys])
  rw [Bool.not_not] at hbusy
  refine ⟨tr.state, hoffer, ⟨d.bytes, tr, result.transport, hstart, ?_, rfl, rfl⟩, hbusy⟩
  rw [Bool.not_not]
  exact hend

section Step

variable (h : Simulates peer s t) (hids : ∀ x, (s.node x).engine.ourPeerId = peer x) (hne : ∀ x, peer x ≠ peer (!x))
  {x : Bool} {b : NodeAction S} (hnode : s'.node = Function.update s.node x ((s.node x).next blake3 b))
  (hflight : ∀ p ∈ s'.inFlight, p ∈ s.inFlight ∨ p.1 = x ∧ p.2 ∈ ((s.node x).step blake3 b).out)
include h hids hne hnode hflight

/-- A step that makes no initiator store a session sends no message C. -/
theorem Simulates.offer_of_step
    (hsub : ∀ i u, ((s.node x).next blake3 b).Storing (peer (!x)) (some i) u → (s.node x).Storing (peer (!x)) (some i) u)
    (y : Bool) (d : Datagram S) (tr : SecureTransport S) (hin : (y, d) ∈ s'.inFlight) (ho : d.origin = .messageC tr)
    (hpeer : PeerId.fromBytes tr.remoteStatic = peer (!y)) :
    t.offer = some (y, tr.state) ∧ ∀ i u, ¬ (s'.node (!y)).Storing (peer y) (some i) u := by
  have hold : (y, d) ∈ s.inFlight := by
    rcases hflight _ hin with hold | ⟨rfl, hout⟩
    · exact hold
    · obtain ⟨id, token, attempt, data, result, -, -, -, -, -, hst, hnot⟩ :=
        Node.storing_of_sent hout ho hpeer (hids y ▸ (hne y).symm)
      exact absurd (hsub id _ hst) (hnot _)
  obtain ⟨hoffer, hbusy⟩ := h.offer y d tr hold ho hpeer
  refine ⟨hoffer, fun i u hst => ?_⟩
  rw [hnode] at hst
  rcases Bool.eq_or_eq_not (!y) x with hy | hy
  · rw [hy, Function.update_self] at hst
    obtain rfl : y = !x := by rw [← hy, Bool.not_not]
    rw [Bool.not_not] at hbusy
    exact hbusy i u (hsub i u hst)
  · rw [hy, Function.update_of_ne (Bool.self_ne_not x).symm, ← hy] at hst
    exact hbusy i u hst

/-- A completion stores its session. -/
theorem Simulates.step_stores {who : Option ℕ} {u : S.StatelessTransportState}
    (hold : (s.node x).Storing (peer (!x)) who u)
    (hs : ((s.node x).next blake3 b).sessionState (peer (!x)) = some u)
    (hw : ∀ w v, ((s.node x).next blake3 b).Storing (peer (!x)) w v ↔ w ≠ who ∧ (s.node x).Storing (peer (!x)) w v) :
    ∃ t', ReflTransGen (Agreement.Step (Ends networkSecret key)) t t' ∧ Simulates peer s' t' := by
  refine ⟨_, .single (.store t x u ((h.storing x u).mpr ⟨who, hold⟩)), h.moved hnode ⟨?_, ?_⟩ ?_ (fun v => ?_) ?_
    (h.offer_of_step hids hne hnode hflight fun i v hst => ((hw _ v).mp hst).2)⟩
  · exact Function.update_of_ne (Bool.self_ne_not x).symm _ _
  · exact Function.update_of_ne (Bool.self_ne_not x).symm _ _
  · simp only [Function.update_self, hs]
  · simp only [Function.update_self]
    refine ⟨fun hv => (by cases hv), ?_⟩
    rintro ⟨w, hst⟩
    obtain ⟨hne', hst⟩ := (hw w v).mp hst
    exact absurd (h.unique x w who v u hst hold) hne'
  · intro w w' v v' hst hst'
    exact h.unique x w w' v v' ((hw w v).mp hst).2 ((hw w' v').mp hst').2

/-- The inbound loop has accepted a message C, which was the open offer. -/
theorem Simulates.step_accepts {tr u : S.StatelessTransportState} (hoffer : t.offer = some (!x, tr))
    (hends : Ends networkSecret key (!x) tr u) (hfree : ∀ who v, ¬ (s.node x).Storing (peer (!x)) who v)
    (hs : ((s.node x).next blake3 b).sessionState (peer (!x)) = (s.node x).sessionState (peer (!x)))
    (hw : ∀ w v, ((s.node x).next blake3 b).Storing (peer (!x)) w v ↔ w = none ∧ v = u) :
    ∃ t', ReflTransGen (Agreement.Step (Ends networkSecret key)) t t' ∧ Simulates peer s' t' := by
  refine ⟨_, .single (.accept t (!x) tr u hoffer hends ?_), h.moved_single hnode ⟨rfl, ?_⟩ ((h.stored x).trans hs.symm)
    ?_ hw (h.offer_of_step hids hne hnode hflight fun i v hst => ?_)⟩
  · rw [Bool.not_not]
    exact h.storing_eq_none hfree
  · rw [Bool.not_not]
    exact Function.update_of_ne (Bool.self_ne_not x).symm _ _
  · rw [Bool.not_not]
    exact Function.update_self ..
  · cases ((hw _ v).mp hst).1

omit hids hne in
/-- An initiator has answered message B, with nothing in the way of its offer. -/
theorem Simulates.step_answers (hcall : s.Alone x) {id : ℕ} {u : S.StatelessTransportState}
    (hsent : ∀ d tr, d ∈ ((s.node x).step blake3 b).out → d.origin = .messageC tr →
      PeerId.fromBytes tr.remoteStatic = peer (!x) → tr.state = u)
    (hs : ((s.node x).next blake3 b).sessionState (peer (!x)) = (s.node x).sessionState (peer (!x)))
    (hw : ∀ w v, ((s.node x).next blake3 b).Storing (peer (!x)) w v ↔ w = some id ∧ v = u)
    (hpeer : (s.node x).engine.ourPeerId = peer x) :
    ∃ t', ReflTransGen (Agreement.Step (Ends networkSecret key)) t t' ∧ Simulates peer s' t' := by
  have hfree : ∀ y who v, ¬ (s.node y).Storing (peer (!y)) who v := by
    rintro y who v ⟨c, hc, -, hv, -⟩
    exact hcall.stored y who c hc hv
  have hopen : { t with offer := none }.Free x := by
    refine ⟨rfl, fun y => h.storing_eq_none (hfree y), ?_⟩
    have hnot := hcall.session
    rw [hpeer, ← AList.lookup_eq_none] at hnot
    rw [h.stored, Bool.not_not, Node.sessionState, hnot]
    rfl
  refine ⟨_, (ReflTransGen.single (.withdraw t)).tail (.offer _ x u hopen), h.moved_single hnode ⟨rfl, ?_⟩
    ((h.stored x).trans hs.symm) (Function.update_self ..) hw fun y d tr hin ho hrel => ?_⟩
  · exact Function.update_of_ne (Bool.self_ne_not x).symm _ _
  · -- the only message C in flight is the one that was just sent
    rcases hflight _ hin with hold | ⟨rfl, hout⟩
    · have hC := hcall.inFlight _ hold
      simp only [ho, Origin.isMessageC, Bool.true_eq_false] at hC
    · refine ⟨by rw [hsent d tr hout ho hrel], fun i v hst => ?_⟩
      rw [hnode, Function.update_of_ne (Bool.self_ne_not y).symm] at hst
      have hno := hfree (!y) (some i) v
      rw [Bool.not_not] at hno
      exact hno hst

/-- Every step is matched by steps of `Agreement`. -/
theorem Simulates.step (laws : S.Authentic publicKey networkSecret) (hhonest : s.Honest networkSecret key)
    (hkeys : ∀ x, peer x = .fromBytes (publicKey (key x)))
    (hrecv : ∀ arrival, b = .receive arrival → ∃ y d, (y, d) ∈ s.inFlight ∧ arrival.data = d.bytes)
    (halone : ∀ id token, b = .attempt id true token → (s.node x).takesMessageB id = true → s.Alone x) :
    ∃ t', ReflTransGen (Agreement.Step (Ends networkSecret key)) t t' ∧ Simulates peer s' t' := by
  have hofferOf := h.offer_of_step hids hne hnode hflight
  cases Node.peerEffect blake3 (s.node x) b (peer (!x)) with
  | same hs hw =>
      refine ⟨t, .refl, h.moved hnode ⟨rfl, rfl⟩ ((h.stored x).trans hs.symm) (fun u => ?_) ?_
        (hofferOf fun i u => (hw _ u).mp)⟩
      · simp only [hw]
        exact h.storing x u
      · simp only [hw]
        exact h.unique x
  | drops hs hw =>
      refine ⟨_, .single (.drop t x), h.moved hnode ⟨?_, rfl⟩ ?_ (fun u => ?_) ?_ (hofferOf fun i u => (hw _ u).mp)⟩
      · exact Function.update_of_ne (Bool.self_ne_not x).symm _ _
      · simp only [Function.update_self, hs]
      · simp only [hw]
        exact h.storing x u
      · simp only [hw]
        exact h.unique x
  | stores who u hold hs hw => exact h.step_stores hids hne hnode hflight hold hs hw
  | accepts arrival responder created result ha hpunch hpending hfinish hpeer hs hnone hw =>
      obtain ⟨tr, hoffer, hends, hbusy⟩ := h.accepts hne laws hhonest hkeys (hrecv arrival ha) hpunch hpending hfinish
        hpeer
      have hfree : ∀ who u, ¬ (s.node x).Storing (peer (!x)) who u := fun who u => by
        cases who with
        | none => exact hnone u
        | some i => exact hbusy i u
      exact h.step_accepts hids hne hnode hflight hoffer hends hfree hs
        fun w u => (hw w u).trans (or_iff_left fun hst => hfree w u hst.2)
  | answers id token attempt data result ha hattempt hstage hinbox hanswer hpeer hs hnone hw =>
      subst ha
      have hcall : s.Alone x := halone id token rfl (by
        simp only [Node.takesMessageB, hattempt, hstage, hinbox])
      have hw' : ∀ w u, ((s.node x).next blake3 (.attempt id true token)).Storing (peer (!x)) w u ↔
          w = some id ∧ u = result.transport.state := fun w u => (hw w u).trans (or_iff_left fun hst => by
        obtain ⟨c, hc, -, hu, -⟩ := hst.2
        exact hcall.stored x w c hc hu)
      refine h.step_answers hnode hflight hcall (fun d tr hout ho hrel => ?_) hs hw' (hids x)
      obtain ⟨id', token', attempt', data', result', ha', -, -, -, rfl, hst, -⟩ :=
        Node.storing_of_sent hout ho hrel (hids x ▸ (hne x).symm)
      exact ((hw' _ _).mp hst).2

end Step

/-! ### Runs -/

/-- What holds in every run that keeps to `OneAtATime`. -/
structure Invariant (networkSecret : Bytes32) (key : Bool → Bytes32) (peer : Bool → PeerId) (s : Net S) : Prop where
  honest : s.Honest networkSecret key
  ourPeerId : ∀ x, (s.node x).engine.ourPeerId = peer x
  simulates : ∃ t, ReflTransGen (Agreement.Step (Ends networkSecret key)) .empty t ∧ Simulates peer s t

variable {publicKey : Bytes32 → Bytes32} {networkSecret : Bytes32} {key : Bool → Bytes32}

theorem invariant_start (h : s.Started publicKey networkSecret) :
    s.Invariant networkSecret s.staticKey fun x => .fromBytes (publicKey (s.staticKey x)) where
  honest := by
    refine ⟨fun x => ?_, fun p hp => ?_⟩
    · obtain ⟨hsecret, -, -, -, hattempts, hresponders, -⟩ := h.node x
      refine ⟨hsecret, rfl, fun id attempt hat => ?_, fun sa r created hr => ?_⟩
      · rw [hattempts] at hat
        cases hat
      · rw [hresponders] at hr
        cases hr
    · rw [h.inFlight] at hp
      cases hp
  ourPeerId := by
    intro x
    rw [(h.node x).ourPeerId_eq, DeviceKeys.peerId, (h.node x).publicKey_eq]
    rfl
  simulates := by
    have hnone : ∀ x p who u, ¬ (s.node x).Storing p who u := by
      rintro x p who u ⟨c, hc, -⟩
      cases who with
      | none =>
          rw [Node.completion_inbound, (h.node x).inbound] at hc
          cases hc
      | some id =>
          simp only [Node.completion, (h.node x).attempts, AList.lookup_empty, Option.bind_none] at hc
          cases hc
    refine ⟨_, .refl, fun x => ?_, fun x u => ?_, fun x who who' u u' hst => ?_, fun x d tr hin => ?_⟩
    · simp only [Node.sessionState, (h.node x).sessions, AList.lookup_empty, Option.map_none, Agreement.State.empty]
    · refine ⟨fun hu => (by cases hu), ?_⟩
      rintro ⟨who, hst⟩
      exact absurd hst (hnone x _ who u)
    · exact absurd hst (hnone x _ who u)
    · rw [h.inFlight] at hin
      cases hin

/-- One step of the network, for the node `x` that makes the step `b`. -/
theorem Invariant.step (laws : S.Authentic publicKey networkSecret)
    (hkeys : ∀ x, peer x = .fromBytes (publicKey (key x))) (hne : ∀ x, peer x ≠ peer (!x))
    (h : s.Invariant networkSecret key peer) {x : Bool} {b : NodeAction S}
    (hnode : s'.node = Function.update s.node x ((s.node x).next blake3 b))
    (hflight : ∀ p ∈ s'.inFlight, p ∈ s.inFlight ∨ p.1 = x ∧ p.2 ∈ ((s.node x).step blake3 b).out)
    (hrecv : ∀ arrival, b = .receive arrival → ∃ y d, (y, d) ∈ s.inFlight ∧ arrival.data = d.bytes)
    (halone : ∀ id token, b = .attempt id true token → (s.node x).takesMessageB id = true → s.Alone x) :
    s'.Invariant networkSecret key peer where
  honest := h.honest.step hnode hflight
  ourPeerId := by
    rw [hnode]
    refine (Function.forall_update_iff s.node fun y n => n.engine.ourPeerId = peer y).mpr ⟨?_, fun y _ => h.ourPeerId y⟩
    rw [(Node.next_identity blake3 _ b).1]
    exact h.ourPeerId x
  simulates := by
    obtain ⟨t, hrun, hsim⟩ := h.simulates
    obtain ⟨t', hrun', hsim'⟩ :=
      hsim.step h.ourPeerId hne hnode hflight laws h.honest hkeys hrecv halone
    exact ⟨t', hrun.trans hrun', hsim'⟩

/-- What one action of the network preserves. -/
theorem Invariant.next (laws : S.Authentic publicKey networkSecret)
    (hkeys : ∀ x, peer x = .fromBytes (publicKey (key x))) (hne : ∀ x, peer x ≠ peer (!x))
    (h : s.Invariant networkSecret key peer) {a : Net.Action S} (hok : s.OneAtATime a) :
    (s.next blake3 addr a).Invariant networkSecret key peer := by
  cases moves blake3 addr s a with
  | still hnode hflight =>
      obtain ⟨t, hrun, hsim⟩ := h.simulates
      refine ⟨h.honest.next a, fun x => hnode ▸ h.ourPeerId x, t, hrun, ?_⟩
      exact ⟨hnode ▸ hsim.stored, hnode ▸ hsim.storing, hnode ▸ hsim.unique,
        fun x d tr hin => hnode ▸ hsim.offer x d tr (hflight _ hin)⟩
  | own x b ha hb hnode hflight =>
      refine h.step laws hkeys hne hnode hflight (fun arrival he => absurd he (hb arrival)) fun id token he htakes => ?_
      subst ha he
      exact hok x (if_pos htakes)
  | receives y x d arr hin hdata hnode hflight =>
      refine h.step laws hkeys hne hnode hflight (fun arrival he => ?_) fun id token he => by cases he
      cases he
      exact ⟨x, d, hin, hdata⟩

theorem Agree.same (h : s.Agree networkSecret) {u v : S.StatelessTransportState}
    (hu : (s.node false).sessionState (s.node true).engine.ourPeerId = some u)
    (hv : (s.node true).sessionState (s.node false).engine.ourPeerId = some v) :
    SameHandshake networkSecret (s.staticKey false) (s.staticKey true) u v ∨
      SameHandshake networkSecret (s.staticKey true) (s.staticKey false) v u := by
  obtain ⟨a, ha, rfl⟩ := Option.map_eq_some_iff.mp hu
  obtain ⟨b, hb, rfl⟩ := Option.map_eq_some_iff.mp hv
  exact (h a b ha hb).1

/-- Nodes at rest agree. -/
theorem Invariant.agree (laws : S.Authentic publicKey networkSecret) (h : s.Invariant networkSecret key peer)
    (hq : s.Quiescent) : s.Agree networkSecret := by
  obtain ⟨t, hrun, hsim⟩ := h.simulates
  have hagreed := Agreement.agreed_of_reachable hrun
  have hlatest : ∀ x, t.latest x = (s.node x).sessionState (peer (!x)) := by
    intro x
    have hnone : t.storing x = none := by
      refine Option.eq_none_iff_forall_ne_some.mpr fun u hu => ?_
      obtain ⟨who, c, hc, -⟩ := (hsim.storing x u).mp hu
      cases who with
      | none =>
          rw [Node.completion_inbound, hq.inbound x] at hc
          cases hc
      | some id =>
          simp only [Node.completion, Map.lookup_of_len_eq_zero (hq.attempts x), Option.bind_none] at hc
          cases hc
    rw [Agreement.State.latest, hnone, Option.none_or, hsim.stored]
  have hkey : s.staticKey = key := funext fun x => (h.honest.node x).key_eq
  intro a b ha hb
  rw [h.ourPeerId] at ha hb
  have ha' : t.latest false = some a.transport.state := by
    rw [hlatest, Node.sessionState, Bool.not_false, ha, Option.map_some]
  have hb' : t.latest (!false) = some b.transport.state := by
    rw [hlatest, Node.sessionState, Bool.not_not, Bool.not_false, hb, Option.map_some]
  have hsame := hagreed.paired false _ _ ha' hb'
  rw [hkey]
  refine ⟨hsame, ?_⟩
  rcases hsame with hends | hends
  · obtain ⟨hreads, hreads'⟩ := laws.reads _ _ _ _ hends
    exact ⟨laws.decrypts hreads, laws.decrypts hreads'⟩
  · obtain ⟨hreads, hreads'⟩ := laws.reads _ _ _ _ hends
    exact ⟨laws.decrypts hreads', laws.decrypts hreads⟩

end Net

/-- **Session agreement.**  In every run of two nodes whose steps all meet `OneAtATime`, and in every
quiescent state of it, the sessions of the two nodes with each other are the two ends of one
handshake. -/
theorem sessions_agree {publicKey : Bytes32 → Bytes32} {networkSecret : Bytes32}
    (laws : S.Authentic publicKey networkSecret) (blake3 : Blake3) (addr : Bool → SocketAddr) (s : Net S)
    (hstart : s.Started publicKey networkSecret)
    (hne : (s.node false).engine.ourPeerId ≠ (s.node true).engine.ourPeerId) (as : List (Net.Action S))
    (hok : Along (Net.next blake3 addr) Net.OneAtATime s as)
    (hq : (exec (Net.next blake3 addr) s as).Quiescent) :
    (exec (Net.next blake3 addr) s as).Agree networkSecret := by
  have hinv := Net.invariant_start hstart
  have hpeers : ∀ x, PeerId.fromBytes (publicKey (s.staticKey x)) ≠ .fromBytes (publicKey (s.staticKey (!x))) := by
    intro x
    rw [← hinv.ourPeerId x, ← hinv.ourPeerId (!x)]
    cases x with
    | false => exact hne
    | true => exact hne.symm
  have hrun := hok.invariant (fun _ _ hI hstep => hI.next laws (fun _ => rfl) hpeers hstep) hinv
  exact hrun.agree laws hq

/-! ### Two runs -/

namespace Transparent

/-- The node 1 shakes hands with the node 2; every datagram is delivered. -/
def oneHandshake : List (Net.Action transparent) :=
  [startAt false 3, task false, arrive 0 4, arrive 0 5, loop false] ++ List.replicate 9 (task false) ++
    arrive 0 6 :: List.replicate 7 (loop true) ++ [arrive 0 7, arrive 0 8]

/-- The two nodes start handshakes with each other.  Both take message B, and send message C, before
either message C arrives; every datagram is delivered. -/
def crossing : List (Net.Action transparent) :=
  [startAt false 3, startAt true 5, task false, task true, arrive 0 14, arrive 0 16] ++
    [arrive 0 0, loop false, arrive 0 0, loop true] ++ List.replicate 9 (task false) ++
    List.replicate 9 (task true) ++ [arrive 0 0, arrive 1 0] ++ List.replicate 7 (loop true) ++
    List.replicate 7 (loop false) ++ List.replicate 4 (arrive 0 0)

theorem twoNodes_started : twoNodes.Started id secret where
  node x := by cases x <;> exact ⟨rfl, rfl, rfl, rfl, rfl, rfl, rfl⟩
  inFlight := rfl

end Transparent

open Transparent

/-- After one handshake both nodes have a session, and they agree. -/
theorem sessions_agree_handshake :
    ((exec (Net.next blake3 addrs) twoNodes oneHandshake).node false).sessionState (.replicate 2) = some ⟨true, 3, 4⟩ ∧
    ((exec (Net.next blake3 addrs) twoNodes oneHandshake).node true).sessionState (.replicate 1) = some ⟨false, 3, 4⟩ ∧
    (exec (Net.next blake3 addrs) twoNodes oneHandshake).Agree secret :=
  ⟨by decide +kernel, by decide +kernel, sessions_agree authentic blake3 addrs twoNodes twoNodes_started
    (by decide) oneHandshake (by decide +kernel) (by decide +kernel)⟩

/-- Two handshakes in opposite directions cross, and each node ends with the session in which it is the
responder. -/
theorem sessions_disagree :
    ¬ ∀ as : List (Net.Action transparent), (exec (Net.next blake3 addrs) twoNodes as).Quiescent →
      (exec (Net.next blake3 addrs) twoNodes as).Agree secret := by
  intro h
  have hsame := (h crossing (by decide +kernel)).same (u := ⟨false, 5, 16⟩) (v := ⟨false, 3, 14⟩)
    (by decide +kernel) (by decide +kernel)
  rcases hsame with hsame | hsame
  · exact absurd (peer_of_same hsame) (by decide)
  · exact absurd (peer_of_same hsame) (by decide)

end SeedNet
