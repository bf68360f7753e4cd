import SeedNet.Tasks

/-! # Where handshake states and datagrams come from

`Snow.WroteA`, `WroteB` and `WroteC` say how the state of a handshake and the message it wrote last came
about: by the calls that `noise.rs` makes, in their order.  `Snow.SameHandshake` is the relation between
the transports of the two ends of one handshake: an initiator wrote a message C that a responder
accepted.

`Node.Honest` is the invariant of a node that all handshake states it keeps have such a history, and
`Datagram.Genuine` says that a datagram was written as its origin claims.  `Node.mem_out` lists what
a step can send; `Node.Honest.next` and `Node.Honest.genuine` are the step lemmas. -/

namespace SeedNet

open Results (bind_eq_ok map_eq_ok mapError_eq_ok)

variable {S : Snow}

/-! ### Handshakes -/

namespace Snow

variable (networkSecret key : Bytes32)

/-- An initiator with the static key `key` has written message A, `m`. -/
def WroteA (state : S.HandshakeState) (m : Bytes) : Prop :=
  ∃ rng s₀, S.buildInitiator networkSecret.bytes key.bytes rng = .ok s₀ ∧ S.writeMessage s₀ [] = .ok (m, state)

/-- A responder has read message A, `msgA`, and written message B, `m`. -/
def Answered (msgA : Bytes) (state : S.HandshakeState) (m : Bytes) : Prop :=
  ∃ rng s₀ payload s₁, S.buildResponder networkSecret.bytes key.bytes rng = .ok s₀ ∧
    S.readMessage s₀ msgA = .ok (payload, s₁) ∧ S.writeMessage s₁ [] = .ok (m, state)

def WroteB (state : S.HandshakeState) (m : Bytes) : Prop := ∃ msgA, Answered networkSecret key msgA state m

/-- An initiator has read a message B and written message C, `m`. -/
def WroteC (state : S.HandshakeState) (m : Bytes) : Prop :=
  ∃ s₀ msgA msgB payload s₁, WroteA networkSecret key s₀ msgA ∧
    S.readMessage s₀ msgB = .ok (payload, s₁) ∧ S.writeMessage s₁ [] = .ok (m, state)

/-- `t` is the transport of an initiator that has written message C, `m`. -/
def InitiatorEnd (m : Bytes) (t : SecureTransport S) : Prop :=
  ∃ state, WroteC networkSecret key state m ∧ intoTransport state = .ok t

/-- `t` is the transport of a responder that has accepted message C, `m`. -/
def ResponderEnd (m : Bytes) (t : SecureTransport S) : Prop :=
  ∃ s₀ msgB payload state, WroteB networkSecret key s₀ msgB ∧
    S.readMessage s₀ m = .ok (payload, state) ∧ intoTransport state = .ok t

/-- The two ends of one handshake, of an initiator and of a responder. -/
def SameHandshake (initiatorKey responderKey : Bytes32) (ti tr : S.StatelessTransportState) : Prop :=
  ∃ m t t', InitiatorEnd networkSecret initiatorKey m t ∧ ResponderEnd networkSecret responderKey m t' ∧
    t.state = ti ∧ t'.state = tr

end Snow

open Snow (WroteA Answered WroteB InitiatorEnd ResponderEnd SameHandshake)

/-- The datagram was encrypted by a transport. -/
def Datagram.Sealed (d : Datagram S) (state : S.StatelessTransportState) (nonce : UInt64) (msg : Message) : Prop :=
  ∃ room ct, S.transportWrite state nonce (serializeMessage msg) room = .ok ct ∧ d.bytes = toLeBytes nonce ++ ct

/-- The datagram was written as its origin says, with the static key `key`. -/
def Datagram.Genuine (networkSecret key : Bytes32) (d : Datagram S) : Prop :=
  match d.origin with
  | .messageA => ∃ (state : S.HandshakeState) (m : Bytes),
      WroteA networkSecret key state m ∧ d.bytes = noiseHandshakeInitiatorPrefix ++ m
  | .messageB => ∃ (state : S.HandshakeState) (m : Bytes),
      WroteB networkSecret key state m ∧ d.bytes = noiseHandshakeResponderPrefix ++ m
  | .messageC t => InitiatorEnd networkSecret key d.bytes t
  | .encrypted state nonce msg => d.Sealed state nonce msg
  | .holePunch => startsWith d.bytes holePunchProbePrefix = true

/-! ### What is asked of Noise -/

/-- What the end `t` writes, the end `t'` reads. -/
def Snow.Reads (t t' : S.StatelessTransportState) : Prop :=
  ∀ nonce payload room ct, S.transportWrite t nonce payload room = .ok ct →
    ∀ room', payload.length ≤ room' → S.transportRead t' nonce ct room' = .ok payload

/-- Noise authenticates both ends of a handshake and their traffic. -/
structure Snow.Authentic (S : Snow) (publicKey : Bytes32 → Bytes32) (networkSecret : Bytes32) : Prop where
  /-- The two ends have proved their static keys to each other. -/
  statics : ∀ ki kr m (t t' : SecureTransport S), InitiatorEnd networkSecret ki m t → ResponderEnd networkSecret kr m t' →
    t.remoteStatic = publicKey kr ∧ t'.remoteStatic = publicKey ki
  reads : ∀ ki kr (t t' : S.StatelessTransportState), SameHandshake networkSecret ki kr t t' →
    Snow.Reads t t' ∧ Snow.Reads t' t
  /-- A ciphertext ends in a tag of 16 bytes. -/
  tagged : ∀ (t : S.StatelessTransportState) nonce payload room ct, S.transportWrite t nonce payload room = .ok ct →
    ct.length = payload.length + 16
  /-- A responder that waits for message C accepts nothing that was written as something else. -/
  rejects : ∀ kr (state : S.HandshakeState) msgB, WroteB networkSecret kr state msgB →
    ∀ key (d : Datagram S), d.Genuine networkSecret key → startsWith d.bytes holePunchProbePrefix = false →
      ∀ payload state', S.readMessage state d.bytes = .ok (payload, state') → ∃ t, d.origin = .messageC t

/-- The next datagram that `t` encrypts, `t'` decrypts, unless its window does not take the nonce. -/
def SecureTransport.Decrypts (t t' : SecureTransport S) : Prop :=
  ∀ p enc, (t.encrypt p).1 = .ok enc → t'.nonceWindow.fresh t.sendNonce = true → (t'.decrypt enc).1 = .ok p

theorem Snow.Authentic.decrypts {publicKey : Bytes32 → Bytes32} {networkSecret : Bytes32}
    (laws : S.Authentic publicKey networkSecret) {t t' : SecureTransport S} (h : Snow.Reads t.state t'.state) :
    t.Decrypts t' := by
  intro p enc henc hfresh
  unfold SecureTransport.encrypt at henc
  dsimp only at henc
  split at henc
  · cases henc
  · next ct hwrite =>
      obtain rfl := Except.ok.inj henc
      have hlen := laws.tagged _ _ _ _ _ hwrite
      rw [SecureTransport.decrypt, t'.checkHeader_of_fresh (by omega) hfresh]
      dsimp only
      rw [h _ _ _ _ hwrite ct.length (by omega)]

/-! What the wrappers of `noise.rs` and the calls in the tasks add to a history. -/

theorem Attempt.answer_eq_ok {attempt : Attempt S} {data : Bytes} {result : HandshakeResult S}
    (h : attempt.answer data = .ok result) :
    ∃ payload state state', S.readMessage attempt.handshake.state (data.drop noiseHandshakeResponderPrefix.length) =
        .ok (payload, state) ∧
      S.writeMessage state [] = .ok (result.msgBytes, state') ∧ intoTransport state' = .ok result.transport := by
  unfold Attempt.answer at h
  by_cases hpre : startsWith data noiseHandshakeResponderPrefix = true
  · rw [hpre] at h
    obtain ⟨⟨p, i⟩, hread, hrest⟩ := bind_eq_ok h
    obtain ⟨⟨p', s⟩, hread', hi⟩ := map_eq_ok hread
    cases hi
    obtain ⟨s', hwrite, ht⟩ := InitiatorHandshake.finish_eq_ok hrest
    exact ⟨p', s, s', readStep_eq_ok hread', hwrite, ht⟩
  · rw [Bool.not_eq_true] at hpre
    rw [hpre] at h
    cases h

theorem initiatorEnd_of_answer {networkSecret key : Bytes32} {attempt : Attempt S} {msgA data : Bytes}
    {result : HandshakeResult S} (hA : WroteA networkSecret key attempt.handshake.state msgA)
    (h : attempt.answer data = .ok result) : InitiatorEnd networkSecret key result.msgBytes result.transport := by
  obtain ⟨p, s, s', hread, hwrite, ht⟩ := Attempt.answer_eq_ok h
  exact ⟨s', ⟨_, msgA, _, p, s, hA, hread, hwrite⟩, ht⟩

theorem responderEnd_of_finish {networkSecret key : Bytes32} {r : ResponderHandshake S} {msgB msg : Bytes}
    {result : HandshakeResult S} (hB : WroteB networkSecret key r.state msgB) (h : r.finish msg = .ok result) :
    ResponderEnd networkSecret key msg result.transport := by
  obtain ⟨p, s, hread, ht⟩ := ResponderHandshake.finish_eq_ok h
  exact ⟨_, msgB, p, s, hB, hread, ht⟩

/-! ### What a message sent over a session looks like -/

namespace Engine

variable {e : Engine (SecureTransport S)}

theorem mem_transmitOne {s : Send} {d : Datagram S} (h : d ∈ (e.transmitOne s).2) :
    ∃ state nonce, d.origin = .encrypted state nonce s.msg ∧ d.Sealed state nonce s.msg := by
  unfold transmitOne at h
  cases hl : e.sessions.lookup s.peer with
  | none =>
      rw [hl] at h
      cases h
  | some session =>
      rw [hl] at h
      dsimp only [SecureTransport.encrypt] at h
      cases hw : S.transportWrite session.transport.state session.transport.sendNonce (serializeMessage s.msg)
          ((serializeMessage s.msg).length + 16) with
      | error err =>
          rw [hw] at h
          cases h
      | ok ct =>
          rw [hw] at h
          obtain rfl := List.mem_singleton.mp h
          exact ⟨_, _, rfl, _, ct, hw, rfl⟩

theorem mem_transmit {sends : List Send} {d : Datagram S} (h : d ∈ (e.transmit sends).2) :
    ∃ state nonce msg, d.origin = .encrypted state nonce msg ∧ d.Sealed state nonce msg := by
  induction sends generalizing e with
  | nil => cases h
  | cons s sends ih =>
      rcases List.mem_append.mp h with h | h
      · obtain ⟨state, nonce, h⟩ := mem_transmitOne h
        exact ⟨state, nonce, s.msg, h⟩
      · exact ih h

end Engine

theorem Completion.mem_run {blake3 : Blake3} {c : Completion S} {e : Engine (SecureTransport S)} {d : Datagram S}
    (h : d ∈ (c.run blake3 e).2) :
    ∃ state nonce msg, d.origin = .encrypted state nonce msg ∧ d.Sealed state nonce msg := by
  unfold Completion.run at h
  split at h
  · cases h
  · cases h
  · cases h
  · cases h
  · exact Engine.mem_transmit h
  · exact Engine.mem_transmit h
  · exact Engine.mem_transmit h
  · cases h

namespace Node

variable {blake3 : Blake3} {n : Node S} {a : NodeAction S}

/-! ### What a step sends -/

/-- The datagrams that the step `a` may send, by the line that sends them. -/
inductive Sends (n : Node S) : NodeAction S → Datagram S → Prop
  | messageA (id : ℕ) (token : UInt64) (attempt : Attempt S) (taggedA : Bytes)
      (hattempt : n.attempts.lookup id = some attempt) (hstage : attempt.stage = .sendA taggedA) :
      Sends n (.attempt id true token) { dst := .udp attempt.addr, bytes := taggedA, origin := .messageA }
  | messageB (arrival : Arrival S) (msgA msgB : Bytes) (responder : ResponderHandshake S)
      (hanswer : n.answer arrival msgA = .ok (msgB, responder)) :
      Sends n (.receive arrival)
        { dst := arrival.fromAddr, bytes := noiseHandshakeResponderPrefix ++ msgB, origin := .messageB }
  | messageC (id : ℕ) (token : UInt64) (attempt : Attempt S) (data : Bytes) (result : HandshakeResult S)
      (hattempt : n.attempts.lookup id = some attempt) (hstage : attempt.stage = .waitB)
      (hinbox : attempt.inbox = some data) (hanswer : attempt.answer data = .ok result) :
      Sends n (.attempt id true token)
        { dst := .udp attempt.addr, bytes := result.msgBytes, origin := .messageC result.transport }
  | encrypted (a : NodeAction S) (d : Datagram S) (state : S.StatelessTransportState) (nonce : UInt64)
      (msg : Message) (horigin : d.origin = .encrypted state nonce msg) (hsealed : d.Sealed state nonce msg) :
      Sends n a d
  | holePunch (a : NodeAction S) (dst : TransportAddr) (msg : Message) : Sends n a (punch dst msg)

theorem Sends.of_transmit {sends : List Send} {e : Engine (SecureTransport S)} {d : Datagram S}
    (h : d ∈ (e.transmit sends).2) : n.Sends a d := by
  obtain ⟨state, nonce, msg, ho, hs⟩ := Engine.mem_transmit h
  exact .encrypted a d state nonce msg ho hs

theorem Sends.of_run {c : Completion S} {e : Engine (SecureTransport S)} {d : Datagram S}
    (h : d ∈ (c.run blake3 e).2) : n.Sends a d := by
  obtain ⟨state, nonce, msg, ho, hs⟩ := Completion.mem_run h
  exact .encrypted a d state nonce msg ho hs

theorem mem_onData {arrival : Arrival S} {peerId : PeerId} {d : Datagram S}
    (h : d ∈ (n.onData blake3 arrival peerId).out) :
    ∃ state nonce msg, d.origin = .encrypted state nonce msg ∧ d.Sealed state nonce msg := by
  unfold onData at h
  split at h
  · cases h
  · split at h
    · cases h
    · dsimp only at h
      split at h
      · exact Engine.mem_transmit h
      · cases h

theorem mem_receive {arrival : Arrival S} {d : Datagram S} (h : d ∈ (n.receive blake3 arrival).out) :
    n.Sends (.receive arrival) d := by
  unfold receive at h
  dsimp only at h
  split at h
  · unfold onHolePunch at h
    split at h
    · simp only [List.mem_cons, List.not_mem_nil, or_false] at h
      rcases h with rfl | rfl <;> exact .holePunch _ _ _
    · cases h
  · split at h
    · cases h
    · split at h
      · unfold onMessageC at h
        dsimp only at h
        split at h <;> cases h
      · split at h
        · obtain ⟨state, nonce, msg, ho, hs⟩ := mem_onData h
          exact .encrypted _ d state nonce msg ho hs
        · split at h
          · unfold onMessageA at h
            split at h
            · next msgB responder hans =>
                obtain rfl := List.mem_singleton.mp h
                exact .messageB arrival _ msgB responder hans
            · cases h
          · cases h

theorem mem_attemptStep {id : ℕ} {sent : Bool} {token : UInt64} {d : Datagram S}
    (h : d ∈ (n.attemptStep blake3 id sent token).out) : n.Sends (.attempt id sent token) d := by
  unfold attemptStep at h
  cases hat : n.attempts.lookup id with
  | none =>
      rw [hat] at h
      cases h
  | some attempt =>
      rw [hat] at h
      dsimp only at h
      cases hstage : attempt.stage with
      | sendA taggedA =>
          rw [hstage] at h
          cases sent with
          | false => cases h
          | true =>
              obtain rfl := List.mem_singleton.mp h
              exact .messageA id token attempt taggedA hat hstage
      | waitB =>
          rw [hstage] at h
          cases hinbox : attempt.inbox with
          | none =>
              rw [hinbox] at h
              cases h
          | some data =>
              rw [hinbox] at h
              dsimp only [onMessageB] at h
              split at h
              · cases h
              · next result hans =>
                  cases sent with
                  | false => cases h
                  | true =>
                      have hd : d = { dst := .udp attempt.addr, bytes := result.msgBytes,
                                      origin := .messageC result.transport } := by
                        simp only [Bool.not_true, Bool.false_eq_true, if_false] at h
                        split at h <;> exact List.mem_singleton.mp h
                      subst hd
                      exact .messageC id token attempt data result hat hstage hinbox hans
      | complete c =>
          rw [hstage] at h
          exact .of_run h
      | requestRelay =>
          rw [hstage] at h
          exact .of_transmit h
      | holePunch =>
          rw [hstage] at h
          dsimp only at h
          split at h
          · obtain rfl := List.mem_singleton.mp h
            exact .holePunch _ _ _
          · cases h
      | sendFailed | timedOut =>
          rw [hstage] at h
          cases h

/-- Every datagram of a step is one of these. -/
theorem mem_out {d : Datagram S} (h : d ∈ (n.step blake3 a).out) : n.Sends a d := by
  cases a with
  | receive arrival =>
      unfold step at h
      dsimp only at h
      split at h
      · exact mem_receive h
      · cases h
  | inbound =>
      simp only [step, inboundStep] at h
      split at h
      · cases h
      · cases h
      · exact .of_run h
  | start addr rng =>
      simp only [step, start] at h
      split at h
      · cases h
      · split at h <;> cases h
  | attempt id sent token => exact mem_attemptStep h
  | timeout id =>
      simp only [step, timeout] at h
      split at h
      · cases h
      · split at h <;> cases h
  | broadcast sends => exact .of_transmit h
  | discover | discovery | removed | removal => cases h

/-! ### What a step keeps of the handshakes -/

theorem deliverToAttempt_fixed (id : ℕ) (data : Bytes) :
    (n.deliverToAttempt id data).networkSecret = n.networkSecret ∧
      (n.deliverToAttempt id data).deviceKeys = n.deviceKeys ∧
      (n.deliverToAttempt id data).pendingResponders = n.pendingResponders ∧
      (n.deliverToAttempt id data).plainBuf = n.plainBuf := by
  unfold deliverToAttempt
  split
  · exact ⟨rfl, rfl, rfl, rfl⟩
  · split <;> exact ⟨rfl, rfl, rfl, rfl⟩

variable (blake3 n) in
/-- Only receives change the pending responders and the plaintext buffer, and nothing changes the keys. -/
theorem next_fixed (ha : ∀ arrival, a ≠ .receive arrival) :
    (n.next blake3 a).networkSecret = n.networkSecret ∧ (n.next blake3 a).deviceKeys = n.deviceKeys ∧
      (n.next blake3 a).pendingResponders = n.pendingResponders ∧ (n.next blake3 a).plainBuf = n.plainBuf := by
  unfold next
  cases a with
  | receive arrival => exact absurd rfl (ha arrival)
  | inbound =>
      simp only [step, inboundStep]
      split
      · exact ⟨rfl, rfl, rfl, rfl⟩
      · exact deliverToAttempt_fixed _ _
      · exact ⟨rfl, rfl, rfl, rfl⟩
  | start addr rng =>
      simp only [step, start]
      split
      · exact ⟨rfl, rfl, rfl, rfl⟩
      · split <;> exact ⟨rfl, rfl, rfl, rfl⟩
  | attempt id sent token =>
      simp only [step, attemptStep]
      split
      · exact ⟨rfl, rfl, rfl, rfl⟩
      · split
        · split <;> exact ⟨rfl, rfl, rfl, rfl⟩
        · exact ⟨rfl, rfl, rfl, rfl⟩
        · split
          · unfold onMessageB
            split
            · exact ⟨rfl, rfl, rfl, rfl⟩
            · dsimp only
              split
              · exact ⟨rfl, rfl, rfl, rfl⟩
              · split <;> exact ⟨rfl, rfl, rfl, rfl⟩
          · dsimp only
            split <;> exact ⟨rfl, rfl, rfl, rfl⟩
        · dsimp only
          split <;> exact ⟨rfl, rfl, rfl, rfl⟩
        · exact ⟨rfl, rfl, rfl, rfl⟩
        · exact ⟨rfl, rfl, rfl, rfl⟩
        · exact ⟨rfl, rfl, rfl, rfl⟩
  | timeout id =>
      simp only [step, timeout]
      split
      · exact ⟨rfl, rfl, rfl, rfl⟩
      · split <;> exact ⟨rfl, rfl, rfl, rfl⟩
  | discover addr =>
      simp only [step, discover]
      split
      · split <;> exact ⟨rfl, rfl, rfl, rfl⟩
      · exact ⟨rfl, rfl, rfl, rfl⟩
  | discovery =>
      simp only [step, discoveryStep]
      split <;> exact ⟨rfl, rfl, rfl, rfl⟩
  | removed id =>
      simp only [step, removed]
      split <;> exact ⟨rfl, rfl, rfl, rfl⟩
  | removal =>
      simp only [step, removalStep]
      split <;> exact ⟨rfl, rfl, rfl, rfl⟩
  | broadcast sends => exact ⟨rfl, rfl, rfl, rfl⟩

/-- The task `new` is the task `old` at a later point. -/
structure Continues (old new : Attempt S) : Prop where
  addr : new.addr = old.addr
  handshake : new.handshake = old.handshake
  sendA : ∀ taggedA, new.stage = .sendA taggedA → old.stage = .sendA taggedA

theorem Continues.refl (attempt : Attempt S) : Continues attempt attempt := ⟨rfl, rfl, fun _ => id⟩

theorem attempts_of_setStage {id i : ℕ} {attempt new : Attempt S} {stage : AttemptStage S}
    (hat : n.attempts.lookup id = some attempt) (hstage : ∀ taggedA, stage ≠ .sendA taggedA)
    (h : (n.setStage id attempt stage).attempts.lookup i = some new) :
    ∃ old, n.attempts.lookup i = some old ∧ Continues old new := by
  simp only [setStage, Map.lookup_replace] at h
  by_cases hi : i = id
  · subst hi
    rw [if_pos rfl, hat] at h
    cases h
    exact ⟨attempt, hat, rfl, rfl, fun taggedA ht => absurd ht (hstage taggedA)⟩
  · rw [if_neg hi] at h
    exact ⟨new, h, .refl new⟩

theorem attempts_of_endAttempt {id i : ℕ} {new : Attempt S} (h : (n.endAttempt id).attempts.lookup i = some new) :
    ∃ old, n.attempts.lookup i = some old ∧ Continues old new := by
  simp only [endAttempt, Map.lookup_erase] at h
  split at h
  · cases h
  · exact ⟨new, h, .refl new⟩

theorem attempts_of_deliver {id i : ℕ} {data : Bytes} {new : Attempt S}
    (h : (n.deliverToAttempt id data).attempts.lookup i = some new) :
    ∃ old, n.attempts.lookup i = some old ∧ Continues old new := by
  unfold deliverToAttempt at h
  split at h
  · exact ⟨new, h, .refl new⟩
  · next attempt hat =>
      -- only the inbox changes
      have hreplace : (n.attempts.replace id { attempt with inbox := some data }).lookup i = some new →
          ∃ old, n.attempts.lookup i = some old ∧ Continues old new := by
        intro h
        rw [Map.lookup_replace] at h
        by_cases hi : i = id
        · subst hi
          rw [if_pos rfl, hat] at h
          cases h
          exact ⟨attempt, hat, rfl, rfl, fun _ => id⟩
        · rw [if_neg hi] at h
          exact ⟨new, h, .refl new⟩
      split at h
      · exact hreplace h
      · exact hreplace h
      · exact ⟨new, h, .refl new⟩

theorem attempts_of_attemptStep {id i : ℕ} {sent : Bool} {token : UInt64} {new : Attempt S}
    (h : (n.attemptStep blake3 id sent token).node.attempts.lookup i = some new) :
    ∃ old, n.attempts.lookup i = some old ∧ Continues old new := by
  unfold attemptStep at h
  cases hat : n.attempts.lookup id with
  | none =>
      rw [hat] at h
      exact ⟨new, h, .refl new⟩
  | some attempt =>
      rw [hat] at h
      dsimp only at h
      split at h
      · split at h <;> exact attempts_of_setStage hat (fun _ ht => by cases ht) h
      · exact attempts_of_endAttempt h
      · split at h
        · unfold onMessageB at h
          split at h
          · exact attempts_of_endAttempt h
          · dsimp only at h
            split at h
            · exact attempts_of_endAttempt h
            · split at h
              · exact attempts_of_endAttempt h
              · exact attempts_of_setStage hat (fun _ ht => by cases ht) h
        · dsimp only at h
          split at h
          · exact attempts_of_endAttempt h
          · exact ⟨new, h, .refl new⟩
      · dsimp only at h
        split at h
        · exact attempts_of_setStage hat (fun _ ht => by cases ht) h
        · exact attempts_of_endAttempt h
      · exact attempts_of_setStage hat (fun _ ht => by cases ht) h
      · exact attempts_of_setStage hat (fun _ ht => by cases ht) h
      · exact attempts_of_endAttempt h

/-- A task after a step is one from before it, or has just been started. -/
theorem attempts_of_next {i : ℕ} {new : Attempt S} (h : (n.next blake3 a).attempts.lookup i = some new) :
    (∃ old, n.attempts.lookup i = some old ∧ Continues old new) ∨
      ∃ addr rng msgA, a = .start addr rng ∧ n.initiate rng = .ok (msgA, new.handshake) ∧
        new.stage = .sendA (noiseHandshakeInitiatorPrefix ++ msgA) := by
  have hsame : n.attempts.lookup i = some new → ∃ old, n.attempts.lookup i = some old ∧ Continues old new :=
    fun h => ⟨new, h, .refl new⟩
  unfold next at h
  cases a with
  | receive arrival =>
      refine .inl (hsame ?_)
      simp only [step] at h
      split at h
      · have hrec := received blake3 n arrival
        generalize n.receive blake3 arrival = o at hrec h
        cases hrec with
        | data peerId hindex =>
            rw [(onData_sameTasks blake3 (n.retainResponders arrival.now) arrival peerId).attempts] at h
            exact h
        | _ => exact h
      · exact h
  | inbound =>
      left
      simp only [step, inboundStep] at h
      split at h
      · exact hsame h
      · exact attempts_of_deliver h
      · exact hsame h
  | start addr rng =>
      simp only [step, start] at h
      split at h
      · exact .inl (hsame h)
      · next msgA handshake hinit =>
          split at h
          · exact .inl (hsame h)
          · rw [Map.lookup_insert] at h
            split at h
            · cases h
              exact .inr ⟨addr, rng, msgA, rfl, hinit, rfl⟩
            · exact .inl (hsame h)
  | attempt id sent token => exact .inl (attempts_of_attemptStep h)
  | timeout id =>
      left
      simp only [step, timeout] at h
      split at h
      · exact hsame h
      · next attempt hat =>
          split at h
          · exact attempts_of_setStage hat (fun _ ht => by cases ht) h
          · exact hsame h
  | discover addr =>
      left
      simp only [step, discover] at h
      split at h
      · split at h <;> exact hsame h
      · exact hsame h
  | discovery =>
      left
      simp only [step, discoveryStep] at h
      split at h <;> exact hsame h
  | removed id =>
      left
      simp only [step, removed] at h
      split at h <;> exact hsame h
  | removal =>
      left
      simp only [step, removalStep] at h
      split at h <;> exact hsame h
  | broadcast sends => exact .inl (hsame h)

/-- A pending responder after a receive was there before it, or answers this datagram. -/
theorem responders_of_receive {arrival : Arrival S} {sa : SocketAddr} {r : ResponderHandshake S × ℕ}
    (h : (n.receive blake3 arrival).node.pendingResponders.lookup sa = some r) :
    n.pendingResponders.lookup sa = some r ∨ ∃ msgA msgB, n.answer arrival msgA = .ok (msgB, r.1) := by
  have hold : (n.retainResponders arrival.now).pendingResponders.lookup sa = some r →
      n.pendingResponders.lookup sa = some r := by
    rw [lookup_retainResponders]
    exact fun hr => (Option.filter_eq_some_iff.mp hr).1
  have hrec := received blake3 n arrival
  generalize n.receive blake3 arrival = o at hrec h
  cases hrec with
  | accepted | rejected =>
      rw [Map.lookup_erase] at h
      split at h
      · cases h
      · exact .inl (hold h)
  | data peerId hindex =>
      rw [(onData_sameTasks blake3 (n.retainResponders arrival.now) arrival peerId).pendingResponders] at h
      exact .inl (hold h)
  | answered msgB responder hans =>
      rw [Map.lookup_insert] at h
      split at h
      · cases h
        exact .inr ⟨_, msgB, hans⟩
      · exact .inl (hold h)
  | punched | dispatched | ignored => exact .inl (hold h)

variable (blake3) in
theorem receive_keys (n : Node S) (arrival : Arrival S) :
    (n.receive blake3 arrival).node.networkSecret = n.networkSecret ∧
      (n.receive blake3 arrival).node.deviceKeys = n.deviceKeys := by
  have hrec := received blake3 n arrival
  generalize n.receive blake3 arrival = o at hrec
  cases hrec with
  | data peerId hindex =>
      have h := onData_sameTasks blake3 (n.retainResponders arrival.now) arrival peerId
      exact ⟨h.networkSecret, h.deviceKeys⟩
  | _ => exact ⟨rfl, rfl⟩

variable (blake3 n a) in
theorem next_keys :
    (n.next blake3 a).networkSecret = n.networkSecret ∧ (n.next blake3 a).deviceKeys = n.deviceKeys := by
  by_cases ha : ∃ arrival, a = .receive arrival
  · obtain ⟨arrival, rfl⟩ := ha
    simp only [next, step]
    split
    · exact receive_keys blake3 n arrival
    · exact ⟨rfl, rfl⟩
  · obtain ⟨hs, hk, -⟩ := next_fixed blake3 n fun arrival he => ha ⟨arrival, he⟩
    exact ⟨hs, hk⟩

/-- A pending responder after a step was there before it, or has just read message A. -/
theorem responders_of_next {sa : SocketAddr} {r : ResponderHandshake S × ℕ}
    (h : (n.next blake3 a).pendingResponders.lookup sa = some r) :
    n.pendingResponders.lookup sa = some r ∨
      ∃ arrival msgA msgB, n.answer arrival msgA = .ok (msgB, r.1) := by
  by_cases ha : ∃ arrival, a = .receive arrival
  · obtain ⟨arrival, rfl⟩ := ha
    simp only [next, step] at h
    split at h
    · exact (responders_of_receive h).imp_right fun hans => ⟨arrival, hans⟩
    · exact .inl h
  · rw [(next_fixed blake3 n fun arrival he => ha ⟨arrival, he⟩).2.2.1] at h
    exact .inl h

/-! ### Honest nodes -/

/-- A task's handshake has written message A, and that is the message it sends. -/
def HonestAttempt (networkSecret key : Bytes32) (attempt : Attempt S) : Prop :=
  ∃ m, WroteA networkSecret key attempt.handshake.state m ∧
    ∀ taggedA, attempt.stage = .sendA taggedA → taggedA = noiseHandshakeInitiatorPrefix ++ m

/-- The node has the network secret and the static key, and its handshakes are made with them. -/
structure Honest (networkSecret key : Bytes32) (n : Node S) : Prop where
  secret_eq : n.networkSecret = networkSecret
  key_eq : n.deviceKeys.x25519StaticSecret = key
  attempts : ∀ id attempt, n.attempts.lookup id = some attempt → HonestAttempt networkSecret key attempt
  responders : ∀ sa r created, n.pendingResponders.lookup sa = some (r, created) →
    ∃ m, WroteB networkSecret key r.state m

variable {networkSecret key : Bytes32}

theorem Honest.initiate (h : n.Honest networkSecret key) {rng : S.Rng} {msgA : Bytes} {i : InitiatorHandshake S}
    (hi : n.initiate rng = .ok (msgA, i)) : WroteA networkSecret key i.state msgA := by
  obtain ⟨i₀, h₀, hrest⟩ := bind_eq_ok hi
  obtain ⟨s₀, hbuild, rfl⟩ := map_eq_ok h₀
  obtain ⟨⟨m, s⟩, hwrite, hm⟩ := map_eq_ok hrest
  cases hm
  rw [← h.secret_eq, ← h.key_eq]
  exact ⟨rng, s₀, mapError_eq_ok hbuild, writeStep_eq_ok hwrite⟩

theorem Honest.answer (h : n.Honest networkSecret key) {arrival : Arrival S} {msgA msgB : Bytes}
    {r : ResponderHandshake S} (hr : n.answer arrival msgA = .ok (msgB, r)) :
    WroteB networkSecret key r.state msgB := by
  obtain ⟨s₀, s₁, p, hbuild, hread, hwrite⟩ := answer_eq_ok hr
  rw [← h.secret_eq, ← h.key_eq]
  exact ⟨msgA, arrival.rng, s₀, p, s₁, hbuild, hread, hwrite⟩

/-- Every step of an honest node leaves it honest. -/
theorem Honest.next (h : n.Honest networkSecret key) : (n.next blake3 a).Honest networkSecret key := by
  obtain ⟨hs, hk⟩ := next_keys blake3 n a
  refine ⟨hs.trans h.secret_eq, hk ▸ h.key_eq, fun id attempt hat => ?_, fun sa r created hr => ?_⟩
  · rcases attempts_of_next hat with ⟨old, hold, hcont⟩ | ⟨addr, rng, msgA, -, hinit, hstage⟩
    · obtain ⟨m, hw, hm⟩ := h.attempts id old hold
      refine ⟨m, ?_, fun taggedA ht => hm taggedA (hcont.sendA taggedA ht)⟩
      rw [hcont.handshake]
      exact hw
    · refine ⟨msgA, h.initiate hinit, fun taggedA ht => ?_⟩
      rw [hstage] at ht
      cases ht
      rfl
  · rcases responders_of_next hr with hold | ⟨arrival, msgA, msgB, hans⟩
    · exact h.responders sa r created hold
    · exact ⟨msgB, h.answer hans⟩

/-- What an honest node sends is genuine. -/
theorem Honest.genuine (h : n.Honest networkSecret key) {d : Datagram S} (hd : d ∈ (n.step blake3 a).out) :
    d.Genuine networkSecret key := by
  cases mem_out hd with
  | messageA id token attempt taggedA hat hstage =>
      obtain ⟨m, hw, hm⟩ := h.attempts id attempt hat
      exact ⟨_, m, hw, hm taggedA hstage⟩
  | messageB arrival msgA msgB responder hans => exact ⟨_, msgB, h.answer hans, rfl⟩
  | messageC id token attempt data result hat hstage hinbox hans =>
      obtain ⟨m, hw, -⟩ := h.attempts id attempt hat
      exact initiatorEnd_of_answer hw hans
  | encrypted a d state nonce msg ho hs =>
      unfold Datagram.Genuine
      rw [ho]
      exact hs
  | holePunch a dst msg => exact startsWith_append _ _

end Node

end SeedNet
