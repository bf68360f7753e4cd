import SeedNet.Loops
import SeedNet.Reordering

/-! # What a step sends over sessions

`Node.response` lists the messages that a step hands to `encrypt`, with the engine whose sessions encrypt them, and
the packets that it writes to the TUN device.  `Node.sends_of_out`: every datagram of the step that carries a message
is one of these, sealed by the session of the peer that the message is for. -/

namespace SeedNet

variable {S : Snow}

/-! ### Sealed for a peer -/

namespace Engine

variable {e e' : Engine (SecureTransport S)}

/-- The session of `peer` seals what is for it with this state. -/
def Seals (e : Engine (SecureTransport S)) (peer : PeerId) (ts : S.StatelessTransportState) : Prop :=
  ∃ session, e.sessions.lookup peer = some session ∧ session.transport.state = ts

theorem SameSessions.seals (h : e.SameSessions e') {peer : PeerId} {ts : S.StatelessTransportState} :
    e'.Seals peer ts ↔ e.Seals peer ts := by
  have hstate : (e'.sessions.lookup peer).map (·.transport.state) = (e.sessions.lookup peer).map (·.transport.state) := by
    simpa [Option.map_map, Function.comp_def] using congrArg (Option.map Prod.fst) (h.sessions peer)
  unfold Seals
  rw [← Option.map_eq_some_iff, ← Option.map_eq_some_iff, hstate]

theorem sealed_of_mem_transmitOne {s : Send} {d : Datagram S} {ts : S.StatelessTransportState} {nonce : UInt64}
    {msg : Message} (h : d ∈ (e.transmitOne s).2) (ho : d.origin = .encrypted ts nonce msg) :
    s.msg = msg ∧ e.Seals s.peer ts ∧ d.Sealed ts nonce msg := by
  unfold transmitOne at h
  cases hl : e.sessions.lookup s.peer with
  | none =>
      rw [hl] at h
      cases h
  | some session =>
      rw [hl] at h
      dsimp only [SecureTransport.encrypt] at h
      cases hw : S.transportWrite session.transport.state session.transport.sendNonce (serializeMessage s.msg)
          ((serializeMessage s.msg).length + 16) with
      | error err =>
          rw [hw] at h
          cases h
      | ok ct =>
          rw [hw] at h
          obtain rfl := List.mem_singleton.mp h
          cases ho
          exact ⟨rfl, ⟨session, hl, rfl⟩, _, ct, hw, rfl⟩

/-- A datagram with a message is one of the messages that were to be sent. -/
theorem sealed_of_mem_transmit {sends : List Send} {d : Datagram S} {ts : S.StatelessTransportState} {nonce : UInt64}
    {msg : Message} (h : d ∈ (e.transmit sends).2) (ho : d.origin = .encrypted ts nonce msg) :
    ∃ s ∈ sends, s.msg = msg ∧ e.Seals s.peer ts ∧ d.Sealed ts nonce msg := by
  induction sends generalizing e with
  | nil => cases h
  | cons s sends ih =>
      rcases List.mem_append.mp h with h | h
      · exact ⟨s, List.mem_cons_self, sealed_of_mem_transmitOne h ho⟩
      · obtain ⟨s', hs', hmsg, hseals, hsealed⟩ := ih h
        exact ⟨s', List.mem_cons_of_mem s hs', hmsg, (sameSessions_transmitOne s).seals.mp hseals, hsealed⟩

end Engine

/-! ### The messages of a step -/

/-- What a completed handshake sends at its stage. -/
def Completion.sends (c : Completion S) (e : Engine (SecureTransport S)) : List Send :=
  match c.stage with
  | .sessionInit => e.sendSessionInit c.peerId c.underlay
  | .announce => e.announce c.peerId c.underlay
  | .directories => e.initiatorDirectories c.peerId c.underlay.socketAddr
  | _ => []

theorem Completion.run_out (c : Completion S) (blake3 : Blake3) (e : Engine (SecureTransport S)) :
    (c.run blake3 e).2 = (e.transmit (c.sends e)).2 := by
  unfold run sends
  cases c.stage <;> rfl

namespace Node

section

variable (blake3 : Blake3) (n : Node S)

/-- The messages that a completion sends, if the task is at one. -/
def completes (who : Option ℕ) : Reaction (SecureTransport S) :=
  { engine := n.engine
    sends := match n.completion who with
      | some c => c.sends n.engine
      | none => [] }

/-- The requests for relays that a task sends after its timeout. -/
def requestsRelay (id : ℕ) : List Send :=
  match n.attempts.lookup id with
  | some attempt =>
    match attempt.stage with
    | .requestRelay => n.engine.timeoutRequests attempt.addr
    | _ => []
  | none => []

/-- The messages that a step sends over sessions, with the engine that encrypts them, and the packets that it
writes to the TUN device. -/
def response : LoopAction S → Reaction (SecureTransport S)
  | .task (.receive a) =>
    match n.reaction blake3 a with
    | some r => r
    | none => { engine := n.engine }
  | .task .inbound => n.completes none
  | .task (.attempt id _ _) =>
    { n.completes (some id) with sends := (n.completes (some id)).sends ++ n.requestsRelay id }
  | .task (.broadcast sends) => { engine := n.engine, sends := sends }
  | .tunPacket candidate packet => n.engine.handleTunPacket candidate packet
  | .healthcheck nowMs peerId => n.engine.healthcheck nowMs peerId
  | _ => { engine := n.engine }

end

variable {blake3 : Blake3} {n : Node S}

/-- A datagram that is not data makes the inbound loop send no message. -/
theorem receive_no_message {a : Arrival S} (h : n.dataFrom a = none) :
    (∀ d ∈ (n.receive blake3 a).out, d.origin.isEncrypted = false) ∧ (n.receive blake3 a).tun = [] := by
  unfold dataFrom at h
  unfold receive
  dsimp only
  split
  · unfold onHolePunch
    split
    · refine ⟨fun d hd => ?_, rfl⟩
      simp only [List.mem_cons, List.not_mem_nil, or_false] at hd
      rcases hd with rfl | rfl <;> rfl
    · exact ⟨List.forall_mem_nil _, rfl⟩
  · next hpunch =>
      rw [if_neg hpunch] at h
      split
      · exact ⟨List.forall_mem_nil _, rfl⟩
      · next hpending =>
          replace hpending : n.pendingInitiator a = none := hpending
          rw [hpending] at h
          split
          · unfold onMessageC
            dsimp only
            split <;> exact ⟨List.forall_mem_nil _, rfl⟩
          · next hresponder =>
              rw [hresponder] at h
              split
              · next peerId hindex => cases h.symm.trans hindex
              · split
                · unfold onMessageA
                  split
                  · exact ⟨List.forall_mem_singleton.mpr rfl, rfl⟩
                  · exact ⟨List.forall_mem_nil _, rfl⟩
                · exact ⟨List.forall_mem_nil _, rfl⟩

/-- A datagram without a message makes the inbound loop send none. -/
theorem step_no_message {a : Arrival S} (h : n.opens a = none) :
    (∀ d ∈ (n.step blake3 (.receive a)).out, d.origin.isEncrypted = false) ∧
      (n.step blake3 (.receive a)).tun = [] := by
  rw [step]
  cases hi : n.inbound with
  | dispatch | complete => exact ⟨List.forall_mem_nil _, rfl⟩
  | idle =>
      rw [opens_of_idle n a hi] at h
      dsimp only
      cases hfrom : n.dataFrom a with
      | none => exact receive_no_message hfrom
      | some peerId =>
          have hnone := Option.map_eq_none_iff.mp ((Option.bind_eq_none_iff.mp h) peerId hfrom)
          rw [onData_of_dataFrom blake3 hfrom, onData_eq]
          generalize (n.retainResponders a.now).decryptData a peerId = r at hnone
          obtain ⟨m, msg⟩ := r
          cases hnone
          exact ⟨List.forall_mem_nil _, rfl⟩

/-- The messages of an initiator. -/
theorem attempt_response {id : ℕ} {sent : Bool} {token : UInt64} :
    (∀ d ∈ (n.attemptStep blake3 id sent token).out, d.origin.isEncrypted = true →
      d ∈ (n.engine.transmit ((n.completes (some id)).sends ++ n.requestsRelay id)).2) ∧
      (n.attemptStep blake3 id sent token).tun = [] := by
  unfold attemptStep requestsRelay completes
  cases hat : n.attempts.lookup id with
  | none => exact ⟨fun d hd => absurd hd List.not_mem_nil, rfl⟩
  | some attempt =>
      rw [completion_some_of_lookup hat]
      dsimp only
      cases hstage : attempt.stage with
      | sendA taggedA =>
          cases sent with
          | false => exact ⟨fun d hd => absurd hd List.not_mem_nil, rfl⟩
          | true =>
              refine ⟨fun d hd henc => ?_, rfl⟩
              rw [List.mem_singleton.mp hd] at henc
              cases henc
      | sendFailed | timedOut => exact ⟨fun d hd => absurd hd List.not_mem_nil, rfl⟩
      | waitB =>
          cases attempt.inbox with
          | none => exact ⟨fun d hd => absurd hd List.not_mem_nil, rfl⟩
          | some data =>
              dsimp only [onMessageB]
              split
              · exact ⟨fun d hd => absurd hd List.not_mem_nil, rfl⟩
              · next result hans =>
                  cases sent with
                  | false => exact ⟨fun d hd => absurd hd List.not_mem_nil, rfl⟩
                  | true =>
                      -- message C is no message of a session
                      simp only [Bool.not_true, Bool.false_eq_true, if_false]
                      split <;>
                      · refine ⟨fun d hd henc => ?_, rfl⟩
                        rw [List.mem_singleton.mp hd] at henc
                        cases henc
      | complete c =>
          refine ⟨fun d hd _ => ?_, rfl⟩
          have hrun : d ∈ (c.run blake3 n.engine).2 := hd
          rw [c.run_out] at hrun
          exact (List.append_nil (c.sends n.engine)).symm ▸ hrun
      | requestRelay => exact ⟨fun d hd _ => hd, rfl⟩
      | holePunch =>
          dsimp only
          split
          · refine ⟨fun d hd henc => ?_, rfl⟩
            rw [List.mem_singleton.mp hd] at henc
            cases henc
          · exact ⟨fun d hd => absurd hd List.not_mem_nil, rfl⟩

/-- The other tasks of a node send nothing that carries a message. -/
theorem start_out {addr : SocketAddr} {rng : S.Rng} : (n.start addr rng).out = [] ∧ (n.start addr rng).tun = [] := by
  unfold start
  split
  · exact ⟨rfl, rfl⟩
  · split <;> exact ⟨rfl, rfl⟩

theorem timeout_out {id : ℕ} : (n.timeout id).out = [] ∧ (n.timeout id).tun = [] := by
  unfold timeout
  split
  · exact ⟨rfl, rfl⟩
  · split <;> exact ⟨rfl, rfl⟩

/-- A step writes to the TUN device what its response says. -/
theorem tun_of_response (a : LoopAction S) : (n.loopStep blake3 a).tun = (n.response blake3 a).tun := by
  cases a with
  | tunPacket | healthcheck | relayFlag | stunAddr => rfl
  | task a =>
      cases a with
      | receive a =>
          simp only [response, loopStep]
          cases hr : n.reaction blake3 a with
          | some r => exact (step_of_reaction blake3 hr).2.2
          | none => exact (step_no_message (Option.map_eq_none_iff.mp hr)).2
      | inbound =>
          simp only [response, loopStep, step, inboundStep, completes]
          cases n.inbound <;> rfl
      | attempt id sent token => exact attempt_response.2
      | start addr rng => exact start_out.2
      | timeout id => exact timeout_out.2
      | discover | discovery | removed | removal | broadcast => rfl

/-- The datagrams with messages are those of the response. -/
theorem out_of_response {a : LoopAction S} {d : Datagram S} (h : d ∈ (n.loopStep blake3 a).out)
    (henc : d.origin.isEncrypted = true) :
    d ∈ ((n.response blake3 a).engine.transmit (n.response blake3 a).sends).2 := by
  cases a with
  | tunPacket candidate packet => exact h
  | healthcheck nowMs peerId => exact h
  | relayFlag | stunAddr => cases h
  | task a =>
      cases a with
      | broadcast sends => exact h
      | receive a =>
          simp only [response]
          cases hr : n.reaction blake3 a with
          | some r =>
              rw [loopStep, (step_of_reaction blake3 hr).2.1] at h
              exact h
          | none =>
              have hno : ∀ d ∈ (n.step blake3 (.receive a)).out, d.origin.isEncrypted = false :=
                (step_no_message (Option.map_eq_none_iff.mp hr)).1
              exact absurd henc (hno d h ▸ Bool.false_ne_true)
      | inbound =>
          simp only [response, completes, completion_inbound]
          simp only [loopStep, step, inboundStep] at h
          cases hi : n.inbound with
          | idle | dispatch =>
              rw [hi] at h
              cases h
          | complete c =>
              rw [hi] at h
              dsimp only at h
              rw [c.run_out] at h
              exact h
      | attempt id sent token => exact attempt_response.1 d h henc
      | start addr rng =>
          rw [loopStep, step, start_out.1] at h
          cases h
      | timeout id =>
          rw [loopStep, step, timeout_out.1] at h
          cases h
      | discover | discovery | removed | removal => cases h

/-- The engine of the response has the sessions of the node. -/
theorem response_sameSessions (a : LoopAction S) : n.engine.SameSessions (n.response blake3 a).engine := by
  cases a with
  | tunPacket candidate packet =>
      obtain ⟨t, heng⟩ := n.engine.handleTunPacket_routes candidate packet
      rw [response, heng]
      exact ⟨rfl, rfl, rfl, rfl, rfl, fun _ => rfl⟩
  | healthcheck nowMs peerId =>
      simp only [response, Engine.healthcheck]
      split <;> exact ⟨rfl, rfl, rfl, rfl, rfl, fun _ => rfl⟩
  | relayFlag | stunAddr => exact .refl _
  | task a =>
      cases a with
      | receive a =>
          simp only [response]
          cases hr : n.reaction blake3 a with
          | none => exact .refl _
          | some r =>
              obtain ⟨⟨m, msg⟩, ho, rfl⟩ := Option.map_eq_some_iff.mp hr
              exact (step_of_opens blake3 ho).2.toSameSessions.trans
                (Engine.handleMessage_frame blake3 a.nowMs a.fromAddr msg).sameSessions
      | _ => exact .refl _

/-- A message that leaves a node is one of its response, sealed by the session of the peer it is for. -/
theorem sends_of_out {a : LoopAction S} {d : Datagram S} {ts : S.StatelessTransportState} {nonce : UInt64}
    {msg : Message} (h : d ∈ (n.loopStep blake3 a).out) (ho : d.origin = .encrypted ts nonce msg) :
    ∃ s ∈ (n.response blake3 a).sends, s.msg = msg ∧ n.engine.Seals s.peer ts ∧ d.Sealed ts nonce msg := by
  have henc : d.origin.isEncrypted = true := by rw [ho]; rfl
  obtain ⟨s, hs, hmsg, hseals, hsealed⟩ := Engine.sealed_of_mem_transmit (out_of_response h henc) ho
  exact ⟨s, hs, hmsg, (response_sameSessions a).seals.mp hseals, hsealed⟩

end Node

end SeedNet
