import SeedNet.Reordering

/-! # A handshake in order establishes its sessions

`Phase.next` is the step lemma of the phases of an attempt: each phase says which step of which node can
change it, and the next phase is what that step makes of it.  A run that is in order
(`Net.Ordered`) therefore ends in the phase `accepted` with both tasks done, and `handshake_establishes`
reads the two sessions, the index entries and the handled `SessionInit`s off that phase. -/

namespace SeedNet

open Run (exec Along)
open Snow (SameHandshake WroteA Answered)

variable {S : Snow}

/-- What the node `x` stores after the handshake. -/
def Setting.completion (c : Setting) (x : Bool) (t : SecureTransport S) : Completion S where
  initiator := !x
  peerId := .fromBytes t.remoteStaticKey
  underlay := .udp (c.addr (!x))
  transport := t

section attempt

variable {blake3 : Blake3} {c : Setting}

/-! ### Steps of one node -/

namespace Node

variable {n : Node S} {i : InitiatorHandshake S} {a : Arrival S}

theorem hasWirePrefix_eq_false {data : Bytes} (h : hasWirePrefix data = false) :
    startsWith data holePunchProbePrefix = false ∧ startsWith data noiseHandshakeInitiatorPrefix = false ∧
      startsWith data noiseHandshakeResponderPrefix = false := by
  simp only [hasWirePrefix, Bool.or_eq_false_iff] at h
  exact ⟨h.1.1, h.1.2, h.2⟩

theorem pendingInitiator_of_unprefixed (h : hasWirePrefix a.data = false) : n.pendingInitiator a = none := by
  simp only [pendingInitiator, (hasWirePrefix_eq_false h).2.2, Bool.false_eq_true, if_false]

variable (blake3) in
/-- The task sends message A. -/
theorem Waits.sendA {taggedA : Bytes} (h : n.Waits c i none (.sendA taggedA)) (token : UInt64) :
    ∃ n', n.attemptStep blake3 c.id true token =
        { node := n', out := [{ dst := .udp (c.addr true), bytes := taggedA, origin := .messageA }] } ∧
      n'.Waits c i none .waitB ∧ n'.pending = n.pending ∧ n'.inbound = n.inbound := by
  refine ⟨n.setStage c.id { addr := c.addr true, handshake := i, inbox := none, stage := .sendA taggedA } .waitB, ?_,
    ⟨?_, h.addrIndex, h.responder⟩, rfl, rfl⟩
  · simp only [attemptStep, h.task, if_true]
  · simp only [setStage, Map.lookup_replace, if_true, h.task, Option.map_some]

variable (blake3) in
/-- The task waits as long as message B is not in its inbox. -/
theorem Waits.idle (h : n.Waits c i none .waitB)
    (hchannel : n.pending.lookup (c.addr true) = some c.id ∨ ∃ data, n.inbound = .dispatch c.id data)
    (token : UInt64) : n.attemptStep blake3 c.id true token = { node := n } := by
  simp only [attemptStep, h.task, channelDropped]
  rcases hchannel with hpending | ⟨data, hin⟩
  · simp only [hpending, ne_eq, not_true_eq_false, decide_false, Bool.false_and, Bool.false_eq_true, if_false]
  · simp only [hin, ne_eq, not_true_eq_false, decide_false, Bool.and_false, Bool.false_eq_true, if_false]

variable (blake3) in
/-- The inbound loop takes message B from the network. -/
theorem Waits.receive_messageB (h : n.Waits c i none .waitB) (hpending : n.pending.lookup (c.addr true) = some c.id)
    {msgB : Bytes} (hfrom : a.fromAddr = .udp (c.addr true)) (hdata : a.data = noiseHandshakeResponderPrefix ++ msgB) :
    ∃ n', n.receive blake3 a = { node := n' } ∧ n'.Waits c i none .waitB ∧
      n'.inbound = .dispatch c.id (noiseHandshakeResponderPrefix ++ msgB) := by
  have hpre : startsWith a.data noiseHandshakeResponderPrefix = true := by rw [hdata, startsWith_append]
  have hinitiator : n.pendingInitiator a = some c.id := by
    rw [pendingInitiator, if_pos hpre, hfrom]
    exact hpending
  refine ⟨_, Node.receive_messageB (responder_not_holePunch hpre) hinitiator, ⟨h.task, h.addrIndex, ?_⟩, ?_⟩
  · show (n.retainResponders a.now).pendingResponders.lookup (c.addr true) = none
    rw [lookup_retainResponders, h.responder, Option.filter_none]
  · show Inbound.dispatch c.id a.data = _
    rw [hdata]

variable (blake3) in
/-- The inbound loop hands message B over. -/
theorem Waits.dispatch {data : Bytes} (h : n.Waits c i none .waitB) (hin : n.inbound = .dispatch c.id data) :
    ∃ n', n.inboundStep blake3 = { node := n' } ∧ n'.Waits c i (some data) .waitB ∧ n'.inbound = .idle := by
  have hdeliver : n.deliverToAttempt c.id data =
      { n with
        attempts := n.attempts.replace c.id
          { addr := c.addr true, handshake := i, inbox := some data, stage := .waitB }
        attempts_lt := fun i hi => n.attempts_lt i (AList.mem_replace.mp hi) } := by
    simp only [deliverToAttempt, h.task]
  refine ⟨{ n.deliverToAttempt c.id data with inbound := .idle }, ?_, ⟨?_, ?_, ?_⟩, rfl⟩
  · simp only [inboundStep, hin]
  · rw [hdeliver]
    simp only [Map.lookup_replace, if_true, h.task, Option.map_some]
  · rw [hdeliver]
    exact h.addrIndex
  · rw [hdeliver]
    exact h.responder

variable (blake3) in
/-- The task takes message B from its inbox and sends message C. -/
theorem Waits.takes {data : Bytes} {result : HandshakeResult S} (h : n.Waits c i (some data) .waitB)
    (hanswer : Attempt.answer { addr := c.addr true, handshake := i, inbox := some data, stage := .waitB } data =
      .ok result) (hne : PeerId.fromBytes result.transport.remoteStaticKey ≠ n.engine.ourPeerId) (token : UInt64) :
    ∃ n', n.attemptStep blake3 c.id true token =
        { node := n'
          out := [{ dst := .udp (c.addr true), bytes := result.msgBytes, origin := .messageC result.transport }] } ∧
      n'.completion (some c.id) = some (c.completion false result.transport) ∧
      n'.engine = n.engine ∧ n'.inbound = n.inbound ∧ n'.pendingResponders = n.pendingResponders := by
  refine ⟨n.setStage c.id { addr := c.addr true, handshake := i, inbox := some data, stage := .waitB }
    (.complete (c.completion false result.transport)), ?_, ?_, rfl, rfl, rfl⟩
  · simp only [attemptStep, h.task, onMessageB, hanswer, Bool.not_true, Bool.false_eq_true, if_false, if_neg hne]
    rfl
  · rw [completion_setStage h.task (.complete (c.completion false result.transport)) (some c.id), if_pos rfl]
    rfl

variable (blake3) in
/-- The inbound loop of the responder answers message A. -/
theorem Unasked.receive_messageA {msgA msgB : Bytes} {r : ResponderHandshake S} (h : n.Unasked c)
    (hanswer : n.answer a msgA = .ok (msgB, r)) (hfrom : a.fromAddr = .udp (c.addr false))
    (hdata : a.data = noiseHandshakeInitiatorPrefix ++ msgA) (hstart : c.start ≤ a.now) :
    ∃ n', n.receive blake3 a =
        { node := n'
          out := [{ dst := .udp (c.addr false), bytes := noiseHandshakeResponderPrefix ++ msgB, origin := .messageB }] } ∧
      n'.Answers c r := by
  have hpre : startsWith a.data noiseHandshakeInitiatorPrefix = true := by rw [hdata, startsWith_append]
  have hpending : n.pendingInitiator a = none := by
    simp only [pendingInitiator, initiator_not_responder hpre, Bool.false_eq_true, if_false]
  have hresponder : (n.retainResponders a.now).pendingResponders.lookup a.fromAddr.socketAddr = none := by
    rw [lookup_retainResponders, hfrom]
    show (n.pendingResponders.lookup (c.addr false)).filter _ = none
    rw [h.responder, Option.filter_none]
  have hindex : n.engine.addrIndex.lookup a.fromAddr = none := by
    rw [hfrom]
    exact h.addrIndex
  have hans : (n.retainResponders a.now).answer a (a.data.drop noiseHandshakeInitiatorPrefix.length) = .ok (msgB, r) := by
    rw [hdata, List.drop_left]
    exact hanswer
  rw [Node.receive_messageA (initiator_not_holePunch hpre) hpending hresponder hindex hpre, onMessageA, hans, hfrom]
  exact ⟨_, rfl, h.inbound, h.addrIndex, a.now, AList.lookup_insert _, hstart⟩

variable (blake3) in
/-- The inbound loop of the responder accepts message C. -/
theorem Answers.receive_messageC {r : ResponderHandshake S} {result : HandshakeResult S} (h : n.Answers c r)
    (hfinish : r.finish a.data = .ok result) (hpre : hasWirePrefix a.data = false)
    (hfrom : a.fromAddr = .udp (c.addr false)) (hnow : a.now < c.start + handshakeTimeout) :
    ∃ n', n.receive blake3 a = { node := n' } ∧
      n'.inbound = .complete (c.completion true result.transport) ∧
      n'.engine = n.engine ∧ n'.pendingResponders.lookup (c.addr false) = none := by
  obtain ⟨created, hlookup, hcreated⟩ := h.responder
  have hlookup' : n.pendingResponders.lookup a.fromAddr.socketAddr = some (r, created) := by
    rw [hfrom]
    exact hlookup
  have hpos : 0 < handshakeTimeout := by decide
  have htime : a.now - created < handshakeTimeout := by omega
  rw [Node.receive_messageC (hasWirePrefix_eq_false hpre).1 (pendingInitiator_of_unprefixed hpre) hlookup' htime,
    onMessageC, hfinish, hfrom]
  exact ⟨_, rfl, rfl, rfl, AList.lookup_erase _ _⟩

/-! ### Updates after the handshake -/

theorem stage_of_completion {id : ℕ} {comp : Completion S} (h : n.completion (some id) = some comp) :
    ∃ attempt, n.attempts.lookup id = some attempt ∧ attempt.stage = .complete comp := by
  obtain ⟨attempt, hat, hstage⟩ := Option.bind_eq_some_iff.mp h
  refine ⟨attempt, hat, ?_⟩
  cases hs : attempt.stage with
  | complete comp' =>
      rw [hs] at hstage
      exact congrArg AttemptStage.complete (Option.some.inj hstage)
  | _ =>
      rw [hs] at hstage
      cases hstage

variable (blake3) in
/-- The task makes its next update. -/
theorem attemptStep_complete {id : ℕ} {comp : Completion S} (h : n.completion (some id) = some comp) (sent : Bool)
    (token : UInt64) :
    ∃ n', n.attemptStep blake3 id sent token = { node := n', out := (comp.run blake3 n.engine).2 } ∧
      n'.engine = (comp.run blake3 n.engine).1 ∧ n'.inbound = n.inbound ∧
      n'.pendingResponders = n.pendingResponders ∧ n'.completion (some id) = comp.next ∧
      (comp.next = none → id ∉ n'.attempts) := by
  obtain ⟨attempt, hat, hstage⟩ := stage_of_completion h
  simp only [attemptStep, hat, hstage]
  cases hn : comp.next with
  | none =>
      refine ⟨_, rfl, rfl, rfl, rfl, ?_, fun _ hmem => (AList.mem_erase.mp hmem).1 rfl⟩
      exact (completion_endAttempt id (some id)).trans (if_pos rfl)
  | some comp' =>
      refine ⟨_, rfl, rfl, rfl, rfl, ?_, fun hnone => by cases hnone⟩
      have hat' : ({ n with engine := (comp.run blake3 n.engine).1 } : Node S).attempts.lookup id = some attempt := hat
      exact (completion_setStage hat' (.complete comp') (some id)).trans (if_pos rfl)

variable (blake3) in
/-- The inbound loop makes its next update. -/
theorem inboundStep_complete {comp : Completion S} (h : n.inbound = .complete comp) :
    ∃ n', n.inboundStep blake3 = { node := n', out := (comp.run blake3 n.engine).2 } ∧
      n'.engine = (comp.run blake3 n.engine).1 ∧ n'.inbound = .continue comp.next ∧
      n'.pendingResponders = n.pendingResponders := by
  simp only [inboundStep, h]
  exact ⟨_, rfl, rfl, rfl, rfl⟩

/-! ### Data -/

/-- A datagram changed nothing of the tasks and of the sessions but counters and windows. -/
structure TakesData (n : Node S) (o : Outcome S) : Prop where
  inbound : o.node.inbound = n.inbound
  attempts : o.node.attempts = n.attempts
  responders : ∀ sa, n.pendingResponders.lookup sa = none → o.node.pendingResponders.lookup sa = none
  sessions : n.engine.SameSessions o.node.engine
  out : ∀ d ∈ o.out, d.origin.isEncrypted = true

theorem isEncrypted_of_origin {d : Datagram S} (h : ∃ state nonce msg, d.origin = .encrypted state nonce msg ∧
    d.Sealed state nonce msg) : d.origin.isEncrypted = true := by
  obtain ⟨state, nonce, msg, ho, -⟩ := h
  rw [ho]
  rfl

variable (blake3) in
/-- No responder waits: a datagram without a prefix is data, or ignored. -/
theorem receive_unprefixed (hpre : hasWirePrefix a.data = false)
    (hresponder : n.pendingResponders.lookup a.fromAddr.socketAddr = none) : n.TakesData (n.receive blake3 a) := by
  have hretain : ∀ sa, n.pendingResponders.lookup sa = none →
      (n.retainResponders a.now).pendingResponders.lookup sa = none := by
    intro sa h
    rw [lookup_retainResponders, h, Option.filter_none]
  obtain ⟨hpunch, hinitiator, -⟩ := hasWirePrefix_eq_false hpre
  have hpending : n.pendingInitiator a = none := pendingInitiator_of_unprefixed hpre
  cases hindex : n.engine.addrIndex.lookup a.fromAddr with
  | some peerId =>
      rw [receive_data hpunch hpending (hretain _ hresponder) hindex]
      have htasks := onData_sameTasks blake3 (n.retainResponders a.now) a peerId
      refine ⟨htasks.inbound, htasks.attempts, fun sa h => ?_, ?_, fun d hd => isEncrypted_of_origin (mem_onData hd)⟩
      · rw [htasks.pendingResponders]
        exact hretain sa h
      · exact onData_sameSessions blake3 (n.retainResponders a.now) a peerId
  | none =>
      have hignored : n.receive blake3 a = { node := n.retainResponders a.now } := by
        have hpending' : (n.retainResponders a.now).pendingInitiator a = none := hpending
        have hindex' : (n.retainResponders a.now).engine.addrIndex.lookup a.fromAddr = none := hindex
        simp only [receive, hpunch, hpending', hretain _ hresponder, hindex', hinitiator, Bool.false_eq_true, if_false]
      rw [hignored]
      exact ⟨rfl, rfl, hretain, .refl _, fun d hd => by cases hd⟩

/-- What a session has sealed for us is handled. -/
theorem receive_sealed {p : PeerId} {session : PeerSession (SecureTransport S)} {ts : S.StatelessTransportState}
    {nonce : UInt64} {msg : Message} {d : Datagram S} (hpre : hasWirePrefix a.data = false)
    (hresponder : n.pendingResponders.lookup a.fromAddr.socketAddr = none)
    (hindex : n.engine.addrIndex.lookup a.fromAddr = some p) (hsession : n.engine.sessions.lookup p = some session)
    (hdata : a.data = d.bytes) (hsealed : d.Sealed ts nonce msg) (hreads : Snow.Reads ts session.transport.state)
    (hfresh : session.transport.nonceWindow.fresh nonce = true)
    (htagged : ∀ payload room ct, S.transportWrite ts nonce payload room = .ok ct → ct.length = payload.length + 16)
    (hroom : (serializeMessage msg).length ≤ n.plainBuf.length) (hmsg : msg.Encodable) :
    (n.receive blake3 a).handled = some msg := by
  have hretain : (n.retainResponders a.now).pendingResponders.lookup a.fromAddr.socketAddr = none := by
    rw [lookup_retainResponders, hresponder, Option.filter_none]
  rw [receive_data (hasWirePrefix_eq_false hpre).1 (pendingInitiator_of_unprefixed hpre) hretain hindex]
  exact onData_sealed (n := n.retainResponders a.now) hsession hdata hsealed hreads hfresh htagged hroom hmsg

end Node

namespace Net

variable {s s' : Net S} {x : Bool} {t : S.StatelessTransportState} {stage : Option Stage} {msgC : Bytes}

/-! ### The updates on one side -/

theorem Completes.next {comp comp' : Completion S} (h : Completes c x t comp) (hn : comp.next = some comp') :
    Completes c x t comp' := by
  unfold Completion.next at hn
  split at hn <;> cases hn <;> exact ⟨h.peerId, h.underlay, h.state⟩

theorem sessionInit_of_progress {comp : Completion S} (h : 5 ≤ progress (comp.next.map (·.stage))) :
    comp.stage = .sessionInit ∨ 5 ≤ progress (some comp.stage) := by
  obtain ⟨initiator, p, u, t, stage⟩ := comp
  cases stage <;> simp [Completion.next, progress, Stage.rank] at h ⊢

/-- The next update after the handshake. -/
theorem Side.run (laws : S.Completes c.networkSecret) (hfits : (s.node x).Fits c x) {comp : Completion S}
    (hcomp : Completes c x t comp) (h : s.Side c x t (some comp.stage)) {o : Outcome S}
    (hnode : o.node.engine = (comp.run blake3 (s.node x).engine).1)
    (hout : o.out = (comp.run blake3 (s.node x).engine).2) :
    (s.after x o).Side c x t (comp.next.map (·.stage)) := by
  have hreached : (s.node x).engine.Reached comp.peerId comp.underlay comp.transport.state (some comp.stage) := by
    rw [hcomp.peerId, hcomp.underlay, hcomp.state]
    exact h.reached
  constructor
  · have hrun : (comp.run blake3 (s.node x).engine).1.Reached comp.peerId comp.underlay comp.transport.state
        (comp.next.map (·.stage)) := Completion.run_reached hreached
    rw [hcomp.peerId, hcomp.underlay, hcomp.state] at hrun
    rw [after_node_self, hnode]
    exact hrun
  · intro hp
    rcases sessionInit_of_progress hp with hstage | hold
    · have hlen : (serializeMessage (s.node x).engine.sessionInit).length + 16 ≤ maxMessageLen := by
        rw [hfits.sessionInit]
        exact c.fits x
      obtain ⟨d, hd, nonce, hdst, ho, hsealed⟩ := 
        Completion.mem_run_sessionInit blake3 laws hreached hstage hlen
      rw [hcomp.state, hfits.sessionInit] at ho hsealed
      refine .inl ⟨d, nonce, mem_after.mpr (.inr ⟨rfl, ?_⟩), hdst.trans hcomp.underlay, ho, hsealed⟩
      rw [hout]
      exact hd
    · exact (h.sent hold).after o

theorem Traffic.after (h : s.Traffic msgC) {o : Outcome S} (hout : ∀ d ∈ o.out, d.origin.isEncrypted = true) :
    (s.after x o).Traffic msgC := by
  constructor
  · intro d hd
    rcases mem_after.mp hd with hold | ⟨-, hnew⟩
    · exact h.initiator d hold
    · exact .inl (hout d hnew)
  · intro d hd
    rcases mem_after.mp hd with hold | ⟨-, hnew⟩
    · exact h.responder d hold
    · exact hout d hnew

theorem Traffic.lose (h : s.Traffic msgC) (k : ℕ) : (s.lose k).Traffic msgC :=
  ⟨fun d hd => h.initiator d (mem_of_mem_lose hd), fun d hd => h.responder d (mem_of_mem_lose hd)⟩

/-! ### The side of the initiator -/

variable (blake3) in
/-- The task of the initiator makes its next update, if it is not done. -/
theorem Initiated.attempt (laws : S.Completes c.networkSecret) (hfits : (s.node false).Fits c false)
    (h : s.Initiated c t stage) (token : UInt64) :
    (∃ stage', (s.after false ((s.node false).attemptStep blake3 c.id true token)).Initiated c t stage') ∧
      ∀ d ∈ ((s.node false).attemptStep blake3 c.id true token).out, d.origin.isEncrypted = true := by
  rcases h.task with ⟨hdone, -⟩ | ⟨comp, hcompletion, hcomp, rfl⟩
  · have hstep : (s.node false).attemptStep blake3 c.id true token = { node := s.node false } := by
      rw [Node.attemptStep, AList.lookup_eq_none.mpr hdone]
    rw [hstep, after_self]
    exact ⟨⟨stage, h⟩, fun d hd => by cases hd⟩
  · obtain ⟨n', hstep, hengine, hinbound, hresponders, hnext, hdone⟩ :=
      Node.attemptStep_complete blake3 hcompletion true token
    rw [hstep]
    refine ⟨⟨comp.next.map (·.stage), ?_, ?_, ?_, h.side.run laws hfits hcomp hengine rfl⟩, fun d hd => ?_⟩
    · rw [after_node_self]
      cases hn : comp.next with
      | none => exact .inl ⟨hdone hn, rfl⟩
      | some comp' => exact .inr ⟨comp', hnext.trans hn, hcomp.next hn, rfl⟩
    · rw [after_node_self]
      exact hinbound.trans h.inbound
    · rw [after_node_self, hresponders]
      exact h.responder
    · exact Node.isEncrypted_of_origin (Completion.mem_run hd)

/-- The other node makes a step. -/
theorem Initiated.of_node (h : s.Initiated c t stage) (hnode : s'.node false = s.node false)
    (hsent : s.Sent c false t → s'.Sent c false t) : s'.Initiated c t stage := by
  refine ⟨?_, ?_, ?_, ?_, fun hp => hsent (h.side.sent hp)⟩
  · rw [hnode]
    exact h.task
  · rw [hnode]
    exact h.inbound
  · rw [hnode]
    exact h.responder
  · rw [hnode]
    exact h.side.reached

variable (blake3) in
/-- What arrives at the initiator in order is data. -/
theorem Initiated.takesData (h : s.Initiated c t stage) (hflight : s.Traffic msgC) {d : Datagram S} {a : Arrival S}
    (hin : (true, d) ∈ s.inFlight) (horder : InOrder (s.node false) (c.addr true) d)
    (hfrom : a.fromAddr = .udp (c.addr true)) (hdata : a.data = d.bytes) :
    (s.node false).TakesData ((s.node false).receive blake3 a) := by
  have hpre : hasWirePrefix a.data = false := by
    rw [hdata]
    exact horder.unprefixed (.inr (hflight.responder d hin))
  have hresponder : (s.node false).pendingResponders.lookup a.fromAddr.socketAddr = none := by
    rw [hfrom]
    exact h.responder
  exact Node.receive_unprefixed blake3 hpre hresponder

/-- The initiator receives data. -/
theorem Initiated.receives (h : s.Initiated c t stage) {o : Outcome S} (htakes : (s.node false).TakesData o)
    (hnode : s'.node false = o.node) (hsent : s.Sent c false t → s'.Sent c false t) : s'.Initiated c t stage := by
  refine ⟨?_, ?_, ?_, ?_⟩
  · rw [hnode, htakes.attempts, Node.completion_of_tasks htakes.inbound htakes.attempts]
    exact h.task
  · rw [hnode]
    exact htakes.inbound.trans h.inbound
  · rw [hnode]
    exact htakes.responders _ h.responder
  · exact h.side.of_same (hnode ▸ htakes.sessions) hsent

/-! ### The side of the responder -/

variable (blake3) in
/-- The inbound loop of the responder makes its next update. -/
theorem Responded.inbound (laws : S.Completes c.networkSecret) (hfits : (s.node true).Fits c true)
    (h : s.Responded c t stage) (hbusy : (s.node true).inbound ≠ .idle) :
    (∃ stage', (s.after true ((s.node true).inboundStep blake3)).Responded c t stage') ∧
      ∀ d ∈ ((s.node true).inboundStep blake3).out, d.origin.isEncrypted = true := by
  rcases h.task with ⟨hidle, -⟩ | ⟨comp, hcompletion, hcomp, rfl⟩
  · exact absurd hidle hbusy
  · obtain ⟨n', hstep, hengine, hinbound, hresponders⟩ := Node.inboundStep_complete blake3 hcompletion
    rw [hstep]
    refine ⟨⟨comp.next.map (·.stage), ?_, ?_, h.side.run laws hfits hcomp hengine rfl⟩, fun d hd => ?_⟩
    · rw [after_node_self, hinbound]
      cases hn : comp.next with
      | none => exact .inl ⟨rfl, rfl⟩
      | some comp' => exact .inr ⟨comp', rfl, hcomp.next hn, rfl⟩
    · rw [after_node_self, hresponders]
      exact h.responder
    · exact Node.isEncrypted_of_origin (Completion.mem_run hd)

theorem Responded.of_node (h : s.Responded c t stage) (hnode : s'.node true = s.node true)
    (hsent : s.Sent c true t → s'.Sent c true t) : s'.Responded c t stage := by
  refine ⟨?_, ?_, ?_, fun hp => hsent (h.side.sent hp)⟩
  · rw [hnode]
    exact h.task
  · rw [hnode]
    exact h.responder
  · rw [hnode]
    exact h.side.reached

/-- The responder receives data. -/
theorem Responded.receives (h : s.Responded c t stage) {o : Outcome S} (htakes : (s.node true).TakesData o)
    (hnode : s'.node true = o.node) (hsent : s.Sent c true t → s'.Sent c true t) : s'.Responded c t stage := by
  refine ⟨?_, ?_, ?_⟩
  · rw [hnode, htakes.inbound]
    exact h.task
  · rw [hnode]
    exact htakes.responders _ h.responder
  · exact h.side.of_same (hnode ▸ htakes.sessions) hsent

/-! ### The `SessionInit`s -/

/-- A `SessionInit` in order is handled. -/
theorem Side.receives_sessionInit {tx : S.StatelessTransportState} (h : s.Side c x t stage)
    (hfits : (s.node x).Fits c x) (hreads : Snow.Reads tx t)
    (htagged : ∀ payload room ct nonce, S.transportWrite tx nonce payload room = .ok ct → ct.length = payload.length + 16)
    (hresponder : (s.node x).pendingResponders.lookup (c.addr (!x)) = none) {d : Datagram S} {a : Arrival S}
    (horder : InOrder (s.node x) (c.addr (!x)) d) (hfrom : a.fromAddr = .udp (c.addr (!x))) (hdata : a.data = d.bytes)
    {nonce : UInt64} (ho : d.origin = .encrypted tx nonce (c.sessionInit (!x)))
    (hsealed : d.Sealed tx nonce (c.sessionInit (!x))) :
    ((s.node x).receive blake3 a).handled = some (c.sessionInit (!x)) := by
  obtain ⟨overlay, ipv6, hostname, addr, hinit⟩ := c.isSessionInit (!x)
  have hisInit : d.origin.isSessionInit = true := by rw [ho, hinit]; rfl
  have hpre : hasWirePrefix a.data = false := by
    rw [hdata]
    exact horder.unprefixed (.inr (by rw [ho]; rfl))
  obtain ⟨p, hp, session, hsession, hfresh⟩ := horder.sessionInit hisInit
  have hindex := h.reached.addrIndex
  rw [Option.mem_def.mp hp] at hindex
  have hprogress : 3 ≤ progress stage ∧ p = c.peer (!x) := by
    by_cases h3 : 3 ≤ progress stage
    · rw [if_pos h3] at hindex
      exact ⟨h3, Option.some.inj hindex⟩
    · rw [if_neg h3] at hindex
      cases hindex
  obtain ⟨h3, rfl⟩ := hprogress
  have hstate := h.reached.session (by omega)
  rw [Option.mem_def.mp hsession] at hstate
  obtain ⟨hstate, -⟩ := Prod.mk.inj (Option.some.inj hstate)
  have hnonce : SecureTransport.datagramNonce d.bytes = nonce := by
    obtain ⟨room, ct, -, hbytes⟩ := hsealed
    rw [hbytes, SecureTransport.datagramNonce_sealed]
  rw [hnonce] at hfresh
  have hindex' : (s.node x).engine.addrIndex.lookup a.fromAddr = some (c.peer (!x)) := by
    rw [hfrom]
    exact hp
  have hresponder' : (s.node x).pendingResponders.lookup a.fromAddr.socketAddr = none := by
    rw [hfrom]
    exact hresponder
  have hreads' : Snow.Reads tx session.transport.state := hstate ▸ hreads
  exact Node.receive_sealed hpre hresponder' hindex' hsession hdata hsealed hreads' hfresh
    (fun payload room ct => htagged payload room ct nonce) hfits.room (c.encodable (!x))

/-! ### The step lemma -/

@[simp] theorem after_false_true (o : Outcome S) : (s.after false o).node true = s.node true :=
  after_node_not false o

@[simp] theorem after_true_false (o : Outcome S) : (s.after true o).node false = s.node false :=
  after_node_not true o

/-- The only datagram in flight arrives. -/
theorem lose_single {k : ℕ} {p q : Bool × Datagram S} (h : s.inFlight = [p]) (hk : s.inFlight[k]? = some q) :
    q = p ∧ (s.lose k).inFlight = [] := by
  rw [h] at hk
  cases k with
  | zero =>
      refine ⟨(Option.some.inj hk).symm, ?_⟩
      rw [Net.lose, h]
      rfl
  | succ k => cases hk

section phases

variable {i : InitiatorHandshake S} {msgA msgB : Bytes} {r : ResponderHandshake S}
  (laws : S.Completes c.networkSecret) (hfits : ∀ x, (s.node x).Fits c x)

theorem Phase.asking_next (hA : WroteA c.networkSecret (c.key false) i.state msgA)
    (hI : (s.node false).Waits c i none (.sendA (noiseHandshakeInitiatorPrefix ++ msgA)))
    (hpending : (s.node false).pending.lookup (c.addr true) = some c.id) (hidle : (s.node false).inbound = .idle)
    (hR : (s.node true).Unasked c) (hflight : s.inFlight = []) (hp : Progress blake3 c s s') : Phase c s' := by
  cases hp with
  | still h =>
      rw [h]
      exact .asking i msgA hA hI hpending hidle hR hflight
  | attempt token h =>
      obtain ⟨n', hstep, hwaits, hkept, hinbound⟩ := hI.sendA blake3 token
      rw [h, hstep]
      refine .asked i msgA hA ?_ ?_ ?_ ?_ ?_
      · rw [after_node_self]
        exact hwaits
      · rw [after_node_self, hkept]
        exact hpending
      · rw [after_node_self, hinbound]
        exact hidle
      · rw [after_false_true]
        exact hR
      · simp only [Net.after, hflight, List.nil_append, List.map_cons, List.map_nil]
  | inbound x hbusy h =>
      cases x with
      | false => exact absurd hidle hbusy
      | true => exact absurd hR.inbound hbusy
  | arrives k x d a hk =>
      rw [hflight] at hk
      cases hk

include laws hfits in
theorem Phase.asked_next (hA : WroteA c.networkSecret (c.key false) i.state msgA)
    (hI : (s.node false).Waits c i none .waitB)
    (hpending : (s.node false).pending.lookup (c.addr true) = some c.id) (hidle : (s.node false).inbound = .idle)
    (hR : (s.node true).Unasked c)
    (hflight : s.inFlight = [(false,
      { dst := .udp (c.addr true), bytes := noiseHandshakeInitiatorPrefix ++ msgA, origin := .messageA })])
    (hp : Progress blake3 c s s') : Phase c s' := by
  cases hp with
  | still h =>
      rw [h]
      exact .asked i msgA hA hI hpending hidle hR hflight
  | attempt token h =>
      rw [h, hI.idle blake3 (.inl hpending) token, after_self]
      exact .asked i msgA hA hI hpending hidle hR hflight
  | inbound x hbusy h =>
      cases x with
      | false => exact absurd hidle hbusy
      | true => exact absurd hR.inbound hbusy
  | arrives k x d a hk _ _ hfrom hdata hstart _ h =>
      obtain ⟨heq, hlose⟩ := lose_single hflight hk
      cases heq
      obtain ⟨msgB, r, hanswer, hB⟩ := Node.answer_ok laws (hfits true).secret (hfits true).key hA a
      obtain ⟨n', hstep, hanswers⟩ := hR.receive_messageA blake3 hanswer hfrom hdata hstart
      rw [h, Bool.not_false, hstep]
      refine .answered i msgA hA r msgB hB ?_ ?_ ?_ ?_ ?_
      · rw [after_true_false]
        exact hI
      · rw [after_true_false]
        exact hpending
      · rw [after_true_false]
        exact hidle
      · rw [after_node_self]
        exact hanswers
      · simp only [Net.after, hlose, List.nil_append, List.map_cons, List.map_nil]

theorem Phase.answered_next (hA : WroteA c.networkSecret (c.key false) i.state msgA)
    (hB : Answered c.networkSecret (c.key true) msgA r.state msgB) (hI : (s.node false).Waits c i none .waitB)
    (hpending : (s.node false).pending.lookup (c.addr true) = some c.id) (hidle : (s.node false).inbound = .idle)
    (hR : (s.node true).Answers c r)
    (hflight : s.inFlight = [(true,
      { dst := .udp (c.addr false), bytes := noiseHandshakeResponderPrefix ++ msgB, origin := .messageB })])
    (hp : Progress blake3 c s s') : Phase c s' := by
  cases hp with
  | still h =>
      rw [h]
      exact .answered i msgA hA r msgB hB hI hpending hidle hR hflight
  | attempt token h =>
      rw [h, hI.idle blake3 (.inl hpending) token, after_self]
      exact .answered i msgA hA r msgB hB hI hpending hidle hR hflight
  | inbound x hbusy h =>
      cases x with
      | false => exact absurd hidle hbusy
      | true => exact absurd hR.inbound hbusy
  | arrives k x d a hk _ _ hfrom hdata _ _ h =>
      obtain ⟨heq, hlose⟩ := lose_single hflight hk
      cases heq
      obtain ⟨n', hstep, hwaits, hinbound⟩ := hI.receive_messageB blake3 hpending hfrom hdata
      rw [h, Bool.not_true, hstep]
      refine .dispatched i msgA hA r msgB hB ?_ ?_ ?_ ?_
      · rw [after_node_self]
        exact hwaits
      · rw [after_node_self]
        exact hinbound
      · rw [after_false_true]
        exact hR
      · simp only [Net.after, hlose, List.nil_append, List.map_nil]

theorem Phase.dispatched_next (hA : WroteA c.networkSecret (c.key false) i.state msgA)
    (hB : Answered c.networkSecret (c.key true) msgA r.state msgB) (hI : (s.node false).Waits c i none .waitB)
    (hin : (s.node false).inbound = .dispatch c.id (noiseHandshakeResponderPrefix ++ msgB))
    (hR : (s.node true).Answers c r) (hflight : s.inFlight = []) (hp : Progress blake3 c s s') : Phase c s' := by
  cases hp with
  | still h =>
      rw [h]
      exact .dispatched i msgA hA r msgB hB hI hin hR hflight
  | attempt token h =>
      rw [h, hI.idle blake3 (.inr ⟨_, hin⟩) token, after_self]
      exact .dispatched i msgA hA r msgB hB hI hin hR hflight
  | inbound x hbusy h =>
      cases x with
      | true => exact absurd hR.inbound hbusy
      | false =>
          obtain ⟨n', hstep, hwaits, hidle⟩ := hI.dispatch blake3 hin
          rw [h, hstep]
          refine .delivered i msgA hA r msgB hB ?_ ?_ ?_ ?_
          · rw [after_node_self]
            exact hwaits
          · rw [after_node_self]
            exact hidle
          · rw [after_false_true]
            exact hR
          · simp only [Net.after, hflight, List.nil_append, List.map_nil]
  | arrives k x d a hk =>
      rw [hflight] at hk
      cases hk

include laws hfits in
theorem Phase.delivered_next (hauth : S.Authentic c.publicKey c.networkSecret)
    (hA : WroteA c.networkSecret (c.key false) i.state msgA)
    (hB : Answered c.networkSecret (c.key true) msgA r.state msgB)
    (hI : (s.node false).Waits c i (some (noiseHandshakeResponderPrefix ++ msgB)) .waitB)
    (hidle : (s.node false).inbound = .idle) (hR : (s.node true).Answers c r) (hflight : s.inFlight = [])
    (hp : Progress blake3 c s s') : Phase c s' := by
  cases hp with
  | still h =>
      rw [h]
      exact .delivered i msgA hA r msgB hB hI hidle hR hflight
  | attempt token h =>
      let attempt : Attempt S :=
        { addr := c.addr true, handshake := i, inbox := some (noiseHandshakeResponderPrefix ++ msgB), stage := .waitB }
      have hA' : WroteA c.networkSecret (c.key false) attempt.handshake.state msgA := hA
      obtain ⟨result, tr, hanswer, hm⟩ := Attempt.answer_ok laws hauth hA' hB
      have hpeer : PeerId.fromBytes result.transport.remoteStaticKey = c.peer true :=
        congrArg PeerId.fromBytes hm.initiatorSees
      have hne : PeerId.fromBytes result.transport.remoteStaticKey ≠ (s.node false).engine.ourPeerId := by
        rw [hpeer, (hfits false).ourPeerId]
        exact c.peer_ne.symm
      obtain ⟨n', hstep, hcompletion, hengine, hinbound, hresponders⟩ := hI.takes blake3 hanswer hne token
      rw [h, hstep]
      have htask : Completes c false result.transport.state (c.completion false result.transport) := ⟨hpeer, rfl, rfl⟩
      refine .sent r result.msgBytes result.transport tr hm (some .relayPath)
        ⟨.inr ⟨c.completion false result.transport, ?_, htask, rfl⟩, ?_, ?_,
          ⟨⟨fun h2 => absurd h2 (by decide), ?_⟩, fun h5 => absurd h5 (by decide)⟩⟩ ?_ ?_ ?_
      · rw [after_node_self]
        exact hcompletion
      · rw [after_node_self, hinbound]
        exact hidle
      · rw [after_node_self, hresponders]
        exact hI.responder
      · rw [after_node_self, hengine]
        exact hI.addrIndex
      · rw [after_false_true]
        exact hR
      · exact ⟨_, mem_after.mpr (.inr ⟨rfl, List.mem_singleton_self _⟩), rfl, rfl⟩
      · constructor
        · intro d hd
          rcases mem_after.mp hd with hold | ⟨-, hnew⟩
          · rw [hflight] at hold
            cases hold
          · obtain rfl := List.mem_singleton.mp hnew
            exact .inr ⟨rfl, rfl⟩
        · intro d hd
          rcases mem_after.mp hd with hold | ⟨hx, -⟩
          · rw [hflight] at hold
            cases hold
          · cases hx
  | inbound x hbusy h =>
      cases x with
      | false => exact absurd hidle hbusy
      | true => exact absurd hR.inbound hbusy
  | arrives k x d a hk =>
      rw [hflight] at hk
      cases hk

variable {ti tr : SecureTransport S} {stage' : Option Stage}

/-- What the one end seals, the other end reads. -/
theorem reads_of_matched (hauth : S.Authentic c.publicKey c.networkSecret)
    (hm : Matched c.publicKey c.networkSecret (c.key false) (c.key true) r msgC ti tr) :
    Snow.Reads ti.state tr.state ∧ Snow.Reads tr.state ti.state :=
  hauth.reads _ _ _ _ ⟨msgC, ti, tr, hm.initiatorEnd, hm.responderEnd, rfl, rfl⟩

/-- A datagram of the initiator cannot be both. -/
theorem not_encrypted_of_messageC {d : Datagram S} (h : d.origin.isMessageC = true) : d.origin.isEncrypted = false := by
  cases ho : d.origin with
  | messageC t => rfl
  | messageA | messageB | encrypted | holePunch =>
      rw [ho] at h
      cases h

include laws hfits in
theorem Phase.sent_next (hm : Matched c.publicKey c.networkSecret (c.key false) (c.key true) r msgC ti tr)
    (hI : s.Initiated c ti.state stage) (hR : (s.node true).Answers c r)
    (hC : ∃ d, (false, d) ∈ s.inFlight ∧ d.dst = .udp (c.addr true) ∧ d.origin.isMessageC) (hflight : s.Traffic msgC)
    (hp : Progress blake3 c s s') : Phase c s' := by
  cases hp with
  | still h =>
      rw [h]
      exact .sent r msgC ti tr hm stage hI hR hC hflight
  | attempt token h =>
      obtain ⟨⟨stage', hI'⟩, hout⟩ := hI.attempt blake3 laws (hfits false) token
      obtain ⟨d, hd, hC⟩ := hC
      rw [h]
      refine .sent r msgC ti tr hm stage' hI' ?_ ⟨d, mem_after.mpr (.inl hd), hC⟩ (hflight.after hout)
      rw [after_false_true]
      exact hR
  | inbound x hbusy h =>
      cases x with
      | false => exact absurd hI.inbound hbusy
      | true => exact absurd hR.inbound hbusy
  | arrives k x d a hk hidle horder hfrom hdata hstart hnow h =>
      have hin : (x, d) ∈ s.inFlight := List.mem_of_getElem? hk
      cases x with
      | false =>
          rw [Bool.not_false] at horder h
          -- nothing but message C arrives while the responder waits for it
          obtain ⟨created, hlookup, -⟩ := hR.responder
          have hisC : d.origin.isMessageC = true := horder.responder (by rw [hlookup]; rfl)
          have hbytes : d.bytes = msgC := by
            rcases hflight.initiator d hin with henc | hmsgC
            · rw [not_encrypted_of_messageC hisC] at henc
              cases henc
            · exact hmsgC.2
          obtain ⟨result, hfinish, rfl⟩ := hm.finish
          have hfinish' : r.finish a.data = .ok result := by rw [hdata, hbytes, hfinish]
          have hpre : hasWirePrefix a.data = false := by
            rw [hdata]
            exact horder.unprefixed (.inl hisC)
          obtain ⟨n', hstep, hcompletion, hengine, hnone⟩ := hR.receive_messageC blake3 hfinish' hpre hfrom hnow
          have hpeer : PeerId.fromBytes result.transport.remoteStaticKey = c.peer false :=
            congrArg PeerId.fromBytes hm.responderSees
          have htask : Completes c true result.transport.state (c.completion true result.transport) := ⟨hpeer, rfl, rfl⟩
          rw [h, hstep]
          refine .accepted r msgC ti result.transport hm stage (some .relayPath) (hI.of_node (after_true_false _) fun hsent => ?_)
            ⟨.inr ⟨c.completion true result.transport, ?_, htask, rfl⟩, ?_,
              ⟨⟨fun h2 => absurd h2 (by decide), ?_⟩, fun h5 => absurd h5 (by decide)⟩⟩
            ((hflight.lose k).after fun d hd => by cases hd)
          · refine hsent.deliver hk fun _ nonce ho => ?_
            rw [ho] at hisC
            cases hisC
          · rw [after_node_self]
            exact hcompletion
          · rw [after_node_self]
            exact hnone
          · rw [after_node_self, hengine]
            exact hR.addrIndex
      | true =>
          rw [Bool.not_true] at horder h
          have htakes := hI.takesData blake3 hflight hin horder hfrom hdata
          rw [h]
          refine .sent r msgC ti tr hm stage
            (hI.receives htakes (after_node_self ..) fun hsent => hsent.deliver hk fun hx => by cases hx) ?_ ?_
            ((hflight.lose k).after htakes.out)
          · rw [after_false_true]
            exact hR
          · obtain ⟨dC, hdC, hC⟩ := hC
            refine ⟨dC, mem_after.mpr (.inl ?_), hC⟩
            rcases mem_lose_or (k := k) hdC with hlose | hnow
            · exact hlose
            · cases hk.symm.trans hnow

include laws hfits in
theorem Phase.accepted_next (hauth : S.Authentic c.publicKey c.networkSecret)
    (hm : Matched c.publicKey c.networkSecret (c.key false) (c.key true) r msgC ti tr)
    (hI : s.Initiated c ti.state stage) (hR : s.Responded c tr.state stage') (hflight : s.Traffic msgC)
    (hp : Progress blake3 c s s') : Phase c s' := by
  obtain ⟨hreads, hreads'⟩ := reads_of_matched hauth hm
  cases hp with
  | still h =>
      rw [h]
      exact .accepted r msgC ti tr hm stage stage' hI hR hflight
  | attempt token h =>
      obtain ⟨⟨stage'', hI'⟩, hout⟩ := hI.attempt blake3 laws (hfits false) token
      rw [h]
      exact .accepted r msgC ti tr hm stage'' stage' hI' (hR.of_node (after_false_true _) fun hsent => hsent.after _)
        (hflight.after hout)
  | inbound x hbusy h =>
      cases x with
      | false => exact absurd hI.inbound hbusy
      | true =>
          obtain ⟨⟨stage'', hR'⟩, hout⟩ := hR.inbound blake3 laws (hfits true) hbusy
          rw [h]
          exact .accepted r msgC ti tr hm stage stage'' (hI.of_node (after_true_false _) fun hsent => hsent.after _) hR'
            (hflight.after hout)
  | arrives k x d a hk hidle horder hfrom hdata hstart hnow h =>
      have hin : (x, d) ∈ s.inFlight := List.mem_of_getElem? hk
      cases x with
      | false =>
          rw [Bool.not_false] at horder h
          have hpre : hasWirePrefix a.data = false := by
            rw [hdata]
            apply horder.unprefixed
            rcases hflight.initiator d hin with henc | hmsgC
            · exact .inr henc
            · exact .inl hmsgC.1
          have hresponder : (s.node true).pendingResponders.lookup a.fromAddr.socketAddr = none := by
            rw [hfrom]
            exact hR.responder
          have htakes := Node.receive_unprefixed blake3 hpre hresponder
          rw [h]
          refine .accepted r msgC ti tr hm stage stage' (hI.of_node (after_true_false _) fun hsent => ?_)
            (hR.receives htakes (after_node_self ..) fun hsent => hsent.deliver hk fun hx => by cases hx)
            ((hflight.lose k).after htakes.out)
          exact hsent.deliver hk fun _ nonce ho hsealed => hR.side.receives_sessionInit (hfits true) hreads
            (fun payload room ct nonce => hauth.tagged _ nonce payload room ct) hR.responder horder hfrom hdata ho hsealed
      | true =>
          rw [Bool.not_true] at horder h
          have htakes := hI.takesData blake3 hflight hin horder hfrom hdata
          rw [h]
          refine .accepted r msgC ti tr hm stage stage'
            (hI.receives htakes (after_node_self ..) fun hsent => hsent.deliver hk fun hx => by cases hx)
            (hR.of_node (after_false_true _) fun hsent => ?_) ((hflight.lose k).after htakes.out)
          exact hsent.deliver hk fun _ nonce ho hsealed => hI.side.receives_sessionInit (hfits false) hreads'
            (fun payload room ct nonce => hauth.tagged _ nonce payload room ct) hI.responder horder hfrom hdata ho hsealed

include laws hfits in
/-- **The step lemma**: an undisturbed step in order leads from a phase of the attempt to a phase. -/
theorem Phase.next (hauth : S.Authentic c.publicKey c.networkSecret) (h : Phase c s) (hp : Progress blake3 c s s') :
    Phase c s' := by
  cases h with
  | asking i msgA hA hI hpending hidle hR hflight => exact asking_next hA hI hpending hidle hR hflight hp
  | asked i msgA hA hI hpending hidle hR hflight => exact asked_next laws hfits hA hI hpending hidle hR hflight hp
  | answered i msgA hA r msgB hB hI hpending hidle hR hflight =>
      exact answered_next hA hB hI hpending hidle hR hflight hp
  | dispatched i msgA hA r msgB hB hI hin hR hflight => exact dispatched_next hA hB hI hin hR hflight hp
  | delivered i msgA hA r msgB hB hI hidle hR hflight =>
      exact delivered_next laws hfits hauth hA hB hI hidle hR hflight hp
  | sent r msgC ti tr hm stage hI hR hC hflight => exact sent_next laws hfits hm hI hR hC hflight hp
  | accepted r msgC ti tr hm stage stage' hI hR hflight =>
      exact accepted_next laws hfits hauth hm hI hR hflight hp

end phases

/-! ### The end of an attempt -/

theorem receiver_addr (c : Setting) (x : Bool) : receiver c.addr (.udp (c.addr x)) = some x := by
  cases x with
  | false => exact if_pos rfl
  | true =>
      have hne : TransportAddr.udp (c.addr true) ≠ .udp (c.addr false) := fun h => c.addr_ne (TransportAddr.udp.inj h).symm
      rw [receiver, if_neg hne, if_pos rfl]

/-- No `SessionInit` is left in flight. -/
theorem Sent.handled (h : s.Sent c x t) (hfinished : Finished c.addr c.id s) : (!x, c.sessionInit x) ∈ s.handled := by
  rcases h with ⟨d, nonce, hin, hdst, -⟩ | hhandled
  · refine absurd ?_ (hfinished.inFlight (x, d) hin)
    rw [hdst]
    exact receiver_addr c (!x)
  · exact hhandled

theorem Initiated.done (h : s.Initiated c t stage) (hfinished : Finished c.addr c.id s) : stage = none := by
  rcases h.task with ⟨-, hnone⟩ | ⟨comp, hcompletion, -⟩
  · exact hnone
  · obtain ⟨attempt, hat, hstage⟩ := Node.stage_of_completion hcompletion
    have hwaits := (hfinished.attempt attempt hat).1
    rw [hstage] at hwaits
    cases hwaits

theorem Responded.done (h : s.Responded c t stage) (hfinished : Finished c.addr c.id s) : stage = none := by
  rcases h.task with ⟨-, hnone⟩ | ⟨comp, hcompletion, -⟩
  · exact hnone
  · rw [hfinished.inbound true] at hcompletion
    cases hcompletion

/-- What a node has stored at the end. -/
theorem Side.stored (h : s.Side c x t none) :
    (∃ session, (s.node x).engine.sessions.lookup (c.peer (!x)) = some session ∧ session.transport.state = t ∧
      session.underlay = .udp (c.addr (!x))) ∧
      (s.node x).engine.addrIndex.lookup (.udp (c.addr (!x))) = some (c.peer (!x)) := by
  refine ⟨?_, h.reached.addrIndex.trans (if_pos (by decide))⟩
  obtain ⟨session, hlookup, hstored⟩ := Option.map_eq_some_iff.mp (h.reached.session (by decide))
  obtain ⟨hstate, hunderlay⟩ := Prod.mk.inj hstored
  exact ⟨session, hlookup, hstate, hunderlay⟩

/-- Only the last phase has nothing left to do, and there everything is established. -/
theorem Phase.established {s₀ : Net S} (hauth : S.Authentic c.publicKey c.networkSecret) (h : Phase c s)
    (hfinished : Finished c.addr c.id s) (hfits : ∀ x, (s₀.node x).Fits c x) :
    Established c.networkSecret c.addr s₀ s := by
  cases h with
  | asking i msgA hA hI => cases (hfinished.attempt _ hI.task).1
  | asked i msgA hA hI hpending hidle hR hflight =>
      have hleft := hfinished.inFlight _ (hflight ▸ List.mem_singleton_self _)
      exact absurd (receiver_addr c true) hleft
  | answered i msgA hA r msgB hB hI hpending hidle hR hflight =>
      have hleft := hfinished.inFlight _ (hflight ▸ List.mem_singleton_self _)
      exact absurd (receiver_addr c false) hleft
  | dispatched i msgA hA r msgB hB hI hin => cases hin.symm.trans (hfinished.inbound false)
  | delivered i msgA hA r msgB hB hI => cases (hfinished.attempt _ hI.task).2
  | sent r msgC ti tr hm stage hI hR hC =>
      obtain ⟨d, hin, hdst, -⟩ := hC
      refine absurd ?_ (hfinished.inFlight (false, d) hin)
      rw [hdst]
      exact receiver_addr c true
  | accepted r msgC ti tr hm stage stage' hI hR =>
      obtain rfl := hI.done hfinished
      obtain rfl := hR.done hfinished
      obtain ⟨⟨a, ha, hastate, haunderlay⟩, haindex⟩ := hI.side.stored
      obtain ⟨⟨b, hb, hbstate, hbunderlay⟩, hbindex⟩ := hR.side.stored
      obtain ⟨hreads, hreads'⟩ := reads_of_matched hauth hm
      rw [← hastate, ← hbstate] at hreads hreads'
      refine ⟨⟨a, b, ?_, ?_, haunderlay, hbunderlay, ?_, hauth.decrypts hreads, hauth.decrypts hreads'⟩, ?_, ?_⟩
      · rw [(hfits true).ourPeerId]
        exact ha
      · rw [(hfits false).ourPeerId]
        exact hb
      · rw [(hfits false).key, (hfits true).key, hastate, hbstate]
        exact ⟨msgC, ti, tr, hm.initiatorEnd, hm.responderEnd, rfl, rfl⟩
      · intro x
        rw [(hfits (!x)).ourPeerId]
        cases x with
        | false => exact haindex
        | true => exact hbindex
      · intro x
        rw [(hfits (!x)).sessionInit]
        cases x with
        | false => exact (hR.side.sent (by decide)).handled hfinished
        | true => exact (hI.side.sent (by decide)).handled hfinished

/-! ### Whole attempts -/

variable {publicKey : Bytes32 → Bytes32} {networkSecret : Bytes32} {addr : Bool → SocketAddr} {s₀ : Net S}

/-- The setting of an attempt that starts in `s₀`. -/
def Ready.setting (h : s₀.Ready publicKey networkSecret addr) (haddr : addr false ≠ addr true)
    (hpeers : (s₀.node false).engine.ourPeerId ≠ (s₀.node true).engine.ourPeerId) (start : ℕ) : Setting where
  networkSecret := networkSecret
  publicKey := publicKey
  key x := (s₀.node x).deviceKeys.x25519StaticSecret
  addr := addr
  id := (s₀.node false).nextAttempt
  start := start
  sessionInit x := (s₀.node x).engine.sessionInit
  addr_ne := haddr
  peer_ne := by
    have hpeer : ∀ x, (s₀.node x).engine.ourPeerId =
        .fromBytes (publicKey (s₀.node x).deviceKeys.x25519StaticSecret) := by
      intro x
      rw [(h.node x).ourPeerId_eq, DeviceKeys.peerId, (h.node x).publicKey_eq]
    rw [← hpeer, ← hpeer]
    exact hpeers
  fits x := (h.node x).fits
  encodable x := (h.node x).encodable
  isSessionInit _ := ⟨_, _, _, _, rfl⟩

theorem Ready.fits (h : s₀.Ready publicKey networkSecret addr) (haddr : addr false ≠ addr true)
    (hpeers : (s₀.node false).engine.ourPeerId ≠ (s₀.node true).engine.ourPeerId) (start : ℕ) (x : Bool) :
    (s₀.node x).Fits (h.setting haddr hpeers start) x := by
  refine ⟨(h.node x).secret_eq, rfl, ?_, rfl, ?_⟩
  · rw [(h.node x).ourPeerId_eq, DeviceKeys.peerId, (h.node x).publicKey_eq]
    rfl
  · have hroom := h.room (!x)
    rw [Bool.not_not] at hroom
    exact hroom

variable (blake3) in
/-- The attempt starts in the first phase. -/
theorem Ready.start (h : s₀.Ready publicKey networkSecret addr) (haddr : addr false ≠ addr true)
    (hpeers : (s₀.node false).engine.ourPeerId ≠ (s₀.node true).engine.ourPeerId) (start : ℕ)
    (laws : S.Completes networkSecret) (rng : S.Rng) :
    Phase (h.setting haddr hpeers start) (s₀.attempting blake3 addr rng) := by
  obtain ⟨msgA, i, hinit, hA⟩ := Node.initiate_ok laws (h.node false).secret_eq rfl rng
  have hfree : addr true ∉ (s₀.node false).pending := fun hmem => by
    obtain ⟨id, hid⟩ := Map.mem_iff_lookup.mp hmem
    rw [h.pending] at hid
    cases hid
  simp only [attempting, Net.next, Node.step, Node.start, hinit, if_neg hfree]
  refine .asking i msgA hA ⟨?_, ?_, ?_⟩ ?_ ?_ ⟨?_, ?_, ?_⟩ ?_
  · rw [after_node_self]
    exact AList.lookup_insert _
  · rw [after_node_self]
    exact (h.node false).addrIndex
  · rw [after_node_self]
    exact (h.node false).pendingResponders
  · rw [after_node_self]
    exact AList.lookup_insert _
  · rw [after_node_self]
    exact (h.node false).inbound
  · rw [after_false_true]
    exact (h.node true).inbound
  · rw [after_false_true]
    exact (h.node true).addrIndex
  · rw [after_false_true]
    exact (h.node true).pendingResponders
  · simp only [Net.after, h.inFlight, List.map_nil, List.append_nil]

end Net

end attempt

/-! ### Two transparent nodes -/

namespace Transparent

theorem readMessageB_ok {s : State} {er : UInt8} {k : Bytes32} {payload body : Bytes} (hrole : s.initiator = true)
    (hstage : s.stage = 1) (hopen : openBody s body = some (k, payload)) :
    readMessage s (11 :: s.eph :: er :: body) =
      .ok (payload, { s with peerEph := some er, peerStatic := some k, stage := 2 }) := by
  simp only [readMessage, hrole, hstage, hopen, if_true]

theorem readMessageC_ok {s : State} {ei : UInt8} {k : Bytes32} {payload body : Bytes} (hrole : s.initiator = false)
    (hstage : s.stage = 2) (heph : s.peerEph = some ei) (hopen : openBody s body = some (k, s.static.bytes ++ payload)) :
    readMessage s (12 :: ei :: s.eph :: body) = .ok (payload, { s with peerStatic := some k, stage := 3 }) := by
  simp only [readMessage, hrole, hstage, heph, hopen, Option.bind_some, takeKey_append, Option.map_some, and_self,
    if_true]

/-- Handshakes between honest parties succeed. -/
theorem completes : transparent.Completes secret where
  initiates key rng := ⟨_, _, _, buildInitiator_ok _ key rng, rfl⟩
  answers := by
    rintro ki i msgA ⟨rng', s₀, hbuild, hwrite⟩ kr rng
    obtain rfl := buildInitiator_eq hbuild
    obtain ⟨rfl, rfl⟩ := Prod.mk.inj (Except.ok.inj hwrite)
    exact ⟨_, _, _, _, _, buildResponder_ok _ kr rng, rfl, rfl⟩
  finishes := by
    rintro ki i msgA kr r msgB ⟨ei, s₀, hbuild, hwrite⟩ ⟨er, r₀, payload, r₁, hbuild', hread, hwrite'⟩
    obtain rfl := buildInitiator_eq hbuild
    obtain ⟨rfl, rfl⟩ := Prod.mk.inj (Except.ok.inj hwrite)
    obtain rfl := buildResponder_eq hbuild'
    obtain ⟨rfl, rfl⟩ := Prod.mk.inj (Except.ok.inj hread)
    obtain ⟨rfl, rfl⟩ := Prod.mk.inj (Except.ok.inj hwrite')
    let r₁ : State :=
      { initiator := false, prologue := secret.bytes, static := kr, eph := er, peerEph := some ei, stage := 1 }
    let i₁ : State :=
      { initiator := true, prologue := secret.bytes, static := ki, eph := ei, peerEph := some er,
        peerStatic := some kr, stage := 2 }
    have hopenB : openBody { i₁ with peerEph := none, peerStatic := none, stage := 1 } (sealBody r₁ []) = some (kr, []) :=
      openBody_sealBody rfl []
    have hopenC : openBody { r₁ with stage := 2 } (sealBody i₁ (kr.bytes ++ [])) = some (ki, kr.bytes ++ []) :=
      openBody_sealBody rfl _
    exact ⟨[], i₁, _, _, _, readMessageB_ok rfl rfl hopenB, rfl, rfl, [], _, _, readMessageC_ok rfl rfl rfl hopenC, rfl⟩
  writes t nonce payload _ := ⟨_, if_neg (lt_irrefl _)⟩

theorem twoNodes_ready : twoNodes.Ready id secret addrs where
  node x := by
    cases x <;> exact ⟨rfl, rfl, rfl, rfl, rfl, rfl, by decide +kernel, by decide +kernel, fun a ha => by cases ha⟩
  pending := rfl
  room := by decide +kernel
  inFlight := rfl
  handled := rfl

/-- Node 1 reaches node 2, and its task stores and sends all there is. -/
def reaching : List (Net.Action transparent) :=
  [task false, arrive 0 4, arrive 0 5, loop false] ++ List.replicate 9 (task false)

/-- The datagrams arrive in the order in which they were sent. -/
def orderly : List (Net.Action transparent) :=
  reaching ++ arrive 0 6 :: List.replicate 7 (loop true) ++ [arrive 0 7, arrive 0 8]

/-- The `SessionInit` of node 1 arrives before its message C. -/
def overtaking : List (Net.Action transparent) := reaching ++ [arrive 1 6, arrive 0 7]

end Transparent

/-- **Handshakes in order succeed.**  In every interleaving of the initiator's task with both inbound loops, and
for every order in which the datagrams arrive, provided it is in order: when nothing is left to do, the
two nodes hold the two ends of one session, list each other, and have handled each other's
`SessionInit`. -/
theorem handshake_establishes {publicKey : Bytes32 → Bytes32} {networkSecret : Bytes32}
    (laws : S.Completes networkSecret) (hauth : S.Authentic publicKey networkSecret) (blake3 : Blake3)
    (addr : Bool → SocketAddr) (haddr : addr false ≠ addr true) (s₀ : Net S)
    (hready : s₀.Ready publicKey networkSecret addr)
    (hpeers : (s₀.node false).engine.ourPeerId ≠ (s₀.node true).engine.ourPeerId) (rng : S.Rng) (start : ℕ)
    (as : List (Net.Action S))
    (halong : Along (Net.next blake3 addr)
      (fun s a => Net.Undisturbed addr (s₀.node false).nextAttempt start s a ∧ Net.Ordered addr s a)
      (s₀.attempting blake3 addr rng) as)
    (hfinished : Net.Finished addr (s₀.node false).nextAttempt
      (exec (Net.next blake3 addr) (s₀.attempting blake3 addr rng) as)) :
    Net.Established networkSecret addr s₀ (exec (Net.next blake3 addr) (s₀.attempting blake3 addr rng) as) := by
  let c := hready.setting haddr hpeers start
  have hfits : ∀ x, (s₀.node x).Fits c x := hready.fits haddr hpeers start
  have hstep : ∀ (s : Net S) (a : Net.Action S), ((∀ x, (s.node x).Fits c x) ∧ Net.Phase c s) →
      Net.Undisturbed addr (s₀.node false).nextAttempt start s a ∧ Net.Ordered addr s a →
        (∀ x, ((s.next blake3 addr a).node x).Fits c x) ∧ Net.Phase c (s.next blake3 addr a) := by
    rintro s a ⟨hs, hphase⟩ ⟨hundisturbed, hordered⟩
    exact ⟨Net.fits_next hs a, hphase.next laws hs hauth (Net.progresses hundisturbed hordered)⟩
  have hrun := halong.invariant hstep ⟨Net.fits_next hfits _, hready.start blake3 haddr hpeers start laws rng⟩
  exact hrun.2.established hauth hfinished hfits

open Transparent in
/-- Node 1 reaches node 2, and nothing is overtaken. -/
theorem handshake_establishes_orderly :
    Net.Established secret addrs twoNodes
      (exec (Net.next blake3 addrs) (twoNodes.attempting blake3 addrs (3 : UInt8)) orderly) :=
  handshake_establishes completes authentic blake3 addrs (by decide) twoNodes twoNodes_ready (by decide) (3 : UInt8) 0
    orderly (by decide +kernel) (by decide +kernel)

open Transparent in
/-- If its `SessionInit` overtakes message C, node 2 takes it for message C, drops its responder, and has
no session at the end. -/
theorem handshake_overtaken :
    ¬ ∀ (blake3 : Blake3) (addr : Bool → SocketAddr) (s₀ : Net transparent) (rng : UInt8) (start : ℕ)
      (as : List (Net.Action transparent)), addr false ≠ addr true → s₀.Ready id secret addr →
        (s₀.node false).engine.ourPeerId ≠ (s₀.node true).engine.ourPeerId →
          Along (Net.next blake3 addr) (Net.Undisturbed addr (s₀.node false).nextAttempt start)
            (s₀.attempting blake3 addr rng) as →
            Net.Finished addr (s₀.node false).nextAttempt
              (exec (Net.next blake3 addr) (s₀.attempting blake3 addr rng) as) →
              Net.Established secret addr s₀ (exec (Net.next blake3 addr) (s₀.attempting blake3 addr rng) as) := by
  intro h
  obtain ⟨_, b, -, hb, -⟩ := (h blake3 addrs twoNodes 3 0 overtaking (by decide) twoNodes_ready (by decide)
    (by decide +kernel) (by decide +kernel)).sessions
  have hnone : ((exec (Net.next blake3 addrs) (twoNodes.attempting blake3 addrs (3 : UInt8)) overtaking).node
      true).engine.sessions.lookup (twoNodes.node false).engine.ourPeerId = none := by
    rw [AList.lookup_eq_none]
    decide +kernel
  cases hnone.symm.trans hb

end SeedNet
