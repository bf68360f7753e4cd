import SeedNet.Provenance

/-! # A handshake without interference

`Snow.Completes` says that the calls of a handshake between two honest parties succeed, whatever their keys
and their randomness; the first section turns it into the calls of `noise.rs` and of the tasks.

The second section follows the updates after a completed handshake: `Engine.Reached` says what they
have stored by a given stage, and the stage `sessionInit` sends a `SessionInit` that is sealed for the
other end (`Completion.mem_run_sessionInit`).  The third section is the other end of that
datagram: a session with the matching transport handles what was sealed for it (`Node.onData_sealed`). -/

namespace SeedNet

variable {S : Snow}

open Snow (WroteA Answered InitiatorEnd ResponderEnd)

/-! ### The calls of a handshake -/

/-- The calls of a handshake between honest parties succeed. -/
structure Snow.Completes (S : Snow) (networkSecret : Bytes32) : Prop where
  initiates : ∀ (key : Bytes32) rng, ∃ s₀ m s₁, S.buildInitiator networkSecret.bytes key.bytes rng = .ok s₀ ∧
    S.writeMessage s₀ [] = .ok (m, s₁)
  answers : ∀ ki (i : S.HandshakeState) msgA, WroteA networkSecret ki i msgA → ∀ (kr : Bytes32) rng, ∃ s₀ payload s₁ m s₂,
    S.buildResponder networkSecret.bytes kr.bytes rng = .ok s₀ ∧ S.readMessage s₀ msgA = .ok (payload, s₁) ∧
      S.writeMessage s₁ [] = .ok (m, s₂)
  finishes : ∀ ki (i : S.HandshakeState) msgA kr r msgB, WroteA networkSecret ki i msgA →
    Answered networkSecret kr msgA r msgB → ∃ payload s₁ m s₂ t,
      S.readMessage i msgB = .ok (payload, s₁) ∧ S.writeMessage s₁ [] = .ok (m, s₂) ∧ intoTransport s₂ = .ok t ∧
        ∃ payload' s₃ t', S.readMessage r m = .ok (payload', s₃) ∧ intoTransport s₃ = .ok t'
  writes : ∀ (t : S.StatelessTransportState) nonce payload, payload.length + 16 ≤ maxMessageLen →
    ∃ ct, S.transportWrite t nonce payload (payload.length + 16) = .ok ct

/-- Message C is what the initiator `attempt` answers to message B, and the responder `r` accepts it; the
two transports are the two ends of the handshake. -/
structure Matched (publicKey : Bytes32 → Bytes32) (networkSecret ki kr : Bytes32) (r : ResponderHandshake S)
    (msgC : Bytes) (ti tr : SecureTransport S) : Prop where
  finish : ∃ result, r.finish msgC = .ok result ∧ result.transport = tr
  initiatorEnd : InitiatorEnd networkSecret ki msgC ti
  responderEnd : ResponderEnd networkSecret kr msgC tr
  initiatorSees : ti.remoteStatic = publicKey kr
  responderSees : tr.remoteStatic = publicKey ki

namespace Node

variable {n : Node S} {networkSecret key : Bytes32}

theorem initiate_ok (laws : S.Completes networkSecret) (hsecret : n.networkSecret = networkSecret)
    (hkey : n.deviceKeys.x25519StaticSecret = key) (rng : S.Rng) :
    ∃ msgA i, n.initiate rng = .ok (msgA, i) ∧ WroteA networkSecret key i.state msgA := by
  obtain ⟨s₀, m, s₁, hbuild, hwrite⟩ := laws.initiates key rng
  refine ⟨m, ⟨s₁⟩, ?_, rng, s₀, hbuild, hwrite⟩
  simp only [initiate, InitiatorHandshake.new, initiatorState, hsecret, hkey, hbuild, Except.mapError, Except.map,
    bind, Except.bind, InitiatorHandshake.writeMessageA, writeStep, hwrite]

theorem answer_ok (laws : S.Completes networkSecret) (hsecret : n.networkSecret = networkSecret)
    (hkey : n.deviceKeys.x25519StaticSecret = key) {ki : Bytes32} {i : S.HandshakeState} {msgA : Bytes}
    (hA : WroteA networkSecret ki i msgA) (a : Arrival S) :
    ∃ msgB r, n.answer a msgA = .ok (msgB, r) ∧ Answered networkSecret key msgA r.state msgB := by
  obtain ⟨s₀, payload, s₁, m, s₂, hbuild, hread, hwrite⟩ := laws.answers ki i msgA hA key a.rng
  refine ⟨m, ⟨s₂⟩, ?_, a.rng, s₀, payload, s₁, hbuild, hread, hwrite⟩
  simp only [answer, ResponderHandshake.new, responderState, hsecret, hkey, hbuild, Except.mapError, Except.map,
    bind, Except.bind, ResponderHandshake.readMessageA, readStep, hread, ResponderHandshake.writeMessageB, writeStep,
    hwrite]

end Node

/-- The initiator accepts message B, and the responder accepts what it answers. -/
theorem Attempt.answer_ok {publicKey : Bytes32 → Bytes32} {networkSecret ki kr : Bytes32}
    (laws : S.Completes networkSecret) (hauth : S.Authentic publicKey networkSecret) {attempt : Attempt S}
    {msgA msgB : Bytes} {r : ResponderHandshake S} (hA : WroteA networkSecret ki attempt.handshake.state msgA)
    (hB : Answered networkSecret kr msgA r.state msgB) :
    ∃ result tr, attempt.answer (noiseHandshakeResponderPrefix ++ msgB) = .ok result ∧
      Matched publicKey networkSecret ki kr r result.msgBytes result.transport tr := by
  obtain ⟨payload, s₁, m, s₂, t, hread, hwrite, ht, payload', s₃, t', hread', ht'⟩ :=
    laws.finishes ki _ msgA kr _ msgB hA hB
  have hi : InitiatorEnd networkSecret ki m t := ⟨s₂, ⟨_, msgA, msgB, payload, s₁, hA, hread, hwrite⟩, ht⟩
  have hr : ResponderEnd networkSecret kr m t' := ⟨_, msgB, payload', s₃, ⟨msgA, hB⟩, hread', ht'⟩
  obtain ⟨hsees, hsees'⟩ := hauth.statics _ _ _ _ _ hi hr
  refine ⟨⟨t, m⟩, t', ?_, ⟨⟨t', []⟩, ?_, rfl⟩, hi, hr, hsees, hsees'⟩
  · simp only [Attempt.answer, startsWith_append, Bool.not_true, Bool.false_eq_true, if_false, List.drop_left,
      InitiatorHandshake.readMessageB, readStep, hread, Except.mapError, Except.map, bind, Except.bind,
      InitiatorHandshake.finish, writeStep, hwrite, ht, pure, Except.pure]
  · simp only [ResponderHandshake.finish, readStep, hread', Except.mapError, bind, Except.bind, ht', pure, Except.pure]

/-! ### The updates after a completed handshake -/

/-- A message for a peer with a session is encrypted, and nothing else is sent. -/
theorem Engine.transmit_single {e : Engine (SecureTransport S)} {s : Send} {session : PeerSession (SecureTransport S)}
    (hsession : e.sessions.lookup s.peer = some session) {ct : Bytes}
    (hwrite : S.transportWrite session.transport.state session.transport.sendNonce (serializeMessage s.msg)
      ((serializeMessage s.msg).length + 16) = .ok ct) :
    ∃ d, (e.transmit [s]).2 = [d] ∧ d.dst = s.addr.getD session.underlay ∧
      d.Sealed session.transport.state session.transport.sendNonce s.msg ∧
      d.origin = .encrypted session.transport.state session.transport.sendNonce s.msg := by
  refine ⟨{ dst := s.addr.getD session.underlay
            bytes := toLeBytes session.transport.sendNonce ++ ct
            origin := .encrypted session.transport.state session.transport.sendNonce s.msg }, ?_, rfl, ⟨_, ct, hwrite, rfl⟩,
    rfl⟩
  simp only [transmit, transmitOne, hsession, SecureTransport.encrypt, hwrite, List.append_nil]

def Stage.rank : Stage → ℕ
  | .relayPath => 0
  | .session => 1
  | .addrIndex => 2
  | .route => 3
  | .sessionInit => 4
  | .announce => 5
  | .directories => 6
  | .register => 7

/-- How many updates are done when `stage` is the next one; `none` stands for the end. -/
def progress : Option Stage → ℕ
  | some stage => stage.rank
  | none => 8

/-- What the updates before `stage` have stored, for a handshake with `p` at `u`; before them the address was
in nobody's use. -/
structure Engine.Reached (e : Engine (SecureTransport S)) (p : PeerId) (u : TransportAddr)
    (t : S.StatelessTransportState) (stage : Option Stage) : Prop where
  session : 2 ≤ progress stage →
    (e.sessions.lookup p).map (fun s => (s.transport.state, s.underlay)) = some (t, u)
  addrIndex : e.addrIndex.lookup u = if 3 ≤ progress stage then some p else none

theorem Engine.Reached.of_same {e e' : Engine (SecureTransport S)} {p : PeerId} {u : TransportAddr}
    {t : S.StatelessTransportState} {stage stage' : Option Stage} (h : e.Reached p u t stage)
    (hs : e.SameSessions e') (h2 : 2 ≤ progress stage' → 2 ≤ progress stage)
    (h3 : 3 ≤ progress stage' ↔ 3 ≤ progress stage) : e'.Reached p u t stage' where
  session := by
    intro hp
    rw [hs.sessions]
    exact h.session (h2 hp)
  addrIndex := by
    rw [hs.addrIndex, h.addrIndex]
    simp only [h3]

namespace Completion

variable {blake3 : Blake3} {c : Completion S} {e : Engine (SecureTransport S)}

theorem progress_next (hs : c.stage ≠ .session) (ha : c.stage ≠ .addrIndex) :
    (2 ≤ progress (c.next.map (·.stage)) → 2 ≤ progress (some c.stage)) ∧
      (3 ≤ progress (c.next.map (·.stage)) ↔ 3 ≤ progress (some c.stage)) := by
  obtain ⟨initiator, p, u, t, stage⟩ := c
  cases stage
  case session => exact absurd rfl hs
  case addrIndex => exact absurd rfl ha
  case announce => cases initiator <;> simp [next, progress, Stage.rank]
  all_goals simp [next, progress, Stage.rank]

theorem run_reached (h : e.Reached c.peerId c.underlay c.transport.state (some c.stage)) :
    (c.run blake3 e).1.Reached c.peerId c.underlay c.transport.state (c.next.map (·.stage)) := by
  by_cases hs : c.stage = .session
  · have hindex := h.addrIndex
    rw [hs] at hindex
    refine ⟨fun _ => ?_, ?_⟩
    · simp only [run, hs, Engine.insertSession, AList.lookup_insert, Option.map_some]
    · simp only [run, next, hs, Engine.insertSession, Option.map_some]
      exact hindex
  · by_cases ha : c.stage = .addrIndex
    · refine ⟨fun _ => ?_, ?_⟩
      · simp only [run, ha, Engine.insertAddrIndex]
        exact h.session (by rw [ha]; decide)
      · simp only [run, next, ha, Engine.insertAddrIndex, AList.lookup_insert, Option.map_some]
        rfl
    · obtain ⟨h2, h3⟩ := progress_next hs ha
      exact h.of_same (run_sameSessions blake3 hs ha) h2 h3

variable (blake3) in
/-- The stage `sessionInit` sends our `SessionInit`, sealed by the transport of the session. -/
theorem mem_run_sessionInit {networkSecret : Bytes32} (laws : S.Completes networkSecret)
    (h : e.Reached c.peerId c.underlay c.transport.state (some c.stage)) (hstage : c.stage = .sessionInit)
    (hlen : (serializeMessage e.sessionInit).length + 16 ≤ maxMessageLen) :
    ∃ d ∈ (c.run blake3 e).2, ∃ nonce, d.dst = c.underlay ∧
      d.origin = .encrypted c.transport.state nonce e.sessionInit ∧
        d.Sealed c.transport.state nonce e.sessionInit := by
  obtain ⟨session, hl, hst⟩ := Option.map_eq_some_iff.mp (h.session (by rw [hstage]; decide))
  obtain ⟨hstate, -⟩ := Prod.mk.inj hst
  obtain ⟨ct, hwrite⟩ := laws.writes session.transport.state session.transport.sendNonce _ hlen
  obtain ⟨d, hout, hdst, hsealed, horigin⟩ := Engine.transmit_single
    (s := { peer := c.peerId, msg := e.sessionInit, addr := some c.underlay }) hl hwrite
  rw [hstate] at hsealed horigin
  refine ⟨d, ?_, session.transport.sendNonce, hdst, horigin, hsealed⟩
  have hrun : (c.run blake3 e).2 = [d] := by
    simp only [run, hstage, Engine.sendSessionInit]
    exact hout
  rw [hrun]
  exact List.mem_singleton_self d

end Completion

/-! ### Messages from the other end -/

theorem copyInto_zero_take (dst src : Bytes) : (copyInto dst 0 src).take src.length = src := by
  rw [copyInto, List.take_zero, List.nil_append, List.take_left]

theorem length_le_copyInto (dst src : Bytes) : dst.length ≤ (copyInto dst 0 src).length := by
  simp only [copyInto, List.length_append, List.length_take, List.length_drop]
  omega

theorem SecureTransport.decryptInto_sealed {t : SecureTransport S} {ts : S.StatelessTransportState} {nonce : UInt64}
    {msg : Message} {d : Datagram S} {out : Bytes} (hsealed : d.Sealed ts nonce msg)
    (hreads : Snow.Reads ts t.state) (hfresh : t.nonceWindow.fresh nonce = true)
    (htagged : ∀ payload room ct, S.transportWrite ts nonce payload room = .ok ct → ct.length = payload.length + 16)
    (hroom : (serializeMessage msg).length ≤ out.length) :
    ∃ t', t.decryptInto d.bytes out =
      (.ok (serializeMessage msg).length, copyInto out 0 (serializeMessage msg), t') := by
  obtain ⟨room, ct, hwrite, hd⟩ := hsealed
  have hlen := htagged _ _ _ hwrite
  refine ⟨{ t with nonceWindow := (t.nonceWindow.checkAndInsert nonce).2 }, ?_⟩
  rw [hd, SecureTransport.decryptInto, t.checkHeader_of_fresh (by omega) hfresh]
  dsimp only
  rw [hreads _ _ _ _ hwrite out.length hroom]

namespace Node

variable {blake3 : Blake3} {n : Node S} {a : Arrival S}

/-- A session handles what the other end has sealed for it. -/
theorem onData_sealed {peerId : PeerId} {session : PeerSession (SecureTransport S)} {ts : S.StatelessTransportState}
    {nonce : UInt64} {msg : Message} {d : Datagram S} (hlookup : n.engine.sessions.lookup peerId = some session)
    (hdata : a.data = d.bytes) (hsealed : d.Sealed ts nonce msg) (hreads : Snow.Reads ts session.transport.state)
    (hfresh : session.transport.nonceWindow.fresh nonce = true)
    (htagged : ∀ payload room ct, S.transportWrite ts nonce payload room = .ok ct → ct.length = payload.length + 16)
    (hroom : (serializeMessage msg).length ≤ n.plainBuf.length) (hmsg : msg.Encodable) :
    (n.onData blake3 a peerId).handled = some msg := by
  obtain ⟨t', hdec⟩ := SecureTransport.decryptInto_sealed hsealed hreads hfresh htagged hroom
  have hmsg' := deserialize_serialize msg hmsg []
  rw [List.append_nil] at hmsg'
  simp only [onData, hlookup, hdata, hdec, copyInto_zero_take, hmsg', onMessage]

theorem length_le_onData (peerId : PeerId) : n.plainBuf.length ≤ (n.onData blake3 a peerId).node.plainBuf.length := by
  have hbuf : ∀ t : SecureTransport S, n.plainBuf.length ≤ (t.decryptInto a.data n.plainBuf).2.1.length := by
    intro t
    unfold SecureTransport.decryptInto
    split
    · exact le_refl _
    · split
      · exact le_refl _
      · exact length_le_copyInto _ _
  unfold onData
  split
  · exact le_refl _
  · next session _ =>
      have h := hbuf session.transport
      split <;> rename_i hd <;> rw [hd] at h
      · exact h
      · dsimp only
        split <;> exact h

/-- The plaintext buffer never shrinks. -/
theorem length_le_next (action : NodeAction S) : n.plainBuf.length ≤ (n.next blake3 action).plainBuf.length := by
  by_cases ha : ∃ arrival, action = .receive arrival
  · obtain ⟨arrival, rfl⟩ := ha
    simp only [next, step]
    split
    · have hrec := received blake3 n arrival
      generalize n.receive blake3 arrival = o at hrec
      cases hrec with
      | data peerId hindex => exact length_le_onData (n := n.retainResponders arrival.now) peerId
      | _ => exact le_refl _
    · exact le_refl _
  · rw [(next_fixed blake3 n fun arrival he => ha ⟨arrival, he⟩).2.2.2]

end Node

end SeedNet
