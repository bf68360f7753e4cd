import Mathlib.Data.List.Perm.Subperm
import SeedNet.OpenNetwork
import SeedNet.SecureChannel

/-! # Every message is handled at most once

On an open network datagrams can be delivered again and again, and a node can shake hands again with a peer that it
has a session with.  `Node.WindowEffect` says what a step does to the replay windows of the sessions, and
`OpenNetwork.Recorded` is the invariant that every window covers what was read under the state of its session.

`handled_at_most_once`: the messages that are handled match, one by one, distinct datagrams that were sent, as long as
no datagram moves the top of a window by exactly its width and no handshake ends with the keys of an earlier one. -/

namespace SeedNet

open Run (exec Along)

variable {S : Snow}

/-! ### The windows of the sessions -/

namespace Engine

variable {e e' : Engine (SecureTransport S)}

/-- The state and the replay window of the session with `peer`. -/
def window (e : Engine (SecureTransport S)) (peer : PeerId) : Option (S.StatelessTransportState × NonceWindow) :=
  (e.sessions.lookup peer).map fun s => (s.transport.state, s.transport.nonceWindow)

theorem window_of_lookup {peer : PeerId} {session : PeerSession (SecureTransport S)}
    (h : e.sessions.lookup peer = some session) :
    e.window peer = some (session.transport.state, session.transport.nonceWindow) := by
  rw [window, h]
  rfl

theorem window_congr (h : e'.sessions = e.sessions) : e'.window = e.window := by
  funext peer
  rw [window, h]
  rfl

theorem window_setTransport {peer : PeerId} {session : PeerSession (SecureTransport S)} {t : SecureTransport S}
    (h : e.sessions.lookup peer = some session) (p : PeerId) :
    (e.setTransport peer session t).window p = if p = peer then some (t.state, t.nonceWindow) else e.window p := by
  rw [window, setTransport, Map.lookup_replace]
  split
  · rw [h]
    rfl
  · rfl

/-- Sending leaves the windows as they are. -/
theorem window_transmitOne (s : Send) : (e.transmitOne s).1.window = e.window := by
  unfold transmitOne
  cases h : e.sessions.lookup s.peer with
  | none => rfl
  | some session =>
      have hkeeps : ∀ t : SecureTransport S, t.state = session.transport.state →
          t.nonceWindow = session.transport.nonceWindow → (e.setTransport s.peer session t).window = e.window := by
        intro t hstate hwindow
        funext p
        rw [window_setTransport h]
        split
        · next hp => rw [hp, window_of_lookup h, hstate, hwindow]
        · rfl
      dsimp only [SecureTransport.encrypt]
      cases S.transportWrite session.transport.state session.transport.sendNonce (serializeMessage s.msg)
          ((serializeMessage s.msg).length + 16) with
      | ok ct => exact hkeeps _ rfl rfl
      | error err => exact hkeeps _ rfl rfl

theorem window_transmit (sends : List Send) : (e.transmit sends).1.window = e.window := by
  induction sends generalizing e with
  | nil => rfl
  | cons s sends ih => exact ih.trans (window_transmitOne s)

end Engine

/-- The session that an update stores. -/
def Update.stored : Update S → Option (Completion S)
  | .complete c => if c.stage = .session then some c else Option.none
  | _ => Option.none

/-- What an update does to the windows. -/
theorem Update.apply_window (blake3 : Blake3) (e : Engine (SecureTransport S)) (u : Update S) :
    (u.apply blake3 e).window = e.window ∨
      (∃ c ∈ u.stored, ∀ p, (u.apply blake3 e).window p =
        if p = c.peerId then some (c.transport.state, c.transport.nonceWindow) else e.window p) ∨
      ∃ peer, ∀ p, (u.apply blake3 e).window p = if p = peer then Option.none else e.window p := by
  cases u with
  | message nowMs fromAddr msg =>
      exact .inl (Engine.window_congr (Engine.handleMessage_frame blake3 nowMs fromAddr msg).sessions)
  | complete c =>
      rw [apply, Completion.run]
      cases hstage : c.stage with
      | session =>
          refine .inr (.inl ⟨c, by rw [stored, if_pos hstage]; rfl, fun p => ?_⟩)
          dsimp only [Engine.window, Engine.insertSession]
          rw [Map.lookup_insert]
          split <;> rfl
      | relayPath | addrIndex | route | register => exact .inl rfl
      | sessionInit | announce | directories => exact .inl (Engine.window_transmit _)
  | removeSession peer =>
      refine .inr (.inr ⟨peer, fun p => ?_⟩)
      dsimp only [apply, Engine.window, Engine.removeSession]
      rw [Map.lookup_erase]
      split <;> rfl
  | tunPacket candidate packet =>
      obtain ⟨t, heng⟩ := e.handleTunPacket_routes candidate packet
      refine .inl (Engine.window_congr ?_)
      rw [apply, heng]
  | healthcheck nowMs peerId =>
      refine .inl (Engine.window_congr ?_)
      rw [apply, Engine.healthcheck]
      split <;> rfl
  | none | removeAddrIndex | relayFlag | stunAddr => exact .inl rfl

namespace Node

variable {blake3 : Blake3} {n : Node S}

/-- A step of an initiator task changes the windows as its update does. -/
theorem attemptStep_window (id : ℕ) (sent : Bool) (token : UInt64) :
    (n.attemptStep blake3 id sent token).node.engine.window =
      ((n.update (.task (.attempt id sent token))).apply blake3 n.engine).window := by
  simp only [update, attemptStep]
  cases hat : n.attempts.lookup id with
  | none =>
      simp only [completion, hat, Option.bind_none]
      rfl
  | some attempt =>
      rw [completion_some_of_lookup hat]
      dsimp only
      cases hstage : attempt.stage with
      | sendA taggedA => cases sent <;> rfl
      | sendFailed | timedOut | holePunch => rfl
      | requestRelay => exact Engine.window_transmit _
      | waitB =>
          cases hinbox : attempt.inbox with
          | some data => exact Engine.window_congr (congrArg _ (onMessageB_engine id attempt data sent))
          | none =>
              dsimp only
              split <;> rfl
      | complete c =>
          dsimp only
          cases c.next <;> rfl

/-- So does the removal of a session. -/
theorem removed_window (id : PeerId) :
    (n.removed id).engine.window = ((n.update (.task (.removed id))).apply blake3 n.engine).window := by
  simp only [update, removed]
  cases hr : n.removal with
  | some underlay => rfl
  | none =>
      rw [if_pos rfl]
      cases hl : n.engine.sessions.lookup id with
      | some session => rfl
      | none =>
          -- there is no session to remove
          funext p
          dsimp only [Update.apply, Engine.window, Engine.removeSession]
          rw [Map.lookup_erase]
          split
          · next hp => rw [hp, hl]
          · rfl

/-- The steps other than those of the inbound loop change the windows as their update does. -/
theorem loopNext_window (a : LoopAction S) (ha : ∀ arrival, a ≠ .task (.receive arrival)) :
    (n.loopNext blake3 a).engine.window = ((n.update a).apply blake3 n.engine).window := by
  cases a with
  | tunPacket | healthcheck => exact Engine.window_transmit _
  | relayFlag | stunAddr => rfl
  | task a =>
      cases a with
      | receive arrival => exact absurd rfl (ha arrival)
      | broadcast sends => exact Engine.window_transmit _
      | attempt id sent token => exact attemptStep_window id sent token
      | removed id => exact removed_window id
      | inbound =>
          simp only [update, completion_inbound, loopNext, loopStep, step, inboundStep]
          cases n.inbound with
          | idle | complete => rfl
          | dispatch id data => exact Engine.window_congr (congrArg _ (deliverToAttempt_engine ..))
      | start addr rng =>
          simp only [update, loopNext, loopStep, step, start]
          split
          · rfl
          · split <;> rfl
      | timeout id =>
          simp only [update, loopNext, loopStep, step, timeout]
          split
          · rfl
          · split <;> rfl
      | discover addr =>
          simp only [update, loopNext, loopStep, step, discover]
          split
          · split <;> rfl
          · rfl
      | discovery =>
          simp only [update, loopNext, loopStep, step, discoveryStep]
          cases n.discovery with
          | none => rfl
          | some stage => cases stage <;> rfl
      | removal =>
          simp only [update, loopNext, loopStep, step, removalStep]
          cases n.removal <;> rfl

/-- A step takes nothing, or the message of a datagram with the session of its sender. -/
theorem takes_cases (n : Node S) (a : LoopAction S) :
    n.decrypts a = [] ∧ n.takes a = [] ∨
      ∃ arrival m msg peer session, a = .task (.receive arrival) ∧ n.opens arrival = some (m, msg) ∧
        n.dataFrom arrival = some peer ∧ n.engine.sessions.lookup peer = some session ∧
        n.decrypts a = [(peer, msg)] ∧
        n.takes a = [(session.transport.state, SecureTransport.datagramNonce arrival.data)] := by
  by_cases ha : ∃ arrival, a = .task (.receive arrival)
  · obtain ⟨arrival, rfl⟩ := ha
    simp only [decrypts, takes, messageIn]
    cases ho : n.opens arrival with
    | none =>
        left
        cases n.dataFrom arrival <;> exact ⟨rfl, rfl⟩
    | some r =>
        obtain ⟨m, msg⟩ := r
        obtain ⟨peer, -, -, -, hfrom, ⟨session, hlookup, -⟩, -⟩ := read_of_opens ho
        refine .inr ⟨arrival, m, msg, peer, session, rfl, ho, hfrom, hlookup, ?_, ?_⟩
        · rw [hfrom]
          rfl
        · rw [hfrom, Option.bind_some, hlookup]
          rfl
  · left
    cases a with
    | tunPacket | healthcheck | relayFlag | stunAddr => exact ⟨rfl, rfl⟩
    | task a =>
        cases a with
        | receive arrival => exact absurd ⟨arrival, rfl⟩ ha
        | _ => exact ⟨rfl, rfl⟩

theorem takes_of_not_opens {arrival : Arrival S} (h : n.opens arrival = none) :
    n.takes (.task (.receive arrival)) = [] := by
  rw [takes, messageIn, h]
  rfl

/-- What a step does to the windows. -/
inductive WindowEffect (n n' : Node S) (a : LoopAction S) : Prop
  | same (htakes : n.takes a = []) (h : n'.engine.window = n.engine.window)
  | stores (c : Completion S) (htakes : n.takes a = []) (hc : c ∈ (n.update a).stored)
      (h : ∀ p, n'.engine.window p =
        if p = c.peerId then some (c.transport.state, c.transport.nonceWindow) else n.engine.window p)
  | removes (peer : PeerId) (htakes : n.takes a = [])
      (h : ∀ p, n'.engine.window p = if p = peer then none else n.engine.window p)
  | reads (arrival : Arrival S) (peer : PeerId) (session : PeerSession (SecureTransport S))
      (ha : a = .task (.receive arrival)) (hfrom : n.dataFrom arrival = some peer)
      (hlookup : n.engine.sessions.lookup peer = some session)
      (h : ∀ p, n'.engine.window p = if p = peer then
        some (session.transport.state,
          ((DecryptCall.decryptInto arrival.data n.plainBuf).next session.transport).nonceWindow)
        else n.engine.window p)

theorem window_onMessage {m : Node S} (arrival : Arrival S) (msg : Message) :
    (m.onMessage blake3 arrival msg).node.engine.window = m.engine.window :=
  (Engine.window_transmit _).trans
    (Engine.window_congr (Engine.handleMessage_frame blake3 arrival.nowMs arrival.fromAddr msg).sessions)

/-- A datagram for a session goes through its window. -/
theorem window_onData (arrival : Arrival S) {peer : PeerId} {session : PeerSession (SecureTransport S)}
    (hlookup : n.engine.sessions.lookup peer = some session) (p : PeerId) :
    (n.onData blake3 arrival peer).node.engine.window p = if p = peer then
      some (session.transport.state,
        ((DecryptCall.decryptInto arrival.data n.plainBuf).next session.transport).nonceWindow)
    else n.engine.window p := by
  have hstate := DecryptCall.next_state (t := session.transport) (c := .decryptInto arrival.data n.plainBuf)
  rw [onData_eq, decryptData, hlookup]
  dsimp only [DecryptCall.next, DecryptCall.run] at hstate ⊢
  generalize session.transport.decryptInto arrival.data n.plainBuf = decrypted at hstate ⊢
  obtain ⟨err | len, buf, t⟩ := decrypted
  · dsimp only at hstate
    exact (Engine.window_setTransport hlookup p).trans (by rw [hstate])
  · dsimp only at hstate ⊢
    have hset := (Engine.window_setTransport (t := t) hlookup p).trans (by rw [hstate])
    cases (deserializeMessage (buf.take len)).toOption with
    | none => exact hset
    | some msg => exact (congrFun (window_onMessage arrival msg) p).trans hset

theorem windowEffect (n : Node S) (a : LoopAction S) : WindowEffect n (n.loopNext blake3 a) a := by
  by_cases ha : ∃ arrival, a = .task (.receive arrival)
  · obtain ⟨arrival, rfl⟩ := ha
    simp only [loopNext, loopStep, step]
    cases hi : n.inbound with
    | dispatch | complete => exact .same (takes_of_not_opens (by rw [opens, hi])) rfl
    | idle =>
        have hopens := opens_of_idle n arrival hi
        dsimp only
        cases hfrom : n.dataFrom arrival with
        | none =>
            refine .same (takes_of_not_opens ?_) (by rw [receive_engine blake3 hfrom])
            rw [hopens, hfrom]
            rfl
        | some peer =>
            rw [onData_of_dataFrom blake3 hfrom]
            cases hlookup : n.engine.sessions.lookup peer with
            | some session =>
                exact .reads arrival peer session rfl hfrom hlookup
                  (window_onData (n := n.retainResponders arrival.now) arrival hlookup)
            | none =>
                have hnone : (n.retainResponders arrival.now).engine.sessions.lookup peer = none := hlookup
                refine .same (takes_of_not_opens ?_) ?_
                · rw [hopens, hfrom, Option.bind_some, decryptData, hnone]
                  rfl
                · rw [onData, hnone]
                  rfl
  · have htakes : n.takes a = [] := by
      rcases n.takes_cases a with h | ⟨arrival, -, -, -, -, h, -⟩
      · exact h.2
      · exact absurd ⟨arrival, h⟩ ha
    have hwindow : (n.loopNext blake3 a).engine.window = _ := loopNext_window a fun arrival h => ha ⟨arrival, h⟩
    rcases Update.apply_window blake3 n.engine (n.update a) with h | ⟨c, hc, h⟩ | ⟨peer, h⟩
    · exact .same htakes (hwindow.trans h)
    · exact .stores c htakes hc fun p => by rw [hwindow, h]
    · exact .removes peer htakes fun p => by rw [hwindow, h]

/-- A message is taken from a datagram that the window of the session takes. -/
theorem plaintext_of_opens {arrival : Arrival S} {m : Node S} {msg : Message} {peer : PeerId}
    {session : PeerSession (SecureTransport S)} (h : n.opens arrival = some (m, msg))
    (hfrom : n.dataFrom arrival = some peer) (hlookup : n.engine.sessions.lookup peer = some session) :
    ∃ plain, (DecryptCall.decryptInto arrival.data n.plainBuf).plaintext session.transport = some plain := by
  cases hi : n.inbound with
  | dispatch | complete =>
      rw [opens, hi] at h
      cases h
  | idle =>
      have hl : (n.retainResponders arrival.now).engine.sessions.lookup peer = some session := hlookup
      rw [opens_of_idle n arrival hi, hfrom, Option.bind_some, decryptData, hl] at h
      dsimp only at h
      rw [DecryptCall.plaintext]
      split at h
      · cases h
      · next len buf t hdecrypt =>
          have hd : session.transport.decryptInto arrival.data n.plainBuf = (.ok len, buf, t) := hdecrypt
          rw [hd]
          exact ⟨_, rfl⟩

/-- What a step takes with a session was read under its state, and the window took the nonce. -/
theorem taken_of_receive {arrival : Arrival S} {peer : PeerId} {session : PeerSession (SecureTransport S)}
    (hfrom : n.dataFrom arrival = some peer) (hlookup : n.engine.sessions.lookup peer = some session)
    {r : S.StatelessTransportState × UInt64} (h : r ∈ n.takes (.task (.receive arrival))) :
    r = (session.transport.state, SecureTransport.datagramNonce arrival.data) ∧
      ∃ m msg plain, n.opens arrival = some (m, msg) ∧
        (DecryptCall.decryptInto arrival.data n.plainBuf).plaintext session.transport = some plain := by
  rcases n.takes_cases (.task (.receive arrival)) with
    ⟨-, hnone⟩ | ⟨_, m, msg, peer', session', ha, hopens, hfrom', hlookup', -, htakes⟩
  · exact absurd (hnone ▸ h) List.not_mem_nil
  · cases ha
    cases hfrom.symm.trans hfrom'
    cases hlookup.symm.trans hlookup'
    obtain ⟨plain, hplain⟩ := plaintext_of_opens hopens hfrom hlookup
    exact ⟨List.mem_singleton.mp (htakes ▸ h), m, msg, plain, hopens, hplain⟩

/-! ### Fresh windows and new keys -/

/-- A completed handshake has an unused window. -/
def FreshWindows (n : Node S) : Prop := ∀ who c, n.completion who = some c → c.transport.nonceWindow = {}

theorem FreshWindows.next (h : n.FreshWindows) (a : NodeAction S) : (n.next blake3 a).FreshWindows := by
  intro who c hc
  cases effect blake3 n a with
  | quiet hs hr hsame =>
      rw [hsame who] at hc
      exact h who c hc
  | removes id session hlookup hnone hs hr hsame =>
      rw [hsame who] at hc
      exact h who c hc
  | cleans underlay ha hsome hs hr hsame =>
      rw [hsame who] at hc
      exact h who c hc
  | forgets addr ha hsome hs hr hsame =>
      rw [hsame who] at hc
      exact h who c hc
  | accepts arrival responder created result ha hpunch hpending hfinish hs hr hnone hupdated =>
      rw [hupdated who] at hc
      split at hc
      · cases hc
        obtain ⟨_, _, -, ht⟩ := ResponderHandshake.finish_eq_ok hfinish
        exact window_of_intoTransport ht
      · exact h who c hc
  | answers id token attempt data result ha hattempt hstage hinbox hanswer hs hr hnone hupdated =>
      rw [hupdated who] at hc
      split at hc
      · cases hc
        obtain ⟨_, _, _, -, -, ht⟩ := Attempt.answer_eq_ok hanswer
        exact window_of_intoTransport ht
      · exact h who c hc
  | advances w d ha hsome hs hr hupdated =>
      rw [hupdated who] at hc
      split at hc
      · rw [(next_of_completion hc).1]
        exact h w d hsome
      · exact h who c hc

theorem FreshWindows.loopNext (h : n.FreshWindows) (a : LoopAction S) : (n.loopNext blake3 a).FreshWindows := by
  cases a with
  | task a => exact h.next a
  | tunPacket | healthcheck | relayFlag | stunAddr =>
      exact fun who c hc => h who c ((completion_of_tasks rfl rfl who).symm.trans hc)

/-- The session that a step stores comes from a completed handshake. -/
theorem completion_of_stored {a : LoopAction S} {c : Completion S} (h : c ∈ (n.update a).stored) :
    ∃ who, n.completion who = some c := by
  have hcomplete : n.update a = .complete c := by
    cases hu : n.update a with
    | complete d =>
        rw [hu, Update.stored] at h
        split at h <;> cases h
        rfl
    | _ =>
        rw [hu] at h
        cases h
  obtain ⟨_, who, -, -, hwho⟩ := completion_of_update hcomplete
  exact ⟨who, hwho⟩

/-- The datagram of a step does not move the top of its window by exactly the width. -/
def OffEdge (n : Node S) : LoopAction S → Prop
  | .task (.receive a) => ∀ peer ∈ n.dataFrom a, ∀ session ∈ n.engine.sessions.lookup peer,
    SeedNet.OffEdge session.transport (.decryptInto a.data n.plainBuf)
  | _ => True

instance (n : Node S) : DecidablePred n.OffEdge
  | .task (.receive a) =>
    have : ∀ peer, Decidable (∀ session ∈ n.engine.sessions.lookup peer,
        SeedNet.OffEdge session.transport (.decryptInto a.data n.plainBuf)) := fun _ => Option.decidableForallMem _
    inferInstanceAs (Decidable (∀ peer ∈ n.dataFrom a, ∀ session ∈ n.engine.sessions.lookup peer,
      SeedNet.OffEdge session.transport (.decryptInto a.data n.plainBuf)))
  | .task .inbound | .task (.attempt ..) | .task (.start ..) | .task (.timeout _) | .task (.discover _)
  | .task .discovery | .task (.removed _) | .task .removal | .task (.broadcast _) | .tunPacket .. | .healthcheck ..
  | .relayFlag _ | .stunAddr _ => isTrue trivial

end Node

/-- Two ends of one node that read the same ciphertext of an end are one. -/
def Snow.Committing (S : Snow) (networkSecret : Bytes32) : Prop :=
  ∀ (key₀ key : Bytes32) (ts ts₁ ts₂ : S.StatelessTransportState) peer peer₁ peer₂,
    Snow.EndOf networkSecret key₀ ts peer → Snow.EndOf networkSecret key ts₁ peer₁ →
    Snow.EndOf networkSecret key ts₂ peer₂ → ∀ nonce payload room ct room₁ room₂ plain₁ plain₂,
      S.transportWrite ts nonce payload room = .ok ct → S.transportRead ts₁ nonce ct room₁ = .ok plain₁ →
        S.transportRead ts₂ nonce ct room₂ = .ok plain₂ → ts₁ = ts₂

namespace OpenNetwork

variable {ι : Type} [DecidableEq ι] {blake3 : Blake3} {w : OpenNetwork ι S} {publicKey : Bytes32 → Bytes32}
  {networkSecret : Bytes32}

/-- A handshake does not end with keys under which the node has read before. -/
def NewKeys (w : OpenNetwork ι S) (step : ι × LoopAction S) : Prop :=
  ∀ c ∈ ((w.node step.1).update step.2).stored, ∀ r ∈ w.taken, r.1 = step.1 → r.2.1 ≠ c.transport.state

/-- Nothing is forged, no nonce moves the top of a window by its width, and keys are new. -/
def Guarded (w : OpenNetwork ι S) (step : ι × LoopAction S) : Prop :=
  w.Unforged step ∧ (w.node step.1).OffEdge step.2 ∧ w.NewKeys step

/-- A node has read the datagram with a session. -/
def Reads (networkSecret : Bytes32) (w : OpenNetwork ι S) (d : Datagram S) : Prop :=
  ∃ x ts peer room plain, (x, ts, SecureTransport.datagramNonce d.bytes) ∈ w.taken ∧
    Snow.EndOf networkSecret (w.staticKey x) ts peer ∧
      S.transportRead ts (SecureTransport.datagramNonce d.bytes) (d.bytes.drop nonceLen) room = .ok plain

/-- Each window covers what was read under its keys, and no datagram was read twice. -/
structure Recorded (publicKey : Bytes32 → Bytes32) (networkSecret : Bytes32) (w : OpenNetwork ι S) : Prop
    extends Traced publicKey networkSecret w where
  sends : w.SendsOnly networkSecret fun _ _ _ => True
  fresh : ∀ x, (w.node x).FreshWindows
  windows : ∀ x peer ts window, (w.node x).engine.window peer = some (ts, window) →
    ∃ H, window.Covers H ∧ ∀ nonce, (x, ts, nonce) ∈ w.taken → nonce ∈ H
  matched : ∃ ps, ps.Nodup ∧ (∀ p ∈ ps, p ∈ w.sent ∧ w.Reads networkSecret p.2) ∧
    List.Forall₂ (w.Delivers networkSecret) w.handled ps

/-- The nonces that are read in a step are those of the node that makes it. -/
theorem mem_taken_next {step : ι × LoopAction S} {r : ι × S.StatelessTransportState × UInt64}
    (h : r ∈ (w.next blake3 step).taken) : r ∈ w.taken ∨ r.1 = step.1 ∧ r.2 ∈ (w.node step.1).takes step.2 := by
  rcases List.mem_append.mp h with h | h
  · exact .inl h
  · obtain ⟨s, hs, rfl⟩ := List.mem_map.mp h
    exact .inr ⟨rfl, hs⟩

omit [DecidableEq ι] in
/-- Two sessions of a node that read one datagram are with one peer. -/
theorem Traced.eq_of_reads (laws : S.Bound publicKey networkSecret) (h : w.Traced publicKey networkSecret) {x y : ι}
    {d : Datagram S} {key : Bytes32} {dst : PeerId} {msg : Message} (hfor : d.EncryptedFor networkSecret key dst msg)
    {ts ts' : S.StatelessTransportState} {peer peer' : PeerId} {room room' : ℕ} {plain plain' : Bytes}
    (hend : Snow.EndOf networkSecret (w.staticKey x) ts peer)
    (hread : S.transportRead ts (SecureTransport.datagramNonce d.bytes) (d.bytes.drop nonceLen) room = .ok plain)
    (hend' : Snow.EndOf networkSecret (w.staticKey y) ts' peer')
    (hread' : S.transportRead ts' (SecureTransport.datagramNonce d.bytes) (d.bytes.drop nonceLen) room' = .ok plain') :
    w.peerId x = w.peerId y ∧ peer = peer' := by
  obtain ⟨-, hdst, hpeer⟩ := hfor.of_read laws hend hread
  obtain ⟨-, hdst', hpeer'⟩ := hfor.of_read laws hend' hread'
  rw [h.peerId_eq, h.peerId_eq, ← hdst, ← hdst', hpeer, hpeer']
  exact ⟨rfl, rfl⟩

theorem Recorded.windows_next (laws : S.Bound publicKey networkSecret) (h : w.Recorded publicKey networkSecret)
    {step : ι × LoopAction S} (hok : w.Guarded step) (x : ι) (peer : PeerId) (ts : S.StatelessTransportState)
    (window : NonceWindow) (hwindow : ((w.next blake3 step).node x).engine.window peer = some (ts, window)) :
    ∃ H, window.Covers H ∧ ∀ nonce, (x, ts, nonce) ∈ (w.next blake3 step).taken → nonce ∈ H := by
  obtain ⟨y, a⟩ := step
  obtain ⟨hunforged, hoff, hkeys⟩ := hok
  have hold (hcases : (w.node x).engine.window peer = some (ts, window))
      (hnew : ∀ nonce, x = y → (ts, nonce) ∉ (w.node y).takes a) :
      ∃ H, window.Covers H ∧ ∀ nonce, (x, ts, nonce) ∈ (w.next blake3 (y, a)).taken → nonce ∈ H := by
    obtain ⟨H, hcovers, hmem⟩ := h.windows x peer ts window hcases
    refine ⟨H, hcovers, fun nonce htaken => ?_⟩
    rcases mem_taken_next htaken with htaken | ⟨hx, htaken⟩
    · exact hmem nonce htaken
    · exact absurd htaken (hnew nonce hx)
  rw [next_node] at hwindow
  split at hwindow
  · next hx =>
      obtain rfl : x = y := hx
      have heffect : Node.WindowEffect (w.node x) ((w.node x).loopNext blake3 a) a := Node.windowEffect _ a
      cases heffect with
      | same htakes hsame =>
          rw [hsame] at hwindow
          exact hold hwindow fun nonce _ => htakes ▸ List.not_mem_nil
      | removes gone htakes hremoves =>
          rw [hremoves] at hwindow
          split at hwindow
          · cases hwindow
          · exact hold hwindow fun nonce _ => htakes ▸ List.not_mem_nil
      | stores c htakes hc hstores =>
          rw [hstores] at hwindow
          split at hwindow
          · cases hwindow
            obtain ⟨who, hwho⟩ := Node.completion_of_stored hc
            rw [h.fresh x who c hwho]
            refine ⟨[], NonceWindow.covers_default, fun nonce htaken => ?_⟩
            rcases mem_taken_next htaken with htaken | ⟨-, htaken⟩
            · exact absurd rfl (hkeys c hc _ htaken rfl)
            · exact absurd htaken (htakes ▸ List.not_mem_nil)
          · exact hold hwindow fun nonce _ => htakes ▸ List.not_mem_nil
      | reads arrival sender session ha hfrom hlookup hreads =>
          subst ha
          rw [hreads] at hwindow
          split at hwindow
          · cases hwindow
            obtain ⟨H, hcovers, hmem⟩ := h.windows x sender _ _ (Engine.window_of_lookup hlookup)
            obtain ⟨H', hcovers', hsub, hplaintext⟩ := DecryptCall.covers_next hcovers (hoff sender hfrom session hlookup)
            refine ⟨H', hcovers', fun nonce htaken => ?_⟩
            rcases mem_taken_next htaken with htaken | ⟨-, htaken⟩
            · exact hsub (hmem nonce htaken)
            · obtain ⟨heq, m, msg, plain, -, hplain⟩ := Node.taken_of_receive hfrom hlookup htaken
              obtain rfl : nonce = SecureTransport.datagramNonce arrival.data := congrArg Prod.snd heq
              exact (hplaintext plain hplain).1
          · next hpeer =>
              refine hold hwindow fun nonce _ htaken => hpeer ?_
              -- the other session with these keys would be with the same peer
              obtain ⟨heq, m, msg, plain, hopens, hplain⟩ := Node.taken_of_receive hfrom hlookup htaken
              have hread := (DecryptCall.read_of_plaintext hplain).2.2
              obtain ⟨p, -, hbytes, -, msg', hfor, -⟩ := h.origin laws h.sends hunforged hopens hfrom
              obtain ⟨other, hother, hstate⟩ := Option.map_eq_some_iff.mp hwindow
              have hend := (h.rooted x).sessions sender _ ⟨session, hlookup, rfl⟩
              have hend' := (h.rooted x).sessions peer _ ⟨other, hother, rfl⟩
              have hts : other.transport.state = session.transport.state :=
                (congrArg Prod.fst hstate).trans (congrArg Prod.fst heq)
              rw [hts] at hend'
              rw [DecryptCall.datagram, DecryptCall.nonce, ← hbytes] at hread
              exact (h.eq_of_reads laws hfor hend' hread hend hread).2
  · next hx => exact hold hwindow fun nonce h => absurd h hx

theorem Reads.next {d : Datagram S} (h : w.Reads networkSecret d) (step : ι × LoopAction S) :
    (w.next blake3 step).Reads networkSecret d := by
  obtain ⟨x, ts, peer, room, plain, htaken, hend, hread⟩ := h
  exact ⟨x, ts, peer, room, plain, List.mem_append_left _ htaken, next_staticKey (w := w) step x ▸ hend, hread⟩

/-- What a step handles was sent, and no node has read it before. -/
theorem Recorded.matched_next (laws : S.Bound publicKey networkSecret) (hcommits : S.Committing networkSecret)
    (hids : Function.Injective w.peerId) (h : w.Recorded publicKey networkSecret) {step : ι × LoopAction S}
    (hok : w.Guarded step) :
    ∃ ps, ps.Nodup ∧ (∀ p ∈ ps, p ∈ (w.next blake3 step).sent ∧ (w.next blake3 step).Reads networkSecret p.2) ∧
      List.Forall₂ ((w.next blake3 step).Delivers networkSecret) (w.next blake3 step).handled ps := by
  obtain ⟨x, a⟩ := step
  obtain ⟨hunforged, hoff, -⟩ := hok
  obtain ⟨ps, hnodup, hps, hmatched⟩ := h.matched
  have hkeep : ∀ p ∈ ps, p ∈ (w.next blake3 (x, a)).sent ∧ (w.next blake3 (x, a)).Reads networkSecret p.2 := fun p hp =>
    ⟨List.mem_append_left _ (hps p hp).1, (hps p hp).2.next (x, a)⟩
  have hmatched' : List.Forall₂ ((w.next blake3 (x, a)).Delivers networkSecret) w.handled ps :=
    hmatched.imp fun _ _ hp => (delivers_next (x, a)).mpr hp
  rcases (w.node x).takes_cases a with
    ⟨hnone, -⟩ | ⟨arrival, m, msg, peer, session, rfl, hopens, hfrom, hlookup, hdecrypts, htakes⟩
  · refine ⟨ps, hnodup, hkeep, ?_⟩
    rw [next_handled, hnone]
    exact (List.append_nil w.handled).symm ▸ hmatched'
  · obtain ⟨p, hp, hbytes, hpeer, plain, hfor, hmsg, -⟩ := h.origin laws h.sends hunforged hopens hfrom
    obtain ⟨plaintext, hplain⟩ := Node.plaintext_of_opens hopens hfrom hlookup
    have hread := (DecryptCall.read_of_plaintext hplain).2.2
    rw [DecryptCall.datagram, DecryptCall.nonce, ← hbytes] at hread
    have hend := (h.rooted x).sessions peer _ ⟨session, hlookup, rfl⟩
    have hnew : p ∉ ps := by
      intro hmem
      obtain ⟨y, ts, peer', room, plain', htaken, hend', hread'⟩ := (hps p hmem).2
      obtain rfl : x = y := hids (h.eq_of_reads laws hfor hend hread hend' hread').1
      obtain ⟨ts₀, room₀, hends₀, hwrite⟩ := hfor.wrote
      obtain rfl := hcommits _ _ _ _ _ _ _ _ hends₀ hend' hend _ _ _ _ _ _ _ _ hwrite hread' hread
      obtain ⟨H, hcovers, hH⟩ := h.windows x peer _ _ (Engine.window_of_lookup hlookup)
      obtain ⟨_, -, -, hplaintext⟩ := DecryptCall.covers_next hcovers (hoff peer hfrom session hlookup)
      exact (hplaintext plaintext hplain).2 (hbytes ▸ hH _ htaken)
    refine ⟨ps ++ [p], ?_, ?_, ?_⟩
    · refine List.nodup_append'.mpr ⟨hnodup, List.nodup_singleton p, fun q hq hqp => ?_⟩
      exact hnew (List.mem_singleton.mp hqp ▸ hq)
    · refine List.forall_mem_append.mpr ⟨hkeep, List.forall_mem_singleton.mpr ⟨List.mem_append_left _ hp, ?_⟩⟩
      refine ⟨x, session.transport.state, peer, _, _, List.mem_append_right _ ?_, ?_, hread⟩
      · rw [htakes, hbytes]
        exact List.mem_singleton.mpr rfl
      · rw [next_staticKey]
        exact hend
    · rw [next_handled, hdecrypts]
      refine List.rel_append hmatched' (.cons ?_ .nil)
      exact (delivers_next _).mpr ⟨hpeer, plain, hfor, hmsg⟩

theorem Recorded.next (laws : S.Bound publicKey networkSecret) (hcommits : S.Committing networkSecret)
    (hids : Function.Injective w.peerId) (h : w.Recorded publicKey networkSecret) {step : ι × LoopAction S}
    (hok : w.Guarded step) : (w.next blake3 step).Recorded publicKey networkSecret where
  toTraced := h.toTraced.next step
  sends := h.toTraced.sendsOnly_next h.sends (fun _ _ _ h => h) fun _ _ => trivial
  fresh x := by
    rw [next_node]
    split
    · exact (h.fresh x).loopNext step.2
    · exact h.fresh x
  windows := h.windows_next laws hok
  matched := h.matched_next laws hcommits hids hok

omit [DecidableEq ι] in
theorem Started.recorded (h : w.Started publicKey networkSecret) : w.Recorded publicKey networkSecret where
  toTraced := h.traced
  sends := h.sendsOnly _
  fresh x who c hc := by
    cases who with
    | none =>
        rw [Node.completion_inbound, (h.node x).inbound] at hc
        cases hc
    | some id =>
        rw [Node.completion, (h.node x).attempts, AList.lookup_empty] at hc
        cases hc
  windows x peer ts window hwindow := by
    rw [Engine.window, (h.node x).sessions, AList.lookup_empty] at hwindow
    cases hwindow
  matched := ⟨[], List.nodup_nil, List.forall_mem_nil _, h.handled ▸ .nil⟩

/-! The condition can be computed. -/

instance (w : OpenNetwork ι S) [DecidableEq S.StatelessTransportState] : DecidablePred w.Guarded := fun step =>
  have : ∀ n : Node S, DecidablePred n.OffEdge := inferInstance
  have : Decidable (w.NewKeys step) := Option.decidableForallMem _
  inferInstanceAs (Decidable (_ ∧ _ ∧ _))

/-- **Every session message is handled at most once.**  Of what the nodes handle, each message has a datagram of its own
that was sent: nothing is handled again, also not over a later session with the same peer. -/
theorem handled_at_most_once (blake3 : Blake3) {publicKey : Bytes32 → Bytes32} {networkSecret : Bytes32}
    (laws : S.Bound publicKey networkSecret) (hcommits : S.Committing networkSecret) {w : OpenNetwork ι S}
    (h : w.Started publicKey networkSecret) (hids : Function.Injective w.peerId) {steps : List (ι × LoopAction S)}
    (hok : Along (next blake3) Guarded w steps) :
    ∃ ps, ps.Subperm (exec (next blake3) w steps).sent ∧
      List.Forall₂ ((exec (next blake3) w steps).Delivers networkSecret) (exec (next blake3) w steps).handled ps := by
  have hrecorded : (exec (next blake3) w steps).Recorded publicKey networkSecret :=
    (hok.invariant (I := fun w : OpenNetwork ι S => w.Recorded publicKey networkSecret ∧ Function.Injective w.peerId)
      (fun w step hw ok => ⟨hw.1.next laws hcommits hw.2 ok, fun x y hxy => hw.2 (by simpa using hxy)⟩)
      ⟨h.recorded, hids⟩).1
  obtain ⟨ps, hnodup, hps, hmatched⟩ := hrecorded.matched
  exact ⟨ps, hnodup.subperm fun p hp => (hps p hp).1, hmatched⟩

end OpenNetwork

/-! ### A run -/

namespace Transparent

theorem committing_named (networkSecret : Bytes32) : named.Committing networkSecret :=
  fun _ _ _ _ _ _ _ _ _ _ _ _ _ _ _ _ _ _ _ _ hread₁ hread₂ => eq_of_reads hread₁ hread₂

theorem openNetwork_distinct : Function.Injective openNetwork.peerId := by decide

end Transparent

open Transparent in
theorem handled_at_most_once_greeting :
    (exec (OpenNetwork.next blake3) openNetwork openGreeting).handled.length = 1 ∧
      ∃ ps, ps.Subperm (exec (OpenNetwork.next blake3) openNetwork openGreeting).sent ∧
        List.Forall₂ ((exec (OpenNetwork.next blake3) openNetwork openGreeting).Delivers secret)
          (exec (OpenNetwork.next blake3) openNetwork openGreeting).handled ps :=
  ⟨by decide +kernel,
    OpenNetwork.handled_at_most_once blake3 (bound_named secret) (committing_named secret) openNetwork_started
      openNetwork_distinct (by decide +kernel)⟩

end SeedNet
