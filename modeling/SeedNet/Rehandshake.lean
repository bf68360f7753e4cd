import SeedNet.TransparentNode
import SeedNet.Run

/-! # A handshake from a known address

Message A is the last branch of the inbound loop: a datagram from an address in `addr_index` is
taken for data of the established peer, whatever its prefix says, and never gets there.

`rehandshake_answered_iff`: the loop answers message A with message B, records the responder and
leaves the session of that address alone exactly if the address is not in `addr_index`. -/

namespace SeedNet

variable {S : Snow}

namespace Node

variable (blake3 : Blake3) (n : Node S) (a : Arrival S)

/-- The loop answers message A by `msgB`, records `responder` for the source address, and leaves the
session mapped to that address as it is. -/
structure AnswersMessageA (msgB : Bytes) (responder : ResponderHandshake S) : Prop where
  out : (n.receive blake3 a).out =
    [{ dst := a.fromAddr, bytes := noiseHandshakeResponderPrefix ++ msgB, origin := .messageB }]
  recorded : (n.receive blake3 a).node.pendingResponders.lookup a.fromAddr.socketAddr = some (responder, a.now)
  session : ∀ p session, n.engine.addrIndex.lookup a.fromAddr = some p →
    n.engine.sessions.lookup p = some session →
      (n.receive blake3 a).node.engine.sessions.lookup p = some session

variable {n} {a}

theorem pendingInitiator_of_initiator (h : startsWith a.data noiseHandshakeInitiatorPrefix = true) :
    n.pendingInitiator a = none := by
  simp only [pendingInitiator, initiator_not_responder h, Bool.false_eq_true, if_false]

end Node

/-- In every state without a pending responder for the source of a valid message A, the message is
answered, recorded and harmless to the session of that address if and only if the address is not
in `addr_index`. -/
theorem rehandshake_answered_iff (blake3 : Blake3) (n : Node S) (a : Arrival S) (msgA msgB : Bytes)
    (responder : ResponderHandshake S)
    (hnone : (n.retainResponders a.now).pendingResponders.lookup a.fromAddr.socketAddr = none)
    (hdata : a.data = noiseHandshakeInitiatorPrefix ++ msgA) (hanswer : n.answer a msgA = .ok (msgB, responder)) :
    n.AnswersMessageA blake3 a msgB responder ↔ n.engine.addrIndex.lookup a.fromAddr = none := by
  have hinit : startsWith a.data noiseHandshakeInitiatorPrefix = true := by rw [hdata, startsWith_append]
  have hpunch := initiator_not_holePunch hinit
  have hpending := Node.pendingInitiator_of_initiator (n := n) hinit
  constructor
  · intro h
    cases hindex : n.engine.addrIndex.lookup a.fromAddr with
    | none => rfl
    | some p =>
        -- the datagram goes to the session of `p`, and no responder is recorded
        have hrecorded := h.recorded
        rw [Node.receive_data hpunch hpending hnone hindex,
          (Node.onData_sameTasks blake3 (n.retainResponders a.now) a p).pendingResponders, hnone] at hrecorded
        cases hrecorded
  · intro hindex
    have hanswer' : (n.retainResponders a.now).answer a (a.data.drop noiseHandshakeInitiatorPrefix.length) =
        .ok (msgB, responder) := by
      rw [hdata, List.drop_left]
      exact hanswer
    have hrecv := @Node.receive_messageA S blake3 n a hpunch hpending hnone hindex hinit
    rw [Node.onMessageA, hanswer'] at hrecv
    refine ⟨by rw [hrecv], ?_, fun p session hp => by cases hindex.symm.trans hp⟩
    rw [hrecv]
    exact AList.lookup_insert _

open Transparent

/-- Node 1 after a handshake with node 7 from `addr 2`. -/
def connected : Node transparent := Run.exec (Node.next blake3) (node 1) (handshakeFrom 7 (addr 2) 3 4)

/-- Node 7 has a session and comes from another address: it gets its answer. -/
theorem rehandshake_answered_moved :
    (connected.engine.sessions.lookup (.replicate 7)).map (·.underlay) = some (.udp (addr 2)) ∧
      ∃ msgB responder, connected.AnswersMessageA blake3 (arrival (addr 5) 14 (messageA 13)) msgB responder :=
  ⟨by decide +kernel, _, _, (rehandshake_answered_iff blake3 connected (arrival (addr 5) 14 (messageA 13)) [10, 13] _ _
    (by decide +kernel) rfl rfl).mpr (by decide +kernel)⟩

/-- A message A of the length that Noise gives it. -/
def secondMessageA : Arrival transparent := arrival (addr 2) 14 (messageA 13 ++ List.replicate 30 0)

/-- Node 7 restarts and sends a new message A from the same address: it gets no answer, and the
window of the session moves to the nonce that `seednet-` spells. -/
theorem rehandshake_ignored :
    (¬ ∀ (a : Arrival transparent) (msgA msgB : Bytes) (responder : ResponderHandshake transparent),
      (connected.retainResponders a.now).pendingResponders.lookup a.fromAddr.socketAddr = none →
      a.data = noiseHandshakeInitiatorPrefix ++ msgA → connected.answer a msgA = .ok (msgB, responder) →
        connected.AnswersMessageA blake3 a msgB responder) ∧
    ((connected.receive blake3 secondMessageA).node.engine.sessions.lookup (.replicate 7)).map
      (fun s => s.transport.nonceWindow.top) = some (some (fromLeBytes [115, 101, 101, 100, 110, 101, 116, 45])) := by
  refine ⟨fun h => ?_, by decide +kernel⟩
  have hout := (h secondMessageA ([10, 13] ++ List.replicate 30 0) _ _ rfl rfl rfl).out
  have hlen : (connected.receive blake3 secondMessageA).out.length = 0 := by decide +kernel
  rw [hout] at hlen
  exact absurd hlen (by simp)

end SeedNet
