import SeedNet.MessageChannel
import SeedNet.Run
import SeedNet.TransparentNode

/-! # Frozen sessions of a message channel

A session is meant to stay alive as long as traffic arrives, but `send_message` records activity too, and
heartbeats are sent to peers that went silent.  `Watch` runs a channel and keeps, for every address, when the
channel last heard from it and when it last sent it something; `Consistent` says that `last_seen` is the later of
the two.

`frozen_session_expires_iff`: a session that heard nothing for longer than its expiry is pruned exactly if nothing
was sent to it within that time either. -/

namespace SeedNet

open Run (exec)

variable {S : Snow}

/-! ### What an action does to a session -/

/-- It says that a handshake with the peer is complete. -/
def Output.completes (addr : SocketAddr) : Output → Bool
  | .handshake addr' (.ok _) => addr' = addr
  | _ => false

namespace MessageChannel

/-- The action completes a handshake with the peer. -/
def completes (c : MessageChannel S) (a : ChannelAction S) (addr : SocketAddr) : Bool :=
  (c.step a).1.any (Output.completes addr)

/-- The action is a datagram from the peer that decrypts in its session. -/
def decrypts (c : MessageChannel S) : ChannelAction S → SocketAddr → Bool
  | .receive .run (.ok (src, data)) _ _, addr =>
    src = addr && (c.waiting.lookup .run).isNone &&
      match c.transports.lookup src, decodeFrame (data.take maxDatagram) with
      | some pt, .ok framed => (pt.transport.decrypt framed).1.isOk
      | _, _ => false
  | _, _ => false

/-- The action sends the peer a message. -/
def sendsTo (c : MessageChannel S) : ChannelAction S → SocketAddr → Bool
  | .sendMessage msg socket, addr => msg.toAddr = addr && (c.sendMessage msg socket).1.isOk
  | .sendHeartbeat dst socket, addr => dst = addr && (c.sendHeartbeat dst socket).1.isOk
  | _, _ => false

/-- Where the session that an action leaves comes from. -/
inductive Touched (c : MessageChannel S) (a : ChannelAction S) (addr : SocketAddr) (pt' : PeerTransport S) : Prop
  | fresh (hcompletes : c.completes a addr = true) (hsession : pt'.session = .new c.now)
  | active (pt : PeerTransport S) (hactive : c.decrypts a addr = true ∨ c.sendsTo a addr = true)
      (hpt : c.transports.lookup addr = some pt) (hsession : pt'.session = pt.session.recordActivity c.now)
  | idle (pt : PeerTransport S) (hcompletes : c.completes a addr = false) (hdecrypts : c.decrypts a addr = false)
      (hsends : c.sendsTo a addr = false) (hpt : c.transports.lookup addr = some pt)
      (hsession : pt'.session = pt.session)

section

variable {c : MessageChannel S} {addr src : SocketAddr} {pt' : PeerTransport S} {rng : S.Rng}
  {socket : Except String Unit}

theorem touched_initateHandshake {k : ℕ} (h : (c.initateHandshake src k rng socket).2.transports.lookup addr = some pt') :
    c.Touched (.initateHandshake src k rng socket) addr pt' := by
  have hsame : (c.initateHandshake src k rng socket).2.transports = c.transports ∧
      c.completes (.initateHandshake src k rng socket) addr = false := by
    simp only [completes, step]
    unfold initateHandshake
    split
    · exact ⟨rfl, rfl⟩
    · split
      · exact ⟨rfl, rfl⟩
      · exact ⟨rfl, rfl⟩
  exact .idle pt' hsame.2 rfl rfl (hsame.1 ▸ h) rfl

/-- What becomes of the sessions if the one with `src` gets `pt''`. -/
theorem lookup_replace_eq {pt'' : PeerTransport S}
    (h : (c.transports.replace src pt'').lookup addr = some pt') :
    (src ≠ addr ∧ c.transports.lookup addr = some pt') ∨
      (src = addr ∧ ∃ pt, c.transports.lookup addr = some pt ∧ pt' = pt'') := by
  rw [Map.lookup_replace] at h
  split at h
  · next heq =>
      subst heq
      obtain ⟨pt, hpt, rfl⟩ := Option.map_eq_some_iff.mp h
      exact .inr ⟨rfl, pt, hpt, rfl⟩
  · next hne => exact .inl ⟨Ne.symm hne, h⟩

theorem decrypts_of_waiting {reader : Reader} {w : Waiting S} (h : c.waiting.lookup reader = some w)
    (received : Except String (SocketAddr × Bytes)) : c.decrypts (.receive reader received rng socket) addr = false := by
  cases reader with
  | call a k => rfl
  | run =>
      cases received with
      | error e => rfl
      | ok r => simp [decrypts, h]

theorem touched_finishHandshake {reader : Reader} {w : Waiting S} (hw : c.waiting.lookup reader = some w)
    (received : Except String (SocketAddr × Bytes)) {result : Except Error (HandshakeResult S)}
    (hstep : c.step (.receive reader received rng socket) = c.finishHandshake reader w result)
    (h : (c.finishHandshake reader w result).2.transports.lookup addr = some pt') :
    c.Touched (.receive reader received rng socket) addr pt' := by
  have hdecrypts : c.decrypts (.receive reader received rng socket) addr = false := decrypts_of_waiting hw received
  unfold finishHandshake at h hstep
  cases result with
  | error e =>
      refine .idle pt' ?_ hdecrypts rfl h rfl
      simp [completes, hstep, Output.completes]
  | ok result =>
      dsimp only at h hstep
      rw [Map.lookup_insert] at h
      split at h
      · next heq =>
          obtain rfl := Option.some.inj h
          refine .fresh ?_ rfl
          simp [completes, hstep, Output.completes, heq]
      · next hne =>
          refine .idle pt' ?_ hdecrypts rfl h rfl
          cases w <;> simp [completes, hstep, Output.completes, Waiting.lastMessage, Waiting.addr] <;> exact Ne.symm hne

theorem touched_handleInboundDatagram {data : Bytes} (hw : c.waiting.lookup .run = none)
    (hstep : c.step (.receive .run (.ok (src, data)) rng socket) =
      c.handleInboundDatagram (data.take maxDatagram) src rng socket)
    (h : (c.handleInboundDatagram (data.take maxDatagram) src rng socket).2.transports.lookup addr = some pt') :
    c.Touched (.receive .run (.ok (src, data)) rng socket) addr pt' := by
  unfold handleInboundDatagram at h hstep
  cases hpt : c.transports.lookup src with
  | none =>
      rw [hpt] at h hstep
      dsimp only at h hstep
      have hdecrypts : c.decrypts (.receive .run (.ok (src, data)) rng socket) addr = false := by simp [decrypts, hpt]
      split at h
      · next hmsgB =>
          rw [hmsgB] at hstep
          exact .idle pt' (by simp [completes, hstep, Output.completes]) hdecrypts rfl h rfl
      · next hmsgB =>
          rw [hmsgB] at hstep
          exact .idle pt' (by simp [completes, hstep, Output.completes]) hdecrypts rfl h rfl
  | some pt =>
      rw [hpt] at h hstep
      dsimp only at h hstep
      cases hframe : decodeFrame (data.take maxDatagram) with
      | error e =>
          rw [hframe] at h hstep
          exact .idle pt' (by simp [completes, hstep]) (by simp [decrypts, hpt, hframe]) rfl h rfl
      | ok framed =>
          rw [hframe] at h hstep
          dsimp only at h hstep
          cases hplain : pt.transport.decrypt framed with
          | mk result transport =>
              rw [hplain] at h hstep
              cases result with
              | error e =>
                  have hdecrypts : c.decrypts (.receive .run (.ok (src, data)) rng socket) addr = false := by
                    simp [decrypts, hpt, hframe, hplain, Except.isOk, Except.toBool]
                  have hcompletes : c.completes (.receive .run (.ok (src, data)) rng socket) addr = false := by
                    simp [completes, hstep]
                  rcases lookup_replace_eq h with ⟨_, hsame⟩ | ⟨rfl, old, hold, rfl⟩
                  · exact .idle pt' hcompletes hdecrypts rfl hsame rfl
                  · exact .idle pt hcompletes hdecrypts rfl hpt rfl
              | ok decrypted =>
                  have hcompletes : c.completes (.receive .run (.ok (src, data)) rng socket) addr = false := by
                    dsimp only at hstep
                    split at hstep
                    · simp [completes, hstep]
                    · simp [completes, hstep, Output.completes]
                  have hreplace : (c.transports.replace src ⟨transport, pt.session.recordActivity c.now⟩).lookup addr =
                      some pt' := by
                    dsimp only at h
                    split at h
                    · exact h
                    · exact h
                  rcases lookup_replace_eq hreplace with ⟨hne, hsame⟩ | ⟨rfl, old, hold, rfl⟩
                  · exact .idle pt' hcompletes (by simp [decrypts, hne]) rfl hsame rfl
                  · refine .active pt (.inl ?_) hpt rfl
                    simp [decrypts, hw, hpt, hframe, hplain, Except.isOk, Except.toBool]

theorem touched_receive {reader : Reader} {received : Except String (SocketAddr × Bytes)}
    (h : (c.step (.receive reader received rng socket)).2.transports.lookup addr = some pt') :
    c.Touched (.receive reader received rng socket) addr pt' := by
  cases hw : c.waiting.lookup reader with
  | some w =>
      have hstep : c.step (.receive reader received rng socket) = _ := step_waiting hw
      exact touched_finishHandshake hw received hstep (hstep ▸ h)
  | none =>
      by_cases hrun : ∃ src data, reader = .run ∧ received = .ok (src, data)
      · obtain ⟨src, data, rfl, rfl⟩ := hrun
        have hstep : c.step (.receive .run (.ok (src, data)) rng socket) = _ := step_datagram hw src data
        exact touched_handleInboundDatagram hw hstep (hstep ▸ h)
      · have hstep : c.step (.receive reader received rng socket) = ([], c) :=
          step_ignored hw fun src data heq => hrun ⟨src, data, heq⟩
        rw [hstep] at h
        refine .idle pt' (by simp [completes, hstep]) ?_ rfl h rfl
        cases reader with
        | call a k => rfl
        | run =>
            cases received with
            | error e => rfl
            | ok r => exact absurd ⟨r.1, r.2, rfl, rfl⟩ hrun

theorem touched_sendMessage {msg : OutboundMessage} (h : (c.sendMessage msg socket).2.transports.lookup addr = some pt') :
    c.Touched (.sendMessage msg socket) addr pt' := by
  have hcompletes : c.completes (.sendMessage msg socket) addr = false := by
    simp only [completes, step]
    cases (c.sendMessage msg socket).1 <;> rfl
  unfold sendMessage at h
  cases hpt : c.transports.lookup msg.toAddr with
  | none =>
      rw [hpt] at h
      refine .idle pt' hcompletes rfl ?_ h rfl
      simp [sendsTo, sendMessage, hpt, Except.isOk, Except.toBool]
  | some pt =>
      rw [hpt] at h
      dsimp only at h
      cases hencrypt : pt.transport.encrypt (serializeMessage msg.message) with
      | mk result transport =>
          rw [hencrypt] at h
          have hunsent (hfails : (c.sendMessage msg socket).1.isOk = false)
              (hlookup : (c.transports.replace msg.toAddr { pt with transport := transport }).lookup addr = some pt') :
              c.Touched (.sendMessage msg socket) addr pt' := by
            have hsends : c.sendsTo (.sendMessage msg socket) addr = false := by simp [sendsTo, hfails]
            rcases lookup_replace_eq hlookup with ⟨_, hsame⟩ | ⟨rfl, old, hold, rfl⟩
            · exact .idle pt' hcompletes rfl hsends hsame rfl
            · exact .idle pt hcompletes rfl hsends hpt rfl
          cases result with
          | error e =>
              refine hunsent ?_ h
              simp [sendMessage, hpt, hencrypt, Except.isOk, Except.toBool]
          | ok encrypted =>
              dsimp only at h
              cases hsocket : sendTo "send" socket with
              | error e =>
                  rw [hsocket] at h
                  refine hunsent ?_ h
                  simp [sendMessage, hpt, hencrypt, hsocket, Except.isOk, Except.toBool]
              | ok u =>
                  rw [hsocket] at h
                  rcases lookup_replace_eq h with ⟨hne, hsame⟩ | ⟨rfl, old, hold, rfl⟩
                  · exact .idle pt' hcompletes rfl (by simp [sendsTo, hne]) hsame rfl
                  · refine .active pt (.inr ?_) hpt rfl
                    simp [sendsTo, sendMessage, hpt, hencrypt, hsocket, Except.isOk, Except.toBool]

theorem lookup_foldl_erase (m : Map SocketAddr (PeerTransport S)) (addrs : List SocketAddr) (addr : SocketAddr) :
    (addrs.foldl (fun transports addr => transports.erase addr) m).lookup addr =
      if addr ∈ addrs then none else m.lookup addr := by
  induction addrs generalizing m with
  | nil => rfl
  | cons a addrs ih =>
      rw [List.foldl_cons, ih, Map.lookup_erase]
      by_cases heq : addr = a <;> by_cases hmem : addr ∈ addrs <;> simp [heq, hmem]

/-- `prune_expired` returns the peers whose sessions have expired. -/
theorem mem_pruneExpired : addr ∈ c.pruneExpired.1 ↔
    ∃ pt, c.transports.lookup addr = some pt ∧ pt.session.isExpired c.now = true := by
  simp only [pruneExpired, List.mem_map, List.mem_filter, Sigma.exists]
  constructor
  · rintro ⟨_, pt, ⟨hmem, hexpired⟩, rfl⟩
    exact ⟨pt, AList.mem_lookup_iff.mpr hmem, hexpired⟩
  · rintro ⟨pt, hpt, hexpired⟩
    exact ⟨addr, pt, ⟨AList.mem_lookup_iff.mp hpt, hexpired⟩, rfl⟩

theorem lookup_pruneExpired : c.pruneExpired.2.transports.lookup addr =
    if addr ∈ c.pruneExpired.1 then none else c.transports.lookup addr :=
  lookup_foldl_erase c.transports c.pruneExpired.1 addr

theorem touched_step (a : ChannelAction S) (h : (c.next a).transports.lookup addr = some pt') :
    c.Touched a addr pt' := by
  cases a with
  | initateHandshake src k rng socket => exact touched_initateHandshake h
  | receive reader received rng socket => exact touched_receive h
  | sendMessage msg socket => exact touched_sendMessage h
  | sendHeartbeat dst socket =>
      have hsent : c.Touched (.sendMessage ⟨.heartbeat, dst⟩ socket) addr pt' := touched_sendMessage h
      cases hsent with
      | fresh hcompletes hsession => exact .fresh hcompletes hsession
      | active pt hactive hpt hsession => exact .active pt hactive hpt hsession
      | idle pt hcompletes hdecrypts hsends hpt hsession =>
          exact .idle pt hcompletes hdecrypts hsends hpt hsession
  | pruneExpired =>
      have hlookup := h
      rw [next, step, lookup_pruneExpired] at hlookup
      split at hlookup
      · cases hlookup
      · exact .idle pt' rfl rfl rfl hlookup rfl
  | advance duration => exact .idle pt' rfl rfl rfl h rfl

/-! ### The clock -/

theorem now_handleInboundDatagram (c : MessageChannel S) (data : Bytes) (src : SocketAddr) (rng : S.Rng)
    (socket : Except String Unit) : (c.handleInboundDatagram data src rng socket).2.now = c.now := by
  unfold handleInboundDatagram
  split
  · split
    · rfl
    · split
      · rfl
      · dsimp only
        split
        · rfl
        · rfl
  · split
    · rfl
    · rfl

theorem now_sendMessage (c : MessageChannel S) (msg : OutboundMessage) (socket : Except String Unit) :
    (c.sendMessage msg socket).2.now = c.now := by
  unfold sendMessage
  split
  · rfl
  · split
    · rfl
    · split
      · rfl
      · rfl

theorem now_receive (c : MessageChannel S) (reader : Reader) (received : Except String (SocketAddr × Bytes))
    (rng : S.Rng) (socket : Except String Unit) : (c.receive reader received rng socket).2.now = c.now := by
  unfold receive
  split
  · unfold finishHandshake
    split
    · rfl
    · rfl
  · split
    · exact now_handleInboundDatagram c _ _ rng socket
    · rfl

theorem now_le_next (c : MessageChannel S) (a : ChannelAction S) : c.now ≤ (c.next a).now := by
  cases a with
  | initateHandshake addr k rng socket =>
      refine le_of_eq ?_
      rw [next, step]
      unfold initateHandshake
      split
      · rfl
      · split
        · rfl
        · rfl
  | receive reader received rng socket => exact (c.now_receive reader received rng socket).ge
  | sendMessage msg socket => exact (c.now_sendMessage msg socket).ge
  | sendHeartbeat addr socket => exact (c.now_sendMessage ⟨.heartbeat, addr⟩ socket).ge
  | pruneExpired => exact le_rfl
  | advance duration => exact Nat.le_add_right _ _

end

end MessageChannel

/-! ### Watched runs -/

/-- A channel, with the times of the last traffic with every address. -/
structure Watch (S : Snow) where
  channel : MessageChannel S
  /-- the handshake, or the last datagram that decrypted -/
  heard : SocketAddr → ℕ
  sent : SocketAddr → Option ℕ

namespace Watch

def next (w : Watch S) (a : ChannelAction S) : Watch S where
  channel := w.channel.next a
  heard addr := if w.channel.completes a addr || w.channel.decrypts a addr then w.channel.now else w.heard addr
  sent addr := if w.channel.sendsTo a addr then some w.channel.now else w.sent addr

/-- The run of a new channel. -/
def run (c : MessageChannel S) (as : List (ChannelAction S)) : Watch S :=
  exec next { channel := c, heard := fun _ => c.now, sent := fun _ => none } as

/-- The watch agrees with what the sessions recorded. -/
structure Consistent (w : Watch S) : Prop where
  heard_le : ∀ addr, w.heard addr ≤ w.channel.now
  sent_le : ∀ addr t, w.sent addr = some t → t ≤ w.channel.now
  lastSeen : ∀ addr pt, w.channel.transports.lookup addr = some pt →
    pt.session.lastSeen = max (w.heard addr) ((w.sent addr).getD 0)

theorem Consistent.next {w : Watch S} (h : w.Consistent) (a : ChannelAction S) : (w.next a).Consistent where
  heard_le addr := by
    refine le_trans ?_ (w.channel.now_le_next a)
    simp only [Watch.next]
    split
    · exact le_rfl
    · exact h.heard_le addr
  sent_le addr t ht := by
    refine le_trans ?_ (w.channel.now_le_next a)
    simp only [Watch.next] at ht
    split at ht
    · exact (Option.some.inj ht).ge
    · exact h.sent_le addr t ht
  lastSeen addr pt' hpt' := by
    have hsent : (w.sent addr).getD 0 ≤ w.channel.now := by
      cases ht : w.sent addr with
      | none => exact Nat.zero_le _
      | some t => exact h.sent_le addr t ht
    have hheard := h.heard_le addr
    cases MessageChannel.touched_step a hpt' with
    | fresh hcompletes hsession =>
        simp only [Watch.next, hcompletes, hsession, Bool.true_or, if_true, Session.new]
        split
        · simp
        · exact (max_eq_left hsent).symm
    | active pt hactive hpt hsession =>
        simp only [Watch.next, hsession, Session.recordActivity]
        rcases hactive with hdecrypts | hsends
        · simp only [hdecrypts, Bool.or_true, if_true]
          split
          · simp
          · exact (max_eq_left hsent).symm
        · simp only [hsends, if_true, Option.getD_some]
          split
          · simp
          · exact (max_eq_right hheard).symm
    | idle pt hcompletes hdecrypts hsends hpt hsession =>
        simp only [Watch.next, hcompletes, hdecrypts, hsends, Bool.or_self, Bool.false_eq_true, if_false, hsession]
        exact h.lastSeen addr pt hpt

theorem run_consistent {c : MessageChannel S} (hc : c.New) (as : List (ChannelAction S)) : (run c as).Consistent := by
  refine Run.exec_invariant (fun _ a h => h.next a) ⟨fun _ => le_rfl, ?_, ?_⟩ as
  · intro addr t ht
    cases ht
  · intro addr pt hpt
    rw [hc.transports] at hpt
    cases hpt

end Watch

/-- `prune_expired` returns the address and removes its transport. -/
def MessageChannel.Expires (c : MessageChannel S) (addr : SocketAddr) : Prop :=
  addr ∈ c.pruneExpired.1 ∧ c.pruneExpired.2.transports.lookup addr = none

theorem MessageChannel.expires_iff {c : MessageChannel S} {addr : SocketAddr} {pt : PeerTransport S}
    (hpt : c.transports.lookup addr = some pt) : c.Expires addr ↔ pt.session.expiry < c.now - pt.session.lastSeen := by
  have hmem : addr ∈ c.pruneExpired.1 ↔ pt.session.expiry < c.now - pt.session.lastSeen := by
    rw [mem_pruneExpired]
    simp [hpt, Session.isExpired]
  rw [Expires, lookup_pruneExpired, ← hmem]
  exact ⟨And.left, fun h => ⟨h, if_pos h⟩⟩

/-- **A frozen session expires** exactly if nothing was sent to the peer within the expiry either. -/
theorem frozen_session_expires_iff (c : MessageChannel S) (hc : c.New) (as : List (ChannelAction S)) (addr : SocketAddr)
    (pt : PeerTransport S) (hpt : (Watch.run c as).channel.transports.lookup addr = some pt)
    (hfrozen : pt.session.expiry < (Watch.run c as).channel.now - (Watch.run c as).heard addr) :
    (Watch.run c as).channel.Expires addr ↔
      ∀ t, (Watch.run c as).sent addr = some t → pt.session.expiry < (Watch.run c as).channel.now - t := by
  rw [MessageChannel.expires_iff hpt, (Watch.run_consistent hc as).lastSeen addr pt hpt]
  cases (Watch.run c as).sent addr with
  | none => simpa using hfrozen
  | some t =>
      simp only [Option.getD_some, Option.some.injEq, forall_eq']
      omega

namespace Transparent

/-- The message channel of node `k`. -/
def channel (k : UInt8) : MessageChannel transparent where
  networkSecret := secret
  deviceKeys := { x25519StaticSecret := .replicate k, x25519PublicKey := .replicate k }

/-- The loop of `run` gets a datagram, with the randomness `rng`. -/
def datagram (fromAddr : SocketAddr) (rng : UInt8) (data : Bytes) : ChannelAction transparent :=
  .receive .run (.ok (fromAddr, data)) rng (.ok ())

/-- The node at `fromAddr` shakes hands with channel 1. -/
def greeting (k : UInt8) (fromAddr : SocketAddr) (ei er : UInt8) : List (ChannelAction transparent) :=
  [datagram fromAddr er [10, ei], datagram fromAddr er (messageC k 1 ei er)]

/-- A handshake, and 61 seconds of silence. -/
def silence : List (ChannelAction transparent) := greeting 7 (addr 2) 3 4 ++ [.advance (fromSecs 61)]

/-- A handshake, and a heartbeat after every interval. -/
def heartbeats (n : ℕ) : List (ChannelAction transparent) :=
  greeting 7 (addr 2) 3 4 ++
    (List.replicate n [.advance (fromSecs heartbeatIntervalSecs), .sendHeartbeat (addr 2) (.ok ())]).flatten

end Transparent

open Transparent in
theorem frozen_session_expires_silent : (Watch.run (channel 1) silence).channel.Expires (addr 2) := by
  have hexpiry : ((Watch.run (channel 1) silence).channel.transports.lookup (addr 2)).map (·.session.expiry) =
      some (fromSecs 60) := by decide +kernel
  obtain ⟨pt, hpt, hexpiry⟩ := Option.map_eq_some_iff.mp hexpiry
  have hfrozen : fromSecs 60 < (Watch.run (channel 1) silence).channel.now - (Watch.run (channel 1) silence).heard (addr 2) :=
    by decide +kernel
  have hquiet : (Watch.run (channel 1) silence).sent (addr 2) = none := by decide +kernel
  exact (frozen_session_expires_iff (channel 1) ⟨rfl, rfl⟩ silence (addr 2) pt hpt (hexpiry ▸ hfrozen)).mpr
    fun t ht => by cases hquiet.symm.trans ht

open Transparent in
/-- The peer freezes after its handshake, and five heartbeats are sent to it in 75 seconds. -/
theorem frozen_session_survives :
    ¬ ∀ (c : MessageChannel transparent), c.New → ∀ (as : List (ChannelAction transparent)) (addr : SocketAddr)
      (pt : PeerTransport transparent), (Watch.run c as).channel.transports.lookup addr = some pt →
        pt.session.expiry < (Watch.run c as).channel.now - (Watch.run c as).heard addr →
          (Watch.run c as).channel.Expires addr := by
  intro h
  have hexpiry : ((Watch.run (channel 1) (heartbeats 5)).channel.transports.lookup (addr 2)).map (·.session.expiry) =
      some (fromSecs 60) := by decide +kernel
  obtain ⟨pt, hpt, hexpiry⟩ := Option.map_eq_some_iff.mp hexpiry
  have hfrozen : fromSecs 60 < (Watch.run (channel 1) (heartbeats 5)).channel.now -
      (Watch.run (channel 1) (heartbeats 5)).heard (addr 2) := by decide +kernel
  have hexpires := h (channel 1) ⟨rfl, rfl⟩ (heartbeats 5) (addr 2) pt hpt (hexpiry ▸ hfrozen)
  exact absurd hexpires.1 (by decide +kernel)

end SeedNet
