import SeedNet.Tasks
import SeedNet.HandlerEffects
import SeedNet.Run

/-! # All loops of an engine

To the tasks of `NodeAction`, `LoopAction` adds the loops that read or change the engine's other
tables: the outbound loop, the health check and STUN.  A run of an engine is a list of such steps in any
order; a handler runs as one step.

`Node.opens` is the message that the inbound loop takes from a datagram, and `Node.update` the update of
the tables that a step makes.  `loopNext_tables` says that this is all that a step does to them, up to
the counters and windows of the sessions (`Engine.SameTables`).  So an invariant of the tables is proved
once for each `Update`, and `Node.along_iff_tables` carries it to the runs. -/

namespace SeedNet

open Run (exec Along)

/-! ### Public addresses -/

namespace Ipv4Addr

def broadcast : Ipv4Addr := ⟨255, 255, 255, 255⟩

def isPrivate (ip : Ipv4Addr) : Bool :=
  ip.a = 10 || (ip.a = 172 && 16 ≤ ip.b && ip.b ≤ 31) || (ip.a = 192 && ip.b = 168)

def isLoopback (ip : Ipv4Addr) : Bool := ip.a = 127

def isLinkLocal (ip : Ipv4Addr) : Bool := ip.a = 169 && ip.b = 254

end Ipv4Addr

/-- `is_publicly_routable`: only IPv4 relay for now. -/
def isPubliclyRoutable : SocketAddr → Bool
  | .v4 ip _ =>
    !ip.isPrivate && !ip.isLoopback && !ip.isLinkLocal && !decide (ip = .unspecified) && !decide (ip = .broadcast)
  | .v6 .. => false

namespace Engine

/-! ### The health check -/

section healthcheck

variable {τ : Type} (e : Engine τ)

/-- The path kind that the health check reports for a peer. -/
def pathKind (peerId : PeerId) : PathKind :=
  match e.relayPaths.lookup peerId with
  | some (relayId, _) => .relay relayId
  | none => .direct

/-- The health check comes to the session of `peerId`. -/
def healthcheck (nowMs : UInt64) (peerId : PeerId) : Reaction τ :=
  if peerId ∈ e.sessions then
    { engine := { e with
        peerMgr := e.peerMgr.update peerId fun p => { p with pathKind := e.pathKind peerId } }
      sends := [{ peer := peerId, msg := .ping nowMs }] }
  else { engine := e }

end healthcheck

/-! ### Tables up to transports -/

variable {S : Snow}

/-- The tables of `e'` are those of `e`, up to the counters and windows of the transports. -/
structure SameTables (e e' : Engine (SecureTransport S)) : Prop extends SameSessions e e' where
  relayCandidates : e'.relayCandidates = e.relayCandidates
  relayPaths : e'.relayPaths = e.relayPaths
  routingTable : e'.routingTable = e.routingTable
  peerMgr : e'.peerMgr = e.peerMgr

variable {e e' e'' : Engine (SecureTransport S)}

theorem SameSessions.len (h : e.SameSessions e') : e'.sessions.len = e.sessions.len := by
  apply List.Perm.length_eq
  rw [List.perm_ext_iff_of_nodup e'.sessions.keys_nodup e.sessions.keys_nodup]
  intro p
  exact h.mem p

theorem SameTables.refl (e : Engine (SecureTransport S)) : e.SameTables e := ⟨.refl e, rfl, rfl, rfl, rfl⟩

theorem SameTables.symm (h : e.SameTables e') : e'.SameTables e :=
  ⟨⟨h.ourPeerId.symm, h.addrIndex.symm, h.canRelayFlag.symm, h.stunAddr.symm, h.sessionInit.symm,
    fun p => (h.sessions p).symm⟩, h.relayCandidates.symm, h.relayPaths.symm, h.routingTable.symm, h.peerMgr.symm⟩

theorem SameTables.trans (h : e.SameTables e') (h' : e'.SameTables e'') : e.SameTables e'' :=
  ⟨h.toSameSessions.trans h'.toSameSessions, h'.relayCandidates.trans h.relayCandidates,
    h'.relayPaths.trans h.relayPaths, h'.routingTable.trans h.routingTable, h'.peerMgr.trans h.peerMgr⟩

theorem sameTables_setTransport {peer : PeerId} {session : PeerSession (SecureTransport S)} {t : SecureTransport S}
    (h : e.sessions.lookup peer = some session) (ht : t.state = session.transport.state) :
    e.SameTables (e.setTransport peer session t) :=
  ⟨sameSessions_setTransport h ht, rfl, rfl, rfl, rfl⟩

theorem sameTables_transmitOne (s : Send) : e.SameTables (e.transmitOne s).1 := by
  refine ⟨sameSessions_transmitOne s, ?_, ?_, ?_, ?_⟩ <;>
  · unfold transmitOne
    split
    · rfl
    · split <;> rfl

theorem sameTables_transmit (sends : List Send) (e : Engine (SecureTransport S)) :
    e.SameTables (e.transmit sends).1 := by
  induction sends generalizing e with
  | nil => exact .refl e
  | cons s sends ih => exact (sameTables_transmitOne s).trans (ih _)

theorem sameTables_removeSession {peerId : PeerId} (h : e.sessions.lookup peerId = none) :
    (e.removeSession peerId).SameTables e := by
  refine ⟨⟨rfl, rfl, rfl, rfl, rfl, fun p => ?_⟩, rfl, rfl, rfl, rfl⟩
  simp only [removeSession, Map.lookup_erase]
  by_cases hp : p = peerId
  · rw [if_pos hp, hp, h]
  · rw [if_neg hp]

end Engine

/-! ### Steps of the loops -/

variable {S : Snow}

/-- One step of one loop. -/
inductive LoopAction (S : Snow) where
  | task (a : NodeAction S)
  /-- the outbound loop reads a packet; `candidate` is the relay candidate that its iterator yields first -/
  | tunPacket (candidate : Option PeerId) (packet : Bytes)
  | healthcheck (nowMs : UInt64) (peerId : PeerId)
  /-- STUN has found this public address: the relay flag and the address are stored one after the other -/
  | relayFlag (addr : SocketAddr)
  | stunAddr (addr : SocketAddr)

/-- The task with completions that a step belongs to. -/
def LoopAction.worker : LoopAction S → Option (Option ℕ)
  | .task a => a.task
  | _ => none

namespace Node

variable (blake3 : Blake3) (n : Node S)

/-- The messages of a loop are encrypted and sent. -/
def react (r : Reaction (SecureTransport S)) : Outcome S :=
  let sent := r.engine.transmit r.sends
  { node := { n with engine := sent.1 }, out := sent.2, tun := r.tun }

def loopStep : LoopAction S → Outcome S
  | .task a => n.step blake3 a
  | .tunPacket candidate packet => n.react (n.engine.handleTunPacket candidate packet)
  | .healthcheck nowMs peerId => n.react (n.engine.healthcheck nowMs peerId)
  | .relayFlag addr => { node := { n with engine := { n.engine with canRelayFlag := isPubliclyRoutable addr } } }
  | .stunAddr addr => { node := { n with engine := { n.engine with stunAddr := some addr } } }

/-- The node after a step. -/
def loopNext (a : LoopAction S) : Node S := (n.loopStep blake3 a).node

/-- An engine that has just started. -/
structure Initial : Prop where
  sessions : n.engine.sessions = ∅
  addrIndex : n.engine.addrIndex = ∅
  relayPaths : n.engine.relayPaths = ∅
  routingTable : n.engine.routingTable = {}
  peers : n.engine.peerMgr.peers = ∅
  inbound : n.inbound = .idle
  attempts : n.attempts = ∅

variable {n} in
theorem Initial.completion (h : n.Initial) (who : Option ℕ) : n.completion who = none := by
  cases who with
  | none => rw [completion_inbound, h.inbound]; rfl
  | some id => simp only [Node.completion, h.attempts, AList.lookup_empty, Option.bind_none]

/-! ### The message in a datagram -/

variable (a : Arrival S)

/-- The node after the decryption of a datagram from `peerId`, and the message. -/
def decryptData (peerId : PeerId) : Node S × Option Message :=
  match n.engine.sessions.lookup peerId with
  | none => (n, none)
  | some session =>
    match session.transport.decryptInto a.data n.plainBuf with
    | (.error _, buf, t) => ({ n with engine := n.engine.setTransport peerId session t, plainBuf := buf }, none)
    | (.ok len, buf, t) =>
      ({ n with engine := n.engine.setTransport peerId session t, plainBuf := buf },
        (deserializeMessage (buf.take len)).toOption)

/-- The peer whose session a datagram is decrypted with, if it comes to that. -/
def dataFrom : Option PeerId :=
  if startsWith a.data holePunchProbePrefix then none
  else
    match n.pendingInitiator a, (n.retainResponders a.now).pendingResponders.lookup a.fromAddr.socketAddr with
    | none, none => n.engine.addrIndex.lookup a.fromAddr
    | _, _ => none

/-- The message that the inbound loop takes from a datagram, and the node that goes on to handle it. -/
def opens : Option (Node S × Message) :=
  match n.inbound with
  | .idle =>
    (n.dataFrom a).bind fun peerId =>
      let (n, msg) := (n.retainResponders a.now).decryptData a peerId
      msg.map fun msg => (n, msg)
  | _ => none

theorem onData_eq (peerId : PeerId) :
    n.onData blake3 a peerId =
      match n.decryptData a peerId with
      | (n, some msg) => n.onMessage blake3 a msg
      | (n, none) => { node := n } := by
  unfold onData decryptData
  cases n.engine.sessions.lookup peerId with
  | none => rfl
  | some session =>
      dsimp only
      generalize session.transport.decryptInto a.data n.plainBuf = decrypted
      obtain ⟨err | len, buf, t⟩ := decrypted
      · rfl
      · dsimp only
        cases deserializeMessage (buf.take len) with
        | error err => rfl
        | ok msg => rfl

theorem decryptData_sameTables (peerId : PeerId) : n.engine.SameTables (n.decryptData a peerId).1.engine := by
  unfold decryptData
  cases hl : n.engine.sessions.lookup peerId with
  | none => exact .refl _
  | some session =>
      have ht := session.transport.decryptInto_state a.data n.plainBuf
      dsimp only
      split <;> rename_i hd <;> rw [hd] at ht <;> exact Engine.sameTables_setTransport hl ht

theorem onMessage_sameTables (msg : Message) :
    (n.engine.handleMessage blake3 a.nowMs a.fromAddr msg).engine.SameTables
      (n.onMessage blake3 a msg).node.engine :=
  Engine.sameTables_transmit _ _

variable {n} {a}

theorem onData_of_dataFrom {peerId : PeerId} (h : n.dataFrom a = some peerId) :
    n.receive blake3 a = (n.retainResponders a.now).onData blake3 a peerId := by
  unfold dataFrom at h
  split at h
  · cases h
  · next hpunch =>
      split at h
      · next hpending hresponder =>
          exact receive_data (Bool.eq_false_iff.mpr hpunch) hpending hresponder h
      · cases h

/-- A datagram that is not data leaves the engine alone. -/
theorem receive_engine (h : n.dataFrom a = none) : (n.receive blake3 a).node.engine = n.engine := by
  unfold dataFrom at h
  unfold receive
  dsimp only
  split
  · unfold onHolePunch
    split <;> rfl
  · next hpunch =>
      rw [if_neg hpunch] at h
      split
      · rfl
      · next hpending =>
          replace hpending : n.pendingInitiator a = none := hpending
          rw [hpending] at h
          split
          · unfold onMessageC
            dsimp only
            split <;> rfl
          · next hresponder =>
              rw [hresponder] at h
              split
              · next peerId hindex => cases h.symm.trans hindex
              · split
                · unfold onMessageA
                  split <;> rfl
                · rfl

variable (n) (a)

theorem opens_of_idle (h : n.inbound = .idle) :
    n.opens a = (n.dataFrom a).bind fun peerId =>
      ((n.retainResponders a.now).decryptData a peerId).2.map fun msg =>
        (((n.retainResponders a.now).decryptData a peerId).1, msg) := by
  simp only [opens, h]

variable {n} {a}

/-- A datagram with a message: the message is handled. -/
theorem step_of_opens {m : Node S} {msg : Message} (h : n.opens a = some (m, msg)) :
    n.step blake3 (.receive a) = m.onMessage blake3 a msg ∧ n.engine.SameTables m.engine := by
  cases hi : n.inbound with
  | dispatch | complete => rw [opens, hi] at h; cases h
  | idle =>
      rw [opens_of_idle n a hi] at h
      obtain ⟨peerId, hfrom, hmap⟩ := Option.bind_eq_some_iff.mp h
      obtain ⟨msg', hmsg, heq⟩ := Option.map_eq_some_iff.mp hmap
      cases heq
      constructor
      · rw [step, hi]
        dsimp only
        rw [onData_of_dataFrom blake3 hfrom, onData_eq]
        generalize (n.retainResponders a.now).decryptData a peerId = r at hmsg
        obtain ⟨m, msg'⟩ := r
        cases hmsg
        rfl
      · exact decryptData_sameTables (n.retainResponders a.now) a peerId

variable (n) (a) in
/-- The message that the inbound loop takes from a datagram. -/
def messageIn : Option Message := (n.opens a).map Prod.snd

variable (n) (a) in
/-- What the handler of the message makes of it. -/
def reaction : Option (Reaction (SecureTransport S)) :=
  (n.opens a).map fun (m, msg) => m.engine.handleMessage blake3 a.nowMs a.fromAddr msg

/-- The turn sends what the handler sends, and writes what it writes. -/
theorem step_of_reaction {r : Reaction (SecureTransport S)} (h : n.reaction blake3 a = some r) :
    (n.step blake3 (.receive a)).node.engine = (r.engine.transmit r.sends).1 ∧
      (n.step blake3 (.receive a)).out = (r.engine.transmit r.sends).2 ∧
      (n.step blake3 (.receive a)).tun = r.tun := by
  obtain ⟨⟨m, msg⟩, ho, rfl⟩ := Option.map_eq_some_iff.mp h
  rw [(step_of_opens blake3 ho).1]
  exact ⟨rfl, rfl, rfl⟩

/-- A datagram without a message: no table changes. -/
theorem step_of_not_opens (h : n.opens a = none) :
    n.engine.SameTables (n.step blake3 (.receive a)).node.engine := by
  rw [step]
  cases hi : n.inbound with
  | dispatch | complete => exact .refl _
  | idle =>
      rw [opens_of_idle n a hi] at h
      dsimp only
      cases hfrom : n.dataFrom a with
      | none =>
          rw [receive_engine blake3 hfrom]
          exact .refl _
      | some peerId =>
          have hsame := decryptData_sameTables (n.retainResponders a.now) a peerId
          have hnone := Option.map_eq_none_iff.mp ((Option.bind_eq_none_iff.mp h) peerId hfrom)
          rw [onData_of_dataFrom blake3 hfrom, onData_eq]
          generalize (n.retainResponders a.now).decryptData a peerId = r at hsame hnone
          obtain ⟨m, msg⟩ := r
          cases hnone
          exact hsame

end Node

/-! ### Updates of the tables -/

/-- What a step does to the tables of the engine. -/
inductive Update (S : Snow) where
  | none
  /-- a handler of the inbound loop -/
  | message (nowMs : UInt64) (fromAddr : TransportAddr) (msg : Message)
  | complete (c : Completion S)
  | removeSession (peerId : PeerId)
  | removeAddrIndex (underlay : TransportAddr)
  | tunPacket (candidate : Option PeerId) (packet : Bytes)
  | healthcheck (nowMs : UInt64) (peerId : PeerId)
  | relayFlag (addr : SocketAddr)
  | stunAddr (addr : SocketAddr)

namespace Update

def apply (blake3 : Blake3) (e : Engine (SecureTransport S)) : Update S → Engine (SecureTransport S)
  | .none => e
  | .message nowMs fromAddr msg => (e.handleMessage blake3 nowMs fromAddr msg).engine
  | .complete c => (c.run blake3 e).1
  | .removeSession peerId => e.removeSession peerId
  | .removeAddrIndex underlay => e.removeAddrIndex underlay
  | .tunPacket candidate packet => (e.handleTunPacket candidate packet).engine
  | .healthcheck nowMs peerId => (e.healthcheck nowMs peerId).engine
  | .relayFlag addr => { e with canRelayFlag := isPubliclyRoutable addr }
  | .stunAddr addr => { e with stunAddr := some addr }

def ofCompletion : Option (Completion S) → Update S
  | some c => .complete c
  | Option.none => .none

end Update

namespace Update

variable (blake3 : Blake3) (e : Engine (SecureTransport S))

/-- What an update does to the sessions and to the address index. -/
inductive SessionEffect (u : Update S) : Engine (SecureTransport S) → Prop
  | same {e'} (hs : ∀ p, (e'.sessions.lookup p).map (·.underlay) = (e.sessions.lookup p).map (·.underlay))
      (hi : e'.addrIndex = e.addrIndex) : SessionEffect u e'
  | stores (c : Completion S) (hu : u = .complete c) (hstage : c.stage = .session) :
      SessionEffect u (e.insertSession c.peerId c.transport c.underlay)
  | indexes (c : Completion S) (hu : u = .complete c) (hstage : c.stage = .addrIndex) :
      SessionEffect u (e.insertAddrIndex c.underlay c.peerId)
  | removes (peerId : PeerId) (hu : u = .removeSession peerId) : SessionEffect u (e.removeSession peerId)
  | forgets (underlay : TransportAddr) (hu : u = .removeAddrIndex underlay) :
      SessionEffect u (e.removeAddrIndex underlay)

theorem sessionEffect (u : Update S) : SessionEffect e u (u.apply blake3 e) := by
  cases u with
  | message nowMs fromAddr msg =>
      have hframe := Engine.handleMessage_frame blake3 (e := e) nowMs fromAddr msg
      exact .same (fun p => by rw [apply, hframe.sessions]) hframe.addrIndex
  | complete c =>
      by_cases hs : c.stage = .session
      · simp only [apply, Completion.run, hs]
        exact .stores c rfl hs
      · by_cases hi : c.stage = .addrIndex
        · simp only [apply, Completion.run, hi]
          exact .indexes c rfl hi
        · have hsame := Completion.run_sameSessions blake3 (e := e) hs hi
          exact .same hsame.underlay hsame.addrIndex
  | removeSession peerId => exact .removes peerId rfl
  | removeAddrIndex underlay => exact .forgets underlay rfl
  | tunPacket candidate packet =>
      obtain ⟨t, heng⟩ := e.handleTunPacket_routes candidate packet
      rw [apply, heng]
      exact .same (fun _ => rfl) rfl
  | healthcheck nowMs peerId =>
      rw [apply, Engine.healthcheck]
      split <;> exact .same (fun _ => rfl) rfl
  | none | relayFlag | stunAddr => exact .same (fun _ => rfl) rfl

variable {blake3} {e} in
/-- What relay paths preserve as they are written and removed, an update preserves. -/
theorem relayPaths_induction {u : Update S} {P : Map PeerId (PeerId × UInt8) → Prop}
    (hready : ∀ nowMs fromAddr relayId dst hops, u = .message nowMs fromAddr (.relayReady relayId dst hops) →
      P (e.relayPaths.insert dst (relayId, hops)))
    (hlearn : ∀ fromAddr rid, e.addrIndex.lookup fromAddr = some rid → ∀ m dst hops, P m →
      P (m.insert dst (rid, hops)))
    (herase : ∀ c, u = .complete c → c.stage = .relayPath → P (e.relayPaths.erase c.peerId))
    (h : P e.relayPaths) : P (u.apply blake3 e).relayPaths := by
  cases u with
  | message nowMs fromAddr msg =>
      rw [apply, Engine.handleMessage.eq_def]
      cases msg with
      | relayReady relayId dst hops => exact hready nowMs fromAddr relayId dst hops rfl
      | relayRequest dst =>
          rcases e.handleRelayRequest_engine blake3 fromAddr dst with ⟨rid, -, hfrom, heng⟩ | ⟨-, heng⟩ <;>
            dsimp only <;> rw [heng]
          · exact hlearn fromAddr rid hfrom _ dst 1 h
          · exact h
      | peerDirectory entries =>
          exact Engine.handlePeerDirectory_induction (P := fun e' => P e'.relayPaths) (fun _ _ _ he _ => he)
            (fun rid hfrom _ _ _ he _ _ _ => hlearn fromAddr rid hfrom _ _ _ he) h
      | sessionInit overlay overlayIpv6 hostname publicAddr =>
          dsimp only
          rw [Engine.handleSessionInit_engine]
          split <;> exact h
      | ping | pong =>
          dsimp only
          split <;> exact h
      | relayData src dst payload =>
          dsimp only
          rw [Engine.handleRelayData_engine]
          exact h
      | heartbeat | data | relayAnnounce | holePunchProbe | holePunchAck => exact h
  | complete c =>
      rw [apply, Completion.run]
      cases hstage : c.stage with
      | relayPath => exact herase c rfl hstage
      | session | addrIndex | route | register => exact h
      | sessionInit | announce | directories =>
          dsimp only
          rw [(Engine.sameTables_transmit _ e).relayPaths]
          exact h
  | tunPacket candidate packet =>
      obtain ⟨t, heng⟩ := e.handleTunPacket_routes candidate packet
      rw [apply, heng]
      exact h
  | healthcheck nowMs peerId =>
      rw [apply, Engine.healthcheck]
      split <;> exact h
  | none | removeSession | removeAddrIndex | relayFlag | stunAddr => exact h

end Update

namespace Node

variable (blake3 : Blake3) (n : Node S)

/-- The update of the tables that a step makes. -/
def update : LoopAction S → Update S
  | .task (.receive a) =>
    match n.opens a with
    | some (_, msg) => .message a.nowMs a.fromAddr msg
    | none => .none
  | .task .inbound => .ofCompletion (n.completion none)
  | .task (.attempt id _ _) => .ofCompletion (n.completion (some id))
  | .task (.removed id) => if n.removal = none then .removeSession id else .none
  | .task .removal =>
    match n.removal with
    | some underlay => .removeAddrIndex underlay
    | none => .none
  | .task .discovery =>
    match n.discovery with
    | some (.remove addr) => .removeAddrIndex (.udp addr)
    | _ => .none
  | .task _ => .none
  | .tunPacket candidate packet => .tunPacket candidate packet
  | .healthcheck nowMs peerId => .healthcheck nowMs peerId
  | .relayFlag addr => .relayFlag addr
  | .stunAddr addr => .stunAddr addr

variable {n}

theorem inboundStep_tables :
    ((Update.ofCompletion (n.completion none)).apply blake3 n.engine).SameTables (n.inboundStep blake3).node.engine := by
  unfold inboundStep
  cases hi : n.inbound with
  | idle =>
      rw [completion_inbound, hi]
      exact .refl _
  | dispatch id data =>
      rw [completion_inbound, hi]
      dsimp only
      rw [deliverToAttempt_engine]
      exact .refl _
  | complete c =>
      rw [completion_inbound, hi]
      exact .refl _

theorem onMessageB_engine (id : ℕ) (attempt : Attempt S) (data : Bytes) (sent : Bool) :
    (n.onMessageB id attempt data sent).node.engine = n.engine := by
  unfold onMessageB
  split
  · rfl
  · split
    · rfl
    · dsimp only
      split <;> rfl

theorem attemptStep_tables (id : ℕ) (sent : Bool) (token : UInt64) :
    ((Update.ofCompletion (n.completion (some id))).apply blake3 n.engine).SameTables
      (n.attemptStep blake3 id sent token).node.engine := by
  unfold attemptStep
  cases hat : n.attempts.lookup id with
  | none =>
      simp only [completion, hat, Option.bind_none]
      exact .refl _
  | some attempt =>
      rw [completion_some_of_lookup hat]
      dsimp only
      cases hstage : attempt.stage with
      | sendA taggedA => cases sent <;> exact .refl _
      | sendFailed | timedOut | holePunch => exact .refl _
      | waitB =>
          cases hinbox : attempt.inbox with
          | some data =>
              dsimp only
              rw [onMessageB_engine]
              exact .refl _
          | none =>
              dsimp only
              split <;> exact .refl _
      | complete c =>
          dsimp only
          cases c.next <;> exact .refl _
      | requestRelay => exact Engine.sameTables_transmit _ _

theorem discoveryStep_tables :
    ((n.update (.task .discovery)).apply blake3 n.engine).SameTables n.discoveryStep.engine := by
  unfold discoveryStep update
  cases hd : n.discovery with
  | none => exact .refl _
  | some stage => cases stage <;> exact .refl _

theorem removed_tables (id : PeerId) :
    ((n.update (.task (.removed id))).apply blake3 n.engine).SameTables (n.removed id).engine := by
  unfold removed
  cases hr : n.removal with
  | some underlay => rw [update, hr]; exact .refl _
  | none =>
      rw [update, if_pos hr]
      cases hl : n.engine.sessions.lookup id with
      | some session => exact .refl _
      | none => exact Engine.sameTables_removeSession hl

theorem removalStep_tables :
    ((n.update (.task .removal)).apply blake3 n.engine).SameTables n.removalStep.engine := by
  unfold removalStep update
  cases n.removal <;> exact .refl _

variable (n) in
/-- All that a step does to the tables is its update. -/
theorem loopNext_tables (a : LoopAction S) :
    ∃ e, n.engine.SameTables e ∧ ((n.update a).apply blake3 e).SameTables (n.loopNext blake3 a).engine := by
  have hself : n.engine.SameTables n.engine := .refl _
  cases a with
  | task a =>
      cases a with
      | receive arrival =>
          simp only [update, loopNext, loopStep]
          cases ho : n.opens arrival with
          | none => exact ⟨_, step_of_not_opens blake3 ho, .refl _⟩
          | some r =>
              obtain ⟨m, msg⟩ := r
              obtain ⟨hstep, hsame⟩ := step_of_opens blake3 ho
              rw [hstep]
              exact ⟨m.engine, hsame, onMessage_sameTables blake3 m arrival msg⟩
      | inbound => exact ⟨_, hself, inboundStep_tables blake3⟩
      | attempt id sent token => exact ⟨_, hself, attemptStep_tables blake3 id sent token⟩
      | discovery => exact ⟨_, hself, discoveryStep_tables blake3⟩
      | removed id => exact ⟨_, hself, removed_tables blake3 id⟩
      | removal => exact ⟨_, hself, removalStep_tables blake3⟩
      | broadcast sends => exact ⟨_, hself, Engine.sameTables_transmit _ _⟩
      | start addr rng =>
          refine ⟨_, hself, ?_⟩
          simp only [loopNext, loopStep, step, start]
          split
          · exact .refl _
          · split <;> exact .refl _
      | timeout id =>
          refine ⟨_, hself, ?_⟩
          simp only [loopNext, loopStep, step, timeout]
          split
          · exact .refl _
          · split <;> exact .refl _
      | discover addr =>
          refine ⟨_, hself, ?_⟩
          simp only [loopNext, loopStep, step, discover]
          split
          · split <;> exact .refl _
          · exact .refl _
  | tunPacket candidate packet => exact ⟨_, hself, Engine.sameTables_transmit _ _⟩
  | healthcheck nowMs peerId => exact ⟨_, hself, Engine.sameTables_transmit _ _⟩
  | relayFlag addr | stunAddr addr => exact ⟨_, hself, .refl _⟩

theorem inbound_of_completion {c : Completion S} (h : n.completion none = some c) : n.inbound = .complete c := by
  rw [completion_inbound] at h
  cases hi : n.inbound with
  | idle | dispatch => rw [hi] at h; cases h
  | complete d =>
      rw [hi] at h
      exact congrArg Inbound.complete (Option.some.inj h)

theorem update_of_completion {a : NodeAction S} {who : Option ℕ} {c : Completion S} (ha : a.task = some who)
    (h : n.completion who = some c) : n.update (.task a) = .complete c := by
  cases a with
  | inbound | attempt =>
      cases ha
      simp only [update, h, Update.ofCompletion]
  | receive | start | timeout | discover | discovery | removed | removal | broadcast => cases ha

/-- The task of a completion goes on to the next update. -/
theorem completion_advances {a : NodeAction S} {who : Option ℕ} {c : Completion S} (ha : a.task = some who)
    (h : n.completion who = some c) : (n.next blake3 a).completion who = c.next := by
  cases a with
  | inbound =>
      cases ha
      rw [next, step, inboundStep, inbound_of_completion h, completion_inbound]
      dsimp only
      cases c.next <;> rfl
  | attempt id sent token =>
      cases ha
      obtain ⟨attempt, hat, hstage⟩ := Option.bind_eq_some_iff.mp h
      have hcomplete : attempt.stage = .complete c := by
        cases hst : attempt.stage with
        | complete d =>
            rw [hst] at hstage
            exact congrArg AttemptStage.complete (Option.some.inj hstage)
        | sendA | sendFailed | waitB | timedOut | requestRelay | holePunch => rw [hst] at hstage; cases hstage
      rw [next, step, attemptStep, hat]
      dsimp only
      rw [hcomplete]
      dsimp only
      cases c.next with
      | none => exact (completion_endAttempt id (some id)).trans (if_pos rfl)
      | some d => exact (completion_setStage hat (.complete d) (some id)).trans (if_pos rfl)
  | receive | start | timeout | discover | discovery | removed | removal | broadcast => cases ha

/-- Every other completion stays as it is. -/
theorem completion_other {a : LoopAction S} {who : Option ℕ} {c : Completion S} (ha : a.worker ≠ some who)
    (h : n.completion who = some c) : (n.loopNext blake3 a).completion who = some c := by
  cases a with
  | tunPacket | healthcheck | relayFlag | stunAddr => exact h
  | task a =>
      have hsame (hw : (n.next blake3 a).completion who = n.completion who) :
          (n.loopNext blake3 (.task a)).completion who = some c := hw.trans h
      cases effect blake3 n a with
      | quiet hs hr hc => exact hsame (hc who)
      | removes id session hlookup hnone hs hr hc => exact hsame (hc who)
      | cleans underlay ha hsome hs hr hc => exact hsame (hc who)
      | forgets addr ha hsome hs hr hc => exact hsame (hc who)
      | accepts arrival responder created result _ hpunch hpending hfinish hs hr hnone hc =>
          have hwho : who ≠ none := fun hw => by rw [hw, hnone] at h; cases h
          exact hsame (by rw [hc who, if_neg hwho])
      | answers id token attempt data result _ hattempt hstage hinbox hanswer hs hr hnone hc =>
          have hwho : who ≠ some id := fun hw => by rw [hw, hnone] at h; cases h
          exact hsame (by rw [hc who, if_neg hwho])
      | advances w d haw hsome hs hr hc =>
          have hwho : who ≠ w := fun hw => ha (by rw [hw]; exact haw)
          exact hsame (by rw [hc who, if_neg hwho])

theorem completion_loopNext {a : LoopAction S} {who : Option ℕ} {c : Completion S} (h : n.completion who = some c) :
    (n.loopNext blake3 a).completion who = some c ∨
      n.update a = .complete c ∧ (n.loopNext blake3 a).completion who = c.next := by
  by_cases ha : a.worker = some who
  · cases a with
    | tunPacket | healthcheck | relayFlag | stunAddr => cases ha
    | task a => exact .inr ⟨update_of_completion ha h, completion_advances blake3 ha h⟩
  · exact .inl (completion_other blake3 ha h)

/-- A completion is advanced by the task that it belongs to. -/
theorem completion_of_update {a : LoopAction S} {c : Completion S} (h : n.update a = .complete c) :
    ∃ b who, a = .task b ∧ b.task = some who ∧ n.completion who = some c := by
  have hsome (who : Option ℕ) (hc : Update.ofCompletion (n.completion who) = .complete c) :
      n.completion who = some c := by
    cases hw : n.completion who with
    | none => rw [hw] at hc; cases hc
    | some d =>
        rw [hw] at hc
        cases hc
        rfl
  cases a with
  | task b =>
      cases b with
      | inbound => exact ⟨_, none, rfl, rfl, hsome none h⟩
      | attempt id sent token => exact ⟨_, some id, rfl, rfl, hsome (some id) h⟩
      | receive | discovery | removal => simp only [update] at h; split at h <;> cases h
      | removed id => simp only [update] at h; split at h <;> cases h
      | start | timeout | discover | broadcast => cases h
  | tunPacket | healthcheck | relayFlag | stunAddr => cases h

variable (n) in
theorem loopNext_ourPeerId (a : LoopAction S) : (n.loopNext blake3 a).engine.ourPeerId = n.engine.ourPeerId := by
  cases a with
  | task a => exact (next_identity blake3 n a).1
  | tunPacket candidate packet =>
      refine (Engine.sameTables_transmit _ _).ourPeerId.trans ?_
      obtain ⟨t, heng⟩ := n.engine.handleTunPacket_routes candidate packet
      rw [heng]
  | healthcheck nowMs peerId =>
      refine (Engine.sameTables_transmit _ _).ourPeerId.trans ?_
      rw [Engine.healthcheck]
      split <;> rfl
  | relayFlag addr | stunAddr addr => rfl

/-- Where a completion of the next state comes from. -/
theorem completion_origin {a : LoopAction S} {who : Option ℕ} {c : Completion S}
    (h : (n.loopNext blake3 a).completion who = some c) :
    n.completion who = some c ∨ c.stage = .relayPath ∨ ∃ d, n.update a = .complete d ∧ d.next = some c := by
  cases a with
  | tunPacket | healthcheck | relayFlag | stunAddr => exact .inl h
  | task a =>
      have hsame (hw : (n.next blake3 a).completion who = n.completion who) : n.completion who = some c :=
        hw.symm.trans h
      cases effect blake3 n a with
      | quiet hs hr hc => exact .inl (hsame (hc who))
      | removes id session hlookup hnone hs hr hc => exact .inl (hsame (hc who))
      | cleans underlay ha hsome hs hr hc => exact .inl (hsame (hc who))
      | forgets addr ha hsome hs hr hc => exact .inl (hsame (hc who))
      | accepts arrival responder created result ha hpunch hpending hfinish hs hr hnone hc =>
          by_cases hwho : who = none
          · have hnew := (hc who).symm.trans h
            rw [if_pos hwho] at hnew
            exact .inr (.inl (Option.some.inj hnew ▸ rfl))
          · exact .inl (hsame (by rw [hc who, if_neg hwho]))
      | answers id token attempt data result ha hattempt hstage hinbox hanswer hs hr hnone hc =>
          by_cases hwho : who = some id
          · have hnew := (hc who).symm.trans h
            rw [if_pos hwho] at hnew
            exact .inr (.inl (Option.some.inj hnew ▸ rfl))
          · exact .inl (hsame (by rw [hc who, if_neg hwho]))
      | advances w d haw hsome hs hr hc =>
          by_cases hwho : who = w
          · have hnew := (hc who).symm.trans h
            rw [if_pos hwho] at hnew
            exact .inr (.inr ⟨d, update_of_completion haw hsome, hnew⟩)
          · exact .inl (hsame (by rw [hc who, if_neg hwho]))

/-! ### Invariants of the tables -/

section tables

variable {I : Engine (SecureTransport S) → Prop} {ok : Engine (SecureTransport S) → Update S → Prop}
  (hI : ∀ {e e'}, e.SameTables e' → I e → I e') (hok : ∀ {e e'} u, e.SameTables e' → ok e u → ok e' u)
  (hstep : ∀ e u, I e → (ok e u ↔ I (u.apply blake3 e)))
include hI hok hstep

/-- An update keeps a property of the tables exactly if it is permitted: then so does a step. -/
theorem step_iff_tables (n : Node S) (a : LoopAction S) (h : I n.engine) :
    ok n.engine (n.update a) ↔ I (n.loopNext blake3 a).engine := by
  obtain ⟨e, hbefore, hafter⟩ := n.loopNext_tables blake3 a
  constructor
  · intro ha
    exact hI hafter ((hstep e _ (hI hbefore h)).mp (hok _ hbefore ha))
  · intro hnext
    exact hok _ hbefore.symm ((hstep e _ (hI hbefore h)).mpr (hI hafter.symm hnext))

/-- The runs whose updates are all permitted are those that never leave the property. -/
theorem along_iff_tables {n : Node S} (h : I n.engine) (as : List (LoopAction S)) :
    Along (Node.loopNext blake3) (fun n a => ok n.engine (n.update a)) n as ↔
      ∀ bs, bs <+: as → I (exec (Node.loopNext blake3) n bs).engine :=
  Run.along_iff_invariant (I := fun n => I n.engine)
    (fun n a hn => step_iff_tables blake3 hI hok hstep n a hn) h as

end tables

end Node

end SeedNet
