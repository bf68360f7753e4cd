import SeedNet.HandlerThreads
import SeedNet.TransparentNode

/-! # A node with its handlers interleaved

`Node.loopNext` runs a handler as one step.  A `Host` is the same node as a pool of threads: a datagram with a
message, a packet from the TUN device and a visit of the health check start a thread, and so does the last update of
a completed handshake, which registers the peer.  All other steps are those of the node.  A task that is busy takes no
other step: the inbound loop receives its next datagram when the handler is done.  Without interruption the two are
the same (`HandlersAlone.lean`).

`Host.tables_loop` and `Host.completion_loop` say what the steps of the loops do to the tables and to the handshakes,
`Threads.Pool.shared_run` with the lemmas on `Shared.perform` what the steps of the threads do. -/

namespace SeedNet

open Run (exec Along)
open Threads (Thread Pool)

variable {S : Snow}

/-- The tasks of a node that run threads: `worker` is the inbound loop or an initiator. -/
inductive HostTask where
  | worker (who : Option ℕ)
  | outbound
  | health
deriving DecidableEq

/-- What the threads of a task begin. -/
def HostTask.Begins : HostTask → Op → Prop
  | .worker _ => Op.Begins
  | .outbound | .health => Op.Looks

/-- A node whose handlers run beside its other tasks. -/
abbrev Host (S : Snow) := Pool HostTask (Shared S) Op (Option ℕ)

inductive HostAction (S : Snow) where
  | loop (a : LoopAction S)
  /-- the next step of a thread -/
  | run (t : HostTask)

/-- The task that a step of a loop belongs to, if it is one that handles messages or completes handshakes. -/
def LoopAction.host : LoopAction S → Option HostTask
  | .task (.receive _) => some (.worker none)
  | a => a.worker.map .worker

namespace Host

variable (blake3 : Blake3) (h : Host S)

def node : Node S := h.shared.node

def engine : Engine (SecureTransport S) := h.node.engine

/-- A step of the node. -/
def makes (o : Outcome S) : Host S :=
  { h with shared := { h.shared.setNode o.node with
      out := h.shared.out ++ o.out
      tun := h.shared.tun ++ o.tun } }

/-- The inbound loop receives a datagram. -/
def receive (a : Arrival S) : Host S :=
  match h.node.opens a with
  | some (n, msg) =>
    Pool.start { h with shared := h.shared.setNode n } (.worker none)
      (Handler.handleMessage blake3 a.nowMs a.fromAddr msg)
  | none => h.makes (h.node.step blake3 (.receive a))

/-- A step of a task with completions; at the end of a completion the peer is registered. -/
def advance (who : Option ℕ) (a : NodeAction S) : Host S :=
  match h.node.completion who with
  | some c =>
    if c.stage = .register then
      Pool.start (h.makes (h.node.step blake3 a)) (.worker who)
        (Handler.register c.peerId c.underlay.socketAddr)
    else h.makes (h.node.step blake3 a)
  | none => h.makes (h.node.step blake3 a)

/-- A step of a loop that is not busy. -/
def loop : LoopAction S → Host S
  | .task (.receive a) => h.receive blake3 a
  | .task .inbound => h.advance blake3 none .inbound
  | .task (.attempt id sent token) => h.advance blake3 (some id) (.attempt id sent token)
  | .tunPacket candidate packet => Pool.start h .outbound (Handler.handleTunPacket candidate packet)
  | .healthcheck nowMs peerId => Pool.start h .health (Handler.healthcheck nowMs peerId)
  | a => h.makes (h.node.loopStep blake3 a)

/-- The task of the step is running a thread. -/
def Busy (a : LoopAction S) : Prop := ∃ t ∈ a.host, t ∈ h.tasks

instance (a : LoopAction S) : Decidable (h.Busy a) :=
  match ha : a.host with
  | none => isFalse fun ⟨t, ht, _⟩ => by cases ha.symm.trans ht
  | some t => decidable_of_iff (t ∈ h.tasks)
      ⟨fun hmem => ⟨t, ha, hmem⟩, fun ⟨_, ht, hmem⟩ => Option.some.inj (ha.symm.trans ht) ▸ hmem⟩

def next : HostAction S → Host S
  | .loop a => if h.Busy a then h else h.loop blake3 a
  | .run t => h.run Shared.perform t

/-- An engine that has just started. -/
structure Initial : Prop where
  node : h.node.Initial
  records : h.shared.records = {}
  tasks : h.tasks = ∅

end Host

/-- The update is not that of a handler. -/
def Update.Elementary : Update S → Prop
  | .message .. | .tunPacket .. | .healthcheck .. => False
  | _ => True

namespace Update

variable {blake3 : Blake3} {e : Engine (SecureTransport S)} {u : Update S}

/-- Apart from the handlers, only a completed handshake installs a route. -/
theorem routingTable_apply : u.Elementary → (u.apply blake3 e).routingTable =
    match u with
    | .complete c =>
      if c.stage = .route then e.routingTable.addRoute (deriveOverlayAddr blake3 c.peerId) c.peerId else e.routingTable
    | _ => e.routingTable := by
  intro hu
  cases u with
  | complete c =>
      rw [apply, Completion.run]
      dsimp only
      cases c.stage with
      | relayPath | session | addrIndex | route | register => rfl
      | sessionInit | announce | directories => exact (Engine.sameTables_transmit _ e).routingTable
  | none | removeSession | removeAddrIndex | relayFlag | stunAddr => rfl
  | message | tunPacket | healthcheck => exact hu.elim

/-- Apart from the handlers, only a completed handshake concerns a relay path, and removes it. -/
theorem relayPaths_apply : u.Elementary → (u.apply blake3 e).relayPaths =
    match u with
    | .complete c => if c.stage = .relayPath then e.relayPaths.erase c.peerId else e.relayPaths
    | _ => e.relayPaths := by
  intro hu
  cases u with
  | complete c =>
      rw [apply, Completion.run]
      dsimp only
      cases c.stage with
      | relayPath | session | addrIndex | route | register => rfl
      | sessionInit | announce | directories => exact (Engine.sameTables_transmit _ e).relayPaths
  | none | removeSession | removeAddrIndex | relayFlag | stunAddr => rfl
  | message | tunPacket | healthcheck => exact hu.elim

end Update

namespace Host

variable (h : Host S)

/-! ### Steps of the loops -/

/-- The update of the tables that a step of a loop makes: handlers and registrations make theirs in threads. -/
def loopUpdate (a : LoopAction S) : Update S :=
  if h.Busy a then .none
  else
    match a with
    | .task (.receive _) | .tunPacket .. | .healthcheck .. => .none
    | a => h.node.update a

variable {h}

/-- The handlers are not among these updates. -/
theorem elementary_loopUpdate (a : LoopAction S) : (h.loopUpdate a).Elementary := by
  have hcompletion (who : Option ℕ) : (Update.ofCompletion (h.node.completion who)).Elementary := by
    cases h.node.completion who <;> trivial
  unfold loopUpdate
  split
  · trivial
  · cases a with
    | tunPacket | healthcheck | relayFlag | stunAddr => trivial
    | task a =>
        cases a with
        | inbound => exact hcompletion none
        | attempt id => exact hcompletion (some id)
        | receive | start | timeout | discover | broadcast => trivial
        | discovery | removed | removal =>
            dsimp only [Node.update]
            split <;> trivial

/-- A step of a loop that is not busy makes an update of a completion exactly if the node does. -/
theorem loopUpdate_eq_complete_iff {a : LoopAction S} (hbusy : ¬ h.Busy a) {c : Completion S} :
    h.loopUpdate a = .complete c ↔ h.node.update a = .complete c := by
  unfold loopUpdate
  rw [if_neg hbusy]
  constructor
  · intro hu
    split at hu
    · cases hu
    · cases hu
    · cases hu
    · exact hu
  · intro hu
    obtain ⟨b, who, rfl, htask, -⟩ := Node.completion_of_update hu
    cases b with
    | inbound | attempt => exact hu
    | receive | start | timeout | discover | discovery | removed | removal | broadcast => cases htask

theorem engine_makes {o : Outcome S} : (h.makes o).engine = { o.node.engine with peerMgr := h.engine.peerMgr } :=
  congrArg (fun m => { o.node.engine with peerMgr := m }) h.shared.agree.symm

theorem engine_start (t : HostTask) (th : Handler S) : engine (Pool.start h t th) = h.engine :=
  congrArg (fun s : Shared S => s.node.engine) Pool.shared_start

theorem node_start (t : HostTask) (th : Handler S) : node (Pool.start h t th) = h.node :=
  congrArg Shared.node Pool.shared_start

theorem completion_makes {o : Outcome S} (who : Option ℕ) : (h.makes o).node.completion who = o.node.completion who := by
  cases who <;> rfl

end Host

/-- Tables that are the same but for the records of peers. -/
theorem Engine.SameTables.setPeerMgr {e e' : Engine (SecureTransport S)} (h : e.SameTables e') (m : PeerManager) :
    { e with peerMgr := m }.SameTables { e' with peerMgr := m } :=
  ⟨⟨h.ourPeerId, h.addrIndex, h.canRelayFlag, h.stunAddr, h.sessionInit, h.sessions⟩, h.relayCandidates, h.relayPaths,
    h.routingTable, rfl⟩

namespace Host

variable (blake3 : Blake3) {h : Host S}

theorem tables_makes (a : LoopAction S) : ∃ e, h.engine.SameTables e ∧
    { (h.node.update a).apply blake3 e with peerMgr := h.engine.peerMgr }.SameTables
      (h.makes (h.node.loopStep blake3 a)).engine := by
  obtain ⟨e, hbefore, hafter⟩ := h.node.loopNext_tables blake3 a
  refine ⟨e, hbefore, ?_⟩
  rw [engine_makes]
  exact hafter.setPeerMgr _

theorem tables_idle : ∃ e, h.engine.SameTables e ∧
    { Update.none.apply blake3 e with peerMgr := h.engine.peerMgr }.SameTables h.engine :=
  ⟨h.engine, .refl _, .refl _⟩

theorem tables_receive (a : Arrival S) : ∃ e, h.engine.SameTables e ∧
    { Update.none.apply blake3 e with peerMgr := h.engine.peerMgr }.SameTables (h.receive blake3 a).engine := by
  refine ⟨h.engine, .refl _, ?_⟩
  unfold receive
  cases ho : h.node.opens a with
  | some r =>
      obtain ⟨m, msg⟩ := r
      have hsame := (Node.step_of_opens blake3 ho).2.setPeerMgr h.engine.peerMgr
      dsimp only
      rw [engine_start]
      show Engine.SameTables _ { m.engine with peerMgr := h.shared.records.manager }
      rw [← h.shared.agree]
      exact hsame
  | none =>
      dsimp only
      rw [engine_makes]
      exact (Node.step_of_not_opens blake3 ho).setPeerMgr h.engine.peerMgr

theorem tables_advance {who : Option ℕ} {a : NodeAction S} : ∃ e, h.engine.SameTables e ∧
    { (h.node.update (.task a)).apply blake3 e with peerMgr := h.engine.peerMgr }.SameTables
      (h.advance blake3 who a).engine := by
  unfold advance
  split
  · split
    · rw [engine_start]
      exact tables_makes blake3 (.task a)
    · exact tables_makes blake3 (.task a)
  · exact tables_makes blake3 (.task a)

/-- All that a step of a loop does to the tables is its update; it changes no record. -/
theorem tables_loop (a : LoopAction S) : ∃ e, h.engine.SameTables e ∧
    { (h.loopUpdate a).apply blake3 e with peerMgr := h.engine.peerMgr }.SameTables (h.next blake3 (.loop a)).engine := by
  unfold next loopUpdate
  dsimp only
  split
  · exact tables_idle blake3
  · cases a with
    | tunPacket | healthcheck =>
        refine ⟨h.engine, .refl _, ?_⟩
        rw [loop, engine_start]
        exact .refl _
    | relayFlag | stunAddr => exact tables_makes blake3 _
    | task a =>
        cases a with
        | receive a => exact tables_receive blake3 a
        | inbound | attempt => exact tables_advance blake3
        | start | timeout | discover | discovery | removed | removal | broadcast => exact tables_makes blake3 _

theorem peerMgr_loop (a : LoopAction S) : (h.next blake3 (.loop a)).engine.peerMgr = h.engine.peerMgr := by
  obtain ⟨e, -, hafter⟩ := tables_loop blake3 (h := h) a
  exact hafter.peerMgr

/-- A step of a loop that is not busy treats the completions as the node does. -/
theorem completion_loop {a : LoopAction S} (hbusy : ¬ h.Busy a) (who : Option ℕ) :
    (h.next blake3 (.loop a)).node.completion who = (h.node.loopNext blake3 a).completion who := by
  have hadvance (w : Option ℕ) (b : NodeAction S) :
      (h.advance blake3 w b).node.completion who = (h.node.loopNext blake3 (.task b)).completion who := by
    unfold advance
    split
    · split
      · rw [node_start, completion_makes]
        rfl
      · exact completion_makes who
    · exact completion_makes who
  rw [next, if_neg hbusy]
  cases a with
  | tunPacket | healthcheck =>
      rw [loop, node_start]
      cases who <;> rfl
  | relayFlag | stunAddr => cases who <;> rfl
  | task a =>
      cases a with
      | inbound | attempt => exact hadvance _ _
      | start | timeout | discover | discovery | removed | removal | broadcast => exact completion_makes who
      | receive a =>
          rw [loop, receive]
          cases ho : h.node.opens a with
          | none => exact completion_makes who
          | some r =>
              obtain ⟨m, msg⟩ := r
              dsimp only
              rw [node_start, Node.loopNext, Node.loopStep, (Node.step_of_opens blake3 ho).1]
              cases who <;> rfl

theorem next_of_busy {a : LoopAction S} (hbusy : h.Busy a) : h.next blake3 (.loop a) = h := if_pos hbusy

/-- All that a step of a thread does is its next operation. -/
theorem shared_run (t : HostTask) : (h.next blake3 (.run t)).shared =
    (h.nextOp t).elim h.shared fun w => (Shared.perform w h.shared).1 :=
  Pool.shared_run

theorem engine_run_none {t : HostTask} (hop : h.nextOp t = none) : (h.next blake3 (.run t)).engine = h.engine := by
  rw [engine, node, shared_run, hop]
  rfl

theorem engine_run_some {t : HostTask} {w : Op} (hop : h.nextOp t = some w) :
    (h.next blake3 (.run t)).engine = (Shared.perform w h.shared).1.node.engine := by
  rw [engine, node, shared_run, hop]
  rfl

/-! ### What a step of a loop leaves of records and threads -/

/-- A step of a loop changes no record, and starts at most one thread. -/
inductive Starts (h h' : Host S) : Prop
  | none (s : Shared S) (hs : s.records = h.shared.records) (heq : h' = { h with shared := s })
  | thread (s : Shared S) (hs : s.records = h.shared.records) (t : HostTask) (th : Handler S) (hth : th.Uses t.Begins)
      (heq : h' = Pool.start { h with shared := s } t th)

theorem starts_loop (a : LoopAction S) : h.Starts (h.next blake3 (.loop a)) := by
  have hmakes (o : Outcome S) : h.Starts (h.makes o) := .none (h.makes o).shared rfl rfl
  have hadvance (who : Option ℕ) (b : NodeAction S) : h.Starts (h.advance blake3 who b) := by
    unfold advance
    split
    · split
      · exact .thread (h.makes _).shared rfl (.worker who) _ (Handler.uses_register _ _) rfl
      · exact hmakes _
    · exact hmakes _
  unfold next
  dsimp only
  split
  · exact .none _ rfl rfl
  · cases a with
    | tunPacket candidate packet => exact .thread _ rfl .outbound _ (Handler.uses_handleTunPacket candidate packet) rfl
    | healthcheck nowMs peerId => exact .thread _ rfl .health _ (Handler.uses_healthcheck nowMs peerId) rfl
    | relayFlag | stunAddr => exact hmakes _
    | task a =>
        cases a with
        | inbound | attempt => exact hadvance _ _
        | start | timeout | discover | discovery | removed | removal | broadcast => exact hmakes _
        | receive a =>
            rw [loop, receive]
            split
            · exact .thread (h.shared.setNode _) rfl (.worker .none) _ (Handler.uses_handleMessage blake3 _ _ _) rfl
            · exact hmakes _

theorem records_loop (a : LoopAction S) : (h.next blake3 (.loop a)).shared.records = h.shared.records := by
  rcases starts_loop blake3 (h := h) a with ⟨s, hs, heq⟩ | ⟨s, hs, t, th, hth, heq⟩
  · rw [heq, hs]
  · rw [heq, Pool.shared_start, hs]

theorem nextOp_loop {a : LoopAction S} {t : HostTask} {w : Op} (hw : (h.next blake3 (.loop a)).nextOp t = some w) :
    t.Begins w ∨ h.nextOp t = some w := by
  rcases starts_loop blake3 (h := h) a with ⟨s, hs, heq⟩ | ⟨s, hs, t', th, hth, heq⟩
  · rw [heq] at hw
    exact .inr hw
  · rw [heq] at hw
    exact Pool.nextOp_start (p := { h with shared := s }) (P := HostTask.Begins) hth hw

theorem nextOp_loop_of_some {t : HostTask} {w : Op} (hw : h.nextOp t = some w) (a : LoopAction S) :
    (h.next blake3 (.loop a)).nextOp t = some w := by
  rcases starts_loop blake3 (h := h) a with ⟨s, hs, heq⟩ | ⟨s, hs, t', th, hth, heq⟩
  · rw [heq]
    exact hw
  · rw [heq]
    exact Pool.nextOp_start_of_some (p := { h with shared := s }) hw

/-- The last update of a completion starts to register the peer. -/
theorem nextOp_register {a : NodeAction S} {who : Option ℕ} {c : Completion S} (hbusy : ¬ h.Busy (.task a))
    (ha : a.task = some who) (hc : h.node.completion who = some c) (hstage : c.stage = .register) :
    (h.next blake3 (.loop (.task a))).nextOp (.worker who) =
      some (.call (.discover c.peerId c.underlay.socketAddr) c.peerId registration) := by
  have hidle : HostTask.worker who ∉ h.tasks := fun hmem => hbusy ⟨.worker who, by cases a <;> cases ha <;> rfl, hmem⟩
  have hstart : (h.advance blake3 who a).nextOp (.worker who) =
      some (.call (.discover c.peerId c.underlay.socketAddr) c.peerId registration) := by
    rw [advance, hc]
    dsimp only
    rw [if_pos hstage, Pool.nextOp, Pool.lookup_start, if_pos ⟨rfl, hidle⟩]
    rfl
  rw [next, if_neg hbusy]
  cases a with
  | inbound | attempt =>
      cases ha
      exact hstart
  | receive | start | timeout | discover | discovery | removed | removal | broadcast => cases ha

/-- All operations that the tasks begin are those of the handlers. -/
theorem begins_next (hb : h.Each HostTask.Begins) (a : HostAction S) : (h.next blake3 a).Each HostTask.Begins := by
  cases a with
  | run t => exact hb.run t
  | loop a =>
      rcases starts_loop blake3 (h := h) a with ⟨s, hs, heq⟩ | ⟨s, hs, t, th, hth, heq⟩
      · rw [heq]
        exact hb
      · rw [heq]
        exact Pool.Each.start (p := { h with shared := s }) hb hth

theorem Initial.begins (hinit : h.Initial) : h.Each HostTask.Begins := by
  intro t th hl
  rw [hinit.tasks] at hl
  cases hl

end Host

/-! ### Runs of examples -/

namespace Transparent

/-- Node `k` with its handlers interleaved. -/
def host (k : UInt8) : Host transparent where
  shared := { node := roomyNode k, agree := rfl }

theorem host_initial (k : UInt8) : (host k).Initial := ⟨⟨rfl, rfl, rfl, rfl, rfl, rfl, rfl⟩, rfl, rfl⟩

/-- Steps of the loops without interruption: the inbound loop comes to the end of its thread after each. -/
def atOnce (as : List (NodeAction transparent)) : List (HostAction transparent) :=
  as.flatMap fun a => .loop (.task a) :: List.replicate 20 (.run (.worker none))

/-- A packet from node 1 to node `k`. -/
def packetToPeer (k : UInt8) : Bytes :=
  [69, 0, 0, 20] ++ List.replicate 8 0 ++ [10, 88, 1, 1] ++ (deriveOverlayAddr blake3 (.replicate k)).ip.octets

/-- The outbound loop reads it and comes to the end of its thread. -/
def outboundTo (k : UInt8) : List (HostAction transparent) :=
  .loop (.tunPacket none (packetToPeer k)) :: List.replicate 10 (.run .outbound)

/-- Peer 7 completes a handshake, tells of 9 and says that it relays to 9; then 9 completes a handshake itself. -/
def upgrade : List (NodeAction transparent) :=
  handshakeFrom 7 (addr 2) 3 4 ++
    [messageFrom (addr 2) 3 4 0 (.peerDirectory [(.replicate 9, addr 9, 1)]),
      messageFrom (addr 2) 3 4 1 (.relayReady (.replicate 7) (.replicate 9) 1)] ++
    handshakeFrom 9 (addr 9) 5 6

end Transparent

end SeedNet
