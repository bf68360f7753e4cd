import SeedNet.Common
import SeedNet.Run

/-! # STUN queries on the data socket

Datagrams reach the inbound loop through the UDP receiver task of `MultiTransport`
(`crates/transport/src/multi.rs`): it takes them from the socket and sends them into the channel that the
inbound loop reads.  The initial and the periodic STUN query (`crates/nat/src/stun.rs`, started in
`crates/core/src/lib.rs`) take datagrams from the same socket, and whatever does not look like STUN they
ignore: it is gone.

A run of a `SharedSocket` is any interleaving of arrivals with the steps of the receiver, the inbound loop and
the two query tasks.  `losesNothing_iff`: every datagram that is not a STUN message is handed to the inbound
loop once and in order exactly if the queries never take one. -/

namespace SeedNet

open Run (exec Along)

/-! ### STUN messages -/

/-- `STUN_MAGIC`, in network byte order. -/
def stunMagic : Bytes := [0x21, 0x12, 0xA4, 0x42]

/-- At least 20 bytes with the magic cookie. -/
def isStun (data : Bytes) : Bool := decide (20 ≤ data.length ∧ (data.drop 4).take 4 = stunMagic)

def attrXorMappedAddress : ℕ := 0x0020

def attrMappedAddress : ℕ := 0x0001

/-- `u16::from_be_bytes`. -/
def be16 (a b : UInt8) : ℕ := a.toNat * 256 + b.toNat

/-- The first address among the attributes: type, length, value padded to 4 bytes. -/
def stunAddress : Bytes → Option SocketAddr
  | t₀ :: t₁ :: l₀ :: l₁ :: rest =>
    let attrType := be16 t₀ t₁
    let attrLen := be16 l₀ l₁
    if rest.length < attrLen then none
    else
      let value i := rest.getD i 0
      let isIpv4 := 8 ≤ attrLen ∧ value 1 = 1
      let port := (be16 (value 2) (value 3)).toUInt16
      if attrType = attrXorMappedAddress ∧ isIpv4 then
        some (.v4 ⟨value 4 ^^^ 0x21, value 5 ^^^ 0x12, value 6 ^^^ 0xA4, value 7 ^^^ 0x42⟩ (port ^^^ 0x2112))
      else if attrType = attrMappedAddress ∧ isIpv4 then
        some (.v4 ⟨value 4, value 5, value 6, value 7⟩ port)
      else stunAddress (rest.drop ((attrLen + 3) / 4 * 4))
  | _ => none
termination_by buf => buf.length
decreasing_by
  rw [List.length_drop]
  simp only [List.length_cons]
  omega

/-- The public address in a response, or the text of `StunError::BadResponse`. -/
def parseStunResponse (buf : Bytes) : Except String SocketAddr :=
  if buf.length < 20 then .error "response too short"
  else
    match stunAddress (buf.drop 20) with
    | some addr => .ok addr
    | none => .error "no MAPPED-ADDRESS attribute found"

/-! ### The tasks -/

/-- A UDP datagram; its length field has 16 bits. -/
structure UdpDatagram where
  src : SocketAddr
  data : Bytes
  length_lt : data.length < 2 ^ 16
deriving DecidableEq

/-- The datagram as the receiver reads it into its buffer. -/
def UdpDatagram.received (d : UdpDatagram) : UdpDatagram where
  src := d.src
  data := d.data.take maxUdp
  length_lt := lt_of_le_of_lt (List.length_take_le' maxUdp d.data) d.length_lt

@[simp] theorem UdpDatagram.received_eq (d : UdpDatagram) : d.received = d := by
  obtain ⟨src, data, hlt⟩ := d
  have htake : data.take maxUdp = data := List.take_of_length_le (le_of_lt hlt)
  simp only [received, htake]

/-- `STUN_SERVERS`. -/
def stunServers : List String := ["stun.l.google.com:19302", "stun.cloudflare.com:3478", "stun1.l.google.com:19302"]

/-- The size of the buffer of a query. -/
def stunBufLen : ℕ := 512

/-- The capacity of the channel to the inbound loop. -/
def channelCapacity : ℕ := 4096

/-- How far a task is with `query_public_addr_with_fallback`. -/
inductive StunQuery where
  | idle
  /-- the first of these servers is resolved and sent a request next -/
  | request (servers : List String)
  /-- a response is awaited; these servers are still left -/
  | wait (servers : List String)
deriving DecidableEq

namespace StunQuery

/-- A server has failed: the next one, if any. -/
def fallback : List String → StunQuery
  | [] => .idle
  | servers => .request servers

def waits : StunQuery → Bool
  | .wait _ => true
  | _ => false

/-- The query after it has received `data`: what does not look like STUN is ignored. -/
def receive (data : Bytes) : StunQuery → StunQuery
  | .wait servers =>
    let buf := data.take stunBufLen
    if isStun buf then
      match parseStunResponse buf with
      | .ok _ => .idle
      | .error _ => fallback servers
    else .wait servers
  | q => q

end StunQuery

/-- The two tasks that query. -/
inductive StunTask where
  | initial
  | refresh
deriving DecidableEq

/-- The socket, the tasks that receive from it, and what has arrived and been handed over so far. -/
structure SharedSocket where
  socket : List UdpDatagram := []
  /-- what the receiver has read and not yet sent into the channel -/
  receiver : Option UdpDatagram := none
  channel : List UdpDatagram := []
  handed : List UdpDatagram := []
  arrived : List UdpDatagram := []
  initial : StunQuery := .request stunServers
  refresh : StunQuery := .idle

inductive SocketAction where
  | arrive (d : UdpDatagram)
  /-- the receiver reads a datagram -/
  | recvFrom
  /-- the receiver sends into the channel -/
  | forward
  /-- the inbound loop reads from the channel -/
  | inbound
  /-- the interval of the refresh task -/
  | tick
  | request (task : StunTask) (ok : Bool)
  /-- a query reads a datagram -/
  | response (task : StunTask)
  /-- a query has waited too long, or its read has failed -/
  | giveUp (task : StunTask)

namespace SharedSocket

def query (s : SharedSocket) : StunTask → StunQuery
  | .initial => s.initial
  | .refresh => s.refresh

def setQuery (s : SharedSocket) (q : StunQuery) : StunTask → SharedSocket
  | .initial => { s with initial := q }
  | .refresh => { s with refresh := q }

def recvFrom (s : SharedSocket) : SharedSocket :=
  match s.receiver, s.socket with
  | none, d :: rest => { s with receiver := some d.received, socket := rest }
  | _, _ => s

/-- Waits while the channel is full. -/
def forward (s : SharedSocket) : SharedSocket :=
  match s.receiver with
  | some d =>
    if s.channel.length < channelCapacity then { s with receiver := none, channel := s.channel ++ [d] } else s
  | none => s

def inbound (s : SharedSocket) : SharedSocket :=
  match s.channel with
  | d :: rest => { s with channel := rest, handed := s.handed ++ [d] }
  | [] => s

def tick (s : SharedSocket) : SharedSocket :=
  match s.refresh with
  | .idle => { s with refresh := .request stunServers }
  | _ => s

def request (s : SharedSocket) (task : StunTask) (ok : Bool) : SharedSocket :=
  match s.query task with
  | .request (_ :: servers) => s.setQuery (if ok then .wait servers else .fallback servers) task
  | _ => s

def response (s : SharedSocket) (task : StunTask) : SharedSocket :=
  match s.query task, s.socket with
  | .wait servers, d :: rest =>
    { s with socket := rest }.setQuery ((StunQuery.wait servers).receive d.data) task
  | _, _ => s

def giveUp (s : SharedSocket) (task : StunTask) : SharedSocket :=
  match s.query task with
  | .wait servers => s.setQuery (.fallback servers) task
  | _ => s

def next (s : SharedSocket) : SocketAction → SharedSocket
  | .arrive d => { s with socket := s.socket ++ [d], arrived := s.arrived ++ [d] }
  | .recvFrom => s.recvFrom
  | .forward => s.forward
  | .inbound => s.inbound
  | .tick => s.tick
  | .request task ok => s.request task ok
  | .response task => s.response task
  | .giveUp task => s.giveUp task

/-! ### The condition -/

/-- What the inbound loop has not been handed yet, in the order in which it will be. -/
def onTheWay (s : SharedSocket) : List UdpDatagram := s.channel ++ s.receiver.toList ++ s.socket

/-- The datagrams that are not STUN messages. -/
def traffic (ds : List UdpDatagram) : List UdpDatagram := ds.filter fun d => !isStun d.data

/-- What has been handed over and what still will be is what has arrived, each once and in this order. -/
def LosesNothing (s : SharedSocket) : Prop := traffic (s.handed ++ s.onTheWay) = traffic s.arrived

/-- A query that reads a datagram reads a STUN message. -/
def TakesStun (s : SharedSocket) : SocketAction → Prop
  | .response task => (s.query task).waits = true → s.socket.head?.all (fun d => isStun d.data) = true
  | _ => True

instance (s : SharedSocket) : Decidable s.LosesNothing :=
  inferInstanceAs (Decidable (traffic (s.handed ++ s.onTheWay) = traffic s.arrived))

/-! ### Steps that lose nothing -/

/-- `s'` differs from `s` at most in how far its datagrams are. -/
structure SameDatagrams (s s' : SharedSocket) : Prop where
  datagrams : s'.handed ++ s'.onTheWay = s.handed ++ s.onTheWay
  arrived : s'.arrived = s.arrived

variable {s s' s'' : SharedSocket}

theorem SameDatagrams.refl (s : SharedSocket) : s.SameDatagrams s := ⟨rfl, rfl⟩

theorem SameDatagrams.trans (h : s.SameDatagrams s') (h' : s'.SameDatagrams s'') : s.SameDatagrams s'' :=
  ⟨h'.datagrams.trans h.datagrams, h'.arrived.trans h.arrived⟩

theorem SameDatagrams.kept_iff (h : s.SameDatagrams s') : s'.LosesNothing ↔ s.LosesNothing := by
  rw [LosesNothing, LosesNothing, h.datagrams, h.arrived]

theorem setQuery_same (q : StunQuery) (task : StunTask) : s.SameDatagrams (s.setQuery q task) := by
  cases task <;> exact ⟨rfl, rfl⟩

theorem recvFrom_same : s.SameDatagrams s.recvFrom := by
  unfold recvFrom
  split
  · next d rest hreceiver hsocket =>
      refine ⟨?_, rfl⟩
      simp only [onTheWay, hreceiver, hsocket, UdpDatagram.received_eq, Option.toList_some, Option.toList_none,
        List.append_nil, List.append_assoc, List.singleton_append]
  · exact .refl s

theorem forward_same : s.SameDatagrams s.forward := by
  unfold forward
  split
  · next d hreceiver =>
      split
      · refine ⟨?_, rfl⟩
        simp only [onTheWay, hreceiver, Option.toList_some, Option.toList_none, List.append_nil]
      · exact .refl s
  · exact .refl s

theorem inbound_same : s.SameDatagrams s.inbound := by
  unfold inbound
  split
  · next d rest hchannel =>
      refine ⟨?_, rfl⟩
      simp only [onTheWay, hchannel, List.append_assoc, List.cons_append, List.nil_append]
  · exact .refl s

theorem tick_same : s.SameDatagrams s.tick := by
  unfold tick
  split <;> exact ⟨rfl, rfl⟩

theorem request_same (task : StunTask) (ok : Bool) : s.SameDatagrams (s.request task ok) := by
  unfold request
  split
  · exact setQuery_same _ task
  · exact .refl s

theorem giveUp_same (task : StunTask) : s.SameDatagrams (s.giveUp task) := by
  unfold giveUp
  split
  · exact setQuery_same _ task
  · exact .refl s

/-! ### Steps that can lose something -/

@[simp] theorem traffic_append (ds ds' : List UdpDatagram) : traffic (ds ++ ds') = traffic ds ++ traffic ds' :=
  List.filter_append ..

theorem arrive_losesNothing (h : s.LosesNothing) (d : UdpDatagram) : (s.next (.arrive d)).LosesNothing := by
  have hway : (s.next (.arrive d)).onTheWay = s.onTheWay ++ [d] := (List.append_assoc ..).symm
  have hhanded : (s.next (.arrive d)).handed = s.handed := rfl
  rw [LosesNothing, hway, hhanded, ← List.append_assoc, traffic_append, h]
  exact (traffic_append s.arrived [d]).symm

/-- A datagram that a query reads is lost unless it is a STUN message. -/
theorem response_losesNothing (h : s.LosesNothing) (task : StunTask) :
    s.TakesStun (.response task) ↔ (s.response task).LosesNothing := by
  rw [TakesStun, response]
  cases hquery : s.query task with
  | idle | request => exact iff_of_true (fun hwaits => by cases hwaits) h
  | wait servers =>
      cases hsocket : s.socket with
      | nil => exact iff_of_true (fun _ => rfl) h
      | cons d rest =>
          have hbefore : traffic (s.handed ++ (s.channel ++ s.receiver.toList) ++ d :: rest) = traffic s.arrived := by
            rw [← h, onTheWay, hsocket, List.append_assoc]
          have hafter : { s with socket := rest }.LosesNothing ↔
              traffic (s.handed ++ (s.channel ++ s.receiver.toList)) ++ traffic rest =
                traffic (s.handed ++ (s.channel ++ s.receiver.toList)) ++ traffic (d :: rest) := by
            rw [← traffic_append, ← traffic_append, hbefore, List.append_assoc]
            exact Iff.rfl
          dsimp only
          rw [(setQuery_same _ task).kept_iff, hafter, List.append_cancel_left_eq]
          cases hd : isStun d.data with
          | true => exact iff_of_true (fun _ => hd) (by simp [traffic, hd])
          | false => simp [StunQuery.waits, traffic, hd]

/-- A step keeps the traffic exactly if it meets the condition. -/
theorem takesStun_iff (h : s.LosesNothing) (a : SocketAction) : s.TakesStun a ↔ (s.next a).LosesNothing := by
  cases a with
  | arrive d => exact iff_of_true trivial (arrive_losesNothing h d)
  | recvFrom => exact iff_of_true trivial (recvFrom_same.kept_iff.mpr h)
  | forward => exact iff_of_true trivial (forward_same.kept_iff.mpr h)
  | inbound => exact iff_of_true trivial (inbound_same.kept_iff.mpr h)
  | tick => exact iff_of_true trivial (tick_same.kept_iff.mpr h)
  | request task ok => exact iff_of_true trivial ((request_same task ok).kept_iff.mpr h)
  | response task => exact response_losesNothing h task
  | giveUp task => exact iff_of_true trivial ((giveUp_same task).kept_iff.mpr h)

/-! ### What is handed over in the end -/

/-- A step of the receiver or of the inbound loop. -/
def Delivers : SocketAction → Prop
  | .recvFrom | .forward | .inbound => True
  | _ => False

theorem exec_same {as : List SocketAction} (has : ∀ a ∈ as, Delivers a) (s : SharedSocket) :
    s.SameDatagrams (exec next s as) := by
  induction as generalizing s with
  | nil => exact .refl s
  | cons a as ih =>
      have hstep : s.SameDatagrams (s.next a) := by
        cases a with
        | recvFrom => exact recvFrom_same
        | forward => exact forward_same
        | inbound => exact inbound_same
        | arrive | tick | request | response | giveUp => exact absurd (has _ List.mem_cons_self) id
      exact hstep.trans (ih (fun b hb => has b (List.mem_cons_of_mem a hb)) _)

/-- The next datagram on the way can be handed over. -/
theorem exists_handed {d : UdpDatagram} {rest : List UdpDatagram} (h : s.onTheWay = d :: rest) :
    ∃ as, (∀ a ∈ as, Delivers a) ∧ (exec next s as).onTheWay = rest := by
  obtain ⟨socket, receiver, channel, handed, arrived, initial, refresh⟩ := s
  cases channel with
  | cons c channel =>
      cases h
      exact ⟨[.inbound], by simp [Delivers], rfl⟩
  | nil =>
      cases receiver with
      | some r =>
          cases h
          exact ⟨[.forward, .inbound], by simp [Delivers], rfl⟩
      | none =>
          obtain rfl : socket = d :: rest := h
          exact ⟨[.recvFrom, .forward, .inbound], by simp [Delivers], rfl⟩

theorem exists_allHanded (s : SharedSocket) : ∃ as, (∀ a ∈ as, Delivers a) ∧ (exec next s as).onTheWay = [] := by
  induction hway : s.onTheWay generalizing s with
  | nil => exact ⟨[], by simp, hway⟩
  | cons d rest ih =>
      obtain ⟨as, has, hrest⟩ := exists_handed hway
      obtain ⟨bs, hbs, hnone⟩ := ih _ hrest
      refine ⟨as ++ bs, fun a ha => (List.mem_append.mp ha).elim (has a) (hbs a), ?_⟩
      rw [Run.exec_append]
      exact hnone

/-- Nothing is lost exactly if the receiver and the inbound loop can go on until the inbound loop has been
handed all the traffic. -/
theorem losesNothing_iff_exists : s.LosesNothing ↔ ∃ as, (∀ a ∈ as, Delivers a) ∧
    (exec next s as).onTheWay = [] ∧ traffic (exec next s as).handed = traffic s.arrived := by
  have hall {as : List SocketAction} (has : ∀ a ∈ as, Delivers a) (hnone : (exec next s as).onTheWay = []) :
      traffic (exec next s as).handed = traffic s.arrived ↔ s.LosesNothing := by
    rw [LosesNothing, ← (exec_same has s).datagrams, hnone, List.append_nil]
  constructor
  · intro h
    obtain ⟨as, has, hnone⟩ := s.exists_allHanded
    exact ⟨as, has, hnone, (hall has hnone).mpr h⟩
  · rintro ⟨as, has, hnone, hhanded⟩
    exact (hall has hnone).mp hhanded

end SharedSocket

/-- **STUN queries and traffic.**  The runs in which nothing but STUN messages is ever lost are those in which
the queries read nothing else. -/
theorem losesNothing_iff (as : List SocketAction) :
    Along SharedSocket.next SharedSocket.TakesStun {} as ↔
      ∀ bs, bs <+: as → (exec SharedSocket.next {} bs).LosesNothing := by
  have hstart : SharedSocket.LosesNothing {} := rfl
  exact Run.along_iff_invariant (I := SharedSocket.LosesNothing) (fun _ a h => SharedSocket.takesStun_iff h a) hstart as

/-- The first datagram of a handshake arrives while the initial query waits for its response. -/
theorem stun_takes_traffic : ¬ ∀ as : List SocketAction, (exec SharedSocket.next {} as).LosesNothing := by
  intro h
  let d : UdpDatagram := ⟨.v4 ⟨192, 0, 2, 7⟩ 51820, noiseHandshakeInitiatorPrefix, by decide⟩
  exact absurd (h [.request .initial true, .arrive d, .response .initial]) (by decide)

end SeedNet
