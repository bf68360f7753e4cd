import SeedNet.Handlers
import SeedNet.Run
import Mathlib.Logic.Function.Basic

/-! # A network of engines, at the level of messages

Engines exchange messages over their sessions; encryption is left out and every message sent to a
peer with a session is in flight until it is delivered, in any order, or lost.  Packets and nodes
are named by peer identities, `addr` gives the address of each.

* `receive` is the inbound loop on a message that has been decrypted: the sender must be indexed
  and have a session, then `handleMessage` runs.
* `Network.deliver` delivers one packet in flight.
* `Topology` says that sessions form a symmetric graph and that every node indexes the addresses
  of its neighbours; delivering keeps it, since no message touches sessions (`Topology.deliver`). -/

namespace SeedNet

/-- A message on its way; `forwards` counts how often a `RelayData` has been passed on. -/
structure Packet where
  src : PeerId
  dst : PeerId
  msg : Message
  forwards : ℕ := 0
deriving DecidableEq

structure Network (τ : Type) where
  nodes : PeerId → Engine τ
  inFlight : List Packet := []

variable {τ : Type} (blake3 : Blake3) (addr : PeerId → TransportAddr)

/-- A decrypted message at the engine `e`. -/
def Engine.receive (e : Engine τ) (nowMs : UInt64) (p : Packet) : Reaction τ :=
  match e.addrIndex.lookup (addr p.src) with
  | some pid =>
    if pid ∈ e.sessions then e.handleMessage blake3 nowMs (addr p.src) p.msg else { engine := e }
  | none => { engine := e }

/-- The packets that leave `v`: nothing is sent to a peer without a session. -/
def packetsOf (v : PeerId) (e : Engine τ) (forwards : ℕ) (sends : List Send) : List Packet :=
  (sends.filter fun s => s.peer ∈ e.sessions).map fun s =>
    { src := v, dst := s.peer, msg := s.msg, forwards := forwards }

/-- The counter of the packets sent while `p` is handled. -/
def Packet.passOn (p : Packet) : ℕ :=
  match p.msg with
  | .relayData .. => p.forwards + 1
  | _ => 0

namespace Network

/-- The packet `p`, taken out of `rest`, arrives. -/
def arrive (net : Network τ) (nowMs : UInt64) (p : Packet) (rest : List Packet) : Network τ :=
  let r := (net.nodes p.dst).receive blake3 addr nowMs p
  { nodes := Function.update net.nodes p.dst r.engine
    inFlight := rest ++ packetsOf p.dst r.engine p.passOn r.sends }

/-- Delivers the packet at position `i`. -/
def deliver (net : Network τ) (nowMs : UInt64) (i : ℕ) : Network τ :=
  match net.inFlight[i]? with
  | none => net
  | some p => net.arrive blake3 addr nowMs p (net.inFlight.eraseIdx i)

/-- Some packet in flight is delivered. -/
def Delivers (net net' : Network τ) : Prop :=
  ∃ (nowMs : UInt64) (i : ℕ), i < net.inFlight.length ∧ net' = net.deliver blake3 addr nowMs i

theorem delivers_iff {net net' : Network τ} : net.Delivers blake3 addr net' ↔
    ∃ nowMs pre p post, net.inFlight = pre ++ p :: post ∧
      net' = net.arrive blake3 addr nowMs p (pre ++ post) := by
  constructor
  · rintro ⟨nowMs, i, hi, rfl⟩
    refine ⟨nowMs, net.inFlight.take i, net.inFlight[i], net.inFlight.drop (i + 1), ?_, ?_⟩
    · rw [← List.drop_eq_getElem_cons hi, List.take_append_drop]
    · simp only [deliver, List.getElem?_eq_getElem hi, List.eraseIdx_eq_take_drop_succ]
  · rintro ⟨nowMs, pre, p, post, h, rfl⟩
    refine ⟨nowMs, pre.length, by rw [h]; simp, ?_⟩
    have hget : net.inFlight[pre.length]? = some p := by rw [h]; simp
    have herase : net.inFlight.eraseIdx pre.length = pre ++ post := by
      rw [h, List.eraseIdx_append_of_length_le (le_refl _)]; simp
    simp only [deliver, hget, herase]

end Network

/-- Sessions form a symmetric graph and every node finds its neighbours by their addresses. -/
structure Topology (nodes : PeerId → Engine τ) : Prop where
  ourPeerId : ∀ v, (nodes v).ourPeerId = v
  index : ∀ v, ∀ w ∈ (nodes v).sessions.keys, (nodes v).addrIndex.lookup (addr w) = some w
  symm : ∀ v, ∀ w ∈ (nodes v).sessions.keys, v ∈ (nodes w).sessions
  irrefl : ∀ v, v ∉ (nodes v).sessions

variable {blake3 addr} {nodes nodes' : PeerId → Engine τ} {net : Network τ}

/-- Only members have sessions. -/
theorem Topology.of_members {members : List PeerId} (hid : ∀ v ∈ members, (nodes v).ourPeerId = v)
    (hindex : ∀ v ∈ members, ∀ w ∈ (nodes v).sessions.keys, (nodes v).addrIndex.lookup (addr w) = some w)
    (hsymm : ∀ v ∈ members, ∀ w ∈ (nodes v).sessions.keys, v ∈ (nodes w).sessions)
    (hirrefl : ∀ v ∈ members, v ∉ (nodes v).sessions)
    (hout : ∀ v, v ∉ members → (nodes v).sessions = ∅ ∧ (nodes v).ourPeerId = v) : Topology addr nodes := by
  have hnone : ∀ v, v ∉ members → ∀ w, w ∉ (nodes v).sessions.keys := by
    intro v hv w hw
    rw [(hout v hv).1] at hw
    cases hw
  refine ⟨fun v => ?_, fun v => ?_, fun v => ?_, fun v => ?_⟩ <;> by_cases hv : v ∈ members
  · exact hid v hv
  · exact (hout v hv).2
  · exact hindex v hv
  · exact fun w hw => absurd hw (hnone v hv w)
  · exact hsymm v hv
  · exact fun w hw => absurd hw (hnone v hv w)
  · exact hirrefl v hv
  · exact fun hw => hnone v hv v (AList.mem_keys.mpr hw)

/-- What delivering leaves alone, at every node. -/
def SameFrame (nodes nodes' : PeerId → Engine τ) : Prop := ∀ v, (nodes v).Frame (nodes' v)

theorem SameFrame.refl (nodes : PeerId → Engine τ) : SameFrame nodes nodes := fun v => .refl (nodes v)

theorem SameFrame.sessions (h : SameFrame nodes nodes') (v : PeerId) :
    (nodes' v).sessions = (nodes v).sessions := (h v).sessions

theorem Topology.frame (ht : Topology addr nodes) (h : SameFrame nodes nodes') : Topology addr nodes' where
  ourPeerId v := (h v).ourPeerId.trans (ht.ourPeerId v)
  index v := by rw [(h v).sessions, (h v).addrIndex]; exact ht.index v
  symm v := by rw [(h v).sessions]; intro w hw; rw [(h w).sessions]; exact ht.symm v w hw
  irrefl v := by rw [(h v).sessions]; exact ht.irrefl v

theorem receive_frame (e : Engine τ) (nowMs : UInt64) (p : Packet) :
    e.Frame (e.receive blake3 addr nowMs p).engine := by
  unfold Engine.receive
  split
  · split
    · exact Engine.handleMessage_frame ..
    · exact .refl e
  · exact .refl e

/-- A packet from a neighbour is handled. -/
theorem Topology.receive_eq (ht : Topology addr nodes) {p : Packet} (hp : p.src ∈ (nodes p.dst).sessions)
    (nowMs : UInt64) : (nodes p.dst).receive blake3 addr nowMs p =
      (nodes p.dst).handleMessage blake3 nowMs (addr p.src) p.msg := by
  rw [Engine.receive, ht.index p.dst p.src hp]
  exact if_pos hp

theorem arrive_frame (nowMs : UInt64) (p : Packet) (rest : List Packet) :
    SameFrame net.nodes (net.arrive blake3 addr nowMs p rest).nodes := by
  intro v
  by_cases hv : v = p.dst
  · subst hv
    simp only [Network.arrive, Function.update_self]
    exact receive_frame _ nowMs p
  · simp only [Network.arrive, Function.update_of_ne hv]
    exact .refl _

theorem mem_packetsOf {v : PeerId} {e : Engine τ} {forwards : ℕ} {sends : List Send} {p : Packet} :
    p ∈ packetsOf v e forwards sends ↔
      ∃ s ∈ sends, s.peer ∈ e.sessions ∧ p = { src := v, dst := s.peer, msg := s.msg, forwards := forwards } := by
  simp only [packetsOf, List.mem_map, List.mem_filter, decide_eq_true_eq, and_assoc, @eq_comm _ p]

end SeedNet
