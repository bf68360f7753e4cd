import SeedNet.TransparentNode
import SeedNet.Run

/-! # Hole-punch exchanges

A node answers every hole-punch probe by an ack and by a probe of its own, whoever sent it.  Two
nodes and the hole-punch datagrams between them form a `PunchNet`; `Answers` is the delivery of a
datagram that is answered, `Quiet` everything else that can happen to the network without a new
probe: the loss of a datagram, the delivery of one that is not answered, and any other work of the
nodes, which the branch for hole punches does not look at.

`hole_punch_ends_iff`: the exchange that a single probe starts ends if and only if the probe's
source is neither node's address. -/

namespace SeedNet

open Relation (ReflTransGen)

variable {S : Snow}

/-! ### Receiving a hole-punch datagram -/

/-- A probe as it stands on the wire. -/
def probeBytes (token : UInt64) : Bytes := holePunchProbePrefix ++ serializeMessage (.holePunchProbe token)

namespace Node

variable (blake3 : Blake3) (n : Node S) {a : Arrival S}

theorem receive_probe {token : UInt64} (h : a.data = probeBytes token) :
    n.receive blake3 a =
      { node := n.retainResponders a.now
        out := [punch a.fromAddr (.holePunchAck token), punch a.fromAddr (.holePunchProbe token)] } := by
  have hread : deserializeMessage (a.data.drop holePunchProbePrefix.length) = .ok (.holePunchProbe token) := by
    have hd := deserialize_serialize (.holePunchProbe token) trivial []
    rw [List.append_nil] at hd
    rw [h, probeBytes, List.drop_left, hd]
  have hpre : startsWith a.data holePunchProbePrefix = true := by rw [h, probeBytes, startsWith_append]
  rw [receive_holePunch hpre, onHolePunch, hread]

/-- Answers go to the source of the datagram and are hole-punch datagrams themselves. -/
theorem mem_out_holePunch (h : startsWith a.data holePunchProbePrefix = true) {d : Datagram S}
    (hd : d ∈ (n.receive blake3 a).out) :
    d.dst = a.fromAddr ∧ startsWith d.bytes holePunchProbePrefix = true := by
  rw [receive_holePunch h, onHolePunch] at hd
  split at hd
  · rcases List.mem_cons.mp hd with rfl | hd
    · exact ⟨rfl, startsWith_append _ _⟩
    · rw [List.mem_singleton.mp hd]
      exact ⟨rfl, startsWith_append _ _⟩
  · exact absurd hd List.not_mem_nil

end Node

/-! ### Two nodes -/

/-- A hole-punch datagram in flight. -/
structure Punch where
  src : TransportAddr
  dst : TransportAddr
  bytes : Bytes

/-- A node whose inbound loop waits for the next datagram. -/
abbrev IdleNode (S : Snow) := { n : Node S // n.inbound = .idle }

structure PunchNet (S : Snow) where
  node : Bool → IdleNode S
  inFlight : List Punch

namespace PunchNet

variable (blake3 : Blake3) (addr : Bool → TransportAddr)

/-- A datagram reaches a node, and the node answers it. -/
inductive Answers : PunchNet S → PunchNet S → Prop
  | deliver (s : PunchNet S) (side : Bool) (before after : List Punch) (p : Punch) (a : Arrival S)
      (node : IdleNode S) (hflight : s.inFlight = before ++ p :: after) (hdst : p.dst = addr side)
      (hsrc : a.fromAddr = p.src) (hdata : a.data = p.bytes)
      (hnode : node.1 = ((s.node side).1.receive blake3 a).node)
      (hout : ((s.node side).1.receive blake3 a).out ≠ []) :
      Answers s
        { node := Function.update s.node side node
          inFlight := before ++ after ++ ((s.node side).1.receive blake3 a).out.map fun d =>
            { src := addr side, dst := d.dst, bytes := d.bytes } }

/-- Anything else, short of a new probe. -/
inductive Quiet : PunchNet S → PunchNet S → Prop
  | drop (s : PunchNet S) (before after : List Punch) (p : Punch) (hflight : s.inFlight = before ++ p :: after) :
      Quiet s { s with inFlight := before ++ after }
  | work (s : PunchNet S) (node : Bool → IdleNode S) : Quiet s { s with node := node }

/-- The run up to the next answer. -/
def Round (s s'' : PunchNet S) : Prop := ∃ s', ReflTransGen Quiet s s' ∧ Answers blake3 addr s' s''

/-- One datagram from `src` has been sent to the node `side`. -/
def injected (node : Bool → IdleNode S) (side : Bool) (src : TransportAddr) (token : UInt64) : PunchNet S where
  node := node
  inFlight := [{ src := src, dst := addr side, bytes := probeBytes token }]

/-! A probe from elsewhere is answered once. -/

/-- Every datagram in flight is a hole punch, and one for a node comes from elsewhere. -/
def Foreign (s : PunchNet S) : Prop :=
  ∀ p ∈ s.inFlight, startsWith p.bytes holePunchProbePrefix = true ∧
    ∀ side, p.dst = addr side → ∀ side', p.src ≠ addr side'

/-- The number of datagrams in flight to one of the nodes. -/
def deliverable (s : PunchNet S) : ℕ :=
  s.inFlight.countP fun p => decide (p.dst = addr false ∨ p.dst = addr true)

variable {blake3} {addr} {s s' : PunchNet S}

theorem Foreign.quiet (h : Foreign addr s) (hs : Quiet s s') :
    Foreign addr s' ∧ deliverable addr s' ≤ deliverable addr s := by
  cases hs with
  | work node => exact ⟨h, le_refl _⟩
  | drop before after p hflight =>
      constructor
      · intro q hq
        refine h q ?_
        rw [hflight]
        rcases List.mem_append.mp hq with hq | hq
        · exact List.mem_append_left _ hq
        · exact List.mem_append_right _ (List.mem_cons_of_mem _ hq)
      · simp only [deliverable, hflight, List.countP_append, List.countP_cons]
        omega

theorem Foreign.answers (h : Foreign addr s) (hs : Answers blake3 addr s s') :
    Foreign addr s' ∧ deliverable addr s' < deliverable addr s := by
  obtain ⟨side, before, after, p, a, node, hflight, hdst, hsrc, hdata, hnode, hout⟩ := hs
  have hp : p ∈ s.inFlight := by rw [hflight]; simp
  obtain ⟨hpre, hfar⟩ := h p hp
  have hmem : ∀ d ∈ ((s.node side).1.receive blake3 a).out,
      d.dst = p.src ∧ startsWith d.bytes holePunchProbePrefix = true := fun d hd => by
    rw [← hsrc]
    exact Node.mem_out_holePunch blake3 _ (hdata ▸ hpre) hd
  constructor
  · intro q hq
    rcases List.mem_append.mp hq with hq | hq
    · refine h q ?_
      rw [hflight]
      rcases List.mem_append.mp hq with hq | hq
      · exact List.mem_append_left _ hq
      · exact List.mem_append_right _ (List.mem_cons_of_mem _ hq)
    · obtain ⟨d, hd, rfl⟩ := List.mem_map.mp hq
      obtain ⟨hd1, hd2⟩ := hmem d hd
      exact ⟨hd2, fun side' hs' => absurd (hd1 ▸ hs') (hfar side hdst side')⟩
  · have hzero : (((s.node side).1.receive blake3 a).out.map fun d : Datagram S =>
        ({ src := addr side, dst := d.dst, bytes := d.bytes } : Punch)).countP
          (fun q => decide (q.dst = addr false ∨ q.dst = addr true)) = 0 := by
      rw [List.countP_eq_zero]
      intro q hq
      obtain ⟨d, hd, rfl⟩ := List.mem_map.mp hq
      have hd1 := (hmem d hd).1
      simp only [hd1, decide_eq_true_eq, not_or]
      exact ⟨hfar side hdst false, hfar side hdst true⟩
    have hcount : decide (p.dst = addr false ∨ p.dst = addr true) = true := by
      rw [decide_eq_true_eq, hdst]
      cases side <;> simp
    simp only [deliverable, hflight, List.countP_append, List.countP_cons, hzero, hcount, if_true]
    omega

theorem Foreign.round (h : Foreign addr s) (hs : Round blake3 addr s s') :
    Foreign addr s' ∧ deliverable addr s' < deliverable addr s := by
  obtain ⟨t, hq, ha⟩ := hs
  have ht : Foreign addr t ∧ deliverable addr t ≤ deliverable addr s := by
    clear ha
    induction hq with
    | refl => exact ⟨h, le_refl _⟩
    | tail _ hstep ih =>
        obtain ⟨h1, h2⟩ := ih.1.quiet hstep
        exact ⟨h1, h2.trans ih.2⟩
  obtain ⟨h1, h2⟩ := ht.1.answers ha
  exact ⟨h1, by omega⟩

/-! A probe from one of the nodes is answered for ever. -/

/-- Some probe in flight goes from one of the two addresses to a node. -/
def Volley (addr : Bool → TransportAddr) (s : PunchNet S) : Prop :=
  ∃ p ∈ s.inFlight, ∃ side side' token, p.dst = addr side ∧ p.src = addr side' ∧ p.bytes = probeBytes token

theorem Volley.round (rng : S.Rng) (h : Volley addr s) : ∃ s', Round blake3 addr s s' ∧ Volley addr s' := by
  obtain ⟨p, hp, side, side', token, hdst, hsrc, hbytes⟩ := h
  obtain ⟨before, after, hflight⟩ := List.append_of_mem hp
  let a : Arrival S := { now := 0, nowMs := 0, rng := rng, fromAddr := p.src, data := p.bytes }
  have hrecv := Node.receive_probe blake3 (s.node side).1 (a := a) hbytes
  have hidle : ((s.node side).1.receive blake3 a).node.inbound = .idle := by
    rw [hrecv]
    exact (s.node side).2
  refine ⟨_, ⟨s, .refl, .deliver s side before after p a ⟨_, hidle⟩ hflight hdst rfl rfl rfl ?_⟩, ?_⟩
  · rw [hrecv]
    exact List.cons_ne_nil _ _
  · refine ⟨{ src := addr side, dst := p.src, bytes := probeBytes token }, List.mem_append_right _ ?_,
      side', side, token, hsrc, rfl, rfl⟩
    exact List.mem_map.mpr ⟨Node.punch p.src (.holePunchProbe token), by rw [hrecv]; simp [a], rfl⟩

theorem volley_infinite (rng : S.Rng) (h : Volley addr s) : Run.Infinite (Round blake3 addr) s :=
  Run.infinite_of_progress (Volley addr) (fun _ hs => hs.round rng) h

end PunchNet

/-- The hole-punch exchange that one probe starts sends finitely many datagrams, in every run
without a new probe, if and only if the probe comes from neither of the two nodes' addresses. -/
theorem hole_punch_ends_iff (rng : S.Rng) (blake3 : Blake3) (addr : Bool → TransportAddr)
    (node : Bool → IdleNode S) (side : Bool) (src : TransportAddr) (token : UInt64) :
    ¬ Run.Infinite (PunchNet.Round blake3 addr) (PunchNet.injected addr node side src token) ↔
      ∀ side', src ≠ addr side' := by
  constructor
  · intro h side' hsrc
    exact h (PunchNet.volley_infinite rng ⟨_, List.mem_singleton_self _, side, side', token, rfl, hsrc, rfl⟩)
  · intro h
    refine Run.not_infinite_of_measure (PunchNet.deliverable addr) (PunchNet.Foreign addr)
      (fun s s' hs hr => hs.round hr) fun p hp => ?_
    rw [List.mem_singleton.mp hp]
    exact ⟨startsWith_append _ _, fun _ _ => h⟩

open Transparent in
/-- A probe to node 1 that names the address of node 2 as its source is answered for ever. -/
theorem hole_punch_for_ever :
    ¬ ∀ (src : TransportAddr) (token : UInt64),
      ¬ Run.Infinite (PunchNet.Round blake3 fun side => .udp (addr (if side then 2 else 1)))
        (PunchNet.injected (fun side => .udp (addr (if side then 2 else 1)))
          (fun side => ⟨node (if side then 2 else 1), rfl⟩) false src token) := by
  intro h
  refine h (.udp (addr 2)) 0 (PunchNet.volley_infinite (0 : UInt8) ?_)
  exact ⟨_, List.mem_singleton_self _, false, true, 0, rfl, rfl, rfl⟩

end SeedNet
