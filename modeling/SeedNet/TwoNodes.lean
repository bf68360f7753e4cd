import SeedNet.Provenance

/-! # Two nodes and the network between them

A `Net` is two nodes, named by `Bool`, and the datagrams in flight.  Its actions are the steps of the
nodes' tasks, the arrival of any datagram in flight at the node that has the address, with or without
leaving a copy in flight, and the loss of any datagram.  So datagrams are delivered in any order, more
than once or never, and the tasks of both nodes interleave freely; nothing is forged.

A node that is busy with a datagram takes no other one: the datagram stays in flight.

`Net.Moves` says what an action does to the nodes and which datagrams it leaves, and `Net.Honest` is
the invariant that nodes and datagrams are what they claim to be. -/

namespace SeedNet

open Function (update)

structure Net (S : Snow) where
  node : Bool → Node S
  /-- the datagrams in flight, with their senders -/
  inFlight : List (Bool × Datagram S) := []
  /-- the messages that the inbound loops have handled, latest first -/
  handled : List (Bool × Message) := []

inductive Net.Action (S : Snow) where
  /-- a step of a task of the node `x`; receives are actions of the network -/
  | node (x : Bool) (a : NodeAction S)
  /-- the datagram at position `k` arrives -/
  | deliver (k : ℕ) (now : ℕ) (nowMs : UInt64) (rng : S.Rng) (copy : Bool)
  | lose (k : ℕ)

namespace Net

variable {S : Snow} (blake3 : Blake3) (addr : Bool → SocketAddr) (s : Net S)

/-- The node with this address. -/
def receiver (dst : TransportAddr) : Option Bool :=
  if dst = .udp (addr false) then some false else if dst = .udp (addr true) then some true else none

/-- The node `x` has made a step. -/
def after (x : Bool) (o : Outcome S) : Net S where
  node := update s.node x o.node
  inFlight := s.inFlight ++ o.out.map fun d => (x, d)
  handled := (o.handled.toList.map fun msg => (x, msg)) ++ s.handled

/-- A datagram of the node `x` as it arrives. -/
def arrival (now : ℕ) (nowMs : UInt64) (rng : S.Rng) (x : Bool) (d : Datagram S) : Arrival S :=
  { now := now, nowMs := nowMs, rng := rng, fromAddr := .udp (addr x), data := d.bytes }

def lose (k : ℕ) : Net S := { s with inFlight := s.inFlight.eraseIdx k }

def deliver (k now : ℕ) (nowMs : UInt64) (rng : S.Rng) (copy : Bool) : Net S :=
  match s.inFlight[k]? with
  | none => s
  | some (x, d) =>
    match receiver addr d.dst with
    | none => s
    | some y =>
      match (s.node y).inbound with
      | .idle => (if copy then s else s.lose k).after y ((s.node y).receive blake3 (arrival addr now nowMs rng x d))
      | _ => s

def next : Net.Action S → Net S
  | .node _ (.receive _) => s
  | .node x a => s.after x ((s.node x).step blake3 a)
  | .deliver k now nowMs rng copy => s.deliver blake3 addr k now nowMs rng copy
  | .lose k => s.lose k

/-! ### What an action does -/

/-- The action `a` leaves the nodes alone, or one of them makes the step `b`: a step of its own, or the
receive of a datagram in flight. -/
inductive Moves (s : Net S) (a : Net.Action S) (s' : Net S) : Prop
  | still (hnode : s'.node = s.node) (hflight : ∀ p ∈ s'.inFlight, p ∈ s.inFlight)
  | own (x : Bool) (b : NodeAction S) (ha : a = .node x b) (hb : ∀ arr, b ≠ .receive arr)
      (hnode : s'.node = update s.node x ((s.node x).next blake3 b))
      (hflight : ∀ p ∈ s'.inFlight, p ∈ s.inFlight ∨ p.1 = x ∧ p.2 ∈ ((s.node x).step blake3 b).out)
  | receives (y : Bool) (x : Bool) (d : Datagram S) (arr : Arrival S) (hin : (x, d) ∈ s.inFlight)
      (hdata : arr.data = d.bytes)
      (hnode : s'.node = update s.node y ((s.node y).next blake3 (.receive arr)))
      (hflight : ∀ p ∈ s'.inFlight,
        p ∈ s.inFlight ∨ p.1 = y ∧ p.2 ∈ ((s.node y).step blake3 (.receive arr)).out)

variable {blake3} {addr} {s}

theorem mem_after {x : Bool} {o : Outcome S} {p : Bool × Datagram S} :
    p ∈ (s.after x o).inFlight ↔ p ∈ s.inFlight ∨ p.1 = x ∧ p.2 ∈ o.out := by
  obtain ⟨y, d⟩ := p
  simp only [after, List.mem_append, List.mem_map, Prod.mk.injEq]
  constructor
  · rintro (h | ⟨d', hd, rfl, rfl⟩)
    · exact .inl h
    · exact .inr ⟨rfl, hd⟩
  · rintro (h | ⟨rfl, hd⟩)
    · exact .inl h
    · exact .inr ⟨d, hd, rfl, rfl⟩

theorem mem_of_mem_lose {k : ℕ} {p : Bool × Datagram S} (h : p ∈ (s.lose k).inFlight) : p ∈ s.inFlight :=
  List.mem_of_mem_eraseIdx h

theorem moves_deliver (k now : ℕ) (nowMs : UInt64) (rng : S.Rng) (copy : Bool) (a : Net.Action S) :
    Moves blake3 s a (s.deliver blake3 addr k now nowMs rng copy) := by
  have hstill : Moves blake3 s a s := .still rfl fun _ => id
  unfold deliver
  split
  · exact hstill
  · next x d hk =>
      split
      · exact hstill
      · next y hy =>
          cases hidle : (s.node y).inbound with
          | dispatch | complete => exact hstill
          | idle =>
              have hstep : (s.node y).step blake3 (.receive (arrival addr now nowMs rng x d)) =
                  (s.node y).receive blake3 (arrival addr now nowMs rng x d) := by
                simp only [Node.step, hidle]
              refine .receives y x d (arrival addr now nowMs rng x d) (List.mem_of_getElem? hk) rfl ?_ fun p hp => ?_
              · rw [Node.next, hstep]
                cases copy <;> rfl
              · rw [hstep]
                refine (mem_after.mp hp).imp_left fun h => ?_
                cases copy with
                | false => exact mem_of_mem_lose h
                | true => exact h

variable (blake3 addr s) in
theorem moves (a : Net.Action S) : Moves blake3 s a (s.next blake3 addr a) := by
  cases a with
  | node x b =>
      cases b with
      | receive arr => exact .still rfl fun _ => id
      | _ => exact .own x _ rfl (fun _ h => by cases h) rfl fun _ => mem_after.mp
  | deliver k now nowMs rng copy => exact moves_deliver k now nowMs rng copy _
  | lose k => exact .still rfl fun _ => mem_of_mem_lose

/-! ### Honest nodes, genuine datagrams -/

variable (networkSecret : Bytes32) (key : Bool → Bytes32)

structure Honest (s : Net S) : Prop where
  node : ∀ x, (s.node x).Honest networkSecret (key x)
  datagram : ∀ p ∈ s.inFlight, p.2.Genuine networkSecret (key p.1)

variable {networkSecret} {key}

theorem Honest.step {s' : Net S} (h : s.Honest networkSecret key) {x : Bool} {b : NodeAction S}
    (hnode : s'.node = update s.node x ((s.node x).next blake3 b))
    (hflight : ∀ p ∈ s'.inFlight, p ∈ s.inFlight ∨ p.1 = x ∧ p.2 ∈ ((s.node x).step blake3 b).out) :
    s'.Honest networkSecret key := by
  constructor
  · rw [hnode]
    exact (Function.forall_update_iff s.node fun y n => n.Honest networkSecret (key y)).mpr
      ⟨(h.node x).next, fun y _ => h.node y⟩
  · intro p hp
    rcases hflight p hp with hold | ⟨hx, hout⟩
    · exact h.datagram p hold
    · rw [hx]
      exact (h.node x).genuine hout

/-- Every action keeps nodes and datagrams what they claim to be. -/
theorem Honest.next (h : s.Honest networkSecret key) (a : Net.Action S) :
    (s.next blake3 addr a).Honest networkSecret key := by
  cases moves blake3 addr s a with
  | still hnode hflight => exact ⟨fun x => hnode ▸ h.node x, fun p hp => h.datagram p (hflight p hp)⟩
  | own x b ha hb hnode hflight => exact h.step hnode hflight
  | receives y x d arr hin hdata hnode hflight => exact h.step hnode hflight

end Net

end SeedNet
