import SeedNet.HandlerEffects
import SeedNet.RelayNetwork
import Mathlib.Algebra.BigOperators.Group.List.Basic
import Mathlib.Algebra.Order.BigOperators.Group.List
import Mathlib.Data.Set.Finite.Lattice

/-! # Directories die out

Every directory that arrives is passed on to all other sessions, whether it is news or not, so one directory
can become many.  What bounds them is the hop count: an entry is passed on only below
`maxHopRebroadcast`, with a higher count.

`hopsLeft` is how often the entries of a directory can still be passed on.  With at most `B` sessions at
each node, a directory weighs `(B + 1) ^ hopsLeft`, which is more than all the copies of it that a node
sends (`weight_rebroadcast`).  So every delivery makes what is in flight lighter, and
`flooding_dies_out` follows. -/

namespace SeedNet

variable {τ : Type} (blake3 : Blake3) (addr : PeerId → TransportAddr)

/-- Some directory in flight is delivered. -/
def Network.Floods (net net' : Network τ) : Prop :=
  ∃ nowMs pre p post entries, net.inFlight = pre ++ p :: post ∧ p.msg = .peerDirectory entries ∧
    net' = net.arrive blake3 addr nowMs p (pre ++ post)

/-- How often the entries can still be passed on. -/
def hopsLeft (entries : List DirectoryEntry) : ℕ :=
  (entries.map fun k => maxHopRebroadcast.toNat - k.2.2.toNat).foldr max 0

/-- The weight of a message where a node has at most `B` sessions. -/
def Message.weight (B : ℕ) : Message → ℕ
  | .peerDirectory entries => (B + 1) ^ hopsLeft entries
  | _ => 0

/-- The weight of what is in flight. -/
def weightOf (B : ℕ) (packets : List Packet) : ℕ := (packets.map fun p => p.msg.weight B).sum

section hops

variable {e : Engine τ} {entries : List DirectoryEntry} {n : ℕ}

theorem hopsLeft_le_iff : hopsLeft entries ≤ n ↔ ∀ k ∈ entries, maxHopRebroadcast.toNat - k.2.2.toNat ≤ n := by
  unfold hopsLeft
  induction entries with
  | nil => simp
  | cons k entries ih =>
      rw [List.map_cons, List.foldr_cons, max_le_iff, ih, List.forall_mem_cons]

/-- What is passed on can be passed on once less. -/
theorem hopsLeft_rebroadcast : hopsLeft (e.rebroadcast entries) ≤ hopsLeft entries - 1 := by
  rw [hopsLeft_le_iff]
  intro k hk
  obtain ⟨k, hkeep, rfl⟩ := List.mem_map.mp hk
  obtain ⟨hmem, hpass⟩ := List.mem_filter.mp hkeep
  have hlt : k.2.2.toNat < 8 := UInt8.lt_iff_toNat_lt.mp (of_decide_eq_true hpass).2
  have hsat : (saturatingAdd k.2.2 1).toNat = k.2.2.toNat + 1 := by
    have hone : (1 : UInt8).toNat = 1 := rfl
    rw [saturatingAdd, if_pos (by omega), UInt8.toNat_add]
    omega
  have hle : maxHopRebroadcast.toNat - k.2.2.toNat ≤ hopsLeft entries := hopsLeft_le_iff.mp (le_refl _) k hmem
  show maxHopRebroadcast.toNat - (saturatingAdd k.2.2 1).toNat ≤ _
  rw [hsat]
  omega

/-- Only a directory with hops left is passed on. -/
theorem hopsLeft_pos (h : e.rebroadcast entries ≠ []) : 0 < hopsLeft entries := by
  obtain ⟨k, hk⟩ := List.exists_mem_of_ne_nil _ h
  obtain ⟨k, hkeep, rfl⟩ := List.mem_map.mp hk
  obtain ⟨hmem, hpass⟩ := List.mem_filter.mp hkeep
  have hlt : k.2.2.toNat < maxHopRebroadcast.toNat := UInt8.lt_iff_toNat_lt.mp (of_decide_eq_true hpass).2
  have hle : maxHopRebroadcast.toNat - k.2.2.toNat ≤ hopsLeft entries := hopsLeft_le_iff.mp (le_refl _) k hmem
  omega

end hops

/-! ### One delivery -/

section weight

variable {B : ℕ}

theorem weightOf_append (ps qs : List Packet) : weightOf B (ps ++ qs) = weightOf B ps + weightOf B qs := by
  simp only [weightOf, List.map_append, List.sum_append]

/-- Messages that each weigh at most `w`. -/
theorem weightOf_packetsOf_le {v : PeerId} {e : Engine τ} {forwards w : ℕ} {sends : List Send}
    (h : ∀ s ∈ sends, s.msg.weight B ≤ w) : weightOf B (packetsOf v e forwards sends) ≤ sends.length * w := by
  have hlen : (packetsOf v e forwards sends).length ≤ sends.length := by
    rw [packetsOf, List.length_map]
    exact List.length_filter_le ..
  have hle : weightOf B (packetsOf v e forwards sends) ≤ (packetsOf v e forwards sends).length * w := by
    have hsum := List.sum_le_card_nsmul ((packetsOf v e forwards sends).map fun p => p.msg.weight B) w <| by
      intro x hx
      obtain ⟨p, hp, rfl⟩ := List.mem_map.mp hx
      obtain ⟨s, hs, -, rfl⟩ := mem_packetsOf.mp hp
      exact h s hs
    rw [List.length_map] at hsum
    exact hsum
  exact hle.trans (Nat.mul_le_mul_right w hlen)

theorem packetsOf_append (v : PeerId) (e : Engine τ) (forwards : ℕ) (ss ts : List Send) :
    packetsOf v e forwards (ss ++ ts) = packetsOf v e forwards ss ++ packetsOf v e forwards ts := by
  simp only [packetsOf, List.filter_append, List.map_append]

/-- All the copies of a directory weigh less than the directory. -/
theorem weight_rebroadcast {v rid : PeerId} {e : Engine τ} {forwards : ℕ} {entries : List DirectoryEntry}
    (hB : e.sessions.len ≤ B) (hpass : e.rebroadcast entries ≠ []) :
    weightOf B (packetsOf v e forwards (e.tellOthers rid (e.rebroadcast entries))) <
      (Message.peerDirectory entries).weight B := by
  have hpos := hopsLeft_pos hpass
  have hcopies : (e.tellOthers rid (e.rebroadcast entries)).length ≤ B := by
    rw [Engine.tellOthers, List.length_map, Engine.otherPeers]
    exact (List.length_filter_le ..).trans hB
  have hcopy : ∀ s ∈ e.tellOthers rid (e.rebroadcast entries), s.msg.weight B ≤ (B + 1) ^ (hopsLeft entries - 1) := by
    intro s hs
    obtain ⟨p, -, rfl⟩ := List.mem_map.mp hs
    exact Nat.pow_le_pow_right (Nat.succ_pos B) hopsLeft_rebroadcast
  calc weightOf B (packetsOf v e forwards (e.tellOthers rid (e.rebroadcast entries)))
      ≤ (e.tellOthers rid (e.rebroadcast entries)).length * (B + 1) ^ (hopsLeft entries - 1) :=
        weightOf_packetsOf_le hcopy
    _ ≤ B * (B + 1) ^ (hopsLeft entries - 1) := Nat.mul_le_mul_right _ hcopies
    _ < (B + 1) * (B + 1) ^ (hopsLeft entries - 1) :=
        Nat.mul_lt_mul_of_pos_right (Nat.lt_succ_self B) (Nat.pow_pos (Nat.succ_pos B))
    _ = (B + 1) ^ hopsLeft entries := by
        rw [← pow_succ', Nat.sub_add_cancel hpos]

/-- What a node sends on a directory weighs less than the directory. -/
theorem weight_receive {e : Engine τ} (hB : e.sessions.len ≤ B) (nowMs : UInt64) (p : Packet)
    {entries : List DirectoryEntry} (hp : p.msg = .peerDirectory entries) (v : PeerId) (forwards : ℕ) :
    weightOf B (packetsOf v (e.receive blake3 addr nowMs p).engine forwards (e.receive blake3 addr nowMs p).sends) <
      p.msg.weight B := by
  have hpos : 0 < p.msg.weight B := by
    rw [hp]
    exact Nat.pow_pos (Nat.succ_pos B)
  unfold Engine.receive
  split
  · split
    · rw [hp, Engine.handleMessage]
      unfold Engine.handlePeerDirectory
      split
      · exact hp ▸ hpos
      · next rid _ =>
          have hframe := Engine.directoryEntries_frame blake3 rid entries e
          have hreq : ∀ s ∈ (Engine.directoryEntries blake3 rid e entries).2, s.msg.weight B ≤ 0 := by
            intro s hs
            obtain ⟨d, hd⟩ := Engine.directoryEntries_sends blake3 rid entries e s hs
            rw [hd]
            exact le_refl 0
          generalize Engine.directoryEntries blake3 rid e entries = r at hframe hreq
          obtain ⟨e', sends⟩ := r
          dsimp only at hframe hreq
          have hpass : e'.rebroadcast entries = e.rebroadcast entries := by
            simp only [Engine.rebroadcast, hframe.ourPeerId]
          have hrequests : weightOf B (packetsOf v e' forwards sends) = 0 :=
            Nat.le_zero.mp ((weightOf_packetsOf_le hreq).trans_eq (Nat.mul_zero _))
          dsimp only
          split
          · next hmany =>
              rw [packetsOf_append, weightOf_append, hrequests, Nat.zero_add]
              refine weight_rebroadcast (hframe.sessions ▸ hB) fun hnil => hmany.2 ?_
              rw [hnil]
              rfl
          · rw [hrequests]
            exact hp ▸ hpos
    · exact hpos
  · exact hpos

end weight

/-- **Directories die out**: no run that delivers only directories is infinite, whatever the sessions, the
tables and the messages in flight. -/
theorem flooding_dies_out (net : Network τ) : ¬ Run.Infinite (Network.Floods blake3 addr) net := by
  obtain ⟨B, hB⟩ := (Set.finite_range fun v => (net.nodes v).sessions.len).bddAbove
  have hbound : ∀ v, (net.nodes v).sessions.len ≤ B := fun v => hB (Set.mem_range_self v)
  refine Run.not_infinite_of_measure (fun net => weightOf B net.inFlight)
    (fun net => ∀ v, (net.nodes v).sessions.len ≤ B) ?_ hbound
  rintro net net' hsessions ⟨nowMs, pre, p, post, entries, hflight, hp, rfl⟩
  constructor
  · intro v
    rw [(arrive_frame nowMs p (pre ++ post)).sessions v]
    exact hsessions v
  · have hlight := weight_receive blake3 addr (hsessions p.dst) nowMs p hp p.dst p.passOn
    have hsum : weightOf B (pre ++ p :: post) = weightOf B (pre ++ post) + p.msg.weight B := by
      simp only [weightOf, List.map_append, List.map_cons, List.sum_append, List.sum_cons]
      omega
    simp only [Network.arrive, hflight, weightOf_append (pre ++ post), hsum]
    omega

end SeedNet
