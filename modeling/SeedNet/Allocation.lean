import Mathlib.Data.Fintype.Pigeonhole
import SeedNet.Common
import SeedNet.InverseIndex
import SeedNet.Run

/-! # Overlay allocation

`AllocationTable` of `crates/overlay/src/lib.rs`, with the `u8` arithmetic of a release build.  A
peer gets the address derived from its key or, if that is taken, the first free one after it in
the same `/24`; the last octet wraps.

The probing loop also stops when the slot counter wraps, and then keeps the last address it has tried.
`probed` says what the loop leaves behind in either case.  `allocations_distinct_iff` is the exact
condition for a sequence of calls to keep all addresses distinct: every new peer finds its `/24`
with an address to spare.  Nothing checks it, and the 257th peer of a `/24` gets an address twice
(`allocate_full`). -/

namespace SeedNet

open InverseIndex (Inverse)
open Run (exec Along)

structure Allocation where
  peerId : PeerId
  overlay : OverlayAddr
  slot : UInt8
deriving DecidableEq

structure AllocationTable where
  allocations : Map PeerId Allocation := ∅
  byIp : Map Ipv4Addr PeerId := ∅

/-- The address `slot` steps after `base` in its `/24`. -/
def fallbackAddr (base : OverlayAddr) (slot : UInt8) : OverlayAddr :=
  ⟨base.ip.a, base.ip.b, base.ip.c, base.ip.d + slot⟩

/-- A call on an allocation table. -/
inductive AllocationOp where
  | allocate (peerId : PeerId)
  | remove (peerId : PeerId)

theorem toNat_succ {slot : UInt8} (h : slot + 1 ≠ 0) : (slot + 1).toNat = slot.toNat + 1 := by
  have hlt := slot.toNat_lt
  have hne : (slot + 1).toNat ≠ 0 := fun h0 => h (UInt8.toNat_inj.mp h0)
  rw [UInt8.toNat_add, UInt8.toNat_one] at hne ⊢
  omega

namespace AllocationTable

variable (blake3 : Blake3) (t : AllocationTable)

/-- `AllocationTable::new()`. -/
def new : AllocationTable where

/-- The probing loop: the slot and the address it ends with. -/
def probe (base : OverlayAddr) (slot : UInt8) (addr : OverlayAddr) : UInt8 × OverlayAddr :=
  if addr.ip ∈ t.byIp then
    if slot + 1 = 0 then (slot + 1, addr)
    else probe base (slot + 1) (fallbackAddr base (slot + 1))
  else (slot, addr)
termination_by 256 - slot.toNat
decreasing_by
  next h =>
    have hsucc := toNat_succ h
    have hlt := slot.toNat_lt
    omega

def allocate (peerId : PeerId) : OverlayAddr × AllocationTable :=
  match t.allocations.lookup peerId with
  | some existing => (existing.overlay, t)
  | none =>
    let base := deriveOverlayAddr blake3 peerId
    let (slot, addr) := t.probe base 0 base
    (addr,
      { allocations := t.allocations.insert peerId { peerId := peerId, overlay := addr, slot := slot }
        byIp := t.byIp.insert addr.ip peerId })

def lookupByIp (ip : Ipv4Addr) : Option PeerId := t.byIp.lookup ip

def lookupByPeer (peerId : PeerId) : Option Allocation := t.allocations.lookup peerId

def remove (peerId : PeerId) : Option Allocation × AllocationTable :=
  match t.allocations.lookup peerId with
  | none => (none, t)
  | some alloc =>
    (some alloc, { allocations := t.allocations.erase peerId, byIp := t.byIp.erase alloc.overlay.ip })

def apply : AllocationOp → AllocationTable
  | .allocate peerId => (t.allocate blake3 peerId).2
  | .remove peerId => (t.remove peerId).2

/-- The overlay address of a peer. -/
def addrOf (p : PeerId) : Option Ipv4Addr := (t.lookupByPeer p).map (·.overlay.ip)

/-- No address is given to two peers, and `by_ip` is the inverse of the allocations. -/
structure Distinct : Prop where
  distinct : ∀ p q a b, t.lookupByPeer p = some a → t.lookupByPeer q = some b → p ≠ q → a.overlay ≠ b.overlay
  byIp : ∀ ip p, t.lookupByIp ip = some p ↔ ∃ a, t.lookupByPeer p = some a ∧ a.overlay.ip = ip

/-- A peer that is new to the table finds an address of its `/24` free. -/
def HasRoom : AllocationOp → Prop
  | .allocate peerId => t.lookupByPeer peerId = none →
    ∃ slot, t.lookupByIp (fallbackAddr (deriveOverlayAddr blake3 peerId) slot).ip = none
  | .remove _ => True

variable {t}

/-! ### The probing loop -/

/-- What the probing loop can end with. -/
inductive Probed (t : AllocationTable) (base : OverlayAddr) : UInt8 × OverlayAddr → Prop
  /-- the first free address -/
  | free (slot : UInt8) (hfree : (fallbackAddr base slot).ip ∉ t.byIp)
      (hbelow : ∀ s < slot, (fallbackAddr base s).ip ∈ t.byIp) : Probed t base (slot, fallbackAddr base slot)
  /-- the counter has wrapped: the last address, which is taken like all others -/
  | full (htaken : ∀ s, (fallbackAddr base s).ip ∈ t.byIp) : Probed t base (0, fallbackAddr base 255)

theorem probed_of_below {base : OverlayAddr} {slot : UInt8} {addr : OverlayAddr}
    (haddr : addr = fallbackAddr base slot) (hbelow : ∀ s < slot, (fallbackAddr base s).ip ∈ t.byIp) :
    Probed t base (t.probe base slot addr) := by
  fun_induction probe t base slot addr with
  | case1 slot addr htaken hwrap =>
      -- the counter wraps after slot 255 alone
      have hlast : slot = 255 := by
        have hlt := slot.toNat_lt
        have h0 := congrArg UInt8.toNat hwrap
        rw [UInt8.toNat_add, UInt8.toNat_one, UInt8.toNat_zero] at h0
        apply UInt8.toNat_inj.mp
        show slot.toNat = 255
        omega
      rw [hwrap, haddr, hlast]
      refine .full fun s => ?_
      by_cases hs : s = 255
      · rw [hs, ← hlast, ← haddr]
        exact htaken
      · apply hbelow
        rw [hlast, UInt8.lt_iff_toNat_lt]
        have hlt := s.toNat_lt
        have hne : s.toNat ≠ 255 := fun h => hs (UInt8.toNat_inj.mp h)
        show s.toNat < 255
        omega
  | case2 slot addr htaken hwrap ih =>
      apply ih rfl
      intro s hs
      by_cases hslot : s = slot
      · rw [hslot, ← haddr]
        exact htaken
      · apply hbelow
        have hsucc := toNat_succ hwrap
        have hne : s.toNat ≠ slot.toNat := fun h => hslot (UInt8.toNat_inj.mp h)
        rw [UInt8.lt_iff_toNat_lt] at hs ⊢
        omega
  | case3 slot addr hfree =>
      subst haddr
      exact .free slot hfree hbelow

theorem fallbackAddr_zero (base : OverlayAddr) : fallbackAddr base 0 = base := by
  simp only [fallbackAddr, UInt8.add_zero]

theorem probed (base : OverlayAddr) : Probed t base (t.probe base 0 base) :=
  probed_of_below (fallbackAddr_zero base).symm fun _ hs => absurd hs UInt8.not_lt_zero

/-! ### The maps after a call -/

theorem allocate_of_some {p : PeerId} {a : Allocation} (h : t.lookupByPeer p = some a) :
    t.allocate blake3 p = (a.overlay, t) := by
  have h' : t.allocations.lookup p = some a := h
  simp only [allocate, h']

/-- The call for a new peer, by what the probing loop ends with. -/
theorem allocate_of_probe {p : PeerId} (h : t.lookupByPeer p = none) {slot : UInt8} {addr : OverlayAddr}
    (hprobe : t.probe (deriveOverlayAddr blake3 p) 0 (deriveOverlayAddr blake3 p) = (slot, addr)) :
    (t.allocate blake3 p).1 = addr ∧
      (t.allocate blake3 p).2.lookupByPeer = Function.update t.lookupByPeer p (some ⟨p, addr, slot⟩) ∧
      (t.allocate blake3 p).2.lookupByIp = Function.update t.lookupByIp addr.ip (some p) := by
  have h' : t.allocations.lookup p = none := h
  refine ⟨?_, ?_, ?_⟩
  · simp only [allocate, h', hprobe]
  · funext q
    simp only [lookupByPeer, allocate, h', hprobe, Map.lookup_insert, Function.update_apply]
  · funext ip
    simp only [lookupByIp, allocate, h', hprobe, Map.lookup_insert, Function.update_apply]

/-- A new peer gets an address of its `/24`: a free one, or an address of somebody else if all are taken. -/
theorem allocate_of_none {p : PeerId} (h : t.lookupByPeer p = none) :
    ∃ slot last, Probed t (deriveOverlayAddr blake3 p) (slot, fallbackAddr (deriveOverlayAddr blake3 p) last) ∧
      (t.allocate blake3 p).2.lookupByPeer = Function.update t.lookupByPeer p
        (some ⟨p, fallbackAddr (deriveOverlayAddr blake3 p) last, slot⟩) ∧
      (t.allocate blake3 p).2.lookupByIp = Function.update t.lookupByIp
        (fallbackAddr (deriveOverlayAddr blake3 p) last).ip (some p) := by
  have hres : ∃ slot last, t.probe (deriveOverlayAddr blake3 p) 0 (deriveOverlayAddr blake3 p) =
      (slot, fallbackAddr (deriveOverlayAddr blake3 p) last) := by
    have hprobed := t.probed (deriveOverlayAddr blake3 p)
    generalize t.probe (deriveOverlayAddr blake3 p) 0 (deriveOverlayAddr blake3 p) = r at hprobed
    cases hprobed with
    | free slot => exact ⟨slot, slot, rfl⟩
    | full => exact ⟨0, 255, rfl⟩
  obtain ⟨slot, last, hprobe⟩ := hres
  refine ⟨slot, last, ?_, (allocate_of_probe blake3 h hprobe).2⟩
  rw [← hprobe]
  exact t.probed _

theorem remove_of_none {p : PeerId} (h : t.lookupByPeer p = none) : (t.remove p).2 = t := by
  have h' : t.allocations.lookup p = none := h
  simp only [remove, h']

theorem remove_of_some {p : PeerId} {a : Allocation} (h : t.lookupByPeer p = some a) :
    (t.remove p).2.lookupByPeer = Function.update t.lookupByPeer p none ∧
      (t.remove p).2.lookupByIp = Function.update t.lookupByIp a.overlay.ip none := by
  have h' : t.allocations.lookup p = some a := h
  constructor
  · funext q
    simp only [lookupByPeer, remove, h', Map.lookup_erase, Function.update_apply]
  · funext ip
    simp only [lookupByIp, remove, h', Map.lookup_erase, Function.update_apply]

/-! ### What a call preserves -/

theorem addrOf_eq_some {p : PeerId} {ip : Ipv4Addr} :
    t.addrOf p = some ip ↔ ∃ a, t.lookupByPeer p = some a ∧ a.overlay.ip = ip := Option.map_eq_some_iff

theorem distinct_iff_inverse : t.Distinct ↔ Inverse t.addrOf t.lookupByIp := by
  constructor
  · intro h p ip
    rw [addrOf_eq_some]
    exact h.byIp ip p
  · intro h
    refine ⟨fun p q a b ha hb hne heq => hne ?_, fun ip p => ?_⟩
    · exact h.injective (addrOf_eq_some.mpr ⟨a, ha, rfl⟩) (addrOf_eq_some.mpr ⟨b, hb, by rw [heq]⟩)
    · rw [← addrOf_eq_some]
      exact h p ip

theorem addrOf_of_update {t' : AllocationTable} {p : PeerId} {a : Option Allocation}
    (h : t'.lookupByPeer = Function.update t.lookupByPeer p a) :
    t'.addrOf = Function.update t.addrOf p (a.map (·.overlay.ip)) := by
  funext q
  simp only [addrOf, h, Function.update_apply]
  split <;> rfl

theorem not_mem_byIp {ip : Ipv4Addr} : ip ∉ t.byIp ↔ t.lookupByIp ip = none := AList.lookup_eq_none.symm

/-- A new peer leaves all addresses distinct exactly if its `/24` has room. -/
theorem allocate_distinct_iff (h : t.Distinct) {p : PeerId} (hp : t.lookupByPeer p = none) :
    (∃ slot, t.lookupByIp (fallbackAddr (deriveOverlayAddr blake3 p) slot).ip = none) ↔
      (t.allocate blake3 p).2.Distinct := by
  have hinv := distinct_iff_inverse.mp h
  have hnone : t.addrOf p = none := by rw [addrOf, hp, Option.map_none]
  obtain ⟨slot, last, hprobed, hpeers, hips⟩ := allocate_of_none blake3 hp
  rw [distinct_iff_inverse, addrOf_of_update hpeers, hips, Option.map_some, hinv.insert_iff]
  constructor
  · rintro ⟨s, hs⟩
    have hfree : t.lookupByIp (fallbackAddr (deriveOverlayAddr blake3 p) last).ip = none := by
      generalize hr : (slot, fallbackAddr (deriveOverlayAddr blake3 p) last) = r at hprobed
      cases hprobed with
      | free slot' hfree hbelow =>
          rw [(Prod.mk.inj hr).2]
          exact not_mem_byIp.mp hfree
      | full htaken => exact absurd (htaken s) (not_mem_byIp.mpr hs)
    rw [hnone, hfree]
    constructor
    · intro ip hip
      cases hip
    · intro q hq
      cases hq
  · rintro ⟨-, howner⟩
    refine ⟨last, ?_⟩
    cases hq : t.lookupByIp (fallbackAddr (deriveOverlayAddr blake3 p) last).ip with
    | none => rfl
    | some q =>
        -- the owner of the address would be the new peer itself
        have haddr := (hinv q _).mp hq
        rw [howner q hq, hnone] at haddr
        cases haddr

/-- A call leaves all addresses distinct exactly if it has room. -/
theorem hasRoom_iff (h : t.Distinct) (op : AllocationOp) : t.HasRoom blake3 op ↔ (t.apply blake3 op).Distinct := by
  cases op with
  | allocate p =>
      cases hp : t.lookupByPeer p with
      | some a =>
          rw [apply, allocate_of_some blake3 hp]
          refine ⟨fun _ => h, fun _ hnone => ?_⟩
          cases hp.symm.trans hnone
      | none =>
          rw [apply, ← allocate_distinct_iff blake3 h hp]
          exact ⟨fun hroom => hroom hp, fun hroom _ => hroom⟩
  | remove p =>
      refine ⟨fun _ => ?_, fun _ => trivial⟩
      cases hp : t.lookupByPeer p with
      | none =>
          rw [apply, remove_of_none hp]
          exact h
      | some a =>
          obtain ⟨hpeers, hips⟩ := remove_of_some hp
          rw [apply, distinct_iff_inverse, addrOf_of_update hpeers, hips]
          exact (distinct_iff_inverse.mp h).erase (addrOf_eq_some.mpr ⟨a, hp, rfl⟩)

theorem distinct_new : new.Distinct := distinct_iff_inverse.mpr Inverse.empty

/-! ### Peers stay in their `/24` -/

/-- The peer has an address in the `/24` that is derived from its key. -/
def InBucket (t : AllocationTable) (p : PeerId) : Prop :=
  ∃ last, t.addrOf p = some (fallbackAddr (deriveOverlayAddr blake3 p) last).ip

theorem inBucket_allocate {p q : PeerId} (hall : ∀ p a, t.lookupByPeer p = some a → t.InBucket blake3 p)
    (h : q = p ∨ t.InBucket blake3 q) : (t.allocate blake3 p).2.InBucket blake3 q := by
  cases hp : t.lookupByPeer p with
  | some a =>
      rw [allocate_of_some blake3 hp]
      rcases h with rfl | hq
      · exact hall q a hp
      · exact hq
  | none =>
      obtain ⟨slot, last, -, hpeers, -⟩ := allocate_of_none blake3 hp
      have haddr := addrOf_of_update hpeers
      by_cases hq : q = p
      · subst hq
        exact ⟨last, by rw [haddr, Function.update_self]; rfl⟩
      · obtain ⟨l, hl⟩ := h.resolve_left hq
        exact ⟨l, by rw [haddr, Function.update_of_ne hq, hl]⟩

end AllocationTable

open AllocationTable in
/-- **No address twice.**  Along a sequence of calls, all peers have distinct addresses and `by_ip` is the inverse
of the allocations in every table reached, if and only if every new peer finds its `/24` with a
free address. -/
theorem allocations_distinct_iff (blake3 : Blake3) (ops : List AllocationOp) :
    (∀ before, before <+: ops → (exec (apply blake3) .new before).Distinct) ↔
      Along (apply blake3) (HasRoom blake3) .new ops :=
  (Run.along_iff_invariant (I := Distinct) (fun _ op h => hasRoom_iff blake3 h op) distinct_new ops).symm

/-! ### A full bucket -/

namespace AllocationTable

/-- The `n`-th of 65536 peers. -/
def peerNo (n : ℕ) : PeerId := ⟨(n / 256).toUInt8 :: n.toUInt8 :: List.replicate 30 0, by simp [publicKeyLen]⟩

theorem peerNo_injective {n m : ℕ} (hn : n < 65536) (hm : m < 65536) (h : peerNo n = peerNo m) : n = m := by
  have hbytes := congrArg (fun p : PeerId => p.bytes.bytes) h
  simp only [peerNo, List.cons.injEq, and_true] at hbytes
  have hhigh := congrArg UInt8.toNat hbytes.1
  have hlow := congrArg UInt8.toNat hbytes.2
  simp only [Nat.toUInt8_eq, UInt8.toNat_ofNat'] at hhigh hlow
  omega

/-- All peers of a list of calls to `allocate` end up in their buckets. -/
theorem inBucket_exec (ps : List PeerId) (t : AllocationTable)
    (hall : ∀ p a, t.lookupByPeer p = some a → t.InBucket blake3 p) {q : PeerId} (h : q ∈ ps ∨ t.InBucket blake3 q) :
    (exec (apply blake3) t (ps.map .allocate)).InBucket blake3 q := by
  induction ps generalizing t with
  | nil => exact h.resolve_left (List.not_mem_nil)
  | cons p ps ih =>
      apply ih
      · intro r a hr
        by_cases hrp : r = p
        · exact inBucket_allocate blake3 hall (.inl hrp)
        · apply inBucket_allocate blake3 hall
          right
          -- the entry of another peer was there before
          cases hp : t.lookupByPeer p with
          | some b =>
              rw [apply, allocate_of_some blake3 hp] at hr
              exact hall r a hr
          | none =>
              obtain ⟨slot, last, -, hpeers, -⟩ := allocate_of_none blake3 hp
              rw [apply, hpeers, Function.update_of_ne hrp] at hr
              exact hall r a hr
      · rcases h with hq | hq
        · rcases List.mem_cons.mp hq with rfl | hq
          · exact .inr (inBucket_allocate blake3 hall (.inl rfl))
          · exact .inl hq
        · exact .inr (inBucket_allocate blake3 hall (.inr hq))

end AllocationTable

open AllocationTable in
/-- If all keys hash to the same address, the last of 257 peers gets an address that is taken. -/
theorem allocate_full :
    ¬ ∀ (blake3 : Blake3) (ops : List AllocationOp), (exec (apply blake3) .new ops).Distinct := by
  intro h
  let constant : Blake3 := fun _ _ => 0
  let peers : List PeerId := (List.range 257).map peerNo
  have hdistinct := distinct_iff_inverse.mp (h constant (peers.map .allocate))
  have hbucket : ∀ n : Fin 257, (exec (apply constant) .new (peers.map .allocate)).InBucket constant (peerNo n) := by
    intro n
    apply inBucket_exec
    · intro p a hp
      cases hp
    · exact .inl (List.mem_map_of_mem (List.mem_range.mpr n.isLt))
  choose last hlast using hbucket
  have hcard : Fintype.card (Fin UInt8.size) < Fintype.card (Fin 257) := by
    rw [Fintype.card_fin, Fintype.card_fin]
    show 256 < 257
    omega
  obtain ⟨n, m, hne, heq⟩ := Fintype.exists_ne_map_eq_of_card_lt (fun n => (last n).toFin) hcard
  have hsame : last n = last m := UInt8.toFin_inj.mp heq
  have haddr := hlast m
  rw [← hsame] at haddr
  have hpeer : peerNo n = peerNo m := hdistinct.injective (hlast n) haddr
  exact hne (Fin.ext (peerNo_injective (by omega) (by omega) hpeer))

end SeedNet
