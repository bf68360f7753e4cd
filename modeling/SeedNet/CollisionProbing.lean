import SeedNet.Allocation

/-! # Collision probing

What `AllocationTable::allocate` does for a new peer whose `/24` has a free address (`crates/overlay/src/lib.rs`).
The slot counter of the probing loop is a `u8`, and in a build with overflow checks `slot += 1` panics at 255:
`probeChecked` is the loop with this check, and `probeChecked_eq` says that with a free address ahead it never
fails and ends as `probe` does.  `allocate_finds_free` is the whole call: the first free slot is taken, and nothing
else changes. -/

namespace SeedNet

/-- The address is in the `/24` of `base`. -/
def InSubnet (base : OverlayAddr) (ip : Ipv4Addr) : Prop := ip.a = base.ip.a ∧ ip.b = base.ip.b ∧ ip.c = base.ip.c

/-- Every address of a `/24` is some number of steps after `base`. -/
theorem InSubnet.exists_slot {base : OverlayAddr} {ip : Ipv4Addr} (h : InSubnet base ip) :
    ∃ slot, (fallbackAddr base slot).ip = ip := by
  obtain ⟨a, b, c, d⟩ := ip
  obtain ⟨ha, hb, hc⟩ := h
  refine ⟨d - base.ip.d, ?_⟩
  have hd : base.ip.d + (d - base.ip.d) = d := by rw [UInt8.add_comm, UInt8.sub_add_cancel]
  rw [fallbackAddr, hd, ← ha, ← hb, ← hc]

theorem inSubnet_fallbackAddr (base : OverlayAddr) (slot : UInt8) : InSubnet base (fallbackAddr base slot).ip :=
  ⟨rfl, rfl, rfl⟩

namespace AllocationTable

variable (blake3 : Blake3) (t : AllocationTable)

/-- The probing loop with an overflow check on its counter. -/
def probeChecked (base : OverlayAddr) (slot : UInt8) (addr : OverlayAddr) : Option (UInt8 × OverlayAddr) :=
  if addr.ip ∈ t.byIp then
    if slot + 1 = 0 then none
    else probeChecked base (slot + 1) (fallbackAddr base (slot + 1))
  else some (slot, addr)
termination_by 256 - slot.toNat
decreasing_by
  next h =>
    have hsucc := toNat_succ h
    have hlt := slot.toNat_lt
    omega

variable {t}

/-- With a free address ahead, the counter does not overflow. -/
theorem probeChecked_eq {base : OverlayAddr} {slot : UInt8} {addr : OverlayAddr} (haddr : addr = fallbackAddr base slot)
    (hroom : ∃ s, slot ≤ s ∧ (fallbackAddr base s).ip ∉ t.byIp) :
    t.probeChecked base slot addr = some (t.probe base slot addr) := by
  fun_induction probeChecked t base slot addr with
  | case1 slot addr htaken hwrap =>
      -- the counter is at its end and every address from there on is taken
      obtain ⟨s, hs, hfree⟩ := hroom
      have hlast : s = slot := by
        have h0 := congrArg UInt8.toNat hwrap
        have hle := UInt8.le_iff_toNat_le.mp hs
        have hslot := slot.toNat_lt
        have hlt := s.toNat_lt
        rw [UInt8.toNat_add, UInt8.toNat_one, UInt8.toNat_zero] at h0
        apply UInt8.toNat_inj.mp
        omega
      rw [hlast, ← haddr] at hfree
      exact absurd htaken hfree
  | case2 slot addr htaken hwrap ih =>
      rw [probe, if_pos htaken, if_neg hwrap]
      obtain ⟨s, hs, hfree⟩ := hroom
      refine ih rfl ⟨s, ?_, hfree⟩
      have hne : s.toNat ≠ slot.toNat := by
        intro heq
        rw [UInt8.toNat_inj.mp heq, ← haddr] at hfree
        exact hfree htaken
      have hsucc := toNat_succ hwrap
      rw [UInt8.le_iff_toNat_le] at hs ⊢
      omega
  | case3 slot addr hfree => rw [probe, if_neg hfree]

/-- The table `t'` after `p`, new to `t`, was given the address `addr`. -/
structure FoundFree (t : AllocationTable) (p : PeerId) (addr : OverlayAddr) (t' : AllocationTable) (slot : UInt8) :
    Prop where
  /-- the counter has not overflowed -/
  checked : t.probeChecked (deriveOverlayAddr blake3 p) 0 (deriveOverlayAddr blake3 p) = some (slot, addr)
  subnet : InSubnet (deriveOverlayAddr blake3 p) addr.ip
  free : t.lookupByIp addr.ip = none
  lastOctet : addr.ip.d.toNat = ((deriveOverlayAddr blake3 p).ip.d.toNat + slot.toNat) % 256
  below : ∀ s < slot, ∃ q, t.lookupByIp (fallbackAddr (deriveOverlayAddr blake3 p) s).ip = some q
  byPeer : t'.lookupByPeer = Function.update t.lookupByPeer p (some ⟨p, addr, slot⟩)
  byIp : t'.lookupByIp = Function.update t.lookupByIp addr.ip (some p)
  again : t'.allocate blake3 p = (addr, t')

/-- With a free address in the `/24`, the loop ends with the first one. -/
theorem probe_eq_free {base : OverlayAddr} {s : UInt8} (hs : (fallbackAddr base s).ip ∉ t.byIp) :
    ∃ slot, t.probe base 0 base = (slot, fallbackAddr base slot) ∧ (fallbackAddr base slot).ip ∉ t.byIp ∧
      ∀ s < slot, (fallbackAddr base s).ip ∈ t.byIp := by
  have hprobed := t.probed base
  generalize t.probe base 0 base = r at hprobed
  cases hprobed with
  | free slot hfree hbelow => exact ⟨slot, rfl, hfree, hbelow⟩
  | full htaken => exact absurd (htaken s) hs

end AllocationTable

open AllocationTable in
/-- **Probing finds a free address** for every new peer whose `/24` has one. -/
theorem allocate_finds_free (blake3 : Blake3) (t : AllocationTable) (p : PeerId) (hnew : t.lookupByPeer p = none)
    (hroom : ∃ ip, InSubnet (deriveOverlayAddr blake3 p) ip ∧ t.lookupByIp ip = none) :
    ∃ slot, FoundFree blake3 t p (t.allocate blake3 p).1 (t.allocate blake3 p).2 slot := by
  obtain ⟨ip, hsubnet, hip⟩ := hroom
  obtain ⟨s, rfl⟩ := hsubnet.exists_slot
  have hs : (fallbackAddr (deriveOverlayAddr blake3 p) s).ip ∉ t.byIp := not_mem_byIp.mpr hip
  obtain ⟨slot, hprobe, hfree, hbelow⟩ := probe_eq_free hs
  obtain ⟨haddr, hpeers, hips⟩ := allocate_of_probe blake3 hnew hprobe
  refine ⟨slot, ?_⟩
  rw [haddr]
  constructor
  case checked =>
    rw [probeChecked_eq (fallbackAddr_zero _).symm ⟨s, UInt8.zero_le, hs⟩, hprobe]
  case subnet => exact inSubnet_fallbackAddr _ slot
  case free => exact not_mem_byIp.mp hfree
  case lastOctet => exact UInt8.toNat_add _ _
  case below => exact fun s hs => Map.mem_iff_lookup.mp (hbelow s hs)
  case byPeer => exact hpeers
  case byIp => exact hips
  case again =>
    have hnow : (t.allocate blake3 p).2.lookupByPeer p =
        some ⟨p, fallbackAddr (deriveOverlayAddr blake3 p) slot, slot⟩ := by
      rw [hpeers, Function.update_self]
    exact allocate_of_some blake3 hnow

/-- Three peers have one derived address, and two of them are in the table. -/
def AllocationTable.twoTaken : AllocationTable :=
  ((AllocationTable.new.allocate (fun _ _ => 0) (.replicate 8)).2.allocate (fun _ _ => 0) (.replicate 9)).2

open AllocationTable in
/-- The third one finds its derived address and the next one taken, and gets the one after them. -/
theorem allocate_finds_free_third :
    twoTaken.lookupByIp (deriveOverlayAddr (fun _ _ => 0) (.replicate 7)).ip = some (.replicate 8) ∧
      twoTaken.lookupByIp (fallbackAddr (deriveOverlayAddr (fun _ _ => 0) (.replicate 7)) 1).ip = some (.replicate 9) ∧
        ∃ slot, FoundFree (fun _ _ => 0) twoTaken (.replicate 7) (twoTaken.allocate (fun _ _ => 0) (.replicate 7)).1
          (twoTaken.allocate (fun _ _ => 0) (.replicate 7)).2 slot :=
  ⟨by decide +kernel, by decide +kernel,
    allocate_finds_free (fun _ _ => 0) twoTaken (.replicate 7) (by decide +kernel)
      ⟨(fallbackAddr (deriveOverlayAddr (fun _ _ => 0) (.replicate 7)) 2).ip, ⟨rfl, rfl, rfl⟩, by decide +kernel⟩⟩

end SeedNet
