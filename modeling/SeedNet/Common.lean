import Mathlib.Data.List.AList
import Mathlib.Data.Finite.Prod
import Mathlib.Data.Fintype.EquivFin

/-! # Shared types and constants

The types of `crates/common` and of `crates/transport/src/lib.rs` that the engine works with:
fixed-size keys, `PeerId`, overlay and socket addresses, `TransportAddr`, and the wire
prefixes by which the inbound loop tells its datagrams apart.

Hash maps (`HashMap`, `DashMap`) are association lists without duplicate keys (`Map`), so that
`len` and iteration mean something and every definition can be run.  Nothing depends on the
iteration order. -/

namespace SeedNet

abbrev Bytes := List UInt8

/-- A hash map: an association list without duplicate keys. -/
abbrev Map (K V : Type) := AList (fun _ : K => V)

namespace Map

variable {K V : Type} [DecidableEq K]

/-- `len()`. -/
def len (m : Map K V) : ℕ := m.keys.length

theorem lookup_of_len_eq_zero {m : Map K V} (h : len m = 0) (a : K) : m.lookup a = none := by
  rw [AList.lookup_eq_none]
  intro ha
  have hnil : m.keys = [] := List.eq_nil_of_length_eq_zero h
  have hmem : a ∈ m.keys := AList.mem_keys.mp ha
  rw [hnil] at hmem
  cases hmem

theorem dlookup_kreplace (a b : K) (v : V) : ∀ l : List (Sigma fun _ : K => V),
    (List.kreplace a v l).dlookup b =
      if b = a then (l.dlookup a).map (fun _ => v) else l.dlookup b
  | [] => by simp [List.kreplace, List.lookmap, List.lookmap.go]
  | ⟨c, w⟩ :: l => by
      have ih := dlookup_kreplace a b v l
      by_cases hac : a = c
      · subst hac
        have e : List.kreplace a v (⟨a, w⟩ :: l) = ⟨a, v⟩ :: l := by
          simp [List.kreplace, List.lookmap_cons_some]
        rw [e]
        by_cases hba : b = a
        · subst hba; simp
        · simp [hba, List.dlookup_cons_ne]
      · have e : List.kreplace a v (⟨c, w⟩ :: l) = ⟨c, w⟩ :: List.kreplace a v l := by
          simp [List.kreplace, List.lookmap_cons_none, hac]
        rw [e]
        by_cases hbc : b = c
        · subst hbc
          simp [Ne.symm hac]
        · rw [List.dlookup_cons_ne (β := fun _ : K => V) _ ⟨c, w⟩ hbc, ih,
            List.dlookup_cons_ne (β := fun _ : K => V) _ ⟨c, w⟩ hbc,
            List.dlookup_cons_ne (β := fun _ : K => V) _ ⟨c, w⟩ hac]

theorem lookup_replace (m : Map K V) (a b : K) (v : V) :
    (m.replace a v).lookup b = if b = a then (m.lookup a).map (fun _ => v) else m.lookup b :=
  dlookup_kreplace a b v m.entries

theorem lookup_insert (m : Map K V) (a b : K) (v : V) :
    (m.insert a v).lookup b = if b = a then some v else m.lookup b := by
  split
  · next h => rw [h, AList.lookup_insert]
  · next h => exact AList.lookup_insert_ne h

theorem lookup_erase (m : Map K V) (a b : K) :
    (m.erase a).lookup b = if b = a then none else m.lookup b := by
  split
  · next h => rw [h, AList.lookup_erase]
  · next h => exact AList.lookup_erase_ne h

theorem mem_iff_lookup {m : Map K V} {a : K} : a ∈ m ↔ ∃ v, m.lookup a = some v := by
  rw [← AList.lookup_isSome, Option.isSome_iff_exists]

theorem eq_empty {m : Map K V} (h : ∀ k, m.lookup k = none) : m = ∅ := by
  refine AList.ext (List.eq_nil_iff_forall_not_mem.mpr fun s hs => ?_)
  cases (h s.1).symm.trans (AList.mem_lookup_iff.mpr hs)

theorem filterMap_entries {W : Type} (m : Map K V) (g : K → V → Option W) :
    (m.entries.filterMap fun s => g s.1 s.2) = m.keys.filterMap fun k => (m.lookup k).bind (g k) := by
  rw [AList.keys, List.keys, List.filterMap_map]
  refine List.filterMap_congr fun s hs => ?_
  rw [Function.comp_apply, AList.mem_lookup_iff.mpr hs]
  rfl

end Map

/-! ### Keys and identities -/

/-- Ed25519 / X25519 key sizes. -/
def publicKeyLen : ℕ := 32

/-- `[u8; 32]`. -/
structure Bytes32 where
  bytes : Bytes
  length_eq : bytes.length = publicKeyLen
deriving DecidableEq

namespace Bytes32

/-- `[n; 32]`. -/
def replicate (n : UInt8) : Bytes32 := ⟨List.replicate publicKeyLen n, by simp⟩

instance : Inhabited Bytes32 := ⟨replicate 0⟩

theorem ext_iff' {a b : Bytes32} : a = b ↔ a.bytes = b.bytes := by
  cases a; cases b; simp

instance : Finite UInt8 :=
  Finite.of_injective UInt8.toFin fun a b h => by
    cases a; cases b; simpa using congrArg BitVec.ofFin h

instance : Finite Bytes32 :=
  Finite.of_injective (β := Fin publicKeyLen → UInt8)
    (fun b i => b.bytes.get (i.cast b.length_eq.symm)) fun a b h => by
      rw [ext_iff']
      refine List.ext_get (a.length_eq.trans b.length_eq.symm) fun n h1 h2 => ?_
      have := congrFun h ⟨n, a.length_eq ▸ h1⟩
      simpa using this

end Bytes32

/-- The identity of a device: its X25519 static key, as proved by every handshake. -/
structure PeerId where
  bytes : Bytes32
deriving DecidableEq, Inhabited

namespace PeerId

def fromBytes (bytes : Bytes32) : PeerId := ⟨bytes⟩

def asBytes (id : PeerId) : Bytes := id.bytes.bytes

/-- The identity whose bytes are all `n`. -/
def replicate (n : UInt8) : PeerId := ⟨.replicate n⟩

instance : Finite PeerId :=
  Finite.of_injective PeerId.bytes fun a b h => by cases a; cases b; simp_all

end PeerId

/-! ### Addresses -/

structure Ipv4Addr where
  a : UInt8
  b : UInt8
  c : UInt8
  d : UInt8
deriving DecidableEq, Inhabited

def Ipv4Addr.octets (ip : Ipv4Addr) : Bytes := [ip.a, ip.b, ip.c, ip.d]

/-- `Ipv4Addr::UNSPECIFIED`. -/
def Ipv4Addr.unspecified : Ipv4Addr := ⟨0, 0, 0, 0⟩

structure Ipv6Addr where
  octets : Bytes
  length_eq : octets.length = 16
deriving DecidableEq

instance : Inhabited Ipv6Addr := ⟨⟨List.replicate 16 0, by simp⟩⟩

/-- An overlay IPv4 address, kept apart from underlay addresses. -/
structure OverlayAddr where
  ip : Ipv4Addr
deriving DecidableEq, Inhabited

inductive SocketAddr where
  | v4 (ip : Ipv4Addr) (port : UInt16)
  | v6 (ip : Ipv6Addr) (port : UInt16) (flowinfo scopeId : UInt32)
deriving DecidableEq

instance : Inhabited SocketAddr := ⟨.v4 default 0⟩

/-- The address of a peer, tagged with the transport protocol used to reach it. -/
inductive TransportAddr where
  | udp (addr : SocketAddr)
  | tcp (addr : SocketAddr)
  | ws (addr : SocketAddr)
  | wss (addr : SocketAddr)
deriving DecidableEq, Inhabited

def TransportAddr.socketAddr : TransportAddr → SocketAddr
  | .udp a | .tcp a | .ws a | .wss a => a

/-- Which transport protocol a `TransportAddr` uses. -/
inductive TransportKind where
  | udp
  | tcp
  | ws
  | wss
deriving DecidableEq

def TransportAddr.kind : TransportAddr → TransportKind
  | .udp _ => .udp
  | .tcp _ => .tcp
  | .ws _ => .ws
  | .wss _ => .wss

/-- The largest datagram that the transports receive. -/
def maxUdp : ℕ := 65536

/-! ### The overlay subnet -/

def overlaySubnetBase : Ipv4Addr := ⟨10, 88, 0, 0⟩

def overlaySubnetPrefix : ℕ := 16

def overlayHostRangeStart : UInt8 := 1

def overlayMtu : ℕ := 1280

/-- BLAKE3, of which `derive_overlay_addr` uses single bytes of the 32-byte hash. -/
abbrev Blake3 := Bytes → Fin 32 → UInt8

/-- The stable address of a device in `10.88.0.0/16`: octets 3 and 4 come from BLAKE3 over the
public key, octet 3 mapped into `[1, 254]`. -/
def deriveOverlayAddr (blake3 : Blake3) (peerId : PeerId) : OverlayAddr :=
  let hash := blake3 peerId.asBytes
  let octet3 := hash 0 % 254 + overlayHostRangeStart
  let octet4 := hash 8
  ⟨overlaySubnetBase.a, overlaySubnetBase.b, octet3, octet4⟩

/-! ### Wire prefixes -/

/-- `b"seednet-hp\0"`: unencrypted hole-punch datagrams. -/
def holePunchProbePrefix : Bytes := [115, 101, 101, 100, 110, 101, 116, 45, 104, 112, 0]

/-- `b"seednet-hs-a"`: handshake message A. -/
def noiseHandshakeInitiatorPrefix : Bytes := [115, 101, 101, 100, 110, 101, 116, 45, 104, 115, 45, 97]

/-- `b"seednet-hs-b"`: handshake message B. -/
def noiseHandshakeResponderPrefix : Bytes := [115, 101, 101, 100, 110, 101, 116, 45, 104, 115, 45, 98]

/-- `data.starts_with(prefix)`. -/
def startsWith (data pre : Bytes) : Bool := pre.isPrefixOf data

@[simp] theorem startsWith_append (pre rest : Bytes) : startsWith (pre ++ rest) pre = true := by
  simp [startsWith, List.isPrefixOf_iff_prefix]

theorem startsWith_iff {data pre : Bytes} : startsWith data pre = true ↔ ∃ rest, data = pre ++ rest := by
  rw [startsWith, List.isPrefixOf_iff_prefix]
  exact ⟨fun ⟨t, h⟩ => ⟨t, h.symm⟩, fun ⟨t, h⟩ => ⟨t, h.symm⟩⟩

/-- Two prefixes that differ within their common length are never both prefixes of one datagram. -/
theorem not_startsWith_of_ne {data p q : Bytes} (h : startsWith data p = true)
    (hne : p.take (min p.length q.length) ≠ q.take (min p.length q.length)) :
    startsWith data q = false := by
  rw [Bool.eq_false_iff]
  intro hq
  obtain ⟨r, hr⟩ := startsWith_iff.mp h
  obtain ⟨s, hs⟩ := startsWith_iff.mp hq
  apply hne
  have h1 : data.take (min p.length q.length) = p.take (min p.length q.length) := by
    rw [hr, List.take_append_of_le_length (min_le_left _ _)]
  have h2 : data.take (min p.length q.length) = q.take (min p.length q.length) := by
    rw [hs, List.take_append_of_le_length (min_le_right _ _)]
  rw [← h1, h2]

theorem initiator_not_holePunch {data : Bytes} (h : startsWith data noiseHandshakeInitiatorPrefix = true) :
    startsWith data holePunchProbePrefix = false := not_startsWith_of_ne h (by decide)

theorem initiator_not_responder {data : Bytes} (h : startsWith data noiseHandshakeInitiatorPrefix = true) :
    startsWith data noiseHandshakeResponderPrefix = false := not_startsWith_of_ne h (by decide)

theorem responder_not_holePunch {data : Bytes} (h : startsWith data noiseHandshakeResponderPrefix = true) :
    startsWith data holePunchProbePrefix = false := not_startsWith_of_ne h (by decide)

end SeedNet
