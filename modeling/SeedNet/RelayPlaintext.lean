import SeedNet.RelayChain

/-! # What relays see

The documentation of `RelayData` says that `payload` is encrypted with the session key of sender and
destination, and that relays forward it opaquely.  The outbound loop takes this branch only without a session
with the destination, and puts the serialized packet there as it is; each hop encrypts the whole message
for the next relay, which decrypts it.

A relay knows its own node and the messages that it has decrypted (`Mesh.seenBy`).  Two packets are
`Indistinguishable` to it if what it has decrypted with the one in every run, it could have decrypted with the
other, whatever the other nodes hold.  `relay_indistinguishable_iff`: that is so for equal packets only. -/

namespace SeedNet

open Relation (ReflTransGen)

variable {S : Snow}

/-- The messages that the node `v` has decrypted. -/
def Mesh.seenBy (net : Mesh S) (v : PeerId) : List Message := (net.handled.filter fun p => p.1 = v).map Prod.snd

theorem Mesh.mem_seenBy {net : Mesh S} {v : PeerId} {msg : Message} :
    msg ∈ net.seenBy v ↔ (v, msg) ∈ net.handled := by
  simp only [seenBy, List.mem_map, List.mem_filter, decide_eq_true_eq]
  constructor
  · rintro ⟨⟨w, m⟩, ⟨hmem, rfl⟩, rfl⟩
    exact hmem
  · intro hmem
    exact ⟨(v, msg), ⟨hmem, rfl⟩, rfl⟩

section

variable (blake3 : Blake3) (members : List PeerId) (addr : PeerId → TransportAddr) (src : PeerId) (vs : List PeerId)
  (dst : PeerId)

/-- The mesh `net` is reached in a run that starts with the packet, read by the source of a chain. -/
structure Carries (nodes : PeerId → Node S) (packet : Bytes) (net : Mesh S) : Prop where
  chain : RelayChain members addr nodes src vs dst
  route : (nodes src).engine.RoutesTo packet dst
  run : ∃ candidate, ReflTransGen (Mesh.Delivers blake3 members addr)
    (({ node := nodes } : Mesh S).inject blake3 addr src candidate packet) net

/-- What `v` decrypts with the packet `p` in any run, it may also decrypt with the packet `q`: the other
nodes may hold other sessions, keys and routes. -/
def Indistinguishable (nodes : PeerId → Node S) (v : PeerId) (p q : Bytes) : Prop :=
  ∀ net, Carries blake3 members addr src vs dst nodes p net → ∃ nodes' net', nodes' v = nodes v ∧
    Carries blake3 members addr src vs dst nodes' q net' ∧ net'.seenBy v = net.seenBy v

variable {blake3} {members} {addr} {src} {vs} {dst} {nodes : PeerId → Node S} {packet : Bytes} {net : Mesh S}
  (hinj : ∀ v ∈ members, ∀ w ∈ members, addr v = addr w → v = w) (htagged : S.Tagged) (hne : packet ≠ [])
  (hlen : packet.length ≤ overlayMtu + 100)
include hinj htagged hne hlen

/-- Whatever a node decrypts is the packet in the clear. -/
theorem Carries.seenBy_eq (h : Carries blake3 members addr src vs dst nodes packet net) {v : PeerId}
    {msg : Message} (hmsg : msg ∈ net.seenBy v) : msg = relayed src dst packet := by
  obtain ⟨candidate, hrun⟩ := h.run
  have hidentity : (nodes dst).engine.ourPeerId = dst := h.chain.identity dst (by simp)
  have hstart := h.chain.atHop blake3 hlen hne h.route candidate
  have hlog : ∀ e ∈ (vs ++ [dst]).map (fun v => (v, relayed src dst packet)), e.2 = relayed src dst packet := by
    intro e he
    obtain ⟨w, -, rfl⟩ := List.mem_map.mp he
    rfl
  rw [Mesh.mem_seenBy] at hmsg
  rcases hstart.run hinj htagged hlen hidentity hrun with ⟨w, rest, hat⟩ | harrived
  · apply hlog (v, msg)
    rw [← hat.handled]
    exact List.mem_append_left _ hmsg
  · apply hlog (v, msg)
    rw [← harrived.handled]
    exact hmsg

variable (blake3) in
/-- In some run every relay decrypts the packet. -/
theorem RelayChain.carries (h : RelayChain members addr nodes src vs dst) (rng : S.Rng)
    (hroute : (nodes src).engine.RoutesTo packet dst) :
    ∃ net, Carries blake3 members addr src vs dst nodes packet net ∧ ∀ v ∈ vs, relayed src dst packet ∈ net.seenBy v := by
  have hidentity : (nodes dst).engine.ourPeerId = dst := h.identity dst (by simp)
  have hstart := h.atHop blake3 hlen hne hroute none
  obtain ⟨net, hrun, harrived⟩ := hstart.completes hinj htagged hlen rng hidentity
  refine ⟨net, ⟨h, hroute, none, hrun⟩, fun v hv => ?_⟩
  rw [Mesh.mem_seenBy, harrived.handled]
  exact List.mem_map.mpr ⟨v, List.mem_append_left _ hv, rfl⟩

end

section

variable {members : List PeerId} {addr : PeerId → TransportAddr} {nodes : PeerId → Node S} {src dst v : PeerId}
  {vs : List PeerId} {p q : Bytes}

theorem relayed_injective (hp : p.length ≤ overlayMtu + 100) (hq : q.length ≤ overlayMtu + 100)
    (h : relayed src dst p = relayed src dst q) : p = q := by
  have hpayload : serializeMessage (.data p) = serializeMessage (.data q) := (Message.relayData.inj h).2.2
  have hread := deserialize_packet hp
  rw [hpayload, deserialize_packet hq] at hread
  exact (Message.data.inj (Except.ok.inj hread)).symm

/-- A relay tells every two packets apart. -/
theorem RelayChain.eq_of_indistinguishable (blake3 : Blake3) (h : RelayChain members addr nodes src vs dst)
    (hinj : ∀ v ∈ members, ∀ w ∈ members, addr v = addr w → v = w) (htagged : S.Tagged) (rng : S.Rng) (hv : v ∈ vs)
    (hp : p.length ≤ overlayMtu + 100) (heq : p.length = q.length) (hroute : (nodes src).engine.RoutesTo p dst)
    (hsame : Indistinguishable blake3 members addr src vs dst nodes v p q) : p = q := by
  by_cases hnil : p = []
  · rw [hnil] at heq ⊢
    exact (List.eq_nil_of_length_eq_zero heq.symm).symm
  · have hq : q.length ≤ overlayMtu + 100 := heq ▸ hp
    have hnil' : q ≠ [] := fun hq => hnil (List.eq_nil_of_length_eq_zero (by rw [heq, hq]; rfl))
    obtain ⟨net, hcarries, hseen⟩ := h.carries blake3 hinj htagged hnil hp rng hroute
    obtain ⟨nodes', net', -, hcarries', hview⟩ := hsame net hcarries
    have hmem : relayed src dst p ∈ net'.seenBy v := hview ▸ hseen v hv
    exact relayed_injective hp hq (hcarries'.seenBy_eq hinj htagged hnil' hq hmem)

end

/-- **Relays see the packets**: the messages that a relay of a chain decrypts do not distinguish two packets of
equal length exactly if these are the same packet. -/
theorem relay_indistinguishable_iff (blake3 : Blake3) (htagged : S.Tagged) (rng : S.Rng) (members : List PeerId)
    (addr : PeerId → TransportAddr) (hinj : ∀ v ∈ members, ∀ w ∈ members, addr v = addr w → v = w)
    (nodes : PeerId → Node S) (src dst : PeerId) (vs : List PeerId)
    (hchain : RelayChain members addr nodes src vs dst) (v : PeerId) (hv : v ∈ vs) (p q : Bytes)
    (hlen : p.length ≤ overlayMtu + 100) (heq : p.length = q.length)
    (hroute : (nodes src).engine.RoutesTo p dst) :
    Indistinguishable blake3 members addr src vs dst nodes v p q ↔ p = q := by
  constructor
  · exact hchain.eq_of_indistinguishable blake3 hinj htagged rng hv hlen heq hroute
  · rintro rfl net hcarries
    exact ⟨nodes, net, rfl, hcarries, rfl⟩

open Transparent in
/-- Node 2 of the line, and two packets for node 4 that differ in their last byte. -/
theorem relay_indistinguishable_line :
    Indistinguishable blake3 lineMembers lineAddr (.replicate 1) [.replicate 2, .replicate 3] (.replicate 4) line
        (.replicate 2) (linePacket 7) (linePacket 8) ↔ linePacket 7 = linePacket 8 :=
  relay_indistinguishable_iff blake3 tagged (3 : UInt8) lineMembers lineAddr lineAddr_injective line (.replicate 1)
    (.replicate 4) [.replicate 2, .replicate 3] line_chain (.replicate 2) (by decide) (linePacket 7) (linePacket 8)
    (by decide) (by decide) (line_routesTo 7)

open Transparent in
/-- The relays of the line tell these packets apart. -/
theorem relay_sees_packet :
    ¬ ∀ (blake3 : Blake3) (members : List PeerId) (addr : PeerId → TransportAddr) (nodes : PeerId → Node transparent)
      (src dst : PeerId) (vs : List PeerId) (p q : Bytes),
      (∀ v ∈ members, ∀ w ∈ members, addr v = addr w → v = w) → RelayChain members addr nodes src vs dst →
        p.length ≤ overlayMtu + 100 → p.length = q.length → (nodes src).engine.RoutesTo p dst →
          (nodes src).engine.RoutesTo q dst →
            ∀ v ∈ vs, Indistinguishable blake3 members addr src vs dst nodes v p q := by
  intro h
  have hrelay : PeerId.replicate 2 ∈ [PeerId.replicate 2, PeerId.replicate 3] := by decide
  have hlen : (linePacket 7).length ≤ overlayMtu + 100 := by decide
  have heq : (linePacket 7).length = (linePacket 8).length := rfl
  have hsame := h blake3 lineMembers lineAddr line (.replicate 1) (.replicate 4) [.replicate 2, .replicate 3]
    (linePacket 7) (linePacket 8) lineAddr_injective line_chain hlen heq (line_routesTo 7) (line_routesTo 8) _ hrelay
  have hpackets := line_chain.eq_of_indistinguishable blake3 lineAddr_injective tagged (3 : UInt8) hrelay hlen heq
    (line_routesTo 7) hsame
  exact absurd hpackets (by decide)

end SeedNet
