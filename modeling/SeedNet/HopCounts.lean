import SeedNet.HandlerEffects
import SeedNet.ReturnPath

/-! # Hop counts

A node learns how far a peer is from directories, which count one hop more on every node, and from
`RelayReady`, which has the count of the relay's own table and one more.  "`hop_count = 1` means single relay", says the
table of relay paths.

`descend` sends the directory of a new peer down a line of `k` relays.  `directory_hops`: the last node counts `k + 1`
hops, if the directory comes that far.  `ready_hops_direct` and `ready_hops_relayed` say what it counts when its neighbour
answers.  `hop_counts_disagree`: on no line are both counts `k`. -/

namespace SeedNet

variable {τ : Type}

/-- The directory among the messages for the peer. -/
def directoryFor (v : PeerId) (sends : List Send) : Option (List DirectoryEntry) :=
  sends.findSome? fun s =>
    match s.msg with
    | .peerDirectory entries => if s.peer = v then some entries else none
    | _ => none

/-- The hop count of the `RelayReady` for `dst` among the messages for the peer. -/
def readyFor (v dst : PeerId) (sends : List Send) : Option UInt8 :=
  sends.findSome? fun s =>
    match s.msg with
    | .relayReady _ dst' hops => if s.peer = v ∧ dst' = dst then some hops else none
    | _ => none

namespace Engine

/-- The number of hops to the peer, by the table of relay paths. -/
def hopsTo (e : Engine τ) (dst : PeerId) : Option ℕ := (e.relayPaths.lookup dst).map (·.2.toNat)

end Engine

section

variable (blake3 : Blake3) (addr : PeerId → TransportAddr) (nowMs : UInt64)

/-- What the first node of the path sends travels down the path, from one node to the next. -/
def descend : List PeerId → List Send → (PeerId → Engine τ) → PeerId → Engine τ
  | u :: v :: path, sends, nodes =>
    match directoryFor v sends with
    | none => nodes
    | some entries =>
      let r := (nodes v).receive blake3 addr nowMs { src := u, dst := v, msg := .peerDirectory entries }
      descend (v :: path) r.sends (Function.update nodes v r.engine)
  | _, _, nodes => nodes

/-- The hops that the last node of `u :: path` counts to `d`, after `d` has introduced itself to `u`. -/
def directoryHops (nodes : PeerId → Engine τ) (d : PeerId) (a : SocketAddr) (u v₀ : PeerId) (path : List PeerId) :
    Option ℕ :=
  (descend blake3 addr nowMs (u :: path) ((nodes u).introduce d (.udp a)) nodes v₀).hopsTo d

/-- The hops that `v₀` counts to `d`, after it has asked `v₁` for a relay path. -/
def readyHops (e₀ e₁ : Engine τ) (v₀ d : PeerId) : Option ℕ :=
  match readyFor v₀ d (e₁.handleRelayRequest blake3 (addr v₀) d).sends with
  | none => none
  | some hops => (e₀.handleRelayReady blake3 e₁.ourPeerId d hops).engine.hopsTo d

end

/-! ### Messages for a peer -/

section sends

variable {v w d : PeerId} {sends sends' : List Send} {entries : List DirectoryEntry}

theorem directoryFor_append : directoryFor v (sends ++ sends') = (directoryFor v sends).or (directoryFor v sends') :=
  List.findSome?_append

theorem directoryFor_eq_none (h : ∀ s ∈ sends, ∀ entries, s.msg = .peerDirectory entries → s.peer ≠ v) :
    directoryFor v sends = none := by
  refine List.findSome?_eq_none_iff.mpr fun s hs => ?_
  split
  · next hmsg => exact if_neg (h s hs _ hmsg)
  · rfl

theorem directoryFor_tellOthers {e : Engine τ} (hv : v ∈ e.sessions) (hne : v ≠ d) :
    directoryFor v (e.tellOthers d entries) = some entries := by
  have hmem : v ∈ e.otherPeers d := List.mem_filter.mpr ⟨AList.mem_keys.mp hv, decide_eq_true hne⟩
  unfold Engine.tellOthers
  generalize e.otherPeers d = peers at hmem
  induction peers with
  | nil => cases hmem
  | cons p peers ih =>
      rw [List.map_cons, directoryFor, List.findSome?_cons]
      by_cases hp : p = v
      · simp [hp]
      · have htail : v ∈ peers := (List.mem_cons.mp hmem).resolve_left (Ne.symm hp)
        simp only [hp, if_false]
        exact ih htail

/-- The first relay tells its neighbour of the new peer. -/
theorem directoryFor_introduce {e : Engine τ} (hd : d ∈ e.sessions) (hv : v ∈ e.sessions) (hne : v ≠ d) (a : SocketAddr) :
    directoryFor v (e.introduce d (.udp a)) = some [(d, a, 1)] := by
  have hnone (entries : List DirectoryEntry) : directoryFor v (Engine.tellPeer d entries none) = none := by
    refine directoryFor_eq_none fun s hs _ _ => ?_
    unfold Engine.tellPeer at hs
    split at hs
    · cases hs
    · rw [List.mem_singleton.mp hs]
      exact Ne.symm hne
  unfold Engine.introduce
  dsimp only
  rw [if_pos (Map.two_le_len hd hv (Ne.symm hne)), directoryFor_append, hnone, Option.none_or]
  exact directoryFor_tellOthers hv hne

end sends

/-! ### One entry on one node -/

theorem toNat_saturatingAdd_one {h : UInt8} (hle : h.toNat ≤ maxHopRebroadcast.toNat) :
    (saturatingAdd h 1).toNat = h.toNat + 1 := by
  have hmax : maxHopRebroadcast.toNat = 8 := rfl
  have hone : (1 : UInt8).toNat = 1 := rfl
  rw [saturatingAdd, if_pos (by omega), UInt8.toNat_add]
  omega

namespace Engine

variable {blake3 : Blake3} {e : Engine τ} {d u : PeerId} {a : SocketAddr} {h : UInt8} {fromAddr : TransportAddr}

/-- A new peer is stored one hop further away than the entry says. -/
theorem hopsTo_handlePeerDirectory (hfrom : e.addrIndex.lookup fromAddr = some u) (hself : d ≠ e.ourPeerId)
    (hdirect : d ∉ e.sessions) (hnew : e.relayPaths.lookup d = none) (hle : h.toNat ≤ maxHopRebroadcast.toNat) :
    (e.handlePeerDirectory blake3 fromAddr [(d, a, h)]).engine.hopsTo d = some (h.toNat + 1) := by
  have hentry : (directoryEntries blake3 u e [(d, a, h)]).1.hopsTo d = some (h.toNat + 1) := by
    simp [directoryEntries, directoryEntry, hself, hdirect, hnew, hopsTo, addDerivedRoute, toNat_saturatingAdd_one hle]
  unfold handlePeerDirectory
  rw [hfrom]
  dsimp only
  split
  · exact hentry
  · exact hentry

/-- The entry is passed on, one hop further away, until it has gone far enough. -/
theorem directoryFor_handlePeerDirectory {w : PeerId} (hfrom : e.addrIndex.lookup fromAddr = some u)
    (hself : d ≠ e.ourPeerId) (hu : u ∈ e.sessions) (hw : w ∈ e.sessions) (hne : w ≠ u) :
    directoryFor w (e.handlePeerDirectory blake3 fromAddr [(d, a, h)]).sends =
      if h < maxHopRebroadcast then some [(d, a, saturatingAdd h 1)] else none := by
  have hlen : 2 ≤ (directoryEntries blake3 u e [(d, a, h)]).1.sessions.len := by
    rw [(directoryEntries_frame blake3 u _ e).sessions]
    exact Map.two_le_len hu hw (Ne.symm hne)
  have hrequests : directoryFor w (directoryEntries blake3 u e [(d, a, h)]).2 = none := by
    refine directoryFor_eq_none fun s hs entries hmsg => ?_
    obtain ⟨dst, hdst⟩ := directoryEntries_sends blake3 u _ e s hs
    cases hdst.symm.trans hmsg
  have hown : (directoryEntries blake3 u e [(d, a, h)]).1.ourPeerId = e.ourPeerId :=
    (directoryEntries_frame blake3 u _ e).ourPeerId
  have hmem : w ∈ (directoryEntries blake3 u e [(d, a, h)]).1.sessions := by
    rw [(directoryEntries_frame blake3 u _ e).sessions]
    exact hw
  unfold handlePeerDirectory
  rw [hfrom]
  dsimp only
  by_cases hpass : h < maxHopRebroadcast
  · have hentries : (directoryEntries blake3 u e [(d, a, h)]).1.rebroadcast [(d, a, h)] = [(d, a, saturatingAdd h 1)] := by
      simp [rebroadcast, hown, hself, hpass]
    rw [hentries, if_pos ⟨hlen, by simp⟩, directoryFor_append, hrequests, Option.none_or, if_pos hpass]
    exact directoryFor_tellOthers hmem hne
  · have hentries : (directoryEntries blake3 u e [(d, a, h)]).1.rebroadcast [(d, a, h)] = [] := by
      simp [rebroadcast, hpass]
    rw [hentries, if_neg (by simp), if_neg hpass]
    exact hrequests

theorem hopsTo_handleRelayReady (relay dst : PeerId) (hops : UInt8) :
    (e.handleRelayReady blake3 relay dst hops).engine.hopsTo dst = some hops.toNat := by
  simp [handleRelayReady, hopsTo, registerPeer, addDerivedRoute]

end Engine

/-! ### Down the line -/

section line

variable {blake3 : Blake3} {addr : PeerId → TransportAddr} {nowMs : UInt64} {nodes : PeerId → Engine τ}
  {d u v v₀ : PeerId} {a : SocketAddr} {path : List PeerId}

/-- The node that handles a message is the only one that changes. -/
theorem sameFrame_update (p : Packet) :
    SameFrame nodes (Function.update nodes p.dst ((nodes p.dst).receive blake3 addr nowMs p).engine) := by
  intro x
  by_cases hx : x = p.dst
  · subst hx
    rw [Function.update_self]
    exact receive_frame _ nowMs p
  · rw [Function.update_of_ne hx]
    exact .refl _

variable (blake3) (nowMs) in
/-- An entry with the count `h` that is sent to `v` adds a hop for every node after it. -/
theorem descend_hops (ht : Topology addr nodes) {h : UInt8} {sends : List Send}
    (hsends : directoryFor v sends = some [(d, a, h)]) (hle : h.toNat ≤ maxHopRebroadcast.toNat)
    (hnodup : (u :: v :: path).Nodup) (hlinked : (u :: v :: path).IsChain fun p q => q ∈ (nodes p).sessions)
    (hfar : ∀ x ∈ v :: path, d ∉ (nodes x).sessions ∧ d ≠ x) (hlast : (v :: path).getLast? = some v₀)
    (hnew : (nodes v₀).relayPaths.lookup d = none) :
    (descend blake3 addr nowMs (u :: v :: path) sends nodes v₀).hopsTo d =
      if h.toNat + path.length ≤ maxHopRebroadcast.toNat then some (h.toNat + path.length + 1) else none := by
  induction path generalizing u v h sends nodes with
  | nil =>
      obtain rfl : v = v₀ := Option.some.inj hlast
      have hu : u ∈ (nodes v).sessions := ht.symm u v (AList.mem_keys.mp (List.isChain_cons_cons.mp hlinked).1)
      obtain ⟨hdirect, hself⟩ := hfar v List.mem_cons_self
      rw [descend, hsends]
      dsimp only
      rw [descend, Function.update_self, ht.receive_eq (p := { src := u, dst := v, msg := .peerDirectory [(d, a, h)] }) hu]
      · rw [List.length_nil, Nat.add_zero, if_pos hle]
        exact Engine.hopsTo_handlePeerDirectory (ht.index v u (AList.mem_keys.mp hu))
          (fun heq => hself (heq.trans (ht.ourPeerId v))) hdirect hnew hle
      · intro _ _ _ heq
        cases heq
  | cons w rest ih =>
      obtain ⟨huv, hlinked'⟩ := List.isChain_cons_cons.mp hlinked
      have hu : u ∈ (nodes v).sessions := ht.symm u v (AList.mem_keys.mp huv)
      have hw : w ∈ (nodes v).sessions := (List.isChain_cons_cons.mp hlinked').1
      have hwu : w ≠ u := fun heq => (List.nodup_cons.mp hnodup).1 (heq ▸ List.mem_cons_of_mem v List.mem_cons_self)
      have hself : d ≠ (nodes v).ourPeerId := fun heq => (hfar v List.mem_cons_self).2 (heq.trans (ht.ourPeerId v))
      have hv₀ : v₀ ≠ v := by
        rintro rfl
        have hmem : v₀ ∈ w :: rest := List.mem_of_getLast? hlast
        exact (List.nodup_cons.mp (List.nodup_cons.mp hnodup).2).1 hmem
      let p : Packet := { src := u, dst := v, msg := .peerDirectory [(d, a, h)] }
      have hrecv : (nodes v).receive blake3 addr nowMs p = (nodes v).handlePeerDirectory blake3 (addr u) [(d, a, h)] :=
        ht.receive_eq hu nowMs
      have hframe : SameFrame nodes (Function.update nodes v ((nodes v).receive blake3 addr nowMs p).engine) :=
        sameFrame_update p
      have hsame : Function.update nodes v ((nodes v).receive blake3 addr nowMs p).engine v₀ = nodes v₀ :=
        Function.update_of_ne hv₀ ..
      have hpassed : directoryFor w ((nodes v).receive blake3 addr nowMs p).sends =
          if h < maxHopRebroadcast then some [(d, a, saturatingAdd h 1)] else none := by
        rw [hrecv]
        exact Engine.directoryFor_handlePeerDirectory (ht.index v u (AList.mem_keys.mp hu)) hself hu hw hwu
      have hmax : maxHopRebroadcast.toNat = 8 := rfl
      rw [descend, hsends]
      dsimp only
      by_cases hpass : h < maxHopRebroadcast
      · have hlt : h.toNat < maxHopRebroadcast.toNat := UInt8.lt_iff_toNat_lt.mp hpass
        have hnext := ih (ht.frame hframe) (hpassed.trans (if_pos hpass)) (by rw [toNat_saturatingAdd_one hle]; omega)
          (List.nodup_cons.mp hnodup).2 (hlinked'.imp fun x y hxy => by rw [hframe.sessions]; exact hxy)
          (fun x hx => by rw [hframe.sessions]; exact hfar x (List.mem_cons_of_mem v hx)) hlast (by rw [hsame]; exact hnew)
        rw [toNat_saturatingAdd_one hle] at hnext
        have hcount : h.toNat + (w :: rest).length = h.toNat + 1 + rest.length := by
          rw [List.length_cons]
          omega
        rw [hcount]
        exact hnext
      · have hstop : ¬ h.toNat + (w :: rest).length ≤ maxHopRebroadcast.toNat := by
          have hge : ¬ h.toNat < maxHopRebroadcast.toNat := fun hlt => hpass (UInt8.lt_iff_toNat_lt.mpr hlt)
          rw [List.length_cons]
          omega
        rw [descend, hpassed.trans (if_neg hpass), if_neg hstop]
        dsimp only
        rw [hsame, Engine.hopsTo, hnew]
        rfl

/-- In a line that begins with `d`, only the first node has a session with it. -/
theorem Line.far (h : Line addr nodes (d :: u :: path)) : ∀ x ∈ path, d ∉ (nodes x).sessions ∧ d ≠ x := by
  intro x hx
  obtain ⟨hd, hrest⟩ := List.nodup_cons.mp h.nodup
  have hu : u ∉ path := (List.nodup_cons.mp hrest).1
  have hnot {p q : PeerId} (hadj : [p, q] <:+: u :: path) : p ≠ d ∧ q ≠ d := by
    obtain ⟨hp, hq⟩ := mem_of_infix_pair hadj
    exact ⟨fun heq => hd (heq ▸ hp), fun heq => hd (heq ▸ hq)⟩
  have hne : d ≠ x := fun heq => hd (heq ▸ List.mem_cons_of_mem u hx)
  refine ⟨fun hmem => ?_, hne⟩
  rcases h.adjacent x d (AList.mem_keys.mp hmem) with hadj | hadj
  · rcases infix_pair_cons.mp hadj with ⟨heq, -⟩ | hadj
    · exact hne heq.symm
    · exact (hnot hadj).2 rfl
  · rcases infix_pair_cons.mp hadj with ⟨-, heq⟩ | hadj
    · exact hu (Option.some.inj heq ▸ hx)
    · exact (hnot hadj).1 rfl

variable (blake3) (nowMs) (a) in
/-- **What directories say**: the last node of a line of `k` relays counts `k + 1` hops, or none if `k` is too large. -/
theorem directory_hops (h : Line addr nodes (d :: u :: path)) (hlast : path.getLast? = some v₀)
    (hnew : (nodes v₀).relayPaths.lookup d = none) :
    directoryHops blake3 addr nowMs nodes d a u v₀ path =
      if path.length ≤ maxHopRebroadcast.toNat then some (path.length + 1) else none := by
  cases path with
  | nil => cases hlast
  | cons v rest =>
      obtain ⟨hdu, hlinked⟩ := List.isChain_cons_cons.mp h.linked
      have hd : d ∈ (nodes u).sessions := h.symm d u (AList.mem_keys.mp hdu)
      have hv : v ∈ (nodes u).sessions := (List.isChain_cons_cons.mp hlinked).1
      have hne : v ≠ d := Ne.symm (h.far v List.mem_cons_self).2
      have hdescend := descend_hops blake3 nowMs h.toTopology (directoryFor_introduce hd hv hne a) (by decide)
        (List.nodup_cons.mp h.nodup).2 hlinked h.far hlast hnew
      have hone : (1 : UInt8).toNat + rest.length = (v :: rest).length := by
        rw [List.length_cons, Nat.add_comm]
        rfl
      rw [hone] at hdescend
      exact hdescend

/-! ### Answers of the neighbour -/

variable {e₀ e₁ : Engine τ}

theorem ready_hops_direct (hfrom : e₁.addrIndex.lookup (addr v₀) = some v₀) (hlen : 2 ≤ e₁.sessions.len)
    (hd : d ∈ e₁.sessions) : readyHops blake3 addr e₀ e₁ v₀ d = some 1 := by
  have hready : readyFor v₀ d (e₁.handleRelayRequest blake3 (addr v₀) d).sends = some 1 := by
    rw [request_direct e₁ hfrom hlen hd]
    simp [readyFor]
  rw [readyHops, hready]
  exact Engine.hopsTo_handleRelayReady e₁.ourPeerId d 1

/-- The neighbour adds a hop to what its own table says. -/
theorem ready_hops_relayed {next : PeerId} {hops : UInt8} (hfrom : e₁.addrIndex.lookup (addr v₀) = some v₀)
    (hlen : 2 ≤ e₁.sessions.len) (hd : d ∉ e₁.sessions) (hpath : e₁.relayPaths.lookup d = some (next, hops)) :
    readyHops blake3 addr e₀ e₁ v₀ d = some (saturatingAdd hops 1).toNat := by
  have hready : readyFor v₀ d (e₁.handleRelayRequest blake3 (addr v₀) d).sends = some (saturatingAdd hops 1) := by
    rw [request_onward e₁ hfrom hlen hd hpath]
    simp [readyFor]
  rw [readyHops, hready]
  exact Engine.hopsTo_handleRelayReady e₁.ourPeerId d _

end line

/-- Both counts of `v₀` are the number of relays between it and `d`. -/
def HopCountsAgree (blake3 : Blake3) (addr : PeerId → TransportAddr) (nodes : PeerId → Engine τ) (d : PeerId)
    (a : SocketAddr) (u v₀ : PeerId) (path : List PeerId) (e₀ e₁ : Engine τ) : Prop :=
  (∀ nowMs, directoryHops blake3 addr nowMs nodes d a u v₀ path = some path.length) ∧
    readyHops blake3 addr e₀ e₁ v₀ d = some path.length

/-- **The hop counts never agree**, on a line of any number of relays and whatever the states of `v₀` and its
neighbour are when this answers. -/
theorem hop_counts_disagree (blake3 : Blake3) (addr : PeerId → TransportAddr) (nodes : PeerId → Engine τ) (d : PeerId)
    (a : SocketAddr) (u v₀ : PeerId) (path : List PeerId) (h : Line addr nodes (d :: u :: path))
    (hlast : path.getLast? = some v₀) (hnew : (nodes v₀).relayPaths.lookup d = none) (e₀ e₁ : Engine τ) :
    ¬ HopCountsAgree blake3 addr nodes d a u v₀ path e₀ e₁ := by
  rintro ⟨hdirectory, -⟩
  have hcount := (directory_hops blake3 0 a h hlast hnew).symm.trans (hdirectory 0)
  split at hcount
  · exact absurd (Option.some.inj hcount) (Nat.succ_ne_self _)
  · cases hcount

/-- On the line of four nodes: two relays between nodes 0 and 3. -/
theorem hop_counts_disagree_line : ¬ HopCountsAgree (fun _ _ => 0) exampleAddr exampleLine (.replicate 0) default
    (.replicate 1) (.replicate 3) [.replicate 2, .replicate 3] (exampleLine (.replicate 3)) (exampleLine (.replicate 2)) :=
  hop_counts_disagree (fun _ _ => 0) exampleAddr exampleLine (.replicate 0) default (.replicate 1) (.replicate 3)
    [.replicate 2, .replicate 3] exampleLine_line rfl (by decide +kernel) _ _

/-- Node 3 is two relays away from node 0, and its directory says three. -/
theorem hop_counts_differ :
    ¬ ∀ (blake3 : Blake3) (addr : PeerId → TransportAddr) (nodes : PeerId → Engine Unit) (d : PeerId) (a : SocketAddr)
      (u v₀ : PeerId) (path : List PeerId), Line addr nodes (d :: u :: path) → path.getLast? = some v₀ →
        (nodes v₀).relayPaths.lookup d = none → ∀ e₀ e₁, HopCountsAgree blake3 addr nodes d a u v₀ path e₀ e₁ := by
  intro h
  obtain ⟨hdirectory, -⟩ := h (fun _ _ => 0) exampleAddr exampleLine (.replicate 0) default (.replicate 1) (.replicate 3)
    [.replicate 2, .replicate 3] exampleLine_line rfl (by decide +kernel) (exampleLine (.replicate 3))
    (exampleLine (.replicate 2))
  exact absurd (hdirectory 0) (by decide +kernel)

end SeedNet
