import SeedNet.HandlerEffects
import SeedNet.RelayNetwork

/-! # Loops in relay forwarding

A whole run of a network of engines: sessions come up, peers are introduced, directories are
broadcast, requests, answers and relayed packets are delivered in any order or lost
(`NetAction`, `Network.next`).

Following next hops is loop-free as long as hop counts are a potential: the next hop of an entry
`(r, h)` for `d` is itself less than `h` hops from `d` (`Near`).  `Potential` says so for every table and
for everything in flight.  Directories keep it, since they only ever improve an entry.  The
handlers of `RelayReady` and, with fewer than two sessions, of `RelayRequest` write their entry whatever was
there, and hop counts saturate; `Orderly` excludes the three cases in which that breaks the potential,
and the loss of a session, which breaks it too.  `forwarding_loop_free` is the result. -/

namespace SeedNet

variable {τ : Type}

/-! ### Runs of a network -/

/-- One event in a network. -/
inductive NetAction (τ : Type) where
  /-- the packet at position `i` arrives -/
  | deliver (nowMs : UInt64) (i : ℕ)
  /-- the packet at position `i` is lost -/
  | lose (i : ℕ)
  /-- `v` completes a handshake with `w`, over UDP address `a` -/
  | complete (v w : PeerId) (initiator : Bool) (transport : τ) (a : SocketAddr)
  /-- the STUN task of `v` learns its public address -/
  | stun (v : PeerId) (a : SocketAddr) (canRelay : Bool)
  | postStunBroadcast (v : PeerId)
  | periodicBroadcast (v : PeerId)
  /-- `v` reads a packet from its TUN device -/
  | tunPacket (v : PeerId) (candidate : Option PeerId) (packet : Bytes)
  /-- a handshake of `v` with the address `a` times out -/
  | timeout (v : PeerId) (a : SocketAddr)
  /-- `v` handles the `Removed` event of `w` -/
  | removed (v w : PeerId)
  /-- the discovery loop of `v` drops a stale address -/
  | cleanup (v : PeerId) (a : SocketAddr)

/-- The nodes of a network, each at an address of its own. -/
structure Layout where
  members : List PeerId
  addr : PeerId → TransportAddr
  inj : ∀ v ∈ members, ∀ w ∈ members, addr v = addr w → v = w

variable (blake3 : Blake3) (L : Layout)

/-- What `v` sends once its handshake with `w` is complete. -/
def Engine.greetings (e : Engine τ) (w : PeerId) (initiator : Bool) (a : SocketAddr) : List Send :=
  e.sendSessionInit w (.udp a) ++ e.announce w (.udp a) ++
    if initiator then e.initiatorDirectories w a else []

namespace Network

/-- `v` changes its state and sends. -/
def act (net : Network τ) (v : PeerId) (r : Reaction τ) : Network τ where
  nodes := Function.update net.nodes v r.engine
  inFlight := net.inFlight ++ packetsOf v r.engine 0 r.sends

def next (net : Network τ) : NetAction τ → Network τ
  | .deliver nowMs i => net.deliver blake3 L.addr nowMs i
  | .lose i => { net with inFlight := net.inFlight.eraseIdx i }
  | .complete v w initiator transport a =>
    -- a handshake connects two different nodes, each at its own address
    if v ∈ L.members ∧ w ∈ L.members ∧ v ≠ w ∧ L.addr w = .udp a then
      let e := (net.nodes v).complete blake3 w transport (.udp a)
      net.act v { engine := e, sends := e.greetings w initiator a }
    else net
  | .stun v a canRelay =>
    net.act v { engine := { net.nodes v with stunAddr := some a, canRelayFlag := canRelay } }
  | .postStunBroadcast v =>
    net.act v { engine := net.nodes v, sends := (net.nodes v).postStunBroadcast }
  | .periodicBroadcast v =>
    net.act v { engine := net.nodes v, sends := (net.nodes v).periodicBroadcast }
  | .tunPacket v candidate packet => net.act v ((net.nodes v).handleTunPacket candidate packet)
  | .timeout v a => net.act v { engine := net.nodes v, sends := (net.nodes v).timeoutRequests a }
  | .removed v w =>
    match (net.nodes v).sessions.lookup w with
    | some s => net.act v { engine := ((net.nodes v).removeSession w).removeAddrIndex s.underlay }
    | none => net
  | .cleanup v a =>
    match (net.nodes v).addrIndex.lookup (.udp a) with
    | some p => if p ∈ (net.nodes v).sessions then net
        else net.act v { engine := (net.nodes v).removeAddrIndex (.udp a) }
    | none => net

end Network

/-- Every engine has just started. -/
structure Network.Initial (net : Network τ) : Prop where
  ourPeerId : ∀ v, (net.nodes v).ourPeerId = v
  sessions : ∀ v, (net.nodes v).sessions = ∅
  addrIndex : ∀ v, (net.nodes v).addrIndex = ∅
  relayPaths : ∀ v, (net.nodes v).relayPaths = ∅
  inFlight : net.inFlight = []

/-! ### Distances -/

namespace Engine

/-- `d` is a neighbour, or at most `k` hops away by the engine's own table. -/
def Near (e : Engine τ) (d : PeerId) (k : ℕ) : Prop :=
  d ∈ e.sessions ∨ ∃ r h, e.relayPaths.lookup d = some (r, h) ∧ h.toNat ≤ k

/-- Nothing is further away than before. -/
def Closer (e e' : Engine τ) : Prop := ∀ d k, e.Near d k → e'.Near d k

/-- Every entry of a directory is true of the engine. -/
def Knows (e : Engine τ) (entries : List DirectoryEntry) : Prop :=
  ∀ k ∈ entries, e.Near k.1 k.2.2.toNat

/-- What the engine says about distances is true of its own table. -/
def Truthful (e : Engine τ) : Message → Prop
  | .peerDirectory entries => e.Knows entries
  | .relayReady r d h => r = e.ourPeerId ∧ ∃ k < h.toNat, e.Near d k
  | .relayData .. => False
  | _ => True

variable {e e' e'' : Engine τ} {d : PeerId} {k : ℕ}

theorem Closer.refl (e : Engine τ) : e.Closer e := fun _ _ h => h

theorem Closer.trans (h : e.Closer e') (h' : e'.Closer e'') : e.Closer e'' := fun d k hk => h' d k (h d k hk)

/-- Only sessions and paths matter. -/
theorem closer_of_eq (hs : e'.sessions = e.sessions) (hp : e'.relayPaths = e.relayPaths) : e.Closer e' := by
  intro d k hk
  unfold Near at hk ⊢
  rwa [hs, hp]

/-- A session or path is kept, or a path gets shorter. -/
theorem closer_of_lookup (hs : ∀ d ∈ e.sessions, d ∈ e'.sessions)
    (hp : ∀ d r h, e.relayPaths.lookup d = some (r, h) →
      d ∈ e'.sessions ∨ ∃ r' h', e'.relayPaths.lookup d = some (r', h') ∧ h'.toNat ≤ h.toNat) :
    e.Closer e' := by
  rintro d k (hd | ⟨r, h, hl, hk⟩)
  · exact .inl (hs d hd)
  · exact (hp d r h hl).imp id fun ⟨r', h', hl', hle⟩ => ⟨r', h', hl', hle.trans hk⟩

theorem Truthful.closer (hc : e.Closer e') (hid : e'.ourPeerId = e.ourPeerId) {msg : Message}
    (h : e.Truthful msg) : e'.Truthful msg := by
  cases msg with
  | peerDirectory entries => exact fun k hk => hc _ _ (h k hk)
  | relayReady r d n =>
      obtain ⟨rfl, k, hk, hn⟩ := h
      exact ⟨hid.symm, k, hk, hc _ _ hn⟩
  | _ => exact h

/-! ### What an engine says about distances -/

theorem one_toNat : (1 : UInt8).toNat = 1 := rfl

theorem knows_directPeers (skip : PeerId) : e.Knows (e.directPeers skip) := by
  intro k hk
  obtain ⟨s, hs, hk⟩ := List.mem_filterMap.mp hk
  have hmem : s.1 ∈ e.sessions := AList.mem_keys.mpr (List.mem_keys_of_mem hs)
  split at hk
  · split_ifs at hk
    cases hk
    exact .inl hmem
  · cases hk

theorem knows_allDirectPeers : e.Knows e.allDirectPeers := by
  intro k hk
  obtain ⟨s, hs, hk⟩ := List.mem_filterMap.mp hk
  have hmem : s.1 ∈ e.sessions := AList.mem_keys.mpr (List.mem_keys_of_mem hs)
  split at hk
  · cases hk
    exact .inl hmem
  · cases hk

theorem knows_relayedPeers (skip : PeerId) (known : List DirectoryEntry) :
    e.Knows (e.relayedPeers skip known) := by
  intro k hk
  obtain ⟨r, hr, hk⟩ := List.mem_filterMap.mp hk
  split_ifs at hk
  simp only [Option.bind_eq_some_iff, Option.map_eq_some_iff] at hk
  obtain ⟨p, -, a, -, rfl⟩ := hk
  exact .inr ⟨r.2.1, r.2.2, AList.mem_lookup_iff.mpr hr, le_refl _⟩

theorem Knows.append {as bs : List DirectoryEntry} (ha : e.Knows as) (hb : e.Knows bs) :
    e.Knows (as ++ bs) := fun k hk => (List.mem_append.mp hk).elim (ha k) (hb k)

theorem Knows.neighbour {p : PeerId} (h : p ∈ e.sessions) (a : SocketAddr) : e.Knows [(p, a, 1)] := by
  intro k hk
  rw [List.mem_singleton] at hk
  subst hk
  exact .inl h

/-- All messages of a list are truthful. -/
def TruthfulSends (e : Engine τ) (sends : List Send) : Prop := ∀ s ∈ sends, e.Truthful s.msg

theorem truthful_nil : e.TruthfulSends [] := by simp [TruthfulSends]

theorem TruthfulSends.append {as bs : List Send} (ha : e.TruthfulSends as) (hb : e.TruthfulSends bs) :
    e.TruthfulSends (as ++ bs) := fun s hs => (List.mem_append.mp hs).elim (ha s) (hb s)

theorem truthful_tellPeer {entries : List DirectoryEntry} (h : e.Knows entries) (p : PeerId)
    (a : Option TransportAddr) : e.TruthfulSends (tellPeer p entries a) := by
  unfold tellPeer
  split_ifs
  · exact truthful_nil
  · simpa [TruthfulSends, Truthful] using h

theorem truthful_tellOthers {entries : List DirectoryEntry} (h : e.Knows entries) (skip : PeerId) :
    e.TruthfulSends (e.tellOthers skip entries) := by
  intro s hs
  obtain ⟨p, -, rfl⟩ := List.mem_map.mp hs
  exact h

theorem truthful_tellAll {entries : List DirectoryEntry} (h : e.Knows entries) :
    e.TruthfulSends (e.tellAll entries) := by
  intro s hs
  obtain ⟨p, -, hs⟩ := List.mem_flatMap.mp hs
  exact truthful_tellPeer (fun k hk => h k (List.mem_of_mem_filter hk)) p none s hs

theorem truthful_greetings {w : PeerId} (hw : w ∈ e.sessions) (initiator : Bool) (a : SocketAddr) :
    e.TruthfulSends (e.greetings w initiator a) := by
  refine (TruthfulSends.append ?_ ?_).append ?_
  · simp [TruthfulSends, sendSessionInit, sessionInit, Truthful]
  · unfold announce
    split
    · simp [TruthfulSends, Truthful]
    · exact truthful_nil
  · split_ifs
    · unfold initiatorDirectories
      split
      · exact (truthful_tellPeer (knows_directPeers w) _ _).append
          (truthful_tellOthers (.neighbour hw a) w)
      · exact truthful_nil
    · exact truthful_nil

theorem truthful_introduce {p : PeerId} (hp : p ∈ e.sessions) (fromAddr : TransportAddr) :
    e.TruthfulSends (e.introduce p fromAddr) := by
  unfold introduce
  split
  · split_ifs
    · exact (truthful_tellPeer ((knows_directPeers p).append (knows_relayedPeers p _)) _ _).append
        (truthful_tellOthers (.neighbour hp _) p)
    · exact truthful_nil
  · exact truthful_nil

theorem truthful_postStunBroadcast : e.TruthfulSends e.postStunBroadcast := by
  unfold postStunBroadcast
  split_ifs
  · exact truthful_nil
  · exact truthful_tellAll (knows_allDirectPeers.append (knows_relayedPeers _ _))

theorem truthful_periodicBroadcast : e.TruthfulSends e.periodicBroadcast := by
  unfold periodicBroadcast
  split
  · split_ifs
    · exact truthful_nil
    · exact truthful_tellAll knows_allDirectPeers
  · exact truthful_nil

/-! ### What directories do to the table -/

variable {blake3 : Blake3}

/-- After a directory of `rid`, an entry is what it was or comes from the directory, and no path got
longer. -/
structure Learned (rid : PeerId) (entries : List DirectoryEntry) (e e' : Engine τ) : Prop where
  origin : ∀ d r h, e'.relayPaths.lookup d = some (r, h) → e.relayPaths.lookup d = some (r, h) ∨
    r = rid ∧ ∃ k ∈ entries, k.1 = d ∧ h = saturatingAdd k.2.2 1
  closer : e.Closer e'

theorem Learned.trans {rid : PeerId} {as bs : List DirectoryEntry} (h : Learned rid as e e')
    (h' : Learned rid bs e' e'') : Learned rid (as ++ bs) e e'' where
  origin d r n hl := by
    rcases h'.origin d r n hl with hl' | ⟨hr, k, hk, hkd⟩
    · refine (h.origin d r n hl').imp id fun ⟨hr, k, hk, hkd⟩ => ⟨hr, k, List.mem_append_left _ hk, hkd⟩
    · exact .inr ⟨hr, k, List.mem_append_right _ hk, hkd⟩
  closer := h.closer.trans h'.closer

variable (blake3) in
/-- One entry: the path is taken if it is better, and either way the peer is now known to be near. -/
theorem directoryEntry_learned (rid : PeerId) (entry : DirectoryEntry) :
    Learned rid [entry] e (e.directoryEntry blake3 rid entry).1 ∧
      (entry.1 ≠ e.ourPeerId →
        (e.directoryEntry blake3 rid entry).1.Near entry.1 (saturatingAdd entry.2.2 1).toNat) := by
  obtain ⟨pid, pubAddr, hopCount⟩ := entry
  unfold directoryEntry
  dsimp only
  by_cases hour : pid = e.ourPeerId
  · rw [if_pos hour]
    exact ⟨⟨fun _ _ _ h => .inl h, .refl e⟩, fun h => absurd hour h⟩
  rw [if_neg hour]
  by_cases hs : pid ∈ e.sessions
  · rw [if_pos hs]
    exact ⟨⟨fun _ _ _ h => .inl h, closer_of_eq rfl rfl⟩, fun _ => .inl hs⟩
  rw [if_neg hs]
  have hinsert : ∀ d, (e.relayPaths.insert pid (rid, saturatingAdd hopCount 1)).lookup d =
      if d = pid then some (rid, saturatingAdd hopCount 1) else e.relayPaths.lookup d := by
    intro d
    by_cases hd : d = pid
    · rw [if_pos hd, hd, AList.lookup_insert]
    · rw [if_neg hd, AList.lookup_insert_ne hd]
  have horigin : ∀ d r h, (e.relayPaths.insert pid (rid, saturatingAdd hopCount 1)).lookup d = some (r, h) →
      e.relayPaths.lookup d = some (r, h) ∨
        r = rid ∧ ∃ k ∈ [(pid, pubAddr, hopCount)], k.1 = d ∧ h = saturatingAdd k.2.2 1 := by
    intro d r h hl
    rw [hinsert] at hl
    split_ifs at hl with hd
    · cases hl
      exact .inr ⟨rfl, _, List.mem_singleton.mpr rfl, hd.symm, rfl⟩
    · exact .inl hl
  cases hl : e.relayPaths.lookup pid with
  | none =>
      refine ⟨⟨horigin, closer_of_lookup (fun _ h => h) fun d r h hd => .inr ⟨r, h, ?_, le_refl _⟩⟩,
        fun _ => .inr ⟨rid, saturatingAdd hopCount 1, ?_, le_refl _⟩⟩
      · have hne : d ≠ pid := fun he => by rw [he, hl] at hd; cases hd
        exact (hinsert d).trans (by rw [if_neg hne, hd])
      · exact (hinsert pid).trans (if_pos rfl)
  | some existing =>
      by_cases hlt : saturatingAdd hopCount 1 < existing.2
      · simp only [hlt, decide_true, if_true]
        refine ⟨⟨horigin, closer_of_lookup (fun _ h => h) fun d r h hd => .inr ?_⟩,
          fun _ => .inr ⟨rid, saturatingAdd hopCount 1, (hinsert pid).trans (if_pos rfl), le_refl _⟩⟩
        by_cases hne : d = pid
        · subst hne
          rw [hl] at hd
          cases hd
          exact ⟨rid, _, (hinsert d).trans (if_pos rfl), (UInt8.lt_iff_toNat_lt.mp hlt).le⟩
        · exact ⟨r, h, (hinsert d).trans (by rw [if_neg hne, hd]), le_refl _⟩
      · simp only [hlt, decide_false]
        exact ⟨⟨fun _ _ _ h => .inl h, closer_of_eq rfl rfl⟩, fun _ =>
          .inr ⟨existing.1, existing.2, hl, UInt8.le_iff_toNat_le.mp (UInt8.not_lt.mp hlt)⟩⟩

variable (blake3) in
theorem directoryEntries_learned (rid : PeerId) (entries : List DirectoryEntry) (e : Engine τ) :
    Learned rid entries e (directoryEntries blake3 rid e entries).1 ∧
      ∀ k ∈ entries, k.1 ≠ e.ourPeerId →
        (directoryEntries blake3 rid e entries).1.Near k.1 (saturatingAdd k.2.2 1).toNat := by
  induction entries generalizing e with
  | nil => exact ⟨⟨fun _ _ _ h => .inl h, .refl e⟩, by simp⟩
  | cons entry entries ih =>
      obtain ⟨h1, hnear⟩ := directoryEntry_learned (e := e) blake3 rid entry
      obtain ⟨h2, hnears⟩ := ih (e.directoryEntry blake3 rid entry).1
      have hour := (directoryEntry_frame (e := e) blake3 rid entry).ourPeerId
      refine ⟨h1.trans h2, fun k hk hne => ?_⟩
      rcases List.mem_cons.mp hk with rfl | hk
      · exact h2.closer _ _ (hnear hne)
      · exact hnears k hk (by rw [hour]; exact hne)

end Engine

/-! ### Hop counts are a potential -/

/-- `d` is relayed by `v` through `w`. -/
def Follow (net : Network τ) (d v w : PeerId) : Prop :=
  d ∉ (net.nodes v).sessions ∧ ∃ h, (net.nodes v).relayPaths.lookup d = some (w, h)

/-- A relayed packet that will be passed on at most 255 times. -/
def Bounded (nodes : PeerId → Engine τ) (p : Packet) : Prop :=
  ∃ src d payload, p.msg = .relayData src d payload ∧ p.forwards ≤ 255 ∧
    (p.dst = d ∨ ∃ k, (nodes p.dst).Near d k ∧ p.forwards + k ≤ 254)

/-- Hop counts are a potential, in every table and in flight. -/
structure Potential (L : Layout) (net : Network τ) : Prop where
  ourPeerId : ∀ v, (net.nodes v).ourPeerId = v
  member : ∀ v, ∀ w ∈ (net.nodes v).sessions, v ∈ L.members
  index : ∀ v a p, (net.nodes v).addrIndex.lookup a = some p → a = L.addr p ∧ p ∈ L.members
  paths : ∀ v d r h, (net.nodes v).relayPaths.lookup d = some (r, h) →
    ∃ k < h.toNat, (net.nodes r).Near d k
  src : ∀ p ∈ net.inFlight, p.src ∈ L.members
  flight : ∀ p ∈ net.inFlight, (net.nodes p.src).Truthful p.msg ∨ Bounded net.nodes p

/-- The arrival of `p` does not break the potential. -/
def OrderlyPacket (net : Network τ) (p : Packet) : Prop :=
  match p.msg with
  -- no hop count saturates
  | .peerDirectory entries => ∀ k ∈ entries, k.2.2 ≠ 255
  | .relayRequest d =>
    if 2 ≤ (net.nodes p.dst).sessions.len then ∀ q ∈ (net.nodes p.dst).relayPaths.lookup d, q.2 ≠ 255
    -- a node with fewer than two sessions hears of `d` from a neighbour of `d`
    else d ∈ (net.nodes p.src).sessions
  -- no answer lengthens the path that its receiver has
  | .relayReady _ d h => d ∈ (net.nodes p.dst).sessions ∨
    ∀ q ∈ (net.nodes p.dst).relayPaths.lookup d, h ≤ q.2
  | _ => True

/-- The event does not break the potential: packets arrive in order, and no session goes away. -/
def Orderly (net : Network τ) : NetAction τ → Prop
  | .deliver _ i => ∀ p ∈ net.inFlight[i]?, OrderlyPacket net p
  | .removed v w => w ∉ (net.nodes v).sessions
  | _ => True

instance (net : Network τ) : ∀ p, Decidable (OrderlyPacket net p)
  | ⟨_, _, .peerDirectory entries, _⟩ => inferInstanceAs (Decidable (∀ k ∈ entries, k.2.2 ≠ 255))
  | ⟨src, dst, .relayRequest d, _⟩ =>
      inferInstanceAs (Decidable (if 2 ≤ (net.nodes dst).sessions.len then
        ∀ q ∈ (net.nodes dst).relayPaths.lookup d, q.2 ≠ 255 else d ∈ (net.nodes src).sessions))
  | ⟨_, dst, .relayReady _ d h, _⟩ =>
      inferInstanceAs (Decidable (d ∈ (net.nodes dst).sessions ∨
        ∀ q ∈ (net.nodes dst).relayPaths.lookup d, h ≤ q.2))
  | ⟨_, _, .data _, _⟩ | ⟨_, _, .heartbeat, _⟩ | ⟨_, _, .ping _, _⟩ | ⟨_, _, .pong _, _⟩
  | ⟨_, _, .sessionInit .., _⟩ | ⟨_, _, .holePunchProbe _, _⟩ | ⟨_, _, .holePunchAck _, _⟩
  | ⟨_, _, .relayData .., _⟩ | ⟨_, _, .relayAnnounce .., _⟩ => inferInstanceAs (Decidable True)

instance (net : Network τ) : ∀ a, Decidable (Orderly net a)
  | .deliver _ i => inferInstanceAs (Decidable (∀ p ∈ net.inFlight[i]?, OrderlyPacket net p))
  | .removed _ _ => inferInstanceAs (Decidable (_ ∉ _))
  | .lose _ | .complete .. | .stun .. | .postStunBroadcast _ | .periodicBroadcast _ | .tunPacket ..
  | .timeout .. | .cleanup .. => inferInstanceAs (Decidable True)

variable {L}

/-- Each next hop is nearer to the destination than the hop count of the entry says. -/
theorem Potential.near_of_follow {net : Network τ} (hp : Potential L net) {d v w : PeerId}
    (h : Relation.TransGen (Follow net d) v w) {r : PeerId} {n : UInt8}
    (hl : (net.nodes v).relayPaths.lookup d = some (r, n)) : ∃ k < n.toNat, (net.nodes w).Near d k := by
  induction h with
  | single hw =>
      obtain ⟨-, m, hm⟩ := hw
      rw [hl] at hm
      cases hm
      exact hp.paths v d r n hl
  | tail _ hw ih =>
      obtain ⟨k, hk, hnear⟩ := ih
      obtain ⟨hns, m, hm⟩ := hw
      rcases hnear with hs | ⟨r', h', hl', hle⟩
      · exact absurd hs hns
      · rw [hm] at hl'
        cases hl'
        obtain ⟨k', hk', hnear'⟩ := hp.paths _ d _ _ hm
        exact ⟨k', by omega, hnear'⟩

theorem Potential.loop_free {net : Network τ} (hp : Potential L net) (d v : PeerId) :
    ¬ Relation.TransGen (Follow net d) v v := by
  intro h
  obtain ⟨w, ⟨hns, n, hl⟩, -⟩ := Relation.TransGen.head'_iff.mp h
  obtain ⟨k, hk, hs | ⟨r', h', hl', hle⟩⟩ := hp.near_of_follow h hl
  · exact hns hs
  · rw [hl] at hl'
    cases hl'
    omega

theorem Network.Initial.potential {net : Network τ} (h : net.Initial) : Potential L net where
  ourPeerId := h.ourPeerId
  member v w hw := by rw [h.sessions v] at hw; simp at hw
  index v a p hl := by rw [h.addrIndex v] at hl; simp at hl
  paths v d r n hl := by rw [h.relayPaths v] at hl; simp at hl
  src p hp := by rw [h.inFlight] at hp; simp at hp
  flight p hp := by rw [h.inFlight] at hp; simp at hp

/-- What the node `v` may do without breaking the potential. -/
structure Safe (L : Layout) (nodes : PeerId → Engine τ) (v : PeerId) (e : Engine τ) : Prop where
  ourPeerId : e.ourPeerId = v
  closer : (nodes v).Closer e
  member : ∀ w ∈ e.sessions, v ∈ L.members
  index : ∀ a p, e.addrIndex.lookup a = some p → a = L.addr p ∧ p ∈ L.members
  paths : ∀ d r h, e.relayPaths.lookup d = some (r, h) → ∃ k < h.toNat, (nodes r).Near d k

/-- A safe change of one node, with safe messages, keeps the potential. -/
theorem Potential.update {net : Network τ} (hp : Potential L net) {v : PeerId} {e : Engine τ}
    (hs : Safe L net.nodes v e) {rest : List Packet} (hrest : ∀ p ∈ rest, p ∈ net.inFlight)
    {forwards : ℕ} {sends : List Send}
    (hsends : ∀ p ∈ packetsOf v e forwards sends, e.Truthful p.msg ∨ Bounded net.nodes p) :
    Potential L { nodes := Function.update net.nodes v e, inFlight := rest ++ packetsOf v e forwards sends } := by
  have hcloser : ∀ w, (net.nodes w).Closer (Function.update net.nodes v e w) := by
    intro w
    by_cases hw : w = v
    · subst hw
      rw [Function.update_self]
      exact hs.closer
    · rw [Function.update_of_ne hw]
      exact .refl _
  have hour : ∀ w, (Function.update net.nodes v e w).ourPeerId = w := by
    intro w
    by_cases hw : w = v
    · subst hw
      rw [Function.update_self]
      exact hs.ourPeerId
    · rw [Function.update_of_ne hw]
      exact hp.ourPeerId w
  have hbounded : ∀ p, Bounded net.nodes p → Bounded (Function.update net.nodes v e) p := by
    rintro p ⟨src, d, payload, hmsg, hf, hd⟩
    exact ⟨src, d, payload, hmsg, hf, hd.imp id fun ⟨k, hk, hle⟩ => ⟨k, hcloser _ _ _ hk, hle⟩⟩
  refine ⟨hour, fun w => ?_, fun w => ?_, fun w d r n hl => ?_, fun p hpf => ?_, fun p hpf => ?_⟩
  · by_cases hw : w = v
    · subst hw
      simp only [Function.update_self]
      exact hs.member
    · simp only [Function.update_of_ne hw]
      exact hp.member w
  · by_cases hw : w = v
    · subst hw
      simp only [Function.update_self]
      exact hs.index
    · simp only [Function.update_of_ne hw]
      exact hp.index w
  · have hold : ∃ k < n.toNat, (net.nodes r).Near d k := by
      by_cases hw : w = v
      · subst hw
        simp only [Function.update_self] at hl
        exact hs.paths d r n hl
      · simp only [Function.update_of_ne hw] at hl
        exact hp.paths w d r n hl
    obtain ⟨k, hk, hnear⟩ := hold
    exact ⟨k, hk, hcloser r d k hnear⟩
  · rcases List.mem_append.mp hpf with hpf | hpf
    · exact hp.src p (hrest p hpf)
    · obtain ⟨s, -, hpeer, rfl⟩ := mem_packetsOf.mp hpf
      exact hs.member s.peer hpeer
  · rcases List.mem_append.mp hpf with hpf | hpf
    · refine (hp.flight p (hrest p hpf)).imp (fun ht => ?_) (hbounded p)
      exact ht.closer (hcloser _) ((hour _).trans (hp.ourPeerId _).symm)
    · refine (hsends p hpf).imp (fun ht => ?_) (hbounded p)
      obtain ⟨s, -, -, rfl⟩ := mem_packetsOf.mp hpf
      simpa using ht

/-! ### One event -/

variable {net : Network τ} {v : PeerId}

/-- The node as it is. -/
theorem Potential.safe (hp : Potential L net) (v : PeerId) : Safe L net.nodes v (net.nodes v) :=
  ⟨hp.ourPeerId v, .refl _, hp.member v, hp.index v, hp.paths v⟩

/-- Changes outside sessions, addresses and paths are safe. -/
theorem Safe.of_eq {e e' : Engine τ} (h : Safe L net.nodes v e) (hid : e'.ourPeerId = e.ourPeerId)
    (hs : e'.sessions = e.sessions) (hi : e'.addrIndex = e.addrIndex) (hp : e'.relayPaths = e.relayPaths) :
    Safe L net.nodes v e' where
  ourPeerId := hid.trans h.ourPeerId
  closer := h.closer.trans (Engine.closer_of_eq hs hp)
  member := by rw [hs]; exact h.member
  index := by rw [hi]; exact h.index
  paths := by rw [hp]; exact h.paths

/-- A handler leaves the sessions alone, so only its changes to paths matter. -/
theorem Potential.safe_of_frame (hp : Potential L net) {e : Engine τ} (hf : (net.nodes v).Frame e)
    (hc : (net.nodes v).Closer e)
    (hpaths : ∀ d r h, e.relayPaths.lookup d = some (r, h) → ∃ k < h.toNat, (net.nodes r).Near d k) :
    Safe L net.nodes v e where
  ourPeerId := hf.ourPeerId.trans (hp.ourPeerId v)
  closer := hc
  member := by rw [hf.sessions]; exact hp.member v
  index := by rw [hf.addrIndex]; exact hp.index v
  paths := hpaths

theorem saturatingAdd_one {h : UInt8} (hne : h ≠ 255) : (saturatingAdd h 1).toNat = h.toNat + 1 := by
  have h255 : h.toNat ≠ 255 := fun he => hne (UInt8.toNat_inj.mp he)
  have hlt := h.toNat_lt
  have hsum : h.toNat + (1 : UInt8).toNat < 256 := by rw [Engine.one_toNat]; omega
  rw [saturatingAdd, if_pos hsum, UInt8.toNat_add, Engine.one_toNat]
  omega

/-- One path is written, no longer than the one it replaces. -/
theorem closer_insert {e e' : Engine τ} {d r : PeerId} {h : UInt8} (hs : e'.sessions = e.sessions)
    (hp : e'.relayPaths = e.relayPaths.insert d (r, h))
    (hle : d ∈ e.sessions ∨ ∀ q ∈ e.relayPaths.lookup d, h.toNat ≤ q.2.toNat) : e.Closer e' := by
  refine Engine.closer_of_lookup (by rw [hs]; exact fun _ hd => hd) fun x r' h' hl => ?_
  by_cases hx : x = d
  · subst hx
    refine hle.imp (fun hd => by rw [hs]; exact hd) fun hle => ?_
    exact ⟨r, h, by rw [hp, AList.lookup_insert], hle (r', h') hl⟩
  · exact .inr ⟨r', h', by rw [hp, AList.lookup_insert_ne hx]; exact hl, le_refl _⟩

/-- The paths after one has been written. -/
theorem Potential.paths_insert (hp : Potential L net) {e' : Engine τ} {d r : PeerId} {h : UInt8}
    (he : e'.relayPaths = (net.nodes v).relayPaths.insert d (r, h))
    (hnear : ∃ k < h.toNat, (net.nodes r).Near d k) :
    ∀ x r' h', e'.relayPaths.lookup x = some (r', h') → ∃ k < h'.toNat, (net.nodes r').Near x k := by
  intro x r' h' hl
  rw [he] at hl
  by_cases hx : x = d
  · subst hx
    rw [AList.lookup_insert] at hl
    cases hl
    exact hnear
  · rw [AList.lookup_insert_ne hx] at hl
    exact hp.paths v x r' h' hl

/-- A reaction that keeps the potential. -/
structure SafeReaction (L : Layout) (nodes : PeerId → Engine τ) (v : PeerId) (forwards : ℕ)
    (r : Reaction τ) : Prop where
  engine : Safe L nodes v r.engine
  sends : ∀ q ∈ packetsOf v r.engine forwards r.sends, r.engine.Truthful q.msg ∨ Bounded nodes q

theorem Safe.reaction {r : Reaction τ} (h : Safe L net.nodes v r.engine)
    (hs : r.engine.TruthfulSends r.sends) (forwards : ℕ) : SafeReaction L net.nodes v forwards r where
  engine := h
  sends q hq := by
    obtain ⟨s, hmem, -, rfl⟩ := mem_packetsOf.mp hq
    exact .inl (hs s hmem)

theorem Potential.peerDirectory (hp : Potential L net) {fromAddr : TransportAddr} {rid : PeerId}
    (hfrom : (net.nodes v).addrIndex.lookup fromAddr = some rid) {entries : List DirectoryEntry}
    (htrue : (net.nodes rid).Knows entries) (hsat : ∀ k ∈ entries, k.2.2 ≠ 255) (forwards : ℕ) :
    SafeReaction L net.nodes v forwards ((net.nodes v).handlePeerDirectory blake3 fromAddr entries) := by
  obtain ⟨hl, hnear⟩ := Engine.directoryEntries_learned blake3 rid entries (net.nodes v)
  have hf := Engine.directoryEntries_frame blake3 rid entries (net.nodes v)
  have hreq := Engine.directoryEntries_sends blake3 rid entries (net.nodes v)
  unfold Engine.handlePeerDirectory
  simp only [hfrom]
  generalize Engine.directoryEntries blake3 rid (net.nodes v) entries = r at hl hnear hf hreq ⊢
  obtain ⟨e, sends⟩ := r
  dsimp only at hl hnear hf hreq ⊢
  have hsafe : Safe L net.nodes v e := by
    refine hp.safe_of_frame hf hl.closer fun d r h hd => ?_
    rcases hl.origin d r h hd with hold | ⟨rfl, k, hk, rfl, rfl⟩
    · exact hp.paths v d r h hold
    · exact ⟨k.2.2.toNat, by rw [saturatingAdd_one (hsat k hk)]; omega, htrue k hk⟩
  have hsends : e.TruthfulSends sends := fun s hs => by
    obtain ⟨d, hd⟩ := hreq s hs
    rw [hd]
    exact trivial
  have hknows : e.Knows (e.rebroadcast entries) := by
    intro k hk
    obtain ⟨k', hk', rfl⟩ := List.mem_map.mp hk
    simp only [List.mem_filter, decide_eq_true_eq] at hk'
    exact hnear k' hk'.1 (by rw [← hf.ourPeerId]; exact hk'.2.1)
  split_ifs
  · exact Safe.reaction (r := { engine := e, sends := _ }) hsafe
      (hsends.append (Engine.truthful_tellOthers hknows rid)) forwards
  · exact Safe.reaction (r := { engine := e, sends := sends }) hsafe hsends forwards

theorem Potential.relayRequest (hp : Potential L net) {fromAddr : TransportAddr} {reqId : PeerId}
    (hfrom : (net.nodes v).addrIndex.lookup fromAddr = some reqId) (hreq : reqId ∈ (net.nodes v).sessions)
    {d : PeerId}
    (hord : if 2 ≤ (net.nodes v).sessions.len then ∀ q ∈ (net.nodes v).relayPaths.lookup d, q.2 ≠ 255
      else d ∈ (net.nodes reqId).sessions) (forwards : ℕ) :
    SafeReaction L net.nodes v forwards ((net.nodes v).handleRelayRequest blake3 fromAddr d) := by
  unfold Engine.handleRelayRequest
  simp only [hfrom]
  by_cases hlen : 2 ≤ (net.nodes v).sessions.len
  · rw [if_pos hlen] at hord ⊢
    by_cases hd : d ∈ (net.nodes v).sessions
    · rw [if_pos hd]
      refine Safe.reaction (r := { engine := _, sends := _ }) (hp.safe v) (fun s hs => ?_) forwards
      simp only [List.mem_cons, List.not_mem_nil, or_false] at hs
      rcases hs with rfl | rfl
      · exact ⟨rfl, 0, by decide, .inl hd⟩
      · exact ⟨rfl, 0, by decide, .inl hreq⟩
    · rw [if_neg hd]
      cases hl : (net.nodes v).relayPaths.lookup d with
      | none => exact (hp.safe v).reaction (r := { engine := _ }) Engine.truthful_nil forwards
      | some path =>
          obtain ⟨nx, hops⟩ := path
          have hne : hops ≠ 255 := hord (nx, hops) hl
          refine Safe.reaction (r := { engine := _, sends := _ }) (hp.safe v) (fun s hs => ?_) forwards
          simp only [List.mem_cons, List.not_mem_nil, or_false] at hs
          rcases hs with rfl | rfl
          · exact ⟨rfl, hops.toNat, by rw [saturatingAdd_one hne]; omega, .inr ⟨nx, hops, hl, le_refl _⟩⟩
          · exact trivial
  · rw [if_neg hlen] at hord ⊢
    refine Safe.reaction (r := { engine := _ }) ?_ Engine.truthful_nil forwards
    refine hp.safe_of_frame ⟨rfl, rfl, rfl, rfl, rfl, rfl⟩ (closer_insert rfl rfl (.inr fun q hq => ?_))
      (hp.paths_insert rfl ⟨0, by decide, .inl hord⟩)
    obtain ⟨k, hk, -⟩ := hp.paths v d q.1 q.2 hq
    rw [Engine.one_toNat]
    omega

theorem Potential.relayReady (hp : Potential L net) {r d : PeerId} {h : UInt8}
    (htrue : (net.nodes r).Truthful (.relayReady r d h))
    (hord : d ∈ (net.nodes v).sessions ∨ ∀ q ∈ (net.nodes v).relayPaths.lookup d, h ≤ q.2) (forwards : ℕ) :
    SafeReaction L net.nodes v forwards ((net.nodes v).handleRelayReady blake3 r d h) := by
  refine Safe.reaction ?_ Engine.truthful_nil forwards
  exact hp.safe_of_frame ⟨rfl, rfl, rfl, rfl, rfl, rfl⟩
    (closer_insert rfl rfl (hord.imp id fun hle q hq => UInt8.le_iff_toNat_le.mp (hle q hq)))
    (hp.paths_insert rfl htrue.2)

/-- A relayed packet gets one hop nearer, or reaches its destination. -/
theorem Potential.relayData (hp : Potential L net) {src d : PeerId} {payload : Bytes} {p : Packet}
    (hmsg : p.msg = .relayData src d payload) (hb : Bounded net.nodes p) :
    SafeReaction L net.nodes p.dst p.passOn ((net.nodes p.dst).handleRelayData src d payload) := by
  have heng := (net.nodes p.dst).handleRelayData_engine src d payload
  refine ⟨by rw [heng]; exact hp.safe p.dst, fun q hq => .inr ?_⟩
  obtain ⟨src', d', payload', hmsg', hf, hd⟩ := hb
  rw [hmsg] at hmsg'
  cases hmsg'
  have hpass : p.passOn = p.forwards + 1 := by rw [Packet.passOn, hmsg]
  obtain ⟨s, hs, -, rfl⟩ := mem_packetsOf.mp hq
  unfold Engine.handleRelayData at hs
  split at hs
  · split at hs <;> simp at hs
  · next hnot =>
    rw [not_or, hp.ourPeerId] at hnot
    obtain ⟨k, hk, hle⟩ := hd.resolve_left fun he => hnot.1 he.symm
    split at hs
    · rw [List.mem_singleton] at hs
      subst hs
      exact ⟨src, d, payload, rfl, by dsimp only; omega, .inl rfl⟩
    · next hns =>
      split at hs
      · next nx hops hl =>
        rw [List.mem_singleton] at hs
        subst hs
        rcases hk with hsess | ⟨r', h', hl', hle'⟩
        · exact absurd hsess hns
        · rw [hl] at hl'
          cases hl'
          obtain ⟨k', hk', hnear⟩ := hp.paths p.dst d nx hops hl
          exact ⟨src, d, payload, rfl, by dsimp only; omega, .inr ⟨k', hnear, by dsimp only; omega⟩⟩
      · simp at hs

theorem Potential.sessionInit (hp : Potential L net) {fromAddr : TransportAddr} {peerId : PeerId}
    (hfrom : (net.nodes v).addrIndex.lookup fromAddr = some peerId)
    (hsess : peerId ∈ (net.nodes v).sessions) (overlay : OverlayAddr) (overlayIpv6 : Option Ipv6Addr)
    (hostname : String) (publicAddr : Option SocketAddr) (forwards : ℕ) :
    SafeReaction L net.nodes v forwards
      ((net.nodes v).handleSessionInit fromAddr overlay overlayIpv6 hostname publicAddr) := by
  unfold Engine.handleSessionInit
  simp only [hfrom]
  refine Safe.reaction ((hp.safe v).of_eq ?_ ?_ ?_ ?_) (fun s hs => ?_) forwards
  iterate 4 rfl
  have htrue := Engine.truthful_introduce
    (e := { net.nodes v with routingTable := (net.nodes v).routingTable.addRoute overlay peerId }) hsess
    fromAddr s hs
  exact htrue.closer (Engine.closer_of_eq rfl rfl) rfl

/-- What a node makes of a message that it handles is safe, in its tables and in what it sends. -/
theorem Potential.handle (hp : Potential L net) {p : Packet} {i : ℕ} (hget : net.inFlight[i]? = some p)
    (hsess : p.src ∈ (net.nodes p.dst).sessions)
    (hfrom : (net.nodes p.dst).addrIndex.lookup (L.addr p.src) = some p.src) (nowMs : UInt64)
    (hord : Orderly net (.deliver nowMs i)) :
    SafeReaction L net.nodes p.dst p.passOn
      ((net.nodes p.dst).handleMessage blake3 nowMs (L.addr p.src) p.msg) := by
  have hflight := hp.flight p (List.mem_of_getElem? hget)
  have hord' := hord p hget
  have hquiet : ∀ e : Engine τ, e.ourPeerId = (net.nodes p.dst).ourPeerId →
      e.sessions = (net.nodes p.dst).sessions → e.addrIndex = (net.nodes p.dst).addrIndex →
      e.relayPaths = (net.nodes p.dst).relayPaths →
      ∀ tun, SafeReaction L net.nodes p.dst p.passOn { engine := e, tun := tun } := fun e h1 h2 h3 h4 _ =>
    Safe.reaction ((hp.safe p.dst).of_eq h1 h2 h3 h4) Engine.truthful_nil _
  have htrue : ∀ msg, p.msg = msg → (∀ src d payload, msg ≠ .relayData src d payload) →
      (net.nodes p.src).Truthful msg := by
    rintro msg rfl hne
    exact hflight.resolve_right fun ⟨src, d, payload, hmsg, _⟩ => hne src d payload hmsg
  cases hmsg : p.msg with
  | ping sentMs =>
      simp only [Engine.handleMessage, hfrom]
      refine Safe.reaction (r := { engine := _, sends := _ }) (hp.safe p.dst) (fun s hs => ?_) _
      rw [List.mem_singleton] at hs
      subst hs
      exact trivial
  | pong sentMs =>
      simp only [Engine.handleMessage, hfrom]
      refine hquiet _ ?_ ?_ ?_ ?_ _ <;> rfl
  | sessionInit overlay overlayIpv6 hostname publicAddr =>
      exact hp.sessionInit hfrom hsess overlay overlayIpv6 hostname publicAddr _
  | peerDirectory entries =>
      rw [OrderlyPacket, hmsg] at hord'
      exact hp.peerDirectory blake3 hfrom (htrue _ hmsg (by simp)) hord' _
  | relayRequest d =>
      rw [OrderlyPacket, hmsg] at hord'
      exact hp.relayRequest blake3 hfrom hsess hord' _
  | relayReady r d h =>
      rw [OrderlyPacket, hmsg] at hord'
      have ht := htrue _ hmsg (by simp)
      have hr : r = p.src := ht.1.trans (hp.ourPeerId _)
      exact hp.relayReady blake3 (by rw [hr]; rw [hr] at ht; exact ht) hord' _
  | relayData src d payload =>
      refine hp.relayData hmsg (hflight.resolve_left fun ht => ?_)
      rw [hmsg] at ht
      exact ht
  | _ => refine hquiet _ ?_ ?_ ?_ ?_ _ <;> rfl

theorem Potential.react (hp : Potential L net) {forwards : ℕ} {r : Reaction τ}
    (hr : SafeReaction L net.nodes v forwards r) {rest : List Packet} (hrest : ∀ p ∈ rest, p ∈ net.inFlight) :
    Potential L { nodes := Function.update net.nodes v r.engine
                  inFlight := rest ++ packetsOf v r.engine forwards r.sends } :=
  hp.update hr.engine hrest hr.sends

theorem Potential.act (hp : Potential L net) {r : Reaction τ} (hr : SafeReaction L net.nodes v 0 r) :
    Potential L (net.act v r) := hp.react hr fun _ h => h

theorem Potential.deliver (hp : Potential L net) (nowMs : UInt64) (i : ℕ)
    (hord : Orderly net (.deliver nowMs i)) : Potential L (net.deliver blake3 L.addr nowMs i) := by
  unfold Network.deliver
  cases hget : net.inFlight[i]? with
  | none => exact hp
  | some p =>
      have hmem := List.mem_of_getElem? hget
      refine hp.react ?_ fun q hq => List.mem_of_mem_eraseIdx hq
      unfold Engine.receive
      cases hfrom : (net.nodes p.dst).addrIndex.lookup (L.addr p.src) with
      | none => exact (hp.safe p.dst).reaction (r := { engine := _ }) Engine.truthful_nil _
      | some pid =>
          obtain ⟨ha, hpid⟩ := hp.index p.dst _ pid hfrom
          obtain rfl := L.inj p.src (hp.src p hmem) pid hpid ha
          dsimp only
          split_ifs with hsess
          · exact hp.handle blake3 hget hsess hfrom nowMs hord
          · exact (hp.safe p.dst).reaction (r := { engine := _ }) Engine.truthful_nil _

/-- A completed handshake makes a neighbour, and tells the truth about it. -/
theorem Potential.complete (hp : Potential L net) {w : PeerId} {a : SocketAddr} (hv : v ∈ L.members)
    (hw : w ∈ L.members) (ha : L.addr w = .udp a) (initiator : Bool) (t : τ) :
    SafeReaction L net.nodes v 0
      { engine := (net.nodes v).complete blake3 w t (.udp a)
        sends := ((net.nodes v).complete blake3 w t (.udp a)).greetings w initiator a } := by
  have hsess : ∀ d, d ∈ ((net.nodes v).complete blake3 w t (.udp a)).sessions ↔
      d = w ∨ d ∈ (net.nodes v).sessions := fun d => AList.mem_insert _
  have hpaths : ∀ d, ((net.nodes v).complete blake3 w t (.udp a)).relayPaths.lookup d =
      if d = w then none else (net.nodes v).relayPaths.lookup d := by
    intro d
    show ((net.nodes v).relayPaths.erase w).lookup d = _
    by_cases hd : d = w
    · rw [if_pos hd, hd, AList.lookup_erase]
    · rw [if_neg hd, AList.lookup_erase_ne hd]
  refine Safe.reaction ⟨hp.ourPeerId v, ?_, fun _ _ => hv, ?_, ?_⟩
    (Engine.truthful_greetings ((hsess w).mpr (.inl rfl)) initiator a) 0
  · refine Engine.closer_of_lookup (fun d hd => (hsess d).mpr (.inr hd)) fun d r h hl => ?_
    by_cases hd : d = w
    · exact .inl ((hsess d).mpr (.inl hd))
    · exact .inr ⟨r, h, by rw [hpaths, if_neg hd, hl], le_refl _⟩
  · intro b p hl
    have hl' : ((net.nodes v).addrIndex.insert (.udp a) w).lookup b = some p := hl
    by_cases hb : b = .udp a
    · rw [hb, AList.lookup_insert] at hl'
      cases hl'
      exact ⟨hb.trans ha.symm, hw⟩
    · rw [AList.lookup_insert_ne hb] at hl'
      exact hp.index v b p hl'
  · intro d r h hl
    rw [hpaths] at hl
    split_ifs at hl
    exact hp.paths v d r h hl

theorem Potential.routePacket (hp : Potential L net) (candidate : Option PeerId) (packet : Bytes)
    (peerId : PeerId) : SafeReaction L net.nodes v 0 ((net.nodes v).routePacket candidate packet peerId) := by
  unfold Engine.routePacket
  split
  · refine Safe.reaction (r := { engine := _, sends := _ }) (hp.safe v) (fun s hs => ?_) 0
    rw [List.mem_singleton] at hs
    subst hs
    exact trivial
  · split
    · next relayId hops hl =>
      obtain ⟨k, hk, hnear⟩ := hp.paths v peerId relayId hops hl
      have hlt := hops.toNat_lt
      refine ⟨hp.safe v, fun q hq => .inr ?_⟩
      obtain ⟨s, hs, -, rfl⟩ := mem_packetsOf.mp hq
      rw [List.mem_singleton] at hs
      subst hs
      exact ⟨_, _, _, rfl, by dsimp only; omega, .inr ⟨k, hnear, by dsimp only; omega⟩⟩
    · refine Safe.reaction ?_ (fun s hs => ?_) 0
      · dsimp only [Engine.removeStaleRoute]
        split
        · exact (hp.safe v).of_eq rfl rfl rfl rfl
        · exact hp.safe v
      · dsimp only [Engine.requestVia] at hs
        split at hs
        · split_ifs at hs <;> simp at hs
          subst hs
          exact trivial
        · simp at hs

theorem Potential.tunPacket (hp : Potential L net) (candidate : Option PeerId) (packet : Bytes) :
    SafeReaction L net.nodes v 0 ((net.nodes v).handleTunPacket candidate packet) := by
  have hquiet : ∀ tun, SafeReaction L net.nodes v 0 { engine := net.nodes v, tun := tun } := fun tun =>
    (hp.safe v).reaction (r := { engine := _, tun := tun }) Engine.truthful_nil 0
  unfold Engine.handleTunPacket
  split_ifs
  · exact hquiet []
  · exact hquiet [packet]
  · split
    · exact hquiet []
    · exact hp.routePacket candidate packet _

/-- **Step**: an orderly event keeps hop counts a potential. -/
theorem Potential.next (hp : Potential L net) (a : NetAction τ) (hord : Orderly net a) :
    Potential L (net.next blake3 L a) := by
  cases a with
  | deliver nowMs i => exact hp.deliver blake3 nowMs i hord
  | lose i =>
      exact ⟨hp.ourPeerId, hp.member, hp.index, hp.paths,
        fun p h => hp.src p (List.mem_of_mem_eraseIdx h), fun p h => hp.flight p (List.mem_of_mem_eraseIdx h)⟩
  | complete v w initiator t a =>
      simp only [Network.next]
      split_ifs with h
      · exact hp.act (hp.complete blake3 h.1 h.2.1 h.2.2.2 initiator t)
      · exact hp
  | stun v a canRelay =>
      refine hp.act (Safe.reaction ((hp.safe v).of_eq ?_ ?_ ?_ ?_) Engine.truthful_nil 0)
      iterate 4 rfl
  | postStunBroadcast v =>
      exact hp.act (Safe.reaction (r := { engine := _, sends := _ }) (hp.safe v)
        Engine.truthful_postStunBroadcast 0)
  | periodicBroadcast v =>
      exact hp.act (Safe.reaction (r := { engine := _, sends := _ }) (hp.safe v)
        Engine.truthful_periodicBroadcast 0)
  | tunPacket v candidate packet => exact hp.act (hp.tunPacket candidate packet)
  | timeout v a =>
      refine hp.act (Safe.reaction (r := { engine := _, sends := _ }) (hp.safe v) (fun s hs => ?_) 0)
      unfold Engine.timeoutRequests at hs
      split at hs
      · simp at hs
      · obtain ⟨relayId, -, rfl⟩ := List.mem_map.mp hs
        exact trivial
  | removed v w =>
      have hnone : (net.nodes v).sessions.lookup w = none := AList.lookup_eq_none.mpr hord
      simp only [Network.next, hnone]
      exact hp
  | cleanup v a =>
      simp only [Network.next]
      split
      · split_ifs
        · exact hp
        · refine hp.act (Safe.reaction ?_ Engine.truthful_nil 0)
          refine ⟨hp.ourPeerId v, Engine.closer_of_eq rfl rfl, hp.member v, fun b p hl => ?_, hp.paths v⟩
          have hl' : ((net.nodes v).addrIndex.erase (.udp a)).lookup b = some p := hl
          by_cases hb : b = .udp a
          · rw [hb, AList.lookup_erase] at hl'
            cases hl'
          · rw [AList.lookup_erase_ne hb] at hl'
            exact hp.index v b p hl'
      · exact hp

/-- **Relay forwarding is loop-free** in every state that an orderly run reaches: following next hops
to a destination comes back to no node, and no relayed packet in flight has been passed on more
than 255 times. -/
theorem forwarding_loop_free (blake3 : Blake3) (L : Layout) {net : Network τ} (h0 : net.Initial)
    {as : List (NetAction τ)} (hord : Run.Along (Network.next blake3 L) Orderly net as) :
    (∀ d v, ¬ Relation.TransGen (Follow (Run.exec (Network.next blake3 L) net as) d) v v) ∧
      ∀ p ∈ (Run.exec (Network.next blake3 L) net as).inFlight,
        (∃ src d payload, p.msg = .relayData src d payload) → p.forwards ≤ 255 := by
  have hp : Potential L (Run.exec (Network.next blake3 L) net as) :=
    hord.invariant (fun net a hp ha => hp.next blake3 a ha) h0.potential
  refine ⟨hp.loop_free, fun p hpf ⟨src, d, payload, hmsg⟩ => ?_⟩
  rcases hp.flight p hpf with ht | ⟨-, -, -, -, hle, -⟩
  · rw [hmsg] at ht
    exact ht.elim
  · exact hle

/-! ### A run with a loop -/

def loopAddr (p : PeerId) : TransportAddr := .udp (.v4 ⟨10, 0, 0, p.asBytes.headD 0⟩ 4242)

/-- Five nodes, of which node `n` has the address `10.0.0.n`. -/
def loopLayout : Layout where
  members := [.replicate 0, .replicate 1, .replicate 2, .replicate 3, .replicate 4]
  addr := loopAddr
  inj := by decide +kernel

def loopStart : Network Unit where
  nodes v := { ourPeerId := v, siOverlay := default, siOverlayIpv6 := default, siHostname := "" }

theorem loopStart_initial : loopStart.Initial := ⟨fun _ => rfl, fun _ => rfl, fun _ => rfl, fun _ => rfl, rfl⟩

/-- Nodes `m` and `n` complete a handshake. -/
def link (m n : UInt8) : List (NetAction Unit) :=
  [.complete (.replicate m) (.replicate n) true () (loopAddr (.replicate n)).socketAddr,
    .complete (.replicate n) (.replicate m) false () (loopAddr (.replicate m)).socketAddr]

/-- The packets at these positions arrive, one after the other. -/
def arrivals (is : List ℕ) : List (NetAction Unit) := is.map (.deliver 0)

/-- Nodes 0 and 1 are connected, then 1 and 2: node 2 learns of node 0. -/
def lineRun : List (NetAction Unit) := link 0 1 ++ arrivals [0, 0] ++ link 1 2 ++ arrivals [0, 0, 0]

theorem forwarding_loop_free_line :
    Follow (Run.exec (Network.next (fun _ _ => 0) loopLayout) loopStart lineRun) (.replicate 0)
        (.replicate 2) (.replicate 1) ∧
      ∀ d v, ¬ Relation.TransGen
        (Follow (Run.exec (Network.next (fun _ _ => 0) loopLayout) loopStart lineRun) d) v v :=
  ⟨⟨by decide +kernel, 2, by decide +kernel⟩,
    (forwarding_loop_free _ loopLayout loopStart_initial (by decide +kernel)).1⟩

/-- The line 0 – 1 – 2 – 3 – 4, closed by 1 – 4 later.  Node 4 first learns of node 0 from node 3 and
asks it to relay; then from node 1, and tells node 3, which takes the better path through node 4.
Only then node 3 answers the old request, and node 4 takes that answer. -/
def loopRun : List (NetAction Unit) :=
  lineRun ++ link 2 3 ++ arrivals [3, 2, 2] ++ link 3 4 ++ arrivals [6, 6] ++ link 1 4 ++
    arrivals [11, 11, 13, 14, 5, 14, 7, 16]

/-- Nodes 3 and 4 relay to node 0 through each other. -/
theorem forwarding_loop :
    ¬ ∀ (blake3 : Blake3) (L : Layout) (net : Network Unit), net.Initial → ∀ as : List (NetAction Unit),
      ∀ d v, ¬ Relation.TransGen (Follow (Run.exec (Network.next blake3 L) net as) d) v v := by
  intro h
  have h34 : Follow (Run.exec (Network.next (fun _ _ => 0) loopLayout) loopStart loopRun) (.replicate 0)
      (.replicate 3) (.replicate 4) := ⟨by decide +kernel, 2, by decide +kernel⟩
  have h43 : Follow (Run.exec (Network.next (fun _ _ => 0) loopLayout) loopStart loopRun) (.replicate 0)
      (.replicate 4) (.replicate 3) := ⟨by decide +kernel, 3, by decide +kernel⟩
  exact h _ loopLayout loopStart loopStart_initial loopRun _ _ ((Relation.TransGen.single h34).tail h43)

end SeedNet
