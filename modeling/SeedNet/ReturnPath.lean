import SeedNet.RelayCascade

/-! # The return path of a multi-hop relay

A node `x` asks its neighbour `v₁` for a path to `d`, over a line of nodes that have sessions with
their neighbours alone.  `v₁` answers, and asks the next node `v₂` about `x`, "so the return path
works".  But to ask about a peer never sets up a path to it: `v₂` has two sessions, so it takes the request
as one to relay, finds neither a session nor a path to `x`, and ignores it.

`Asked` is what holds while the messages are on their way; `return_path_never` is the result: the
request is answered, and whatever the line, nobody but `v₁` knows how to reach `x` afterwards. -/

namespace SeedNet

open Relation (ReflTransGen)

variable {τ : Type} {blake3 : Blake3} {addr : PeerId → TransportAddr} {nodes : PeerId → Engine τ} {net : Network τ}

theorem Map.two_le_len {K V : Type} [DecidableEq K] {m : Map K V} {a b : K} (ha : a ∈ m) (hb : b ∈ m) (hne : a ≠ b) :
    2 ≤ Map.len m := by
  have hsub : [a, b] ⊆ m.keys := by
    intro c hc
    rcases List.mem_cons.mp hc with rfl | hc
    · exact AList.mem_keys.mp ha
    · exact List.mem_singleton.mp hc ▸ AList.mem_keys.mp hb
  have hnodup : [a, b].Nodup := by simp [hne]
  exact (hnodup.subperm hsub).length_le

/-! ### Lines of nodes -/

/-- The nodes of `path` have sessions with their neighbours in it; there are no other sessions. -/
structure Line (addr : PeerId → TransportAddr) (nodes : PeerId → Engine τ) (path : List PeerId) : Prop
    extends Topology addr nodes where
  nodup : path.Nodup
  linked : path.IsChain fun p q => q ∈ (nodes p).sessions
  adjacent : ∀ p, ∀ q ∈ (nodes p).sessions.keys, [p, q] <:+: path ∨ [q, p] <:+: path

/-- Every node of the line `x`, `path` but the last has a next hop for its last node `d`, its neighbour. -/
def Forward (nodes : PeerId → Engine τ) (d : PeerId) (path : List PeerId) : Prop :=
  path.IsChain fun p q => nextHops nodes p d = some q

instance (nodes : PeerId → Engine τ) (d : PeerId) (path : List PeerId) : Decidable (Forward nodes d path) :=
  inferInstanceAs (Decidable (path.IsChain _))

/-- `x` has a path to `d` through the first node of `path`, and from the second one on every node of it
has a path to `x` whose next hop is its neighbour towards `x`. -/
structure SetUp (nodes : PeerId → Engine τ) (x d : PeerId) (path : List PeerId) : Prop where
  forward : ∀ v ∈ path.head?, nextHops nodes x d = some v
  back : path.IsChain fun p q => nextHops nodes q x = some p

/-- `x` has sent `v` a `RelayRequest` for `d`, and nothing else is in flight. -/
def asking (nodes : PeerId → Engine τ) (x v d : PeerId) : Network τ where
  nodes := nodes
  inFlight := [Request.packet ⟨v, x, d⟩]

section

variable {x v₁ v₂ d : PeerId} {vs : List PeerId}

/-- What the first two relays of a line are to each other and to its ends. -/
structure FirstRelays (nodes : PeerId → Engine τ) (x v₁ v₂ d : PeerId) : Prop where
  asker : x ∈ (nodes v₁).sessions
  next : v₂ ∈ (nodes v₁).sessions
  prev : v₁ ∈ (nodes v₂).sessions
  relays₁ : 2 ≤ (nodes v₁).sessions.len
  relays₂ : 2 ≤ (nodes v₂).sessions.len
  far : d ∉ (nodes v₁).sessions
  away : x ∉ (nodes v₂).sessions
  first_ne : v₁ ≠ x
  second_ne : v₂ ≠ x

theorem infix_pair_cons {p q a : PeerId} {l : List PeerId} :
    [p, q] <:+: a :: l ↔ p = a ∧ l.head? = some q ∨ [p, q] <:+: l := by
  rw [List.infix_cons_iff, List.cons_prefix_cons]
  cases l with
  | nil => simp
  | cons b l => simp [List.cons_prefix_cons, eq_comm]

theorem mem_of_infix_pair {p q : PeerId} {l : List PeerId} (h : [p, q] <:+: l) : p ∈ l ∧ q ∈ l :=
  ⟨h.subset List.mem_cons_self, h.subset (List.mem_cons_of_mem p (List.mem_singleton_self q))⟩

theorem Line.firstRelays (h : Line addr nodes (x :: v₁ :: v₂ :: (vs ++ [d]))) : FirstRelays nodes x v₁ v₂ d := by
  have hnodup := h.nodup
  generalize hds : vs ++ [d] = ds at h hnodup
  have hd : d ∈ ds := hds ▸ List.mem_append_right vs (List.mem_singleton_self d)
  simp only [List.nodup_cons, List.mem_cons, not_or] at hnodup
  obtain ⟨⟨hxv₁, hxv₂, hx⟩, ⟨hvv, hv₁⟩, hv₂, -⟩ := hnodup
  obtain ⟨hlink₀, hlinked⟩ := List.isChain_cons_cons.mp h.linked
  obtain ⟨hlink₁, hlinked⟩ := List.isChain_cons_cons.mp hlinked
  have hasker : x ∈ (nodes v₁).sessions := h.symm x v₁ (AList.mem_keys.mp hlink₀)
  have hprev : v₁ ∈ (nodes v₂).sessions := h.symm v₁ v₂ (AList.mem_keys.mp hlink₁)
  obtain ⟨w, hw, hwds⟩ : ∃ w, w ∈ (nodes v₂).sessions ∧ w ∈ ds := by
    cases ds with
    | nil => cases hd
    | cons u us => exact ⟨u, (List.isChain_cons_cons.mp hlinked).1, List.mem_cons_self⟩
  have hvw : v₁ ≠ w := fun he => hv₁ (he ▸ hwds)
  have hfar : d ∉ (nodes v₁).sessions := by
    intro hmem
    rcases h.adjacent v₁ d (AList.mem_keys.mp hmem) with hadj | hadj
    · rcases infix_pair_cons.mp hadj with ⟨he, -⟩ | hadj
      · exact hxv₁ he.symm
      · rcases infix_pair_cons.mp hadj with ⟨-, he⟩ | hadj
        · exact hv₂ (Option.some.inj he ▸ hd)
        · rcases List.mem_cons.mp (mem_of_infix_pair hadj).1 with he | hmem
          · exact hvv he
          · exact hv₁ hmem
    · rcases infix_pair_cons.mp hadj with ⟨he, -⟩ | hadj
      · exact hx (he ▸ hd)
      · rcases infix_pair_cons.mp hadj with ⟨he, -⟩ | hadj
        · exact hv₁ (he ▸ hd)
        · rcases List.mem_cons.mp (mem_of_infix_pair hadj).2 with he | hmem
          · exact hvv he
          · exact hv₁ hmem
  have haway : x ∉ (nodes v₂).sessions := by
    intro hmem
    have hnot : ∀ {p q}, [p, q] <:+: v₁ :: v₂ :: ds → p ≠ x ∧ q ≠ x := by
      intro p q hadj
      obtain ⟨hp, hq⟩ := mem_of_infix_pair hadj
      have hxmem : x ∉ v₁ :: v₂ :: ds := by
        simp only [List.mem_cons, not_or]
        exact ⟨hxv₁, hxv₂, hx⟩
      exact ⟨fun he => hxmem (he ▸ hp), fun he => hxmem (he ▸ hq)⟩
    rcases h.adjacent v₂ x (AList.mem_keys.mp hmem) with hadj | hadj
    · rcases infix_pair_cons.mp hadj with ⟨he, -⟩ | hadj
      · exact hxv₂ he.symm
      · exact (hnot hadj).2 rfl
    · rcases infix_pair_cons.mp hadj with ⟨-, he⟩ | hadj
      · exact hvv (Option.some.inj he)
      · exact (hnot hadj).1 rfl
  exact ⟨hasker, hlink₁, hprev, Map.two_le_len hasker hlink₁ hxv₂, Map.two_le_len hprev hw hvw, hfar, haway,
    Ne.symm hxv₁, Ne.symm hxv₂⟩

/-! ### The messages of the set-up -/

/-- The request that `v₁` hands on to `v₂`: about `x`, not about `d`. -/
def onward (x v₁ v₂ : PeerId) : Packet := Request.packet ⟨v₂, v₁, x⟩

/-- What the messages of the set-up leave alone: only `x` has changed, and it has no path to itself. -/
structure Asked (nodes : PeerId → Engine τ) (x v₁ v₂ d : PeerId) (net : Network τ) : Prop where
  frame : SameFrame nodes net.nodes
  others : ∀ p, p ≠ x → net.nodes p = nodes p
  flight : ∀ q ∈ net.inFlight, q = Request.packet ⟨v₁, x, d⟩ ∨ q = onward x v₁ v₂ ∨
    ∃ hops, q = Request.answer ⟨v₁, x, d⟩ hops
  forward : Request.packet ⟨v₁, x, d⟩ ∈ net.inFlight ∨ (∃ hops, Request.answer ⟨v₁, x, d⟩ hops ∈ net.inFlight) ∨
    nextHops net.nodes x d = some v₁

theorem asked_start : Asked nodes x v₁ v₂ d (asking nodes x v₁ d) where
  frame := .refl nodes
  others := fun _ _ => rfl
  flight := fun _ hq => .inl (List.mem_singleton.mp hq)
  forward := .inl (List.mem_singleton_self _)

variable (blake3)

/-- A packet arrives at a node that only sends. -/
theorem arrive_of_unchanged {p : Packet} {nowMs : UInt64} {sends : List Send} (rest : List Packet)
    (hengine : ((net.nodes p.dst).receive blake3 addr nowMs p).engine = net.nodes p.dst)
    (hsends : ((net.nodes p.dst).receive blake3 addr nowMs p).sends = sends) :
    net.arrive blake3 addr nowMs p rest =
      { nodes := net.nodes, inFlight := rest ++ packetsOf p.dst (net.nodes p.dst) p.passOn sends } := by
  simp only [Network.arrive, hengine, hsends, Function.update_eq_self]

/-- `v₁` answers `x` and asks `v₂`. -/
theorem Asked.arrive_request (h : Asked nodes x v₁ v₂ d net) (hline : Topology addr nodes)
    (hr : FirstRelays nodes x v₁ v₂ d) (hnext : nextHops nodes v₁ d = some v₂) (nowMs : UInt64) (rest : List Packet) :
    ∃ hops, net.arrive blake3 addr nowMs (Request.packet ⟨v₁, x, d⟩) rest =
      { nodes := net.nodes, inFlight := rest ++ [Request.answer ⟨v₁, x, d⟩ hops, onward x v₁ v₂] } := by
  obtain ⟨⟨next, hops⟩, hpath, rfl⟩ := Option.map_eq_some_iff.mp hnext
  have hv₁ : net.nodes v₁ = nodes v₁ := h.others v₁ hr.first_ne
  have hreact : (net.nodes v₁).receive blake3 addr nowMs (Request.packet ⟨v₁, x, d⟩) =
      { engine := net.nodes v₁
        sends := [{ peer := x, msg := .relayReady v₁ d (saturatingAdd hops 1) },
          { peer := next, msg := .relayRequest x }] } := by
    have hreq : (nodes v₁).handleRelayRequest blake3 (addr x) d = _ :=
      request_onward (nodes v₁) (hline.index v₁ x (AList.mem_keys.mp hr.asker)) hr.relays₁ hr.far hpath
    rw [hline.ourPeerId] at hreq
    rw [hv₁]
    exact (hline.receive_eq (p := Request.packet ⟨v₁, x, d⟩) hr.asker nowMs).trans hreq
  refine ⟨saturatingAdd hops 1, ?_⟩
  rw [arrive_of_unchanged blake3 rest (congrArg Reaction.engine hreact) (congrArg Reaction.sends hreact)]
  have hsent : packetsOf v₁ (net.nodes v₁) 0
      [{ peer := x, msg := .relayReady v₁ d (saturatingAdd hops 1) }, { peer := next, msg := .relayRequest x }] =
      [Request.answer ⟨v₁, x, d⟩ (saturatingAdd hops 1), onward x v₁ next] := by
    rw [hv₁]
    simp only [packetsOf, List.filter_cons, hr.asker, hr.next, decide_true, if_true, List.filter_nil, List.map_cons,
      List.map_nil, Request.answer, onward, Request.packet]
  exact congrArg (fun sent => Network.mk net.nodes (rest ++ sent)) hsent

/-- `v₂` ignores the question about `x`. -/
theorem Asked.arrive_onward (h : Asked nodes x v₁ v₂ d net) (hline : Topology addr nodes)
    (hr : FirstRelays nodes x v₁ v₂ d) (hnone : nextHops nodes v₂ x = none) (nowMs : UInt64) (rest : List Packet) :
    net.arrive blake3 addr nowMs (onward x v₁ v₂) rest = { nodes := net.nodes, inFlight := rest } := by
  have hv₂ : net.nodes v₂ = nodes v₂ := h.others v₂ hr.second_ne
  have hpath : (nodes v₂).relayPaths.lookup x = none := Option.map_eq_none_iff.mp hnone
  have hreact : (net.nodes v₂).receive blake3 addr nowMs (onward x v₁ v₂) =
      (nodes v₂).handleRelayRequest blake3 (addr v₁) x := by
    rw [hv₂]
    exact hline.receive_eq (p := onward x v₁ v₂) hr.prev nowMs
  have hengine : ((net.nodes v₂).receive blake3 addr nowMs (onward x v₁ v₂)).engine = net.nodes v₂ := by
    rw [hreact, hv₂]
    exact handleRelayRequest_engine (nodes v₂) (addr v₁) x hr.relays₂
  have hsends : ((net.nodes v₂).receive blake3 addr nowMs (onward x v₁ v₂)).sends = [] := by
    rw [hreact]
    exact request_silent (nodes v₂) (addr v₁) fun _ => ⟨hr.away, hpath⟩
  rw [arrive_of_unchanged blake3 rest hengine hsends]
  exact congrArg (Network.mk net.nodes) (List.append_nil rest)

/-- Whatever arrives, the invariant stays. -/
theorem Asked.delivers (h : Asked nodes x v₁ v₂ d net) (hline : Topology addr nodes)
    (hr : FirstRelays nodes x v₁ v₂ d) (hnext : nextHops nodes v₁ d = some v₂) (hnone : nextHops nodes v₂ x = none)
    {net' : Network τ} (hd : net.Delivers blake3 addr net') : Asked nodes x v₁ v₂ d net' := by
  obtain ⟨nowMs, pre, p, post, hin, rfl⟩ := (Network.delivers_iff blake3 addr).mp hd
  have hmem : ∀ q, q ∈ net.inFlight ↔ q = p ∨ q ∈ pre ++ post := by
    intro q
    rw [hin, List.perm_middle.mem_iff, List.mem_cons]
  have hkeep : ∀ q ∈ pre ++ post, q = Request.packet ⟨v₁, x, d⟩ ∨ q = onward x v₁ v₂ ∨
      ∃ hops, q = Request.answer ⟨v₁, x, d⟩ hops := fun q hq => h.flight q ((hmem q).mpr (.inr hq))
  rcases h.flight p ((hmem p).mpr (.inl rfl)) with rfl | rfl | ⟨hops, rfl⟩
  · obtain ⟨hops, harr⟩ := h.arrive_request blake3 hline hr hnext nowMs (pre ++ post)
    rw [harr]
    refine ⟨h.frame, h.others, fun q hq => ?_, .inr (.inl ⟨hops, by simp⟩)⟩
    rcases List.mem_append.mp hq with hq | hq
    · exact hkeep q hq
    · simp only [List.mem_cons, List.not_mem_nil, or_false] at hq
      rcases hq with rfl | rfl
      · exact .inr (.inr ⟨hops, rfl⟩)
      · exact .inr (.inl rfl)
  · rw [h.arrive_onward blake3 hline hr hnone nowMs (pre ++ post)]
    refine ⟨h.frame, h.others, hkeep, ?_⟩
    rcases h.forward with hreq | ⟨hops, hans⟩ | hdone
    · left
      refine ((hmem _).mp hreq).resolve_left fun he => ?_
      have hdst : d = x := by simpa [Request.packet, onward] using congrArg Packet.msg he
      exact hr.far (hdst ▸ hr.asker)
    · exact .inr (.inl ⟨hops, ((hmem _).mp hans).resolve_left fun he => by
        simpa [Request.answer, Request.packet, onward] using congrArg Packet.msg he⟩)
    · exact .inr (.inr hdone)
  · have hready : Ready nodes (Request.answer ⟨v₁, x, d⟩ hops) d := ⟨⟨hops, rfl⟩, hline.symm v₁ x (AList.mem_keys.mp hr.asker)⟩
    obtain ⟨hflight, hhops⟩ := hready.arrive blake3 hline h.frame nowMs (pre ++ post)
    refine ⟨fun v => (h.frame v).trans (arrive_frame nowMs _ _ v), fun q hq => ?_, ?_, ?_⟩
    · have hne : q ≠ (Request.answer ⟨v₁, x, d⟩ hops).dst := hq
      simp only [Network.arrive, Function.update_of_ne hne]
      exact h.others q hq
    · rw [hflight]
      exact hkeep
    · right
      right
      rw [hhops x d]
      exact if_pos ⟨rfl, rfl⟩

/-- What holds after any number of deliveries. -/
theorem Asked.run (hline : Topology addr nodes) (hr : FirstRelays nodes x v₁ v₂ d)
    (hnext : nextHops nodes v₁ d = some v₂) (hnone : nextHops nodes v₂ x = none) {net : Network τ}
    (hrun : ReflTransGen (Network.Delivers blake3 addr) (asking nodes x v₁ d) net) : Asked nodes x v₁ v₂ d net := by
  induction hrun with
  | refl => exact asked_start
  | tail _ hd ih => exact ih.delivers blake3 hline hr hnext hnone hd

/-- The messages can be delivered, to the last one. -/
theorem asking_completes (hline : Topology addr nodes) (hr : FirstRelays nodes x v₁ v₂ d)
    (hnext : nextHops nodes v₁ d = some v₂) (hnone : nextHops nodes v₂ x = none) :
    ∃ net, ReflTransGen (Network.Delivers blake3 addr) (asking nodes x v₁ d) net ∧ net.inFlight = [] := by
  have hstart : Asked nodes x v₁ v₂ d (asking nodes x v₁ d) := asked_start
  obtain ⟨hops, harr⟩ := hstart.arrive_request blake3 hline hr hnext 0 []
  have hfirst : Network.Delivers blake3 addr (asking nodes x v₁ d)
      { nodes := nodes, inFlight := [Request.answer ⟨v₁, x, d⟩ hops, onward x v₁ v₂] } :=
    (Network.delivers_iff blake3 addr).mpr ⟨0, [], _, [], rfl, harr.symm⟩
  have hready : Ready nodes (Request.answer ⟨v₁, x, d⟩ hops) d :=
    ⟨⟨hops, rfl⟩, hline.symm v₁ x (AList.mem_keys.mp hr.asker)⟩
  let answered : Network τ := { nodes := nodes, inFlight := [Request.answer ⟨v₁, x, d⟩ hops, onward x v₁ v₂] }
  have hsame : SameFrame nodes answered.nodes := .refl nodes
  obtain ⟨hflight, -⟩ := hready.arrive blake3 hline hsame 0 [onward x v₁ v₂]
  have hsecond : Network.Delivers blake3 addr answered
      (answered.arrive blake3 addr 0 (Request.answer ⟨v₁, x, d⟩ hops) [onward x v₁ v₂]) :=
    (Network.delivers_iff blake3 addr).mpr ⟨0, [], _, [onward x v₁ v₂], rfl, rfl⟩
  have hrun := (ReflTransGen.single hfirst).tail hsecond
  have hlast := (Asked.run blake3 hline hr hnext hnone hrun).arrive_onward blake3 hline hr hnone 0 []
  refine ⟨_, hrun.tail ((Network.delivers_iff blake3 addr).mpr ⟨0, [], onward x v₁ v₂, [], hflight, rfl⟩), ?_⟩
  exact congrArg Network.inFlight hlast

end

/-- **No return path.**  On every line `x`, `v₁`, …, `vₖ`, `d` with `k ≥ 2`, once all messages of the set-up are
delivered, in whatever order, `x` has its path to `d` through `v₁`, but the return path is not there. -/
theorem return_path_never (blake3 : Blake3) {x v₁ v₂ d : PeerId} {vs : List PeerId}
    (hline : Line addr nodes (x :: v₁ :: v₂ :: (vs ++ [d]))) (hforward : Forward nodes d (v₁ :: v₂ :: vs))
    (hnone : ∀ v, nextHops nodes v x = none) :
    (∃ net, ReflTransGen (Network.Delivers blake3 addr) (asking nodes x v₁ d) net ∧ net.inFlight = []) ∧
      ∀ net, ReflTransGen (Network.Delivers blake3 addr) (asking nodes x v₁ d) net → net.inFlight = [] →
        nextHops net.nodes x d = some v₁ ∧ ¬ SetUp net.nodes x d (v₁ :: v₂ :: (vs ++ [d])) := by
  have hr := hline.firstRelays
  have hnext := (List.isChain_cons_cons.mp hforward).1
  refine ⟨asking_completes blake3 hline.toTopology hr hnext (hnone v₂), fun net hrun hdone => ?_⟩
  have hasked := Asked.run blake3 hline.toTopology hr hnext (hnone v₂) hrun
  constructor
  · rcases hasked.forward with hreq | ⟨hops, hans⟩ | hpath
    · rw [hdone] at hreq
      cases hreq
    · rw [hdone] at hans
      cases hans
    · exact hpath
  · intro hset
    have hback : nextHops net.nodes v₂ x = some v₁ := (List.isChain_cons_cons.mp hset.back).1
    have hsame : nextHops net.nodes v₂ x = nextHops nodes v₂ x := by
      rw [nextHops, hasked.others v₂ hr.second_ne, nextHops]
    cases hback.symm.trans (hsame.trans (hnone v₂))

/-! ### The line 0 – 1 – 2 – 3 -/

/-- Nodes 1 and 2 relay to node 3; nobody knows of node 0. -/
def exampleLine (v : PeerId) : Engine Unit :=
  if v = .replicate 0 then exampleNode 0 [1] []
  else if v = .replicate 1 then exampleNode 1 [0, 2] [(3, 2)]
  else if v = .replicate 2 then exampleNode 2 [1, 3] []
  else if v = .replicate 3 then exampleNode 3 [2] []
  else { exampleNode 0 [] [] with ourPeerId := v }

theorem exampleLine_outside {v : PeerId} (h : v ∉ ringIds) :
    (exampleLine v).sessions = ∅ ∧ (exampleLine v).ourPeerId = v ∧ (exampleLine v).relayPaths = ∅ := by
  simp only [ringIds, List.mem_cons, List.not_mem_nil, or_false, not_or] at h
  obtain ⟨h0, h1, h2, h3⟩ := h
  rw [exampleLine, if_neg h0, if_neg h1, if_neg h2, if_neg h3]
  exact ⟨rfl, rfl, rfl⟩

theorem exampleLine_line : Line exampleAddr exampleLine ringIds := by
  have hadj : ∀ v ∈ ringIds, ∀ w ∈ (exampleLine v).sessions.keys, [v, w] <:+: ringIds ∨ [w, v] <:+: ringIds := by
    decide +kernel
  have houtside : ∀ v, v ∉ ringIds → (exampleLine v).sessions = ∅ ∧ (exampleLine v).ourPeerId = v := fun v hv =>
    ⟨(exampleLine_outside hv).1, (exampleLine_outside hv).2.1⟩
  refine ⟨.of_members (by decide +kernel) (by decide +kernel) (by decide +kernel) (by decide +kernel) houtside,
    by decide, by decide +kernel, fun v => ?_⟩
  by_cases hv : v ∈ ringIds
  · exact hadj v hv
  · intro w hw
    rw [(exampleLine_outside hv).1] at hw
    cases hw

theorem exampleLine_unknown (v : PeerId) : nextHops exampleLine v (.replicate 0) = none := by
  have hin : ∀ v ∈ ringIds, nextHops exampleLine v (.replicate 0) = none := by decide +kernel
  by_cases hv : v ∈ ringIds
  · exact hin v hv
  · rw [nextHops, (exampleLine_outside hv).2.2]
    rfl

/-- On the line of four nodes the set-up completes, node 0 has its path, and the return path is not there. -/
theorem return_path_never_line :
    (∃ net, ReflTransGen (Network.Delivers (fun _ _ => 0) exampleAddr)
        (asking exampleLine (.replicate 0) (.replicate 1) (.replicate 3)) net ∧ net.inFlight = []) ∧
      ∀ net, ReflTransGen (Network.Delivers (fun _ _ => 0) exampleAddr)
          (asking exampleLine (.replicate 0) (.replicate 1) (.replicate 3)) net → net.inFlight = [] →
        nextHops net.nodes (.replicate 0) (.replicate 3) = some (.replicate 1) ∧
          ¬ SetUp net.nodes (.replicate 0) (.replicate 3) [.replicate 1, .replicate 2, .replicate 3] :=
  return_path_never (fun _ _ => 0) (show Line exampleAddr exampleLine (_ :: _ :: _ :: ([] ++ [_])) from exampleLine_line)
    (by decide +kernel) exampleLine_unknown

/-- The messages of the set-up on the line, in the order in which they were sent. -/
def lineDelivered : Network Unit :=
  let deliver (net : Network Unit) := net.deliver (fun _ _ => 0) exampleAddr 0 0
  deliver (deliver (deliver (asking exampleLine (.replicate 0) (.replicate 1) (.replicate 3))))

/-- After the set-up on the line of four nodes, node 2 has no path to node 0. -/
theorem return_path_missing :
    ¬ ∀ (blake3 : Blake3) (addr : PeerId → TransportAddr) (nodes : PeerId → Engine Unit) (x v₁ v₂ d : PeerId)
        (vs : List PeerId),
      Line addr nodes (x :: v₁ :: v₂ :: (vs ++ [d])) → Forward nodes d (v₁ :: v₂ :: vs) →
        (∀ v, nextHops nodes v x = none) →
          ∀ net, ReflTransGen (Network.Delivers blake3 addr) (asking nodes x v₁ d) net → net.inFlight = [] →
            SetUp net.nodes x d (v₁ :: v₂ :: (vs ++ [d])) := by
  intro h
  have hstep : ∀ net : Network Unit, 0 < net.inFlight.length →
      Network.Delivers (fun _ _ => 0) exampleAddr net (net.deliver (fun _ _ => 0) exampleAddr 0 0) :=
    fun net hlen => ⟨0, 0, hlen, rfl⟩
  have hrun : ReflTransGen (Network.Delivers (fun _ _ => 0) exampleAddr)
      (asking exampleLine (.replicate 0) (.replicate 1) (.replicate 3)) lineDelivered :=
    ((ReflTransGen.single (hstep _ (by decide +kernel))).tail (hstep _ (by decide +kernel))).tail
      (hstep _ (by decide +kernel))
  have hset := h (fun _ _ => 0) exampleAddr exampleLine (.replicate 0) (.replicate 1) (.replicate 2) (.replicate 3) []
    exampleLine_line (by decide +kernel) exampleLine_unknown lineDelivered hrun (by decide +kernel)
  have hback : nextHops lineDelivered.nodes (.replicate 2) (.replicate 0) = some (.replicate 1) :=
    (List.isChain_cons_cons.mp hset.back).1
  exact absurd hback (by decide +kernel)

end SeedNet
