import SeedNet.RelayNetwork

/-! # The cascade of one relay request

A node that cannot reach the destination of a `RelayRequest` itself sends a new request to its
next hop, whose destination is the previous requester.  `handOver` is this step on
`(node, requester, destination)` triples: it depends only on the sessions and on the next hops of
the node.

Answers (`RelayReady`) change next hops, but a node never looks up the paths to its neighbours,
and all answers of a cascade concern neighbours of their receiver, except the answer to the very
first request (`Sim.answers`).  So a cascade follows `handOver` on the initial tables up to some
hand-over, and from there on the tables with that one entry replaced (`redirect`), and it is
finite exactly if neither walk can return to a triple (`cascade_finite_iff`). -/

namespace SeedNet

open Relation (ReflTransGen TransGen)

/-- A relay request as it arrives. -/
structure Request where
  node : PeerId
  requester : PeerId
  dst : PeerId
deriving DecidableEq

instance : Finite Request :=
  Finite.of_injective (fun r => (r.node, r.requester, r.dst)) fun a b h => by
    cases a; cases b; simp_all

def Request.packet (r : Request) : Packet where
  src := r.requester
  dst := r.node
  msg := .relayRequest r.dst

/-- The answer to a request. -/
def Request.answer (r : Request) (hops : UInt8) : Packet where
  src := r.node
  dst := r.requester
  msg := .relayReady r.node r.dst hops

variable {τ : Type}

/-- The next hop of `v` for `d`. -/
def nextHops (nodes : PeerId → Engine τ) (v d : PeerId) : Option PeerId :=
  ((nodes v).relayPaths.lookup d).map Prod.fst

/-- The hand-over of a request to the next hop: only a node with two sessions relays, and not to
a neighbour of its own. -/
def handOver (nodes : PeerId → Engine τ) (next : PeerId → PeerId → Option PeerId) (r r' : Request) : Prop :=
  2 ≤ (nodes r.node).sessions.len ∧ r.dst ∉ (nodes r.node).sessions ∧
    next r.node r.dst = some r'.node ∧ r'.node ∈ (nodes r.node).sessions ∧
    r'.requester = r.node ∧ r'.dst = r.requester

/-- The next hops after the answer to `first` has arrived at its requester. -/
def redirect (next : PeerId → PeerId → Option PeerId) (first : Request) : PeerId → PeerId → Option PeerId :=
  fun v d => if v = first.requester ∧ d = first.dst then some first.node else next v d

/-! ### What a request and an answer do -/

variable {blake3 : Blake3} {addr : PeerId → TransportAddr} {nodes : PeerId → Engine τ} {net : Network τ}

theorem handleRelayReady_lookup (e : Engine τ) (relay dst d : PeerId) (hops : UInt8) :
    ((e.handleRelayReady blake3 relay dst hops).engine.relayPaths.lookup d).map Prod.fst =
      if d = dst then some relay else (e.relayPaths.lookup d).map Prod.fst := by
  simp only [Engine.handleRelayReady, Engine.registerPeer, Engine.addDerivedRoute]
  by_cases h : d = dst
  · subst h; simp
  · simp [h, AList.lookup_insert_ne h]

/-- A node with two sessions keeps its tables. -/
theorem handleRelayRequest_engine (e : Engine τ) (fromAddr : TransportAddr) (dst : PeerId)
    (h : 2 ≤ e.sessions.len) : (e.handleRelayRequest blake3 fromAddr dst).engine = e := by
  simp only [Engine.handleRelayRequest, h, if_true]
  split
  · rfl
  · split_ifs
    · rfl
    · split <;> rfl

/-- A node with a direct session answers both ends and hands nothing over. -/
theorem request_direct (e : Engine τ) {fromAddr : TransportAddr} {reqId dst : PeerId}
    (hfrom : e.addrIndex.lookup fromAddr = some reqId) (hlen : 2 ≤ e.sessions.len) (hdst : dst ∈ e.sessions) :
    e.handleRelayRequest blake3 fromAddr dst =
      { engine := e
        sends := [{ peer := reqId, msg := .relayReady e.ourPeerId dst 1 },
          { peer := dst, msg := .relayReady e.ourPeerId reqId 1 }] } := by
  simp only [Engine.handleRelayRequest, hfrom, hlen, hdst, if_true]

/-- A node with a path answers the requester and asks its next hop about the requester. -/
theorem request_onward (e : Engine τ) {fromAddr : TransportAddr} {reqId dst next : PeerId} {hops : UInt8}
    (hfrom : e.addrIndex.lookup fromAddr = some reqId) (hlen : 2 ≤ e.sessions.len) (hdst : dst ∉ e.sessions)
    (hnext : e.relayPaths.lookup dst = some (next, hops)) :
    e.handleRelayRequest blake3 fromAddr dst =
      { engine := e
        sends := [{ peer := reqId, msg := .relayReady e.ourPeerId dst (saturatingAdd hops 1) },
          { peer := next, msg := .relayRequest reqId }] } := by
  simp only [Engine.handleRelayRequest, hfrom, hlen, hdst, hnext, if_true, if_false]

/-- Every other node sends nothing. -/
theorem request_silent (e : Engine τ) (fromAddr : TransportAddr) {dst : PeerId}
    (h : 2 ≤ e.sessions.len → dst ∉ e.sessions ∧ e.relayPaths.lookup dst = none) :
    (e.handleRelayRequest blake3 fromAddr dst).sends = [] := by
  unfold Engine.handleRelayRequest
  split
  · next hlen =>
      obtain ⟨hdst, hnone⟩ := h hlen
      simp only [hdst, hnone, if_false]
      split <;> rfl
  · split <;> rfl

/-! ### The simulation -/

/-- An answer about `dst` on its way between neighbours. -/
structure Ready (nodes : PeerId → Engine τ) (p : Packet) (dst : PeerId) : Prop where
  ready : ∃ hops, p.msg = .relayReady p.src dst hops
  link : p.src ∈ (nodes p.dst).sessions

/-- An answer about a neighbour of the receiver, or the answer to `first`. -/
structure Answer (nodes : PeerId → Engine τ) (first : Request) (p : Packet) (dst : PeerId) : Prop
    extends Ready nodes p dst where
  about : dst ∈ (nodes p.dst).sessions ∨ p.dst = first.requester ∧ dst = first.dst ∧ p.src = first.node

/-- No request is in flight. -/
structure Idle (nodes : PeerId → Engine τ) (net : Network τ) : Prop where
  frame : SameFrame nodes net.nodes
  answers : ∀ p ∈ net.inFlight, ∃ dst, Ready nodes p dst

/-- The request `r` of the cascade that started with `first` is in flight, besides answers, and
`next` gives the next hops as far as they can be asked for. -/
structure Sim (nodes : PeerId → Engine τ) (first : Request) (next : PeerId → PeerId → Option PeerId)
    (r : Request) (net : Network τ) : Prop where
  frame : SameFrame nodes net.nodes
  hops : ∀ v d, d ∉ (nodes v).sessions → nextHops net.nodes v d = next v d
  inFlight : ∃ rest, net.inFlight.Perm (r.packet :: rest) ∧ ∀ p ∈ rest, ∃ dst, Answer nodes first p dst
  link : r.requester ∈ (nodes r.node).sessions
  dst : r = first ∨ r.dst ∈ (nodes r.requester).sessions

theorem Network.Delivers.perm {net net' : Network τ} (h : net.Delivers blake3 addr net') :
    ∃ nowMs p rest, net.inFlight.Perm (p :: rest) ∧ net' = net.arrive blake3 addr nowMs p rest := by
  obtain ⟨nowMs, pre, p, post, hin, rfl⟩ := (Network.delivers_iff blake3 addr).mp h
  exact ⟨nowMs, p, pre ++ post, by rw [hin]; exact List.perm_middle, rfl⟩

/-- Of two packets taken out of the same flight, each is left over by the other, or they are one. -/
theorem perm_cons_cases {p q : Packet} {l rest rest' : List Packet} (h : l.Perm (p :: rest))
    (h' : l.Perm (q :: rest')) :
    (p = q ∧ rest.Perm rest') ∨ (p ∈ rest' ∧ ∃ others, rest.Perm (q :: others) ∧ rest'.Perm (p :: others)) := by
  have hpq : (p :: rest).Perm (q :: rest') := h.symm.trans h'
  by_cases he : p = q
  · subst he
    exact .inl ⟨rfl, hpq.cons_inv⟩
  · have hp : p ∈ rest' := by
      have := hpq.subset (List.mem_cons_self ..)
      exact (List.mem_cons.mp this).resolve_left he
    have hrest := List.perm_cons_erase hp
    refine .inr ⟨hp, rest'.erase p, ?_, hrest⟩
    have : (p :: rest).Perm (p :: q :: rest'.erase p) :=
      hpq.trans ((hrest.cons q).trans (List.Perm.swap p q _))
    exact this.cons_inv

variable (blake3) in
/-- What the arrival of an answer does: it sends nothing and sets one next hop. -/
theorem Ready.arrive {p : Packet} {dst : PeerId} (hp : Ready nodes p dst)
    (ht : Topology addr nodes) (hf : SameFrame nodes net.nodes) (nowMs : UInt64) (rest : List Packet) :
    (net.arrive blake3 addr nowMs p rest).inFlight = rest ∧
      ∀ v d, nextHops (net.arrive blake3 addr nowMs p rest).nodes v d =
        if v = p.dst ∧ d = dst then some p.src else nextHops net.nodes v d := by
  obtain ⟨hops, hmsg⟩ := hp.ready
  have hlink : p.src ∈ (net.nodes p.dst).sessions := by rw [hf.sessions]; exact hp.link
  have hr : (net.nodes p.dst).receive blake3 addr nowMs p =
      (net.nodes p.dst).handleRelayReady blake3 p.src dst hops := by
    rw [(ht.frame hf).receive_eq hlink, hmsg, Engine.handleMessage]
  constructor
  · simp only [Network.arrive, hr]
    exact List.append_nil rest
  · intro v d
    by_cases hv : v = p.dst
    · subst hv
      simp only [Network.arrive, hr, nextHops, Function.update_self, true_and]
      exact handleRelayReady_lookup _ _ _ _ _
    · simp only [Network.arrive, nextHops, Function.update_of_ne hv, hv, false_and, if_false]

theorem Idle.delivers {net' : Network τ} (h : Idle nodes net)
    (ht : Topology addr nodes) (hd : net.Delivers blake3 addr net') :
    Idle nodes net' ∧ net'.inFlight.length < net.inFlight.length := by
  obtain ⟨nowMs, p, rest, hperm, rfl⟩ := hd.perm
  obtain ⟨dst, hp⟩ := h.answers p (hperm.mem_iff.mpr (List.mem_cons_self ..))
  obtain ⟨hin, -⟩ := hp.arrive blake3 ht h.frame nowMs rest
  refine ⟨⟨fun v => (h.frame v).trans (arrive_frame nowMs p rest v), ?_⟩, ?_⟩
  · rw [hin]
    exact fun q hq => h.answers q (hperm.mem_iff.mpr (List.mem_cons_of_mem _ hq))
  · rw [hin, hperm.length_eq]
    exact Nat.lt_succ_self _

variable (blake3) in
/-- An answer arrives while a request is in flight: the tables stay, or the entry for `first` is
redirected. -/
theorem Sim.answer {first r : Request} {next : PeerId → PeerId → Option PeerId} {p : Packet} {dst : PeerId}
    {rest others : List Packet} (h : Sim nodes first next r net) (ht : Topology addr nodes)
    (hp : Answer nodes first p dst) (hrest : rest.Perm (r.packet :: others))
    (hothers : ∀ q ∈ others, ∃ dst, Answer nodes first q dst) (nowMs : UInt64) :
    (dst ∈ (nodes p.dst).sessions → Sim nodes first next r (net.arrive blake3 addr nowMs p rest)) ∧
    (p.dst = first.requester ∧ dst = first.dst ∧ p.src = first.node →
      Sim nodes first (redirect next first) r (net.arrive blake3 addr nowMs p rest)) := by
  obtain ⟨hin, hhops⟩ := hp.toReady.arrive blake3 ht h.frame nowMs rest
  have hframe : SameFrame nodes (net.arrive blake3 addr nowMs p rest).nodes := fun v =>
    (h.frame v).trans (arrive_frame nowMs p rest v)
  constructor
  · intro hdst
    refine ⟨hframe, fun v d hd => ?_, ⟨others, by rw [hin]; exact hrest, hothers⟩, h.link, h.dst⟩
    rw [hhops, if_neg (fun hc => hd (by rw [hc.1, hc.2]; exact hdst)), h.hops v d hd]
  · rintro ⟨hpd, rfl, hps⟩
    refine ⟨hframe, fun v d hd => ?_, ⟨others, by rw [hin]; exact hrest, hothers⟩, h.link, h.dst⟩
    rw [hhops, redirect, hpd, hps, h.hops v d hd]

theorem redirect_redirect (next : PeerId → PeerId → Option PeerId) (first : Request) :
    redirect (redirect next first) first = redirect next first := by
  funext v d
  unfold redirect
  split_ifs <;> rfl

theorem Sim.receive_request {first r : Request} {next : PeerId → PeerId → Option PeerId}
    (h : Sim nodes first next r net) (ht : Topology addr nodes) (nowMs : UInt64) :
    (net.nodes r.packet.dst).receive blake3 addr nowMs r.packet =
      (net.nodes r.node).handleRelayRequest blake3 (addr r.requester) r.dst :=
  (ht.frame h.frame).receive_eq (p := r.packet)
    (by rw [Request.packet, h.frame.sessions]; exact h.link) nowMs

/-- A relaying node keeps its tables. -/
theorem Sim.request_nodes {first r : Request} {next : PeerId → PeerId → Option PeerId}
    (h : Sim nodes first next r net) (ht : Topology addr nodes) (hlen : 2 ≤ (nodes r.node).sessions.len)
    (nowMs : UInt64) (rest : List Packet) :
    (net.arrive blake3 addr nowMs r.packet rest).nodes = net.nodes := by
  simp only [Network.arrive, h.receive_request ht]
  rw [handleRelayRequest_engine _ _ _ (by rw [h.frame.sessions]; exact hlen)]
  exact Function.update_eq_self _ _

variable (blake3) in
/-- The arrival of the request, with what it sends. -/
theorem Sim.request_inFlight {first r : Request} {next : PeerId → PeerId → Option PeerId}
    (h : Sim nodes first next r net) (ht : Topology addr nodes) (nowMs : UInt64) (rest : List Packet) :
    (net.arrive blake3 addr nowMs r.packet rest).inFlight = rest ++
      packetsOf r.node (nodes r.node) 0
        ((net.nodes r.node).handleRelayRequest blake3 (addr r.requester) r.dst).sends := by
  have hs : ((net.nodes r.node).handleRelayRequest blake3 (addr r.requester) r.dst).engine.sessions =
      (nodes r.node).sessions :=
    (Engine.handleRelayRequest_frame blake3 _ _).sessions.trans (h.frame.sessions r.node)
  simp only [Network.arrive, h.receive_request ht, packetsOf, hs]
  rfl

theorem Sim.answer_back {first r : Request} {next : PeerId → PeerId → Option PeerId}
    (h : Sim nodes first next r net) (ht : Topology addr nodes) (hops : UInt8) :
    Answer nodes first (r.answer hops) r.dst where
  ready := ⟨hops, rfl⟩
  link := ht.symm r.node r.requester h.link
  about := h.dst.elim (fun he => .inr (by rw [he]; exact ⟨rfl, rfl, rfl⟩)) .inl

/-! What the node does with the request. -/

section request

variable {first r : Request} {next : PeerId → PeerId → Option PeerId} {rest : List Packet} (h : Sim nodes first next r net)
  (ht : Topology addr nodes) (hrest : ∀ p ∈ rest, ∃ dst, Answer nodes first p dst)
include h ht

theorem Sim.index : (net.nodes r.node).addrIndex.lookup (addr r.requester) = some r.requester :=
  (ht.frame h.frame).index r.node r.requester (by rw [h.frame.sessions]; exact h.link)

omit ht in
theorem Sim.arrive_sameFrame (nowMs : UInt64) : SameFrame nodes (net.arrive blake3 addr nowMs r.packet rest).nodes :=
  fun v => (h.frame v).trans (arrive_frame nowMs r.packet rest v)

include hrest

/-- No request is left if the node sends answers only. -/
theorem Sim.request_idle (nowMs : UInt64) {sends : List Send}
    (hsends : ((net.nodes r.node).handleRelayRequest blake3 (addr r.requester) r.dst).sends = sends)
    (hready : ∀ s ∈ sends, s.peer ∈ (nodes r.node).sessions →
      ∃ dst, Ready nodes { src := r.node, dst := s.peer, msg := s.msg } dst) :
    Idle nodes (net.arrive blake3 addr nowMs r.packet rest) := by
  have hin := h.request_inFlight blake3 ht nowMs rest
  rw [hsends] at hin
  refine ⟨h.arrive_sameFrame nowMs, fun p hp => ?_⟩
  rw [hin, List.mem_append, mem_packetsOf] at hp
  rcases hp with hp | ⟨s, hsend, hpeer, rfl⟩
  · exact (hrest p hp).imp fun _ ha => ha.toReady
  · exact hready s hsend hpeer

/-- The destination is a neighbour. -/
theorem Sim.request_found (hlen : 2 ≤ (nodes r.node).sessions.len) (hdst : r.dst ∈ (nodes r.node).sessions)
    (nowMs : UInt64) : Idle nodes (net.arrive blake3 addr nowMs r.packet rest) := by
  have hs := h.frame.sessions r.node
  have hdirect := @request_direct τ blake3 (net.nodes r.node) _ _ _ (h.index ht) (by rwa [hs]) (by rwa [hs])
  rw [(ht.frame h.frame).ourPeerId] at hdirect
  refine h.request_idle ht hrest nowMs (congrArg Reaction.sends hdirect) fun s hsend _ => ?_
  rcases List.mem_pair.mp hsend with rfl | rfl
  · exact ⟨r.dst, (h.answer_back ht 1).toReady⟩
  · exact ⟨r.requester, ⟨1, rfl⟩, ht.symm r.node r.dst hdst⟩

/-- The node does not relay, or knows no path. -/
theorem Sim.request_ignored (nowMs : UInt64) (hsilent : 2 ≤ (nodes r.node).sessions.len →
      r.dst ∉ (nodes r.node).sessions ∧ (net.nodes r.node).relayPaths.lookup r.dst = none) :
    Idle nodes (net.arrive blake3 addr nowMs r.packet rest) := by
  have hs := h.frame.sessions r.node
  exact h.request_idle ht hrest nowMs (request_silent _ _ (by rwa [hs])) (List.forall_mem_nil _)

section onward

variable {nx : PeerId} {hops : UInt8} (hlen : 2 ≤ (nodes r.node).sessions.len) (hdst : r.dst ∉ (nodes r.node).sessions)
  (hl : (net.nodes r.node).relayPaths.lookup r.dst = some (nx, hops))
include hlen hdst hl

omit hrest in
variable (blake3) in
theorem Sim.onward_sends : ((net.nodes r.node).handleRelayRequest blake3 (addr r.requester) r.dst).sends =
    [{ peer := r.requester, msg := .relayReady r.node r.dst (saturatingAdd hops 1) },
      { peer := nx, msg := .relayRequest r.requester }] := by
  have hs := h.frame.sessions r.node
  rw [request_onward _ (h.index ht) (by rwa [hs]) (by rwa [hs]) hl, (ht.frame h.frame).ourPeerId]

/-- The next hop of the path is no neighbour any more. -/
theorem Sim.request_lost (hnx : nx ∉ (nodes r.node).sessions) (nowMs : UInt64) :
    Idle nodes (net.arrive blake3 addr nowMs r.packet rest) := by
  refine h.request_idle ht hrest nowMs (h.onward_sends blake3 ht hlen hdst hl) fun s hsend hpeer => ?_
  rcases List.mem_pair.mp hsend with rfl | rfl
  · exact ⟨r.dst, (h.answer_back ht _).toReady⟩
  · exact absurd hpeer hnx

/-- The next hop is asked about the requester. -/
theorem Sim.request_passed (hnx : nx ∈ (nodes r.node).sessions) (nowMs : UInt64) :
    Sim nodes first next ⟨nx, r.node, r.requester⟩ (net.arrive blake3 addr nowMs r.packet rest) ∧
      r.answer (saturatingAdd hops 1) ∈ (net.arrive blake3 addr nowMs r.packet rest).inFlight := by
  have hin := h.request_inFlight blake3 ht nowMs rest
  rw [h.onward_sends blake3 ht hlen hdst hl] at hin
  simp only [packetsOf, List.filter_cons, h.link, hnx, decide_true, if_true, List.filter_nil, List.map_cons,
    List.map_nil] at hin
  have hin' : (net.arrive blake3 addr nowMs r.packet rest).inFlight =
      rest ++ [r.answer (saturatingAdd hops 1), Request.packet ⟨nx, r.node, r.requester⟩] := hin
  refine ⟨⟨h.arrive_sameFrame nowMs, ?_, ⟨rest ++ [r.answer (saturatingAdd hops 1)], ?_, ?_⟩, ht.symm r.node nx hnx,
    .inr h.link⟩, by rw [hin']; simp⟩
  · rw [h.request_nodes ht hlen]
    exact h.hops
  · rw [hin', List.append_cons]
    exact List.perm_append_singleton _ _
  · intro p hp
    rcases List.mem_append.mp hp with hp | hp
    · exact hrest p hp
    · rw [List.mem_singleton] at hp
      exact hp ▸ ⟨r.dst, h.answer_back ht (saturatingAdd hops 1)⟩

end onward

variable (blake3) in
/-- What the arrival of the request does: it is handed over, or no request is left. -/
theorem Sim.request (nowMs : UInt64) :
    Idle nodes (net.arrive blake3 addr nowMs r.packet rest) ∧ (∀ r', ¬ handOver nodes next r r') ∨
    ∃ r', handOver nodes next r r' ∧ (∀ r'', handOver nodes next r r'' → r'' = r') ∧
      Sim nodes first next r' (net.arrive blake3 addr nowMs r.packet rest) ∧
      ∃ hops, r.answer hops ∈ (net.arrive blake3 addr nowMs r.packet rest).inFlight := by
  by_cases hlen : 2 ≤ (nodes r.node).sessions.len
  · by_cases hdst : r.dst ∈ (nodes r.node).sessions
    · exact .inl ⟨h.request_found ht hrest hlen hdst nowMs, fun r' hr' => hr'.2.1 hdst⟩
    · have hnext := h.hops r.node r.dst hdst
      rw [nextHops] at hnext
      cases hl : (net.nodes r.node).relayPaths.lookup r.dst with
      | none =>
          rw [hl] at hnext
          refine .inl ⟨h.request_ignored ht hrest nowMs fun _ => ⟨hdst, hl⟩, fun r' hr' => ?_⟩
          cases hnext.trans hr'.2.2.1
      | some path =>
          obtain ⟨nx, hops⟩ := path
          rw [hl, Option.map_some] at hnext
          have hhop {r' : Request} (hr' : handOver nodes next r r') : r'.node = nx :=
            (Option.some.inj (hnext.trans hr'.2.2.1)).symm
          by_cases hnx : nx ∈ (nodes r.node).sessions
          · obtain ⟨hsim, hanswer⟩ := h.request_passed ht hrest hlen hdst hl hnx nowMs
            refine .inr ⟨⟨nx, r.node, r.requester⟩, ⟨hlen, hdst, hnext.symm, hnx, rfl, rfl⟩, fun r' hr' => ?_, hsim, _,
              hanswer⟩
            have hnode := hhop hr'
            obtain ⟨-, -, -, -, hrequester, hd⟩ := hr'
            rw [← hnode, ← hrequester, ← hd]
          · exact .inl ⟨h.request_lost ht hrest hlen hdst hl hnx nowMs, fun r' hr' => hnx (hhop hr' ▸ hr'.2.2.2.1)⟩
  · exact .inl ⟨h.request_ignored ht hrest nowMs fun hc => absurd hc hlen, fun r' hr' => hlen hr'.1⟩

end request

/-! ### Finite cascades -/

variable {first r : Request} {next : PeerId → PeerId → Option PeerId}

theorem Idle.acc (ht : Topology addr nodes) (h : Idle nodes net) :
    Acc (fun b a => Network.Delivers blake3 addr a b) net := by
  induction hn : net.inFlight.length using Nat.strong_induction_on generalizing net with
  | _ n ih =>
      refine ⟨_, fun net' hd => ?_⟩
      obtain ⟨h', hlt⟩ := h.delivers ht hd
      exact ih _ (hn ▸ hlt) h' rfl

/-- One delivery in a cascade: the request moves on or ends, or an answer arrives, which can only
redirect the entry for `first`. -/
theorem Sim.delivers {net' : Network τ} (h : Sim nodes first next r net) (ht : Topology addr nodes)
    (hd : net.Delivers blake3 addr net') :
    Idle nodes net' ∨ (∃ r', handOver nodes next r r' ∧ Sim nodes first next r' net') ∨
      net'.inFlight.length < net.inFlight.length ∧
        (Sim nodes first next r net' ∨ Sim nodes first (redirect next first) r net') := by
  obtain ⟨nowMs, p, rest, hperm, rfl⟩ := hd.perm
  obtain ⟨others, hperm', hothers⟩ := h.inFlight
  rcases perm_cons_cases hperm hperm' with ⟨rfl, hrest⟩ | ⟨hp, others', hrest, hothers'⟩
  · rcases h.request blake3 ht (fun q hq => hothers q (hrest.mem_iff.mp hq)) nowMs with
      ⟨hidle, -⟩ | ⟨r', hr', -, hsim, -⟩
    · exact .inl hidle
    · exact .inr (.inl ⟨r', hr', hsim⟩)
  · obtain ⟨dst, hans⟩ := hothers p hp
    obtain ⟨hsame, hredirect⟩ := h.answer blake3 ht hans hrest
      (fun q hq => hothers q (hothers'.mem_iff.mpr (List.mem_cons_of_mem _ hq))) nowMs
    have hlt : (net.arrive blake3 addr nowMs p rest).inFlight.length < net.inFlight.length := by
      rw [(hans.toReady.arrive blake3 ht h.frame nowMs rest).1, hperm.length_eq]
      exact Nat.lt_succ_self _
    exact .inr (.inr ⟨hlt, hans.about.imp hsame hredirect⟩)

/-- Once the entry for `first` has been redirected, the cascade follows the redirected tables. -/
theorem Sim.acc_redirected (ht : Topology addr nodes)
    (hacc : Acc (fun b a => handOver nodes (redirect next first) a b) r)
    (h : Sim nodes first (redirect next first) r net) :
    Acc (fun b a => Network.Delivers blake3 addr a b) net := by
  induction hacc generalizing net with
  | intro r _ ih =>
      induction hn : net.inFlight.length using Nat.strong_induction_on generalizing net with
      | _ n ihn =>
          refine ⟨_, fun net' hd => ?_⟩
          rcases h.delivers ht hd with hidle | ⟨r', hr', hsim⟩ | ⟨hlt, hsim | hsim⟩
          · exact hidle.acc ht
          · exact ih r' hr' hsim
          · exact ihn _ (hn ▸ hlt) hsim rfl
          · rw [redirect_redirect] at hsim
            exact ihn _ (hn ▸ hlt) hsim rfl

/-- A cascade whose walks all end is finite. -/
theorem Sim.acc (ht : Topology addr nodes) (hacc : Acc (fun b a => handOver nodes next a b) r)
    (hnew : ∀ x, ReflTransGen (handOver nodes next) r x →
      Acc (fun b a => handOver nodes (redirect next first) a b) x)
    (h : Sim nodes first next r net) : Acc (fun b a => Network.Delivers blake3 addr a b) net := by
  induction hacc generalizing net with
  | intro r _ ih =>
      induction hn : net.inFlight.length using Nat.strong_induction_on generalizing net with
      | _ n ihn =>
          refine ⟨_, fun net' hd => ?_⟩
          rcases h.delivers ht hd with hidle | ⟨r', hr', hsim⟩ | ⟨hlt, hsim | hsim⟩
          · exact hidle.acc ht
          · exact ih r' hr' (fun x hx => hnew x (.head hr' hx)) hsim
          · exact ihn _ (hn ▸ hlt) hsim rfl
          · exact hsim.acc_redirected ht (hnew r .refl)

/-! ### Infinite cascades -/

variable (blake3) in
/-- The network can follow every hand-over, and the answer to the request is then in flight. -/
theorem Sim.follow {r' : Request} (h : Sim nodes first next r net) (ht : Topology addr nodes)
    (hr' : handOver nodes next r r') :
    ∃ net', net.Delivers blake3 addr net' ∧ Sim nodes first next r' net' ∧
      (∃ hops, r.answer hops ∈ net'.inFlight) ∧
      ∀ p ∈ net.inFlight, p.msg ≠ .relayRequest r.dst → p ∈ net'.inFlight := by
  obtain ⟨rest, hperm, hrest⟩ := h.inFlight
  obtain ⟨pre, post, hin⟩ := List.append_of_mem (hperm.mem_iff.mpr (List.mem_cons_self ..))
  have hpp : (pre ++ post).Perm rest := by
    have h1 : net.inFlight.Perm (r.packet :: (pre ++ post)) := by rw [hin]; exact List.perm_middle
    exact (h1.symm.trans hperm).cons_inv
  have hd : net.Delivers blake3 addr (net.arrive blake3 addr 0 r.packet (pre ++ post)) :=
    (Network.delivers_iff blake3 addr).mpr ⟨0, pre, r.packet, post, hin, rfl⟩
  refine ⟨_, hd, ?_⟩
  rcases h.request blake3 ht (fun q hq => hrest q (hpp.mem_iff.mp hq)) 0 with
    ⟨-, hnone⟩ | ⟨r'', hr'', huniq, hsim, hans⟩
  · exact absurd hr' (hnone r')
  · rw [huniq r' hr']
    refine ⟨hsim, hans, fun p hp hne => ?_⟩
    have hmem : p ∈ pre ++ post := by
      rw [hin] at hp
      simp only [List.mem_append, List.mem_cons] at hp ⊢
      rcases hp with hp | rfl | hp
      · exact .inl hp
      · exact absurd rfl hne
      · exact .inr hp
    exact List.mem_append_left _ hmem

/-- A walk that never ends is a cascade that never ends. -/
theorem Sim.infinite (ht : Topology addr nodes) (h : Sim nodes first next r net)
    (hacc : ¬ Acc (fun b a => handOver nodes next a b) r) :
    Run.Infinite (Network.Delivers blake3 addr) net := by
  refine Run.infinite_of_progress
    (fun net => ∃ r, Sim nodes first next r net ∧ ¬ Acc (fun b a => handOver nodes next a b) r) ?_
    ⟨r, h, hacc⟩
  rintro net ⟨r, h, hacc⟩
  obtain ⟨r', hr', hacc'⟩ := Run.exists_step_of_not_acc hacc
  obtain ⟨net', hd, hsim, -⟩ := h.follow blake3 ht hr'
  exact ⟨net', hd, r', hsim, hacc'⟩

variable (blake3) in
/-- Along a walk the answer to `first` can stay in flight. -/
theorem Sim.reach (ht : Topology addr nodes) (h : Sim nodes first next first net)
    (hr : TransGen (handOver nodes next) first r) :
    ∃ net', ReflTransGen (Network.Delivers blake3 addr) net net' ∧ Sim nodes first next r net' ∧
      ∃ hops, first.answer hops ∈ net'.inFlight := by
  induction hr with
  | single hr' =>
      obtain ⟨net', hd, hsim, hans, -⟩ := h.follow blake3 ht hr'
      exact ⟨net', .single hd, hsim, hans⟩
  | tail _ hr' ih =>
      obtain ⟨net1, hd1, hsim1, hops, hans⟩ := ih
      obtain ⟨net2, hd2, hsim2, -, hkeep⟩ := hsim1.follow blake3 ht hr'
      exact ⟨net2, hd1.tail hd2, hsim2, hops, hkeep _ hans (by simp [Request.answer])⟩

variable (blake3) in
/-- The answer to `first` can arrive whenever it is in flight. -/
theorem Sim.redirect (ht : Topology addr nodes) (h : Sim nodes first next r net) {hops : UInt8}
    (hans : first.answer hops ∈ net.inFlight) :
    ∃ net', net.Delivers blake3 addr net' ∧ Sim nodes first (redirect next first) r net' := by
  obtain ⟨pre, post, hin⟩ := List.append_of_mem hans
  obtain ⟨rest, hperm, hrest⟩ := h.inFlight
  have hperm0 : net.inFlight.Perm (first.answer hops :: (pre ++ post)) := by
    rw [hin]; exact List.perm_middle
  refine ⟨net.arrive blake3 addr 0 (first.answer hops) (pre ++ post),
    (Network.delivers_iff blake3 addr).mpr ⟨0, pre, _, post, hin, rfl⟩, ?_⟩
  rcases perm_cons_cases hperm0 hperm with ⟨he, -⟩ | ⟨hp, others, hrest', hothers⟩
  · exact absurd (congrArg Packet.msg he) (by simp [Request.answer, Request.packet])
  · obtain ⟨dst, ha⟩ := hrest _ hp
    obtain ⟨hops', hmsg⟩ := ha.ready
    have hdst : dst = first.dst := by
      simp only [Request.answer, Message.relayReady.injEq] at hmsg
      exact hmsg.2.1.symm
    exact (h.answer blake3 ht ha hrest'
      (fun q hq => hrest q (hothers.mem_iff.mpr (List.mem_cons_of_mem _ hq))) 0).2 ⟨rfl, hdst, rfl⟩

/-! ### The characterisation -/

theorem Sim.start (hlink : first.requester ∈ (nodes first.node).sessions) :
    Sim nodes first (nextHops nodes) first { nodes := nodes, inFlight := [first.packet] } where
  frame := .refl nodes
  hops _ _ _ := rfl
  inFlight := ⟨[], .refl _, by simp⟩
  link := hlink
  dst := .inl rfl

/-- The first delivery can only be that of the request. -/
theorem Sim.start_delivers (ht : Topology addr nodes) (hlink : first.requester ∈ (nodes first.node).sessions)
    {net' : Network τ}
    (hd : Network.Delivers blake3 addr { nodes := nodes, inFlight := [first.packet] } net') :
    Idle nodes net' ∨
      ∃ r', handOver nodes (nextHops nodes) first r' ∧ Sim nodes first (nextHops nodes) r' net' := by
  obtain ⟨nowMs, p, rest, hperm, rfl⟩ := hd.perm
  obtain ⟨rfl, rfl⟩ : first.packet = p ∧ rest = [] := by simpa using List.singleton_perm.mp hperm
  rcases (Sim.start hlink).request blake3 ht (List.forall_mem_nil _) nowMs with
    ⟨hidle, -⟩ | ⟨r', hr', -, hsim, -⟩
  · exact .inl hidle
  · exact .inr ⟨r', hr', hsim⟩

/-- **When the cascade of a relay request is finite**: exactly if no walk of hand-overs comes back
to a request, neither on the tables as they are, nor, from any hand-over on, on the tables with
the requester's next hop for the destination set to the first node. -/
theorem cascade_finite_iff (blake3 : Blake3) (ht : Topology addr nodes) (first : Request)
    (hlink : first.requester ∈ (nodes first.node).sessions) :
    ¬ Run.Infinite (Network.Delivers blake3 addr) { nodes := nodes, inFlight := [first.packet] } ↔
      Run.NoCycle (handOver nodes (nextHops nodes)) first ∧
        ∀ r, TransGen (handOver nodes (nextHops nodes)) first r →
          Run.NoCycle (handOver nodes (redirect (nextHops nodes) first)) r := by
  simp only [← Run.acc_iff_no_cycle]
  constructor
  · intro hfin
    constructor
    · by_contra hacc
      exact hfin ((Sim.start hlink).infinite ht hacc)
    · intro r hr
      by_contra hacc
      obtain ⟨net1, hreach, hsim1, hops, hans⟩ := (Sim.start hlink).reach blake3 ht hr
      obtain ⟨net2, hd, hsim2⟩ := hsim1.redirect blake3 ht hans
      exact hfin ((hsim2.infinite ht hacc).of_reaches (hreach.tail hd))
  · rintro ⟨hold, hnew⟩
    refine Run.not_infinite_of_acc ⟨_, fun net' hd => ?_⟩
    rcases Sim.start_delivers ht hlink hd with hidle | ⟨r', hr', hsim⟩
    · exact hidle.acc ht
    · exact hsim.acc ht (hold.inv hr') fun x hx => hnew x (.head' hr' hx)

/-! ### A ring of four nodes -/

def exampleAddr (p : PeerId) : TransportAddr := .udp (.v4 ⟨10, 0, 0, p.asBytes.headD 0⟩ 4242)

/-- The node `n` with sessions to `neighbours` and the next hops `paths`, as pairs of destination and
next hop. -/
def exampleNode (n : UInt8) (neighbours : List UInt8) (paths : List (UInt8 × UInt8)) : Engine Unit where
  ourPeerId := .replicate n
  siOverlay := default
  siOverlayIpv6 := default
  siHostname := ""
  sessions := (neighbours.map fun m => ⟨.replicate m, ⟨(), exampleAddr (.replicate m)⟩⟩).toAList
  addrIndex := (neighbours.map fun m => ⟨exampleAddr (.replicate m), .replicate m⟩).toAList
  relayPaths := (paths.map fun p => ⟨.replicate p.1, (.replicate p.2, 2)⟩).toAList

/-- Node `n` reaches the opposite node through `n + 1`. -/
def exampleRing (v : PeerId) : Engine Unit :=
  if v = .replicate 0 then exampleNode 0 [1, 3] [(2, 1)]
  else if v = .replicate 1 then exampleNode 1 [2, 0] [(3, 2)]
  else if v = .replicate 2 then exampleNode 2 [3, 1] [(0, 3)]
  else if v = .replicate 3 then exampleNode 3 [0, 2] [(1, 0)]
  else { exampleNode 0 [] [] with ourPeerId := v }

def ringIds : List PeerId := [.replicate 0, .replicate 1, .replicate 2, .replicate 3]

theorem exampleRing_outside {v : PeerId} (h : v ∉ ringIds) :
    (exampleRing v).sessions = ∅ ∧ (exampleRing v).ourPeerId = v := by
  simp only [ringIds, List.mem_cons, List.not_mem_nil, or_false, not_or] at h
  obtain ⟨h0, h1, h2, h3⟩ := h
  rw [exampleRing, if_neg h0, if_neg h1, if_neg h2, if_neg h3]
  exact ⟨rfl, rfl⟩

theorem exampleRing_topology : Topology exampleAddr exampleRing :=
  .of_members (by decide +kernel) (by decide +kernel) (by decide +kernel) (by decide +kernel)
    fun _ => exampleRing_outside

/-- The request of node 0 to its neighbour 1, for `dst`. -/
def exampleRequest (dst : UInt8) : Request := ⟨.replicate 1, .replicate 0, .replicate dst⟩

/-- A request for node 2, which is a neighbour of node 1, is answered at once. -/
theorem cascade_finite_direct :
    ¬ Run.Infinite (Network.Delivers (fun _ _ => 0) exampleAddr)
      { nodes := exampleRing, inFlight := [(exampleRequest 2).packet] } := by
  have hstop : ∀ r, ¬ handOver exampleRing (nextHops exampleRing) (exampleRequest 2) r := fun r hr =>
    hr.2.1 (by decide +kernel)
  refine (cascade_finite_iff _ exampleRing_topology (exampleRequest 2) (by decide +kernel)).mpr
    ⟨Run.noCycle_of_no_step hstop, fun r hr => ?_⟩
  obtain ⟨x, hx, -⟩ := TransGen.head'_iff.mp hr
  exact absurd hx (hstop x)

/-- A request for node 3 goes round the ring for ever. -/
theorem cascade_infinite_ring :
    ¬ ∀ (blake3 : Blake3) (addr : PeerId → TransportAddr) (nodes : PeerId → Engine Unit),
      Topology addr nodes → ∀ first : Request, first.requester ∈ (nodes first.node).sessions →
        ¬ Run.Infinite (Network.Delivers blake3 addr) { nodes := nodes, inFlight := [first.packet] } := by
  intro h
  refine h (fun _ _ => 0) exampleAddr exampleRing exampleRing_topology (exampleRequest 3)
    (by decide +kernel) ((Sim.start (by decide +kernel)).infinite exampleRing_topology fun hacc => ?_)
  have hop : ∀ a b c d : UInt8, 2 ≤ (exampleRing (.replicate a)).sessions.len →
      PeerId.replicate c ∉ (exampleRing (.replicate a)).sessions →
      nextHops exampleRing (.replicate a) (.replicate c) = some (.replicate d) →
      PeerId.replicate d ∈ (exampleRing (.replicate a)).sessions →
      handOver exampleRing (nextHops exampleRing) ⟨.replicate a, .replicate b, .replicate c⟩
        ⟨.replicate d, .replicate a, .replicate b⟩ := fun a b c d h1 h2 h3 h4 => ⟨h1, h2, h3, h4, rfl, rfl⟩
  refine Run.not_transGen_self_of_acc hacc ?_
  have h1 := hop 1 0 3 2 (by decide +kernel) (by decide +kernel) (by decide +kernel) (by decide +kernel)
  have h2 := hop 2 1 0 3 (by decide +kernel) (by decide +kernel) (by decide +kernel) (by decide +kernel)
  have h3 := hop 3 2 1 0 (by decide +kernel) (by decide +kernel) (by decide +kernel) (by decide +kernel)
  have h0 := hop 0 3 2 1 (by decide +kernel) (by decide +kernel) (by decide +kernel) (by decide +kernel)
  exact ((TransGen.single h1).tail h2).tail h3 |>.tail h0

end SeedNet
