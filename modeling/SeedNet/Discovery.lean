import Mathlib.Data.List.Destutter
import Mathlib.Data.List.Sort
import SeedNet.Run
import SeedNet.Tracker

/-! # Finding peers

The three sources of addresses that handshakes are started at: the direct peers of the configuration, the trackers
(a task of `crates/core/src/lib.rs` announces to all of them at once, and adds what they answer when the last one is
done) and the DHT (`DhtDiscovery::lookup` of `crates/dht/src/lib.rs`), which `run_discovery_loop`
(`crates/core/src/discovery.rs`) asks in every cycle.  The announcements, the end of the tracker task and the steps of
the loop come in any order, and between them the trackers change as they like.

`TrackerAccess.Tracks` says what trackers promise.  `tries_what_is_found`: a cycle comes to the direct peers, to what
the trackers have listed, if their task was done, and to what the DHT has found, and to nothing else. -/

namespace SeedNet

open Run (exec)

/-! ### Lists without repetitions -/

/-- The elements of `new` that are not there yet are pushed. -/
def appendNew {α : Type} [DecidableEq α] (l new : List α) : List α :=
  new.foldl (fun l a => if a ∈ l then l else l ++ [a]) l

section

variable {α : Type} [DecidableEq α] {l new : List α} {a : α}

theorem mem_appendNew : a ∈ appendNew l new ↔ a ∈ l ∨ a ∈ new := by
  induction new generalizing l with
  | nil => simp [appendNew]
  | cons b new ih =>
      rw [appendNew, List.foldl_cons]
      refine ih.trans ?_
      split
      · next hb =>
          rw [List.mem_cons]
          exact ⟨fun h => h.imp_right .inr, fun h => h.elim .inl fun h => h.elim (fun h => .inl (h ▸ hb)) .inr⟩
      · rw [List.mem_append, List.mem_singleton, List.mem_cons, or_assoc]

theorem nodup_appendNew (h : l.Nodup) : (appendNew l new).Nodup := by
  induction new generalizing l with
  | nil => exact h
  | cons b new ih =>
      rw [appendNew, List.foldl_cons]
      refine ih ?_
      split
      · exact h
      · next hb => exact List.nodup_append'.mpr ⟨h, List.nodup_singleton b, by simpa using hb⟩

theorem prefix_appendNew : l <+: appendNew l new := by
  induction new generalizing l with
  | nil => exact List.prefix_rfl
  | cons b new ih =>
      rw [appendNew, List.foldl_cons]
      refine List.IsPrefix.trans ?_ ih
      split
      · exact List.prefix_rfl
      · exact List.prefix_append l [b]

end

/-! ### The DHT -/

/-- The order of addresses: by their octets, then by their ports. -/
def TrackerPeer.Le (p q : TrackerPeer) : Prop :=
  BigEndian.decode (p.1.octets ++ toBe16 p.2) ≤ BigEndian.decode (q.1.octets ++ toBe16 q.2)

instance : DecidableRel TrackerPeer.Le := fun _ _ => Nat.decLe _ _

theorem TrackerPeer.eq_of_decode_eq {p q : TrackerPeer}
    (h : BigEndian.decode (p.1.octets ++ toBe16 p.2) = BigEndian.decode (q.1.octets ++ toBe16 q.2)) : p = q := by
  have hlen : (p.1.octets ++ toBe16 p.2).length = (q.1.octets ++ toBe16 q.2).length := rfl
  have hbytes := BigEndian.eq_of_decode_eq hlen h
  have haddrs := congrArg compactToAddrs hbytes
  obtain ⟨⟨a, b, c, d⟩, port⟩ := p
  obtain ⟨⟨a', b', c', d'⟩, port'⟩ := q
  simp only [Ipv4Addr.octets, toBe16, List.cons_append, List.nil_append, compactToAddrs, be16_toUInt16,
    List.cons.injEq, and_true, SocketAddr.v4.injEq] at haddrs
  rw [haddrs.1, haddrs.2]

instance : Std.Antisymm TrackerPeer.Le where
  antisymm _ _ hpq hqp := TrackerPeer.eq_of_decode_eq (Nat.le_antisymm hpq hqp)

instance : Std.Total TrackerPeer.Le where
  total _ _ := Nat.le_total _ _

instance : IsTrans TrackerPeer TrackerPeer.Le where
  trans _ _ _ := Nat.le_trans

/-- `DhtDiscovery::lookup`: the batches of the stream, sorted and de-duplicated. -/
def dhtLookup (batches : List (List TrackerPeer)) : List SocketAddr :=
  ((batches.flatten.insertionSort TrackerPeer.Le).destutter (· ≠ ·)).map TrackerPeer.addr

/-- What is found is listed once. -/
theorem dhtLookup_eq (batches : List (List TrackerPeer)) :
    dhtLookup batches = (batches.flatten.insertionSort TrackerPeer.Le).dedup.map TrackerPeer.addr := by
  rw [dhtLookup, (List.pairwise_insertionSort TrackerPeer.Le batches.flatten).destutter_eq_dedup]

theorem mem_dhtLookup {batches : List (List TrackerPeer)} {addr : SocketAddr} :
    addr ∈ dhtLookup batches ↔ ∃ batch ∈ batches, ∃ p ∈ batch, p.addr = addr := by
  rw [dhtLookup_eq]
  simp only [List.mem_map, List.mem_dedup, List.mem_insertionSort, List.mem_flatten]
  constructor
  · rintro ⟨p, ⟨batch, hbatch, hp⟩, rfl⟩
    exact ⟨batch, hbatch, p, hp, rfl⟩
  · rintro ⟨batch, hbatch, p, hp, rfl⟩
    exact ⟨p, ⟨batch, hbatch, hp⟩, rfl⟩

/-! ### Trackers -/

variable {σ : Type}

/-- A UDP tracker at `host` hands out connection IDs, and answers announcements with the swarm of their info-hash. -/
def UdpTracker (exchange : σ → String → Bytes → Except String Bytes × σ) (host : String)
    (swarm : σ → InfoHash → List TrackerPeer) : Prop :=
  ∀ s transactionId, ∃ connectionId more s',
    exchange s host (ConnectRequest.encode transactionId) =
      (.ok (toBeBytes 0 ++ (toBeBytes transactionId ++ (toBe64 connectionId ++ more))), s') ∧
    (∀ infoHash, swarm s' infoHash = swarm s infoHash) ∧
    ∀ r : AnnounceRequest, r.connectionId = connectionId → ∃ head s'',
      exchange s' host r.encode = (.ok (toBeBytes 1 ++ (head ++ compact (swarm s' r.infoHash))), s'') ∧ head.length = 16

/-- An HTTP tracker at `url` answers an announcement that it can read with the swarm of its info-hash. -/
def HttpTracker (get : σ → String → Except String HttpTrackerResponse × σ) (url : String)
    (swarm : σ → InfoHash → List TrackerPeer) : Prop :=
  ∀ s (address : String) infoHash peerId port,
    PercentEncoding.read (PercentEncoding.query address.toList) = announcement infoHash peerId port →
      url.toList <+: address.toList → ∃ peers s', get s address = (.ok { peers }, s') ∧
        (peers = .compact (compact (swarm s infoHash)) ∨
          peers = .full ((swarm s infoHash).map fun p => ⟨p.1.display, p.2⟩) ∨ peers = .empty ∧ swarm s infoHash = [])

namespace TrackerAccess

variable {access : TrackerAccess σ} {url : String} {swarm : σ → InfoHash → List TrackerPeer}

/-- What the tracker at `url` lists is what is in its swarms. -/
structure Tracks (access : TrackerAccess σ) (url : String) (swarm : σ → InfoHash → List TrackerPeer) : Prop where
  udp : hasScheme "udp://" url = true → UdpTracker access.exchange (hostPort url) swarm
  http : (hasScheme "http://" url || hasScheme "https://" url) = true →
    HttpTracker access.get url swarm ∧ '#' ∉ url.toList ∧ '?' ∉ url.toList

end TrackerAccess

/-- The part of a swarm that a tracker tells: a datagram has room for 167 peers. -/
def listed (url : String) (peers : List TrackerPeer) : List TrackerPeer :=
  if hasScheme "http://" url || hasScheme "https://" url then peers
  else if hasScheme "udp://" url then peers.take 167
  else []

theorem take_compact (peers : List TrackerPeer) (n : ℕ) :
    ∃ rest, (compact peers).take n = compact (peers.take (n / 6)) ++ rest ∧ rest.length < 6 := by
  have happend : compact peers = compact (peers.take (n / 6)) ++ compact (peers.drop (n / 6)) := by
    rw [compact, compact, compact, ← List.flatMap_append, List.take_append_drop]
  have hlen := length_compact (peers.take (n / 6))
  rw [List.length_take] at hlen
  refine ⟨(compact (peers.drop (n / 6))).take (n - (compact (peers.take (n / 6))).length), ?_, ?_⟩
  · conv_lhs => rw [happend]
    rw [List.take_append, List.take_of_length_le (by omega)]
  · rw [List.length_take, length_compact (peers.drop (n / 6)), List.length_drop]
    omega

namespace TrackerAccess.Tracks

variable {access : TrackerAccess σ} {url : String} {swarm : σ → InfoHash → List TrackerPeer}

theorem http_announce (h : access.Tracks url swarm)
    (hscheme : (hasScheme "http://" url || hasScheme "https://" url) = true) (s : σ) (infoHash : InfoHash)
    (peerId : TrackerPeerId) (port : UInt16) :
    ∃ s', httpAnnounce access.get url infoHash peerId port s =
      (.ok ((swarm s infoHash).map TrackerPeer.addr), s') := by
  obtain ⟨htracker, hfragment, hquery⟩ := h.http hscheme
  have hprefix : url.toList <+: (announceUrl url infoHash peerId port).toList := by
    rw [toList_announceUrl]
    exact List.prefix_append _ _
  obtain ⟨peers, s', hget, hpeers⟩ := htracker s _ infoHash peerId port
    (read_announceUrl hfragment hquery infoHash peerId port) hprefix
  refine ⟨s', ?_⟩
  have haddrs : peers.addrs = (swarm s infoHash).map TrackerPeer.addr := by
    rcases hpeers with rfl | rfl | ⟨rfl, hnone⟩
    · have hcompact : compactToAddrs (compact (swarm s infoHash) ++ []) = _ :=
        compactToAddrs_compact _ (by decide)
      rwa [List.append_nil] at hcompact
    · have hparse (p : TrackerPeer) : (Ipv4Addr.parse p.1.display).map (fun ip => SocketAddr.v4 ip p.2) = some p.addr := by
        rw [Ipv4Addr.parse_display]
        rfl
      simp only [PeersField.addrs, List.filterMap_map, Function.comp_def, hparse]
      exact congrFun List.filterMap_eq_map _
    · rw [hnone]
      rfl
  rw [httpAnnounce, hget]
  simp [haddrs]

theorem udp_announce (h : access.Tracks url swarm) (hscheme : hasScheme "udp://" url = true) (s : σ)
    (infoHash : InfoHash) (peerId : TrackerPeerId) (port : UInt16) (transactionId : UInt32) :
    ∃ s', udpAnnounce access.exchange url infoHash peerId port transactionId s =
      (.ok (((swarm s infoHash).take 167).map TrackerPeer.addr), s') := by
  obtain ⟨connectionId, more, s₁, hconnect, hsame, hanswers⟩ := h.udp hscheme s transactionId
  obtain ⟨head, s₂, hannounce, hhead⟩ := hanswers { connectionId, transactionId, infoHash, peerId, port } rfl
  obtain ⟨rest, htake, hrest⟩ := take_compact (swarm s infoHash) 1004
  have hone : (toBeBytes 1).length = 4 := rfl
  refine ⟨s₂, udpAnnounce_of_responses hconnect hannounce ?_ hhead hrest⟩
  rw [hsame, ← htake, List.take_append, List.take_append, List.take_of_length_le (by omega),
    List.take_of_length_le (by omega), hone, hhead]

/-- An announcement returns what the tracker lists. -/
theorem announce_eq (h : access.Tracks url swarm) (s : σ) (infoHash : InfoHash) (peerId : TrackerPeerId)
    (port : UInt16) (transactionId : UInt32) :
    (announce access url infoHash peerId port transactionId s).1 =
      (listed url (swarm s infoHash)).map TrackerPeer.addr := by
  unfold announce listed
  split
  · next hscheme =>
      obtain ⟨s', heq⟩ := h.http_announce hscheme s infoHash peerId port
      rw [heq]
  · split
    · next hscheme =>
        obtain ⟨s', heq⟩ := h.udp_announce hscheme s infoHash peerId port transactionId
        rw [heq]
    · rfl

end TrackerAccess.Tracks

/-! ### The tracker task and the discovery loop -/

/-- What a node is configured with. -/
structure FinderConfig where
  directPeers : List SocketAddr
  trackerUrls : List String
  infoHash : InfoHash
  peerId : TrackerPeerId
  port : UInt16

/-- Where the discovery loop is; `merged` says if the tracker task was done when the cycle began. -/
inductive FinderStage where
  | waiting
  /-- the DHT is asked; the addresses of the direct peers and the trackers are copied -/
  | lookingUp (merged : Bool) (snapshot : List SocketAddr)
  /-- the DHT has found these batches, and the loop goes through the addresses -/
  | trying (merged : Bool) (batches : List (List TrackerPeer)) (tried rest : List SocketAddr)
deriving DecidableEq

structure Finder (σ : Type) where
  /-- the direct peers and those discovered from trackers -/
  trackerAddrs : List SocketAddr
  /-- for every tracker, the answer to the announcement, and the state that the trackers were in -/
  answers : List (Option (σ × List SocketAddr))
  merged : Bool := false
  stage : FinderStage := .waiting
  trackers : σ

inductive FinderAction (σ : Type) where
  /-- the trackers change -/
  | elsewhere (trackers : σ)
  /-- the task for a tracker announces to it -/
  | announced (i : ℕ) (transactionId : UInt32)
  /-- the tracker task has the answers of all of them -/
  | merge
  | snapshot
  /-- the lookup is done, or has failed -/
  | lookup (batches : Option (List (List TrackerPeer)))
  /-- the loop comes to the next address -/
  | tryNext

namespace Finder

variable (access : TrackerAccess σ) (cfg : FinderConfig)

def start (trackers : σ) : Finder σ where
  trackerAddrs := cfg.directPeers
  answers := cfg.trackerUrls.map fun _ => none
  trackers := trackers

/-- What all trackers have answered, in the order of the trackers. -/
def discovered (f : Finder σ) : List SocketAddr := f.answers.flatMap fun a => (a.map Prod.snd).getD []

def next (f : Finder σ) : FinderAction σ → Finder σ
  | .elsewhere trackers => { f with trackers := trackers }
  | .announced i transactionId =>
    match cfg.trackerUrls[i]?, f.answers[i]? with
    | some url, some none =>
      let r := announce access url cfg.infoHash cfg.peerId cfg.port transactionId f.trackers
      { f with answers := f.answers.set i (some (f.trackers, r.1)), trackers := r.2 }
    | _, _ => f
  | .merge =>
    if f.merged = false ∧ ∀ a ∈ f.answers, a.isSome then
      { f with trackerAddrs := appendNew f.trackerAddrs f.discovered, merged := true }
    else f
  | .snapshot =>
    match f.stage with
    | .waiting => { f with stage := .lookingUp f.merged f.trackerAddrs }
    | _ => f
  | .lookup batches =>
    match f.stage with
    | .lookingUp merged snapshot =>
      let batches := batches.getD []
      { f with stage := .trying merged batches [] (appendNew snapshot (dhtLookup batches)) }
    | _ => f
  | .tryNext =>
    match f.stage with
    | .trying merged batches tried (addr :: rest) => { f with stage := .trying merged batches (tried ++ [addr]) rest }
    | .trying _ _ _ [] => { f with stage := .waiting }
    | _ => f

/-- The direct peers, and with them what the trackers have answered. -/
def known (f : Finder σ) (merged : Bool) : List SocketAddr :=
  if merged then appendNew cfg.directPeers f.discovered else cfg.directPeers

/-- The state that the trackers were in when a task announced to the `i`-th one. -/
def askedAt (f : Finder σ) (i : ℕ) : Option σ := (f.answers[i]?).join.map Prod.fst

/-- What the stage of the loop has come from. -/
def StageOf (f : Finder σ) : FinderStage → Prop
  | .waiting => True
  | .lookingUp merged snapshot => (merged = true → f.merged = true) ∧ snapshot = f.known cfg merged
  | .trying merged batches tried rest =>
    (merged = true → f.merged = true) ∧ tried ++ rest = appendNew (f.known cfg merged) (dhtLookup batches)

theorem StageOf.mono {cfg : FinderConfig} {f f' : Finder σ} {stage : FinderStage} (h : f.StageOf cfg stage)
    (hmerged : f.merged = true → f'.merged = true)
    (hknown : ∀ m, (m = true → f.merged = true) → f'.known cfg m = f.known cfg m) : f'.StageOf cfg stage := by
  cases stage with
  | waiting => trivial
  | lookingUp m snapshot => exact ⟨fun hm => hmerged (h.1 hm), h.2.trans (hknown m h.1).symm⟩
  | trying m batches tried rest => exact ⟨fun hm => hmerged (h.1 hm), by rw [hknown m h.1]; exact h.2⟩

/-- Every answer is what the tracker listed, and the addresses are those of the direct peers and of the answers. -/
structure Sound (swarm : String → σ → InfoHash → List TrackerPeer) (f : Finder σ) : Prop where
  length_eq : f.answers.length = cfg.trackerUrls.length
  answers : ∀ (i : ℕ) url s addrs, cfg.trackerUrls[i]? = some url → f.answers[i]? = some (some (s, addrs)) →
    addrs = (listed url (swarm url s cfg.infoHash)).map TrackerPeer.addr
  complete : f.merged = true → ∀ a ∈ f.answers, a.isSome
  trackerAddrs : f.trackerAddrs = f.known cfg f.merged
  stage : f.StageOf cfg f.stage

variable {access cfg} {swarm : String → σ → InfoHash → List TrackerPeer} {f : Finder σ}

theorem sound_start (trackers : σ) : (start cfg trackers).Sound cfg swarm where
  length_eq := List.length_map _
  answers i url s addrs hurl hanswer := by
    rw [start, List.getElem?_map, hurl] at hanswer
    cases hanswer
  complete h := by cases h
  trackerAddrs := rfl
  stage := trivial

theorem Sound.next (htracks : ∀ url ∈ cfg.trackerUrls, access.Tracks url (swarm url)) (h : f.Sound cfg swarm)
    (a : FinderAction σ) : (f.next access cfg a).Sound cfg swarm := by
  cases a with
  | elsewhere trackers => exact ⟨h.length_eq, h.answers, h.complete, h.trackerAddrs, h.stage⟩
  | announced i transactionId =>
      unfold Finder.next
      dsimp only
      split
      · next url hurl hopen =>
          -- a task is still running, so nothing has been merged yet
          have hmerged : f.merged = false := by
            refine Bool.eq_false_iff.mpr fun hmerged => ?_
            cases h.complete hmerged none (List.mem_of_getElem? hopen)
          refine ⟨by rw [List.length_set, h.length_eq], fun j url' s addrs hurl' hanswer => ?_, fun hm => ?_, ?_, ?_⟩
          · rw [List.getElem?_set] at hanswer
            split at hanswer
            · next hij =>
                subst hij
                split at hanswer
                · cases hurl.symm.trans hurl'
                  cases hanswer
                  exact (htracks url (List.mem_of_getElem? hurl)).announce_eq _ _ _ _ _
                · cases hanswer
            · exact h.answers j url' s addrs hurl' hanswer
          · exact absurd (hmerged.symm.trans hm) (by decide)
          · exact h.trackerAddrs.trans (by rw [hmerged]; rfl)
          · refine h.stage.mono id fun m hm => ?_
            cases m
            · rfl
            · exact absurd (hmerged.symm.trans (hm rfl)) (by decide)
      · exact h
  | merge =>
      unfold Finder.next
      dsimp only
      split
      · next hready =>
          refine ⟨h.length_eq, h.answers, fun _ => hready.2, ?_, ?_⟩
          · rw [h.trackerAddrs, hready.1]
            rfl
          · exact h.stage.mono (fun _ => rfl) fun _ _ => rfl
      · exact h
  | snapshot =>
      unfold Finder.next
      dsimp only
      split
      · exact ⟨h.length_eq, h.answers, h.complete, h.trackerAddrs, id, h.trackerAddrs⟩
      · exact h
  | lookup batches =>
      unfold Finder.next
      dsimp only
      split
      · next merged snapshot hstage =>
          have hold := h.stage
          rw [hstage] at hold
          exact ⟨h.length_eq, h.answers, h.complete, h.trackerAddrs, hold.1, congrArg (appendNew · _) hold.2⟩
      · exact h
  | tryNext =>
      unfold Finder.next
      dsimp only
      split
      · next merged batches tried addr rest hstage =>
          have hold := h.stage
          rw [hstage] at hold
          refine ⟨h.length_eq, h.answers, h.complete, h.trackerAddrs, hold.1, ?_⟩
          rw [List.append_assoc]
          exact hold.2
      · exact ⟨h.length_eq, h.answers, h.complete, h.trackerAddrs, trivial⟩
      · exact h

/-- After the merge, an address is known exactly if it is a direct peer or a tracker has listed it. -/
theorem Sound.mem_known (h : f.Sound cfg swarm) (hmerged : f.merged = true) {addr : SocketAddr} :
    addr ∈ f.known cfg true ↔ addr ∈ cfg.directPeers ∨ ∃ (i : ℕ) (url : String) (s : σ) (p : TrackerPeer),
      cfg.trackerUrls[i]? = some url ∧ f.askedAt i = some s ∧ p ∈ listed url (swarm url s cfg.infoHash) ∧
        p.addr = addr := by
  rw [known, if_pos rfl, mem_appendNew, discovered, List.mem_flatMap]
  refine or_congr Iff.rfl ⟨?_, ?_⟩
  · rintro ⟨a, ha, haddr⟩
    obtain ⟨⟨s, addrs⟩, rfl⟩ := Option.isSome_iff_exists.mp (h.complete hmerged a ha)
    obtain ⟨i, hi, hanswer⟩ := List.getElem_of_mem ha
    have hlt : i < cfg.trackerUrls.length := h.length_eq ▸ hi
    have hurl : cfg.trackerUrls[i]? = some cfg.trackerUrls[i] := List.getElem?_eq_getElem hlt
    have hlookup : f.answers[i]? = some (some (s, addrs)) := by rw [List.getElem?_eq_getElem hi, hanswer]
    have haddrs := h.answers i _ s addrs hurl hlookup
    obtain ⟨p, hp, hpaddr⟩ := List.mem_map.mp (haddrs ▸ haddr)
    exact ⟨i, _, s, p, hurl, by rw [askedAt, hlookup]; rfl, hp, hpaddr⟩
  · rintro ⟨i, url, s, p, hurl, hasked, hp, rfl⟩
    obtain ⟨⟨s', addrs⟩, hjoin, rfl⟩ := Option.map_eq_some_iff.mp hasked
    have hlookup : f.answers[i]? = some (some (s', addrs)) := Option.join_eq_some_iff.mp hjoin
    refine ⟨_, List.mem_of_getElem? hlookup, ?_⟩
    show p.addr ∈ addrs
    rw [h.answers i url s' addrs hurl hlookup]
    exact List.mem_map_of_mem hp

/-- **A cycle tries what has been found.**  The addresses that the discovery loop comes to in a cycle are the direct
peers, what the trackers have listed, if the tracker task had merged their answers when the cycle began, and what the
DHT has found.  The direct peers come first, and if they differ from each other, no address comes twice. -/
theorem tries_what_is_found (swarm : String → σ → InfoHash → List TrackerPeer)
    (htracks : ∀ url ∈ cfg.trackerUrls, access.Tracks url (swarm url)) (trackers : σ) (as : List (FinderAction σ))
    {merged : Bool} {batches : List (List TrackerPeer)} {tried rest : List SocketAddr}
    (hstage : (exec (next access cfg) (start cfg trackers) as).stage = .trying merged batches tried rest) :
    (∀ addr, addr ∈ tried ++ rest ↔ addr ∈ cfg.directPeers ∨ (merged = true ∧
      ∃ (i : ℕ) (url : String) (s : σ) (p : TrackerPeer), cfg.trackerUrls[i]? = some url ∧
        (exec (next access cfg) (start cfg trackers) as).askedAt i = some s ∧
          p ∈ listed url (swarm url s cfg.infoHash) ∧ p.addr = addr) ∨
      ∃ batch ∈ batches, ∃ p ∈ batch, p.addr = addr) ∧
      cfg.directPeers <+: tried ++ rest ∧ (cfg.directPeers.Nodup → (tried ++ rest).Nodup) := by
  have hsound : (exec (next access cfg) (start cfg trackers) as).Sound cfg swarm :=
    Run.exec_invariant (fun f a hf => hf.next htracks a) (sound_start trackers) as
  obtain ⟨hmerged, htried⟩ : (merged = true → _) ∧ tried ++ rest = _ := hstage ▸ hsound.stage
  rw [htried]
  refine ⟨fun addr => ?_, ?_, fun hnodup => nodup_appendNew ?_⟩
  · rw [mem_appendNew, mem_dhtLookup]
    cases merged with
    | false =>
        rw [known, if_neg Bool.false_ne_true]
        simp
    | true =>
        rw [hsound.mem_known (hmerged rfl), or_assoc]
        simp only [true_and]
  · refine List.IsPrefix.trans ?_ prefix_appendNew
    unfold known
    split
    · exact prefix_appendNew
    · exact List.prefix_rfl
  · unfold known
    split
    · exact nodup_appendNew hnodup
    · exact hnodup

end Finder

/-! ### A run -/

/-- The peers of the network with this info-hash. -/
def swarmOf (s : List (InfoHash × TrackerPeer)) (infoHash : Bytes) : List TrackerPeer :=
  (s.filter fun entry => entry.1.bytes = infoHash).map Prod.snd

/-- Trackers that all know the same peers, over UDP and over HTTP. -/
def sharedTrackers : TrackerAccess (List (InfoHash × TrackerPeer)) where
  exchange s _ request :=
    if request.length = 16 then (.ok (toBeBytes 0 ++ (request.drop 12 ++ (toBe64 7 ++ []))), s)
    else
      (.ok (toBeBytes 1 ++ (List.replicate 16 0 ++ compact (swarmOf s ((request.drop 16).take 20)))), s)
  get s address :=
    match PercentEncoding.read (PercentEncoding.query address.toList) with
    | (_, some infoHash) :: _ => (.ok { peers := .full ((swarmOf s infoHash).map fun p => ⟨p.1.display, p.2⟩) }, s)
    | _ => (.error "bad request", s)

theorem sharedTrackers_tracks {url : String} (hfragment : '#' ∉ url.toList) (hquery : '?' ∉ url.toList) :
    sharedTrackers.Tracks url fun s infoHash => swarmOf s infoHash.bytes where
  udp _ s transactionId := by
    refine ⟨7, [], s, rfl, fun _ => rfl, fun r _ => ⟨List.replicate 16 0, s, ?_, rfl⟩⟩
    have hlen : r.encode.length ≠ 16 := by
      have hhash : r.infoHash.bytes.length = 20 := r.infoHash.length_eq
      simp only [AnnounceRequest.encode, List.length_append, hhash]
      omega
    have hinfo : (r.encode.drop 16).take 20 = r.infoHash.bytes := List.take_left' r.infoHash.length_eq
    rw [sharedTrackers]
    dsimp only
    rw [if_neg hlen, hinfo]
  http _ := by
    refine ⟨fun s address infoHash peerId port hread _ => ⟨_, s, ?_, .inr (.inl rfl)⟩, hfragment, hquery⟩
    rw [sharedTrackers]
    dsimp only
    rw [hread]
    rfl

def finderConfig : FinderConfig where
  directPeers := [.v4 ⟨192, 0, 2, 1⟩ 51820]
  trackerUrls := ["udp://tracker.opentrackr.org:1337/announce", "udp://open.demonii.com:1337/announce"]
  infoHash := ⟨List.replicate 20 200, rfl⟩
  peerId := ⟨List.replicate 20 1, rfl⟩
  port := 51820

def finderBatches : List (List TrackerPeer) :=
  [[(⟨192, 0, 2, 3⟩, 51820), (⟨192, 0, 2, 1⟩, 51820)], [(⟨192, 0, 2, 3⟩, 51820)]]

/-- Both trackers answer, one of them after another peer has announced itself, and then a cycle begins. -/
def finderRun : List (FinderAction (List (InfoHash × TrackerPeer))) :=
  [.announced 1 0, .elsewhere [(finderConfig.infoHash, (⟨192, 0, 2, 2⟩, 51820))], .announced 0 5, .merge, .snapshot,
    .lookup (some finderBatches), .tryNext]

def finderEnd : Finder (List (InfoHash × TrackerPeer)) :=
  exec (Finder.next sharedTrackers finderConfig) (.start finderConfig []) finderRun

theorem tries_what_is_found_run :
    let peers : List SocketAddr := [.v4 ⟨192, 0, 2, 1⟩ 51820, .v4 ⟨192, 0, 2, 2⟩ 51820, .v4 ⟨192, 0, 2, 3⟩ 51820]
    (∀ addr, addr ∈ peers ↔ addr ∈ finderConfig.directPeers ∨
      (∃ (i : ℕ) (url : String) (s : List (InfoHash × TrackerPeer)) (p : TrackerPeer),
        finderConfig.trackerUrls[i]? = some url ∧ finderEnd.askedAt i = some s ∧
          p ∈ listed url (swarmOf s finderConfig.infoHash.bytes) ∧ p.addr = addr) ∨
      ∃ batch ∈ finderBatches, ∃ p ∈ batch, p.addr = addr) ∧
      finderConfig.directPeers <+: peers ∧ (finderConfig.directPeers.Nodup → peers.Nodup) := by
  have hurls : ∀ url ∈ finderConfig.trackerUrls, '#' ∉ url.toList ∧ '?' ∉ url.toList := by decide +kernel
  have hstage : finderEnd.stage = .trying true finderBatches [.v4 ⟨192, 0, 2, 1⟩ 51820]
    [.v4 ⟨192, 0, 2, 2⟩ 51820, .v4 ⟨192, 0, 2, 3⟩ 51820] := by decide +kernel
  have hfound := Finder.tries_what_is_found (fun _ s infoHash => swarmOf s infoHash.bytes)
    (fun url hurl => sharedTrackers_tracks (hurls url hurl).1 (hurls url hurl).2) [] finderRun hstage
  simp only [true_and] at hfound
  exact hfound

end SeedNet
