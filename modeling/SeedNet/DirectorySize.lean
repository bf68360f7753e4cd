import SeedNet.LiveRecords
import SeedNet.Mesh
import SeedNet.Nonces

/-! # The size of peer directories

A directory has an entry of 39 to 53 bytes for every peer that its sender knows, and no directory is ever
split, but `encrypt` takes messages of at most 65519 bytes.  The five places that build directories ignore
that it fails: the peer learns of nobody then.

`Engine.directories` are the directories that are built at a `DirectoryEvent`, and `Engine.RoomFor` is the
condition on the engine's tables under which all of them can be sent: for every receiver, the entries of
the sessions and paths that go into its directory have at most `maxEntriesLen` bytes.  Directories that are
passed on always fit, since they have been received.  With at most 1236 sessions and paths there is always room
(`roomFor_of_few`).  `directories_fit_iff` says for whole runs that the condition is exact. -/

namespace SeedNet

open Run (exec Along)

/-! ### Messages that can be sent -/

/-- `encrypt` takes the message. -/
def Message.Sendable (msg : Message) : Prop := (serializeMessage msg).length + 16 ≤ maxMessageLen

instance (msg : Message) : Decidable msg.Sendable := inferInstanceAs (Decidable (_ ≤ _))

def Message.isDirectory : Message → Bool
  | .peerDirectory _ => true
  | _ => false

/-- What a message that can be sent leaves for the entries of a directory. -/
def maxEntriesLen : ℕ := 65516

theorem sendable_directory (entries : List DirectoryEntry) :
    (Message.peerDirectory entries).Sendable ↔ entriesLen entries ≤ maxEntriesLen := by
  have hmin := le_entriesLen entries
  have hmax := entriesLen_le entries
  rw [Message.Sendable, length_directory]
  simp only [maxMessageLen, maxEntriesLen]
  by_cases hone : entries.length < 128
  · rw [length_usize (by omega), Nat.log_of_lt hone]
    omega
  · by_cases htwo : entries.length < 128 ^ 2
    · have hlog : Nat.log 128 entries.length = 1 := Nat.log_eq_one_iff'.mpr ⟨by omega, by omega⟩
      rw [length_usize (by omega), hlog]
      omega
    · omega

theorem sendable_single (k : DirectoryEntry) : (Message.peerDirectory [k]).Sendable := by
  have hlen := entriesLen_le [k]
  rw [sendable_directory]
  simp only [List.length_singleton, maxEntriesLen] at hlen ⊢
  omega

/-- A message that is too large is never sent. -/
theorem Engine.transmitOne_of_not_sendable {S : Snow} (hlimited : S.Limited) (e : Engine (SecureTransport S))
    {s : Send} (h : ¬ s.msg.Sendable) : (e.transmitOne s).2 = [] := by
  unfold transmitOne
  cases e.sessions.lookup s.peer with
  | none => rfl
  | some session =>
      obtain ⟨err, herr⟩ := session.transport.encrypt_error hlimited fun hlimits => h hlimits.2
      dsimp only
      rw [herr]

/-! ### The directories of an engine -/

/-- What an engine builds directories for. -/
inductive DirectoryEvent where
  /-- the inbound loop handles a `SessionInit`, or a directory that it passes on -/
  | message (nowMs : UInt64) (fromAddr : TransportAddr) (msg : Message)
  /-- a handshake that we started is complete -/
  | initiator (peerId : PeerId) (addr : SocketAddr)
  | postStun
  | periodic

namespace Engine

variable {τ : Type} (blake3 : Blake3) (e : Engine τ)

/-- The directories that are built. -/
def directories : DirectoryEvent → List Send
  | .message nowMs fromAddr msg =>
    (e.handleMessage blake3 nowMs fromAddr msg).sends.filter fun s => s.msg.isDirectory
  | .initiator peerId addr => e.initiatorDirectories peerId addr
  | .postStun => e.postStunBroadcast
  | .periodic => e.periodicBroadcast

/-! ### The condition -/

/-- The session of the peer is over UDP. -/
def overUdp (peerId : PeerId) : Bool :=
  match e.sessions.lookup peerId with
  | some ⟨_, .udp _⟩ => true
  | _ => false

/-- The bytes for the sessions over UDP other than `skip`. -/
def directLen (skip : PeerId) : ℕ :=
  (e.sessions.entries.map fun s =>
    match s.2.underlay with
    | .udp a => if s.1 = skip then 0 else entryLen a
    | _ => 0).sum

/-- The bytes for the relayed peers other than those of `skips`, as far as their public address is known. -/
def relayedLen (skips : List PeerId) : ℕ :=
  (e.relayPaths.keys.map fun p =>
    if p ∈ skips ∨ e.overUdp p then 0
    else (((e.peerMgr.get p).bind fun peer => peer.publicAddr).map entryLen).getD 0).sum

/-- Every directory that is built can be sent. -/
def RoomFor : DirectoryEvent → Prop
  | .message _ (.udp a) (.sessionInit ..) =>
    ∀ p ∈ e.addrIndex.lookup (.udp a), 2 ≤ e.sessions.len → e.directLen p + e.relayedLen [p] ≤ maxEntriesLen
  | .message .. => True
  | .initiator peerId _ => e.relayAddr.isSome → e.directLen peerId ≤ maxEntriesLen
  | .postStun =>
    2 ≤ e.sessions.len →
      ∀ q ∈ e.sessions.keys, e.directLen q + e.relayedLen [e.ourPeerId, q] ≤ maxEntriesLen
  | .periodic => e.relayAddr.isSome → ∀ q ∈ e.sessions.keys, e.directLen q ≤ maxEntriesLen

/-! ### The bytes of the entries -/

theorem entriesLen_filterMap {α : Type*} (f : α → Option DirectoryEntry) (l : List α) :
    entriesLen (l.filterMap f) = (l.map fun x => ((f x).map fun k => entryLen k.2.1).getD 0).sum := by
  induction l with
  | nil => rfl
  | cons x l ih =>
      rw [List.map_cons, List.sum_cons, ← ih, List.filterMap_cons]
      cases f x with
      | none => simp
      | some k => simp [entriesLen]

theorem entriesLen_directPeers (skip : PeerId) : entriesLen (e.directPeers skip) = e.directLen skip := by
  rw [directPeers, entriesLen_filterMap, directLen]
  refine congrArg List.sum (List.map_congr_left fun s _ => ?_)
  cases s.2.underlay with
  | udp a =>
      dsimp only
      split <;> rfl
  | tcp | ws | wss => rfl

theorem filter_allDirectPeers (q : PeerId) : (e.allDirectPeers.filter fun k => k.1 ≠ q) = e.directPeers q := by
  rw [allDirectPeers, directPeers, List.filter_filterMap]
  refine List.filterMap_congr fun s _ => ?_
  cases s.2.underlay with
  | udp a => by_cases hs : s.1 = q <;> simp [hs]
  | tcp | ws | wss => rfl

theorem mem_allDirectPeers {k : DirectoryEntry} :
    k ∈ e.allDirectPeers ↔ k.2.2 = 1 ∧ ∃ t, e.sessions.lookup k.1 = some ⟨t, .udp k.2.1⟩ := by
  obtain ⟨p, a, h⟩ := k
  rw [allDirectPeers, List.mem_filterMap]
  constructor
  · rintro ⟨⟨q, t, underlay⟩, hs, hk⟩
    cases underlay <;> cases hk
    exact ⟨rfl, t, AList.mem_lookup_iff.mpr hs⟩
  · rintro ⟨hone, t, hlookup⟩
    dsimp only at hone hlookup
    subst hone
    exact ⟨⟨p, ⟨t, .udp a⟩⟩, AList.mem_lookup_iff.mp hlookup, rfl⟩

theorem overUdp_iff {q : PeerId} : e.overUdp q = true ↔ ∃ t a, e.sessions.lookup q = some ⟨t, .udp a⟩ := by
  unfold overUdp
  split
  · next t a hlookup => exact ⟨fun _ => ⟨t, a, hlookup⟩, fun _ => rfl⟩
  · next hother =>
      refine ⟨fun h => ?_, fun ⟨t, a, h⟩ => absurd h (hother t a)⟩
      cases h

theorem any_allDirectPeers (q : PeerId) : e.allDirectPeers.any (fun k => k.1 = q) = e.overUdp q := by
  rw [Bool.eq_iff_iff, List.any_eq_true, overUdp_iff]
  constructor
  · rintro ⟨k, hk, hq⟩
    obtain ⟨-, t, hlookup⟩ := e.mem_allDirectPeers.mp hk
    exact ⟨t, k.2.1, of_decide_eq_true hq ▸ hlookup⟩
  · rintro ⟨t, a, hlookup⟩
    exact ⟨(q, a, 1), e.mem_allDirectPeers.mpr ⟨rfl, t, hlookup⟩, decide_eq_true rfl⟩

theorem any_directPeers {p q : PeerId} (hne : q ≠ p) : (e.directPeers p).any (fun k => k.1 = q) = e.overUdp q := by
  rw [← any_allDirectPeers, ← filter_allDirectPeers, List.any_filter]
  refine List.any_congr rfl fun k => ?_
  by_cases hk : k.1 = q
  · simp [hk, hne]
  · simp [hk]

/-- The relayed peers of a directory are those that neither their receiver nor a session stands for. -/
theorem entriesLen_relayedPeers (skip : PeerId) (known : List DirectoryEntry) (keep : PeerId → Bool)
    {skips : List PeerId}
    (h : ∀ q, (q ≠ skip ∧ ¬ known.any fun k => k.1 = q) ∧ keep q ↔ ¬ (q ∈ skips ∨ e.overUdp q)) :
    entriesLen ((e.relayedPeers skip known).filter fun k => keep k.1) = e.relayedLen skips := by
  rw [relayedPeers, List.filter_filterMap, entriesLen_filterMap, relayedLen, AList.keys, List.keys, List.map_map]
  refine congrArg List.sum (List.map_congr_left fun r _ => ?_)
  have hleft : (r.1 ∈ skips ∨ e.overUdp r.1) ↔
      ¬ ((r.1 ≠ skip ∧ ¬ known.any fun k => k.1 = r.1) ∧ keep r.1) := ((not_congr (h r.1)).trans not_not).symm
  simp only [Function.comp_apply, hleft]
  by_cases hkept : r.1 ≠ skip ∧ ¬ known.any fun k => k.1 = r.1
  · rw [if_pos hkept]
    cases e.peerMgr.get r.1 with
    | none => simp
    | some p =>
        rw [Option.bind_some, Option.bind_some]
        cases p.publicAddr with
        | none => simp
        | some a =>
            by_cases hkeep : keep r.1
            · rw [if_neg fun hn => hn ⟨hkept, hkeep⟩]
              simp [Option.filter, hkeep]
            · rw [if_pos fun hboth => hkeep hboth.2]
              simp [Option.filter, hkeep]
  · rw [if_neg hkept, if_pos fun hboth => hkept hboth.1]
    rfl

/-! ### When the directories can be sent -/

theorem sendable_tellPeer (peer : PeerId) (entries : List DirectoryEntry) (addr : Option TransportAddr) :
    (∀ s ∈ tellPeer peer entries addr, s.msg.Sendable) ↔ entriesLen entries ≤ maxEntriesLen := by
  unfold tellPeer
  cases entries with
  | nil => simp
  | cons k entries => simp [sendable_directory]

theorem sendable_tellOthers (skip : PeerId) (k : DirectoryEntry) : ∀ s ∈ e.tellOthers skip [k], s.msg.Sendable := by
  intro s hs
  obtain ⟨p, -, rfl⟩ := List.mem_map.mp hs
  exact sendable_single k

theorem sendable_tellAll (entries : List DirectoryEntry) :
    (∀ s ∈ e.tellAll entries, s.msg.Sendable) ↔
      ∀ q ∈ e.sessions.keys, entriesLen (entries.filter fun k => k.1 ≠ q) ≤ maxEntriesLen := by
  simp only [tellAll, List.mem_flatMap]
  constructor
  · exact fun h q hq => (sendable_tellPeer q _ none).mp fun s hs => h s ⟨q, hq, hs⟩
  · rintro h s ⟨q, hq, hs⟩
    exact (sendable_tellPeer q _ none).mpr (h q hq) s hs

/-- The new peer is told of the others. -/
theorem sendable_introduce (peerId : PeerId) (a : SocketAddr) :
    (∀ s ∈ e.introduce peerId (.udp a), s.msg.Sendable) ↔
      (2 ≤ e.sessions.len → e.directLen peerId + e.relayedLen [peerId] ≤ maxEntriesLen) := by
  rw [introduce]
  dsimp only
  by_cases hlen : 2 ≤ e.sessions.len
  · have hrelayed : entriesLen (e.relayedPeers peerId (e.directPeers peerId)) = e.relayedLen [peerId] := by
      rw [← e.entriesLen_relayedPeers peerId (e.directPeers peerId) fun _ => true]
      · rw [List.filter_true]
      · intro q
        by_cases hq : q = peerId
        · simp [hq]
        · simp [hq, ← e.any_directPeers hq]
    simp only [hlen, if_true, forall_const, List.forall_mem_append, sendable_tellPeer, entriesLen_append,
      entriesLen_directPeers, hrelayed]
    exact and_iff_left (e.sendable_tellOthers peerId _)
  · simp [hlen]

theorem sendable_initiator (peerId : PeerId) (addr : SocketAddr) :
    (∀ s ∈ e.initiatorDirectories peerId addr, s.msg.Sendable) ↔
      (e.relayAddr.isSome → e.directLen peerId ≤ maxEntriesLen) := by
  rw [initiatorDirectories]
  cases e.relayAddr with
  | none => simp
  | some ourPub =>
      simp only [Option.isSome_some, forall_const, List.forall_mem_append, sendable_tellPeer, entriesLen_directPeers]
      exact and_iff_left (e.sendable_tellOthers peerId _)

theorem sendable_postStun :
    (∀ s ∈ e.postStunBroadcast, s.msg.Sendable) ↔
      (2 ≤ e.sessions.len →
        ∀ q ∈ e.sessions.keys, e.directLen q + e.relayedLen [e.ourPeerId, q] ≤ maxEntriesLen) := by
  rw [postStunBroadcast]
  by_cases hlen : 2 ≤ e.sessions.len
  · rw [if_neg (by omega), sendable_tellAll]
    have hsize (q : PeerId) :
        entriesLen ((e.allDirectPeers ++ e.relayedPeers e.ourPeerId e.allDirectPeers).filter fun k => k.1 ≠ q) =
          e.directLen q + e.relayedLen [e.ourPeerId, q] := by
      rw [List.filter_append, entriesLen_append, filter_allDirectPeers, entriesLen_directPeers]
      refine congrArg _ (e.entriesLen_relayedPeers e.ourPeerId e.allDirectPeers (fun p => decide (p ≠ q)) fun p => ?_)
      simp only [any_allDirectPeers, ne_eq, decide_not, Bool.not_eq_eq_eq_not, Bool.not_true, decide_eq_false_iff_not,
        List.mem_cons, List.not_mem_nil, or_false]
      tauto
    simp only [hsize, hlen, forall_const]
  · simp [show e.sessions.len < 2 by omega, hlen]

theorem sendable_periodic :
    (∀ s ∈ e.periodicBroadcast, s.msg.Sendable) ↔
      (e.relayAddr.isSome → ∀ q ∈ e.sessions.keys, e.directLen q ≤ maxEntriesLen) := by
  rw [periodicBroadcast]
  cases e.relayAddr with
  | none => simp
  | some ourPub =>
      simp only [Option.isSome_some, forall_const, ← entriesLen_directPeers, ← filter_allDirectPeers]
      split
      · next hfew =>
          refine iff_of_true (by simp) fun q _ => ?_
          have hlen := entriesLen_le (e.allDirectPeers.filter fun k => k.1 ≠ q)
          have hle := List.length_filter_le (fun k : DirectoryEntry => decide (k.1 ≠ q)) e.allDirectPeers
          simp only [maxEntriesLen]
          omega
      · exact e.sendable_tellAll e.allDirectPeers

theorem isDirectory_tellPeer (peer : PeerId) (entries : List DirectoryEntry) (addr : Option TransportAddr) :
    ∀ s ∈ tellPeer peer entries addr, s.msg.isDirectory := by
  unfold tellPeer
  split <;> simp [Message.isDirectory]

theorem isDirectory_tellOthers (skip : PeerId) (entries : List DirectoryEntry) :
    ∀ s ∈ e.tellOthers skip entries, s.msg.isDirectory := by
  intro s hs
  obtain ⟨p, -, rfl⟩ := List.mem_map.mp hs
  rfl

theorem isDirectory_introduce (peerId : PeerId) (fromAddr : TransportAddr) :
    ∀ s ∈ e.introduce peerId fromAddr, s.msg.isDirectory := by
  unfold introduce
  split
  · split
    · intro s hs
      rcases List.mem_append.mp hs with hs | hs
      · exact isDirectory_tellPeer _ _ _ s hs
      · exact e.isDirectory_tellOthers _ _ s hs
    · simp
  · simp

theorem sendable_sessionInit (nowMs : UInt64) (fromAddr : TransportAddr) (overlay : OverlayAddr)
    (overlayIpv6 : Option Ipv6Addr) (hostname : String) (publicAddr : Option SocketAddr) :
    (∀ s ∈ e.directories blake3 (.message nowMs fromAddr (.sessionInit overlay overlayIpv6 hostname publicAddr)),
        s.msg.Sendable) ↔
      e.RoomFor (.message nowMs fromAddr (.sessionInit overlay overlayIpv6 hostname publicAddr)) := by
  simp only [directories, handleMessage, handleSessionInit]
  cases hindex : e.addrIndex.lookup fromAddr with
  | none =>
      cases fromAddr with
      | udp a => simp [RoomFor, hindex]
      | tcp | ws | wss => simp [RoomFor]
  | some peerId =>
      rw [List.filter_eq_self.mpr (isDirectory_introduce _ peerId fromAddr)]
      cases fromAddr with
      | udp a =>
          simp only [RoomFor, hindex, Option.mem_some_iff, forall_eq']
          exact sendable_introduce _ peerId a
      | tcp | ws | wss => simp [RoomFor, introduce]

/-- Passing a directory on changes hop counts, and leaves entries out. -/
theorem entriesLen_rebroadcast (entries : List DirectoryEntry) :
    entriesLen (e.rebroadcast entries) ≤ entriesLen entries := by
  rw [rebroadcast, entriesLen, entriesLen, List.map_map]
  exact (List.filter_sublist.map _).sum_le_sum fun n _ => Nat.zero_le n

/-- What is passed on can be sent, as it has been received. -/
theorem sendable_peerDirectory (nowMs : UInt64) (fromAddr : TransportAddr) {entries : List DirectoryEntry}
    (h : (Message.peerDirectory entries).Sendable) :
    ∀ s ∈ e.directories blake3 (.message nowMs fromAddr (.peerDirectory entries)), s.msg.Sendable := by
  intro s hs
  obtain ⟨hs, hdirectory⟩ := List.mem_filter.mp hs
  simp only [handleMessage, handlePeerDirectory] at hs
  split at hs
  · cases hs
  · next rid hindex =>
      have hrequests : s ∉ (e.directoryEntries blake3 rid entries).2 := by
        intro hmem
        obtain ⟨d, hd⟩ := directoryEntries_sends blake3 rid entries e s hmem
        rw [hd] at hdirectory
        cases hdirectory
      split at hs
      · rcases List.mem_append.mp hs with hs | hs
        · exact absurd hs hrequests
        · obtain ⟨p, -, rfl⟩ := List.mem_map.mp hs
          exact (sendable_directory _).mpr ((entriesLen_rebroadcast _ entries).trans ((sendable_directory _).mp h))
      · exact absurd hs hrequests

/-- No other message makes the inbound loop send a directory. -/
theorem directories_other (nowMs : UInt64) (fromAddr : TransportAddr) {msg : Message}
    (hinit : ∀ overlay overlayIpv6 hostname publicAddr, msg ≠ .sessionInit overlay overlayIpv6 hostname publicAddr)
    (hdirectory : msg.isDirectory = false) : e.directories blake3 (.message nowMs fromAddr msg) = [] := by
  refine List.filter_eq_nil_iff.mpr fun s hs => ?_
  cases msg with
  | sessionInit => exact absurd rfl (hinit _ _ _ _)
  | peerDirectory => cases hdirectory
  | heartbeat | data | relayAnnounce | holePunchProbe | holePunchAck | relayReady => cases hs
  | pong =>
      simp only [handleMessage] at hs
      split at hs <;> cases hs
  | ping =>
      simp only [handleMessage] at hs
      split at hs
      · obtain rfl := List.mem_singleton.mp hs
        exact Bool.false_ne_true
      · cases hs
  | relayRequest dst =>
      simp only [handleMessage, handleRelayRequest] at hs
      split at hs
      · split at hs
        · cases hs
        · split at hs
          · rcases List.mem_pair.mp hs with rfl | rfl <;> exact Bool.false_ne_true
          · split at hs
            · cases hs
            · rcases List.mem_pair.mp hs with rfl | rfl <;> exact Bool.false_ne_true
      · split at hs <;> cases hs
  | relayData src dst payload =>
      simp only [handleMessage, handleRelayData] at hs
      split at hs
      · split at hs <;> cases hs
      · split at hs
        · obtain rfl := List.mem_singleton.mp hs
          exact Bool.false_ne_true
        · split at hs
          · obtain rfl := List.mem_singleton.mp hs
            exact Bool.false_ne_true
          · cases hs

/-- **The directories of an event can be sent exactly if there is room for them**, if every directory that is
received can be sent. -/
theorem sendable_directories {event : DirectoryEvent}
    (hreceived : ∀ nowMs fromAddr entries, event = .message nowMs fromAddr (.peerDirectory entries) →
      (Message.peerDirectory entries).Sendable) :
    (∀ s ∈ e.directories blake3 event, s.msg.Sendable) ↔ e.RoomFor event := by
  cases event with
  | message nowMs fromAddr msg =>
      cases msg with
      | sessionInit => exact e.sendable_sessionInit blake3 nowMs fromAddr _ _ _ _
      | peerDirectory entries =>
          refine iff_of_true (e.sendable_peerDirectory blake3 nowMs fromAddr (hreceived _ _ _ rfl)) ?_
          cases fromAddr <;> trivial
      | _ =>
          rw [directories_other _ _ _ _ (by simp) rfl]
          refine iff_of_true (by simp) ?_
          cases fromAddr <;> trivial
  | initiator peerId addr => exact e.sendable_initiator peerId addr
  | postStun => exact e.sendable_postStun
  | periodic => exact e.sendable_periodic

end Engine

/-! ### Few peers -/

namespace Engine

variable {τ : Type} {e : Engine τ}

theorem directLen_le (skip : PeerId) : e.directLen skip ≤ 53 * e.sessions.len := by
  have hle := entriesLen_le (e.directPeers skip)
  have hcount : (e.directPeers skip).length ≤ e.sessions.len := by
    rw [Map.len, AList.keys, List.keys, List.length_map]
    exact List.length_filterMap_le _ _
  rw [entriesLen_directPeers] at hle
  omega

theorem relayedLen_le (skips : List PeerId) : e.relayedLen skips ≤ 53 * e.relayPaths.len := by
  have hle := List.sum_le_card_nsmul (e.relayPaths.keys.map fun p =>
    if p ∈ skips ∨ e.overUdp p then 0
    else (((e.peerMgr.get p).bind fun peer => peer.publicAddr).map entryLen).getD 0) 53
    (List.forall_mem_map.mpr fun p _ => ?_)
  · rw [List.length_map, smul_eq_mul, mul_comm] at hle
    exact hle
  · split
    · exact Nat.zero_le 53
    · cases (e.peerMgr.get p).bind fun peer => peer.publicAddr with
      | none => exact Nat.zero_le 53
      | some a => exact entryLen_le a

/-- With at most 1236 sessions and paths there is always room. -/
theorem roomFor_of_few (h : e.sessions.len + e.relayPaths.len ≤ 1236) (event : DirectoryEvent) : e.RoomFor event := by
  have hroom (skip : PeerId) (skips : List PeerId) : e.directLen skip + e.relayedLen skips ≤ maxEntriesLen := by
    have hdirect := e.directLen_le skip
    have hrelayed := e.relayedLen_le skips
    simp only [maxEntriesLen]
    omega
  cases event with
  | message nowMs fromAddr msg =>
      cases msg with
      | sessionInit =>
          cases fromAddr with
          | udp a => exact fun p _ _ => hroom p [p]
          | tcp | ws | wss => trivial
      | _ => cases fromAddr <;> trivial
  | initiator peerId addr => exact fun _ => (Nat.le_add_right _ _).trans (hroom peerId [])
  | postStun => exact fun _ q _ => hroom q _
  | periodic => exact fun _ q _ => (Nat.le_add_right _ _).trans (hroom q [])

end Engine

/-! ### Runs -/

variable {S : Snow}

/-- Decryption takes the tag of 16 bytes off. -/
def Snow.StripsTag (S : Snow) : Prop :=
  ∀ (t : S.StatelessTransportState) nonce ct room payload, S.transportRead t nonce ct room = .ok payload →
    ct.length = payload.length + 16

/-- A step of a loop, or one of the two broadcasts of directories. -/
inductive BroadcastAction (S : Snow) where
  | loop (a : LoopAction S)
  | postStun
  | periodic

/-- The datagram that a step receives. -/
def BroadcastAction.data : BroadcastAction S → Bytes
  | .loop (.task (.receive a)) => a.data
  | _ => []

/-- What a step receives fits into the receive buffer. -/
def BroadcastAction.Received (a : BroadcastAction S) : Prop := a.data.length ≤ maxUdp

instance (a : BroadcastAction S) : Decidable a.Received := inferInstanceAs (Decidable (_ ≤ _))

/-- What a completed handshake builds directories for. -/
def Completion.directoryEvent (c : Completion S) : Option DirectoryEvent :=
  if c.stage = .directories then some (.initiator c.peerId c.underlay.socketAddr) else none

theorem Completion.directoryEvent_ne_message (c : Completion S) {nowMs : UInt64} {fromAddr : TransportAddr}
    {msg : Message} : c.directoryEvent ≠ some (.message nowMs fromAddr msg) := by
  unfold directoryEvent
  split <;> simp

namespace Node

variable (blake3 : Blake3) (n : Node S)

/-- The node after a step. -/
def broadcastNext : BroadcastAction S → Node S
  | .loop a => n.loopNext blake3 a
  | .postStun => n.loopNext blake3 (.task (.broadcast n.engine.postStunBroadcast))
  | .periodic => n.loopNext blake3 (.task (.broadcast n.engine.periodicBroadcast))

/-- What a step builds directories for, and the engine that builds them. -/
def directoryEvent : BroadcastAction S → Option (Engine (SecureTransport S) × DirectoryEvent)
  | .loop (.task (.receive a)) => (n.opens a).map fun (n, msg) => (n.engine, .message a.nowMs a.fromAddr msg)
  | .loop (.task .inbound) => ((n.completion none).bind (·.directoryEvent)).map fun event => (n.engine, event)
  | .loop (.task (.attempt id _ _)) =>
    ((n.completion (some id)).bind (·.directoryEvent)).map fun event => (n.engine, event)
  | .loop _ => none
  | .postStun => some (n.engine, .postStun)
  | .periodic => some (n.engine, .periodic)

/-- The directories that a step builds. -/
def directories (a : BroadcastAction S) : List Send :=
  match n.directoryEvent a with
  | some (e, event) => e.directories blake3 event
  | none => []

/-- There is room for the directories that a step builds. -/
def RoomFor (a : BroadcastAction S) : Prop :=
  match n.directoryEvent a with
  | some (e, event) => e.RoomFor event
  | none => True

end Node

theorem SecureTransport.length_of_decryptInto (hstrips : S.StripsTag) {t t' : SecureTransport S}
    {datagram out buf : Bytes} {len : ℕ} (h : t.decryptInto datagram out = (.ok len, buf, t')) :
    len + transportOverhead ≤ datagram.length := by
  unfold decryptInto at h
  rcases hcheck : t.checkHeader datagram with ⟨e | ⟨nonce, ciphertext⟩, t₁⟩
  · rw [hcheck] at h
    cases h
  · rw [hcheck] at h
    dsimp only at h
    split at h
    · cases h
    · next plain hread =>
        cases h
        have hlen := hstrips _ _ _ _ _ hread
        rw [checkHeader_eq_ok t hcheck, List.length_drop] at hlen
        simp only [nonceLen] at hlen
        simp only [transportOverhead]
        omega

namespace Node

variable {blake3 : Blake3} {n : Node S}

theorem sendable_of_decryptData (hstrips : S.StripsTag) {a : Arrival S} (hreceived : a.data.length ≤ maxUdp)
    {peerId : PeerId} {entries : List DirectoryEntry} (h : (n.decryptData a peerId).2 = some (.peerDirectory entries)) :
    (Message.peerDirectory entries).Sendable := by
  unfold decryptData at h
  split at h
  · cases h
  · next session hlookup =>
      split at h
      · cases h
      · next len buf t hdecrypt =>
          have hmsg : deserializeMessage (buf.take len) = .ok (.peerDirectory entries) := by
            dsimp only at h
            cases hread : deserializeMessage (buf.take len) with
            | error e =>
                rw [hread] at h
                cases h
            | ok msg =>
                rw [hread] at h
                exact congrArg Except.ok (Option.some.inj h)
          have hlen := SecureTransport.length_of_decryptInto hstrips hdecrypt
          have hagain := directory_minimal hmsg
          have htake := List.length_take_le len buf
          simp only [transportOverhead, maxUdp] at hlen hreceived
          simp only [Message.Sendable, maxMessageLen]
          omega

/-- A directory that was received can be sent. -/
theorem sendable_of_opens (hstrips : S.StripsTag) {a : Arrival S} (hreceived : a.data.length ≤ maxUdp) {m : Node S}
    {entries : List DirectoryEntry} (h : n.opens a = some (m, .peerDirectory entries)) :
    (Message.peerDirectory entries).Sendable := by
  cases hi : n.inbound with
  | dispatch | complete =>
      rw [opens, hi] at h
      cases h
  | idle =>
      rw [opens_of_idle n a hi] at h
      obtain ⟨peerId, -, hmap⟩ := Option.bind_eq_some_iff.mp h
      obtain ⟨msg, hmsg, heq⟩ := Option.map_eq_some_iff.mp hmap
      cases heq
      exact sendable_of_decryptData hstrips hreceived hmsg

theorem sendable_directories (hstrips : S.StripsTag) {a : BroadcastAction S} (ha : a.Received) :
    (∀ s ∈ n.directories blake3 a, s.msg.Sendable) ↔ n.RoomFor a := by
  unfold directories RoomFor
  cases hevent : n.directoryEvent a with
  | none => simp
  | some r =>
      obtain ⟨e, event⟩ := r
      refine e.sendable_directories blake3 fun nowMs fromAddr entries heq => ?_
      subst heq
      -- only the inbound loop handles messages
      cases a with
      | postStun | periodic => cases hevent
      | loop a =>
          cases a with
          | tunPacket | healthcheck | relayFlag | stunAddr => cases hevent
          | task a =>
              cases a with
              | receive a =>
                  obtain ⟨⟨m, msg⟩, hopens, hr⟩ := Option.map_eq_some_iff.mp hevent
                  cases hr
                  exact sendable_of_opens hstrips ha hopens
              | inbound | attempt =>
                  obtain ⟨event, hbind, hr⟩ := Option.map_eq_some_iff.mp hevent
                  cases hr
                  obtain ⟨c, -, hc⟩ := Option.bind_eq_some_iff.mp hbind
                  exact absurd hc c.directoryEvent_ne_message
              | _ => cases hevent

end Node

/-! ### What a directory leaves behind -/

namespace Engine

variable {τ : Type} {blake3 : Blake3} {e : Engine τ}

/-- The peer is relayed, and its public address is known. -/
def RelayedAt (e : Engine τ) (p : PeerId) (a : SocketAddr) : Prop :=
  p ∈ e.relayPaths ∧ ((e.peerMgr.get p).bind fun peer => peer.publicAddr) = some a

theorem publicAddr_notePeer (p q : PeerId) (a : SocketAddr) :
    (((e.notePeer q a).peerMgr.get p).bind fun peer => peer.publicAddr) =
      if p = q then some a else (e.peerMgr.get p).bind fun peer => peer.publicAddr := by
  rw [notePeer, PeerManager.get_update]
  by_cases hp : p = q
  · have hrecord : ((e.peerMgr.discover q a).contact q).isSome := by
      rw [PeerManager.contact_discover, if_pos rfl]
      rfl
    rw [PeerManager.contact, Option.isSome_map] at hrecord
    obtain ⟨peer, hpeer⟩ := Option.isSome_iff_exists.mp hrecord
    rw [if_pos hp, if_pos hp, hpeer]
    rfl
  · have hother : (e.peerMgr.discover q a).get p = e.peerMgr.get p := by
      unfold PeerManager.discover
      cases e.peerMgr.get q with
      | some peer =>
          dsimp only
          rw [PeerManager.get_update, if_neg hp]
      | none => exact (Map.lookup_insert ..).trans (if_neg hp)
    rw [if_neg hp, if_neg hp, hother]

/-- Entries with the address `a` leave a peer relayed at `a`. -/
theorem RelayedAt.directoryEntries {p : PeerId} {a : SocketAddr} {rid : PeerId} {entries : List DirectoryEntry}
    (hsame : ∀ k ∈ entries, k.2.1 = a) (h : e.RelayedAt p a) : (e.directoryEntries blake3 rid entries).1.RelayedAt p a := by
  have hnoted (e : Engine τ) (k : DirectoryEntry) (hk : k ∈ entries) (h : e.RelayedAt p a) :
      (e.notePeer k.1 k.2.1).RelayedAt p a := by
    refine ⟨h.1, ?_⟩
    rw [publicAddr_notePeer, hsame k hk, h.2, ite_self]
  exact directoryEntries_induction (fun e k hk h _ => hnoted e k hk h)
    (fun e k hk h _ _ _ => ⟨(mem_addRelayPath ..).mpr (.inr (hnoted e k hk h).1), (hnoted e k hk h).2⟩) h

/-- A peer without a session, of which a directory tells us, is relayed afterwards. -/
theorem relayedAt_directoryEntry (rid : PeerId) {k : DirectoryEntry} (hself : k.1 ≠ e.ourPeerId)
    (hdirect : k.1 ∉ e.sessions) : (e.directoryEntry blake3 rid k).1.RelayedAt k.1 k.2.1 := by
  obtain ⟨p, a, hops⟩ := k
  have hpublic : (((e.notePeer p a).peerMgr.get p).bind fun peer => peer.publicAddr) = some a := by
    rw [publicAddr_notePeer, if_pos rfl]
  unfold directoryEntry
  dsimp only at hself hdirect ⊢
  rw [if_neg hself, if_neg hdirect]
  split
  · exact ⟨(AList.mem_insert _).mpr (.inl rfl), hpublic⟩
  · next hkept =>
      refine ⟨Map.mem_iff_lookup.mpr ?_, hpublic⟩
      cases hl : e.relayPaths.lookup p with
      | none =>
          rw [hl] at hkept
          exact absurd rfl hkept
      | some path => exact ⟨path, rfl⟩

variable (blake3) in
theorem relayedAt_directoryEntries {a : SocketAddr} (rid : PeerId) (entries : List DirectoryEntry)
    (hsame : ∀ k ∈ entries, k.2.1 = a) {k : DirectoryEntry} (hk : k ∈ entries) (hself : k.1 ≠ e.ourPeerId)
    (hdirect : k.1 ∉ e.sessions) : (e.directoryEntries blake3 rid entries).1.RelayedAt k.1 a := by
  induction entries generalizing e with
  | nil => cases hk
  | cons entry entries ih =>
      have hframe := directoryEntry_frame (e := e) blake3 rid entry
      rcases List.mem_cons.mp hk with rfl | hk
      · have hnow : (e.directoryEntry blake3 rid k).1.RelayedAt k.1 k.2.1 := relayedAt_directoryEntry rid hself hdirect
        rw [hsame k List.mem_cons_self] at hnow
        have hrest : (directoryEntries blake3 rid (e.directoryEntry blake3 rid k).1 entries).1.RelayedAt k.1 a :=
          hnow.directoryEntries fun k' hk' => hsame k' (List.mem_cons_of_mem _ hk')
        exact hrest
      · exact @ih (e.directoryEntry blake3 rid entry).1 (fun k' hk' => hsame k' (List.mem_cons_of_mem _ hk')) hk
          (fun h => hself (h.trans hframe.ourPeerId)) fun h => hdirect (hframe.sessions ▸ h)

end Engine

/-- A datagram with a directory: its entries are handled, and nothing else happens to the tables. -/
theorem Node.directory_tables {blake3 : Blake3} {n m : Node S} {a : Arrival S} {rid : PeerId}
    {entries : List DirectoryEntry} (hopens : n.opens a = some (m, .peerDirectory entries))
    (hindex : n.engine.addrIndex.lookup a.fromAddr = some rid) :
    ∃ e, n.engine.SameTables e ∧
      (e.directoryEntries blake3 rid entries).1.SameTables (n.broadcastNext blake3 (.loop (.task (.receive a)))).engine := by
  have hsame : n.engine.SameTables m.engine := (step_of_opens blake3 hopens).2
  have hreaction : n.reaction blake3 a =
      some (m.engine.handleMessage blake3 a.nowMs a.fromAddr (.peerDirectory entries)) := by
    rw [reaction, hopens, Option.map_some]
  have hengine : (m.engine.handlePeerDirectory blake3 a.fromAddr entries).engine =
      (m.engine.directoryEntries blake3 rid entries).1 := by
    unfold Engine.handlePeerDirectory
    rw [hsame.addrIndex, hindex]
    dsimp only
    split <;> rfl
  have hnext : (n.broadcastNext blake3 (.loop (.task (.receive a)))).engine = _ :=
    (step_of_reaction blake3 hreaction).1
  refine ⟨m.engine, hsame, ?_⟩
  rw [hnext, Engine.handleMessage, ← hengine]
  exact Engine.sameTables_transmit _ _

namespace Engine

variable {τ : Type} {e : Engine τ}

/-! ### Tables without room -/

theorem le_directLen {p q : PeerId} {t : τ} {a : SocketAddr} (h : e.sessions.lookup p = some ⟨t, .udp a⟩)
    (hne : p ≠ q) : entryLen a ≤ e.directLen q := by
  have hmem : (⟨p, t, .udp a⟩ : (_ : PeerId) × PeerSession τ) ∈ e.sessions.entries := AList.mem_lookup_iff.mp h
  refine List.single_le_sum (fun n _ => Nat.zero_le n) _ (List.mem_map.mpr ⟨_, hmem, ?_⟩)
  exact if_neg hne

theorem le_relayedLen {ps : List PeerId} (skips : List PeerId) {a : SocketAddr} (hnodup : ps.Nodup)
    (h : ∀ p ∈ ps, e.RelayedAt p a ∧ ¬ (p ∈ skips ∨ e.overUdp p)) : ps.length * entryLen a ≤ e.relayedLen skips := by
  have hsub : ps.Subperm e.relayPaths.keys := hnodup.subperm fun p hp => AList.mem_keys.mp (h p hp).1.1
  obtain ⟨qs, hperm, hsub⟩ := hsub
  refine le_trans ?_ ((hsub.map _).sum_le_sum fun n _ => Nat.zero_le n)
  rw [← hperm.length_eq]
  have hle := List.card_nsmul_le_sum (qs.map fun p => if p ∈ skips ∨ e.overUdp p then 0
    else (((e.peerMgr.get p).bind fun peer => peer.publicAddr).map entryLen).getD 0) (entryLen a)
    (List.forall_mem_map.mpr fun p hp => ?_)
  · rwa [List.length_map] at hle
  · obtain ⟨hrelayed, hkept⟩ := h p (hperm.mem_iff.mp hp)
    rw [if_neg hkept, hrelayed.2]
    exact le_rfl

end Engine

namespace Transparent

/-- Peers that differ in their first two bytes. -/
def numbered (i : ℕ) : PeerId := ⟨⟨(i / 256).toUInt8 :: i.toUInt8 :: List.replicate 30 255, rfl⟩⟩

/-- A directory of peers at one address. -/
def crowd (count : ℕ) : List DirectoryEntry := (List.range count).map fun i => (numbered i, addr 9, 1)

theorem numbered_inj {i j : ℕ} (hi : i < 65536) (hj : j < 65536) (h : numbered i = numbered j) : i = j := by
  have hbytes := congrArg (fun p : PeerId => p.asBytes) h
  simp only [numbered, PeerId.asBytes, List.cons.injEq] at hbytes
  have hhigh := congrArg UInt8.toNat hbytes.1
  have hlow := congrArg UInt8.toNat hbytes.2.1
  simp only [UInt8.toNat_ofNat'] at hhigh hlow
  omega

/-- Node 1 with its whole plaintext buffer. -/
def wideNode : Node transparent := { node 1 with plainBuf := List.replicate maxUdp 0 }

/-- Peers 7 and 8 shake hands. -/
def met : List (NodeAction transparent) := handshakeFrom 7 (addr 2) 3 4 ++ handshakeFrom 8 (addr 5) 13 14

/-- Peer 7 sends a directory of 1597 peers. -/
def crowded : Arrival transparent := messageArrival (addr 2) 3 4 0 (.peerDirectory (crowd 1597))

/-- The node that peers 7 and 8 have met. -/
def meeting : Node transparent := exec (Node.next blake3) wideNode met

theorem meeting_session : ∃ t, meeting.engine.sessions.lookup (.replicate 7) = some ⟨t, .udp (addr 2)⟩ ∧
    t.state = Transport.peer ⟨true, 3, 4⟩ ∧ t.nonceWindow.fresh 0 = true := by
  have hsession : (meeting.engine.sessions.lookup (.replicate 7)).any (fun s => decide (s.underlay = .udp (addr 2)) &&
      decide (s.transport.state = (⟨false, 3, 4⟩ : Transport)) && s.transport.nonceWindow.fresh 0) = true := by
    decide +kernel
  obtain ⟨⟨t, underlay⟩, hlookup, h⟩ := (Option.any_eq_true _ _).mp hsession
  simp only [Bool.and_eq_true, decide_eq_true_eq] at h
  obtain ⟨⟨rfl, hstate⟩, hfresh⟩ := h
  exact ⟨t, hlookup, hstate, hfresh⟩

theorem length_crowd (count : ℕ) : (crowd count).length = count := by
  rw [crowd, List.length_map, List.length_range]

theorem entriesLen_crowd (count : ℕ) : entriesLen (crowd count) = 41 * count := by
  have haddr : entryLen (addr 9) = 41 := by decide
  have hconst : (crowd count).map (fun k => entryLen k.2.1) = List.replicate count 41 := by
    rw [crowd, List.map_map]
    refine List.eq_replicate_iff.mpr ⟨by rw [List.length_map, List.length_range], ?_⟩
    exact List.forall_mem_map.mpr fun i _ => haddr
  rw [entriesLen, hconst, List.sum_replicate_nat, mul_comm]

theorem length_buf : maxUdp ≤ meeting.plainBuf.length := by
  have hstart : maxUdp ≤ wideNode.plainBuf.length := le_of_eq (List.length_replicate).symm
  exact Run.exec_invariant (I := fun n : Node transparent => maxUdp ≤ n.plainBuf.length)
    (fun n a h => h.trans (Node.length_le_next a)) hstart met

theorem data_crowded :
    crowded.data = datagramOf ⟨true, 3, 4⟩ 0 (serializeMessage (.peerDirectory (crowd 1597))) := by
  rw [crowded, messageArrival, arrival]

theorem length_datagramOf (ts : Transport) (nonce : UInt64) (p : Bytes) :
    (datagramOf ts nonce p).length = p.length + transportOverhead := by
  simp only [datagramOf, List.length_append, toLeBytes_length, tag_length, nonceLen, transportOverhead]
  omega

theorem stripsTag : transparent.StripsTag := by
  intro t nonce ct room payload h
  exact length_of_transportWrite (written_of_read h)

/-- A datagram of the transparent instance is sealed. -/
theorem sealed_datagramOf (sender : Transport) (nonce : UInt64) (msg : Message) {d : Datagram transparent}
    (h : d.bytes = datagramOf sender nonce (serializeMessage msg)) : d.Sealed sender nonce msg :=
  ⟨(serializeMessage msg).length + 16, _, if_neg (lt_irrefl _), h⟩

/-- The inbound loop takes the directory out of its datagram. -/
theorem opens_crowded : ∃ m, meeting.opens crowded = some (m, .peerDirectory (crowd 1597)) := by
  obtain ⟨t, hlookup, hstate, hfresh⟩ := meeting_session
  have hidle : meeting.inbound = .idle := by
    decide +kernel
  have hfrom : meeting.dataFrom crowded = some (.replicate 7) := by
    decide +kernel
  have hroom : (serializeMessage (.peerDirectory (crowd 1597))).length ≤ meeting.plainBuf.length := by
    have hfits : (Message.peerDirectory (crowd 1597)).Sendable :=
      (sendable_directory _).mpr (by rw [entriesLen_crowd]; decide)
    simp only [Message.Sendable, maxMessageLen] at hfits
    have hbuf := length_buf
    simp only [maxUdp] at hbuf
    omega
  have hmsg : (Message.peerDirectory (crowd 1597)).Encodable :=
    ⟨by rw [length_crowd]; norm_num, List.forall_mem_map.mpr fun i _ => trivial⟩
  have hdata := data_crowded
  generalize Message.peerDirectory (crowd 1597) = msg at hroom hmsg hdata ⊢
  let d : Datagram transparent := { dst := .udp (addr 1), bytes := crowded.data, origin := .encrypted t.state 0 msg }
  have hreads : Snow.Reads (S := transparent) (⟨true, 3, 4⟩ : Transport) t.state := by
    intro nonce payload room ct hct room' hle
    rw [hstate]
    exact transportRead_write hct hle
  obtain ⟨t', hopens⟩ := Node.opens_sealed hidle hfrom hlookup rfl (sealed_datagramOf (d := d) _ 0 msg hdata) hreads hfresh
    (fun _ _ _ => length_of_transportWrite) hroom hmsg
  exact ⟨_, hopens⟩

theorem meeting_tables : meeting.engine.sessions.keys = [.replicate 8, .replicate 7] ∧
    meeting.engine.ourPeerId = .replicate 1 ∧
    meeting.engine.addrIndex.lookup (.udp (addr 2)) = some (.replicate 7) := by
  decide +kernel

/-- No peer of the crowd has a number that is repeated. -/
theorem numbered_ne_replicate (i : ℕ) {k : UInt8} (hk : k ≠ 255) : numbered i ≠ .replicate k := by
  intro h
  have hthird := congrArg (fun p : PeerId => p.asBytes[2]?) h
  exact hk (Option.some.inj hthird).symm

/-- The node after the directory. -/
def crowdedNode : Node transparent := meeting.broadcastNext blake3 (.loop (.task (.receive crowded)))

theorem crowdedNode_tables : ∃ e : Engine (SecureTransport transparent), meeting.engine.SameTables e ∧
    (e.directoryEntries blake3 (.replicate 7) (crowd 1597)).1.SameTables crowdedNode.engine := by
  obtain ⟨m, hopens⟩ := opens_crowded
  exact Node.directory_tables hopens meeting_tables.2.2

theorem numbered_not_mem (i : ℕ) : numbered i ∉ meeting.engine.sessions := by
  rw [AList.mem_keys, meeting_tables.1]
  simp [numbered_ne_replicate]

theorem mem_crowdedNode (p : PeerId) : p ∈ crowdedNode.engine.sessions ↔ p ∈ meeting.engine.sessions := by
  obtain ⟨e, hbefore, hafter⟩ := crowdedNode_tables
  rw [hafter.mem, (Engine.directoryEntries_frame blake3 (.replicate 7) (crowd 1597) e).sessions, hbefore.mem]

theorem crowdedNode_relayed {i : ℕ} (hi : i < 1597) : crowdedNode.engine.RelayedAt (numbered i) (addr 9) := by
  obtain ⟨e, hbefore, hafter⟩ := crowdedNode_tables
  have hentry : (numbered i, addr 9, 1) ∈ crowd 1597 := List.mem_map.mpr ⟨i, List.mem_range.mpr hi, rfl⟩
  have hself : numbered i ≠ e.ourPeerId := by
    rw [hbefore.ourPeerId, meeting_tables.2.1]
    exact numbered_ne_replicate i (by decide)
  have hdirect : numbered i ∉ e.sessions := by
    rw [hbefore.mem]
    exact numbered_not_mem i
  have hrelayed := Engine.relayedAt_directoryEntries blake3 (.replicate 7) (crowd 1597)
    (List.forall_mem_map.mpr fun j _ => rfl) hentry hself hdirect
  unfold Engine.RelayedAt at hrelayed ⊢
  rwa [hafter.relayPaths, hafter.peerMgr]

/-- The entries for peer 8 need 41 bytes for each of 1598 peers. -/
theorem crowdedNode_full : 41 * 1598 ≤ crowdedNode.engine.directLen (.replicate 8) +
    crowdedNode.engine.relayedLen [crowdedNode.engine.ourPeerId, .replicate 8] := by
  obtain ⟨e, hbefore, hafter⟩ := crowdedNode_tables
  have hframe := Engine.directoryEntries_frame blake3 (.replicate 7) (crowd 1597) e
  have hown : crowdedNode.engine.ourPeerId = .replicate 1 := by
    rw [hafter.ourPeerId, hframe.ourPeerId, hbefore.ourPeerId, meeting_tables.2.1]
  have hdirect : 41 ≤ crowdedNode.engine.directLen (.replicate 8) := by
    obtain ⟨t, hlookup, -⟩ := meeting_session
    have hunderlay := hafter.underlay (.replicate 7)
    rw [hframe.sessions, hbefore.underlay, hlookup] at hunderlay
    obtain ⟨⟨t', underlay⟩, hlookup', rfl⟩ := Option.map_eq_some_iff.mp hunderlay
    exact Engine.le_directLen hlookup' (by decide)
  have hrelayed : ((List.range 1597).map numbered).length * entryLen (addr 9) ≤
      crowdedNode.engine.relayedLen [crowdedNode.engine.ourPeerId, .replicate 8] := Engine.le_relayedLen _ ?_ ?_
  · rw [List.length_map, List.length_range] at hrelayed
    have haddr : entryLen (addr 9) = 41 := by decide
    omega
  · refine List.Nodup.map_on (fun i hi j hj => numbered_inj ?_ ?_) List.nodup_range
    · exact (List.mem_range.mp hi).trans (by norm_num)
    · exact (List.mem_range.mp hj).trans (by norm_num)
  · refine List.forall_mem_map.mpr fun i hi => ⟨crowdedNode_relayed (List.mem_range.mp hi), ?_⟩
    rintro (hskip | hudp)
    · rw [hown] at hskip
      simp [numbered_ne_replicate] at hskip
    · obtain ⟨t, a, hlookup⟩ := (Engine.overUdp_iff _).mp hudp
      have hmem : numbered i ∈ crowdedNode.engine.sessions := Map.mem_iff_lookup.mpr ⟨_, hlookup⟩
      exact numbered_not_mem i ((mem_crowdedNode _).mp hmem)

theorem length_crowded : crowded.data.length = 65504 := by
  have hcount : (Postcard.usize.encode 1597).length = 2 := by decide
  have hmsg : (serializeMessage (.peerDirectory (crowd 1597))).length = 65480 := by
    rw [length_directory, length_crowd, hcount, entriesLen_crowd]
  rw [data_crowded, length_datagramOf, hmsg, transportOverhead]

end Transparent

/-! ### The directories of a run -/

/-- **Every directory that a run builds can be sent** exactly if there is room for it whenever the run builds
one: for each receiver, the entries have at most `maxEntriesLen` bytes. -/
theorem directories_fit_iff (blake3 : Blake3) (hstrips : S.StripsTag) (n : Node S) (as : List (BroadcastAction S))
    (has : ∀ a ∈ as, a.Received) :
    Along (Node.broadcastNext blake3) (fun n a => ∀ s ∈ n.directories blake3 a, s.msg.Sendable) n as ↔
      Along (Node.broadcastNext blake3) Node.RoomFor n as :=
  Run.along_congr as (fun _ a ha => Node.sendable_directories hstrips (has a ha)) n

open Transparent in
theorem directories_fit_meeting :
    Along (Node.broadcastNext blake3) (fun n a => ∀ s ∈ n.directories blake3 a, s.msg.Sendable) meeting [.postStun] :=
  (directories_fit_iff blake3 stripsTag meeting [.postStun] (by decide)).mpr
    ⟨show 2 ≤ meeting.engine.sessions.len → ∀ q ∈ meeting.engine.sessions.keys,
      meeting.engine.directLen q + meeting.engine.relayedLen [meeting.engine.ourPeerId, q] ≤ maxEntriesLen by
        decide +kernel, trivial⟩

open Transparent in
/-- Peers 7 and 8 meet node 1, and 7 sends it a directory of 1597 peers: with 7 itself, the directory for 8 has
1598 entries of 41 bytes. -/
theorem directory_does_not_fit :
    ¬ ∀ (blake3 : Blake3) (n : Node transparent), n.Initial → ∀ as : List (BroadcastAction transparent),
      (∀ a ∈ as, a.Received) →
        Along (Node.broadcastNext blake3) (fun n a => ∀ s ∈ n.directories blake3 a, s.msg.Sendable) n as := by
  intro h
  let meet : List (BroadcastAction transparent) := met.map fun a => .loop (.task a)
  have hmeet : exec (Node.broadcastNext blake3) wideNode meet = meeting := List.foldl_map
  have hall := h blake3 wideNode ⟨rfl, rfl, rfl, rfl, rfl, rfl, rfl⟩
    (meet ++ [.loop (.task (.receive crowded)), .postStun]) ?_
  · have hlast := ((Run.along_append _ _).mp hall).2
    rw [hmeet] at hlast
    have hroom := (crowdedNode.engine.sendable_postStun.mp hlast.2.1) ?_ (.replicate 8) ?_
    · have hfull := crowdedNode_full
      simp only [maxEntriesLen] at hroom
      omega
    · obtain ⟨e, hbefore, hafter⟩ := crowdedNode_tables
      have hlen : crowdedNode.engine.sessions.len = meeting.engine.sessions.len := by
        rw [hafter.len, (Engine.directoryEntries_frame blake3 (.replicate 7) (crowd 1597) e).sessions, hbefore.len]
      rw [hlen, Map.len, meeting_tables.1]
      exact le_rfl
    · rw [← AList.mem_keys, mem_crowdedNode, AList.mem_keys, meeting_tables.1]
      exact List.mem_cons_self
  · refine List.forall_mem_append.mpr ⟨by decide +kernel, ?_⟩
    simp only [List.forall_mem_cons]
    refine ⟨?_, by decide, by simp⟩
    show crowded.data.length ≤ maxUdp
    rw [length_crowded]
    decide

end SeedNet
