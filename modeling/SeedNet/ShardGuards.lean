import SeedNet.Handlers
import SeedNet.Locks

/-! # Guards on the session map

A `DashMap` has a reader-writer lock for each of its shards.  An item of `iter()` holds a read guard on the
shard of its key until it is dropped, an item of `iter_mut()` or the result of `get_mut` a write guard; `len`,
`contains_key` and `insert` release what they request.

`Pass.ops` is what one pass of the tasks that go through the sessions does with these locks: the broadcasts,
the heartbeat and the health check of `crates/core/src/lib.rs`, `handle_session_init` and
`handle_peer_directory` of `crates/core/src/inbound.rs`, and the initiator of `crates/core/src/handshake.rs`.
A message over a session takes the session by `get_mut` (`sendOps`), whether or not its encryption succeeds.

All of them collect the recipients first and then send, except the periodic broadcast, which sends while it
holds the item of the recipient.  `no_self_deadlock_iff`: it waits for itself at the first recipient, and no
other pass ever does. -/

namespace SeedNet

open Locks

/-- How the peers are spread over the shards. -/
structure Sharding (σ : Type) where
  shard : PeerId → σ
  shards : List σ

namespace Sharding

variable {σ τ : Type} (sh : Sharding σ)

/-- `get_mut`, or `insert`. -/
def getMut (peerId : PeerId) : List (Op σ) := scope .write (sh.shard peerId) []

def containsKey (peerId : PeerId) : List (Op σ) := scope .read (sh.shard peerId) []

def len : List (Op σ) := sh.shards.flatMap fun s => scope .read s []

/-- A loop over `iter()`, with what it does while it holds an item. -/
def iter (m : Map PeerId τ) (body : PeerId → List (Op σ)) : List (Op σ) :=
  m.keys.flatMap fun p => scope .read (sh.shard p) (body p)

/-- A loop over `iter_mut()` that does nothing else with the map. -/
def iterMut (m : Map PeerId τ) : List (Op σ) := m.keys.flatMap fun p => scope .write (sh.shard p) []

/-- Collecting from `iter()`. -/
def collect (m : Map PeerId τ) : List (Op σ) := sh.iter m fun _ => []

/-- Messages over sessions. -/
def sendOps (sends : List Send) : List (Op σ) := sends.flatMap fun s => sh.getMut s.peer

end Sharding

/-- One pass of a task. -/
inductive Pass (τ : Type) where
  | postStunBroadcast
  | periodicBroadcast
  | heartbeat
  | healthcheck
  | sessionInit (fromAddr : TransportAddr)
  | peerDirectory (fromAddr : TransportAddr) (entries : List DirectoryEntry)
  /-- the initiator has completed a handshake -/
  | initiator (peerId : PeerId) (addr : SocketAddr) (transport : τ)
  /-- the initiator has waited too long -/
  | initiatorTimeout (addr : SocketAddr)

namespace Engine

variable {σ τ : Type} (sh : Sharding σ) (blake3 : Blake3) (e : Engine τ)

/-! ### The passes -/

def postStunOps : List (Op σ) :=
  sh.len ++
    if e.sessions.len < 2 then []
    else sh.collect e.sessions ++ sh.collect e.sessions ++ sh.sendOps e.postStunBroadcast

/-- Each recipient is sent to while its item is held. -/
def periodicOps : List (Op σ) :=
  match e.relayAddr with
  | none => []
  | some _ =>
    sh.collect e.sessions ++
      if e.allDirectPeers.length < 2 then []
      else sh.iter e.sessions fun p => sh.sendOps (tellPeer p (e.allDirectPeers.filter fun k => k.1 ≠ p) none)

def sessionInitOps (fromAddr : TransportAddr) : List (Op σ) :=
  match e.addrIndex.lookup fromAddr, fromAddr with
  | some peerId, .udp newPeerAddr =>
    sh.len ++
      if 2 ≤ e.sessions.len then
        let direct := e.directPeers peerId
        sh.collect e.sessions ++ sh.sendOps (tellPeer peerId (direct ++ e.relayedPeers peerId direct) none) ++
          (sh.collect e.sessions ++ sh.sendOps (e.tellOthers peerId [(peerId, newPeerAddr, 1)]))
      else []
  | _, _ => []

def directoryOps (rid : PeerId) : Engine τ → List DirectoryEntry → List (Op σ)
  | _, [] => []
  | e, entry :: entries =>
    let (e', sends) := e.directoryEntry blake3 rid entry
    (if entry.1 = e.ourPeerId then [] else sh.containsKey entry.1 ++ sh.sendOps sends) ++ directoryOps rid e' entries

def peerDirectoryOps (fromAddr : TransportAddr) (entries : List DirectoryEntry) : List (Op σ) :=
  match e.addrIndex.lookup fromAddr with
  | none => []
  | some rid =>
    let passedOn := e.rebroadcast entries
    directoryOps sh blake3 rid e entries ++
      (sh.len ++
        if 2 ≤ e.sessions.len ∧ ¬ passedOn.isEmpty then
          sh.collect e.sessions ++ sh.sendOps (e.tellOthers rid passedOn)
        else [])

def initiatorOps (peerId : PeerId) (addr : SocketAddr) (transport : τ) : List (Op σ) :=
  if peerId = e.ourPeerId then []
  else
    let e := e.insertSession peerId transport (.udp addr)
    sh.getMut peerId ++ sh.sendOps (e.sendSessionInit peerId (.udp addr)) ++
      match e.relayAddr with
      | none => []
      | some _ =>
        sh.sendOps (e.announce peerId (.udp addr)) ++
          (sh.collect e.sessions ++ sh.sendOps (tellPeer peerId (e.directPeers peerId) (some (.udp addr)))) ++
          (sh.collect e.sessions ++ sh.sendOps (e.tellOthers peerId [(peerId, addr, 1)]))

/-- A relay is requested from every other relay candidate. -/
def initiatorTimeoutOps (addr : SocketAddr) : List (Op σ) :=
  match e.addrIndex.lookup (.udp addr) with
  | none => []
  | some targetId => (e.relayCandidates.keys.filter (· ≠ targetId)).flatMap sh.getMut

end Engine

/-- What a pass does with the locks of the session map. -/
def Pass.ops {σ τ : Type} (sh : Sharding σ) (blake3 : Blake3) (e : Engine τ) : Pass τ → List (Op σ)
  | .postStunBroadcast => e.postStunOps sh
  | .periodicBroadcast => e.periodicOps sh
  | .heartbeat | .healthcheck => sh.iterMut e.sessions
  | .sessionInit fromAddr => e.sessionInitOps sh fromAddr
  | .peerDirectory fromAddr entries => e.peerDirectoryOps sh blake3 fromAddr entries
  | .initiator peerId addr transport => e.initiatorOps sh peerId addr transport
  | .initiatorTimeout addr => e.initiatorTimeoutOps sh addr

/-! ### Passes that never wait for themselves -/

section

variable {σ τ : Type} [DecidableEq σ] (sh : Sharding σ) (blake3 : Blake3) (e : Engine τ)

namespace Sharding

theorem free_len : Free sh.len := free_flatMap fun s _ => free_scope_nil .read s

theorem free_collect (m : Map PeerId τ) : Free (sh.collect m) :=
  free_flatMap fun p _ => free_scope_nil .read (sh.shard p)

theorem free_iterMut (m : Map PeerId τ) : Free (sh.iterMut m) :=
  free_flatMap fun p _ => free_scope_nil .write (sh.shard p)

theorem free_getMut (peerId : PeerId) : Free (sh.getMut peerId) := free_scope_nil .write (sh.shard peerId)

theorem free_sendOps (sends : List Send) : Free (sh.sendOps sends) := free_flatMap fun s _ => sh.free_getMut s.peer

end Sharding

namespace Engine

theorem free_postStunOps : Free (e.postStunOps sh) :=
  sh.free_len.append (.ite _ free_nil
    (((sh.free_collect e.sessions).append (sh.free_collect e.sessions)).append (sh.free_sendOps _)))

theorem free_sessionInitOps (fromAddr : TransportAddr) : Free (e.sessionInitOps sh fromAddr) := by
  unfold sessionInitOps
  split
  · exact sh.free_len.append (.ite _
      (((sh.free_collect e.sessions).append (sh.free_sendOps _)).append
        ((sh.free_collect e.sessions).append (sh.free_sendOps _))) free_nil)
  · exact free_nil

theorem free_directoryOps (rid : PeerId) (entries : List DirectoryEntry) (e : Engine τ) :
    Free (directoryOps sh blake3 rid e entries) := by
  induction entries generalizing e with
  | nil => exact free_nil
  | cons entry entries ih =>
      exact (Free.ite _ free_nil ((free_scope_nil .read _).append (sh.free_sendOps _))).append (ih _)

theorem free_peerDirectoryOps (fromAddr : TransportAddr) (entries : List DirectoryEntry) :
    Free (e.peerDirectoryOps sh blake3 fromAddr entries) := by
  unfold peerDirectoryOps
  split
  · exact free_nil
  · exact (free_directoryOps sh blake3 _ entries e).append (sh.free_len.append (.ite _
      ((sh.free_collect e.sessions).append (sh.free_sendOps _)) free_nil))

theorem free_initiatorOps (peerId : PeerId) (addr : SocketAddr) (transport : τ) :
    Free (e.initiatorOps sh peerId addr transport) := by
  unfold initiatorOps
  refine .ite _ free_nil (((sh.free_getMut peerId).append (sh.free_sendOps _)).append ?_)
  split
  · exact free_nil
  · exact ((sh.free_sendOps _).append ((sh.free_collect _).append (sh.free_sendOps _))).append
      ((sh.free_collect _).append (sh.free_sendOps _))

theorem free_initiatorTimeoutOps (addr : SocketAddr) : Free (e.initiatorTimeoutOps sh addr) := by
  unfold initiatorTimeoutOps
  split
  · exact free_nil
  · exact free_flatMap fun p _ => sh.free_getMut p

/-! ### The periodic broadcast -/

/-- The entries of direct neighbours are in the order of the sessions. -/
theorem allDirectPeers_sublist : (e.allDirectPeers.map Prod.fst).Sublist e.sessions.keys := by
  unfold allDirectPeers AList.keys List.keys
  induction e.sessions.entries with
  | nil => exact .slnil
  | cons s entries ih =>
      obtain ⟨p, transport, underlay⟩ := s
      cases underlay with
      | udp a => exact ih.cons_cons p
      | tcp a | ws a | wss a => exact ih.cons p

/-- With two sessions over UDP, every recipient has something to be told. -/
theorem exists_other (h : 2 ≤ e.allDirectPeers.length) (p : PeerId) :
    (e.allDirectPeers.filter fun k => k.1 ≠ p).isEmpty = false := by
  have hnodup : (e.allDirectPeers.map Prod.fst).Nodup := e.sessions.keys_nodup.sublist e.allDirectPeers_sublist
  rw [List.isEmpty_eq_false_iff]
  intro hnone
  have hall : e.allDirectPeers.map Prod.fst ⊆ [p] := by
    intro q hq
    obtain ⟨k, hk, rfl⟩ := List.mem_map.mp hq
    have hkp := List.filter_eq_nil_iff.mp hnone k hk
    exact List.mem_singleton.mpr (by simpa using hkp)
  have hle := (hnodup.subperm hall).length_le
  rw [List.length_map, List.length_singleton] at hle
  omega

theorem exists_session (h : 2 ≤ e.allDirectPeers.length) : ∃ p ps, e.sessions.keys = p :: ps := by
  have hle := e.allDirectPeers_sublist.length_le
  rw [List.length_map] at hle
  cases hkeys : e.sessions.keys with
  | nil =>
      rw [hkeys, List.length_nil] at hle
      omega
  | cons p ps => exact ⟨p, ps, rfl⟩

/-- It requests the session of the first recipient while it holds the item of that recipient. -/
theorem clear_periodicOps_iff :
    Clear [] (e.periodicOps sh) ↔ e.relayAddr = none ∨ e.allDirectPeers.length < 2 := by
  unfold periodicOps
  cases hrelay : e.relayAddr with
  | none => exact iff_of_true trivial (.inl rfl)
  | some ourPub =>
      by_cases hlen : e.allDirectPeers.length < 2
      · refine iff_of_true ?_ (.inr hlen)
        simp only [if_pos hlen, List.append_nil]
        exact (sh.free_collect e.sessions).clear
      · refine iff_of_false ?_ (by simp [hlen])
        obtain ⟨p, ps, hkeys⟩ := e.exists_session (not_lt.mp hlen)
        have hother := e.exists_other (not_lt.mp hlen) p
        simp only [if_neg hlen, clear_append, (sh.free_collect e.sessions).neutral []]
        rintro ⟨-, hclear⟩
        rw [Sharding.iter, hkeys, List.flatMap_cons, tellPeer, hother] at hclear
        exact not_clear_nested (.inl rfl) _ _ _ _ _ hclear

end Engine

/-- **No self-deadlock on the session map.**  Whatever the sessions and the shards, a pass waits for itself
exactly if it is the periodic broadcast of a relay that knows its address and has two sessions over UDP. -/
theorem no_self_deadlock_iff (pass : Pass τ) : Clear [] (pass.ops sh blake3 e) ↔
    (pass = .periodicBroadcast → e.relayAddr = none ∨ e.allDirectPeers.length < 2) := by
  cases pass with
  | periodicBroadcast => exact (e.clear_periodicOps_iff sh).trans ⟨fun h _ => h, fun h => h rfl⟩
  | postStunBroadcast => exact iff_of_true (e.free_postStunOps sh).clear nofun
  | heartbeat | healthcheck => exact iff_of_true (sh.free_iterMut e.sessions).clear nofun
  | sessionInit fromAddr => exact iff_of_true (e.free_sessionInitOps sh fromAddr).clear nofun
  | peerDirectory fromAddr entries => exact iff_of_true (e.free_peerDirectoryOps sh blake3 fromAddr entries).clear nofun
  | initiator peerId addr transport => exact iff_of_true (e.free_initiatorOps sh peerId addr transport).clear nofun
  | initiatorTimeout addr => exact iff_of_true (e.free_initiatorTimeoutOps sh addr).clear nofun

end

/-- A relay with two sessions, each in a shard of its own. -/
theorem periodic_broadcast_deadlocks :
    ¬ ∀ (sh : Sharding PeerId) (blake3 : Blake3) (e : Engine Unit) (pass : Pass Unit),
      Clear [] (pass.ops sh blake3 e) := by
  intro h
  let session (k : UInt8) : PeerSession Unit := ⟨(), .udp (.v4 ⟨192, 0, 2, k⟩ 51820)⟩
  let e : Engine Unit :=
    { ourPeerId := .replicate 1
      siOverlay := default
      siOverlayIpv6 := default
      siHostname := "relay"
      sessions := (AList.insert (.replicate 7) (session 7) ∅).insert (.replicate 8) (session 8)
      stunAddr := some (.v4 ⟨192, 0, 2, 1⟩ 51820)
      canRelayFlag := true }
  have hdeadlock : ¬ Clear [] (e.periodicOps ⟨id, e.sessions.keys⟩) := by
    intro hclear
    have hcases := (e.clear_periodicOps_iff ⟨id, e.sessions.keys⟩).mp hclear
    exact absurd hcases (by decide)
  exact hdeadlock (h ⟨id, e.sessions.keys⟩ (fun _ _ => 0) e .periodicBroadcast)

end SeedNet
