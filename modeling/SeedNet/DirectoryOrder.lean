import SeedNet.LeastOffer
import SeedNet.Loops
import SeedNet.TransparentNode

/-! # Directories in any order

What `handle_peer_directory` (`crates/core/src/inbound.rs`) makes of several directories, for one destination that
has no session.  Each entry for the destination offers a path over the relay that sent it, one hop longer than it
says, and the table takes an offer only if it has fewer hops than the path it has: the path that is stored at the end
is the least of all (`LeastOffer`), in whatever order the directories and their entries come. -/

namespace SeedNet

open LeastOffer (Least improve least_foldl)
open Run (exec)

/-- `u8::saturating_add` as a minimum. -/
theorem toNat_saturatingAdd (a b : UInt8) : (saturatingAdd a b).toNat = min (a.toNat + b.toNat) 255 := by
  have ha := a.toNat_lt
  have hb := b.toNat_lt
  unfold saturatingAdd
  split
  · next h =>
      rw [UInt8.toNat_add]
      omega
  · next h =>
      show 255 = _
      omega

variable {S : Snow}

/-- A received directory: the address it came from and its entries. -/
abbrev ReceivedDirectory := TransportAddr × List DirectoryEntry

namespace Engine

section path

variable {τ : Type} (e : Engine τ) (d : PeerId)

/-- The stored path to `d`: the next hop and the number of hops. -/
def path : Option (PeerId × ℕ) := (e.relayPaths.lookup d).map fun path => (path.1, path.2.toNat)

/-- The paths to `d` that the entries of the relay `rid` offer. -/
def offersOf (rid : PeerId) (entries : List DirectoryEntry) : List (PeerId × ℕ) :=
  (entries.filter fun k => k.1 = d).map fun k => (rid, min (k.2.2.toNat + 1) 255)

/-- The paths that a directory offers; from an unknown address it is ignored. -/
def offers (m : ReceivedDirectory) : List (PeerId × ℕ) :=
  match e.addrIndex.lookup m.1 with
  | some rid => offersOf d rid m.2
  | none => []

variable (blake3 : Blake3) {e d}

/-- An entry for a peer without a session is taken exactly if it is better. -/
theorem lookup_directoryEntry {k : DirectoryEntry} (hself : k.1 ≠ e.ourPeerId) (hdirect : k.1 ∉ e.sessions)
    (rid : PeerId) : (e.directoryEntry blake3 rid k).1.relayPaths.lookup k.1 =
      if e.Better k then some (rid, saturatingAdd k.2.2 1) else e.relayPaths.lookup k.1 := by
  obtain ⟨pid, pubAddr, hopCount⟩ := k
  rw [directoryEntry, if_neg hself]
  dsimp only at hself hdirect ⊢
  rw [if_neg hdirect]
  cases hl : e.relayPaths.lookup pid with
  | none =>
      have hbetter : e.Better (pid, pubAddr, hopCount) := fun path hpath => by cases hl.symm.trans hpath
      rw [if_pos rfl, if_pos hbetter]
      exact AList.lookup_insert e.relayPaths
  | some existing =>
      have hbetter : e.Better (pid, pubAddr, hopCount) ↔ saturatingAdd hopCount 1 < existing.2 := by
        rw [Better, hl]
        simp
      simp only [decide_eq_true_eq, hbetter]
      split
      · exact AList.lookup_insert e.relayPaths
      · exact hl

theorem path_directoryEntry (hself : d ≠ e.ourPeerId) (hdirect : d ∉ e.sessions) (rid : PeerId) (k : DirectoryEntry) :
    (e.directoryEntry blake3 rid k).1.path d =
      if k.1 = d then improve (e.path d) (rid, min (k.2.2.toNat + 1) 255) else e.path d := by
  split
  · next hd =>
      subst hd
      have hhops : min (k.2.2.toNat + 1) 255 = (saturatingAdd k.2.2 1).toNat := (toNat_saturatingAdd k.2.2 1).symm
      rw [hhops, path, path, lookup_directoryEntry blake3 hself hdirect]
      cases hl : e.relayPaths.lookup k.1 with
      | none =>
          have hbetter : e.Better k := fun path hpath => by cases hl.symm.trans hpath
          rw [if_pos hbetter]
          rfl
      | some existing =>
          have hbetter : e.Better k ↔ (saturatingAdd k.2.2 1).toNat < existing.2.toNat := by
            rw [Better, hl, ← UInt8.lt_iff_toNat_lt]
            simp
          rw [Option.map_some, improve]
          by_cases hb : e.Better k
          · rw [if_pos hb, if_pos (hbetter.mp hb)]
            rfl
          · rw [if_neg hb, if_neg fun h => hb (hbetter.mpr h)]
            rfl
  · next hd =>
      have heff := directoryEntry_effect blake3 e rid k
      generalize (e.directoryEntry blake3 rid k).1 = e' at heff
      cases heff with
      | skipped | noted => rfl
      | learned =>
          rw [path, lookup_addRelayPath, if_neg fun h => hd h.symm]
          rfl

theorem path_directoryEntries (rid : PeerId) (entries : List DirectoryEntry) (e : Engine τ) (hself : d ≠ e.ourPeerId)
    (hdirect : d ∉ e.sessions) :
    (e.directoryEntries blake3 rid entries).1.path d = (offersOf d rid entries).foldl improve (e.path d) := by
  induction entries generalizing e with
  | nil => rfl
  | cons k entries ih =>
      have hframe := directoryEntry_frame (e := e) blake3 rid k
      have hrest := ih (e.directoryEntry blake3 rid k).1 (by rwa [hframe.ourPeerId]) (by rwa [hframe.sessions])
      show (directoryEntries blake3 rid (e.directoryEntry blake3 rid k).1 entries).1.path d = _
      rw [hrest, path_directoryEntry blake3 hself hdirect, offersOf, offersOf, List.filter_cons]
      by_cases hd : k.1 = d
      · rw [if_pos hd, if_pos (decide_eq_true hd), List.map_cons, List.foldl_cons]
      · rw [if_neg hd, if_neg (by simpa using hd)]

end path

/-! ### Several directories -/

variable (blake3 : Blake3)

/-- The engine after a directory: handled, and what it sends is encrypted. -/
def onDirectory (e : Engine (SecureTransport S)) (m : ReceivedDirectory) : Engine (SecureTransport S) :=
  let r := e.handlePeerDirectory blake3 m.1 m.2
  (r.engine.transmit r.sends).1

variable {e : Engine (SecureTransport S)} {d : PeerId}

theorem path_onDirectory (hself : d ≠ e.ourPeerId) (hdirect : d ∉ e.sessions) (m : ReceivedDirectory) :
    (e.onDirectory blake3 m).path d = (e.offers d m).foldl improve (e.path d) := by
  have htransmit (e' : Engine (SecureTransport S)) (sends : List Send) : (e'.transmit sends).1.path d = e'.path d := by
    rw [path, (sameTables_transmit sends e').relayPaths, path]
  unfold onDirectory offers handlePeerDirectory
  cases e.addrIndex.lookup m.1 with
  | none => exact htransmit _ _
  | some rid =>
      dsimp only
      rw [htransmit]
      split <;> exact path_directoryEntries blake3 rid m.2 e hself hdirect

theorem sameSessions_onDirectory (m : ReceivedDirectory) : e.SameSessions (e.onDirectory blake3 m) :=
  (handlePeerDirectory_frame blake3 m.1 m.2).sameSessions.trans (sameSessions_transmit _ _)

theorem path_onDirectories (msgs : List ReceivedDirectory) (e : Engine (SecureTransport S)) (hself : d ≠ e.ourPeerId)
    (hdirect : d ∉ e.sessions) : (exec (onDirectory blake3) e msgs).path d =
      (msgs.flatMap (e.offers d)).foldl improve (e.path d) := by
  induction msgs generalizing e with
  | nil => rfl
  | cons m msgs ih =>
      have hsame := e.sameSessions_onDirectory blake3 m
      have hoffers : (e.onDirectory blake3 m).offers d = e.offers d := by
        funext m'
        rw [offers, hsame.addrIndex, offers]
      rw [Run.exec_cons, ih _ (by rwa [hsame.ourPeerId]) (fun hmem => hdirect ((hsame.mem d).mp hmem)), hoffers,
        path_onDirectory blake3 hself hdirect, List.flatMap_cons, List.foldl_append]

end Engine

open Engine in
/-- **The order of directories does not matter** for a destination without a session: after any of their orders the
stored path has the same number of hops, the least of the old one and of all offers; it is the old path if that has
as few, and otherwise one of the offers. -/
theorem directories_any_order (blake3 : Blake3) (e : Engine (SecureTransport S)) (d : PeerId)
    (hself : d ≠ e.ourPeerId) (hdirect : d ∉ e.sessions) (msgs msgs' : List ReceivedDirectory)
    (hperm : msgs.Perm msgs') :
    ((exec (onDirectory blake3) e msgs).path d).map Prod.snd =
        ((exec (onDirectory blake3) e msgs').path d).map Prod.snd ∧
      Least (e.path d) (msgs.flatMap (e.offers d)) ((exec (onDirectory blake3) e msgs).path d) ∧
      Least (e.path d) (msgs.flatMap (e.offers d)) ((exec (onDirectory blake3) e msgs').path d) := by
  have hleast (ms : List ReceivedDirectory) :
      Least (e.path d) (ms.flatMap (e.offers d)) ((exec (onDirectory blake3) e ms).path d) := by
    rw [path_onDirectories blake3 ms e hself hdirect]
    exact least_foldl _ _
  have hother := (hleast msgs').perm (hperm.symm.flatMap_right _)
  exact ⟨(hleast msgs).value_eq hother, hleast msgs, hother⟩

open Transparent in
/-- Two relays with three entries for one destination, in both orders: node 8 is two hops away from it. -/
theorem directories_any_order_two :
    let e := ((node 1).engine.insertAddrIndex (.udp (addr 7)) (.replicate 7)).insertAddrIndex (.udp (addr 8))
      (.replicate 8)
    let far : ReceivedDirectory := (.udp (addr 7), [(.replicate 9, addr 9, 4), (.replicate 9, addr 9, 2)])
    let near : ReceivedDirectory := (.udp (addr 8), [(.replicate 9, addr 9, 1)])
    ((exec (Engine.onDirectory blake3) e [far, near]).path (.replicate 9)).map Prod.snd =
        ((exec (Engine.onDirectory blake3) e [near, far]).path (.replicate 9)).map Prod.snd ∧
      Least (e.path (.replicate 9)) [(.replicate 7, 5), (.replicate 7, 3), (.replicate 8, 2)]
        ((exec (Engine.onDirectory blake3) e [far, near]).path (.replicate 9)) ∧
      Least (e.path (.replicate 9)) [(.replicate 7, 5), (.replicate 7, 3), (.replicate 8, 2)]
        ((exec (Engine.onDirectory blake3) e [near, far]).path (.replicate 9)) :=
  directories_any_order blake3 _ (.replicate 9) (by decide) (by decide) _ _ (.swap _ _ [])

end SeedNet
