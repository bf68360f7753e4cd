import SeedNet.TransparentNode
import SeedNet.InverseIndex
import SeedNet.Run

/-! # The address index and the sessions

`addr_index` is meant to be the inverse of the underlay addresses of the sessions.  Four code paths
update the two maps in separate steps: the responder, the initiator, the discovery loop's removal
of stale entries, and the handler of `PeerEvent::Removed`.

`Node.indexState` reads a node as an `InverseIndex.State`.  `Node.KeepsIndex` is the condition under
which the next update keeps the maps consistent; `addr_index_inverse` says that in a run whose steps
all meet it, `addr_index` is the inverse whenever no update is half done.  The code does not
check the condition: nothing removes the entry of a peer's old address when it
completes a handshake from a new one (`addr_index_stale`). -/

namespace SeedNet

open Run (exec Along)

variable {S : Snow}

namespace Node

variable (blake3 : Blake3) (n : Node S)

/-! ### The condition -/

/-- A session of `p` at `u` was stored whose index entry is written next. -/
def Inserting (p : PeerId) (u : TransportAddr) : Prop :=
  ∃ who c, n.completion who = some c ∧ c.stage = .addrIndex ∧ c.peerId = p ∧ c.underlay = u

/-- The address of the session of `p`. -/
def sessionAddr (p : PeerId) : Option TransportAddr := (n.engine.sessions.lookup p).map (·.underlay)

/-- The maps of a node with the updates that are half done. -/
def indexState : InverseIndex.State PeerId TransportAddr where
  fwd := n.sessionAddr
  inv u := n.engine.addrIndex.lookup u
  inserting := n.Inserting
  erasing u := n.removal = some u

/-- The address whose index entry the step `a` removes. -/
def erases : NodeAction S → Option TransportAddr
  | .discovery =>
    match n.discovery with
    | some (.remove addr) => some (.udp addr)
    | _ => none
  | .removal => n.removal
  | _ => none

/-- No session at `u` has its index entry. -/
def Unused (u : TransportAddr) : Prop := ∀ p, n.sessionAddr p = some u → n.Inserting p u

/-- The next update after a completed handshake keeps the maps consistent: a session is stored for
a peer that is listed under no other address, and an entry is written for a session that is still
where it was stored, if no other session needs the entry. -/
def CompletionKeepsIndex (c : Completion S) : Prop :=
  (c.stage = .session →
    ∀ u, n.engine.addrIndex.lookup u = some c.peerId → u = c.underlay ∨ n.removal = some u) ∧
  (c.stage = .addrIndex → n.sessionAddr c.peerId = some c.underlay ∧
    ∀ p, n.sessionAddr p = some c.underlay → p = c.peerId ∨ n.Inserting p c.underlay)

/-- The step `a` keeps the maps consistent; an entry is removed only if no session relies on it. -/
def KeepsIndex (a : NodeAction S) : Prop :=
  (∀ c ∈ a.task.bind n.completion, n.CompletionKeepsIndex c) ∧ ∀ u ∈ n.erases a, n.Unused u

/-- None of the updates of the two maps is half done. -/
def Settled : Prop := (∀ p u, ¬ n.Inserting p u) ∧ n.removal = none

/-- A node that has just started. -/
def Fresh : Prop := n.engine.sessions = ∅ ∧ n.engine.addrIndex = ∅

/-! The condition can be computed. -/

instance (p : PeerId) (u : TransportAddr) : Decidable (n.Inserting p u) :=
  decidable_of_iff (∃ who ∈ n.tasks, (n.completion who).any fun c =>
      decide (c.stage = .addrIndex ∧ c.peerId = p ∧ c.underlay = u)) <| by
    constructor
    · rintro ⟨who, -, h⟩
      obtain ⟨c, hc, hd⟩ := (Option.any_eq_true _ _).mp h
      exact ⟨who, c, hc, of_decide_eq_true hd⟩
    · rintro ⟨who, c, hc, hd⟩
      exact ⟨who, n.mem_tasks hc, (Option.any_eq_true _ _).mpr ⟨c, hc, decide_eq_true hd⟩⟩

instance decidableForallSessionAddr (u : TransportAddr) (P : PeerId → Prop) [DecidablePred P] :
    Decidable (∀ p, n.sessionAddr p = some u → P p) :=
  decidable_of_iff (∀ p ∈ n.engine.sessions.keys, n.sessionAddr p = some u → P p)
    ⟨fun h p hp => h p (by
      obtain ⟨s, hs, -⟩ := Option.map_eq_some_iff.mp hp
      exact AList.mem_keys.mp (Map.mem_iff_lookup.mpr ⟨s, hs⟩)) hp, fun h p _ => h p⟩

instance decidableForallListed (p : PeerId) (P : TransportAddr → Prop) [DecidablePred P] :
    Decidable (∀ u, n.engine.addrIndex.lookup u = some p → P u) :=
  decidable_of_iff (∀ u ∈ n.engine.addrIndex.keys, n.engine.addrIndex.lookup u = some p → P u)
    ⟨fun h u hu => h u (AList.mem_keys.mp (Map.mem_iff_lookup.mpr ⟨p, hu⟩)) hu, fun h u _ => h u⟩

instance (u : TransportAddr) : Decidable (n.Unused u) := n.decidableForallSessionAddr u _

instance (c : Completion S) : Decidable (n.CompletionKeepsIndex c) :=
  haveI := n.decidableForallListed c.peerId fun u => u = c.underlay ∨ n.removal = some u
  haveI := n.decidableForallSessionAddr c.underlay fun p => p = c.peerId ∨ n.Inserting p c.underlay
  inferInstanceAs (Decidable ((_ → _) ∧ (_ → _ ∧ _)))

instance (a : NodeAction S) : Decidable (n.KeepsIndex a) :=
  haveI := Option.decidableForallMem (p := n.CompletionKeepsIndex) (a.task.bind n.completion)
  haveI := Option.decidableForallMem (p := n.Unused) (n.erases a)
  inferInstanceAs (Decidable (_ ∧ _))

instance : Decidable n.Settled :=
  decidable_of_iff ((∀ who ∈ n.tasks, (n.completion who).all fun c => decide (c.stage ≠ .addrIndex)) ∧
      n.removal = none) <| by
    constructor
    · rintro ⟨h, hr⟩
      refine ⟨fun p u ⟨who, c, hc, hst, _⟩ => ?_, hr⟩
      have hall := h who (n.mem_tasks hc)
      rw [hc] at hall
      exact of_decide_eq_true hall hst
    · rintro ⟨h, hr⟩
      refine ⟨fun who _ => ?_, hr⟩
      cases hc : n.completion who with
      | none => rfl
      | some c => exact decide_eq_true fun hst => h _ _ ⟨who, c, hc, hst, rfl, rfl⟩

/-! ### The invariant -/

variable {blake3} {n} {n' : Node S}

theorem sessionAddr_of_same (hs : n.engine.SameSessions n'.engine) : n'.sessionAddr = n.sessionAddr :=
  funext fun p => hs.underlay p

theorem sessionAddr_of_sessions (hs : n'.engine.sessions = n.engine.sessions) : n'.sessionAddr = n.sessionAddr := by
  funext p
  simp only [sessionAddr, hs]

theorem inserting_of_same (hc : ∀ w, n'.completion w = n.completion w) (p : PeerId) (u : TransportAddr)
    (h : n.Inserting p u) : n'.Inserting p u := by
  obtain ⟨who, c, hw, hst⟩ := h
  exact ⟨who, c, (hc who).trans hw, hst⟩

/-- A completion that is not about to write an index entry may change. -/
theorem inserting_of_updated {who : Option ℕ} {c : Option (Completion S)} (hc : CompletionsUpdated n n' who c)
    (hold : ∀ d, n.completion who = some d → d.stage ≠ .addrIndex) (p : PeerId) (u : TransportAddr)
    (h : n.Inserting p u) : n'.Inserting p u := by
  obtain ⟨w, d, hw, hst, hp, hu⟩ := h
  refine ⟨w, d, ?_, hst, hp, hu⟩
  rw [hc w]
  split
  · next hwho => exact absurd hst (hold d (hwho ▸ hw))
  · exact hw

theorem consistent_run (c : Completion S) (who : Option ℕ) (h : InverseIndex.Consistent n.indexState)
    (hsome : n.completion who = some c) (hkeep : n.CompletionKeepsIndex c)
    (hs : n'.engine = (c.run blake3 n.engine).1) (hr : n'.removal = n.removal)
    (hc : CompletionsUpdated n n' who c.next) : InverseIndex.Consistent n'.indexState := by
  have her : ∀ v, n.indexState.erasing v → n'.indexState.erasing v := fun v hv => hr.trans hv
  by_cases hses : c.stage = .session
  · have hold : ∀ d, n.completion who = some d → d.stage ≠ .addrIndex := by
      rintro d hd
      rw [hsome, Option.some.injEq] at hd
      simp [← hd, hses]
    simp only [Completion.run, hses] at hs
    refine h.insertFwd (k := c.peerId) (v := c.underlay) ?_ ?_ ?_ her (hkeep.1 hses)
    · funext p
      simp only [indexState, sessionAddr, hs, Engine.insertSession, Map.lookup_insert, Function.update_apply]
      split <;> rfl
    · simp only [indexState, hs, Engine.insertSession]
    · rintro p u (hx | ⟨rfl, rfl⟩)
      · exact inserting_of_updated hc hold p u hx
      · refine ⟨who, { c with stage := .addrIndex }, ?_, rfl, rfl, rfl⟩
        rw [hc who, if_pos rfl]
        simp only [Completion.next, hses]
  · by_cases hidx : c.stage = .addrIndex
    · simp only [Completion.run, hidx] at hs
      obtain ⟨hk, hv⟩ := hkeep.2 hidx
      refine h.insertInv (k := c.peerId) (v := c.underlay) ?_ ?_ ?_ her hk hv
      · exact sessionAddr_of_sessions (by rw [hs]; rfl)
      · funext u
        simp only [indexState, hs, Engine.insertAddrIndex, Map.lookup_insert, Function.update_apply]
      · rintro p u ⟨w, d, hw, hst, hp, hu⟩ hne
        refine ⟨w, d, ?_, hst, hp, hu⟩
        rw [hc w]
        split
        · next hwho =>
            rw [hwho, hsome, Option.some.injEq] at hw
            subst hw
            exact absurd ⟨hp.symm, hu.symm⟩ hne
        · exact hw
    · have hsame := hs ▸ Completion.run_sameSessions blake3 (e := n.engine) hses hidx
      refine h.congr (sessionAddr_of_same hsame) ?_ ?_ her
      · simp only [indexState, hsame.addrIndex]
      · refine inserting_of_updated hc fun d hd => ?_
        rw [hsome, Option.some.injEq] at hd
        exact hd ▸ hidx

theorem consistent_next (n : Node S) (a : NodeAction S) (h : InverseIndex.Consistent n.indexState)
    (hkeep : n.KeepsIndex a) : InverseIndex.Consistent (n.next blake3 a).indexState := by
  have hsame : ∀ n' : Node S, n.engine.SameSessions n'.engine → n'.removal = n.removal →
      (∀ p u, n.Inserting p u → n'.Inserting p u) → InverseIndex.Consistent n'.indexState := by
    intro n' hs hr hins
    refine h.congr (sessionAddr_of_same hs) ?_ hins fun v hv => hr.trans hv
    simp only [indexState, hs.addrIndex]
  cases effect blake3 n a with
  | quiet hs hr hc => exact hsame _ hs hr (inserting_of_same hc)
  | accepts arrival responder created result ha hpunch hpending hfinish hs hr hnone hc =>
      refine hsame _ (hs ▸ .refl _) hr (inserting_of_updated hc ?_)
      rw [hnone]
      intro d hd
      cases hd
  | answers id token attempt data result ha hattempt hstage hinbox hanswer hs hr hnone hc =>
      refine hsame _ (hs ▸ .refl _) hr (inserting_of_updated hc ?_)
      rw [hnone]
      intro d hd
      cases hd
  | advances who c ha hsome hs hr hc =>
      exact consistent_run c who h hsome (hkeep.1 c (by rw [ha]; exact hsome)) hs hr hc
  | removes id session hlookup hnone hs hr hc =>
      refine h.eraseFwd (k := id) (v := session.underlay) ?_ ?_ (inserting_of_same hc) ?_ ?_
      · funext p
        simp only [indexState, sessionAddr, hs, Engine.removeSession, Map.lookup_erase, Function.update_apply]
        split <;> rfl
      · simp only [indexState, hs, Engine.removeSession]
      · rintro v (hv | rfl)
        · cases hnone.symm.trans hv
        · exact hr
      · simp only [indexState, sessionAddr, hlookup, Option.map_some]
  | cleans underlay ha hsome hs hr hc =>
      subst ha
      refine h.eraseInv (v := underlay) ?_ ?_ (inserting_of_same hc) ?_ (hkeep.2 underlay hsome)
      · exact sessionAddr_of_sessions (by rw [hs]; rfl)
      · funext u
        simp only [indexState, hs, Engine.removeAddrIndex, Map.lookup_erase, Function.update_apply]
      · intro v hv hne
        exact absurd (Option.some.inj (hv.symm.trans hsome)) hne
  | forgets addr ha hsome hs hr hc =>
      subst ha
      refine h.eraseInv (v := .udp addr) ?_ ?_ (inserting_of_same hc) ?_
        (hkeep.2 (.udp addr) (by simp only [erases, hsome]; rfl))
      · exact sessionAddr_of_sessions (by rw [hs]; rfl)
      · funext u
        simp only [indexState, hs, Engine.removeAddrIndex, Map.lookup_erase, Function.update_apply]
      · exact fun v hv _ => hr.trans hv

theorem consistent_fresh (h : n.Fresh) : InverseIndex.Consistent n.indexState := by
  refine InverseIndex.Consistent.empty.congr ?_ ?_ (fun _ _ => id) fun _ => id
  · funext p
    simp only [indexState, sessionAddr, h.1, AList.lookup_empty, Option.map_none]
  · funext u
    simp only [indexState, h.2, AList.lookup_empty]

end Node

/-- In every run of a node whose steps all meet `KeepsIndex`, `addr_index` is the inverse of the
sessions' underlay addresses whenever none of the updates is half done. -/
theorem addr_index_inverse (blake3 : Blake3) (n : Node S) (hfresh : n.Fresh) (as : List (NodeAction S))
    (hok : Along (Node.next blake3) Node.KeepsIndex n as) (hset : (exec (Node.next blake3) n as).Settled)
    (u : TransportAddr) (p : PeerId) :
    (exec (Node.next blake3) n as).engine.addrIndex.lookup u = some p ↔
      ∃ s, (exec (Node.next blake3) n as).engine.sessions.lookup p = some s ∧ s.underlay = u := by
  have h := hok.invariant (I := fun m => InverseIndex.Consistent m.indexState)
    (fun m a hI hkeep => Node.consistent_next m a hI hkeep) (Node.consistent_fresh hfresh)
  have hinv := h.inverse hset.1 (fun v hv => by cases hset.2.symm.trans hv) p u
  simpa only [Node.indexState, Node.sessionAddr, Option.map_eq_some_iff] using hinv

open Transparent in
/-- After one handshake with a peer, as responder. -/
theorem addr_index_inverse_handshake :
    ∃ s, (exec (Node.next blake3) (node 1) (handshakeFrom 7 (addr 2) 3 4)).engine.sessions.lookup (.replicate 7) =
      some s ∧ s.underlay = .udp (addr 2) :=
  (addr_index_inverse blake3 (node 1) ⟨rfl, rfl⟩ (handshakeFrom 7 (addr 2) 3 4) (by decide +kernel)
    (by decide +kernel) (.udp (addr 2)) (.replicate 7)).mp (by decide +kernel)

open Transparent in
/-- A peer completes a handshake from one address and then one from another: `addr_index` lists
it under both. -/
theorem addr_index_stale :
    ¬ ∀ (as : List (NodeAction transparent)) (u : TransportAddr) (p : PeerId),
      (exec (Node.next blake3) (node 1) as).Settled →
        ((exec (Node.next blake3) (node 1) as).engine.addrIndex.lookup u = some p ↔
          ∃ s, (exec (Node.next blake3) (node 1) as).engine.sessions.lookup p = some s ∧ s.underlay = u) := by
  intro h
  let moves := handshakeFrom 7 (addr 2) 3 4 ++ handshakeFrom 7 (addr 5) 13 14
  have hnow : (exec (Node.next blake3) (node 1) moves).sessionAddr (.replicate 7) = some (.udp (addr 5)) := by
    decide +kernel
  obtain ⟨s, hs, hu⟩ := (h moves (.udp (addr 2)) (.replicate 7) (by decide +kernel)).mp (by decide +kernel)
  have hold : (exec (Node.next blake3) (node 1) moves).sessionAddr (.replicate 7) = some (.udp (addr 2)) := by
    rw [Node.sessionAddr, hs, Option.map_some, hu]
  exact absurd (hnow.symm.trans hold) (by decide)

end SeedNet
