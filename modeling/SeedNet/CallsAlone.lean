import SeedNet.RecordHandles

/-! # Calls on the peer manager without interruption

The peer manager of `Peer.lean` makes a call in one step, `PeerRecords.lean` in stages on objects that handles refer
to.  Without interruption the stages come to the same records, up to their order in the table: a setter through a
handle leaves the record where it is, `PeerManager.update` puts it first (`PeerTable.Shows`).  Each theorem
`returns_…` is about one call on the state that the tasks of a node share. -/

namespace SeedNet

namespace PeerTable

/-- The records are those of `m`, in whatever order. -/
structure Shows (t : PeerTable) (m : PeerManager) : Prop where
  peers : ∀ id, t.record id = m.get id
  events : t.events = m.events
  listed : ∀ id o, t.table.lookup id = some o → ∃ p, t.objects[o]? = some p ∧ p.id = id

namespace Shows

variable {t : PeerTable} {m : PeerManager} {id : PeerId} {o : ℕ}

theorem lookup_eq_none (h : t.Shows m) (hnone : t.table.lookup id = none) : m.get id = none := by
  rw [← h.peers, record, hnone, Option.bind_none]

theorem lookup_eq_some (h : t.Shows m) (hsome : t.table.lookup id = some o) :
    ∃ p, t.objects[o]? = some p ∧ p.id = id ∧ m.get id = some p := by
  obtain ⟨p, hp, hid⟩ := h.listed id o hsome
  refine ⟨p, hp, hid, ?_⟩
  rw [← h.peers, record, hsome, Option.bind_some, hp]

theorem send (h : t.Shows m) (e : PeerEvent) : (t.send e).Shows (m.send e) :=
  ⟨h.peers, congrArg (· ++ [e]) h.events, h.listed⟩

/-- A setter through the handle of `id`. -/
theorem modify (h : t.Shows m) (hl : t.table.lookup id = some o) {f : Peer → Peer}
    (hf : ∀ p, t.objects[o]? = some p → (f p).id = p.id) : (t.modify o f).Shows (m.update id f) := by
  obtain ⟨p, hp, hid, hget⟩ := h.lookup_eq_some hl
  refine ⟨fun id' => ?_, ?_, fun id' o' hl' => ?_⟩
  · rw [PeerManager.get_update, record]
    show ((t.table.lookup id').bind fun o' => (t.modify o f).objects[o']?) = _
    split
    · next heq =>
        rw [heq, hl, Option.bind_some, object_modify hp, if_pos rfl, hget]
        rfl
    · next hne =>
        rw [← h.peers, record]
        cases hl' : t.table.lookup id' with
        | none => rfl
        | some o' =>
            obtain ⟨p', hp', hid', -⟩ := h.lookup_eq_some hl'
            have ho : o ≠ o' := by
              rintro rfl
              rw [hp] at hp'
              exact hne (hid'.symm.trans ((congrArg Peer.id (Option.some.inj hp')).symm.trans hid))
            rw [Option.bind_some, Option.bind_some, object_modify hp', if_neg ho, hp']
  · show t.events = _
    rw [h.events, PeerManager.update, hget]
  · obtain ⟨p', hp', hid', -⟩ := h.lookup_eq_some (o := o') hl'
    refine ⟨_, object_modify hp' o f, ?_⟩
    split
    · next ho => exact (hf p' (ho ▸ hp')).trans hid'
    · exact hid'

theorem update_self (h : t.Shows m) (id : PeerId) : t.Shows (m.update id fun p => p) := by
  refine ⟨fun id' => ?_, ?_, h.listed⟩
  · rw [h.peers, PeerManager.get_update, Option.map_id']
    split
    · next heq => rw [heq]
    · rfl
  · rw [h.events, PeerManager.update]
    split <;> rfl

/-- A record with a new object. -/
theorem insert (h : t.Shows m) (p : Peer) :
    { t with objects := t.objects ++ [p], table := t.table.insert p.id t.objects.length }.Shows (m.insert p) := by
  have hold {id : PeerId} {o : ℕ} (hl : t.table.lookup id = some o) : (t.objects ++ [p])[o]? = t.objects[o]? := by
    obtain ⟨p', hp', -⟩ := h.listed id o hl
    exact List.getElem?_append_left (List.getElem?_eq_some_iff.mp hp').1
  refine ⟨fun id => ?_, h.events, fun id o hl => ?_⟩
  · show (((t.table.insert p.id t.objects.length).lookup id).bind fun o => (t.objects ++ [p])[o]?) =
      (m.peers.insert p.id p).lookup id
    rw [Map.lookup_insert, Map.lookup_insert]
    split
    · exact List.getElem?_concat_length
    · rw [show m.peers.lookup id = t.record id from (h.peers id).symm, record]
      cases hl : t.table.lookup id with
      | none => rfl
      | some o => exact hold hl
  · have hl : (t.table.insert p.id t.objects.length).lookup id = some o := hl
    rw [Map.lookup_insert] at hl
    show ∃ p', (t.objects ++ [p])[o]? = some p' ∧ _
    split at hl
    · next hid =>
        cases hl
        exact ⟨p, List.getElem?_concat_length, hid.symm⟩
    · rw [hold hl]
      exact h.listed id o hl

end Shows

end PeerTable

variable {S : Snow}

namespace Shared

open Threads.Thread (Returns)

variable {s s' : Shared S} {m : PeerManager} {r : Option ℕ} {id : PeerId}

/-- A call that goes on with `c`, and comes from there to `d`. -/
theorem returns_stage {c d : PeerCall} {rest : List PeerState} {t : PeerTable}
    (hgoes : afterCall id rest c = .inl (.call c id rest)) (hc : s.records.perform c = (t, d))
    (h : Returns perform (afterCall id rest d) (s.setRecords t) r s') :
    Returns perform (afterCall id rest c) s r s' := by
  rw [hgoes]
  refine .stage ?_
  rw [perform, hc]
  exact h

theorem returns_get : Returns perform (.inl (.call (.get id) id [])) s (s.records.table.lookup id)
    (s.setRecords s.records) := by
  refine .stage ?_
  rw [perform, PeerTable.perform]
  cases s.records.table.lookup id with
  | some o => exact .result (some o) _
  | none => exact .result none _

theorem returns_discover (h : s.records.Shows m) (a : SocketAddr) :
    ∃ t o, t.Shows (m.discover id a) ∧ t.table.lookup id = some o ∧ ∀ rest r s',
      Returns perform (afterCall id rest (.returned id o)) (s.setRecords t) r s' →
        Returns perform (.inl (.call (.discover id a) id rest)) s r s' := by
  have hgoes (rest : List PeerState) :
      afterCall id rest (.discover id a) = .inl (.call (.discover id a) id rest) := by cases rest <;> rfl
  cases hl : s.records.table.lookup id with
  | some o =>
      obtain ⟨p, -, -, hget⟩ := h.lookup_eq_some hl
      refine ⟨s.records.modify o fun p => { p with underlayAddr := some a }, o, ?_, hl, fun rest r s' hr => ?_⟩
      · rw [PeerManager.discover, hget]
        exact h.modify hl fun _ _ => rfl
      · rw [← hgoes]
        refine returns_stage (d := .setUnderlay id o a) (t := s.records) (hgoes rest) ?_ ?_
        · rw [PeerTable.perform, hl]
        · exact returns_stage (by cases rest <;> rfl) rfl hr
  | none =>
      have hget := h.lookup_eq_none hl
      let new := Peer.newWithUnderlay id a
      let p := (new.transition .discovering).toOption.getD new
      let t : PeerTable :=
        { s.records with
          objects := s.records.objects ++ [p]
          table := s.records.table.insert id s.records.objects.length }
      refine ⟨t.send (.discovered id a), s.records.objects.length, ?_, AList.lookup_insert _, fun rest r s' hr => ?_⟩
      · rw [PeerManager.discover, hget]
        exact (h.insert p).send (.discovered id a)
      · rw [← hgoes]
        refine returns_stage (d := .transition id s.records.objects.length a)
          (t := { s.records with objects := s.records.objects ++ [new] }) (hgoes rest) ?_ ?_
        · rw [PeerTable.perform, hl]
        refine returns_stage (d := .insert id s.records.objects.length a)
          (t := { s.records with objects := s.records.objects ++ [p] }) (by cases rest <;> rfl) ?_ ?_
        · exact congrArg (·, PeerCall.insert id s.records.objects.length a) (s.records.modify_last new _)
        refine returns_stage (d := .sendDiscovered id s.records.objects.length a) (t := t)
          (by cases rest <;> rfl) rfl ?_
        exact returns_stage (by cases rest <;> rfl) rfl hr

theorem returns_transition (h : s.records.Shows m) (next : PeerState) :
    ∃ t, t.Shows (m.transitionPeer id next).2 ∧ ∀ rest r s',
      Returns perform (afterCall id rest .finished) (s.setRecords t) r s' →
        Returns perform (.inl (.call (.transitionPeer id next) id rest)) s r s' := by
  have hgoes (rest : List PeerState) :
      afterCall id rest (.transitionPeer id next) = .inl (.call (.transitionPeer id next) id rest) := by
    cases rest <;> rfl
  cases hl : s.records.table.lookup id with
  | none =>
      refine ⟨s.records, ?_, fun rest r s' hr => ?_⟩
      · rw [PeerManager.transitionPeer, h.lookup_eq_none hl]
        exact h
      · rw [← hgoes]
        refine returns_stage (d := .finished) (hgoes rest) ?_ hr
        rw [PeerTable.perform, hl]
  | some o =>
      obtain ⟨p, hp, -, hget⟩ := h.lookup_eq_some hl
      -- the first two stages only read
      have hreads {t : PeerTable} {c : PeerCall} (hc : s.records.perform (.transitionTo id o p.state next) = (t, c))
          (rest : List PeerState) {r : Option ℕ} {s' : Shared S}
          (hr : Returns perform (afterCall id rest c) (s.setRecords t) r s') :
          Returns perform (.inl (.call (.transitionPeer id next) id rest)) s r s' := by
        rw [← hgoes]
        refine returns_stage (d := .readState id o next) (t := s.records) (hgoes rest) ?_ ?_
        · rw [PeerTable.perform, hl]
        refine returns_stage (d := .transitionTo id o p.state next) (t := s.records) (by cases rest <;> rfl) ?_ ?_
        · show s.records.perform _ = _
          rw [PeerTable.perform, hp]
        exact returns_stage (by cases rest <;> rfl) hc hr
      cases htransition : p.transition next with
      | error err =>
          refine ⟨s.records, ?_, fun rest r s' hr => hreads (c := .finished) ?_ rest hr⟩
          · rw [PeerManager.transitionPeer, hget]
            dsimp only
            rw [htransition]
            exact h
          · rw [PeerTable.perform, hp]
            dsimp only
            rw [htransition]
      | ok q =>
          refine ⟨(s.records.modify o fun _ => q).send (.stateChanged id p.state next), ?_, fun rest r s' hr => ?_⟩
          · rw [PeerManager.transitionPeer, hget]
            dsimp only
            rw [htransition]
            refine (h.modify hl fun p' hp' => ?_).send _
            obtain rfl : p = p' := Option.some.inj (hp.symm.trans hp')
            exact Peer.id_transition htransition
          · refine hreads (t := s.records.modify o fun _ => q) (c := .sendStateChanged id o p.state next) ?_ rest ?_
            · rw [PeerTable.perform, hp]
              dsimp only
              rw [htransition]
            · exact returns_stage (by cases rest <;> rfl) rfl hr

theorem returns_register (h : s.records.Shows m) (a : SocketAddr) :
    ∃ t, t.Shows (m.register id a) ∧
      Returns perform (.inl (.call (.discover id a) id registration)) s none (s.setRecords t) := by
  obtain ⟨t₁, o, h₁, -, hdiscover⟩ := returns_discover h a
  obtain ⟨t₂, h₂, hconnecting⟩ := returns_transition (s := s.setRecords t₁) h₁ .connecting
  obtain ⟨t₃, h₃, hhandshaking⟩ := returns_transition (s := s.setRecords t₂) h₂ .handshaking
  obtain ⟨t₄, h₄, hconnected⟩ := returns_transition (s := s.setRecords t₃) h₃ .connected
  exact ⟨t₄, h₄, hdiscover _ _ _ (hconnecting _ _ _ (hhandshaking _ _ _ (hconnected [] _ _ (.result none _))))⟩

end Shared

end SeedNet
