import Mathlib.Algebra.BigOperators.Fin
import Mathlib.Data.Fintype.Basic
import Mathlib.Data.List.Chain
import SeedNet.Run

/-! # Trees of bounded queues

Messages of several kinds pass through queues to one sink, and queues are shared by messages of several kinds.  A task
that holds one message at a time is a queue of capacity 1.

`QueueTree` says where the queues lead and how much they hold, `Routes` which way the messages of each kind take, and
`Carries R s sent` that from the sink back to the sources the messages of each kind are those sent, in their order:
`Carries.move` and `Carries.put` keep it, and `Carries.prefix` is what the sink has of it.  Nothing gets stuck:
as long as a message is on the way, some move has an effect (`exists_move_ne`), and every such move decreases
`weight`. -/

/-- Queues `P` that lead to each other. -/
structure QueueTree (P : Type*) where
  next : P → Option P
  /-- the number of messages that a queue holds, if there is a bound -/
  capacity : P → Option ℕ
  depth : P → ℕ
  depth_lt : ∀ {p q}, next p = some q → depth q < depth p
  capacity_pos : ∀ {p c}, capacity p = some c → 0 < c
  capacity_sink : ∀ {p}, next p = none → capacity p = none

namespace QueueTree

variable {P κ α : Type*}

/-- What is in the queues, the first message first. -/
abbrev Load (P κ α : Type*) := P → List (κ × α)

section move

variable [DecidableEq P] (t : QueueTree P)

def HasRoom (s : Load P κ α) (p : P) : Prop := ∀ c ∈ t.capacity p, (s p).length < c

instance (s : Load P κ α) (p : P) : Decidable (t.HasRoom s p) := inferInstanceAs (Decidable (∀ c ∈ t.capacity p, _))

/-- The first message of `p` goes to the next queue, if that has room. -/
def move (s : Load P κ α) (p : P) : Load P κ α :=
  match t.next p, s p with
  | some q, m :: rest => if t.HasRoom s q then Function.update (Function.update s p rest) q (s q ++ [m]) else s
  | _, _ => s

/-- A message comes to `p`, if that has room. -/
def put (s : Load P κ α) (p : P) (m : κ × α) : Load P κ α :=
  if t.HasRoom s p then Function.update s p (s p ++ [m]) else s

variable {t} {s : Load P κ α} {p q : P}

omit [DecidableEq P] in
theorem ne_of_next (h : t.next p = some q) : q ≠ p := fun heq => absurd (t.depth_lt h) (heq ▸ lt_irrefl _)

theorem move_eq {m : κ × α} {rest : List (κ × α)} (hnext : t.next p = some q) (hp : s p = m :: rest)
    (hroom : t.HasRoom s q) : t.move s p = Function.update (Function.update s p rest) q (s q ++ [m]) := by
  simp only [move, hnext, hp, if_pos hroom]

/-- What a move does. -/
theorem move_cases (s : Load P κ α) (p : P) :
    (∃ q m rest, t.next p = some q ∧ s p = m :: rest ∧ t.HasRoom s q ∧
      t.move s p = Function.update (Function.update s p rest) q (s q ++ [m])) ∨ t.move s p = s := by
  rcases hnext : t.next p with _ | q
  · exact .inr (by simp only [move, hnext])
  · rcases hp : s p with _ | ⟨m, rest⟩
    · exact .inr (by simp only [move, hnext, hp])
    · by_cases hroom : t.HasRoom s q
      · exact .inl ⟨q, m, rest, rfl, rfl, hroom, move_eq hnext hp hroom⟩
      · exact .inr (by simp only [move, hnext, hp, if_neg hroom])

end move

/-! ### Routes -/

/-- The ways of the messages, each from the sink to its source. -/
structure Routes (t : QueueTree P) (κ : Type*) where
  sink : P
  next_sink : t.next sink = none
  route : κ → List P
  head : ∀ k, ∃ rest, route k = sink :: rest
  chain : ∀ k, (route k).IsChain fun q p => t.next p = some q
  nodup : ∀ k, (route k).Nodup

variable {t : QueueTree P}

theorem Routes.exists_split (R : Routes t κ) {k : κ} {p q : P} (hp : p ∈ R.route k) (hnext : t.next p = some q) :
    ∃ front back, R.route k = front ++ q :: p :: back := by
  obtain ⟨front, back, hroute⟩ := List.append_of_mem hp
  have hchain := R.chain k
  obtain ⟨rest, hhead⟩ := R.head k
  rcases List.eq_nil_or_concat front with rfl | ⟨front, r, rfl⟩
  · -- the sink leads nowhere
    obtain rfl : p = R.sink := by
      rw [hroute, List.nil_append] at hhead
      exact List.head_eq_of_cons_eq hhead
    rw [R.next_sink] at hnext
    cases hnext
  · rw [List.concat_eq_append, List.append_assoc, List.singleton_append] at hroute
    rw [hroute] at hchain
    have hr : t.next p = some r := (List.isChain_append.mp hchain).2.1.rel
    obtain rfl : r = q := Option.some_injective _ (hr.symm.trans hnext)
    exact ⟨front, back, hroute⟩

section ofKind

variable [DecidableEq κ]

/-- The messages of one kind. -/
def ofKind (k : κ) (ms : List (κ × α)) : List α := (ms.filter fun m => m.1 = k).map Prod.snd

@[simp] theorem ofKind_nil (k : κ) : ofKind k ([] : List (κ × α)) = [] := rfl

@[simp] theorem ofKind_append (k : κ) (ms ms' : List (κ × α)) :
    ofKind k (ms ++ ms') = ofKind k ms ++ ofKind k ms' := by
  rw [ofKind, List.filter_append, List.map_append]
  rfl

@[simp] theorem ofKind_singleton (k : κ) (a : α) : ofKind k [(k, a)] = [a] := by simp [ofKind]

theorem ofKind_of_ne {k : κ} {m : κ × α} (h : m.1 ≠ k) : ofKind k [m] = [] := by simp [ofKind, h]

theorem ofKind_cons (k : κ) (m : κ × α) (ms : List (κ × α)) : ofKind k (m :: ms) = ofKind k [m] ++ ofKind k ms :=
  ofKind_append k [m] ms

theorem mem_ofKind {k : κ} {a : α} {ms : List (κ × α)} : a ∈ ofKind k ms ↔ (k, a) ∈ ms := by
  simp only [ofKind, List.mem_map, List.mem_filter, decide_eq_true_eq, Prod.exists, exists_eq_right]

/-- The messages of kind `k` on their way, those at the sink first. -/
def Routes.carried (R : Routes t κ) (s : Load P κ α) (k : κ) : List α := (R.route k).flatMap fun p => ofKind k (s p)

/-- The messages that were sent are on their way, in order, and nothing else is. -/
structure Carries (R : Routes t κ) (s : Load P κ α) (sent : κ → List α) : Prop where
  placed : ∀ p, ∀ m ∈ s p, p ∈ R.route m.1
  carried : ∀ k, R.carried s k = sent k

variable {R : Routes t κ} {s : Load P κ α} {sent : κ → List α}

theorem carries_empty (R : Routes t κ) : Carries R (fun _ => ([] : List (κ × α))) fun _ => [] where
  placed _ _ hm := absurd hm List.not_mem_nil
  carried k := by simp only [Routes.carried, ofKind_nil, List.flatMap_eq_nil_iff, implies_true]

theorem Carries.prefix (h : Carries R s sent) (k : κ) : ofKind k (s R.sink) <+: sent k := by
  obtain ⟨rest, hroute⟩ := R.head k
  rw [← h.carried k, Routes.carried, hroute, List.flatMap_cons]
  exact List.prefix_append _ _

/-- What has been sent is at the sink if nothing else is in the queues. -/
theorem Carries.eq_of_empty (h : Carries R s sent) (hempty : ∀ p, p ≠ R.sink → s p = []) (k : κ) :
    ofKind k (s R.sink) = sent k := by
  obtain ⟨rest, hroute⟩ := R.head k
  have hnodup : R.sink ∉ rest := (List.nodup_cons.mp (hroute ▸ R.nodup k)).1
  have hrest : (rest.flatMap fun p => ofKind k (s p)) = [] := by
    refine List.flatMap_eq_nil_iff.mpr fun p hp => ?_
    rw [hempty p (fun heq => hnodup (heq ▸ hp)), ofKind_nil]
  rw [← h.carried k, Routes.carried, hroute, List.flatMap_cons, hrest, List.append_nil]

variable [DecidableEq P]

theorem Carries.move (h : Carries R s sent) (p : P) : Carries R (t.move s p) sent := by
  obtain ⟨q, m, rest, hnext, hp, hroom, hmove⟩ | hmove := move_cases (t := t) s p
  swap
  · rwa [hmove]
  have hqp : q ≠ p := ne_of_next hnext
  have hmem : p ∈ R.route m.1 := h.placed p m (hp ▸ List.mem_cons_self)
  rw [hmove]
  have hat {r : P} (hr : r ≠ q) (hr' : r ≠ p) : Function.update (Function.update s p rest) q (s q ++ [m]) r = s r := by
    rw [Function.update_of_ne hr, Function.update_of_ne hr']
  have hatp : Function.update (Function.update s p rest) q (s q ++ [m]) p = rest := by
    rw [Function.update_of_ne hqp.symm, Function.update_self]
  refine ⟨fun r m' hm' => ?_, fun k => ?_⟩
  · by_cases hr : r = q
    · subst hr
      rw [Function.update_self] at hm'
      rcases List.mem_append.mp hm' with hm' | hm'
      · exact h.placed r m' hm'
      · obtain rfl := List.mem_singleton.mp hm'
        obtain ⟨front, back, hroute⟩ := R.exists_split hmem hnext
        exact hroute ▸ List.mem_append_right _ List.mem_cons_self
    · by_cases hr' : r = p
      · subst hr'
        rw [hatp] at hm'
        exact h.placed r m' (hp ▸ List.mem_cons_of_mem _ hm')
      · exact h.placed r m' (hat hr hr' ▸ hm')
  · rw [← h.carried k]
    by_cases hk : p ∈ R.route k
    · -- the two queues are neighbours on the way
      obtain ⟨front, back, hroute⟩ := R.exists_split hk hnext
      have hnodup : (front ++ q :: p :: back).Nodup := hroute ▸ R.nodup k
      obtain ⟨-, hback, hfront⟩ := List.nodup_append.mp hnodup
      obtain ⟨hq, hback⟩ := List.nodup_cons.mp hback
      obtain ⟨hp', -⟩ := List.nodup_cons.mp hback
      have hsame (r : P) (hr : r ∈ front ∨ r ∈ back) :
          ofKind k (Function.update (Function.update s p rest) q (s q ++ [m]) r) = ofKind k (s r) := by
        rcases hr with hr | hr
        · rw [hat (hfront r hr q List.mem_cons_self) (hfront r hr p (List.mem_cons_of_mem _ List.mem_cons_self))]
        · rw [hat (fun heq => hq (heq ▸ List.mem_cons_of_mem _ hr)) (fun heq => hp' (heq ▸ hr))]
      simp only [Routes.carried, hroute, List.flatMap_append, List.flatMap_cons]
      rw [List.flatMap_congr fun r hr => hsame r (.inl hr), List.flatMap_congr fun r hr => hsame r (.inr hr), hatp,
        Function.update_self, ofKind_append, hp, ofKind_cons k m rest, List.append_assoc, List.append_assoc]
    · have hne : m.1 ≠ k := fun heq => hk (heq ▸ hmem)
      refine List.flatMap_congr fun r hr => ?_
      by_cases hrq : r = q
      · subst hrq
        rw [Function.update_self, ofKind_append, ofKind_of_ne hne, List.append_nil]
      · rw [hat hrq (fun heq => hk (heq ▸ hr))]

/-- A message of kind `k` comes to the source of its kind. -/
theorem Carries.put (h : Carries R s sent) {k : κ} {p : P} {front : List P} (hroute : R.route k = front ++ [p])
    (hroom : t.HasRoom s p) (a : α) :
    Carries R (t.put s p (k, a)) (Function.update sent k (sent k ++ [a])) := by
  have hput : t.put s p (k, a) = Function.update s p (s p ++ [(k, a)]) := if_pos hroom
  rw [hput]
  refine ⟨fun r m hm => ?_, fun k' => ?_⟩
  · by_cases hr : r = p
    · subst hr
      rw [Function.update_self] at hm
      rcases List.mem_append.mp hm with hm | hm
      · exact h.placed r m hm
      · obtain rfl := List.mem_singleton.mp hm
        exact hroute ▸ List.mem_append_right _ List.mem_cons_self
    · exact h.placed r m (by rwa [Function.update_of_ne hr] at hm)
  · by_cases hk : k' = k
    · subst hk
      have hnodup : (front ++ [p]).Nodup := hroute ▸ R.nodup k'
      have hfront : p ∉ front := fun hp => (List.nodup_append.mp hnodup).2.2 p hp p List.mem_cons_self rfl
      rw [Function.update_self, ← h.carried k', Routes.carried, Routes.carried, hroute, List.flatMap_append,
        List.flatMap_append, List.flatMap_singleton, List.flatMap_singleton, Function.update_self, ofKind_append,
        ofKind_singleton, List.append_assoc]
      congr 1
      refine List.flatMap_congr fun r hr => ?_
      rw [Function.update_of_ne]
      rintro rfl
      exact hfront hr
    · rw [Function.update_of_ne hk, ← h.carried k']
      refine List.flatMap_congr fun r _ => ?_
      by_cases hr : r = p
      · subst hr
        have hne : ((k, a) : κ × α).1 ≠ k' := fun heq => hk heq.symm
        rw [Function.update_self, ofKind_append, ofKind_of_ne hne, List.append_nil]
      · rw [Function.update_of_ne hr]

end ofKind

/-! ### Nothing gets stuck -/

section weight

variable [DecidableEq P]

/-- As long as a message is on the way, some message can move on: of the queues that are not empty, the one closest to
the sink leads to an empty one. -/
theorem exists_move_ne {s : Load P κ α} {p : P} (hp : s p ≠ []) (hnext : t.next p ≠ none) : ∃ q, t.move s q ≠ s := by
  obtain ⟨q, hq⟩ := Option.ne_none_iff_exists'.mp hnext
  induction hd : t.depth p using Nat.strong_induction_on generalizing p q with
  | _ d ih =>
      by_cases hqempty : s q = [] ∨ t.next q = none
      · obtain ⟨m, rest, hm⟩ := List.exists_cons_of_ne_nil hp
        have hroom : t.HasRoom s q := by
          intro c hc
          rcases hqempty with hempty | hsink
          · rw [hempty]
            exact t.capacity_pos hc
          · rw [t.capacity_sink hsink] at hc
            cases hc
        refine ⟨p, fun heq => ?_⟩
        have hat : t.move s p p = rest := by
          rw [move_eq hq hm hroom, Function.update_of_ne (ne_of_next hq).symm, Function.update_self]
        rw [heq, hm] at hat
        exact List.cons_ne_self m rest hat
      · obtain ⟨hqne, hqnext⟩ := not_or.mp hqempty
        obtain ⟨r, hr⟩ := Option.ne_none_iff_exists'.mp hqnext
        exact ih (t.depth q) (hd ▸ t.depth_lt hq) hqne hqnext r hr rfl

variable [Fintype P] (t)

/-- How far the messages still have to go. -/
def weight (s : Load P κ α) : ℕ := ∑ p, t.depth p * (s p).length

/-- A sum after one of its terms has changed. -/
theorem sum_update {β : Type*} (g : P → β → ℕ) (f : P → β) (p : P) (b : β) :
    ∑ r, g r (Function.update f p b r) + g p (f p) = ∑ r, g r (f r) + g p b := by
  have hrest : ∑ r ∈ Finset.univ.erase p, g r (Function.update f p b r) = ∑ r ∈ Finset.univ.erase p, g r (f r) :=
    Finset.sum_congr rfl fun r hr => by rw [Function.update_of_ne (Finset.ne_of_mem_erase hr)]
  have hold := Finset.add_sum_erase Finset.univ (fun r => g r (f r)) (Finset.mem_univ p)
  have hnew := Finset.add_sum_erase Finset.univ (fun r => g r (Function.update f p b r)) (Finset.mem_univ p)
  simp only [Function.update_self] at hnew
  rw [← hnew, ← hold, hrest]
  omega

theorem weight_update (s : Load P κ α) (p : P) (ms : List (κ × α)) :
    t.weight (Function.update s p ms) + t.depth p * (s p).length = t.weight s + t.depth p * ms.length :=
  sum_update (fun r (ms : List (κ × α)) => t.depth r * ms.length) s p ms

theorem weight_put {s : Load P κ α} {p : P} (hroom : t.HasRoom s p) (m : κ × α) :
    t.weight (t.put s p m) = t.weight s + t.depth p := by
  have hupdate := t.weight_update s p (s p ++ [m])
  rw [List.length_append, List.length_singleton, Nat.mul_succ] at hupdate
  rw [put, if_pos hroom]
  omega

variable {t}

theorem weight_move_lt {s : Load P κ α} {p : P} (h : t.move s p ≠ s) : t.weight (t.move s p) < t.weight s := by
  obtain ⟨q, m, rest, hnext, hp, -, hmove⟩ | hmove := move_cases (t := t) s p
  swap
  · exact absurd hmove h
  have htake := t.weight_update s p rest
  have hput := t.weight_update (Function.update s p rest) q (s q ++ [m])
  rw [Function.update_of_ne (ne_of_next hnext), List.length_append, List.length_singleton, Nat.mul_succ] at hput
  rw [hp, List.length_cons, Nat.mul_succ] at htake
  have hlt := t.depth_lt hnext
  rw [hmove]
  omega

end weight

end QueueTree
