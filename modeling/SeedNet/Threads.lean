import SeedNet.Run
import Mathlib.Data.List.AList

/-! # Tasks that run beside each other

A `Thread` is what a task still does to a state `σ` that it shares with other tasks: it reads the state and goes on
with what it finds there, or it performs an operation of `ω`.  An operation may take several stages: `perform w s`
is the state after one of them, with the next stage or with the result.  Other tasks run between any two steps.

A `Pool` is a shared state with the tasks that run on it, and `Pool.run` one step of one of them.  What a step does
to the state is the operation that the task performs next (`shared_run`), so an invariant of the state is proved for
each operation.  `Pool.Each` carries what the operations of a thread have in common when they begin, and
`nextOp_run` says where the operation of a task comes from: it begins, or it is the next stage of another.

`Thread.Ends` is the run of a thread that nothing interrupts, and `Thread.Leads` what such runs come to, with a rule for
each constructor; `Pool.exec_start_of_ends` is such a run in a pool. -/

namespace Threads

variable {σ ω ρ : Type}

inductive Thread (σ ω ρ : Type) where
  | done
  | read (k : σ → Thread σ ω ρ)
  | op (w : ω) (k : ρ → Thread σ ω ρ)

/-- One stage of an operation: the state after it, and the next stage or the result. -/
abbrev Perform (σ ω ρ : Type) := ω → σ → σ × (ω ⊕ ρ)

namespace Thread

/-- The operation that the thread performs next. -/
def nextOp : Thread σ ω ρ → Option ω
  | .op w _ => some w
  | .done | .read _ => none

/-- The operation goes on, or the thread with its result. -/
def resume (k : ρ → Thread σ ω ρ) : ω ⊕ ρ → Thread σ ω ρ
  | .inl w => .op w k
  | .inr r => k r

/-- All operations of the thread are of `P`, whatever it reads and whatever results it gets. -/
def Uses (P : ω → Prop) : Thread σ ω ρ → Prop
  | .done => True
  | .read k => ∀ s, (k s).Uses P
  | .op w k => P w ∧ ∀ r, (k r).Uses P

/-- All operations that the thread begins are of `P`; the next one may be under way. -/
def Continues (P : ω → Prop) : Thread σ ω ρ → Prop
  | .done => True
  | .read k => ∀ s, (k s).Uses P
  | .op _ k => ∀ r, (k r).Uses P

variable (perform : Perform σ ω ρ)

def step (s : σ) : Thread σ ω ρ → σ × Thread σ ω ρ
  | .done => (s, .done)
  | .read k => (s, k s)
  | .op w k => ((perform w s).1, resume k (perform w s).2)

/-- From `s` the thread ends in `s'`, if nothing interrupts it. -/
inductive Ends : Thread σ ω ρ → σ → σ → Prop
  | done (s : σ) : Ends .done s s
  | read {k : σ → Thread σ ω ρ} {s s' : σ} (h : Ends (k s) s s') : Ends (.read k) s s'
  | op {w : ω} {k : ρ → Thread σ ω ρ} {s s' : σ} (h : Ends (resume k (perform w s).2) (perform w s).1 s') :
      Ends (.op w k) s s'

/-- Without interruption, an operation or what a stage has left of it comes from `s` to the result `r` in `s'`. -/
inductive Returns : ω ⊕ ρ → σ → ρ → σ → Prop
  | result (r : ρ) (s : σ) : Returns (.inr r) s r s
  | stage {w : ω} {s s' : σ} {r : ρ} (h : Returns (perform w s).2 (perform w s).1 r s') : Returns (.inl w) s r s'

/-- From every state of `P` the thread ends in one of `Q`, if nothing interrupts it. -/
def Leads (P : σ → Prop) (t : Thread σ ω ρ) (Q : σ → Prop) : Prop := ∀ s, P s → ∃ s', t.Ends perform s s' ∧ Q s'

variable {perform} {P : ω → Prop} {t : Thread σ ω ρ}

theorem step_state (s : σ) : (t.step perform s).1 = t.nextOp.elim s fun w => (perform w s).1 := by
  cases t <;> rfl

theorem Uses.done : (Thread.done : Thread σ ω ρ).Uses P := trivial

theorem Uses.read {k : σ → Thread σ ω ρ} (h : ∀ s, (k s).Uses P) : (Thread.read k).Uses P := h

theorem Uses.op {w : ω} {k : ρ → Thread σ ω ρ} (hw : P w) (h : ∀ r, (k r).Uses P) : (Thread.op w k).Uses P := ⟨hw, h⟩

theorem Uses.of_nextOp (h : t.Uses P) {w : ω} (hw : t.nextOp = some w) : P w := by
  cases t with
  | op w' k =>
      cases hw
      exact h.1
  | done | read => cases hw

theorem Uses.continues (h : t.Uses P) : t.Continues P := by
  cases t with
  | done => trivial
  | read k => exact h
  | op w k => exact h.2

theorem Continues.step (h : t.Continues P) (s : σ) : (t.step perform s).2.Continues P := by
  cases t with
  | done => trivial
  | read k => exact (h s).continues
  | op w k =>
      show (resume k (perform w s).2).Continues P
      cases (perform w s).2 with
      | inl w' => exact h
      | inr r => exact (h r).continues

/-- The next operation begins, or it is the next stage of the one that has just been performed. -/
theorem nextOp_step (h : t.Continues P) {s : σ} {w : ω} (hw : (t.step perform s).2.nextOp = some w) :
    P w ∨ ∃ w₀, t.nextOp = some w₀ ∧ (perform w₀ s).2 = .inl w := by
  cases t with
  | done => cases hw
  | read k => exact .inl ((h s).of_nextOp hw)
  | op w₀ k =>
      have hw' : (resume k (perform w₀ s).2).nextOp = some w := hw
      cases hr : (perform w₀ s).2 with
      | inl w' =>
          rw [hr] at hw'
          cases hw'
          exact .inr ⟨w₀, rfl, hr⟩
      | inr r =>
          rw [hr] at hw'
          exact .inl ((h r).of_nextOp hw')

/-! The rules for a thread that runs without interruption. -/

section alone

variable {R : ρ → σ → Prop} {A A' B : σ → Prop} {w : ω} {k : ρ → Thread σ ω ρ}

theorem Returns.ends {x : ω ⊕ ρ} {s s₁ s' : σ} {r : ρ} (h : Returns perform x s r s₁)
    (hk : (k r).Ends perform s₁ s') : (resume k x).Ends perform s s' := by
  induction h with
  | result r s => exact hk
  | stage h ih => exact .op (ih hk)

theorem Leads.of_imp (h : t.Leads perform A' B) (hA : ∀ s, A s → A' s) : t.Leads perform A B :=
  fun s hs => h s (hA s hs)

theorem Leads.done (h : ∀ s, A s → B s) : (Thread.done : Thread σ ω ρ).Leads perform A B :=
  fun s hs => ⟨s, .done s, h s hs⟩

theorem Leads.read {k : σ → Thread σ ω ρ} (h : ∀ s, A s → (k s).Leads perform A B) :
    (Thread.read k).Leads perform A B := by
  intro s hs
  obtain ⟨s', hends, hB⟩ := h s hs s hs
  exact ⟨s', .read hends, hB⟩

theorem Leads.op (h : ∀ s, A s → ∃ r s', Returns perform (.inl w) s r s' ∧ R r s')
    (hk : ∀ r, (k r).Leads perform (R r) B) : (Thread.op w k).Leads perform A B := by
  intro s hs
  obtain ⟨r, s₁, hreturns, hR⟩ := h s hs
  obtain ⟨s', hends, hB⟩ := hk r s₁ hR
  exact ⟨s', hreturns.ends (k := k) hends, hB⟩

end alone

end Thread

/-! ### Pools -/

/-- A shared state, and the tasks that run on it. -/
structure Pool (τ σ ω ρ : Type) where
  shared : σ
  tasks : AList fun _ : τ => Thread σ ω ρ := ∅

namespace Pool

variable {τ : Type} [DecidableEq τ] (p : Pool τ σ ω ρ)

/-- A task begins, unless it is under way. -/
def start (t : τ) (th : Thread σ ω ρ) : Pool τ σ ω ρ :=
  if t ∈ p.tasks then p else { p with tasks := p.tasks.insert t th }

/-- The operation that a task performs next. -/
def nextOp (t : τ) : Option ω := (p.tasks.lookup t).bind Thread.nextOp

/-- The task goes on with `th`, or has ended. -/
def proceed (t : τ) : Thread σ ω ρ → Pool τ σ ω ρ
  | .done => { p with tasks := p.tasks.erase t }
  | th => { p with tasks := p.tasks.insert t th }

/-- All operations that a task begins are of `P`. -/
def Each (P : τ → ω → Prop) : Prop := ∀ t th, p.tasks.lookup t = some th → th.Continues (P t)

/-- One step of a task. -/
def run (perform : Perform σ ω ρ) (p : Pool τ σ ω ρ) (t : τ) : Pool τ σ ω ρ :=
  match p.tasks.lookup t with
  | none => p
  | some th => { p with shared := (th.step perform p.shared).1 }.proceed t (th.step perform p.shared).2

variable {p} {perform : Perform σ ω ρ} {P : τ → ω → Prop} {t t' : τ} {th : Thread σ ω ρ}

@[simp] theorem shared_start : (p.start t th).shared = p.shared := by
  unfold start
  split <;> rfl

@[simp] theorem shared_proceed : (p.proceed t th).shared = p.shared := by
  cases th <;> rfl

theorem lookup_proceed : (p.proceed t th).tasks.lookup t' =
    if t' = t then (match th with | .done => none | th => some th) else p.tasks.lookup t' := by
  have hinsert (th : Thread σ ω ρ) :
      (p.tasks.insert t th).lookup t' = if t' = t then some th else p.tasks.lookup t' := by
    split
    · next h => rw [h, AList.lookup_insert]
    · next h => exact AList.lookup_insert_ne h
  cases th with
  | done =>
      show (p.tasks.erase t).lookup t' = _
      split
      · next h => rw [h, AList.lookup_erase]
      · next h => exact AList.lookup_erase_ne h
  | read k => exact hinsert _
  | op w k => exact hinsert _

/-- A task that is under way is not started again. -/
theorem lookup_start : (p.start t th).tasks.lookup t' =
    if t' = t ∧ t ∉ p.tasks then some th else p.tasks.lookup t' := by
  unfold start
  split
  · next hmem => rw [if_neg fun h => h.2 hmem]
  · next hnot =>
      by_cases ht : t' = t
      · rw [if_pos ⟨ht, hnot⟩, ht]
        exact AList.lookup_insert _
      · rw [if_neg fun h => ht h.1]
        exact AList.lookup_insert_ne ht

theorem lookup_start_of_some {th' : Thread σ ω ρ} (h : p.tasks.lookup t' = some th') :
    (p.start t th).tasks.lookup t' = some th' := by
  rw [lookup_start, if_neg, h]
  rintro ⟨rfl, hnot⟩
  rw [AList.lookup_eq_none.mpr hnot] at h
  cases h

/-- All that a step does to the state is the operation of its task. -/
theorem shared_run : (p.run perform t).shared = (p.nextOp t).elim p.shared fun w => (perform w p.shared).1 := by
  unfold run nextOp
  cases p.tasks.lookup t with
  | none => rfl
  | some th => exact shared_proceed.trans (Thread.step_state p.shared)

theorem nextOp_run_of_ne (h : t' ≠ t) : (p.run perform t).nextOp t' = p.nextOp t' := by
  unfold run nextOp
  cases p.tasks.lookup t with
  | none => rfl
  | some th =>
      dsimp only
      rw [lookup_proceed, if_neg h]

/-- The task is at the next stage of its operation. -/
theorem nextOp_run_of_stage {w w' : ω} (h : p.nextOp t = some w) (hw : (perform w p.shared).2 = .inl w') :
    (p.run perform t).nextOp t = some w' := by
  unfold run
  unfold nextOp at h ⊢
  cases hth : p.tasks.lookup t with
  | none => rw [hth] at h; cases h
  | some th =>
      rw [hth] at h
      cases th with
      | done | read => cases h
      | op v k =>
          cases h
          dsimp only
          rw [lookup_proceed, if_pos rfl, Thread.step]
          dsimp only
          rw [hw]
          rfl

theorem nextOp_start_of_some {w : ω} (h : p.nextOp t' = some w) : (p.start t th).nextOp t' = some w := by
  obtain ⟨th', hth, hw⟩ := Option.bind_eq_some_iff.mp h
  rw [nextOp, lookup_start_of_some hth]
  exact hw

theorem Each.start (h : p.Each P) (hth : th.Uses (P t)) : (p.start t th).Each P := by
  intro t' th' hl
  rw [lookup_start] at hl
  split at hl
  · next ht =>
      cases hl
      rw [ht.1]
      exact hth.continues
  · exact h t' th' hl

theorem Each.run (h : p.Each P) (t : τ) : (p.run perform t).Each P := by
  unfold Pool.run
  cases hl : p.tasks.lookup t with
  | none => exact h
  | some th =>
      intro t' th' hl'
      dsimp only at hl'
      rw [lookup_proceed] at hl'
      split at hl'
      · next ht =>
          have hcont : (th.step perform p.shared).2.Continues (P t) := (h t th hl).step p.shared
          rw [ht]
          generalize (th.step perform p.shared).2 = next at hl' hcont
          cases next with
          | done => cases hl'
          | read | op =>
              cases hl'
              exact hcont
      · exact h t' th' hl'

/-- The operation of a task that makes a step begins, or is the next stage of the one it has just performed. -/
theorem Each.nextOp_run (h : p.Each P) {w : ω} (hw : (p.run perform t).nextOp t = some w) :
    P t w ∨ ∃ w₀, p.nextOp t = some w₀ ∧ (perform w₀ p.shared).2 = .inl w := by
  unfold Pool.run nextOp at hw
  unfold nextOp
  cases hl : p.tasks.lookup t with
  | none =>
      rw [hl] at hw
      simp only [hl] at hw
      cases hw
  | some th =>
      rw [hl] at hw
      dsimp only at hw
      rw [lookup_proceed, if_pos rfl] at hw
      refine Thread.nextOp_step (h t th hl) ?_
      generalize (th.step perform p.shared).2 = next at hw ⊢
      cases next with
      | done => cases hw
      | read | op => exact hw

theorem nextOp_start (hth : th.Uses (P t)) {w : ω} (hw : (p.start t th).nextOp t' = some w) :
    P t' w ∨ p.nextOp t' = some w := by
  unfold nextOp at hw ⊢
  rw [lookup_start] at hw
  split at hw
  · next ht =>
      rw [ht.1]
      exact .inl (hth.of_nextOp hw)
  · exact .inr hw

/-! ### Without interruption -/

/-- The task `t` has ended in the state `s`, and all other tasks are as they were. -/
structure Ended (p q : Pool τ σ ω ρ) (t : τ) (s : σ) : Prop where
  shared : q.shared = s
  lookup : ∀ t', q.tasks.lookup t' = if t' = t then none else p.tasks.lookup t'

theorem exec_proceed_of_ends {s s' : σ} (h : th.Ends perform s s') :
    ∀ {p : Pool τ σ ω ρ}, p.shared = s →
      ∃ n, Ended p (Run.exec (run perform) (p.proceed t th) (List.replicate n t)) t s' := by
  -- a step of a thread that is not done leads to the thread that follows
  have hstep {p : Pool τ σ ω ρ} {th next : Thread σ ω ρ} {s s₁ s' : σ} (hth : p.proceed t th =
      { p with tasks := p.tasks.insert t th }) (hs : p.shared = s) (hnext : th.step perform s = (s₁, next))
      (ih : ∀ {p : Pool τ σ ω ρ}, p.shared = s₁ →
        ∃ n, Ended p (Run.exec (run perform) (p.proceed t next) (List.replicate n t)) t s') :
      ∃ n, Ended p (Run.exec (run perform) (p.proceed t th) (List.replicate n t)) t s' := by
    obtain ⟨n, hshared, hlookup⟩ := ih (p := { shared := s₁, tasks := p.tasks.insert t th }) rfl
    refine ⟨n + 1, ?_⟩
    have hrun : run perform (p.proceed t th) t =
        proceed { shared := s₁, tasks := p.tasks.insert t th } t next := by
      rw [hth, run]
      dsimp only
      rw [AList.lookup_insert]
      dsimp only
      rw [hs, hnext]
    rw [List.replicate_succ, Run.exec_cons, hrun]
    refine ⟨hshared, fun t' => (hlookup t').trans ?_⟩
    split
    · rfl
    · next ht => exact AList.lookup_insert_ne ht
  induction h with
  | done s =>
      intro p hs
      refine ⟨0, hs, fun t' => ?_⟩
      rw [List.replicate_zero, Run.exec_nil, lookup_proceed]
  | read h ih => exact fun hs => hstep rfl hs rfl ih
  | op h ih => exact fun hs => hstep rfl hs rfl ih

/-- A task that begins and runs alone comes to the end of its thread. -/
theorem exec_start_of_ends {s s' : σ} (h : th.Ends perform s s') (hs : p.shared = s) (ht : t ∉ p.tasks) :
    ∃ n, Ended p (Run.exec (run perform) (p.start t th) (List.replicate n t)) t s' := by
  cases hth : th with
  | done =>
      rw [hth] at h
      cases h
      refine ⟨1, ?_, fun t' => ?_⟩
      all_goals
        rw [List.replicate_one, Run.exec_cons, Run.exec_nil, start, if_neg ht, run]
        dsimp only
        rw [AList.lookup_insert]
      · exact hs
      · refine lookup_proceed.trans ?_
        split
        · rfl
        · next hne => exact AList.lookup_insert_ne hne
  | read | op =>
      have hproceed : p.start t th = p.proceed t th := by
        rw [start, if_neg ht, hth]
        rfl
      rw [← hth, hproceed]
      exact exec_proceed_of_ends h hs

end Pool

end Threads
