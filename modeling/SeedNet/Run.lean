import Mathlib.Data.List.Basic
import Mathlib.Data.Fintype.EquivFin
import Mathlib.Logic.Relation
import Mathlib.Order.WellFounded

/-! # Runs of a transition system

A system is a total function `next : σ → α → σ`; an action that is not enabled leaves the
state as it is.  `exec next s as` is the state after the actions `as`, and
`Along next ok s as` says that every action of the run meets `ok` in the state before it.
`Along.invariant` is the induction principle every safety result goes through: what holds at
the start and survives one permitted step holds after every permitted run.  Where a step keeps the
invariant exactly if it is permitted, `along_iff_invariant` turns that into the exact condition on runs.

`trace next observe s as` is what is observed along a run, and `watch` the system that keeps it; properties that
speak of what happened earlier are invariants of that system (`along_iff_trace_invariant`).

For systems given by a relation, `Infinite step s` says that some run from `s` never ends.
`not_infinite_of_acc` refutes it by well-foundedness, `not_infinite_of_measure` by a measure, and
`infinite_of_progress` proves it from a
property that some step always keeps.  On a finite type a state is accessible exactly if no
state that it reaches lies on a cycle (`acc_iff_no_cycle`). -/

namespace Run

variable {σ α : Type*}

section exec

variable (next : σ → α → σ)

/-- The state after a run. -/
def exec (s : σ) (as : List α) : σ := as.foldl next s

/-- Every action of the run meets `ok` in the state before it. -/
def Along (ok : σ → α → Prop) : σ → List α → Prop
  | _, [] => True
  | s, a :: as => ok s a ∧ Along ok (next s a) as

instance decidableAlong (ok : σ → α → Prop) [∀ s a, Decidable (ok s a)] :
    ∀ s as, Decidable (Along next ok s as)
  | _, [] => inferInstanceAs (Decidable True)
  | s, a :: as =>
      haveI := decidableAlong ok (next s a) as
      inferInstanceAs (Decidable (ok s a ∧ Along next ok (next s a) as))

@[simp] theorem exec_nil (s : σ) : exec next s [] = s := rfl

@[simp] theorem exec_cons (s : σ) (a : α) (as : List α) :
    exec next s (a :: as) = exec next (next s a) as := rfl

theorem exec_append (s : σ) (as bs : List α) : exec next s (as ++ bs) = exec next (exec next s as) bs :=
  List.foldl_append

variable {next} {ok : σ → α → Prop}

theorem along_append {s : σ} (as bs : List α) :
    Along next ok s (as ++ bs) ↔ Along next ok s as ∧ Along next ok (exec next s as) bs := by
  induction as generalizing s with
  | nil => exact (iff_of_eq (true_and _)).symm
  | cons a as ih => exact (and_congr_right fun _ => ih).trans and_assoc.symm

/-- What one permitted step preserves, every permitted run preserves. -/
theorem Along.invariant {I : σ → Prop} (hstep : ∀ s a, I s → ok s a → I (next s a))
    {s : σ} {as : List α} (h : Along next ok s as) (hI : I s) : I (exec next s as) := by
  induction as generalizing s with
  | nil => exact hI
  | cons a as ih => exact ih h.2 (hstep s a hI h.1)

/-- What every step preserves, every run preserves. -/
theorem exec_invariant {I : σ → Prop} (hstep : ∀ s a, I s → I (next s a)) {s : σ} (hI : I s) (as : List α) :
    I (exec next s as) :=
  List.foldlRecOn as next hI fun s hs a _ => hstep s a hs

/-- Under an invariant `J` of the allowed steps, a step keeps `I` exactly if it is permitted: then the
permitted runs of allowed steps are those that never leave `I`. -/
theorem along_iff_invariant_of_along {I J : σ → Prop} {allowed : σ → α → Prop}
    (hJ : ∀ s a, J s → allowed s a → J (next s a)) (hstep : ∀ s a, J s → I s → allowed s a → (ok s a ↔ I (next s a)))
    {s : σ} (hs : J s) (hI : I s) {as : List α} (has : Along next allowed s as) :
    Along next ok s as ↔ ∀ bs, bs <+: as → I (exec next s bs) := by
  induction as generalizing s with
  | nil =>
      refine ⟨fun _ bs hbs => ?_, fun _ => trivial⟩
      rw [List.prefix_nil.mp hbs]
      exact hI
  | cons a as ih =>
      obtain ⟨ha, has'⟩ := has
      constructor
      · rintro ⟨hok, hrest⟩ bs hbs
        have hnext : I (next s a) := (hstep s a hs hI ha).mp hok
        rcases List.prefix_cons_iff.mp hbs with rfl | ⟨cs, rfl, hcs⟩
        · exact hI
        · exact (ih (hJ s a hs ha) hnext has').mp hrest cs hcs
      · intro h
        have hnext : I (next s a) := h [a] ((List.prefix_cons_inj a).mpr List.nil_prefix)
        refine ⟨(hstep s a hs hI ha).mpr hnext, (ih (hJ s a hs ha) hnext has').mpr fun bs hbs => ?_⟩
        exact h (a :: bs) ((List.prefix_cons_inj a).mpr hbs)

theorem along_of_forall {allowed : α → Prop} (s : σ) {as : List α} (h : ∀ a ∈ as, allowed a) :
    Along next (fun _ a => allowed a) s as := by
  induction as generalizing s with
  | nil => trivial
  | cons a as ih => exact ⟨h a List.mem_cons_self, ih (next s a) fun b hb => h b (List.mem_cons_of_mem a hb)⟩

/-- `along_iff_invariant_of_along` where a step is allowed or not by its action alone. -/
theorem along_iff_invariant_of_allowed {I J : σ → Prop} {allowed : α → Prop}
    (hJ : ∀ s a, J s → allowed a → J (next s a)) (hstep : ∀ s a, J s → I s → allowed a → (ok s a ↔ I (next s a)))
    {s : σ} (hs : J s) (hI : I s) (as : List α) (has : ∀ a ∈ as, allowed a) :
    Along next ok s as ↔ ∀ bs, bs <+: as → I (exec next s bs) :=
  along_iff_invariant_of_along hJ hstep hs hI (along_of_forall s has)

/-- A step keeps the invariant exactly if it is permitted: then the permitted runs are those that never
leave it. -/
theorem along_iff_invariant {I : σ → Prop} (hstep : ∀ s a, I s → (ok s a ↔ I (next s a))) {s : σ} (hI : I s)
    (as : List α) : Along next ok s as ↔ ∀ bs, bs <+: as → I (exec next s bs) :=
  along_iff_invariant_of_allowed (J := fun _ => True) (fun _ _ _ (_ : True) => trivial)
    (fun s a _ h _ => hstep s a h) trivial hI as fun _ _ => trivial

/-- Conditions that agree on the actions of a run agree on the run. -/
theorem along_congr {ok' : σ → α → Prop} (as : List α) (h : ∀ s, ∀ a ∈ as, (ok s a ↔ ok' s a)) (s : σ) :
    Along next ok s as ↔ Along next ok' s as := by
  induction as generalizing s with
  | nil => rfl
  | cons a as ih =>
      exact and_congr (h s a List.mem_cons_self) (ih (fun s b hb => h s b (List.mem_cons_of_mem a hb)) (next s a))

theorem Along.and {ok' : σ → α → Prop} {s : σ} {as : List α} (h : Along next ok s as) (h' : Along next ok' s as) :
    Along next (fun s a => ok s a ∧ ok' s a) s as := by
  induction as generalizing s with
  | nil => trivial
  | cons a as ih => exact ⟨⟨h.1, h'.1⟩, ih h.2 h'.2⟩

/-- A measure that every permitted step decreases bounds the permitted runs. -/
theorem Along.length_le (μ : σ → ℕ) (hstep : ∀ s a, ok s a → μ (next s a) < μ s) {s : σ} {as : List α}
    (h : Along next ok s as) : as.length ≤ μ s := by
  induction as generalizing s with
  | nil => exact Nat.zero_le _
  | cons a as ih => exact lt_of_le_of_lt (ih h.2) (hstep s a h.1)

end exec

section trace

variable {β : Type*} (next : σ → α → σ) (observe : σ → α → List β)

/-- What is observed along a run. -/
def trace : σ → List α → List β
  | _, [] => []
  | s, a :: as => observe s a ++ trace (next s a) as

theorem trace_append (s : σ) (as bs : List α) :
    trace next observe s (as ++ bs) = trace next observe s as ++ trace next observe (exec next s as) bs := by
  induction as generalizing s with
  | nil => rfl
  | cons a as ih => rw [List.cons_append, trace, ih, trace, exec_cons, List.append_assoc]

/-- The system together with what has been observed so far. -/
def watch (w : σ × List β) (a : α) : σ × List β := (next w.1 a, w.2 ++ observe w.1 a)

theorem exec_watch (s : σ) (h : List β) (as : List α) :
    exec (watch next observe) (s, h) as = (exec next s as, h ++ trace next observe s as) := by
  induction as generalizing s h with
  | nil => rw [exec_nil, exec_nil, trace, List.append_nil]
  | cons a as ih => rw [exec_cons, watch, ih, exec_cons, trace, List.append_assoc]

/-- A condition on the states of a run does not depend on what is observed. -/
theorem along_watch {ok : σ → α → Prop} (s : σ) (h : List β) (as : List α) :
    Along (watch next observe) (fun w a => ok w.1 a) (s, h) as ↔ Along next ok s as := by
  induction as generalizing s h with
  | nil => rfl
  | cons a as ih => exact and_congr_right fun _ => ih (next s a) (h ++ observe s a)

variable {next observe} {ok : σ → List β → α → Prop}

/-- `along_iff_invariant_of_allowed` for a property of the state and of what has been observed up to it. -/
theorem along_iff_trace_invariant {I J : σ → List β → Prop} {A : α → Prop}
    (hJ : ∀ s h a, J s h → A a → J (next s a) (h ++ observe s a))
    (hstep : ∀ s h a, J s h → I s h → A a → (ok s h a ↔ I (next s a) (h ++ observe s a)))
    {s : σ} (hs : J s []) (hI : I s []) (as : List α) (has : ∀ a ∈ as, A a) :
    Along (watch next observe) (fun w a => ok w.1 w.2 a) (s, []) as ↔
      ∀ bs, bs <+: as → I (exec next s bs) (trace next observe s bs) := by
  rw [along_iff_invariant_of_allowed (I := fun w : σ × List β => I w.1 w.2) (J := fun w => J w.1 w.2)
    (fun w a => hJ w.1 w.2 a) (fun w a => hstep w.1 w.2 a) hs hI as has]
  simp only [exec_watch, List.nil_append]

end trace

section Infinite

open Relation (ReflTransGen TransGen)

variable {step : σ → σ → Prop}

/-- Some run from `s` never ends. -/
def Infinite (step : σ → σ → Prop) (s : σ) : Prop := ∃ f : ℕ → σ, f 0 = s ∧ ∀ n, step (f n) (f (n + 1))

theorem not_infinite_of_acc {s : σ} (h : Acc (fun y x => step x y) s) : ¬ Infinite step s := by
  induction h with
  | intro s _ ih =>
      rintro ⟨f, rfl, hf⟩
      exact ih (f 1) (hf 0) ⟨fun n => f (n + 1), rfl, fun n => hf (n + 1)⟩

/-- A measure that every step decreases, as long as an invariant holds. -/
theorem not_infinite_of_measure (μ : σ → ℕ) (I : σ → Prop)
    (hstep : ∀ s s', I s → step s s' → I s' ∧ μ s' < μ s) {s : σ} (h : I s) : ¬ Infinite step s := by
  induction hm : μ s using Nat.strong_induction_on generalizing s with
  | _ m ih =>
      rintro ⟨f, rfl, hf⟩
      obtain ⟨hI, hlt⟩ := hstep _ _ h (hf 0)
      exact ih (μ (f 1)) (hm ▸ hlt) hI rfl ⟨fun n => f (n + 1), rfl, fun n => hf (n + 1)⟩

theorem infinite_of_progress (P : σ → Prop) (hP : ∀ s, P s → ∃ s', step s s' ∧ P s') {s : σ} (h : P s) :
    Infinite step s := by
  choose g hg using hP
  let f : ℕ → { s // P s } := fun n => n.rec ⟨s, h⟩ fun _ x => ⟨g x.1 x.2, (hg x.1 x.2).2⟩
  exact ⟨fun n => (f n).1, rfl, fun n => (hg (f n).1 (f n).2).1⟩

theorem Infinite.of_step {s s' : σ} (hs : step s s') (h : Infinite step s') : Infinite step s := by
  obtain ⟨f, rfl, hf⟩ := h
  refine ⟨fun n => Nat.casesOn n s f, rfl, fun n => ?_⟩
  cases n with
  | zero => exact hs
  | succ n => exact hf n

theorem Infinite.of_reaches {s s' : σ} (hs : ReflTransGen step s s') (h : Infinite step s') :
    Infinite step s := by
  induction hs using ReflTransGen.head_induction_on with
  | refl => exact h
  | head hstep _ ih => exact ih.of_step hstep

/-- A state that can be left but is not accessible has a successor that is not. -/
theorem exists_step_of_not_acc {s : σ} (h : ¬ Acc (fun y x => step x y) s) :
    ∃ s', step s s' ∧ ¬ Acc (fun y x => step x y) s' := by
  by_contra hc
  refine h ⟨_, fun y hy => ?_⟩
  by_contra hn
  exact hc ⟨y, hy, hn⟩

theorem acc_of_reaches {s t : σ} (h : Acc (fun y x => step x y) s) (ht : ReflTransGen step s t) :
    Acc (fun y x => step x y) t := by
  induction ht with
  | refl => exact h
  | tail _ hstep ih => exact ih.inv hstep

/-- No state reached from `s` lies on a cycle. -/
def NoCycle (step : σ → σ → Prop) (s : σ) : Prop := ∀ y, ReflTransGen step s y → ¬ TransGen step y y

theorem noCycle_of_no_step {s : σ} (h : ∀ y, ¬ step s y) : NoCycle step s := by
  intro y hy hcycle
  have hz : ∃ z, step s z := by
    rcases ReflTransGen.cases_head hy with rfl | ⟨z, hz, -⟩
    · obtain ⟨z, hz, -⟩ := TransGen.head'_iff.mp hcycle
      exact ⟨z, hz⟩
    · exact ⟨z, hz⟩
  obtain ⟨z, hz⟩ := hz
  exact h z hz

theorem not_transGen_self_of_acc {s : σ} (h : Acc (fun y x => step x y) s) : ¬ TransGen step s s := by
  intro hcycle
  have hacc : Acc (TransGen fun y x => step x y) s := h.transGen
  have hself : TransGen (fun y x => step x y) s s := Relation.transGen_swap.mpr hcycle
  clear hcycle h
  induction hacc with
  | intro s _ ih => exact ih s hself hself

theorem acc_iff_no_cycle [Finite σ] {s : σ} : Acc (fun y x => step x y) s ↔ NoCycle step s := by
  constructor
  · exact fun h y hy => not_transGen_self_of_acc (acc_of_reaches h hy)
  · intro h
    -- on what `s` reaches, being reached is transitive and irreflexive
    let r : { y // ReflTransGen step s y } → { y // ReflTransGen step s y } → Prop :=
      fun b a => TransGen step a.1 b.1
    have htrans : IsTrans _ r := ⟨fun _ _ _ h1 h2 => h2.trans h1⟩
    have hirrefl : Std.Irrefl r := ⟨fun a ha => h a.1 a.2 ha⟩
    have hwf : WellFounded r := Finite.wellFounded_of_trans_of_irrefl r
    have key : ∀ a : { y // ReflTransGen step s y }, Acc (fun y x => step x y) a.1 := by
      intro a
      induction a using hwf.induction with
      | _ b ih => exact ⟨_, fun y hy => ih ⟨y, b.2.tail hy⟩ (TransGen.single hy)⟩
    exact key ⟨s, .refl⟩

end Infinite

end Run
