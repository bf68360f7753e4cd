import Mathlib.Logic.Relation
import Mathlib.Logic.Function.Basic

/-! # Two parties agree on a pairing

Two parties, named by `Bool`, each store at most one key.  A party that has made a key offers it to
the other one, which may accept the offer with a key of its own; each stores its key some time
later.  `Ends x t t'` says that `x` made `t` and the other party answered it by `t'`.

The parties can only pair up one key at a time: `Step.offer` asks that no offer is open, that
nobody is about to store a key, and that the other party has none stored.  Everything else may
happen at any time: an offer can be accepted again or be withdrawn, and a stored key can be
dropped.

* `State.latest` is the key of a party, stored or about to be stored.
* `Agreed` is the invariant, `Step.agreed` its preservation, and `agreed_of_reachable` the result:
  in every reachable state the latest keys of the two parties answer each other. -/

namespace Agreement

open Function (update)
open Relation (ReflTransGen)

variable {T : Type*} (Ends : Bool → T → T → Prop)

structure State (T : Type*) where
  stored : Bool → Option T
  /-- made or accepted, and stored next -/
  storing : Bool → Option T
  /-- the open offer: who made it and the key it was made with -/
  offer : Option (Bool × T)

namespace State

variable (s : State T)

/-- Neither party has anything. -/
def empty : State T := ⟨fun _ => none, fun _ => none, none⟩

def latest (x : Bool) : Option T := (s.storing x).or (s.stored x)

/-- The party `x` may make an offer. -/
structure Free (x : Bool) : Prop where
  offer : s.offer = none
  storing : ∀ y, s.storing y = none
  stored : s.stored (!x) = none

end State

inductive Step : State T → State T → Prop
  | offer (s : State T) (x : Bool) (t : T) (hfree : s.Free x) :
      Step s { s with storing := update s.storing x (some t), offer := some (x, t) }
  | accept (s : State T) (x : Bool) (t t' : T) (hoffer : s.offer = some (x, t)) (hends : Ends x t t')
      (hidle : s.storing (!x) = none) : Step s { s with storing := update s.storing (!x) (some t') }
  | store (s : State T) (x : Bool) (t : T) (hstoring : s.storing x = some t) :
      Step s { s with stored := update s.stored x (some t), storing := update s.storing x none }
  | drop (s : State T) (x : Bool) : Step s { s with stored := update s.stored x none }
  | withdraw (s : State T) : Step s { s with offer := none }

/-- An open offer is its maker's latest key, if it has one, and the other's latest key answers it;
the latest keys of the two answer each other. -/
structure Agreed (s : State T) : Prop where
  maker : ∀ x t u, s.offer = some (x, t) → s.latest x = some u → u = t
  answer : ∀ x t u, s.offer = some (x, t) → s.latest (!x) = some u → Ends x t u
  paired : ∀ x t u, s.latest x = some t → s.latest (!x) = some u → Ends x t u ∨ Ends (!x) u t

variable {Ends} {s s' : State T}

theorem agreed_empty : Agreed Ends (State.empty : State T) where
  maker := by
    intro x t u h
    cases h
  answer := by
    intro x t u h
    cases h
  paired := by
    intro x t u h
    cases h

/-- Nobody's latest key has changed, and if there is an offer it is the old one. -/
theorem Agreed.of_latest (h : Agreed Ends s) (ho : ∀ p, s'.offer = some p → s.offer = some p)
    (hl : ∀ x u, s'.latest x = some u → s.latest x = some u) : Agreed Ends s' where
  maker := fun x t u hx hu => h.maker x t u (ho _ hx) (hl _ _ hu)
  answer := fun x t u hx hu => h.answer x t u (ho _ hx) (hl _ _ hu)
  paired := fun x t u ht hu => h.paired x t u (hl _ _ ht) (hl _ _ hu)

/-- What a step preserves. -/
theorem Step.agreed (hstep : Step Ends s s') (h : Agreed Ends s) : Agreed Ends s' := by
  cases hstep with
  | offer x t hfree =>
      have hother : (update s.storing x (some t) (!x)).or (s.stored (!x)) = none := by
        rw [Function.update_of_ne (by cases x <;> decide), hfree.storing, hfree.stored]
        rfl
      refine ⟨?_, ?_, ?_⟩
      · rintro x' t' u hx hu
        cases hx
        simp only [State.latest, Function.update_self, Option.some_or] at hu
        exact (Option.some.inj hu).symm
      · rintro x' t' u hx hu
        cases hx
        cases hother.symm.trans hu
      · rintro y t' u ht hu
        -- one of the two parties is the one that has no key
        by_cases hy : y = x
        · subst hy
          cases hother.symm.trans hu
        · obtain rfl : y = !x := by cases x <;> cases y <;> simp_all
          cases hother.symm.trans ht
  | accept x t t' hoffer hends hidle =>
      have hself : (update s.storing (!x) (some t') (!x)).or (s.stored (!x)) = some t' := by
        rw [Function.update_self, Option.some_or]
      have hmaker : (update s.storing (!x) (some t') x).or (s.stored x) = s.latest x := by
        rw [Function.update_of_ne (by cases x <;> decide)]
        rfl
      refine ⟨?_, ?_, ?_⟩
      · rintro x' t₀ u hx hu
        obtain ⟨rfl, rfl⟩ := Prod.mk.inj (Option.some.inj (hoffer.symm.trans hx))
        exact h.maker x t u hoffer (hmaker.symm.trans hu)
      · rintro x' t₀ u hx hu
        obtain ⟨rfl, rfl⟩ := Prod.mk.inj (Option.some.inj (hoffer.symm.trans hx))
        cases hself.symm.trans hu
        exact hends
      · rintro y t₀ u ht hu
        by_cases hy : y = x
        · subst hy
          cases hself.symm.trans hu
          rw [h.maker y t t₀ hoffer (hmaker.symm.trans ht)]
          exact .inl hends
        · obtain rfl : y = !x := by cases x <;> cases y <;> simp_all
          cases hself.symm.trans ht
          rw [Bool.not_not] at hu ⊢
          rw [h.maker x t u hoffer (hmaker.symm.trans hu)]
          exact .inr hends
  | store x t hstoring =>
      refine h.of_latest (fun _ hp => hp) fun y u hu => ?_
      by_cases hy : y = x
      · subst hy
        simpa only [State.latest, Function.update_self, Option.none_or, hstoring, Option.some_or] using hu
      · simpa only [State.latest, Function.update_of_ne hy] using hu
  | drop x =>
      refine h.of_latest (fun _ hp => hp) fun y u hu => ?_
      by_cases hy : y = x
      · subst hy
        simp only [State.latest, Function.update_self, Option.or_none] at hu
        rw [State.latest, hu, Option.some_or]
      · simpa only [State.latest, Function.update_of_ne hy] using hu
  | withdraw =>
      refine h.of_latest (fun p hp => ?_) fun _ _ hu => hu
      cases hp

/-- What a run preserves. -/
theorem agreed_of_reachable (h : ReflTransGen (Step Ends) .empty s) : Agreed Ends s := by
  induction h with
  | refl => exact agreed_empty
  | tail _ hstep ih => exact hstep.agreed ih

end Agreement
