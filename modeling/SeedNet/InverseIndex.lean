import Mathlib.Logic.Function.Basic

/-! # A map and its inverse, updated in separate steps

`State K V` is a map `fwd` from keys to values together with an index `inv` that is meant to be its
inverse: `inv v = some k` iff `fwd k = some v`.  Writers update the two one after the other, so a
state also says which entries of `fwd` still wait for their index entry (`inserting`) and which
index entries are about to go (`erasing`).

`Consistent` is the relation up to these half-done updates.  Each of the four kinds of update keeps
it under a condition on the state before it; when nothing is half done, it says that the index is
the inverse (`Consistent.inverse`).

The last section is about maps that are always updated together: `Inverse.insert_iff` is the exact
condition under which a new pair leaves them inverse. -/

namespace InverseIndex

structure State (K V : Type*) where
  fwd : K → Option V
  inv : V → Option K
  inserting : K → V → Prop
  erasing : V → Prop

variable {K V : Type*} {s s' : State K V}

structure Consistent (s : State K V) : Prop where
  sound : ∀ {k v}, s.inv v = some k → s.fwd k = some v ∨ s.erasing v
  complete : ∀ {k v}, s.fwd k = some v → s.inv v = some k ∨ s.inserting k v

namespace Consistent

theorem empty {inserting : K → V → Prop} {erasing : V → Prop} :
    Consistent ⟨fun _ => none, fun _ => none, inserting, erasing⟩ := ⟨nofun, nofun⟩

theorem congr (h : Consistent s) (hf : s'.fwd = s.fwd) (hi : s'.inv = s.inv)
    (hins : ∀ k v, s.inserting k v → s'.inserting k v) (her : ∀ v, s.erasing v → s'.erasing v) :
    Consistent s' := by
  refine ⟨fun {k v} hk => ?_, fun {k v} hk => ?_⟩
  · rw [hi] at hk
    rw [hf]
    exact (h.sound hk).imp_right (her v)
  · rw [hf] at hk
    rw [hi]
    exact (h.complete hk).imp_right (hins k v)

/-- A key may move to `v` if the index lists it nowhere else. -/
theorem insertFwd [DecidableEq K] (h : Consistent s) {k : K} {v : V}
    (hf : s'.fwd = Function.update s.fwd k (some v)) (hi : s'.inv = s.inv)
    (hins : ∀ k' v', s.inserting k' v' ∨ (k' = k ∧ v' = v) → s'.inserting k' v')
    (her : ∀ v', s.erasing v' → s'.erasing v')
    (hk : ∀ v', s.inv v' = some k → v' = v ∨ s.erasing v') : Consistent s' := by
  refine ⟨fun {k' v'} hv' => ?_, fun {k' v'} hv' => ?_⟩
  · rw [hi] at hv'
    rw [hf]
    by_cases hkk : k' = k
    · subst hkk
      rcases hk v' hv' with rfl | he
      · exact .inl (Function.update_self ..)
      · exact .inr (her v' he)
    · rw [Function.update_of_ne hkk]
      exact (h.sound hv').imp_right (her v')
  · rw [hf] at hv'
    rw [hi]
    by_cases hkk : k' = k
    · subst hkk
      rw [Function.update_self, Option.some.injEq] at hv'
      exact .inr (hins k' v' (.inr ⟨rfl, hv'.symm⟩))
    · rw [Function.update_of_ne hkk] at hv'
      exact (h.complete hv').imp_right fun hx => hins k' v' (.inl hx)

/-- The index may list `v` under `k` if `k` is at `v` and no other key needs the entry. -/
theorem insertInv [DecidableEq V] (h : Consistent s) {k : K} {v : V}
    (hf : s'.fwd = s.fwd) (hi : s'.inv = Function.update s.inv v (some k))
    (hins : ∀ k' v', s.inserting k' v' → ¬ (k' = k ∧ v' = v) → s'.inserting k' v')
    (her : ∀ v', s.erasing v' → s'.erasing v')
    (hk : s.fwd k = some v) (hv : ∀ k', s.fwd k' = some v → k' = k ∨ s.inserting k' v) : Consistent s' := by
  refine ⟨fun {k' v'} hv' => ?_, fun {k' v'} hv' => ?_⟩
  · rw [hi] at hv'
    rw [hf]
    by_cases hvv : v' = v
    · subst hvv
      rw [Function.update_self, Option.some.injEq] at hv'
      exact .inl (hv' ▸ hk)
    · rw [Function.update_of_ne hvv] at hv'
      exact (h.sound hv').imp_right (her v')
  · rw [hf] at hv'
    rw [hi]
    by_cases hvv : v' = v
    · subst hvv
      rw [Function.update_self, Option.some.injEq]
      by_cases hkk : k' = k
      · exact .inl hkk.symm
      · exact .inr (hins k' v' ((hv k' hv').resolve_left hkk) fun hx => hkk hx.1)
    · rw [Function.update_of_ne hvv]
      exact (h.complete hv').imp_right fun hx => hins k' v' hx fun hy => hvv hy.2

/-- The index entry of `v` may go if no key at `v` relies on it. -/
theorem eraseInv [DecidableEq V] (h : Consistent s) {v : V}
    (hf : s'.fwd = s.fwd) (hi : s'.inv = Function.update s.inv v none)
    (hins : ∀ k' v', s.inserting k' v' → s'.inserting k' v')
    (her : ∀ v', s.erasing v' → v' ≠ v → s'.erasing v')
    (hv : ∀ k, s.fwd k = some v → s.inserting k v) : Consistent s' := by
  refine ⟨fun {k' v'} hv' => ?_, fun {k' v'} hv' => ?_⟩
  · rw [hi] at hv'
    rw [hf]
    by_cases hvv : v' = v
    · subst hvv
      rw [Function.update_self] at hv'
      cases hv'
    · rw [Function.update_of_ne hvv] at hv'
      exact (h.sound hv').imp_right fun hx => her v' hx hvv
  · rw [hf] at hv'
    rw [hi]
    by_cases hvv : v' = v
    · subst hvv
      exact .inr (hins k' v' (hv k' hv'))
    · rw [Function.update_of_ne hvv]
      exact (h.complete hv').imp_right (hins k' v')

/-- A key may go at any time if its index entry goes next. -/
theorem eraseFwd [DecidableEq K] (h : Consistent s) {k : K} {v : V}
    (hf : s'.fwd = Function.update s.fwd k none) (hi : s'.inv = s.inv)
    (hins : ∀ k' v', s.inserting k' v' → s'.inserting k' v')
    (her : ∀ v', s.erasing v' ∨ v' = v → s'.erasing v')
    (hk : s.fwd k = some v) : Consistent s' := by
  refine ⟨fun {k' v'} hv' => ?_, fun {k' v'} hv' => ?_⟩
  · rw [hi] at hv'
    rw [hf]
    by_cases hkk : k' = k
    · subst hkk
      rcases h.sound hv' with hx | hx
      · rw [hk, Option.some.injEq] at hx
        exact .inr (her v' (.inr hx.symm))
      · exact .inr (her v' (.inl hx))
    · rw [Function.update_of_ne hkk]
      exact (h.sound hv').imp_right fun hx => her v' (.inl hx)
  · rw [hf] at hv'
    rw [hi]
    by_cases hkk : k' = k
    · subst hkk
      rw [Function.update_self] at hv'
      cases hv'
    · rw [Function.update_of_ne hkk] at hv'
      exact (h.complete hv').imp_right (hins k' v')

/-- With nothing half done, the index is the inverse of the map. -/
theorem inverse (h : Consistent s) (hins : ∀ k v, ¬ s.inserting k v) (her : ∀ v, ¬ s.erasing v) (k : K) (v : V) :
    s.inv v = some k ↔ s.fwd k = some v :=
  ⟨fun hx => (h.sound hx).resolve_right (her v), fun hx => (h.complete hx).resolve_right (hins k v)⟩

end Consistent

/-! ### Both maps at once -/

/-- `g` is the inverse of `f`. -/
def Inverse (f : K → Option V) (g : V → Option K) : Prop := ∀ k v, g v = some k ↔ f k = some v

namespace Inverse

variable {f : K → Option V} {g : V → Option K}

theorem empty : Inverse (fun _ : K => (none : Option V)) fun _ => none := fun _ _ => by simp

/-- No two keys have the same value. -/
theorem injective (h : Inverse f g) {k k' : K} {v : V} (hk : f k = some v) (hk' : f k' = some v) : k = k' :=
  Option.some.inj (((h k v).mpr hk).symm.trans ((h k' v).mpr hk'))

/-- A new pair keeps the maps inverse exactly if neither its key nor its value is in another pair. -/
theorem insert_iff [DecidableEq K] [DecidableEq V] (h : Inverse f g) (k : K) (v : V) :
    Inverse (Function.update f k (some v)) (Function.update g v (some k)) ↔
      (∀ v', f k = some v' → v' = v) ∧ ∀ k', g v = some k' → k' = k := by
  constructor
  · intro hnew
    constructor
    · intro v' hv'
      by_contra hne
      have hlisted : Function.update g v (some k) v' = some k := by
        rw [Function.update_of_ne hne]
        exact (h k v').mpr hv'
      have hval := (hnew k v').mp hlisted
      rw [Function.update_self, Option.some.injEq] at hval
      exact hne hval.symm
    · intro k' hk'
      by_contra hne
      have hval : Function.update f k (some v) k' = some v := by
        rw [Function.update_of_ne hne]
        exact (h k' v).mp hk'
      have hlisted := (hnew k' v).mpr hval
      rw [Function.update_self, Option.some.injEq] at hlisted
      exact hne hlisted.symm
  · rintro ⟨hk, hv⟩ k' v'
    by_cases hkk : k' = k
    · subst hkk
      by_cases hvv : v' = v
      · subst hvv
        simp only [Function.update_self]
      · rw [Function.update_self, Function.update_of_ne hvv, h k' v']
        exact ⟨fun hx => absurd (hk v' hx) hvv, fun hx => absurd (Option.some.inj hx).symm hvv⟩
    · by_cases hvv : v' = v
      · subst hvv
        rw [Function.update_self, Function.update_of_ne hkk, ← h k' v']
        exact ⟨fun hx => absurd (Option.some.inj hx).symm hkk, fun hx => absurd (hv k' hx) hkk⟩
      · rw [Function.update_of_ne hkk, Function.update_of_ne hvv]
        exact h k' v'

/-- A pair may always go. -/
theorem erase [DecidableEq K] [DecidableEq V] (h : Inverse f g) {k : K} {v : V} (hk : f k = some v) :
    Inverse (Function.update f k none) (Function.update g v none) := by
  intro k' v'
  by_cases hkk : k' = k
  · subst hkk
    rw [Function.update_self]
    by_cases hvv : v' = v
    · subst hvv
      simp only [Function.update_self, reduceCtorEq]
    · rw [Function.update_of_ne hvv, h k' v', hk, Option.some.injEq]
      refine ⟨fun hx => absurd hx.symm hvv, fun hx => ?_⟩
      cases hx
  · rw [Function.update_of_ne hkk]
    by_cases hvv : v' = v
    · subst hvv
      rw [Function.update_self]
      refine ⟨fun hx => ?_, fun hx => absurd (h.injective hx hk) hkk⟩
      cases hx
    · rw [Function.update_of_ne hvv]
      exact h k' v'

end Inverse

end InverseIndex
