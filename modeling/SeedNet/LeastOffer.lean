import Mathlib.Data.List.Induction
import Mathlib.Data.List.Perm.Basic
import Mathlib.Order.Lattice

/-! # The least of many offers

A table entry with a value, which a strictly smaller offer replaces and nothing else.  `Least old offers new` says
what is in the entry after some offers: a smallest one of `old` and the offers, and `old` itself if no offer is
smaller.  It does not depend on the order of the offers, so the value does not (`Least.value_eq`); which of several
equal offers is kept does. -/

namespace LeastOffer

variable {R H : Type*} [LinearOrder H]

/-- The entry after an offer. -/
def improve (old : Option (R × H)) (offer : R × H) : Option (R × H) :=
  match old with
  | none => some offer
  | some entry => if offer.2 < entry.2 then some offer else some entry

structure Least (old : Option (R × H)) (offers : List (R × H)) (new : Option (R × H)) : Prop where
  none_iff : new = none ↔ old = none ∧ offers = []
  le_old : ∀ entry ∈ new, ∀ o ∈ old, entry.2 ≤ o.2
  le_offers : ∀ entry ∈ new, ∀ offer ∈ offers, entry.2 ≤ offer.2
  kept : ∀ entry ∈ new, ∀ o ∈ old, o.2 = entry.2 → entry = o
  attained : ∀ entry ∈ new, (∀ o ∈ old, o.2 ≠ entry.2) → entry ∈ offers

variable {old new new' : Option (R × H)} {offers offers' : List (R × H)}

theorem Least.refl (old : Option (R × H)) : Least old [] old where
  none_iff := by simp
  le_old entry he o ho := by rw [Option.mem_unique he ho]
  le_offers entry he offer hmem := absurd hmem List.not_mem_nil
  kept entry he o ho _ := Option.mem_unique he ho
  attained entry he hne := absurd rfl (hne entry he)

/-- One more offer. -/
theorem Least.step (h : Least old offers new) (offer : R × H) : Least old (offers ++ [offer]) (improve new offer) := by
  cases new with
  | none =>
      obtain ⟨rfl, rfl⟩ := h.none_iff.mp rfl
      constructor <;> simp [improve]
  | some entry =>
      have hnone : ¬ (old = none ∧ offers = []) := fun hn => Option.some_ne_none entry (h.none_iff.mpr hn)
      by_cases hlt : offer.2 < entry.2
      · rw [improve, if_pos hlt]
        constructor
        case none_iff => simp
        case le_old =>
          intro e he o ho
          cases he
          exact hlt.le.trans (h.le_old entry rfl o ho)
        case le_offers =>
          intro e he o ho
          cases he
          rcases List.mem_append.mp ho with hold | hnew
          · exact hlt.le.trans (h.le_offers entry rfl o hold)
          · rw [List.mem_singleton.mp hnew]
        case kept =>
          intro e he o ho heq
          cases he
          exact absurd heq (hlt.trans_le (h.le_old entry rfl o ho)).ne'
        case attained =>
          intro e he _
          cases he
          exact List.mem_append_right _ (List.mem_singleton_self _)
      · rw [improve, if_neg hlt]
        constructor
        case none_iff => simp
        case le_old => exact h.le_old
        case le_offers =>
          intro e he o ho
          cases he
          rcases List.mem_append.mp ho with hold | hnew
          · exact h.le_offers entry rfl o hold
          · rw [List.mem_singleton.mp hnew]
            exact not_lt.mp hlt
        case kept => exact h.kept
        case attained => exact fun e he hne => List.mem_append_left _ (h.attained e he hne)

theorem least_foldl (old : Option (R × H)) (offers : List (R × H)) : Least old offers (offers.foldl improve old) := by
  induction offers using List.reverseRecOn with
  | nil => exact .refl old
  | append_singleton offers offer ih =>
      rw [List.foldl_append]
      exact ih.step offer

theorem Least.perm (h : Least old offers new) (hperm : offers.Perm offers') : Least old offers' new where
  none_iff := by
    rw [h.none_iff]
    constructor
    · rintro ⟨hold, rfl⟩
      exact ⟨hold, List.nil_perm.mp hperm⟩
    · rintro ⟨hold, rfl⟩
      exact ⟨hold, List.perm_nil.mp hperm⟩
  le_old := h.le_old
  le_offers entry he offer hmem := h.le_offers entry he offer (hperm.mem_iff.mpr hmem)
  kept := h.kept
  attained entry he hne := hperm.mem_iff.mp (h.attained entry he hne)

/-- No entry is above another one. -/
theorem Least.le (h : Least old offers new) (h' : Least old offers new') {entry entry' : R × H} (he : entry ∈ new)
    (he' : entry' ∈ new') : entry.2 ≤ entry'.2 := by
  by_cases hold : ∃ o ∈ old, o.2 = entry'.2
  · obtain ⟨o, ho, heq⟩ := hold
    rw [← heq]
    exact h.le_old entry he o ho
  · refine h.le_offers entry he entry' (h'.attained entry' he' fun o ho heq => hold ⟨o, ho, heq⟩)

/-- The value is determined. -/
theorem Least.value_eq (h : Least old offers new) (h' : Least old offers new') :
    new.map Prod.snd = new'.map Prod.snd := by
  cases new with
  | none => rw [h'.none_iff.mpr (h.none_iff.mp rfl)]
  | some entry =>
      cases new' with
      | none => cases h.none_iff.mpr (h'.none_iff.mp rfl)
      | some entry' => exact congrArg some (le_antisymm (h.le h' rfl rfl) (h'.le h rfl rfl))

end LeastOffer
