import Mathlib.Data.List.Basic
import Mathlib.Data.List.Nodup

/-! # Reader-writer locks and one task

What a task does with a family `L` of reader-writer locks is the list of its requests and releases.
`held` are the guards it holds after a list of them, and `Clear` says that it never requests a guard while it
holds a conflicting one of the same lock itself, in which case it waits for itself forever.

`Neutral` operations release all that they request, in scopes; `Free` ones are in addition clear on their own.
`Free` is closed under sequence and iteration, and a single request and release is free. -/

namespace Locks

variable {L α : Type*} [DecidableEq L]

inductive Mode where
  | read
  | write
deriving DecidableEq

/-- Two guards of one lock exclude each other unless both read. -/
def Mode.Conflicts (m m' : Mode) : Prop := m = .write ∨ m' = .write

inductive Op (L : Type*) where
  | request (mode : Mode) (lock : L)
  | release (mode : Mode) (lock : L)

/-- The guards held after the operations. -/
def held : List (Mode × L) → List (Op L) → List (Mode × L)
  | guards, [] => guards
  | guards, .request mode lock :: ops => held ((mode, lock) :: guards) ops
  | guards, .release mode lock :: ops => held (guards.erase (mode, lock)) ops

/-- No request meets a conflicting guard. -/
def Clear : List (Mode × L) → List (Op L) → Prop
  | _, [] => True
  | guards, .request mode lock :: ops =>
    (∀ guard ∈ guards, guard.2 = lock → ¬ mode.Conflicts guard.1) ∧ Clear ((mode, lock) :: guards) ops
  | guards, .release mode lock :: ops => Clear (guards.erase (mode, lock)) ops

/-- A guard held during `body`. -/
def scope (mode : Mode) (lock : L) (body : List (Op L)) : List (Op L) :=
  .request mode lock :: (body ++ [.release mode lock])

/-- The guards held before are held after. -/
def Neutral (ops : List (Op L)) : Prop := ∀ guards, held guards ops = guards

/-- On its own, the task never waits for itself, and it releases all guards. -/
structure Free (ops : List (Op L)) : Prop where
  neutral : Neutral ops
  clear : Clear [] ops

theorem held_append (ops ops' : List (Op L)) (guards : List (Mode × L)) :
    held guards (ops ++ ops') = held (held guards ops) ops' := by
  induction ops generalizing guards with
  | nil => rfl
  | cons op ops ih => cases op <;> exact ih _

theorem clear_append (ops ops' : List (Op L)) (guards : List (Mode × L)) :
    Clear guards (ops ++ ops') ↔ Clear guards ops ∧ Clear (held guards ops) ops' := by
  induction ops generalizing guards with
  | nil => exact (iff_of_eq (true_and _)).symm
  | cons op ops ih =>
      cases op with
      | request mode lock => exact (and_congr_right fun _ => ih _).trans and_assoc.symm
      | release mode lock => exact ih _

theorem Neutral.append {ops ops' : List (Op L)} (h : Neutral ops) (h' : Neutral ops') : Neutral (ops ++ ops') := by
  intro guards
  rw [held_append, h, h']

theorem Neutral.scope {body : List (Op L)} (h : Neutral body) (mode : Mode) (lock : L) :
    Neutral (scope mode lock body) := by
  intro guards
  rw [Locks.scope, held, held_append, h, held, held, List.erase_cons_head]

theorem free_nil : Free ([] : List (Op L)) := ⟨fun _ => rfl, trivial⟩

/-- A guard that is released at once. -/
theorem free_scope_nil (mode : Mode) (lock : L) : Free (scope mode lock []) :=
  ⟨Neutral.scope (fun _ => rfl) mode lock, by simp [scope, Clear]⟩

theorem Free.append {ops ops' : List (Op L)} (h : Free ops) (h' : Free ops') : Free (ops ++ ops') := by
  refine ⟨h.neutral.append h'.neutral, (clear_append ops ops' []).mpr ⟨h.clear, ?_⟩⟩
  rw [h.neutral]
  exact h'.clear

theorem Free.ite {ops ops' : List (Op L)} (c : Prop) [Decidable c] (h : Free ops) (h' : Free ops') :
    Free (if c then ops else ops') := by
  split
  · exact h
  · exact h'

theorem free_flatMap {as : List α} {f : α → List (Op L)} (h : ∀ a ∈ as, Free (f a)) : Free (as.flatMap f) := by
  induction as with
  | nil => exact free_nil
  | cons a as ih =>
      rw [List.flatMap_cons]
      exact (h a List.mem_cons_self).append (ih fun b hb => h b (List.mem_cons_of_mem a hb))

/-- A request for a lock while holding a guard of it, one of the two for writing. -/
theorem not_clear_nested {mode mode' : Mode} (h : mode'.Conflicts mode) (lock : L) (body rest ops : List (Op L))
    (guards : List (Mode × L)) : ¬ Clear guards (scope mode lock (scope mode' lock body ++ rest) ++ ops) := by
  intro hclear
  rw [scope, scope, List.cons_append, Clear] at hclear
  exact hclear.2.1 (mode, lock) List.mem_cons_self rfl h

end Locks
