import Mathlib.Logic.Function.Basic
import Mathlib.Tactic.Common

/-! # A directory of files

The entries of a directory point to inodes.  An open file is an inode: what is written to it goes where its name
was when it was opened, whatever name it has by then.  `Directory.rename` moves an entry over another one in one
step, so that a reader of the target finds the old file or the new one (`read_rename`). -/

namespace Files

/-- The entries of a directory and the contents of the inodes. -/
structure Directory (ν : Type) where
  entries : ν → Option ℕ
  content : ℕ → List UInt8
  /-- the next free inode -/
  next : ℕ
  entries_lt : ∀ name i, entries name = some i → i < next
  /-- every file has one name -/
  single : ∀ name name' i, entries name = some i → entries name' = some i → name = name'

namespace Directory

/-- A directory without files. -/
def empty (ν : Type) : Directory ν where
  entries _ := none
  content _ := []
  next := 0
  entries_lt _ _ h := by cases h
  single _ _ _ h := by cases h

variable {ν : Type} (d : Directory ν)

/-- Opens the file and reads it to its end; `none` if there is no such file. -/
def read (name : ν) : Option (List UInt8) := (d.entries name).map d.content

/-- Writes to the start of an open file. -/
def write (i : ℕ) (bytes : List UInt8) : Directory ν :=
  { d with content := Function.update d.content i (bytes ++ (d.content i).drop bytes.length) }

variable {d}

theorem read_eq_some {name : ν} {bytes : List UInt8} :
    d.read name = some bytes ↔ ∃ i, d.entries name = some i ∧ d.content i = bytes := Option.map_eq_some_iff

theorem read_eq_none {name : ν} : d.read name = none ↔ d.entries name = none := Option.map_eq_none_iff

theorem content_write_self (i : ℕ) (bytes : List UInt8) :
    (d.write i bytes).content i = bytes ++ (d.content i).drop bytes.length := Function.update_self ..

theorem content_write_of_ne {i j : ℕ} (h : j ≠ i) (bytes : List UInt8) :
    (d.write i bytes).content j = d.content j := Function.update_of_ne h ..

theorem read_write_of_ne {i : ℕ} {name : ν} (h : d.entries name ≠ some i) (bytes : List UInt8) :
    (d.write i bytes).read name = d.read name := by
  refine Option.map_congr fun j hj => content_write_of_ne ?_ bytes
  rintro rfl
  exact h hj

/-! ### Creating and renaming -/

variable [DecidableEq ν] (d)

/-- Opens the file for writing: it is created, or truncated if it exists. -/
def create (name : ν) : Directory ν × ℕ :=
  match h : d.entries name with
  | some i => ({ d with content := Function.update d.content i [] }, i)
  | none =>
    ({ entries := Function.update d.entries name (some d.next)
       content := Function.update d.content d.next []
       next := d.next + 1
       entries_lt := fun other i hi => by
        by_cases ho : other = name
        · rw [ho, Function.update_self, Option.some.injEq] at hi
          omega
        · rw [Function.update_of_ne ho] at hi
          exact Nat.lt_succ_of_lt (d.entries_lt other i hi)
       single := fun a b i ha hb => by
        have hnew : ∀ other, d.entries other ≠ some d.next := fun other ho =>
          absurd (d.entries_lt _ _ ho) (Nat.lt_irrefl _)
        simp only [Function.update_apply] at ha hb
        split at ha <;> split at hb
        · next h1 h2 => exact h1.trans h2.symm
        · cases ha
          exact absurd hb (hnew b)
        · cases hb
          exact absurd ha (hnew a)
        · exact d.single a b i ha hb },
      d.next)

/-- Moves a file over another one; `none` if there is no such file. -/
def rename (source target : ν) : Option (Directory ν) :=
  match h : d.entries source with
  | none => none
  | some i => some
    { d with
      entries := Function.update (Function.update d.entries source none) target (some i)
      entries_lt := fun name j hj => by
        simp only [Function.update_apply] at hj
        split at hj
        · cases hj
          exact d.entries_lt source i h
        · split at hj
          · cases hj
          · exact d.entries_lt name j hj
      single := fun a b j ha hb => by
        have hsource : ∀ other, other ≠ source → d.entries other ≠ some i :=
          fun other ho hi => ho (d.single other source i hi h)
        simp only [Function.update_apply] at ha hb
        split at ha <;> split at hb
        · next h1 h2 => exact h1.trans h2.symm
        · split at hb
          · cases hb
          · next ho =>
              cases ha
              exact absurd hb (hsource b ho)
        · split at ha
          · cases ha
          · next ho =>
              cases hb
              exact absurd ha (hsource a ho)
        · split at ha
          · cases ha
          · split at hb
            · cases hb
            · exact d.single a b j ha hb }

variable {d}

theorem entries_create_self (name : ν) : (d.create name).1.entries name = some (d.create name).2 := by
  unfold create
  split
  · next h => exact h
  · exact Function.update_self ..

theorem content_create (name : ν) :
    (d.create name).1.content = Function.update d.content (d.create name).2 [] := by
  unfold create
  split <;> rfl

theorem entries_create_of_ne {name other : ν} (h : other ≠ name) :
    (d.create name).1.entries other = d.entries other := by
  unfold create
  split
  · rfl
  · exact Function.update_of_ne h ..

/-- The file that is opened is not that of another name. -/
theorem entries_ne_create {name other : ν} (h : other ≠ name) : d.entries other ≠ some (d.create name).2 := by
  unfold create
  split
  · next i hi => exact fun ho => h (d.single other name i ho hi)
  · exact fun ho => absurd (d.entries_lt _ _ ho) (Nat.lt_irrefl _)

theorem read_create_of_ne {name other : ν} (h : other ≠ name) : (d.create name).1.read other = d.read other := by
  rw [read, read, entries_create_of_ne h, content_create]
  refine Option.map_congr fun i hi => Function.update_of_ne ?_ ..
  rintro rfl
  exact entries_ne_create h hi

theorem rename_eq_none {source target : ν} : d.rename source target = none ↔ d.entries source = none := by
  unfold rename
  split
  · next h => simp [h]
  · next i h => simp [h]

theorem rename_eq_some {source target : ν} {d' : Directory ν} (h : d.rename source target = some d') :
    ∃ i, d.entries source = some i ∧ d'.content = d.content ∧
      d'.entries = Function.update (Function.update d.entries source none) target (some i) := by
  unfold rename at h
  split at h
  · cases h
  · next i hi =>
      cases h
      exact ⟨i, hi, rfl, rfl⟩

theorem read_rename {source target : ν} {d' : Directory ν} (h : d.rename source target = some d') :
    d'.read target = d.read source := by
  obtain ⟨i, hi, hcontent, hentries⟩ := rename_eq_some h
  rw [read, read, hentries, hcontent, hi, Function.update_self]

end Directory

end Files
