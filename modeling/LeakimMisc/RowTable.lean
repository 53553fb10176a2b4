/-
# Tables of rows

A table whose entries are found by a row and a column, where a row is made when it is first
needed.  An update of one entry leaves the others alone (`entry_upsert`).
-/
import Mathlib.Data.Finmap

/-- A table of rows. -/
abbrev RowTable (α β γ : Type*) := Finmap fun _ : α => Finmap fun _ : β => γ

namespace RowTable

variable {α β γ : Type*} [DecidableEq α] [DecidableEq β]

/-- The entry in row `a` and column `b`, if there is one. -/
def entry (t : RowTable α β γ) (a : α) (b : β) : Option γ :=
  (t.lookup a).bind fun row => row.lookup b

/-- Make a new entry from the old one; the row is made if there is none. -/
def upsert (t : RowTable α β γ) (a : α) (b : β) (f : Option γ → γ) : RowTable α β γ :=
  let row := (t.lookup a).getD ∅
  t.insert a (row.insert b (f (row.lookup b)))

@[simp] theorem entry_empty (a : α) (b : β) : entry (∅ : RowTable α β γ) a b = none := rfl

theorem lookup_getD (t : RowTable α β γ) (a : α) (b : β) :
    ((t.lookup a).getD ∅).lookup b = entry t a b := by
  rw [entry]
  cases t.lookup a with
  | none => exact Finmap.lookup_empty b
  | some row => rfl

theorem entry_upsert_self (t : RowTable α β γ) (a : α) (b : β) (f : Option γ → γ) :
    entry (upsert t a b f) a b = some (f (entry t a b)) := by
  rw [upsert, entry, Finmap.lookup_insert, Option.bind_some, Finmap.lookup_insert, lookup_getD]

/-- **The other entries are left alone.** -/
theorem entry_upsert_of_ne (t : RowTable α β γ) {a a' : α} {b b' : β} (f : Option γ → γ)
    (h : ¬ (a' = a ∧ b' = b)) : entry (upsert t a b f) a' b' = entry t a' b' := by
  by_cases ha : a' = a
  · subst ha
    rw [upsert, entry, Finmap.lookup_insert, Option.bind_some,
      Finmap.lookup_insert_of_ne _ (fun hb => h ⟨rfl, hb⟩), lookup_getD]
  · rw [upsert, entry, Finmap.lookup_insert_of_ne _ ha, entry]

/-- Every row has an entry. -/
def Filled (t : RowTable α β γ) : Prop := ∀ a ∈ t, ∃ b, (entry t a b).isSome

theorem filled_empty : Filled (∅ : RowTable α β γ) :=
  fun _ ha => absurd ha Finmap.notMem_empty

/-- A row is made with an entry in it. -/
theorem Filled.upsert {t : RowTable α β γ} (h : Filled t) (a : α) (b : β)
    (f : Option γ → γ) : Filled (upsert t a b f) := by
  intro a' ha'
  rcases Finmap.mem_insert.mp ha' with rfl | ha'
  · refine ⟨b, ?_⟩
    rw [entry_upsert_self]
    rfl
  · obtain ⟨b', hb'⟩ := h a' ha'
    refine ⟨b', ?_⟩
    by_cases heq : a' = a ∧ b' = b
    · obtain ⟨rfl, rfl⟩ := heq
      rw [entry_upsert_self]
      rfl
    · rw [entry_upsert_of_ne t f heq]
      exact hb'

theorem mem_of_isSome_entry {t : RowTable α β γ} {a : α} {b : β} (h : (entry t a b).isSome) :
    a ∈ t := by
  rw [← Finmap.lookup_isSome]
  rw [entry] at h
  exact Option.isSome_of_isSome_bind h

end RowTable
