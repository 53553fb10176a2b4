/-
# Tables of a fixed size

A C array with a counter of the entries in use, written only at the counter.  A table never
holds more entries than it has room for; an entry too many is a write past the end of the
array, and there is no table after that.

A loop in which every round adds some entries of its own to the table adds all of them, in
order, or leaves the array (`foldlM_entries`).
-/
import Mathlib.Data.List.Induction

/-- The entries in use of an array of `cap` entries. -/
structure Table (α : Type*) (cap : ℕ) where
  entries : List α
  fits : entries.length ≤ cap

namespace Table

variable {α β σ : Type*} {cap : ℕ}

/-- No entry is in use. -/
def empty : Table α cap := ⟨[], Nat.zero_le _⟩

/-- Write the entry at the counter and count it; `none` if that is past the array. -/
def add (t : Table α cap) (a : α) : Option (Table α cap) :=
  if h : t.entries.length < cap then
    some ⟨t.entries ++ [a], by rw [List.length_append]; exact h⟩
  else none

/-- The entries after `m` was added to `l`, if there is room. -/
def room (cap : ℕ) (l m : List α) : Option (List α) :=
  if (l ++ m).length ≤ cap then some (l ++ m) else none

@[simp] theorem entries_empty : (empty : Table α cap).entries = [] := rfl

theorem map_entries_add (t : Table α cap) (a : α) :
    (t.add a).map entries = room cap t.entries [a] := by
  rw [add, room, List.length_append, List.length_singleton]
  by_cases h : t.entries.length < cap
  · rw [dif_pos h, if_pos (Nat.succ_le_of_lt h)]
    rfl
  · rw [dif_neg h, if_neg (by omega)]
    rfl

/-- Adding nothing. -/
theorem room_nil (t : Table α cap) : room cap t.entries [] = some t.entries := by
  rw [room, List.append_nil, if_pos t.fits]

/-- Adding in two steps. -/
theorem room_bind (l m n : List α) :
    ((room cap l m).bind fun k => room cap k n) = room cap l (m ++ n) := by
  rw [room, room, ← List.append_assoc]
  by_cases h : (l ++ m).length ≤ cap
  · rw [if_pos h, Option.bind_some, room]
  · rw [if_neg h, if_neg]
    · rfl
    · rw [List.length_append]
      omega

theorem room_eq_some_iff {l m k : List α} :
    room cap l m = some k ↔ (l ++ m).length ≤ cap ∧ k = l ++ m := by
  rw [room]
  by_cases h : (l ++ m).length ≤ cap
  · rw [if_pos h, Option.some.injEq, eq_comm]
    exact ⟨fun hk => ⟨h, hk⟩, And.right⟩
  · rw [if_neg h]
    exact ⟨fun hk => absurd hk (by simp), fun hk => absurd hk.1 h⟩

/-- **What each round of a loop keeps** holds at its end, if no round stops the loop; `I` may
speak of the elements that were read. -/
theorem foldlM_induction {step : σ → β → Option σ} {I : List β → σ → Prop}
    (hstep : ∀ ys s x t, I ys s → step s x = some t → I (ys ++ [x]) t)
    {xs : List β} {s t : σ} (hinit : I [] s) (h : xs.foldlM step s = some t) : I xs t := by
  induction xs using List.reverseRecOn generalizing t with
  | nil => exact Option.some.inj h ▸ hinit
  | append_singleton xs x ih =>
    rw [List.foldlM_append] at h
    obtain ⟨u, hu, hx⟩ := Option.bind_eq_some_iff.mp h
    rw [List.foldlM_cons] at hx
    obtain ⟨v, hv, hnil⟩ := Option.bind_eq_some_iff.mp hx
    rw [← Option.some.inj hnil]
    exact hstep xs u x v (ih hu) hv

/-- **A loop whose rounds add the pieces `p x` to the table adds all the pieces.** -/
theorem foldlM_entries {step : σ → β → Option σ} {tab : σ → Table α cap} {p : β → List α}
    (hstep : ∀ s x, (step s x).map (fun s => (tab s).entries) = room cap (tab s).entries (p x))
    (xs : List β) (s : σ) :
    (xs.foldlM step s).map (fun s => (tab s).entries)
      = room cap (tab s).entries (xs.flatMap p) := by
  induction xs generalizing s with
  | nil => exact (room_nil (tab s)).symm
  | cons x xs ih =>
    rw [List.foldlM_cons, List.flatMap_cons, ← room_bind, ← hstep s x]
    cases h : step s x with
    | none => rfl
    | some t => exact ih t

end Table
