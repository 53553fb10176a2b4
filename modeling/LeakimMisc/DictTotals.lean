/-
# Totals of dictionaries

A dictionary whose values have weights, and the total of the weights.  Storing a value replaces
the old one under the same key, so that a total over a dictionary is that of all values stored
if and only if nothing of weight is ever replaced (`total_fill_eq_iff`).
-/
import Mathlib

/-- A dictionary. -/
abbrev Dict (κ α : Type*) := AList fun _ : κ => α

namespace Dict

variable {κ α : Type*} [DecidableEq κ] (w : α → ℕ)

/-- The total of all values. -/
def total (r : Dict κ α) : ℕ := (r.entries.map fun e => w e.2).sum

/-- The weight of a value that there may be. -/
def weight (o : Option α) : ℕ := o.elim 0 w

/-- A value that is taken out counts for what it weighs. -/
theorem total_erase (r : Dict κ α) (k : κ) :
    weight w (r.lookup k) + total w (r.erase k) = total w r := by
  by_cases hk : k ∈ r
  · obtain ⟨v, front, back, hfront, hentries, herase⟩ :=
      List.exists_of_kerase (AList.mem_keys.mp hk)
    have hlookup : r.lookup k = some v := by
      rw [← Option.mem_def, AList.mem_lookup_iff, hentries]
      exact List.mem_append_right _ List.mem_cons_self
    have herase' : (r.erase k).entries = front ++ back := herase
    rw [hlookup, total, total, herase', hentries]
    simp only [List.map_append, List.map_cons, List.sum_append, List.sum_cons]
    show w v + _ = _
    omega
  · have herase : r.erase k = r := by
      apply AList.ext
      exact List.kerase_of_notMem_keys hk
    rw [AList.lookup_eq_none.mpr hk, herase]
    exact Nat.zero_add _

/-- A value that is stored counts in the place of the old one. -/
theorem total_insert (r : Dict κ α) (k : κ) (v : α) :
    total w (r.insert k v) + weight w (r.lookup k) = total w r + w v := by
  have herase := total_erase w r k
  have hinsert : total w (r.insert k v) = w v + total w (r.erase k) := by
    rw [total, AList.entries_insert, List.map_cons, List.sum_cons]
    rfl
  omega

/-! ## Storing a list -/

/-- All items stored, one after the other. -/
def fill (r : Dict κ α) (items : List (κ × α)) : Dict κ α :=
  items.foldl (fun r p => r.insert p.1 p.2) r

/-- What was replaced on the way. -/
def replaced : Dict κ α → List (κ × α) → ℕ
  | _, [] => 0
  | r, p :: items => weight w (r.lookup p.1) + replaced (r.insert p.1 p.2) items

theorem total_fill (r : Dict κ α) (items : List (κ × α)) :
    total w (fill r items) + replaced w r items =
      total w r + (items.map fun p => w p.2).sum := by
  induction items generalizing r with
  | nil => simp [fill, replaced]
  | cons p items ih =>
    have hinsert := total_insert w r p.1 p.2
    have hrest := ih (r.insert p.1 p.2)
    rw [List.map_cons, List.sum_cons, replaced, show fill r (p :: items) =
      fill (r.insert p.1 p.2) items from rfl]
    omega

theorem replaced_eq_zero_iff (r : Dict κ α) (items : List (κ × α)) :
    replaced w r items = 0 ↔ (∀ p ∈ items, weight w (r.lookup p.1) = 0) ∧
      items.Pairwise fun p q => p.1 = q.1 → w p.2 = 0 := by
  induction items generalizing r with
  | nil => simp [replaced]
  | cons p items ih =>
    rw [replaced, Nat.add_eq_zero_iff, ih, List.forall_mem_cons, List.pairwise_cons, and_assoc,
      ← and_assoc (b := ∀ q ∈ items, p.1 = q.1 → w p.2 = 0)]
    refine and_congr_right fun hp => and_congr_left fun _ => ?_
    rw [← forall₂_and]
    refine forall₂_congr fun q _ => ?_
    by_cases hkey : p.1 = q.1
    · rw [← hkey, AList.lookup_insert, hp]
      simp [weight]
    · rw [AList.lookup_insert_ne (Ne.symm hkey)]
      simp [hkey]

/-- **The total is that of all items** if and only if no item of weight is stored again under
its key. -/
theorem total_fill_eq_iff (items : List (κ × α)) :
    total w (fill ∅ items) = (items.map fun p => w p.2).sum ↔
      items.Pairwise fun p q => p.1 = q.1 → w p.2 = 0 := by
  have hfill := total_fill w (∅ : Dict κ α) items
  have hzero := replaced_eq_zero_iff w (∅ : Dict κ α) items
  have hempty : total w (∅ : Dict κ α) = 0 := rfl
  have hnone : ∀ p ∈ items, weight w ((∅ : Dict κ α).lookup p.1) = 0 := fun p _ => rfl
  rw [and_iff_right hnone] at hzero
  rw [← hzero]
  omega

/-- What is found under a key is the last item with it. -/
theorem lookup_fill (r : Dict κ α) (items : List (κ × α)) (k : κ) :
    (fill r items).lookup k =
      ((items.reverse.find? fun p => p.1 = k).map Prod.snd).or (r.lookup k) := by
  induction items generalizing r with
  | nil => rfl
  | cons p items ih =>
    rw [show fill r (p :: items) = fill (r.insert p.1 p.2) items from rfl, ih,
      List.reverse_cons, List.find?_append]
    cases (items.reverse.find? fun p => p.1 = k) with
    | some q => rfl
    | none =>
      by_cases hkey : p.1 = k
      · rw [← hkey, AList.lookup_insert]
        simp
      · rw [AList.lookup_insert_ne (Ne.symm hkey)]
        simp [hkey]

end Dict
