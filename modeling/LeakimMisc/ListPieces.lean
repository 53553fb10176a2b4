/-
# Cutting lists and putting them together

What is missing from the library about `List.splitOn`: the last part of a list that is cut,
one more element at the end of it, and what the parts hold.  About lists with separators:
what a filter and a part less do to them (`filter_intercalate`, `length_intercalate_le`).  And
about lists that are put together from pieces: when the pieces are determined by the whole
(`eq_of_flatMap_eq`), and a `filterMap` that finds one element (`filterMap_nodup`).
-/
import Mathlib

namespace Pieces

/-! ## Cutting -/

theorem singleton_eq_concat {α : Type*} {x l : α} {ls : List α} (h : [x] = ls ++ [l]) :
    ls = [] ∧ l = x := by
  cases ls with
  | nil => exact ⟨rfl, (List.singleton_inj.1 h).symm⟩
  | cons y ls => simp at h

/-- A list that is cut has a last part. -/
theorem exists_splitOn_eq {α : Type*} [BEq α] (a : α) (xs : List α) :
    ∃ ls l, xs.splitOn a = ls ++ [l] :=
  ⟨_, _, (List.dropLast_append_getLast (List.splitOn_ne_nil a xs)).symm⟩

/-- Cutting at `a` a list with one more element at its end. -/
theorem splitOn_concat {α : Type*} [BEq α] [LawfulBEq α] {a b : α} (hb : b ≠ a) {xs : List α}
    {ls : List (List α)} {l : List α} (h : xs.splitOn a = ls ++ [l]) :
    (xs ++ [b]).splitOn a = ls ++ [l ++ [b]] := by
  induction xs generalizing ls l with
  | nil =>
    rw [List.splitOn_nil] at h
    obtain ⟨rfl, rfl⟩ := singleton_eq_concat h
    exact List.splitOn_eq_singleton (by simpa using Ne.symm hb)
  | cons x xs ih =>
    rw [List.cons_append, List.splitOn_cons_eq_if_modifyHead]
    rw [List.splitOn_cons_eq_if_modifyHead] at h
    obtain ⟨ls', l', hxs⟩ := exists_splitOn_eq a xs
    rw [ih hxs]
    rw [hxs] at h
    split_ifs at h ⊢ with hx
    · rw [← List.cons_append] at h
      obtain ⟨rfl, hl⟩ := List.append_inj' h rfl
      rw [← List.singleton_inj.1 hl]
      rfl
    · cases ls' with
      | nil =>
        obtain ⟨rfl, rfl⟩ := singleton_eq_concat h
        rfl
      | cons first ls' =>
        rw [List.cons_append, List.modifyHead_cons, ← List.cons_append] at h
        obtain ⟨rfl, hl⟩ := List.append_inj' h rfl
        rw [← List.singleton_inj.1 hl]
        rfl

/-- The last part of a list that is cut is empty if the list is, or if it ends with a cut. -/
theorem last_splitOn_eq_nil_iff {α : Type*} [BEq α] [LawfulBEq α] {a : α} {xs l : List α}
    {ls : List (List α)} (h : xs.splitOn a = ls ++ [l]) :
    l = [] ↔ xs = [] ∨ xs.getLast? = some a := by
  rcases List.eq_nil_or_concat xs with rfl | ⟨ys, b, rfl⟩
  · rw [List.splitOn_nil] at h
    obtain ⟨-, rfl⟩ := singleton_eq_concat h
    simp
  · rw [List.concat_eq_append] at h ⊢
    by_cases hb : b = a
    · subst hb
      rw [List.splitOn_append_cons_self, List.splitOn_nil] at h
      obtain ⟨-, hl⟩ := List.append_inj' h rfl
      simp [(List.singleton_inj.1 hl).symm]
    · obtain ⟨ls', l', hys⟩ := exists_splitOn_eq a ys
      rw [splitOn_concat hb hys] at h
      obtain ⟨-, hl⟩ := List.append_inj' h rfl
      simp [(List.singleton_inj.1 hl).symm, hb]

/-- The parts of a list cut at `a`, put together. -/
theorem flatten_splitOn {α : Type*} [DecidableEq α] (a : α) (xs : List α) :
    (xs.splitOn a).flatten = xs.filter fun x => x ≠ a := by
  induction xs with
  | nil => rfl
  | cons x xs ih =>
    rw [List.splitOn_cons_eq_if_modifyHead, List.filter_cons]
    by_cases hx : x = a
    · simpa [hx] using ih
    · obtain ⟨first, ls, hls⟩ := List.exists_cons_of_ne_nil (List.splitOn_ne_nil a xs)
      rw [hls] at ih ⊢
      simpa [hx] using ih

/-- The parts of a list cut at `a` do not contain `a`. -/
theorem mem_of_mem_splitOn {α : Type*} [DecidableEq α] {a b : α} {xs l : List α}
    (hl : l ∈ xs.splitOn a) (hb : b ∈ l) : b ∈ xs ∧ b ≠ a := by
  have hmem : b ∈ (xs.splitOn a).flatten := List.mem_flatten.2 ⟨l, hl, hb⟩
  rw [flatten_splitOn, List.mem_filter] at hmem
  simpa using hmem

/-- The last part of a list cut at `a` is its end. -/
theorem suffix_of_splitOn {α : Type*} [BEq α] [LawfulBEq α] {a : α} {xs l : List α}
    {ls : List (List α)} (h : xs.splitOn a = ls ++ [l]) : l <:+ xs := by
  have hxs : [a].intercalate (ls ++ [l]) = xs := by
    rw [← h, List.intercalate_splitOn]
  rw [← hxs]
  clear h hxs
  induction ls with
  | nil =>
    rw [List.nil_append, List.intercalate_singleton]
  | cons first ls ih =>
    rw [List.cons_append, List.intercalate_cons_of_ne_nil (by simp)]
    exact ih.trans (List.suffix_append _ _)

/-- A list that is cut at the first `a`. -/
theorem eq_of_append_cons_eq {α : Type*} {a : α} {x y r s : List α} (hx : a ∉ x) (hy : a ∉ y)
    (h : x ++ a :: r = y ++ a :: s) : x = y ∧ r = s := by
  induction x generalizing y with
  | nil =>
    cases y with
    | nil => exact ⟨rfl, (List.cons.inj h).2⟩
    | cons b y =>
      rw [(List.cons.inj h).1] at hy
      exact absurd List.mem_cons_self hy
  | cons b x ih =>
    cases y with
    | nil =>
      rw [← (List.cons.inj h).1] at hx
      exact absurd List.mem_cons_self hx
    | cons c y =>
      obtain ⟨rfl, htail⟩ := List.cons.inj h
      obtain ⟨rfl, rfl⟩ := ih (fun hm => hx (List.mem_cons_of_mem _ hm))
        (fun hm => hy (List.mem_cons_of_mem _ hm)) htail
      exact ⟨rfl, rfl⟩

/-- A list that is cut at the last `a`. -/
theorem eq_of_append_cons_eq' {α : Type*} {a : α} {x y r s : List α} (hr : a ∉ r) (hs : a ∉ s)
    (h : x ++ a :: r = y ++ a :: s) : x = y ∧ r = s := by
  have hrev := congrArg List.reverse h
  simp only [List.reverse_append, List.reverse_cons, List.append_assoc,
    List.singleton_append] at hrev
  obtain ⟨hrs, hxy⟩ := eq_of_append_cons_eq (by simpa using hr) (by simpa using hs) hrev
  exact ⟨List.reverse_injective hxy, List.reverse_injective hrs⟩

/-! ## Separators -/

theorem length_intercalate {α : Type*} (a : α) (ls : List (List α)) :
    ([a].intercalate ls).length = ls.flatten.length + (ls.length - 1) := by
  induction ls with
  | nil => rfl
  | cons x ls ih =>
    cases ls with
    | nil => simp
    | cons y ls =>
      rw [List.intercalate_cons_cons, List.length_append, List.length_append, ih]
      simp only [List.flatten_cons, List.length_append, List.length_cons, List.length_nil]
      omega

theorem mem_intercalate {α : Type*} {a b : α} {ls : List (List α)}
    (h : b ∈ [a].intercalate ls) : b = a ∨ ∃ l ∈ ls, b ∈ l := by
  induction ls with
  | nil => exact absurd h List.not_mem_nil
  | cons x ls ih =>
    cases ls with
    | nil =>
      rw [List.intercalate_singleton] at h
      exact Or.inr ⟨x, List.mem_cons_self, h⟩
    | cons y ls =>
      rw [List.intercalate_cons_cons, List.mem_append, List.mem_append,
        List.mem_singleton] at h
      rcases h with (h | h) | h
      · exact Or.inr ⟨x, List.mem_cons_self, h⟩
      · exact Or.inl h
      · rcases ih h with h | ⟨l, hl, hb⟩
        · exact Or.inl h
        · exact Or.inr ⟨l, List.mem_cons_of_mem _ hl, hb⟩

/-- With fewer parts between the separators a list is no longer. -/
theorem length_intercalate_le {α : Type*} {a : α} {ls ms : List (List α)} (h : ls.Sublist ms) :
    ([a].intercalate ls).length ≤ ([a].intercalate ms).length := by
  rw [length_intercalate, length_intercalate]
  have hflatten : ls.flatten.length ≤ ms.flatten.length := h.flatten.length_le
  have hlength : ls.length ≤ ms.length := h.length_le
  omega

/-- A separator that stays separates what stays. -/
theorem filter_intercalate {α : Type*} {p : α → Bool} {a : α} (ha : p a) (ls : List (List α)) :
    ([a].intercalate ls).filter p = [a].intercalate (ls.map fun l => l.filter p) := by
  induction ls with
  | nil => rfl
  | cons x ls ih =>
    cases ls with
    | nil => simp
    | cons y ls =>
      rw [List.map_cons] at ih
      rw [List.intercalate_cons_cons, List.filter_append, List.filter_append, ih, List.map_cons,
        List.map_cons, List.intercalate_cons_cons, List.filter_cons_of_pos ha, List.filter_nil]

/-! ## Putting together -/

/-- If one list is put together from pieces in two ways, of which the first never takes more,
the pieces are the same. -/
theorem eq_of_flatMap_eq {α γ : Type*} {p q : α → List γ} {l : List α}
    (hle : ∀ x ∈ l, (p x).length ≤ (q x).length) (h : l.flatMap p = l.flatMap q) :
    ∀ x ∈ l, p x = q x := by
  induction l with
  | nil =>
    intro x hx
    exact absurd hx List.not_mem_nil
  | cons y l ih =>
    have hlater : ∀ x ∈ l, (p x).length ≤ (q x).length :=
      fun x hx => hle x (List.mem_cons_of_mem _ hx)
    have hsum : (l.flatMap p).length ≤ (l.flatMap q).length := by
      rw [List.length_flatMap, List.length_flatMap]
      exact List.sum_le_sum hlater
    have hy : (p y).length ≤ (q y).length := hle y List.mem_cons_self
    rw [List.flatMap_cons, List.flatMap_cons] at h
    have htotal := congrArg List.length h
    rw [List.length_append, List.length_append] at htotal
    -- neither the first piece nor the others can be longer on the right
    obtain ⟨hfirst, hrest⟩ := List.append_inj h (by omega)
    intro x hx
    rcases List.mem_cons.1 hx with rfl | hx
    · exact hfirst
    · exact ih hlater hrest x hx

/-- One of several pieces is shorter than all of them together, if none is empty. -/
theorem length_lt_flatten_of_mem {α : Type*} {ls : List (List α)} (hls : ∀ l ∈ ls, l ≠ [])
    (hlen : 1 < ls.length) {l : List α} (hl : l ∈ ls) : l.length < ls.flatten.length := by
  obtain ⟨before, after, rfl⟩ := List.append_of_mem hl
  have hother : before ++ after ≠ [] := by
    intro hnil
    obtain ⟨rfl, rfl⟩ := List.append_eq_nil_iff.1 hnil
    simp at hlen
  obtain ⟨m, hm⟩ := List.exists_mem_of_ne_nil _ hother
  have hne : m ≠ [] := by
    apply hls
    rcases List.mem_append.1 hm with hm | hm
    · exact List.mem_append_left _ hm
    · exact List.mem_append_right _ (List.mem_cons_of_mem _ hm)
  have hpos : 0 < m.length := List.length_pos_iff.2 hne
  have hle : m.length ≤ (before ++ after).flatten.length :=
    (List.sublist_flatten_of_mem hm).length_le
  simp only [List.flatten_append, List.flatten_cons, List.length_append] at hle ⊢
  omega

/-- A list does not occur later in itself if its last element is not in the rest. -/
theorem append_append_ne {α : Type*} {t x rest v : List α} {a : α} (ht : t ≠ []) (hv : a ∉ v) :
    t ++ (x ++ [a] ++ rest) ≠ x ++ [a] ++ v := by
  intro h
  obtain ⟨b, t', rfl⟩ := List.exists_cons_of_ne_nil ht
  apply hv
  have hleft : (b :: t' ++ (x ++ [a] ++ rest))[t'.length + 1 + x.length]? = some a := by
    rw [List.getElem?_append_right (by simp), List.length_cons, Nat.add_sub_cancel_left,
      List.append_assoc, List.getElem?_append_right le_rfl, Nat.sub_self]
    rfl
  rw [h, List.getElem?_append_right (by simp)] at hleft
  exact List.mem_of_getElem? hleft

/-- In a list without duplicates an element is found once. -/
theorem filterMap_nodup {α β : Type*} [DecidableEq α] {l : List α} {d : α}
    (hnodup : l.Nodup) (hd : d ∈ l) (b : β) :
    (l.filterMap fun x => if x = d then some b else none) = [b] := by
  induction l with
  | nil => exact absurd hd List.not_mem_nil
  | cons x l ih =>
    rw [List.nodup_cons] at hnodup
    rw [List.filterMap_cons]
    by_cases hx : x = d
    · subst hx
      rw [if_pos rfl]
      dsimp only
      rw [List.filterMap_eq_nil_iff.2]
      intro x' hx'
      rw [if_neg (ne_of_mem_of_not_mem hx' hnodup.1)]
    · rw [if_neg hx]
      exact ih hnodup.2 ((List.mem_cons.1 hd).resolve_left (Ne.symm hx))

/-- A place in a list of rows that are all of the same length. -/
theorem getElem?_flatMap_map {α β γ : Type*} {f : α → β → γ} {as : List α} {bs : List β}
    {i j : ℕ} (hj : j < bs.length) :
    (as.flatMap fun a => bs.map (f a))[i * bs.length + j]? =
      as[i]?.bind fun a => bs[j]?.map (f a) := by
  induction as generalizing i with
  | nil => simp
  | cons a as ih =>
    rw [List.flatMap_cons]
    cases i with
    | zero =>
      rw [List.getElem?_append_left (by simpa using hj)]
      simp
    | succ i =>
      rw [List.getElem?_append_right (by simp; nlinarith), List.length_map,
        show (i + 1) * bs.length + j - bs.length = i * bs.length + j by
          rw [Nat.succ_mul]; omega, ih]
      rfl

/-! ## Left out -/

/-- Leaving out elements that `p` does not hold of does not change their number. -/
theorem countP_filter_of_imp {α : Type*} {p q : α → Bool} (h : ∀ x, p x → q x) (l : List α) :
    (l.filter q).countP p = l.countP p := by
  rw [List.countP_filter]
  apply List.countP_congr
  intro x _
  simpa using h x

/-- Nor the first of them. -/
theorem find?_filter_of_imp {α : Type*} {p q : α → Bool} (h : ∀ x, p x → q x) (l : List α) :
    (l.filter q).find? p = l.find? p := by
  rw [List.find?_filter]
  congr 1
  funext x
  by_cases hp : p x
  · simp [hp, h x hp]
  · simp [hp]

/-! ## One by one -/

/-- `mapM` fails exactly if an element does. -/
theorem isSome_mapM_iff {α β : Type*} {f : α → Option β} {l : List α} :
    (l.mapM f).isSome ↔ ∀ x ∈ l, (f x).isSome := by
  induction l with
  | nil => simp
  | cons x l ih =>
    rw [List.mapM_cons, List.forall_mem_cons, ← ih]
    cases f x with
    | none => simp
    | some y =>
      cases l.mapM f with
      | none => simp
      | some ys => simp

/-- What `mapM` makes of an element is in its result. -/
theorem mem_of_mapM {α β : Type*} {f : α → Option β} {l : List α} {ys : List β}
    (h : l.mapM f = some ys) {x : α} (hx : x ∈ l) : ∃ y ∈ ys, f x = some y := by
  induction l generalizing ys with
  | nil => exact absurd hx List.not_mem_nil
  | cons a l ih =>
    rw [List.mapM_cons] at h
    obtain ⟨b, hb, h⟩ := Option.bind_eq_some_iff.mp h
    obtain ⟨bs, hbs, h⟩ := Option.bind_eq_some_iff.mp h
    obtain rfl := Option.some.inj h
    rcases List.mem_cons.mp hx with rfl | hx
    · exact ⟨b, List.mem_cons_self, hb⟩
    · obtain ⟨y, hy, hfy⟩ := ih hbs hx
      exact ⟨y, List.mem_cons_of_mem _ hy, hfy⟩

/-- The result of `mapM` has in each place what `f` makes of the element there. -/
theorem mapM_eq_some_iff {α β : Type*} {f : α → Option β} {l : List α} {ys : List β} :
    l.mapM f = some ys ↔ List.Forall₂ (fun y x => some y = f x) ys l := by
  induction l generalizing ys with
  | nil => simp
  | cons x l ih =>
    rw [List.mapM_cons, List.forall₂_cons_right_iff]
    constructor
    · intro h
      obtain ⟨y, hy, h⟩ := Option.bind_eq_some_iff.mp h
      obtain ⟨zs, hzs, h⟩ := Option.bind_eq_some_iff.mp h
      exact ⟨y, zs, hy.symm, ih.mp hzs, (Option.some.inj h).symm⟩
    · rintro ⟨y, zs, hy, hzs, rfl⟩
      rw [← hy, ih.mpr hzs]
      rfl

/-! ## Two elements next to each other -/

/-- Two elements next to each other, in a list that was put together from two. -/
theorem pair_infix_append {α : Type*} {a b : α} {xs ys : List α} (hb : ys.head? ≠ some b) :
    [a, b] <:+: xs ++ ys ↔ [a, b] <:+: xs ∨ [a, b] <:+: ys := by
  induction xs with
  | nil => simp
  | cons x xs ih =>
    rw [List.cons_append, List.infix_cons_iff, ih, List.infix_cons_iff (a := x), or_assoc]
    have hstart : [a, b] <+: x :: (xs ++ ys) ↔ [a, b] <+: x :: xs := by
      rw [List.cons_prefix_cons, List.cons_prefix_cons]
      cases xs with
      | nil =>
        cases ys with
        | nil => rfl
        | cons y ys =>
          have hy : b ≠ y := fun h => hb (by rw [h]; rfl)
          simp [List.cons_prefix_cons, hy]
      | cons x' xs => simp [List.cons_prefix_cons]
    rw [hstart]

/-- Two elements next to each other, of which the first is at the beginning only. -/
theorem pair_infix_cons {α : Type*} {a b x : α} {xs : List α} (ha : a ∉ xs) :
    [a, b] <:+: x :: xs ↔ a = x ∧ xs.head? = some b := by
  have hnot : ¬ [a, b] <:+: xs := fun h => ha (h.subset List.mem_cons_self)
  rw [List.infix_cons_iff, or_iff_left hnot, List.cons_prefix_cons]
  cases xs with
  | nil => simp
  | cons y ys => simp [List.cons_prefix_cons, eq_comm]

end Pieces
