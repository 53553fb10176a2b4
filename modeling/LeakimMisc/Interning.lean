/-
# Numbering names

A dictionary that numbers names in the order in which they are first seen, and the list of the
names seen.  The numbers may start at any `d`: then the name at the place `j` of the list has
the number `d + j` (`Indexed`).

Names can be changed in place, one key after the other.  A name that the change leaves as it is
gets lost in this, as the key that is taken out afterwards is the one just written
(`foldl_renameKey`).
-/
import LeakimMisc.DictTotals

namespace Interning

variable {κ : Type*} [DecidableEq κ]

/-- **The numbers are the places in the list**, counted from `d`. -/
def Indexed (d : ℕ) (hash : Dict κ ℕ) (names : List κ) : Prop :=
  ∀ k i, hash.lookup k = some i ↔ ∃ j, i = d + j ∧ names[j]? = some k

theorem indexed_empty (d : ℕ) : Indexed d (∅ : Dict κ ℕ) [] := by
  intro k i
  simp

variable {d : ℕ} {hash : Dict κ ℕ} {names : List κ}

theorem Indexed.lookup_eq_none_iff (h : Indexed d hash names) (k : κ) :
    hash.lookup k = none ↔ k ∉ names := by
  rw [← not_iff_not, not_not, ← Ne, Option.ne_none_iff_exists', List.mem_iff_getElem?]
  constructor
  · rintro ⟨i, hi⟩
    obtain ⟨j, -, hj⟩ := (h k i).mp hi
    exact ⟨j, hj⟩
  · rintro ⟨j, hj⟩
    exact ⟨d + j, (h k (d + j)).mpr ⟨j, rfl, hj⟩⟩

/-- No name is there twice. -/
theorem Indexed.nodup (h : Indexed d hash names) : names.Nodup := by
  rw [List.nodup_iff_getElem?_ne_getElem?]
  intro i j hij hj heq
  have hi := (h _ _).mpr ⟨i, rfl, List.getElem?_eq_getElem (hij.trans hj)⟩
  have hj' := (h names[i] (d + j)).mpr ⟨j, rfl, by rw [← heq, List.getElem?_eq_getElem]⟩
  rw [hi] at hj'
  have := Option.some.inj hj'
  omega

/-- **A new name gets the next number.** -/
theorem Indexed.insert (h : Indexed d hash names) {k : κ} (hk : hash.lookup k = none) :
    Indexed d (hash.insert k (d + names.length)) (names ++ [k]) := by
  intro k' i
  have hnew : k ∉ names := (h.lookup_eq_none_iff k).mp hk
  by_cases hkey : k' = k
  · subst hkey
    rw [AList.lookup_insert]
    constructor
    · intro hi
      obtain rfl := Option.some.inj hi
      exact ⟨names.length, rfl, by simp⟩
    · rintro ⟨j, rfl, hj⟩
      congr 2
      by_contra hne
      rw [List.getElem?_append] at hj
      split_ifs at hj with hlt
      · exact hnew (List.mem_of_getElem? hj)
      · rw [List.getElem?_eq_none (by simp; omega)] at hj
        exact absurd hj (by simp)
  · rw [AList.lookup_insert_ne hkey, h k' i]
    refine exists_congr fun j => and_congr_right fun _ => ?_
    rw [List.getElem?_append]
    split_ifs with hlt
    · rfl
    · constructor
      · intro hj
        rw [List.getElem?_eq_none (by omega)] at hj
        exact absurd hj (by simp)
      · intro hj
        have := List.mem_singleton.mp (List.mem_of_getElem? hj)
        exact absurd this hkey

/-- Numbers that are counted from 0 are the places of the names. -/
theorem Indexed.lookup_eq_iff (h : Indexed 0 hash names) (k : κ) (i : ℕ) :
    hash.lookup k = some i ↔ names[i]? = some k := by
  rw [h k i]
  constructor
  · rintro ⟨j, rfl, hj⟩
    rwa [Nat.zero_add]
  · exact fun hi => ⟨i, (Nat.zero_add i).symm, hi⟩

/-- **All numbers are places of their names** if and only if they are counted from 0, or there
is no name. -/
theorem Indexed.places_iff (h : Indexed d hash names) :
    (∀ k i, hash.lookup k = some i → names[i]? = some k) ↔ d = 0 ∨ names = [] := by
  constructor
  · intro hplaces
    by_contra hno
    obtain ⟨hd, hne⟩ := not_or.mp hno
    obtain ⟨k, rest, rfl⟩ := List.exists_cons_of_ne_nil hne
    have hfirst : (k :: rest)[d]? = some k := hplaces k d ((h k d).mpr ⟨0, rfl, rfl⟩)
    obtain ⟨e, rfl⟩ := Nat.exists_eq_succ_of_ne_zero hd
    rw [List.getElem?_cons_succ] at hfirst
    exact (List.nodup_cons.mp h.nodup).1 (List.mem_of_getElem? hfirst)
  · rintro (rfl | rfl) k i hi
    · exact (h.lookup_eq_iff k i).mp hi
    · obtain ⟨j, -, hj⟩ := (h k i).mp hi
      exact absurd hj (by simp)

/-! ## Changing the names -/

variable (u : κ → κ)

/-- One key is changed: the new one is written, and then the old one taken out. -/
def renameKey (s : Dict κ ℕ × List κ) (k : κ) : Dict κ ℕ × List κ :=
  (s.1.lookup k).elim s fun i => ((s.1.insert (u k) i).erase k, s.2.modify i fun _ => u k)

/-- What has become of the names when the keys in `done` have been changed. -/
structure Renamed (names done : List κ) (s : Dict κ ℕ × List κ) : Prop where
  names_eq : s.2 = names.map fun k => if k ∈ done then u k else k
  lookup_iff : ∀ n i, s.1.lookup n = some i ↔
    n ∉ done ∧ names[i]? = some n ∨ n ∉ names ∧ ∃ k ∈ done, u k = n ∧ names[i]? = some k

variable {u} {done : List κ} {s : Dict κ ℕ × List κ}

/-- **What changing a key does.**  Only the change itself can make two names alike, or make one
of another, so that it must not. -/
theorem Renamed.renameKey (h : Renamed u names done s) (hnodup : names.Nodup)
    (hinj : ∀ k ∈ names, ∀ k' ∈ names, u k = u k' → k = k')
    (hfix : ∀ k ∈ names, u k ∈ names → u k = k) {k : κ} (hk : k ∈ names) (hnew : k ∉ done) :
    Renamed u names (done ++ [k]) (renameKey u s k) := by
  obtain ⟨i, hi⟩ := List.mem_iff_getElem?.mp hk
  have hlookup : s.1.lookup k = some i := (h.lookup_iff k i).mpr (Or.inl ⟨hnew, hi⟩)
  have hplace : ∀ j, names[j]? = some k ↔ j = i := by
    intro j
    constructor
    · intro hj
      have hlt := (List.getElem?_eq_some_iff.mp hj).1
      exact (List.getElem?_inj hlt hnodup).mp (hj.trans hi.symm)
    · rintro rfl
      exact hi
  rw [Interning.renameKey, hlookup, Option.elim_some]
  constructor
  · -- the list
    apply List.ext_getElem?
    intro j
    rw [List.getElem?_modify, h.names_eq, List.getElem?_map, List.getElem?_map]
    cases hj : names[j]? with
    | none => rfl
    | some n =>
      by_cases hij : i = j
      · subst hij
        obtain rfl := Option.some.inj (hj.symm.trans hi)
        simp
      · have hne : n ≠ k := by
          rintro rfl
          exact hij ((hplace j).mp hj).symm
        simp [hij, hne]
  · -- the dictionary
    intro n j
    by_cases hnk : n = k
    · subst hnk
      rw [AList.lookup_erase]
      simp [hk]
    · rw [AList.lookup_erase_ne hnk]
      by_cases hnu : n = u k
      · subst hnu
        have hout : u k ∉ names := fun hmem => hnk (hfix k hk hmem)
        rw [AList.lookup_insert, Option.some.injEq, eq_comm, ← hplace j]
        constructor
        · exact fun hj => Or.inr ⟨hout, k, by simp, rfl, hj⟩
        · rintro (⟨-, hj⟩ | ⟨-, k', -, heq, hj⟩)
          · exact absurd (List.mem_of_getElem? hj) hout
          · rwa [hinj k hk k' (List.mem_of_getElem? hj) heq.symm]
      · rw [AList.lookup_insert_ne hnu, h.lookup_iff n j]
        have hsame : (∃ k' ∈ done ++ [k], u k' = n ∧ names[j]? = some k') ↔
            ∃ k' ∈ done, u k' = n ∧ names[j]? = some k' := by
          constructor
          · rintro ⟨k', hk', heq, hj⟩
            rcases List.mem_append.mp hk' with hk' | hk'
            · exact ⟨k', hk', heq, hj⟩
            · rw [List.mem_singleton.mp hk'] at heq
              exact absurd heq.symm hnu
          · rintro ⟨k', hk', heq⟩
            exact ⟨k', List.mem_append_left _ hk', heq⟩
        rw [hsame]
        simp [hnk]

/-- **All keys changed**, in any order: the list has all names changed, and the dictionary has
those of them that were no names before. -/
theorem foldl_renameKey (h : Indexed 0 hash names)
    (hinj : ∀ k ∈ names, ∀ k' ∈ names, u k = u k' → k = k')
    (hfix : ∀ k ∈ names, u k ∈ names → u k = k) {keys : List κ} (hkeys : keys.Nodup)
    (hmem : ∀ k, k ∈ keys ↔ k ∈ names) :
    (keys.foldl (renameKey u) (hash, names)).2 = names.map u ∧
      ∀ n i, (keys.foldl (renameKey u) (hash, names)).1.lookup n = some i ↔
        n ∉ names ∧ (names.map u)[i]? = some n := by
  have hstart : Renamed u names [] (hash, names) := by
    refine ⟨by simp, fun n i => ?_⟩
    rw [h.lookup_eq_iff]
    simp
  have hall : ∀ (todo done : List κ) (s : Dict κ ℕ × List κ), Renamed u names done s →
      (done ++ todo).Nodup → (∀ k ∈ todo, k ∈ names) →
      Renamed u names (done ++ todo) (todo.foldl (renameKey u) s) := by
    intro todo
    induction todo with
    | nil =>
      intro done s hs _ _
      rwa [List.append_nil]
    | cons k todo ih =>
      intro done s hs hnodup htodo
      have hnew : k ∉ done := by
        intro hk
        exact (List.nodup_append.mp hnodup).2.2 k hk k List.mem_cons_self rfl
      have hnext := hs.renameKey h.nodup hinj hfix (htodo k List.mem_cons_self) hnew
      have hrest := ih (done ++ [k]) _ hnext (by simpa using hnodup)
        fun k' hk' => htodo k' (List.mem_cons_of_mem _ hk')
      rwa [List.append_assoc, List.singleton_append] at hrest
  have hend := hall keys [] _ hstart hkeys fun k hk => (hmem k).mp hk
  rw [List.nil_append] at hend
  constructor
  · rw [hend.names_eq]
    exact List.map_congr_left fun k hk => if_pos ((hmem k).mpr hk)
  · intro n i
    rw [hend.lookup_iff, List.getElem?_map, Option.map_eq_some_iff]
    constructor
    · rintro (⟨hn, hi⟩ | ⟨hn, k, -, heq, hi⟩)
      · exact absurd ((hmem n).mpr (List.mem_of_getElem? hi)) hn
      · exact ⟨hn, k, hi, heq⟩
    · rintro ⟨hn, k, hi, heq⟩
      exact Or.inr ⟨hn, k, (hmem k).mpr (List.mem_of_getElem? hi), heq, hi⟩

end Interning
