/-
# Trees listed with their levels

A tree whose branches may be cut off, listed from the top, each label with its level.  A line of
the list stands for the branch from the root to its node (`levels_eq`), and the list is the same
for two trees exactly if they only differ in what is cut off (`levels_eq_iff`).

Trees that are unfolded from a relation, down to a given depth, have one branch for each chain
of the relation (`mem_branches_unfold_iff`, `nodup_branches_unfold`).
-/
import Mathlib

/-- A tree, or a place where one is cut off. -/
inductive LevelTree (α : Type*)
  | cut
  | node (a : α) (children : List (LevelTree α))

namespace LevelTree

variable {α : Type*}

/-- Induction, with the children of a node together. -/
@[elab_as_elim, induction_eliminator]
theorem induct {P : LevelTree α → Prop} (cut : P .cut)
    (node : ∀ a children, (∀ c ∈ children, P c) → P (.node a children)) :
    ∀ t, P t
  | .cut => cut
  | .node a children => node a children fun c _ => induct cut node c

/-! ## Listing -/

mutual

/-- The labels with their levels, from the top; the root is at level `l`. -/
def levels (l : ℕ) : LevelTree α → List (α × ℕ)
  | .cut => []
  | .node a children => (a, l) :: levelsAll (l + 1) children

/-- The lists of several trees, one after the other. -/
def levelsAll (l : ℕ) : List (LevelTree α) → List (α × ℕ)
  | [] => []
  | c :: cs => levels l c ++ levelsAll l cs

end

theorem levelsAll_eq (l : ℕ) (cs : List (LevelTree α)) : levelsAll l cs = cs.flatMap (levels l) := by
  induction cs with
  | nil => rfl
  | cons c cs ih => rw [levelsAll, ih, List.flatMap_cons]

theorem levels_node (l : ℕ) (a : α) (children : List (LevelTree α)) :
    levels l (.node a children) = (a, l) :: children.flatMap (levels (l + 1)) := by
  rw [levels, levelsAll_eq]

mutual

/-- The branches from the root to the nodes, in the order of the list. -/
def branches : LevelTree α → List (List α)
  | .cut => []
  | .node a children => [a] :: (branchesAll children).map (a :: ·)

/-- The branches of several trees. -/
def branchesAll : List (LevelTree α) → List (List α)
  | [] => []
  | c :: cs => branches c ++ branchesAll cs

end

theorem branchesAll_eq (cs : List (LevelTree α)) : branchesAll cs = cs.flatMap branches := by
  induction cs with
  | nil => rfl
  | cons c cs ih => rw [branchesAll, ih, List.flatMap_cons]

theorem branches_node (a : α) (children : List (LevelTree α)) :
    branches (.node a children) = [a] :: (children.flatMap branches).map (a :: ·) := by
  rw [branches, branchesAll_eq]

theorem branch_ne_nil {t : LevelTree α} {b : List α} (h : b ∈ t.branches) : b ≠ [] := by
  cases t with
  | cut => exact absurd h List.not_mem_nil
  | node a children =>
    rw [branches_node, List.mem_cons, List.mem_map] at h
    rcases h with rfl | ⟨_, _, rfl⟩ <;> exact List.cons_ne_nil _ _

/-- The line for a branch: its last label, and its level. -/
def line (l : ℕ) (b : List α) : Option (α × ℕ) := b.getLast?.map fun a => (a, l + (b.length - 1))

/-- **Each line stands for a branch.** -/
theorem levels_eq (l : ℕ) (t : LevelTree α) :
    (levels l t).map some = t.branches.map (line l) := by
  induction t generalizing l with
  | cut => rfl
  | node a children ih =>
    rw [levels_node, branches_node, List.map_cons, List.map_cons, List.map_flatMap, List.map_map,
      List.map_flatMap]
    congr 1
    apply List.flatMap_congr
    intro c hc
    rw [ih c hc]
    apply List.map_congr_left
    intro b hb
    obtain ⟨x, rest, rfl⟩ := List.exists_cons_of_ne_nil (branch_ne_nil hb)
    have hlevel : l + 1 + ((x :: rest).length - 1) = l + ((a :: x :: rest).length - 1) := by
      simp only [List.length_cons]
      omega
    rw [Function.comp_apply, line, line, hlevel, List.getLast?_cons_cons]

/-! ## What is cut off -/

mutual

/-- The tree without the places where something is cut off. -/
def pruned : LevelTree α → Option (LevelTree α)
  | .cut => none
  | .node a children => some (.node a (prunedAll children))

/-- The trees that are not cut off. -/
def prunedAll : List (LevelTree α) → List (LevelTree α)
  | [] => []
  | c :: cs => (pruned c).toList ++ prunedAll cs

end

/-- All levels are at or below that of the root. -/
theorem le_of_mem_levels {t : LevelTree α} {l : ℕ} {p : α × ℕ} (h : p ∈ levels l t) :
    l ≤ p.2 := by
  induction t generalizing l with
  | cut => exact absurd h List.not_mem_nil
  | node a children ih =>
    rw [levels_node, List.mem_cons, List.mem_flatMap] at h
    rcases h with rfl | ⟨c, hc, h⟩
    · exact le_rfl
    · exact (Nat.le_succ l).trans (ih c hc h)

/-- All levels above that of a line occur too. -/
theorem exists_mem_levels_of_le {t : LevelTree α} {l : ℕ} {p : α × ℕ} (h : p ∈ levels l t) {j : ℕ}
    (hl : l ≤ j) (hj : j ≤ p.2) : ∃ q ∈ levels l t, q.2 = j := by
  induction t generalizing l with
  | cut => exact absurd h List.not_mem_nil
  | node a children ih =>
    rw [levels_node] at h ⊢
    rcases Nat.eq_or_lt_of_le hl with rfl | hl
    · exact ⟨_, List.mem_cons_self, rfl⟩
    · rcases List.mem_cons.mp h with rfl | h
      · exact absurd hj (by omega)
      · obtain ⟨c, hc, hp⟩ := List.mem_flatMap.mp h
        obtain ⟨q, hq, hqj⟩ := ih c hc hp hl
        exact ⟨q, List.mem_cons_of_mem _ (List.mem_flatMap.mpr ⟨c, hc, hq⟩), hqj⟩

/-- Below its root a tree has no line on the level of the root. -/
theorem levels_eq_cons {t : LevelTree α} {l : ℕ} {p : α × ℕ} {ps : List (α × ℕ)}
    (h : levels l t = p :: ps) : p.2 = l ∧ ∀ q ∈ ps, l < q.2 := by
  cases t with
  | cut => exact absurd h (by simp [levels])
  | node a children =>
    rw [levels_node] at h
    obtain ⟨rfl, rfl⟩ := List.cons.inj h
    refine ⟨rfl, ?_⟩
    intro q hq
    obtain ⟨c, -, hq⟩ := List.mem_flatMap.mp hq
    exact le_of_mem_levels hq

/-- **From one line to the next** the level goes up by one at most. -/
theorem isChain_levels (l : ℕ) (t : LevelTree α) :
    (levels l t).IsChain fun p q => q.2 ≤ p.2 + 1 := by
  induction t generalizing l with
  | cut => exact List.isChain_nil
  | node a children ih =>
    have hhead : ∀ c : LevelTree α, ∀ q ∈ (levels (l + 1) c).head?, q.2 = l + 1 := by
      intro c q hq
      cases hc : levels (l + 1) c with
      | nil => simp [hc] at hq
      | cons p ps =>
        rw [hc, List.head?_cons, Option.mem_some_iff] at hq
        subst hq
        exact (levels_eq_cons hc).1
    have hall : (children.flatMap (levels (l + 1))).IsChain (fun p q => q.2 ≤ p.2 + 1) ∧
        ∀ q ∈ (children.flatMap (levels (l + 1))).head?, q.2 = l + 1 := by
      induction children with
      | nil => exact ⟨List.isChain_nil, fun q hq => absurd hq (by simp)⟩
      | cons c cs ihcs =>
        obtain ⟨hchain, hfirst⟩ := ihcs fun c' hc' => ih c' (List.mem_cons_of_mem _ hc')
        rw [List.flatMap_cons]
        refine ⟨(ih c List.mem_cons_self (l + 1)).append hchain ?_, ?_⟩
        · intro p hp q hq
          have := le_of_mem_levels (List.mem_of_mem_getLast? hp)
          rw [hfirst q hq]
          omega
        · intro q hq
          cases hc : levels (l + 1) c with
          | nil =>
            rw [hc, List.nil_append] at hq
            exact hfirst q hq
          | cons p ps =>
            rw [hc, List.cons_append, List.head?_cons] at hq
            apply hhead c
            rw [hc, List.head?_cons]
            exact hq
    rw [levels_node]
    cases hkids : children.flatMap (levels (l + 1)) with
    | nil => exact List.isChain_singleton _
    | cons q qs =>
      rw [hkids] at hall
      rw [List.isChain_cons_cons]
      exact ⟨(hall.2 q rfl).le, hall.1⟩

theorem le_of_mem_levelsAll {cs : List (LevelTree α)} {l : ℕ} {p : α × ℕ}
    (h : p ∈ levelsAll l cs) : l ≤ p.2 := by
  rw [levelsAll_eq] at h
  obtain ⟨c, -, hp⟩ := List.mem_flatMap.mp h
  exact le_of_mem_levels hp

/-- The first tree of a list that is not cut off, and what is listed for it. -/
theorem levelsAll_cases (l : ℕ) (cs : List (LevelTree α)) :
    (levelsAll l cs = [] ∧ prunedAll cs = []) ∨
      ∃ a kids rest, levelsAll l cs = (a, l) :: (levelsAll (l + 1) kids ++ levelsAll l rest) ∧
        prunedAll cs = .node a (prunedAll kids) :: prunedAll rest := by
  induction cs with
  | nil => exact Or.inl ⟨rfl, rfl⟩
  | cons c cs ih =>
    cases c with
    | cut => exact ih
    | node a kids => exact Or.inr ⟨a, kids, cs, rfl, rfl⟩

/-- The lines of the children of the first tree are those below its level. -/
theorem takeWhile_levelsAll (l : ℕ) (kids rest : List (LevelTree α)) :
    (levelsAll (l + 1) kids ++ levelsAll l rest).takeWhile (fun p => decide (l < p.2)) =
      levelsAll (l + 1) kids := by
  have hkids : ∀ p ∈ levelsAll (l + 1) kids, decide (l < p.2) = true := by
    intro p hp
    exact decide_eq_true (le_of_mem_levelsAll hp)
  rw [List.takeWhile_append_of_pos hkids]
  rcases levelsAll_cases l rest with ⟨hnil, -⟩ | ⟨a, kids', rest', hcons, -⟩
  · rw [hnil, List.takeWhile_nil, List.append_nil]
  · rw [hcons, List.takeWhile_cons_of_neg (by simp), List.append_nil]

theorem prunedAll_eq_of_levelsAll_eq {l : ℕ} {cs cs' : List (LevelTree α)}
    (h : levelsAll l cs = levelsAll l cs') : prunedAll cs = prunedAll cs' := by
  -- on the length of the list, as children and later trees have shorter ones
  induction hn : (levelsAll l cs).length using Nat.strong_induction_on generalizing l cs cs' with
  | _ n ih =>
    rcases levelsAll_cases l cs with ⟨hnil, hpruned⟩ | ⟨a, kids, rest, hcons, hpruned⟩ <;>
      rcases levelsAll_cases l cs' with ⟨hnil', hpruned'⟩ | ⟨a', kids', rest', hcons', hpruned'⟩
    · rw [hpruned, hpruned']
    · rw [hnil, hcons'] at h
      exact absurd h (by simp)
    · rw [hcons, hnil'] at h
      exact absurd h (by simp)
    · rw [hcons, hcons'] at h
      obtain ⟨hhead, htail⟩ := List.cons.inj h
      obtain rfl := (Prod.mk.inj hhead).1
      have hkids : levelsAll (l + 1) kids = levelsAll (l + 1) kids' := by
        rw [← takeWhile_levelsAll l kids rest, htail, takeWhile_levelsAll]
      have hrest : levelsAll l rest = levelsAll l rest' := by
        rw [hkids] at htail
        exact List.append_cancel_left htail
      rw [hcons, List.length_cons, List.length_append] at hn
      rw [hpruned, hpruned', ih _ (by omega) hkids rfl, ih _ (by omega) hrest rfl]

theorem levelsAll_prunedAll {cs : List (LevelTree α)} (l : ℕ)
    (h : ∀ c ∈ cs, ∀ l, (pruned c).elim [] (levels l) = levels l c) :
    levelsAll l (prunedAll cs) = levelsAll l cs := by
  induction cs with
  | nil => rfl
  | cons c cs ih =>
    have hc := h c List.mem_cons_self l
    rw [levelsAll, ← ih fun c' hc' => h c' (List.mem_cons_of_mem _ hc'), ← hc, prunedAll]
    cases pruned c with
    | none => rfl
    | some t => rfl

/-- Cut places leave no lines. -/
theorem levels_pruned (l : ℕ) (t : LevelTree α) : (pruned t).elim [] (levels l) = levels l t := by
  induction t generalizing l with
  | cut => rfl
  | node a children ih =>
    rw [pruned, Option.elim_some, levels, levels,
      levelsAll_prunedAll (l + 1) fun c hc l => ih c hc l]

/-- **The list determines the tree**, but for what is cut off. -/
theorem levels_eq_iff (l : ℕ) (t t' : LevelTree α) :
    levels l t = levels l t' ↔ pruned t = pruned t' := by
  constructor
  · intro h
    have hone : ∀ u : LevelTree α, prunedAll [u] = (pruned u).toList := fun u => List.append_nil _
    have hlists : levelsAll l [t] = levelsAll l [t'] := by simp only [levelsAll, h]
    have hall := prunedAll_eq_of_levelsAll_eq hlists
    rw [hone, hone] at hall
    simpa using congrArg List.head? hall
  · intro h
    rw [← levels_pruned, h, levels_pruned]

/-! ## Climbing to the root -/

/-- The lines that are found going up from level `d`: the next one at that level, then the next
one at the level above it, and so on. -/
def climb : ℤ → List (α × ℕ) → List (α × ℕ)
  | _, [] => []
  | d, p :: ps => if d = p.2 then p :: climb (d - 1) ps else climb d ps

/-- What is found does not depend on the labels. -/
theorem climb_map {β : Type*} (f : α → β) (d : ℤ) (ps : List (α × ℕ)) :
    climb d (ps.map (Prod.map f id)) = (climb d ps).map (Prod.map f id) := by
  induction ps generalizing d with
  | nil => rfl
  | cons p ps ih =>
    rw [List.map_cons, climb, climb]
    split_ifs with h h' h'
    · rw [ih, List.map_cons]
    · exact absurd h h'
    · exact absurd h' h
    · exact ih d

theorem climb_sublist (d : ℤ) (ps : List (α × ℕ)) : (climb d ps).Sublist ps := by
  induction ps generalizing d with
  | nil => exact List.Sublist.slnil
  | cons p ps ih =>
    rw [climb]
    split_ifs
    · exact (ih _).cons_cons p
    · exact (ih _).cons p

theorem le_of_mem_climb {d : ℤ} {ps : List (α × ℕ)} {q : α × ℕ} (h : q ∈ climb d ps) :
    (q.2 : ℤ) ≤ d := by
  induction ps generalizing d with
  | nil => exact absurd h List.not_mem_nil
  | cons p ps ih =>
    rw [climb] at h
    split_ifs at h with hd
    · rcases List.mem_cons.mp h with rfl | h
      · exact hd.ge
      · have := ih h
        omega
    · exact ih h

/-- All lines that are passed on the way up to a line of the branch are below it. -/
theorem exists_of_mem_climb {d : ℤ} {ps : List (α × ℕ)} {q : α × ℕ}
    (hchain : ps.IsChain fun p p' => p.2 ≤ p'.2 + 1) (hhead : ∀ p ∈ ps.head?, d ≤ p.2)
    (h : q ∈ climb d ps) : ∃ front rest, ps = front ++ q :: rest ∧ ∀ p ∈ front, q.2 < p.2 := by
  induction ps generalizing d with
  | nil => exact absurd h List.not_mem_nil
  | cons p ps ih =>
    obtain ⟨hnext, hlater⟩ := List.isChain_cons.mp hchain
    have hd : d ≤ p.2 := hhead p rfl
    -- what is found further up is above the line
    have hup : ∀ d' : ℤ, (∀ p' ∈ ps.head?, d' ≤ p'.2) → d' < p.2 → q ∈ climb d' ps →
        ∃ front rest, p :: ps = front ++ q :: rest ∧ ∀ p ∈ front, q.2 < p.2 := by
      intro d' hhead' hd' hq
      obtain ⟨front, rest, rfl, hfront⟩ := ih hlater hhead' hq
      refine ⟨p :: front, rest, rfl, fun p' hp' => ?_⟩
      rcases List.mem_cons.mp hp' with rfl | hp'
      · have := le_of_mem_climb hq
        omega
      · exact hfront p' hp'
    rw [climb] at h
    split_ifs at h with heq
    · rcases List.mem_cons.mp h with rfl | h
      · exact ⟨[], ps, rfl, fun p' hp' => absurd hp' List.not_mem_nil⟩
      · exact hup (d - 1) (fun p' hp' => by have := hnext p' hp'; omega) (by omega) h
    · exact hup d (fun p' hp' => by have := hnext p' hp'; omega) (by omega) h

/-- Lines further down are passed over. -/
theorem climb_append {d : ℤ} {ps : List (α × ℕ)} (h : ∀ p ∈ ps, d < p.2) (up : List (α × ℕ)) :
    climb d (ps ++ up) = climb d up := by
  induction ps with
  | nil => rfl
  | cons p ps ih =>
    have hp := h p List.mem_cons_self
    rw [List.cons_append, climb, if_neg (by omega),
      ih fun p' hp' => h p' (List.mem_cons_of_mem _ hp')]

/-- Going up from a line of one of several trees. -/
theorem climb_levelsAll {l : ℕ} {cs : List (LevelTree α)}
    (ih : ∀ c ∈ cs, ∀ front p rest, levels l c = front ++ p :: rest → ∀ up,
      ∃ found, climb p.2 (p :: (front.reverse ++ up)) = found ++ climb (l - 1) up ∧
        c.branches[front.length]? = some (found.reverse.map Prod.fst))
    {front rest : List (α × ℕ)} {p : α × ℕ} (h : levelsAll l cs = front ++ p :: rest)
    (up : List (α × ℕ)) :
    ∃ found, climb p.2 (p :: (front.reverse ++ up)) = found ++ climb (l - 1) up ∧
      (branchesAll cs)[front.length]? = some (found.reverse.map Prod.fst) := by
  induction cs generalizing front up with
  | nil => exact absurd h (by simp [levelsAll])
  | cons c cs ihcs =>
    have hlength : (levels l c).length = c.branches.length := by
      simpa using congrArg List.length (levels_eq l c)
    have hlater : ∀ more, front = levels l c ++ more → levelsAll l cs = more ++ p :: rest →
        ∃ found, climb p.2 (p :: (front.reverse ++ up)) = found ++ climb (l - 1) up ∧
          (branchesAll (c :: cs))[front.length]? = some (found.reverse.map Prod.fst) := by
      rintro more rfl hmore
      obtain ⟨found, hclimb, hbranch⟩ := ihcs (fun c' hc' => ih c' (List.mem_cons_of_mem _ hc'))
        hmore ((levels l c).reverse ++ up)
      refine ⟨found, ?_, ?_⟩
      · rw [List.reverse_append, List.append_assoc, hclimb, climb_append]
        intro p' hp'
        have := le_of_mem_levels (List.mem_reverse.mp hp')
        omega
      · rw [branchesAll, List.length_append, hlength, List.getElem?_append_right (by omega),
          Nat.add_sub_cancel_left, hbranch]
    rw [levelsAll] at h
    rcases List.append_eq_append_iff.mp h with ⟨more, hfront, hmore⟩ | ⟨more, hfront, hmore⟩
    · exact hlater more hfront hmore
    · cases more with
      | nil => exact hlater [] (by simpa using hfront.symm) hmore.symm
      | cons p' more =>
        obtain ⟨rfl, -⟩ := List.cons.inj hmore
        obtain ⟨found, hclimb, hbranch⟩ := ih c List.mem_cons_self _ _ _ hfront up
        refine ⟨found, hclimb, ?_⟩
        have hlt : front.length < c.branches.length := by
          rw [← hlength, hfront, List.length_append, List.length_cons]
          omega
        rw [branchesAll, List.getElem?_append_left hlt, hbranch]

/-- **Going up from a line finds its branch**, and goes on above the root. -/
theorem climb_levels {l : ℕ} {t : LevelTree α} {front rest : List (α × ℕ)} {p : α × ℕ}
    (h : levels l t = front ++ p :: rest) (up : List (α × ℕ)) :
    ∃ found, climb p.2 (p :: (front.reverse ++ up)) = found ++ climb (l - 1) up ∧
      t.branches[front.length]? = some (found.reverse.map Prod.fst) := by
  induction t generalizing l front p rest up with
  | cut => exact absurd h (by simp [levels])
  | node a children ih =>
    rw [levels] at h
    cases front with
    | nil =>
      obtain ⟨rfl, -⟩ := List.cons.inj h
      exact ⟨[(a, l)], by simp [climb], by simp [branches]⟩
    | cons q front =>
      obtain ⟨rfl, hchildren⟩ := List.cons.inj h
      obtain ⟨found, hclimb, hbranch⟩ := climb_levelsAll
        (fun c hc front p rest hlevels up => ih c hc hlevels up) hchildren ((a, l) :: up)
      refine ⟨found ++ [(a, l)], ?_, ?_⟩
      · rw [List.reverse_cons, List.append_assoc, List.singleton_append, hclimb]
        simp [climb]
      · rw [branches, List.length_cons, List.getElem?_cons_succ, List.getElem?_map, hbranch]
        simp

/-! ## Unfolding -/

/-- The tree below `a`, down to `n` levels: `next` gives the children of a label, or cuts it
off. -/
def unfold (next : α → Option (List α)) : ℕ → α → LevelTree α
  | 0, _ => .cut
  | n + 1, a => (next a).elim .cut fun as => .node a (as.map (unfold next n))

/-- One label comes below another. -/
def Follows (next : α → Option (List α)) (a a' : α) : Prop := ∃ as, next a = some as ∧ a' ∈ as

/-- An unfolded tree has no more levels than it was unfolded to. -/
theorem lt_of_mem_levels_unfold {next : α → Option (List α)} {n l : ℕ} {a : α} {p : α × ℕ}
    (h : p ∈ levels l (unfold next n a)) : p.2 < l + n := by
  induction n generalizing l a with
  | zero => exact absurd h List.not_mem_nil
  | succ n ih =>
    rw [unfold] at h
    cases hnext : next a with
    | none =>
      rw [hnext] at h
      exact absurd h List.not_mem_nil
    | some as =>
      rw [hnext, Option.elim_some, levels_node] at h
      rcases List.mem_cons.mp h with rfl | h
      · show l < _
        omega
      · obtain ⟨c, hc, hp⟩ := List.mem_flatMap.mp h
        obtain ⟨a', -, rfl⟩ := List.mem_map.mp hc
        have := ih hp
        omega

/-- **The upper levels** of an unfolded tree are those of the tree that is unfolded no further. -/
theorem filter_levels_unfold (next : α → Option (List α)) (n k l : ℕ) (a : α) :
    (levels l (unfold next n a)).filter (fun p => p.2 < l + k) =
      levels l (unfold next (min n k) a) := by
  induction n generalizing k l a with
  | zero => rw [Nat.zero_min]; rfl
  | succ n ih =>
    cases k with
    | zero =>
      rw [List.filter_eq_nil_iff.mpr]
      · rfl
      · intro p hp
        have hle := le_of_mem_levels hp
        simpa using hle
    | succ k =>
      rw [Nat.succ_min_succ, unfold, unfold]
      cases next a with
      | none => rfl
      | some as =>
        rw [Option.elim_some, Option.elim_some, levels_node, levels_node,
          List.filter_cons_of_pos (by simp), List.flatMap_map, List.flatMap_map,
          List.filter_flatMap]
        congr 1
        refine List.flatMap_congr fun a' _ => ?_
        rw [← ih k (l + 1) a']
        refine List.filter_congr fun p _ => ?_
        rw [Nat.add_right_comm, Nat.add_assoc]

/-- **The branches are the chains** of at most `n` labels that are not cut off. -/
theorem mem_branches_unfold_iff {next : α → Option (List α)} {n : ℕ} {a : α} {b : List α} :
    b ∈ (unfold next n a).branches ↔
      b.head? = some a ∧ b.length ≤ n ∧ b.IsChain (Follows next) ∧ ∀ x ∈ b, (next x).isSome := by
  induction n generalizing a b with
  | zero =>
    constructor
    · exact fun h => absurd h List.not_mem_nil
    · rintro ⟨hhead, hlen, -⟩
      rw [List.eq_nil_of_length_eq_zero (Nat.le_zero.mp hlen)] at hhead
      exact absurd hhead (by simp)
  | succ n ih =>
    rw [unfold]
    cases hnext : next a with
    | none =>
      constructor
      · exact fun h => absurd h List.not_mem_nil
      · rintro ⟨hhead, -, -, hall⟩
        have hsome := hall a (List.mem_of_mem_head? hhead)
        rw [hnext] at hsome
        exact absurd hsome (by simp)
    | some as =>
      rw [Option.elim_some, branches_node, List.mem_cons, List.mem_map]
      simp only [List.mem_flatMap, List.mem_map, exists_exists_and_eq_and, ih]
      constructor
      · rintro (rfl | ⟨b', ⟨a', ha', hhead, hlen, hchain, hall⟩, rfl⟩)
        · simp [hnext]
        · obtain ⟨rest, rfl⟩ : ∃ rest, b' = a' :: rest := by
            cases b' with
            | nil => exact absurd hhead (by simp)
            | cons x rest => exact ⟨rest, by rw [Option.some.inj hhead]⟩
          refine ⟨rfl, by simpa using hlen, ?_, ?_⟩
          · exact List.isChain_cons_cons.mpr ⟨⟨as, hnext, ha'⟩, hchain⟩
          · intro x hx
            rcases List.mem_cons.mp hx with rfl | hx
            · rw [hnext]
              rfl
            · exact hall x hx
      · rintro ⟨hhead, hlen, hchain, hall⟩
        cases b with
        | nil => exact absurd hhead (by simp)
        | cons x rest =>
          obtain rfl := Option.some.inj hhead
          cases rest with
          | nil => exact Or.inl rfl
          | cons a' rest =>
            obtain ⟨⟨as', has', ha'⟩, hchain'⟩ := List.isChain_cons_cons.mp hchain
            obtain rfl := Option.some.inj (hnext.symm.trans has')
            refine Or.inr ⟨a' :: rest, ⟨a', ha', rfl, by simpa using hlen, hchain', ?_⟩, rfl⟩
            exact fun y hy => hall y (List.mem_cons_of_mem _ hy)

/-- **No branch is there twice** if no label has a child twice. -/
theorem nodup_branches_unfold {next : α → Option (List α)}
    (hnext : ∀ a as, next a = some as → as.Nodup) (n : ℕ) (a : α) :
    (unfold next n a).branches.Nodup := by
  induction n generalizing a with
  | zero => exact List.nodup_nil
  | succ n ih =>
    rw [unfold]
    cases has : next a with
    | none => exact List.nodup_nil
    | some as =>
      rw [Option.elim_some, branches_node, List.nodup_cons]
      constructor
      · intro hmem
        obtain ⟨b, hb, heq⟩ := List.mem_map.mp hmem
        obtain ⟨c, -, hb⟩ := List.mem_flatMap.mp hb
        exact branch_ne_nil hb (List.cons.inj heq).2
      · apply List.Nodup.map (List.cons_injective)
        rw [List.nodup_flatMap]
        constructor
        · intro c hc
          obtain ⟨a', -, rfl⟩ := List.mem_map.mp hc
          exact ih a'
        · rw [List.pairwise_map]
          -- branches below different children start with different labels
          refine (hnext a as has).imp fun {x y} hxy => ?_
          intro b hx hy
          have hheadx := (mem_branches_unfold_iff.mp hx).1
          have hheady := (mem_branches_unfold_iff.mp hy).1
          exact hxy (Option.some.inj (hheadx.symm.trans hheady))

end LevelTree
