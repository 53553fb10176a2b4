/-
# The folds of the window

`src/shell/.vim/plugin/cctree.vim`: each line of the window starts a fold, by its level
(`s:CCTreeFoldExpr`).  A fold that has a line of a tree in it also has all lines below that one
(`covers_of_below`), and the root, which has the level of its children, is in no fold of two
lines.  So whichever folds the user has closed, no line of the branch of a visible line is hidden
(`shown_of_folds`), and the marks are those of the branch under the cursor (`marked_folds`).
-/
import LeakimMisc.CCTreeMarks

open LevelTree

namespace CCTree

/-! ## Folds -/

/-- The fold that starts at line `i` has line `j`: `lvl` is the level of the fold that starts at
a line, and a fold ends where one starts that is not deeper. -/
def Covers (lvl : ℕ → ℕ) (i j : ℕ) : Prop :=
  0 < lvl i ∧ i ≤ j ∧ ∀ k ≤ j, i < k → lvl i < lvl k

instance (lvl : ℕ → ℕ) (i j : ℕ) : Decidable (Covers lvl i j) :=
  inferInstanceAs (Decidable (_ ∧ _ ∧ _))

/-- Line `j` is in one of the folds that are shut; a fold of one line is shown as it is. -/
def InClosedFold (lvl : ℕ → ℕ) (shut : ℕ → Bool) (j : ℕ) : Prop :=
  ∃ i ≤ j, shut i = true ∧ Covers lvl i j ∧ Covers lvl i (i + 1)

instance (lvl : ℕ → ℕ) (shut : ℕ → Bool) (j : ℕ) : Decidable (InClosedFold lvl shut j) :=
  inferInstanceAs (Decidable (∃ i ≤ j, _))

/-- `s:CCTreeFoldExpr`: a fold of this level starts at the line.  Behind the lines of the tree it
fails, and there is no fold. -/
def foldExpr (treelist : List (Text × ℕ)) (row : ℕ) : ℕ :=
  treelist[row]?.elim 0 fun p => if p.2 = 0 then 1 else p.2

/-- Which lines are in closed folds. -/
def foldclosed (treelist : List (Text × ℕ)) (shut : ℕ → Bool) (row : ℕ) : Bool :=
  decide (InClosedFold (foldExpr treelist) shut row)

/-- A cursor in the window, with some of the folds closed. -/
def Folded (treelist : List (Text × ℕ)) (cur : Cursor) : Prop :=
  ∃ shut, cur.closed = foldclosed treelist shut

/-! ## What the folds hide -/

/-- **A fold goes on** through what is below one of its lines. -/
theorem Covers.trans {lvl : ℕ → ℕ} {i r j : ℕ} (h : Covers lvl i r) (hrj : r ≤ j)
    (hbelow : ∀ k ≤ j, r < k → lvl r < lvl k) : Covers lvl i j := by
  obtain ⟨hpos, hir, hin⟩ := h
  refine ⟨hpos, hir.trans hrj, fun k hkj hik => ?_⟩
  rcases Nat.lt_or_ge r k with hrk | hkr
  · have hr : lvl i ≤ lvl r := by
      rcases Nat.eq_or_lt_of_le hir with rfl | hlt
      · exact le_rfl
      · exact (hin r le_rfl hlt).le
    exact hr.trans_lt (hbelow k hkj hrk)
  · exact hin k hkr hik

variable {t : LevelTree Text} {cur : Cursor}

theorem foldExpr_eq {treelist : List (Text × ℕ)} {row : ℕ} {p : Text × ℕ}
    (h : treelist[row]? = some p) : foldExpr treelist row = if p.2 = 0 then 1 else p.2 := by
  rw [foldExpr, h, Option.elim_some]

theorem length_seenUp {treelist : List (Text × ℕ)} (hrow : cur.row < treelist.length) :
    (seenUp treelist cur).length = cur.row + 1 := by
  rw [seenUp, List.length_reverse, List.length_map, List.length_zipIdx, List.length_take]
  omega

/-- The entries from that of the cursor up, by their lines. -/
theorem getElem?_seenUp {treelist : List (Text × ℕ)} {i : ℕ} {s : (Text × ℕ) × Bool}
    (hrow : cur.row < treelist.length) (h : (seenUp treelist cur)[i]? = some s) :
    i ≤ cur.row ∧ treelist[cur.row - i]? = some s.1 ∧ s.2 = cur.closed (cur.row - i) := by
  have hi := (List.getElem?_eq_some_iff.mp h).1
  rw [length_seenUp hrow] at hi
  have hlen : ((treelist.take (cur.row + 1)).zipIdx.map
      fun x => (x.1, cur.closed x.2)).length = cur.row + 1 := by
    rw [List.length_map, List.length_zipIdx, List.length_take]
    omega
  rw [seenUp, List.getElem?_reverse (by omega), hlen, List.getElem?_map,
    List.getElem?_zipIdx, List.getElem?_take_of_lt (by omega)] at h
  have hsub : cur.row + 1 - 1 - i = cur.row - i := by omega
  rw [hsub] at h
  refine ⟨by omega, ?_⟩
  cases hp : treelist[cur.row - i]? with
  | none => simp [hp] at h
  | some p =>
    rw [hp] at h
    obtain rfl := Option.some.inj h
    exact ⟨rfl, by simp⟩

/-- The root is in no fold of two lines. -/
theorem not_covers_root {a : Text} (hroot : (levels 0 t)[0]? = some (a, 0)) :
    ¬ (Covers (foldExpr (levels 0 t)) 0 0 ∧ Covers (foldExpr (levels 0 t)) 0 1) := by
  rintro ⟨-, -, -, hin⟩
  have hlt := hin 1 le_rfl Nat.zero_lt_one
  have hzero : foldExpr (levels 0 t) 0 = 1 := foldExpr_eq hroot
  rw [hzero] at hlt
  cases hsecond : (levels 0 t)[1]? with
  | none =>
    rw [foldExpr, hsecond] at hlt
    exact absurd hlt (by simp)
  | some p =>
    rw [foldExpr_eq hsecond] at hlt
    -- the second line is a child of the root
    obtain ⟨rest, hlist⟩ : ∃ rest, levels 0 t = (a, 0) :: p :: rest := by
      match hlevels : levels 0 t, hroot, hsecond with
      | x :: y :: rest, hroot, hsecond =>
        obtain rfl := Option.some.inj hroot
        obtain rfl := Option.some.inj hsecond
        exact ⟨rest, rfl⟩
    have hchain := isChain_levels 0 t
    rw [hlist] at hchain
    have hnext := (List.isChain_cons_cons.mp hchain).1
    dsimp only at hnext
    split_ifs at hlt <;> omega

/-- Only the root is at level 0. -/
theorem eq_zero_of_level {row : ℕ} {p : Text × ℕ} (hrow : (levels 0 t)[row]? = some p)
    (hp : p.2 = 0) : row = 0 := by
  cases hlevels : levels 0 t with
  | nil => simp [hlevels] at hrow
  | cons q rest =>
    by_contra hne
    obtain ⟨n, rfl⟩ := Nat.exists_eq_succ_of_ne_zero hne
    rw [hlevels, List.getElem?_cons_succ] at hrow
    have hdeep := (levels_eq_cons hlevels).2 p (List.mem_of_getElem? hrow)
    omega

/-- **A fold with a line in it has all that is below the line.** -/
theorem covers_of_below {i r j : ℕ} {p : Text × ℕ} (hrj : r ≤ j)
    (hr : (levels 0 t)[r]? = some p)
    (hbelow : ∀ k ≤ j, r < k → ∃ q, (levels 0 t)[k]? = some q ∧ p.2 < q.2)
    (hcovers : Covers (foldExpr (levels 0 t)) i r)
    (hlong : Covers (foldExpr (levels 0 t)) i (i + 1)) :
    Covers (foldExpr (levels 0 t)) i j := by
  have hpos : p.2 ≠ 0 := by
    intro hzero
    obtain rfl := eq_zero_of_level hr hzero
    obtain rfl : i = 0 := Nat.le_zero.mp hcovers.2.1
    exact not_covers_root (a := p.1) (by rw [hr, ← hzero]) ⟨hcovers, hlong⟩
  refine hcovers.trans hrj fun k hkj hrk => ?_
  obtain ⟨q, hk, hlt⟩ := hbelow k hkj hrk
  rw [foldExpr_eq hr, foldExpr_eq hk, if_neg hpos, if_neg (by omega)]
  exact hlt

/-- **No line of the branch of a visible line is hidden**, whichever folds are closed. -/
theorem shown_of_folds (hfold : Folded (levels 0 t) cur) : cur.Shown (levels 0 t) := by
  obtain ⟨shut, hclosed⟩ := hfold
  intro hopen p hp q hq
  have hrow : cur.row < (levels 0 t).length := (List.getElem?_eq_some_iff.mp hp).1
  have hchain : ((seenUp (levels 0 t) cur).map withLevel).IsChain
      fun x x' => x.2 ≤ x'.2 + 1 := by
    rw [List.isChain_map]
    exact isChain_seenUp t cur
  have hhead : ∀ x ∈ ((seenUp (levels 0 t) cur).map withLevel).head?, (p.2 : ℤ) ≤ x.2 := by
    intro x hx
    rw [List.head?_map, Option.mem_def, Option.map_eq_some_iff] at hx
    obtain ⟨s, hs, rfl⟩ := hx
    rw [List.head?_eq_getElem?] at hs
    obtain ⟨-, hs, -⟩ := getElem?_seenUp hrow hs
    rw [Nat.sub_zero, hp] at hs
    obtain rfl := Option.some.inj hs
    exact le_rfl
  -- the entry that was found is that of line `r`, and all lines from there on are below it
  obtain ⟨front, rest, hsplit, hfront⟩ := exists_of_mem_climb hchain hhead hq
  have hentry : ∀ i x, ((seenUp (levels 0 t) cur).map withLevel)[i]? = some x →
      i ≤ cur.row ∧ (levels 0 t)[cur.row - i]? = some x.1.1 ∧ x.2 = x.1.1.2 ∧
        x.1.2 = cur.closed (cur.row - i) := by
    intro i x hx
    rw [List.getElem?_map, Option.map_eq_some_iff] at hx
    obtain ⟨s, hs, rfl⟩ := hx
    obtain ⟨hi, hget, hs2⟩ := getElem?_seenUp hrow hs
    exact ⟨hi, hget, rfl, hs2⟩
  obtain ⟨hi, hr, hlevel, hshut⟩ := hentry front.length q (by rw [hsplit]; simp)
  by_contra hq2
  rw [hshut, Bool.not_eq_false, hclosed, foldclosed, decide_eq_true_iff] at hq2
  obtain ⟨i, hir, hi2, hcovers, hlong⟩ := hq2
  have hall := covers_of_below (j := cur.row) (Nat.sub_le _ _) hr (fun k hk hrk => ?_) hcovers hlong
  · rw [hclosed, foldclosed, decide_eq_false_iff_not] at hopen
    exact hopen ⟨i, hall.2.1, hi2, hall, hlong⟩
  · have hlt : cur.row - k < front.length := by omega
    have hget : ((seenUp (levels 0 t) cur).map withLevel)[cur.row - k]? =
        some front[cur.row - k] := by
      rw [hsplit, List.getElem?_append_left hlt, List.getElem?_eq_getElem hlt]
    obtain ⟨-, hline, hlevel', -⟩ := hentry _ _ hget
    have hk' : cur.row - (cur.row - k) = k := by omega
    rw [hk'] at hline
    refine ⟨_, hline, ?_⟩
    rw [← hlevel, ← hlevel']
    exact hfront _ (List.getElem_mem hlt)

/-! ## Marks -/

/-- **Whichever folds are closed**, wherever the cursor has been: taking the marks away gives back
the lines of the tree, and when the cursor comes to rest on a visible line, exactly the branch of
that line is marked, unless this line and its symbol were the last that were looked at. -/
theorem marked_folds {mode : DisplayMode} (hfits : Fits mode t)
    (hnames : ∀ p ∈ levels 0 t, IsKeyword p.1) (direction : Direction) (keyword : Text)
    (keywordLine : Option ℕ) {evs : List Event} (hevs : ∀ e ∈ evs, Folded (levels 0 t) e.cursor)
    {w : Window}
    (hw : w = runWindow mode direction t (openWindow mode direction t keyword keywordLine) evs) :
    clearMarks w.buffer = displayTree mode direction t ∧
      ∀ cur p, Folded (levels 0 t) cur → cur.closed cur.row = false →
        (levels 0 t)[cur.row]? = some p → p.1 ≠ [] →
        (p.1 ≠ w.keyword ∨ some cur.row ≠ w.keywordLine) →
        some (marked (levels 0 t) (runWindow mode direction t w [.hold cur]).buffer) =
          t.branches[cur.row]? := by
  have hclear : clearMarks w.buffer = displayTree mode direction t := by
    rw [hw]
    exact clearMarks_runWindow hfits hnames direction keyword keywordLine
      fun e he => shown_of_folds (hevs e he)
  refine ⟨hclear, fun cur p hfold hopen hrow hname hnew => ?_⟩
  rw [runWindow, buildTreeDisplayItems_eq]
  exact marked_of_clear hfits hnames hclear (shown_of_folds hfold) hopen hrow hname hnew

/-- The cursor on a line, with the fold of the symbol `f` closed. -/
def foldedCursor (row : ℕ) : Cursor :=
  ⟨row, foldclosed (levels 0 sampleTree) fun i => i == 1⟩

/-- The line of `g` is hidden, and that of `h` is not. -/
theorem marked_folds_sampleTree :
    some (marked (levels 0 sampleTree) (runWindow .compact .c sampleTree
      (runWindow .compact .c sampleTree (openWindow .compact .c sampleTree [] none)
        [.hold (foldedCursor 2)]) [.hold (foldedCursor 3)]).buffer) =
      some [text "main", text "h"] := by
  have hfits : Fits .compact sampleTree := by decide +kernel
  have hnames : ∀ p ∈ levels 0 sampleTree, IsKeyword p.1 := by decide +kernel
  have hevs : ∀ e ∈ [Event.hold (foldedCursor 2)], Folded (levels 0 sampleTree) e.cursor := by
    intro e he
    rw [List.mem_singleton.mp he]
    exact ⟨_, rfl⟩
  obtain ⟨-, hmarked⟩ := marked_folds hfits hnames .c [] none hevs rfl
  exact (hmarked (foldedCursor 3) (text "h", 1) ⟨_, rfl⟩ (by decide +kernel) rfl
    (by decide +kernel) (by decide +kernel)).trans rfl

end CCTree
