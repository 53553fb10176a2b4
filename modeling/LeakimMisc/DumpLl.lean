/-
# Walking a linked list in the debugger

`src/c/gdb-scripts/macro.gdb`: the gdb command `dump_ll` prints the numbers in a linked list.  It
stops at the cell that points nowhere without printing it, so the last one is left out
(`dumpLl_iff`); the list that `src/c/gdb-scripts/test.c` has built when `run.gdb` calls the
command is printed so, wherever `malloc` puts its cells (`dumpLl_buildList`).
-/
import LeakimMisc.ListSegments
import Mathlib.Tactic

open ListSegments

namespace DumpLl

abbrev Addr := BitVec 64

/-- `struct linked_list`; the data is `id`. -/
abbrev LinkedList := Cell Addr ℤ

/-- What the debugger can read; the null pointer points nowhere. -/
structure Memory where
  heap : Heap Addr ℤ
  null : heap 0 = none

/-! ## The command -/

/-- How the command ends: not yet, with an error of gdb, or without, and what it has printed. -/
inductive Result
  | running
  | error (printed : List ℤ)
  | done (printed : List ℤ)
  deriving DecidableEq, Repr

/-- `dump_ll`, for as many turns of its loop as `fuel` allows. -/
def dumpLl (mem : Memory) : ℕ → Addr → List ℤ → Result
  | 0, _, _ => .running
  | fuel + 1, list, printed =>
    match mem.heap list with
    | none => .error printed
    | some cell =>
      if cell.next = 0 then .done printed
      else dumpLl mem fuel cell.next (printed ++ [cell.data])

variable {mem : Memory}

theorem ne_zero_of_heap {a : Addr} {cell : LinkedList} (h : mem.heap a = some cell) : a ≠ 0 := by
  rintro rfl
  rw [mem.null] at h
  exact absurd h (by simp)

/-- The command ends at the null pointer. -/
theorem dumpLl_done {list : Addr} {cells : List (Addr × ℤ)} (h : Seg mem.heap 0 list cells)
    (hne : cells ≠ []) (printed : List ℤ) :
    dumpLl mem cells.length list printed = .done (printed ++ data cells.dropLast) := by
  induction h generalizing printed with
  | nil => exact absurd rfl hne
  | @cons a cell rest _ hcell hrest ih =>
    rw [List.length_cons, dumpLl, hcell]
    dsimp only
    cases rest with
    | nil =>
      rw [if_pos hrest.eq_of_nil]
      simp [data]
    | cons p rest =>
      rw [if_neg hrest.ne_of_cons, ih (List.cons_ne_nil _ _), List.append_assoc]
      rfl

/-- The command ends where it cannot read. -/
theorem dumpLl_error {list b : Addr} {cells : List (Addr × ℤ)} (h : Seg mem.heap b list cells)
    (hb : mem.heap b = none) (hend : b ≠ 0 ∨ cells = []) (printed : List ℤ) :
    dumpLl mem (cells.length + 1) list printed = .error (printed ++ data cells) := by
  induction h generalizing printed with
  | nil => simp [dumpLl, hb, data]
  | @cons a cell rest _ hcell hrest ih =>
    have hb0 : b ≠ 0 := hend.resolve_right (List.cons_ne_nil _ _)
    have hnext : cell.next ≠ 0 := by
      cases hrest with
      | nil => exact hb0
      | cons _ hcell' _ => exact ne_zero_of_heap hcell'
    rw [List.length_cons, dumpLl, hcell]
    dsimp only
    rw [if_neg hnext, ih (Or.inl hb0), List.append_assoc]
    rfl

/-- **How the command ends** after some number of turns. -/
theorem dumpLl_cases (mem : Memory) (fuel : ℕ) (list : Addr) (printed : List ℤ) :
    dumpLl mem fuel list printed = .running ∨
      (∃ cells, Seg mem.heap 0 list cells ∧ cells ≠ [] ∧
        dumpLl mem fuel list printed = .done (printed ++ data cells.dropLast)) ∨
      ∃ b cells, Seg mem.heap b list cells ∧ mem.heap b = none ∧ (b ≠ 0 ∨ cells = []) ∧
        dumpLl mem fuel list printed = .error (printed ++ data cells) := by
  induction fuel generalizing list printed with
  | zero => exact Or.inl rfl
  | succ fuel ih =>
    rw [dumpLl]
    cases hcell : mem.heap list with
    | none =>
      refine Or.inr (Or.inr ⟨list, [], .nil, hcell, Or.inr rfl, ?_⟩)
      simp [data]
    | some cell =>
      dsimp only
      have hlist := ne_zero_of_heap hcell
      split_ifs with hnext
      · right
        left
        refine ⟨[(list, cell.data)], .cons hlist hcell ?_, List.cons_ne_nil _ _, by simp [data]⟩
        rw [hnext]
        exact .nil
      · rcases ih cell.next (printed ++ [cell.data]) with hrun | hdone | herror
        · exact Or.inl hrun
        · obtain ⟨cells, hseg, hne, hdone⟩ := hdone
          refine Or.inr (Or.inl ⟨(list, cell.data) :: cells, .cons hlist hcell hseg,
            List.cons_ne_nil _ _, ?_⟩)
          rw [hdone, List.dropLast_cons_of_ne_nil hne, List.append_assoc]
          rfl
        · obtain ⟨b, cells, hseg, hb, hend, herror⟩ := herror
          have hlistb : list ≠ b := by
            rintro rfl
            rw [hb] at hcell
            exact absurd hcell (by simp)
          have hb0 : b ≠ 0 := by
            rcases hend with hb0 | rfl
            · exact hb0
            · cases hseg
              exact hnext
          refine Or.inr (Or.inr ⟨b, (list, cell.data) :: cells, .cons hlistb hcell hseg, hb,
            Or.inl hb0, ?_⟩)
          rw [herror, List.append_assoc]
          rfl

/-- **What the command prints**: it ends exactly if the cells from its argument on end at the null
pointer or at an address that cannot be read.  In the first case, which is the regular one, the
last number is left out. -/
theorem dumpLl_iff (mem : Memory) (list : Addr) (printed : List ℤ) :
    ((∃ fuel, dumpLl mem fuel list [] = .done printed) ↔
        ∃ cells, Seg mem.heap 0 list cells ∧ cells ≠ [] ∧ printed = data cells.dropLast) ∧
      ((∃ fuel, dumpLl mem fuel list [] = .error printed) ↔
        ∃ b cells, Seg mem.heap b list cells ∧ mem.heap b = none ∧ (b ≠ 0 ∨ cells = []) ∧
          printed = data cells) := by
  refine ⟨⟨?_, ?_⟩, ?_, ?_⟩
  · rintro ⟨fuel, hfuel⟩
    rcases dumpLl_cases mem fuel list [] with hrun | ⟨cells, hseg, hne, hdone⟩ |
      ⟨b, cells, -, -, -, herror⟩
    · exact absurd (hrun.symm.trans hfuel) (by simp)
    · exact ⟨cells, hseg, hne, (Result.done.inj (hdone.symm.trans hfuel)).symm⟩
    · exact absurd (herror.symm.trans hfuel) (by simp)
  · rintro ⟨cells, hseg, hne, rfl⟩
    exact ⟨_, dumpLl_done hseg hne []⟩
  · rintro ⟨fuel, hfuel⟩
    rcases dumpLl_cases mem fuel list [] with hrun | ⟨cells, -, -, hdone⟩ |
      ⟨b, cells, hseg, hb, hend, herror⟩
    · exact absurd (hrun.symm.trans hfuel) (by simp)
    · exact absurd (hdone.symm.trans hfuel) (by simp)
    · exact ⟨b, cells, hseg, hb, hend, (Result.error.inj (herror.symm.trans hfuel)).symm⟩
  · rintro ⟨b, cells, hseg, hb, hend, rfl⟩
    exact ⟨_, dumpLl_error hseg hb hend []⟩

/-! ## The list of `test.c` -/

/-- What `malloc` returns in the first `n + 1` calls for a cell, and what is in the memory there:
none of the calls fails, and nothing is freed. -/
structure Mallocs (n : ℕ) where
  addr : ℕ → Addr
  content : ℕ → LinkedList
  ne_zero : ∀ i ≤ n, addr i ≠ 0
  distinct : ∀ i ≤ n, ∀ j ≤ n, addr i = addr j → i = j

/-- The memory and the variable `s`. -/
structure Vars where
  heap : Heap Addr ℤ
  s : Addr

/-- `malloc(sizeof(struct linked_list))`, which returns `a`. -/
def malloc (h : Heap Addr ℤ) (a : Addr) (content : LinkedList) : Heap Addr ℤ :=
  Function.update h a (some content)

/-- `p->next = next`. -/
def setNext (h : Heap Addr ℤ) (p next : Addr) : Heap Addr ℤ :=
  Function.update h p ((h p).map fun cell => { cell with next := next })

/-- `p->id = id`. -/
def setId (h : Heap Addr ℤ) (p : Addr) (id : ℤ) : Heap Addr ℤ :=
  Function.update h p ((h p).map fun cell => { cell with data := id })

variable {n : ℕ}

/-- The body of the first loop of `main`. -/
def turn (m : Mallocs n) (v : Vars) (i : ℕ) : Vars :=
  let h := setNext (malloc v.heap (m.addr (i + 1)) (m.content (i + 1))) v.s (m.addr (i + 1))
  let s := (h v.s).elim v.s Cell.next
  ⟨setNext (setId h s i) s 0, s⟩

/-- `first`, and what is done before the loop. -/
def start (m : Mallocs n) (h : Heap Addr ℤ) : Vars :=
  ⟨setId (malloc h (m.addr 0) (m.content 0)) (m.addr 0) 0, m.addr 0⟩

/-- The first loop, with `n` turns; in `main` it has five. -/
def buildList (m : Mallocs n) (h : Heap Addr ℤ) : Vars :=
  (List.range n).foldl (turn m) (start m h)

/-- The numbers in the cells: the first two are zero. -/
def idOf (i : ℕ) : ℤ := (i - 1 : ℕ)

/-- The first cells. -/
def firstCells (m : Mallocs n) (i : ℕ) : List (Addr × ℤ) :=
  (List.range i).map fun j => (m.addr j, idOf j)

theorem ne_of_mem_firstCells {m : Mallocs n} {i k : ℕ} (hik : i ≤ k) (hk : k ≤ n) :
    ∀ p ∈ firstCells m i, p.1 ≠ m.addr k := by
  intro p hp
  obtain ⟨j, hj, rfl⟩ := List.mem_map.mp hp
  rw [List.mem_range] at hj
  intro heq
  have hjk := m.distinct j (by omega) k hk heq
  omega

/-- **The invariant of the loop**: `s` is the last cell, and the other ones lead from the first
one to it. -/
structure Inv (m : Mallocs n) (i : ℕ) (v : Vars) : Prop where
  s_eq : v.s = m.addr i
  last : ∃ cell, v.heap (m.addr i) = some cell ∧ cell.data = idOf i ∧ (0 < i → cell.next = 0)
  seg : Seg v.heap (m.addr i) (m.addr 0) (firstCells m i)
  null : v.heap 0 = none

theorem inv_start (m : Mallocs n) {h : Heap Addr ℤ} (hnull : h 0 = none) :
    Inv m 0 (start m h) where
  s_eq := rfl
  last := ⟨{ m.content 0 with data := 0 }, by simp [start, setId, malloc], rfl,
    fun h => absurd h (lt_irrefl 0)⟩
  seg := .nil
  null := by
    have hne := (m.ne_zero 0 (Nat.zero_le n)).symm
    exact (Function.update_of_ne hne _ _).trans ((Function.update_of_ne hne _ _).trans hnull)

theorem Inv.turn {m : Mallocs n} {i : ℕ} {v : Vars} (h : Inv m i v) (hi : i < n) :
    Inv m (i + 1) (turn m v i) := by
  obtain ⟨cell, hcell, hid, -⟩ := h.last
  have hne : m.addr i ≠ m.addr (i + 1) := fun heq => by
    have := m.distinct i hi.le (i + 1) hi heq
    omega
  -- the cell at `s` now points to the new one
  have hlink : setNext (malloc v.heap (m.addr (i + 1)) (m.content (i + 1))) v.s (m.addr (i + 1)) =
      Function.update (Function.update v.heap (m.addr (i + 1)) (some (m.content (i + 1))))
        (m.addr i) (some { cell with next := m.addr (i + 1) }) := by
    rw [setNext, malloc, h.s_eq, Function.update_of_ne hne, hcell]
    rfl
  have hseg := ((h.seg.update (ne_of_mem_firstCells (Nat.le_succ i) hi)
    (some (m.content (i + 1)))).update (ne_of_mem_firstCells le_rfl hi.le)
    (some { cell with next := m.addr (i + 1) })).concat (Function.update_self ..) hne
    (ne_of_mem_firstCells (Nat.le_succ i) hi)
  have hcells : firstCells m (i + 1) = firstCells m i ++ [(m.addr i, cell.data)] := by
    rw [firstCells, List.range_succ, List.map_append, hid]
    rfl
  rw [← hlink, ← hcells] at hseg
  have hs : ((setNext (malloc v.heap (m.addr (i + 1)) (m.content (i + 1))) v.s
      (m.addr (i + 1))) v.s).elim v.s Cell.next = m.addr (i + 1) := by
    rw [hlink, h.s_eq, Function.update_self]
    rfl
  have hnew : (setNext (malloc v.heap (m.addr (i + 1)) (m.content (i + 1))) v.s
      (m.addr (i + 1))) (m.addr (i + 1)) = some (m.content (i + 1)) := by
    rw [hlink, Function.update_of_ne hne.symm, Function.update_self]
  have hnull : (setNext (malloc v.heap (m.addr (i + 1)) (m.content (i + 1))) v.s
      (m.addr (i + 1))) 0 = none := by
    rw [hlink, Function.update_of_ne (m.ne_zero i hi.le).symm,
      Function.update_of_ne (m.ne_zero (i + 1) hi).symm, h.null]
  unfold DumpLl.turn
  dsimp only
  rw [hs]
  generalize setNext (malloc v.heap (m.addr (i + 1)) (m.content (i + 1))) v.s (m.addr (i + 1)) =
    heap at hseg hnew hnull
  refine ⟨rfl, ⟨⟨0, i⟩, ?_, rfl, fun _ => rfl⟩, ?_, ?_⟩
  · simp [setNext, setId, hnew]
  · exact (hseg.update (ne_of_mem_firstCells le_rfl hi) _).update
      (ne_of_mem_firstCells le_rfl hi) _
  · have hzero := (m.ne_zero (i + 1) hi).symm
    exact (Function.update_of_ne hzero _ _).trans ((Function.update_of_ne hzero _ _).trans hnull)

/-- **After the loop.** -/
theorem inv_buildList (m : Mallocs n) {h : Heap Addr ℤ} (hnull : h 0 = none) :
    Inv m n (buildList m h) := by
  have hloop : ∀ i ≤ n, Inv m i ((List.range i).foldl (turn m) (start m h)) := by
    intro i
    induction i with
    | zero => exact fun _ => inv_start m hnull
    | succ i ih =>
      intro hi
      rw [List.range_succ, List.foldl_append, List.foldl_cons, List.foldl_nil]
      exact (ih (by omega)).turn hi
  exact hloop n le_rfl

/-- The memory after the loop. -/
def built (m : Mallocs n) (mem : Memory) : Memory :=
  ⟨(buildList m mem.heap).heap, (inv_buildList m mem.null).null⟩

/-- **What `dump_ll first` prints** after the loop, wherever the cells are and whatever was in
their memory: zero, the numbers from zero on, and not the last one. -/
theorem dumpLl_buildList (hn : 0 < n) (m : Mallocs n) (mem : Memory) :
    ∃ fuel, dumpLl (built m mem) fuel (m.addr 0) [] = .done ((List.range n).map idOf) := by
  have hinv := inv_buildList m mem.null
  obtain ⟨⟨next, id⟩, hcell, rfl, hnext⟩ := hinv.last
  obtain rfl : next = 0 := hnext hn
  have hseg := hinv.seg.concat hcell (m.ne_zero n le_rfl) fun p hp => by
    obtain ⟨j, hj, rfl⟩ := List.mem_map.mp hp
    exact m.ne_zero j (List.mem_range.mp hj).le
  have hdone : dumpLl (built m mem) _ (m.addr 0) [] = _ := dumpLl_done hseg (by simp) []
  refine ⟨_, hdone.trans ?_⟩
  rw [List.dropLast_concat, List.nil_append, data, firstCells, List.map_map]
  rfl

/-- The cells one after the other. -/
def sampleMallocs : Mallocs 5 where
  addr i := BitVec.ofNat 64 (16 * (i + 1))
  content _ := ⟨0xdead, -1⟩
  ne_zero := by decide
  distinct := by decide

theorem dumpLl_sampleMallocs :
    ∃ fuel, dumpLl (built sampleMallocs ⟨fun _ => none, rfl⟩) fuel 16 [] =
      .done [0, 0, 1, 2, 3] :=
  dumpLl_buildList (by decide) sampleMallocs ⟨fun _ => none, rfl⟩

end DumpLl
