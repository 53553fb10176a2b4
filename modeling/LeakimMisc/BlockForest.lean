/-
# Nested blocks in a list of lines

A line may open a block, close one, do both (a block on one line), or neither.
`depthFrom` runs the counter that a line scanner keeps; a list of lines on which
it never goes below zero and ends at zero is the list of lines of a
`Forest`, and of every forest the lines are balanced
(`exists_lines_eq_of_depthFrom`, `Forest.depthFrom_lines_append`).

A forest keeps with each line the proof that the line is of its kind, so that
there is no forest of unbalanced lines.  It is stored as first member and rest,
which makes every function on it structurally recursive.
-/
import Mathlib

namespace Nest

/-- What a line does to the nesting depth. -/
inductive Kind
  | plain
  | opn
  | cls
  | both
  deriving DecidableEq, Repr

variable {α : Type*}

/-- The nesting depth after the lines `ls`, starting at depth `d`; `none` when it
would fall below zero or a line has no kind. -/
def depthFrom (kind : α → Option Kind) : ℕ → List α → Option ℕ
  | d, [] => some d
  | d, l :: ls =>
      match kind l with
      | some .plain => depthFrom kind d ls
      | some .both => depthFrom kind d ls
      | some .opn => depthFrom kind (d + 1) ls
      | some .cls =>
          match d with
          | 0 => none
          | d + 1 => depthFrom kind d ls
      | none => none

/-- The lines that open a block, each with the depth of the block it opens. -/
def openings (kind : α → Option Kind) : ℕ → List α → List (α × ℕ)
  | _, [] => []
  | d, l :: ls =>
      match kind l with
      | some .both => (l, d + 1) :: openings kind d ls
      | some .opn => (l, d + 1) :: openings kind (d + 1) ls
      | some .cls => openings kind (d - 1) ls
      | _ => openings kind d ls

/-- The sum over all opening lines of the depth of the block less one. -/
def excess (kind : α → Option Kind) (d : ℕ) (ls : List α) : ℕ :=
  ((openings kind d ls).map (fun p => p.2 - 1)).sum

/-- Every opening line opens a block of depth one or more. -/
theorem one_le_of_mem_openings {kind : α → Option Kind} {d : ℕ} {ls : List α} {p : α × ℕ}
    (hp : p ∈ openings kind d ls) : 1 ≤ p.2 := by
  induction ls generalizing d with
  | nil => simp [openings] at hp
  | cons l ls ih =>
    simp only [openings] at hp
    split at hp
    · rcases List.mem_cons.1 hp with rfl | hp
      · exact Nat.le_add_left 1 d
      · exact ih hp
    · rcases List.mem_cons.1 hp with rfl | hp
      · exact Nat.le_add_left 1 d
      · exact ih hp
    · exact ih hp
    · exact ih hp

/-- Balanced lines as a forest: a plain line, a block on one line, or a block with
its opening line, its members and its closing line; then the rest. -/
inductive Forest (kind : α → Option Kind)
  | nil : Forest kind
  | line (l : α) (h : kind l = some .plain) (rest : Forest kind) : Forest kind
  | one (l : α) (h : kind l = some .both) (rest : Forest kind) : Forest kind
  | block (o : α) (ho : kind o = some .opn) (body : Forest kind)
      (c : α) (hc : kind c = some .cls) (rest : Forest kind) : Forest kind

variable {kind : α → Option Kind}

namespace Forest

/-- The lines of a forest, in order. -/
def lines : Forest kind → List α
  | nil => []
  | line l _ r => l :: r.lines
  | one l _ r => l :: r.lines
  | block o _ b c _ r => o :: (b.lines ++ c :: r.lines)

/-- One forest after another. -/
def append : Forest kind → Forest kind → Forest kind
  | nil, g => g
  | line l h r, g => line l h (r.append g)
  | one l h r, g => one l h (r.append g)
  | block o ho b c hc r, g => block o ho b c hc (r.append g)

instance : Append (Forest kind) := ⟨append⟩

@[simp] theorem nil_append (g : Forest kind) : nil ++ g = g := rfl
@[simp] theorem line_append (l : α) (h : kind l = some .plain) (r g : Forest kind) :
    line l h r ++ g = line l h (r ++ g) := rfl
@[simp] theorem one_append (l : α) (h : kind l = some .both) (r g : Forest kind) :
    one l h r ++ g = one l h (r ++ g) := rfl
@[simp] theorem block_append (o : α) (ho : kind o = some .opn) (b : Forest kind) (c : α)
    (hc : kind c = some .cls) (r g : Forest kind) :
    block o ho b c hc r ++ g = block o ho b c hc (r ++ g) := rfl

@[simp] theorem append_nil (f : Forest kind) : f ++ nil = f := by
  induction f with
  | nil => rfl
  | line l h r ih => rw [line_append, ih]
  | one l h r ih => rw [one_append, ih]
  | block o ho b c hc r _ ih => rw [block_append, ih]

theorem append_assoc (f g h : Forest kind) : f ++ g ++ h = f ++ (g ++ h) := by
  induction f with
  | nil => rfl
  | line l _ r ih => simp only [line_append, ih]
  | one l _ r ih => simp only [one_append, ih]
  | block o _ b c _ r _ ih => simp only [block_append, ih]

@[simp] theorem lines_append (f g : Forest kind) : (f ++ g).lines = f.lines ++ g.lines := by
  induction f with
  | nil => rfl
  | line l h r ih => simp [lines, ih]
  | one l h r ih => simp [lines, ih]
  | block o ho b c hc r _ ih => simp [lines, ih]

/-- A change of the lines that keeps their kinds. -/
def map (f : α → α) (hf : ∀ l, kind (f l) = kind l) : Forest kind → Forest kind
  | nil => nil
  | line l h r => line (f l) (by rw [hf, h]) (r.map f hf)
  | one l h r => one (f l) (by rw [hf, h]) (r.map f hf)
  | block o ho b c hc r =>
      block (f o) (by rw [hf, ho]) (b.map f hf) (f c) (by rw [hf, hc]) (r.map f hf)

@[simp] theorem lines_map (f : α → α) (hf : ∀ l, kind (f l) = kind l) (g : Forest kind) :
    (g.map f hf).lines = g.lines.map f := by
  induction g with
  | nil => rfl
  | line l h r ih => simp [lines, map, ih]
  | one l h r ih => simp [lines, map, ih]
  | block o ho b c hc r ihb ih => simp [lines, map, ihb, ih]

/-! ## Depths -/

/-- A forest leaves the depth as it was. -/
theorem depthFrom_lines_append (f : Forest kind) (d : ℕ) (ls : List α) :
    depthFrom kind d (f.lines ++ ls) = depthFrom kind d ls := by
  induction f generalizing d ls with
  | nil => rfl
  | line l h r ih => simp [lines, depthFrom, h, ih]
  | one l h r ih => simp [lines, depthFrom, h, ih]
  | block o ho b c hc r ihb ih => simp [lines, depthFrom, ho, hc, ihb, ih]

theorem depthFrom_lines (f : Forest kind) (d : ℕ) : depthFrom kind d f.lines = some d := by
  simpa [depthFrom] using f.depthFrom_lines_append d []

theorem openings_lines_append (f : Forest kind) (d : ℕ) (ls : List α) :
    openings kind d (f.lines ++ ls) = openings kind d f.lines ++ openings kind d ls := by
  induction f generalizing d ls with
  | nil => rfl
  | line l h r ih => simp [lines, openings, h, ih]
  | one l h r ih => simp [lines, openings, h, ih]
  | block o ho b c hc r ihb ih => simp [lines, openings, ho, hc, ihb, ih]

/-- The opening lines of a block and what follows it. -/
theorem openings_block (o : α) (ho : kind o = some .opn) (b : Forest kind) (c : α)
    (hc : kind c = some .cls) (r : Forest kind) (d : ℕ) :
    openings kind d (block o ho b c hc r).lines
      = (o, d + 1) :: (openings kind (d + 1) b.lines ++ openings kind d r.lines) := by
  simp [lines, openings, ho, hc, openings_lines_append]

/-- One level further out, every depth is one more. -/
theorem openings_succ (f : Forest kind) (d : ℕ) :
    openings kind (d + 1) f.lines = (openings kind d f.lines).map fun p => (p.1, p.2 + 1) := by
  induction f generalizing d with
  | nil => rfl
  | line l h r ih => simp [lines, openings, h, ih]
  | one l h r ih => simp [lines, openings, h, ih]
  | block o ho b c hc r ihb ih =>
    rw [openings_block, openings_block, ih, ihb, List.map_cons, List.map_append]

/-- The depth only depends on the kinds of the lines. -/
theorem depthFrom_map {β : Type*} {kind' : β → Option Kind} (f : α → β)
    (hf : ∀ l, kind' (f l) = kind l) (d : ℕ) (ls : List α) :
    depthFrom kind' d (ls.map f) = depthFrom kind d ls := by
  induction ls generalizing d with
  | nil => rfl
  | cons l ls ih =>
    simp only [List.map_cons, depthFrom, hf, ih]

/-- The opening lines, changed with the lines. -/
theorem openings_map {β : Type*} {kind' : β → Option Kind} (f : α → β)
    (hf : ∀ l, kind' (f l) = kind l) (d : ℕ) (ls : List α) :
    openings kind' d (ls.map f) = (openings kind d ls).map (Prod.map f id) := by
  induction ls generalizing d with
  | nil => rfl
  | cons l ls ih =>
    simp only [List.map_cons, openings, hf]
    split <;> simp [ih]

/-- One level further out, the excess is no smaller. -/
theorem excess_le_succ (f : Forest kind) (d : ℕ) :
    excess kind d f.lines ≤ excess kind (d + 1) f.lines := by
  rw [excess, excess, openings_succ, List.map_map]
  refine List.sum_le_sum fun p _ => ?_
  simp only [Function.comp_apply]
  omega

theorem excess_line (l : α) (h : kind l = some .plain) (r : Forest kind) (d : ℕ) :
    excess kind d (line l h r).lines = excess kind d r.lines := by
  simp [lines, excess, openings, h]

theorem excess_one (l : α) (h : kind l = some .both) (r : Forest kind) (d : ℕ) :
    excess kind d (one l h r).lines = d + excess kind d r.lines := by
  simp [lines, excess, openings, h]

theorem excess_block (o : α) (ho : kind o = some .opn) (b : Forest kind) (c : α)
    (hc : kind c = some .cls) (r : Forest kind) (d : ℕ) :
    excess kind d (block o ho b c hc r).lines
      = d + (excess kind (d + 1) b.lines + excess kind d r.lines) := by
  rw [excess, openings_block, List.map_cons, List.sum_cons, List.map_append, List.sum_append]
  rfl

end Forest

/-- **Balanced lines form a forest.**  More generally, from depth `d` on, lines that
come back to depth zero are a forest followed, unless `d = 0`, by a closing line. -/
theorem exists_lines_append_of_depthFrom (d : ℕ) (ls : List α)
    (h : depthFrom kind d ls = some 0) :
    ∃ (f : Forest kind) (rest : List α), ls = f.lines ++ rest ∧
      ((d = 0 ∧ rest = []) ∨
        ∃ e c rest', d = e + 1 ∧ rest = c :: rest' ∧ kind c = some .cls ∧
          depthFrom kind e rest' = some 0) := by
  induction hn : ls.length using Nat.strong_induction_on generalizing d ls with
  | _ n ih =>
    cases ls with
    | nil =>
      refine ⟨.nil, [], rfl, Or.inl ⟨?_, rfl⟩⟩
      simpa [depthFrom] using h
    | cons l ls =>
      rw [List.length_cons] at hn
      cases hk : kind l with
      | none => simp [depthFrom, hk] at h
      | some k =>
        cases k with
        | plain =>
          simp only [depthFrom, hk] at h
          obtain ⟨f, rest, rfl, hrest⟩ := ih ls.length (by omega) d ls h rfl
          exact ⟨.line l hk f, rest, rfl, hrest⟩
        | both =>
          simp only [depthFrom, hk] at h
          obtain ⟨f, rest, rfl, hrest⟩ := ih ls.length (by omega) d ls h rfl
          exact ⟨.one l hk f, rest, rfl, hrest⟩
        | cls =>
          -- a closing line at depth `e + 1` ends the forest that was begun there
          cases d with
          | zero => simp [depthFrom, hk] at h
          | succ e =>
            simp only [depthFrom, hk] at h
            exact ⟨.nil, l :: ls, rfl, Or.inr ⟨e, l, ls, rfl, rfl, hk, h⟩⟩
        | opn =>
          -- the lines up to the matching close are a forest, and so are those after it
          simp only [depthFrom, hk] at h
          obtain ⟨b, rest, hls, hrest⟩ := ih ls.length (by omega) (d + 1) ls h rfl
          rcases hrest with ⟨h0, -⟩ | ⟨e, c, rest', he, rfl, hc, hd⟩
          · omega
          · obtain rfl : d = e := by omega
            have hlen : rest'.length < n := by
              rw [hls, List.length_append, List.length_cons] at hn
              omega
            obtain ⟨r, tail, rfl, htail⟩ := ih _ hlen d rest' hd rfl
            exact ⟨.block l hk b c hc r, tail, by simp [Forest.lines, hls], htail⟩

/-- Lines whose depth never falls below zero and ends at zero are the lines of a
forest. -/
theorem exists_lines_eq_of_depthFrom {ls : List α} (h : depthFrom kind 0 ls = some 0) :
    ∃ f : Forest kind, f.lines = ls := by
  obtain ⟨f, rest, rfl, ⟨-, rfl⟩ | ⟨e, _, _, he, _⟩⟩ := exists_lines_append_of_depthFrom 0 ls h
  · exact ⟨f, by simp⟩
  · omega

end Nest
