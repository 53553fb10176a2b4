/-
# Segments of linked lists

A heap of cells that point to each other, and the cells from one address up to another one.  A
segment is not changed by writing to other addresses (`Seg.update`), and it grows by the cell that
it ends at (`Seg.concat`).
-/
import Mathlib.Logic.Function.Basic
import Mathlib.Data.List.Basic

namespace ListSegments

variable {A D : Type*}

/-- A cell: where the next one is, and its data. -/
structure Cell (A D : Type*) where
  next : A
  data : D

/-- The cells that there are. -/
abbrev Heap (A D : Type*) := A → Option (Cell A D)

/-- **The cells from an address up to `b`**, which is the address of none of them, each with its
data. -/
inductive Seg (h : Heap A D) (b : A) : A → List (A × D) → Prop
  | nil : Seg h b b []
  | cons {a : A} {cell : Cell A D} {cells : List (A × D)} (hne : a ≠ b) (hcell : h a = some cell)
      (hrest : Seg h b cell.next cells) : Seg h b a ((a, cell.data) :: cells)

variable {h : Heap A D} {a b : A} {cells : List (A × D)}

/-- The data of a segment. -/
def data (cells : List (A × D)) : List D := cells.map Prod.snd

/-- Without cells a segment ends where it begins. -/
theorem Seg.eq_of_nil (hseg : Seg h b a []) : a = b := by
  cases hseg
  rfl

theorem Seg.ne_of_cons {p : A × D} (hseg : Seg h b a (p :: cells)) : a ≠ b := by
  cases hseg
  assumption

/-- **Writing somewhere else** leaves a segment as it is. -/
theorem Seg.update [DecidableEq A] (hseg : Seg h b a cells) {x : A} (hx : ∀ p ∈ cells, p.1 ≠ x)
    (cell : Option (Cell A D)) : Seg (Function.update h x cell) b a cells := by
  induction hseg with
  | nil => exact .nil
  | cons hne hcell _ ih =>
    refine .cons hne ?_ (ih fun p hp => hx p (List.mem_cons_of_mem _ hp))
    rw [Function.update_of_ne (hx _ List.mem_cons_self), hcell]

/-- **A segment goes on** with the cell that it ends at. -/
theorem Seg.concat (hseg : Seg h b a cells) {cell : Cell A D} (hcell : h b = some cell)
    (hb : b ≠ cell.next) (hcells : ∀ p ∈ cells, p.1 ≠ cell.next) :
    Seg h cell.next a (cells ++ [(b, cell.data)]) := by
  induction hseg with
  | nil => exact .cons hb hcell .nil
  | cons _ hfirst _ ih =>
    exact .cons (hcells _ List.mem_cons_self) hfirst
      (ih fun p hp => hcells p (List.mem_cons_of_mem _ hp))

end ListSegments
