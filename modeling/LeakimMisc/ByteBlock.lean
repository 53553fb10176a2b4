/-
# C strings in blocks of bytes

A block of memory of a fixed size, bytes written into it, and the text that is found there when
it is read as a C string: the bytes up to the first zero.  A write that does not fit, and a
text without a zero up to the end of the block, would leave the block; both are `none`.
-/
import Mathlib.Data.List.Basic
import Mathlib.Data.List.TakeWhile

namespace ByteBlock

/-- The block after `bytes` were written at `p`. -/
def write (mem : List UInt8) (p : ℕ) (bytes : List UInt8) : Option (List UInt8) :=
  if p + bytes.length ≤ mem.length then
    some (mem.take p ++ bytes ++ mem.drop (p + bytes.length))
  else none

/-- The C string at the beginning of the block. -/
def text (mem : List UInt8) : Option (List UInt8) :=
  if 0 ∈ mem then some (mem.takeWhile (· ≠ 0)) else none

/-- The bytes of a C string, without the zero at its end. -/
structure CString where
  bytes : List UInt8
  noZero : 0 ∉ bytes
  deriving DecidableEq

/-! ## Writing -/

/-- A write behind `front` replaces what was there, if there is room. -/
theorem write_append (front : List UInt8) {mid bytes : List UInt8} (back : List UInt8)
    (h : mid.length = bytes.length) :
    write (front ++ (mid ++ back)) front.length bytes = some (front ++ (bytes ++ back)) := by
  have hroom : front.length + bytes.length ≤ (front ++ (mid ++ back)).length := by
    rw [List.length_append, List.length_append]
    omega
  rw [write, if_pos hroom, List.take_left, ← List.drop_drop, List.drop_left, ← h, List.drop_left,
    List.append_assoc]

/-! ## The text -/

/-- The text ends at the first zero. -/
theorem text_append_zero {s : List UInt8} (hs : 0 ∉ s) (rest : List UInt8) :
    text (s ++ 0 :: rest) = some s := by
  have hall : ∀ b ∈ s, decide (b ≠ 0) = true := by
    intro b hb
    exact decide_eq_true fun h => hs (h ▸ hb)
  rw [text, if_pos (by simp), List.takeWhile_append_of_pos hall,
    List.takeWhile_cons_of_neg (by simp), List.append_nil]

theorem text_eq_some_iff {mem s : List UInt8} :
    text mem = some s ↔ 0 ∉ s ∧ ∃ rest, mem = s ++ 0 :: rest := by
  constructor
  · intro h
    have hmem : 0 ∈ mem := by
      by_contra hno
      rw [text, if_neg hno] at h
      exact absurd h (by simp)
    obtain ⟨s', rest, rfl, hs'⟩ := List.eq_append_cons_of_mem hmem
    rw [text_append_zero hs'] at h
    obtain rfl := Option.some.inj h
    exact ⟨hs', rest, rfl⟩
  · rintro ⟨hs, rest, rfl⟩
    exact text_append_zero hs rest

theorem takeWhile_of_noZero {s : List UInt8} (hs : 0 ∉ s) : s.takeWhile (· ≠ 0) = s := by
  rw [List.takeWhile_eq_self_iff]
  intro b hb
  exact decide_eq_true fun h => hs (h ▸ hb)

/-- The text of a block that begins with `front`: the part of `front` up to a zero, if and only
if there is a zero in it or right behind it. -/
theorem text_append_iff (front back : List UInt8) :
    text (front ++ back) = some (front.takeWhile (· ≠ 0)) ↔
      0 ∈ front ∨ back.head? = some 0 := by
  by_cases hzero : 0 ∈ front
  · obtain ⟨s, rest, rfl, hs⟩ := List.eq_append_cons_of_mem hzero
    refine iff_of_true ?_ (Or.inl hzero)
    have htext := text_append_zero hs rest
    rw [text, if_pos hzero] at htext
    rw [Option.some.inj htext, List.append_assoc, List.cons_append, text_append_zero hs]
  · rw [takeWhile_of_noZero hzero, text_eq_some_iff, or_iff_right hzero, and_iff_right hzero]
    simp only [List.append_cancel_left_eq, List.head?_eq_some_iff]

end ByteBlock
