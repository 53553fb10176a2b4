/-
# A stack trace as one string

`src/c/stacktrace/test.c`: `stack_trace` measures the strings of `backtrace_symbols`, allocates
a block for all of them and prints them into it one after the other.  The zero at the end of
the result comes from the last `sprintf` and from nowhere else.
-/
import LeakimMisc.ByteBlock
import Mathlib

open ByteBlock

namespace StackTrace

/-! ## The function -/

/-- A block from `malloc`: its size is what was asked for, its bytes are arbitrary. -/
structure Block (size : ℕ) where
  bytes : List UInt8
  length_eq : bytes.length = size

/-- `INT_MAX`, the longest text whose length `sprintf` can return. -/
def intMax : ℕ := 2 ^ 31 - 1

/-- The first loop. -/
def strLen (strings : List CString) : ℕ :=
  strings.foldl (fun len s => len + (s.bytes.length + 1)) 0

/-- `sprintf(str,"%s\n",s)` and `str` moved on by its result; `none` if it writes past the end
of the block, or if it fails. -/
def sprintf (mem : List UInt8) (str : ℕ) (s : CString) : Option (List UInt8 × ℕ) :=
  if s.bytes.length + 1 ≤ intMax then
    (write mem str (s.bytes ++ [10, 0])).map fun mem' => (mem', str + (s.bytes.length + 1))
  else none

/-- The second loop. -/
def printAll (mem : List UInt8) (str : ℕ) : List CString → Option (List UInt8)
  | [] => some mem
  | s :: rest => (sprintf mem str s).bind fun r => printAll r.1 r.2 rest

/-- `stack_trace`: the block that `result` points to.  The result of `malloc` is not looked
at. -/
def stackTrace (strings : List CString) (malloc : Option (Block (strLen strings + 10))) :
    Option (List UInt8) :=
  malloc.bind fun block => printAll block.bytes 0 strings

/-! ## The text to be written -/

/-- Every string with a new line behind it. -/
def lines (strings : List CString) : List UInt8 := strings.flatMap fun s => s.bytes ++ [10]

@[simp] theorem lines_nil : lines [] = [] := rfl

@[simp] theorem lines_cons (s : CString) (rest : List CString) :
    lines (s :: rest) = s.bytes ++ 10 :: lines rest := by
  show (s.bytes ++ [10]) ++ lines rest = _
  rw [List.append_assoc, List.singleton_append]

theorem zero_notMem_lines (strings : List CString) : 0 ∉ lines strings := by
  induction strings with
  | nil => exact List.not_mem_nil
  | cons s rest ih =>
    rw [lines_cons, List.mem_append, List.mem_cons]
    rintro (h | h | h)
    · exact s.noZero h
    · exact absurd h (by decide)
    · exact ih h

/-- The first loop measures the text. -/
theorem strLen_eq (strings : List CString) : strLen strings = (lines strings).length := by
  have h : ∀ n, strings.foldl (fun len s => len + (s.bytes.length + 1)) n =
      n + (lines strings).length := by
    induction strings with
    | nil => exact fun n => rfl
    | cons s rest ih =>
      intro n
      rw [List.foldl_cons, ih, lines_cons, List.length_append, List.length_cons]
      omega
  rw [strLen, h, Nat.zero_add]

/-! ## The second loop -/

/-- What stands behind the text: the zero of the last `sprintf`, or the block as it was if
there was none. -/
def behind (strings : List CString) (back : List UInt8) : List UInt8 :=
  if strings = [] then back else 0 :: back.drop ((lines strings).length + 1)

/-- One turn: the text, the zero, and the rest of the block unchanged. -/
theorem sprintf_append {s : CString} (front back : List UInt8)
    (hfit : s.bytes.length + 1 ≤ intMax) (hroom : s.bytes.length + 1 < back.length) :
    sprintf (front ++ back) front.length s =
      some ((front ++ (s.bytes ++ [10])) ++ 0 :: back.drop (s.bytes.length + 2),
        (front ++ (s.bytes ++ [10])).length) := by
  have htake : (back.take (s.bytes.length + 2)).length = (s.bytes ++ [10, 0]).length := by
    rw [List.length_take, List.length_append, List.length_cons, List.length_singleton]
    omega
  have hwrite := write_append front (back.drop (s.bytes.length + 2)) htake
  rw [List.take_append_drop] at hwrite
  rw [sprintf, if_pos hfit, hwrite, Option.map_some]
  simp

/-- The second loop puts the whole text behind what is written already. -/
theorem printAll_append {strings : List CString} (front : List UInt8) {back : List UInt8}
    (hfit : ∀ s ∈ strings, s.bytes.length + 1 ≤ intMax)
    (hroom : (lines strings).length < back.length) :
    printAll (front ++ back) front.length strings =
      some (front ++ (lines strings ++ behind strings back)) := by
  induction strings generalizing front back with
  | nil => rfl
  | cons s rest ih =>
    rw [lines_cons, List.length_append, List.length_cons] at hroom
    have hturn := sprintf_append front back (hfit s List.mem_cons_self) (by omega)
    have hrest : (lines rest).length < (0 :: back.drop (s.bytes.length + 2)).length := by
      rw [List.length_cons, List.length_drop]
      omega
    rw [printAll, hturn, Option.bind_some,
      ih _ (fun s' hs' => hfit s' (List.mem_cons_of_mem s hs')) hrest]
    have hbehind : behind rest (0 :: back.drop (s.bytes.length + 2)) =
        behind (s :: rest) back := by
      cases rest with
      | nil =>
        rw [behind, if_pos rfl, behind, if_neg (List.cons_ne_nil _ _), lines_cons]
        simp
      | cons s' rest =>
        rw [behind, if_neg (List.cons_ne_nil _ _), behind, if_neg (List.cons_ne_nil _ _),
          List.drop_succ_cons, List.drop_drop, lines_cons s, List.length_append,
          List.length_cons, show s.bytes.length + 2 + (lines (s' :: rest)).length =
            s.bytes.length + ((lines (s' :: rest)).length + 1) + 1 by omega]
    rw [hbehind, lines_cons, List.append_assoc, List.append_assoc, List.append_assoc,
      List.cons_append, List.nil_append, List.cons_append]

theorem printAll_eq_none {strings : List CString} {s : CString} (hs : s ∈ strings)
    (hlong : intMax < s.bytes.length + 1) (mem : List UInt8) (str : ℕ) :
    printAll mem str strings = none := by
  induction strings generalizing mem str with
  | nil => exact absurd hs List.not_mem_nil
  | cons s' rest ih =>
    rw [printAll, Option.bind_eq_none_iff]
    rintro r hr
    rcases List.mem_cons.mp hs with rfl | hs
    · rw [sprintf, if_neg (by omega)] at hr
      exact absurd hr (by simp)
    · exact ih hs r.1 r.2

/-- The text is ended by a zero if there is a string, or if the block happens to begin with
one. -/
theorem text_lines_iff {strings : List CString} {back : List UInt8} :
    text (lines strings ++ behind strings back) = some (lines strings) ↔
      strings ≠ [] ∨ back.head? = some 0 := by
  have htext := text_append_iff (lines strings) (behind strings back)
  rw [takeWhile_of_noZero (zero_notMem_lines strings),
    or_iff_right (zero_notMem_lines strings)] at htext
  rw [htext, behind]
  by_cases h : strings = []
  · rw [if_pos h]
    simp [h]
  · rw [if_neg h]
    simp [h]

/-- **The result is the text**, with every byte of it inside the block, if and only if no
string is too long for `sprintf`, `malloc` gives a block, and there is a string at all or the
block happens to begin with a zero. -/
theorem stackTrace_text_iff (strings : List CString)
    (malloc : Option (Block (strLen strings + 10))) :
    (∃ mem, stackTrace strings malloc = some mem ∧ text mem = some (lines strings)) ↔
      (∀ s ∈ strings, s.bytes.length + 1 ≤ intMax) ∧
        ∃ block, malloc = some block ∧ (strings ≠ [] ∨ block.bytes.head? = some 0) := by
  cases malloc with
  | none => simp [stackTrace]
  | some block =>
    by_cases hfit : ∀ s ∈ strings, s.bytes.length + 1 ≤ intMax
    · have hroom : (lines strings).length < block.bytes.length := by
        rw [block.length_eq, ← strLen_eq]
        omega
      have hloop : stackTrace strings (some block) =
          some (lines strings ++ behind strings block.bytes) := printAll_append [] hfit hroom
      constructor
      · rintro ⟨mem, hmem, htext⟩
        obtain rfl := Option.some.inj (hloop.symm.trans hmem)
        exact ⟨hfit, block, rfl, text_lines_iff.mp htext⟩
      · rintro ⟨-, block', hblock, hzero⟩
        obtain rfl := Option.some.inj hblock
        exact ⟨_, hloop, text_lines_iff.mpr hzero⟩
    · refine iff_of_false ?_ fun h => hfit h.1
      push Not at hfit
      obtain ⟨s, hs, hlong⟩ := hfit
      rintro ⟨mem, hmem, -⟩
      have hnone : stackTrace strings (some block) = none :=
        printAll_eq_none hs hlong block.bytes 0
      exact absurd (hnone.symm.trans hmem) (by simp)

/-- Without a string the block is returned as `malloc` gave it. -/
theorem not_stackTrace_text :
    ¬ ∀ (strings : List CString) (block : Block (strLen strings + 10)),
      ∃ mem, stackTrace strings (some block) = some mem ∧ text mem = some (lines strings) := by
  intro h
  obtain ⟨mem, hmem, htext⟩ := h [] ⟨List.replicate 10 255, rfl⟩
  obtain rfl : List.replicate 10 255 = mem := Option.some.inj hmem
  exact absurd htext (by decide)

end StackTrace
