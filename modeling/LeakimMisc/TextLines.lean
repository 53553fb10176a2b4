/-
# The lines of a text

`readline` hands out a text line by line, each line with its newline; only the
last one may lack it.  `splitLines` lists the results, and the facts below say
how it acts on a text that is put together from lines: complete lines come back
as they are, and the rest of the text is read as if it stood alone
(`splitLines_flatten_append`).
-/
import LeakimMisc.PyStr

namespace PyStr

/-- The results of `readline` up to the end of the text, in order. -/
def splitLines : Str → List Str
  | [] => []
  | c :: s =>
      if c = '\n' then [c] :: splitLines s
      else
        match splitLines s with
        | [] => [[c]]
        | l :: ls => (c :: l) :: ls

/-- A complete line: one newline, at the end. -/
def IsLine (l : Str) : Prop := ∃ x, l = x ++ ['\n'] ∧ '\n' ∉ x

/-- The lines of a text, one after the other, are the text. -/
@[simp] theorem flatten_splitLines (s : Str) : (splitLines s).flatten = s := by
  induction s with
  | nil => rfl
  | cons c s ih =>
    by_cases hc : c = '\n'
    · rw [splitLines, if_pos hc, List.flatten_cons, ih]
      rfl
    · rw [splitLines, if_neg hc]
      cases hs : splitLines s with
      | nil => rw [← ih, hs]; rfl
      | cons l ls => rw [← ih, hs]; rfl

/-- **A complete line in front of a text is its first line.** -/
theorem splitLines_line_append {l : Str} (hl : IsLine l) (s : Str) :
    splitLines (l ++ s) = l :: splitLines s := by
  obtain ⟨x, rfl, hx⟩ := hl
  induction x with
  | nil => rfl
  | cons c x ih =>
    have hc : c ≠ '\n' := fun h => hx (h ▸ List.mem_cons_self)
    have hrec := ih fun h => hx (List.mem_cons_of_mem _ h)
    rw [List.cons_append, List.cons_append, splitLines, if_neg hc, hrec]

/-- Complete lines in front of a text are its first lines. -/
theorem splitLines_flatten_append {ls : List Str} (hls : ∀ l ∈ ls, IsLine l) (s : Str) :
    splitLines (ls.flatten ++ s) = ls ++ splitLines s := by
  induction ls with
  | nil => rfl
  | cons l ls ih =>
    rw [List.flatten_cons, List.append_assoc, splitLines_line_append (hls l List.mem_cons_self),
      ih fun m hm => hls m (List.mem_cons_of_mem _ hm), List.cons_append]

theorem splitLines_flatten {ls : List Str} (hls : ∀ l ∈ ls, IsLine l) :
    splitLines ls.flatten = ls := by
  have h := splitLines_flatten_append hls []
  rwa [List.append_nil, splitLines, List.append_nil] at h

/-- A text without a newline is one line. -/
theorem splitLines_of_not_mem {s : Str} (hne : s ≠ []) (h : '\n' ∉ s) : splitLines s = [s] := by
  induction s with
  | nil => exact absurd rfl hne
  | cons c s ih =>
    have hc : c ≠ '\n' := fun hc => h (hc ▸ List.mem_cons_self)
    rw [splitLines, if_neg hc]
    cases s with
    | nil => rfl
    | cons d s => rw [ih (List.cons_ne_nil d s) fun hm => h (List.mem_cons_of_mem _ hm)]

/-- The first line is complete when another line follows, and what follows is
read as a text of its own. -/
theorem splitLines_eq_cons {s l : Str} {ls : List Str} (h : splitLines s = l :: ls) :
    splitLines ls.flatten = ls ∧ (ls ≠ [] → IsLine l) := by
  induction s generalizing l ls with
  | nil => simp [splitLines] at h
  | cons c s ih =>
    by_cases hc : c = '\n'
    · rw [splitLines, if_pos hc] at h
      obtain ⟨rfl, rfl⟩ := List.cons.inj h
      exact ⟨by rw [flatten_splitLines], fun _ => ⟨[], by simp [hc], by simp⟩⟩
    · rw [splitLines, if_neg hc] at h
      cases hs : splitLines s with
      -- `c` is the last character of a text without a newline at its end
      | nil =>
        rw [hs] at h
        obtain ⟨rfl, rfl⟩ := List.cons.inj h
        exact ⟨rfl, fun hne => absurd rfl hne⟩
      | cons m ms =>
        rw [hs] at h
        obtain ⟨rfl, rfl⟩ := List.cons.inj h
        obtain ⟨hrest, hline⟩ := ih hs
        refine ⟨hrest, fun hne => ?_⟩
        obtain ⟨x, rfl, hx⟩ := hline hne
        exact ⟨c :: x, rfl, by simpa [hx] using Ne.symm hc⟩

/-- Cutting the lines of a text in two: the first part holds complete lines when
something follows, and the second part is read as a text of its own. -/
theorem splitLines_eq_append {s : Str} {as bs : List Str} (h : splitLines s = as ++ bs) :
    splitLines bs.flatten = bs ∧ (bs ≠ [] → ∀ l ∈ as, IsLine l) := by
  induction as generalizing s with
  | nil =>
    rw [List.nil_append] at h
    rw [← h, flatten_splitLines]
    exact ⟨rfl, fun _ l hl => absurd hl (by simp)⟩
  | cons a as ih =>
    obtain ⟨hrest, hline⟩ := splitLines_eq_cons h
    obtain ⟨hbs, has⟩ := ih hrest
    refine ⟨hbs, fun hne l hl => ?_⟩
    rcases List.mem_cons.1 hl with rfl | hl
    · exact hline (by simp [hne])
    · exact has hne l hl

/-- The text ends with the end of a line, or is empty. -/
def EndsLine (s : Str) : Prop := ∀ c ∈ s.getLast?, c = '\n'

theorem endsLine_nil : EndsLine [] := by simp [EndsLine]

theorem endsLine_concat (s : Str) : EndsLine (s ++ ['\n']) := by simp [EndsLine]

theorem endsLine_append {l : Str} (h : IsLine l) (s : Str) : EndsLine (s ++ l) := by
  obtain ⟨x, rfl, -⟩ := h
  rw [← List.append_assoc]
  exact endsLine_concat _

/-- The rest of a line. -/
theorem endsLine_of_suffix {l s : Str} (h : IsLine l) (hs : s <:+ l) : EndsLine s := by
  obtain ⟨x, rfl⟩ := hs
  rcases List.eq_nil_or_concat s with rfl | ⟨z, d, rfl⟩
  · exact endsLine_nil
  · have hline := endsLine_append h []
    simpa [EndsLine] using hline

/-- A text behind the end of a line is read as if it stood alone. -/
theorem splitLines_append {a : Str} (ha : EndsLine a) (s : Str) :
    splitLines (a ++ s) = splitLines a ++ splitLines s := by
  induction a with
  | nil => rfl
  | cons c a ih =>
    have hrest : EndsLine a := fun d hd => by
      have hlast : (c :: a).getLast? = some d := by
        rw [List.getLast?_cons, Option.mem_def.1 hd]
        rfl
      exact ha d hlast
    by_cases hc : c = '\n'
    · rw [List.cons_append, splitLines, splitLines, if_pos hc, if_pos hc, ih hrest,
        List.cons_append]
    · rw [List.cons_append, splitLines, splitLines, if_neg hc, if_neg hc, ih hrest]
      cases hlines : splitLines a with
      | nil =>
        -- then `c` is the last character
        have hnil : a = [] := by rw [← flatten_splitLines a, hlines, List.flatten_nil]
        rw [hnil] at ha
        exact absurd (ha c rfl) hc
      | cons l ls => rfl

end PyStr
