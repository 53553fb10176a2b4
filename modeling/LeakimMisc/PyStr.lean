/-
# Python 2 byte strings

The string operations that a line-oriented Python 2 script uses, on texts as
lists of characters: `strip`, `split` without an argument, `find` with its
`-1`, and the two slices `s[:k]` and `s[k:]` with their negative indices.

Everything about `split` follows from two equations: it cuts at a white space
(`split_append_space`), and a text without white space is one token
(`split_of_token`).  Everything about `find` followed by a slice is put in terms
of `takeWhile` and `dropWhile` once, so that later proofs never count indices.
-/
import Mathlib

namespace PyStr

/-- A `str` of Python 2, one character a byte. -/
abbrev Str := List Char

/-- `isspace` of the C locale. -/
def isSpace (c : Char) : Bool :=
  c == ' ' || c == '\t' || c == '\n' || c == '\x0b' || c == '\x0c' || c == '\r'

/-- `s.strip()`. -/
def strip (s : Str) : Str := (s.dropWhile isSpace).rdropWhile isSpace

/-- `s.split()`: the maximal runs without white space. -/
def split (s : Str) : List Str := (s.splitOnP isSpace).filter (fun t => !t.isEmpty)

/-- `s.find(c)`: the first index of `c`, and `-1` when there is none. -/
def find (s : Str) (c : Char) : ℤ := if c ∈ s then (s.idxOf c : ℤ) else -1

/-- `s[:k]`; a negative `k` counts from the end. -/
def sliceTo (s : Str) (k : ℤ) : Str :=
  if k < 0 then s.take (s.length - k.natAbs) else s.take k.toNat

/-- `s[k:]`; a negative `k` counts from the end. -/
def sliceFrom (s : Str) (k : ℤ) : Str :=
  if k < 0 then s.drop (s.length - k.natAbs) else s.drop k.toNat

/-- `s.find(t) != -1` for a text `t`. -/
def hasText (s t : Str) : Bool := decide (t <:+: s)

/-! ## White space -/

/-- A character of a kind that no white space is of. -/
theorem isSpace_eq_false {P : Char → Prop}
    (hP : ¬ P ' ' ∧ ¬ P '\t' ∧ ¬ P '\n' ∧ ¬ P '\x0b' ∧ ¬ P '\x0c' ∧ ¬ P '\r') {c : Char}
    (hc : P c) : isSpace c = false := by
  obtain ⟨hblank, htab, hline, hvt, hff, hcr⟩ := hP
  have hne : ∀ a : Char, ¬ P a → c ≠ a := by
    rintro a ha rfl
    exact ha hc
  simp only [isSpace, Bool.or_eq_false_iff, beq_eq_false_iff_ne]
  exact ⟨⟨⟨⟨⟨hne _ hblank, hne _ htab⟩, hne _ hline⟩, hne _ hvt⟩, hne _ hff⟩, hne _ hcr⟩

theorem isSpace_of_isDigit {c : Char} (h : c.isDigit) : isSpace c = false :=
  isSpace_eq_false (P := fun c => c.isDigit) (by decide) h

/-! ## `find` and the slices -/

theorem find_of_not_mem {s : Str} {c : Char} (h : c ∉ s) : find s c = -1 := if_neg h

theorem find_of_mem {s : Str} {c : Char} (h : c ∈ s) : find s c = (s.idxOf c : ℤ) := if_pos h

theorem find_eq_neg_one_iff {s : Str} {c : Char} : find s c = -1 ↔ c ∉ s := by
  constructor
  · intro h hc
    rw [find_of_mem hc] at h
    omega
  · exact find_of_not_mem

theorem neg_one_lt_find_iff {s : Str} {c : Char} : -1 < find s c ↔ c ∈ s := by
  constructor
  · intro h
    by_contra hc
    rw [find_of_not_mem hc] at h
    omega
  · intro h
    rw [find_of_mem h]
    omega

theorem take_idxOf (s : Str) (c : Char) : s.take (s.idxOf c) = s.takeWhile (· != c) := by
  induction s with
  | nil => rfl
  | cons a s ih =>
    by_cases h : a = c
    · subst h
      simp [List.idxOf_cons_self]
    · rw [List.idxOf_cons_ne _ (by simpa using h), List.take_succ_cons, ih,
        List.takeWhile_cons_of_pos (by simpa using h)]

theorem drop_idxOf (s : Str) (c : Char) : s.drop (s.idxOf c) = s.dropWhile (· != c) := by
  induction s with
  | nil => rfl
  | cons a s ih =>
    by_cases h : a = c
    · subst h
      simp [List.idxOf_cons_self]
    · rw [List.idxOf_cons_ne _ (by simpa using h), List.drop_succ_cons, ih,
        List.dropWhile_cons_of_pos (by simpa using h)]

/-- `s[:s.find(c)]` is the part before the first `c`. -/
theorem sliceTo_find_of_mem {s : Str} {c : Char} (h : c ∈ s) :
    sliceTo s (find s c) = s.takeWhile (· != c) := by
  rw [find_of_mem h, sliceTo, if_neg (by omega), Int.toNat_natCast, take_idxOf]

/-- `s[s.find(c):]` is the part from the first `c` on. -/
theorem sliceFrom_find_of_mem {s : Str} {c : Char} (h : c ∈ s) :
    sliceFrom s (find s c) = s.dropWhile (· != c) := by
  rw [find_of_mem h, sliceFrom, if_neg (by omega), Int.toNat_natCast, drop_idxOf]

/-- `s[s.find(c)+1:]` is what follows the first `c`. -/
theorem sliceFrom_find_succ_of_mem {s : Str} {c : Char} (h : c ∈ s) :
    sliceFrom s (find s c + 1) = (s.dropWhile (· != c)).tail := by
  rw [find_of_mem h, sliceFrom, if_neg (by omega), ← drop_idxOf, List.tail_drop]
  rfl

/-! ## Tokens -/

/-- A token: not empty and without white space. -/
def IsToken (t : Str) : Prop := t ≠ [] ∧ ∀ c ∈ t, isSpace c = false

@[simp] theorem split_nil : split [] = [] := rfl

/-- **`split` cuts at every white space.** -/
theorem split_append_space {c : Char} (hc : isSpace c = true) (x y : Str) :
    split (x ++ c :: y) = split x ++ split y := by
  rw [split, List.splitOnP_append_cons x y hc, List.filter_append]
  rfl

theorem split_cons_space {c : Char} (hc : isSpace c = true) (s : Str) :
    split (c :: s) = split s := by
  simpa using split_append_space hc [] s

/-- White space in front of a text is no token. -/
theorem split_space_append {w : Str} (hw : ∀ c ∈ w, isSpace c = true) (s : Str) :
    split (w ++ s) = split s := by
  induction w with
  | nil => rfl
  | cons c w ih =>
    rw [List.cons_append, split_cons_space (hw c List.mem_cons_self),
      ih fun a ha => hw a (List.mem_cons_of_mem _ ha)]

theorem split_of_space {w : Str} (hw : ∀ c ∈ w, isSpace c = true) : split w = [] := by
  simpa using split_space_append hw []

/-- White space at the end of a text is no token. -/
theorem split_append_spaces {w : Str} (hw : ∀ c ∈ w, isSpace c = true) (s : Str) :
    split (s ++ w) = split s := by
  cases w with
  | nil => rw [List.append_nil]
  | cons c w =>
    rw [split_append_space (hw c List.mem_cons_self),
      split_of_space fun a ha => hw a (List.mem_cons_of_mem _ ha), List.append_nil]

/-- A text without white space is one token. -/
theorem split_of_token {t : Str} (ht : IsToken t) : split t = [t] := by
  rw [split, List.splitOnP_eq_singleton fun c hc => by simpa using ht.2 c hc]
  have hne := ht.1
  cases t with
  | nil => exact absurd rfl hne
  | cons a t => rfl

/-- A token in front of a white space comes first. -/
theorem split_token_append {t : Str} (ht : IsToken t) {c : Char} (hc : isSpace c = true)
    (s : Str) : split (t ++ c :: s) = t :: split s := by
  rw [split_append_space hc, split_of_token ht]
  rfl

/-- The first token of a text that starts without white space is its longest
prefix without white space. -/
theorem split_cons_of_not_space {c : Char} (hc : isSpace c = false) (s : Str) :
    split (c :: s)
      = (c :: s.takeWhile (fun a => !isSpace a)) :: split (s.dropWhile (fun a => !isSpace a)) := by
  have htok : IsToken (c :: s.takeWhile (fun a => !isSpace a)) := by
    refine ⟨by simp, fun a ha => ?_⟩
    rcases List.mem_cons.1 ha with rfl | ha
    · exact hc
    · simpa using List.mem_takeWhile_imp ha
  have hs : c :: s = (c :: s.takeWhile (fun a => !isSpace a)) ++
      s.dropWhile (fun a => !isSpace a) := by
    rw [List.cons_append, List.takeWhile_append_dropWhile]
  -- either the text ends with the token, or white space follows it
  cases hd : s.dropWhile (fun a => !isSpace a) with
  | nil =>
    rw [hd, List.append_nil] at hs
    conv_lhs => rw [hs]
    rw [split_of_token htok, split_nil]
  | cons a r =>
    have ha : isSpace a = true := by
      have h := List.head_dropWhile_not (fun a => !isSpace a) (l := s) (by simp [hd])
      simpa [hd] using h
    rw [hd] at hs
    conv_lhs => rw [hs]
    rw [split_token_append htok ha, split_cons_space ha]

/-- Induction along the tokens of a text: white space is skipped one character
at a time, a token is taken whole. -/
theorem token_induction {P : Str → Prop} (nil : P [])
    (space : ∀ c s, isSpace c = true → P s → P (c :: s))
    (token : ∀ c s, isSpace c = false → P (s.dropWhile (fun a => !isSpace a)) → P (c :: s))
    (s : Str) : P s := by
  induction hn : s.length using Nat.strong_induction_on generalizing s with
  | _ n ih =>
    cases s with
    | nil => exact nil
    | cons c s =>
      rw [List.length_cons] at hn
      cases hc : isSpace c with
      | true => exact space c s hc (ih s.length (by omega) s rfl)
      | false =>
        have hle := (List.dropWhile_suffix (l := s) (fun a => !isSpace a)).length_le
        exact token c s hc (ih _ (by omega) _ rfl)

/-- Every item of `split` is a token. -/
theorem isToken_of_mem_split {s t : Str} (h : t ∈ split s) : IsToken t := by
  induction s using token_induction with
  | nil => simp at h
  | space c s hc ih => exact ih (split_cons_space hc s ▸ h)
  | token c s hc ih =>
    rw [split_cons_of_not_space hc] at h
    rcases List.mem_cons.1 h with rfl | h
    · refine ⟨by simp, fun a ha => ?_⟩
      rcases List.mem_cons.1 ha with rfl | ha
      · exact hc
      · simpa using List.mem_takeWhile_imp ha
    · exact ih h

/-- The tokens of a text hold its characters other than white space, in order. -/
theorem flatten_split (s : Str) : (split s).flatten = s.filter (fun c => !isSpace c) := by
  induction s using token_induction with
  | nil => rfl
  | space c s hc ih => rw [split_cons_space hc, ih, List.filter_cons_of_neg (by simp [hc])]
  | token c s hc ih =>
    have hpre : (s.takeWhile fun a => !isSpace a).filter (fun a => !isSpace a)
        = s.takeWhile fun a => !isSpace a :=
      List.filter_eq_self.2 fun a ha => by simpa using List.mem_takeWhile_imp ha
    rw [split_cons_of_not_space hc, List.flatten_cons, ih, List.cons_append,
      List.filter_cons_of_pos (by simp [hc])]
    conv_rhs => rw [← List.takeWhile_append_dropWhile (p := fun a => !isSpace a) (l := s)]
    rw [List.filter_append, hpre]

/-- A character that is no white space is in a text iff it is in one of its tokens. -/
theorem mem_iff_mem_split {s : Str} {c : Char} (hc : isSpace c = false) :
    c ∈ s ↔ ∃ t ∈ split s, c ∈ t := by
  rw [← List.mem_flatten, flatten_split, List.mem_filter]
  simp [hc]

/-- The first token of a text, with what stands before and after it. -/
theorem eq_append_of_split_eq_cons {s t : Str} {ts : List Str} (h : split s = t :: ts) :
    ∃ w r, s = w ++ (t ++ r) ∧ (∀ c ∈ w, isSpace c = true) ∧ split r = ts := by
  induction s using token_induction with
  | nil => simp at h
  | space c s hc ih =>
    obtain ⟨w, r, rfl, hw, hr⟩ := ih (split_cons_space hc s ▸ h)
    refine ⟨c :: w, r, rfl, fun a ha => ?_, hr⟩
    rcases List.mem_cons.1 ha with rfl | ha
    · exact hc
    · exact hw a ha
  | token c s hc ih =>
    rw [split_cons_of_not_space hc] at h
    obtain ⟨rfl, rfl⟩ := List.cons.inj h
    refine ⟨[], _, ?_, by simp, rfl⟩
    rw [List.nil_append, List.cons_append, List.takeWhile_append_dropWhile]

/-- `strip` removes white space only, at the two ends. -/
theorem strip_spec (s : Str) : ∃ a b, s = a ++ strip s ++ b ∧
    (∀ c ∈ a, isSpace c = true) ∧ ∀ c ∈ b, isSpace c = true := by
  refine ⟨s.takeWhile isSpace, (s.dropWhile isSpace).rtakeWhile isSpace, ?_,
    fun c hc => List.mem_takeWhile_imp hc, fun c hc => List.mem_rtakeWhile_imp hc⟩
  rw [strip, List.append_assoc, List.rdropWhile_append_rtakeWhile,
    List.takeWhile_append_dropWhile]

@[simp] theorem split_strip (s : Str) : split (strip s) = split s := by
  obtain ⟨a, b, h, ha, hb⟩ := strip_spec s
  conv_rhs => rw [h, split_append_spaces hb, split_space_append ha]

/-- `strip` keeps every character that is no white space. -/
theorem mem_strip_iff {s : Str} {c : Char} (hc : isSpace c = false) : c ∈ strip s ↔ c ∈ s := by
  obtain ⟨a, b, h, ha, hb⟩ := strip_spec s
  conv_rhs => rw [h]
  have hca : c ∉ a := fun hm => by simp [ha c hm] at hc
  have hcb : c ∉ b := fun hm => by simp [hb c hm] at hc
  simp [hca, hcb]

/-! ## What the tokens of a text determine -/

/-- A token can start after `w`: it is empty or ends with white space. -/
def EndsGap (w : Str) : Prop := ∀ c ∈ w.getLast?, isSpace c = true

/-- A token can end before `r`: it is empty or starts with white space. -/
def StartsGap (r : Str) : Prop := ∀ c ∈ r.head?, isSpace c = true

theorem split_append_of_startsGap (x : Str) {r : Str} (hr : StartsGap r) :
    split (x ++ r) = split x ++ split r := by
  cases r with
  | nil => simp
  | cons c r =>
    have hc : isSpace c = true := hr c rfl
    rw [split_append_space hc, split_cons_space hc]

theorem split_append_of_endsGap {w : Str} (hw : EndsGap w) (x : Str) :
    split (w ++ x) = split w ++ split x := by
  rcases List.eq_nil_or_concat w with rfl | ⟨v, c, rfl⟩
  · rfl
  · have hc : isSpace c = true := hw c (by simp)
    rw [List.concat_eq_append, List.append_assoc, List.singleton_append, split_append_space hc,
      split_append_space hc, split_nil, List.append_nil]

/-- What follows a token starts with white space. -/
theorem startsGap_dropWhile (s : Str) : StartsGap (s.dropWhile fun b => !isSpace b) := by
  intro b hb
  have hhead := List.head?_dropWhile_not (fun b => !isSpace b) s
  rw [Option.mem_def.1 hb] at hhead
  simpa using hhead

/-- `t` is the token of `s` with the first `c`; `w` and `r` stand before and after it. -/
structure CutAt (c : Char) (s w t r : Str) : Prop where
  eq : s = w ++ (t ++ r)
  not_mem : c ∉ w
  mem : c ∈ t
  token : IsToken t
  ends : EndsGap w
  starts : StartsGap r

theorem CutAt.split_eq {c : Char} {s w t r : Str} (h : CutAt c s w t r) :
    split s = split w ++ t :: split r := by
  rw [h.eq, split_append_of_endsGap h.ends, split_append_of_startsGap t h.starts,
    split_of_token h.token, List.singleton_append]

theorem exists_cutAt {s : Str} {c : Char} (hc : isSpace c = false) (h : c ∈ s) :
    ∃ w t r, CutAt c s w t r := by
  induction s using token_induction with
  | nil => simp at h
  | space a s ha ih =>
    have hne : c ≠ a := fun heq => by simp [heq, ha] at hc
    obtain ⟨w, t, r, hcut⟩ := ih ((List.mem_cons.1 h).resolve_left hne)
    refine ⟨a :: w, t, r, by rw [hcut.eq]; rfl, ?_, hcut.mem, hcut.token, ?_, hcut.starts⟩
    · rw [List.mem_cons, not_or]
      exact ⟨hne, hcut.not_mem⟩
    · intro b hb
      cases w with
      | nil =>
        have hba : a = b := by simpa using hb
        exact hba ▸ ha
      | cons d w => exact hcut.ends b (by simpa using hb)
  | token a s ha ih =>
    have htoken : IsToken (a :: s.takeWhile fun b => !isSpace b) := by
      refine ⟨by simp, fun b hb => ?_⟩
      rcases List.mem_cons.1 hb with rfl | hb
      · exact ha
      · simpa using List.mem_takeWhile_imp hb
    have hgap := startsGap_dropWhile s
    have hs : a :: s = (a :: s.takeWhile fun b => !isSpace b) ++
        s.dropWhile fun b => !isSpace b := by
      rw [List.cons_append, List.takeWhile_append_dropWhile]
    by_cases hmem : c ∈ a :: s.takeWhile fun b => !isSpace b
    · exact ⟨[], _, _, by rw [hs]; rfl, by simp, hmem, htoken, by simp [EndsGap], hgap⟩
    · rw [hs, List.mem_append] at h
      obtain ⟨w, t, r, hcut⟩ := ih (h.resolve_left hmem)
      have hw : w ≠ [] := by
        rintro rfl
        -- the rest starts with white space, a token does not
        obtain ⟨b, t', rfl⟩ := List.exists_cons_of_ne_nil hcut.token.1
        have hb : isSpace b = true := hgap b (by rw [hcut.eq]; rfl)
        simp [hcut.token.2 b List.mem_cons_self] at hb
      refine ⟨(a :: s.takeWhile fun b => !isSpace b) ++ w, t, r, ?_, ?_, hcut.mem, hcut.token,
        ?_, hcut.starts⟩
      · rw [hs, List.append_assoc, ← hcut.eq]
      · rw [List.mem_append, not_or]
        exact ⟨hmem, hcut.not_mem⟩
      · intro b hb
        rw [List.getLast?_append_of_ne_nil _ hw] at hb
        exact hcut.ends b hb

/-- **The token with the first `c`** only depends on the tokens of the text, and so do the
tokens before and after it. -/
theorem exists_cutAt_of_split_eq {a b : Str} {c : Char} (hc : isSpace c = false) (ha : c ∈ a)
    (h : split a = split b) :
    ∃ w t r w' r', CutAt c a w t r ∧ CutAt c b w' t r' ∧ split w = split w' ∧
      split r = split r' := by
  have hb : c ∈ b := by rwa [mem_iff_mem_split hc, ← h, ← mem_iff_mem_split hc]
  obtain ⟨w, t, r, hcut⟩ := exists_cutAt hc ha
  obtain ⟨w', t', r', hcut'⟩ := exists_cutAt hc hb
  rw [hcut.split_eq, hcut'.split_eq] at h
  have hbefore : ∀ v, c ∉ v → ∀ q ∈ split v, decide (c ∉ q) = true := fun v hv q hq => by
    simpa using fun hm : c ∈ q => hv ((mem_iff_mem_split hc).2 ⟨q, hq, hm⟩)
  -- both cuts are at the first token with a `c`, in one and the same list of tokens
  have htake := congrArg (List.takeWhile fun q => decide (c ∉ q)) h
  have hdrop := congrArg (List.dropWhile fun q => decide (c ∉ q)) h
  rw [List.takeWhile_append_of_pos (hbefore w hcut.not_mem),
    List.takeWhile_append_of_pos (hbefore w' hcut'.not_mem),
    List.takeWhile_cons_of_neg (by simpa using hcut.mem),
    List.takeWhile_cons_of_neg (by simpa using hcut'.mem), List.append_nil,
    List.append_nil] at htake
  rw [List.dropWhile_append_of_pos (hbefore w hcut.not_mem),
    List.dropWhile_append_of_pos (hbefore w' hcut'.not_mem),
    List.dropWhile_cons_of_neg (by simpa using hcut.mem),
    List.dropWhile_cons_of_neg (by simpa using hcut'.mem)] at hdrop
  obtain ⟨rfl, hr⟩ := List.cons.inj hdrop
  exact ⟨w, t, r, w', r', hcut, hcut', htake, hr⟩

theorem CutAt.dropWhile_eq {c : Char} {s w t r : Str} (h : CutAt c s w t r) :
    s.dropWhile (· != c) = t.dropWhile (· != c) ++ r ∧ t.dropWhile (· != c) ≠ [] := by
  have hw : ∀ a ∈ w, (a != c) = true := fun a ha => by
    simpa using fun heq : a = c => h.not_mem (heq ▸ ha)
  have hne : t.dropWhile (· != c) ≠ [] := fun hnil => by
    simpa using List.dropWhile_eq_nil_iff.1 hnil c h.mem
  refine ⟨?_, hne⟩
  rw [h.eq, List.dropWhile_append_of_pos hw, List.dropWhile_append]
  simp [hne]

theorem CutAt.takeWhile_eq {c : Char} {s w t r : Str} (h : CutAt c s w t r) :
    s.takeWhile (· != c) = w ++ t.takeWhile (· != c) := by
  have hw : ∀ a ∈ w, (a != c) = true := fun a ha => by
    simpa using fun heq : a = c => h.not_mem (heq ▸ ha)
  have hlen : (t.takeWhile (· != c)).length ≠ t.length := fun heq => by
    have hall := List.takeWhile_eq_self_iff.1 ((List.takeWhile_prefix _).eq_of_length heq)
    simpa using hall c h.mem
  rw [h.eq, List.takeWhile_append_of_pos hw, List.takeWhile_append, if_neg hlen]

/-- The text from the first `c` on. -/
theorem split_dropWhile_congr {a b : Str} {c : Char} (hc : isSpace c = false) (ha : c ∈ a)
    (h : split a = split b) :
    split (a.dropWhile (· != c)) = split (b.dropWhile (· != c)) := by
  obtain ⟨w, t, r, w', r', hcut, hcut', -, hr⟩ := exists_cutAt_of_split_eq hc ha h
  rw [hcut.dropWhile_eq.1, hcut'.dropWhile_eq.1, split_append_of_startsGap _ hcut.starts,
    split_append_of_startsGap _ hcut'.starts, hr]

/-- The text after the first `c`. -/
theorem split_tail_dropWhile_congr {a b : Str} {c : Char} (hc : isSpace c = false) (ha : c ∈ a)
    (h : split a = split b) :
    split (a.dropWhile (· != c)).tail = split (b.dropWhile (· != c)).tail := by
  obtain ⟨w, t, r, w', r', hcut, hcut', -, hr⟩ := exists_cutAt_of_split_eq hc ha h
  rw [hcut.dropWhile_eq.1, hcut'.dropWhile_eq.1, List.tail_append_of_ne_nil hcut.dropWhile_eq.2,
    List.tail_append_of_ne_nil hcut.dropWhile_eq.2, split_append_of_startsGap _ hcut.starts,
    split_append_of_startsGap _ hcut'.starts, hr]

/-- The text up to the first `c`, with another text put in its place. -/
theorem split_takeWhile_append_congr {a b : Str} {c : Char} (hc : isSpace c = false)
    (ha : c ∈ a) (h : split a = split b) (y : Str) :
    split (a.takeWhile (· != c) ++ y) = split (b.takeWhile (· != c) ++ y) := by
  obtain ⟨w, t, r, w', r', hcut, hcut', hw, -⟩ := exists_cutAt_of_split_eq hc ha h
  rw [hcut.takeWhile_eq, hcut'.takeWhile_eq, List.append_assoc, List.append_assoc,
    split_append_of_endsGap hcut.ends, split_append_of_endsGap hcut'.ends, hw]

/-- A text without white space that stands across a gap stands on one side of it. -/
theorem infix_of_infix_append {t x r : Str} (ht : IsToken t) (hr : StartsGap r)
    (h : t <:+: x ++ r) : t <:+: x ∨ t <:+: r := by
  obtain ⟨a, b, hab⟩ := h
  rcases List.append_eq_append_iff.1 hab with ⟨z, hx, -⟩ | ⟨z, hat, hr'⟩
  · exact Or.inl ⟨a, z, hx.symm⟩
  · rcases List.append_eq_append_iff.1 hat with ⟨u, rfl, rfl⟩ | ⟨u, -, rfl⟩
    · cases z with
      | nil => exact Or.inl ⟨a, [], by simp⟩
      | cons c z =>
        -- the gap would be inside `t`
        have hc : isSpace c = true := hr c (by rw [hr']; rfl)
        simp [ht.2 c (by simp)] at hc
    · exact Or.inr ⟨u, b, hr'.symm⟩

/-- A text without white space is found in a token. -/
theorem infix_iff_infix_token {t : Str} (ht : IsToken t) (s : Str) :
    t <:+: s ↔ ∃ q ∈ split s, t <:+: q := by
  induction s using token_induction with
  | nil => simp [ht.1]
  | space c s hc ih =>
    -- a token does not begin with white space
    have hno : ¬ t <+: c :: s := fun hp => by
      obtain ⟨a, t', rfl⟩ := List.exists_cons_of_ne_nil ht.1
      obtain ⟨rfl, -⟩ := List.cons_prefix_cons.1 hp
      simp [ht.2 a List.mem_cons_self] at hc
    rw [split_cons_space hc, List.infix_cons_iff, or_iff_right hno, ih]
  | token c s hc ih =>
    have hs : c :: s = (c :: s.takeWhile fun b => !isSpace b) ++
        s.dropWhile fun b => !isSpace b := by
      rw [List.cons_append, List.takeWhile_append_dropWhile]
    rw [split_cons_of_not_space hc, List.exists_mem_cons_iff, ← ih]
    constructor
    · intro h
      exact infix_of_infix_append ht (startsGap_dropWhile s) (hs ▸ h)
    · rw [hs]
      rintro (h | h)
      · exact h.trans List.infix_append_left
      · exact h.trans List.infix_append_right

theorem hasText_congr {t : Str} (ht : IsToken t) {a b : Str} (h : split a = split b) :
    hasText a t = hasText b t := by
  rw [hasText, hasText, decide_eq_decide, infix_iff_infix_token ht, infix_iff_infix_token ht, h]

end PyStr
