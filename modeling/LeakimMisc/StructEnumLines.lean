/-
# The lines of a header

What the functions of `struct_enum.py` that look at a single line say about it:
its braces (`braceKind`), its indentation, and the keyword and the tag that an
opening line carries.  In a brace-disciplined file a line holds no brace, one `{`,
one `}`, or a `{` followed by a `}`.
-/
import LeakimMisc.StructEnum
import LeakimMisc.BlockForest

open PyStr Nest

namespace StructEnum

/-! ## Braces -/

/-- The two braces. -/
def isBrace (c : Char) : Bool := c == '{' || c == '}'

/-- The braces of a text, in order. -/
def braces (l : Str) : Str := l.filter isBrace

/-- What a line does to the depth of the blocks: none of the four kinds when it holds
any other braces. -/
def braceKind (l : Str) : Option Kind :=
  if braces l = [] then some .plain
  else if braces l = ['{'] then some .opn
  else if braces l = ['}'] then some .cls
  else if braces l = ['{', '}'] then some .both
  else none

/-- **A brace-disciplined file**: every line is of one of the four kinds, and the
running depth never falls below zero and ends at zero. -/
def Disciplined (infile : Str) : Prop := depthFrom braceKind 0 (splitLines infile) = some 0

instance (infile : Str) : Decidable (Disciplined infile) :=
  inferInstanceAs (Decidable (_ = _))

@[simp] theorem braces_nil : braces [] = [] := rfl

@[simp] theorem braces_append (a b : Str) : braces (a ++ b) = braces a ++ braces b :=
  List.filter_append _ _

theorem braces_cons (c : Char) (s : Str) :
    braces (c :: s) = if isBrace c then c :: braces s else braces s := List.filter_cons

theorem braceKind_congr {a b : Str} (h : braces a = braces b) : braceKind a = braceKind b := by
  rw [braceKind, braceKind, h]

theorem mem_braces_iff {c : Char} (hc : isBrace c = true) {l : Str} : c ∈ braces l ↔ c ∈ l := by
  rw [braces, List.mem_filter, and_iff_left hc]

theorem braces_eq_nil_iff {l : Str} : braces l = [] ↔ '{' ∉ l ∧ '}' ∉ l := by
  rw [braces, List.filter_eq_nil_iff]
  constructor
  · exact fun h => ⟨fun hm => h _ hm rfl, fun hm => h _ hm rfl⟩
  · rintro ⟨ho, hc⟩ c hm hb
    simp only [isBrace, Bool.or_eq_true, beq_iff_eq] at hb
    rcases hb with rfl | rfl
    · exact ho hm
    · exact hc hm

theorem braceKind_plain_iff {l : Str} : braceKind l = some .plain ↔ braces l = [] := by
  unfold braceKind
  split_ifs <;> simp_all

theorem braceKind_opn_iff {l : Str} : braceKind l = some .opn ↔ braces l = ['{'] := by
  unfold braceKind
  split_ifs <;> simp_all

theorem braceKind_cls_iff {l : Str} : braceKind l = some .cls ↔ braces l = ['}'] := by
  unfold braceKind
  split_ifs <;> simp_all

theorem braceKind_both_iff {l : Str} : braceKind l = some .both ↔ braces l = ['{', '}'] := by
  unfold braceKind
  split_ifs <;> simp_all

/-- White space holds no brace. -/
theorem isSpace_of_isBrace {c : Char} (h : isBrace c = true) : isSpace c = false := by
  simp only [isBrace, Bool.or_eq_true, beq_iff_eq] at h
  rcases h with rfl | rfl <;> rfl

/-- The braces of a text are the braces of its tokens. -/
theorem braces_flatten_split (l : Str) : braces (split l).flatten = braces l := by
  rw [flatten_split, braces, braces, List.filter_filter]
  refine List.filter_congr fun c _ => ?_
  cases hb : isBrace c with
  | false => rfl
  | true => simp [isSpace_of_isBrace hb]

theorem isStart_strip (l : Str) : isStart (strip l) = decide ('{' ∈ braces l) := by
  unfold isStart
  rw [decide_eq_decide, gt_iff_lt, neg_one_lt_find_iff, mem_strip_iff rfl, mem_braces_iff rfl]

theorem isEnd_strip (l : Str) : isEnd (strip l) = decide ('}' ∈ braces l) := by
  unfold isEnd
  rw [decide_eq_decide, gt_iff_lt, neg_one_lt_find_iff, mem_strip_iff rfl, mem_braces_iff rfl]

/-! ## Indentation -/

/-- Leading tabs in front of `l'` make `l`. -/
def TabsBefore (l' l : Str) : Prop := ∃ t, l = t ++ l' ∧ ∀ c ∈ t, c = '\t'

theorem tabsBefore_indentNone (l : Str) : TabsBefore (indentNone l) l := by
  induction l with
  | nil => exact ⟨[], rfl, by simp⟩
  | cons c s ih =>
    by_cases hc : c = '\t'
    · obtain ⟨t, hs, ht⟩ := ih
      refine ⟨c :: t, ?_, ?_⟩
      · rw [indentNone, if_pos hc, List.cons_append, ← hs]
      · simpa [hc] using ht
    · exact ⟨[], by rw [indentNone, if_neg hc, List.nil_append], by simp⟩

theorem tabsBefore_indentOne (l : Str) : TabsBefore (indentOne l) l := by
  induction l with
  | nil => exact ⟨[], rfl, by simp⟩
  | cons c s ih =>
    cases s with
    | nil => exact ⟨[], rfl, by simp⟩
    | cons d s =>
      by_cases hcd : c = '\t' ∧ d = '\t'
      · obtain ⟨t, hs, ht⟩ := ih
        refine ⟨c :: t, ?_, ?_⟩
        · rw [indentOne, if_pos hcd, List.cons_append, ← hs]
        · simpa [hcd.1] using ht
      · exact ⟨[], by rw [indentOne, if_neg hcd, List.nil_append], by simp⟩

theorem indentOne_indentOne (l : Str) : indentOne (indentOne l) = indentOne l := by
  induction l with
  | nil => rfl
  | cons c s ih =>
    cases s with
    | nil => rfl
    | cons d s =>
      by_cases hcd : c = '\t' ∧ d = '\t'
      · rw [indentOne, if_pos hcd, ih]
      · rw [indentOne, if_neg hcd, indentOne, if_neg hcd]

theorem TabsBefore.braces_eq {l' l : Str} (h : TabsBefore l' l) : braces l' = braces l := by
  obtain ⟨t, rfl, ht⟩ := h
  have hnil : braces t = [] := braces_eq_nil_iff.2
    ⟨fun hm => absurd (ht _ hm) (by decide), fun hm => absurd (ht _ hm) (by decide)⟩
  rw [braces_append, hnil, List.nil_append]

theorem TabsBefore.split_eq {l' l : Str} (h : TabsBefore l' l) : split l' = split l := by
  obtain ⟨t, rfl, ht⟩ := h
  exact (split_space_append (fun c hc => by rw [ht c hc]; rfl) l').symm

/-- A prefix of tabs goes with everything up to another character. -/
theorem TabsBefore.dropWhile_eq {l' l : Str} (h : TabsBefore l' l) {c : Char} (hc : c ≠ '\t') :
    l'.dropWhile (· != c) = l.dropWhile (· != c) := by
  obtain ⟨t, rfl, ht⟩ := h
  rw [List.dropWhile_append_of_pos fun a ha => by
    rw [ht a ha]
    simpa using Ne.symm hc]

theorem TabsBefore.mem_iff {l' l : Str} (h : TabsBefore l' l) {c : Char} (hc : c ≠ '\t') :
    c ∈ l' ↔ c ∈ l := by
  obtain ⟨t, rfl, ht⟩ := h
  rw [List.mem_append, or_iff_right fun hm => hc (ht c hm)]

theorem TabsBefore.indentNone_eq {l' l : Str} (h : TabsBefore l' l) :
    indentNone l' = indentNone l := by
  obtain ⟨t, rfl, ht⟩ := h
  induction t with
  | nil => rfl
  | cons c t ih =>
    rw [List.cons_append, indentNone, if_pos (ht c List.mem_cons_self),
      ih fun a ha => ht a (List.mem_cons_of_mem _ ha)]

/-- A complete line stays complete. -/
theorem TabsBefore.isLine {l' l : Str} (h : TabsBefore l' l) (hl : IsLine l) : IsLine l' := by
  obtain ⟨t, rfl, ht⟩ := h
  obtain ⟨x, hx, hn⟩ := hl
  rcases List.eq_nil_or_concat l' with rfl | ⟨y, c, rfl⟩
  · rw [List.append_nil] at hx
    have : '\n' = '\t' := ht '\n' (by simp [hx])
    exact absurd this (by decide)
  · rw [List.concat_eq_append, ← List.append_assoc] at hx
    obtain ⟨hxy, hc⟩ := List.append_inj' hx rfl
    refine ⟨y, by rw [List.concat_eq_append, hc], fun hm => hn ?_⟩
    rw [← hxy]
    exact List.mem_append_right t hm

theorem braces_indentOne (l : Str) : braces (indentOne l) = braces l :=
  (tabsBefore_indentOne l).braces_eq

theorem braceKind_indentOne (l : Str) : braceKind (indentOne l) = braceKind l :=
  braceKind_congr (braces_indentOne l)

/-! ## Opening lines -/

theorem Kw.ofToken_text (k : Kw) : Kw.ofToken k.text = some k := by cases k <;> rfl

theorem Kw.isToken_text (k : Kw) : IsToken k.text := by
  have hne : k.text ≠ [] := by cases k <;> exact List.cons_ne_nil _ _
  have hspace : k.text.any isSpace = false := by cases k <;> rfl
  refine ⟨hne, fun c hc => ?_⟩
  exact Bool.eq_false_iff.mpr (List.any_eq_false.mp hspace c hc)

theorem Kw.braces_text (k : Kw) : braces k.text = [] := by cases k <;> rfl

theorem indexOfS_eq (l : Str) :
    indexOfS l = (split l).findIdx? fun f => decide ('{' ∈ f) := by
  unfold indexOfS
  rw [split_strip]
  congr 1
  funext f
  rw [decide_eq_decide, gt_iff_lt, neg_one_lt_find_iff]

/-- `is_def` holds exactly of the lines from which `__init__` reads a keyword. -/
theorem isDef_eq_isSome_openType (l : Str) : isDef l = (openType l).isSome := by
  unfold openType
  split_ifs with h
  · rw [h]
    unfold isDef at h
    cases hi : indexOfDef l with
    | none => simp [hi] at h
    | some i =>
      obtain ⟨hlt, hp, -⟩ := List.findIdx?_eq_some_iff_getElem.1 hi
      rw [Option.bind_some, List.getElem?_eq_getElem hlt, Option.bind_some, hp]
  · simpa using h

theorem openType_eq_none_iff {l : Str} : openType l = none ↔ isDef l = false := by
  rw [isDef_eq_isSome_openType, Option.isSome_eq_false_iff, Option.isNone_iff_eq_none]

/-- The keyword and the tag only depend on the tokens of the line. -/
theorem openType_congr {a b : Str} (h : split a = split b) : openType a = openType b := by
  simp only [openType, isDef, indexOfDef, split_strip, h]

theorem openDecl_congr {a b : Str} (h : split a = split b) : openDecl a = openDecl b := by
  simp only [openDecl, isDef, indexOfDef, indexOfS, split_strip, h]

/-- **Reading the keyword**: it is the first token or the second. -/
theorem openType_of_split {l : Str} {pre post : List Str} {k : Kw}
    (hl : split l = pre ++ k.text :: post) (hlen : pre.length ≤ 1)
    (hpre : ∀ q ∈ pre, Kw.ofToken q = none) :
    isDef l = true ∧ indexOfDef l = some pre.length ∧ openType l = some k := by
  have hdef : indexOfDef l = some pre.length := by
    rw [indexOfDef, split_strip, hl, List.findIdx?_append,
      List.findIdx?_eq_none_iff.2 fun q hq => by rw [hpre q hq]; rfl]
    simp [List.findIdx?_cons, Kw.ofToken_text]
  have hisDef : isDef l = true := by
    rw [isDef, hdef]
    simpa using hlen
  refine ⟨hisDef, hdef, ?_⟩
  rw [openType, if_pos hisDef, hdef, Option.bind_some, split_strip, hl]
  simp [Kw.ofToken_text]

/-- **Reading an opening line**: after at most one other token, a keyword, the tag and
a token with the `{`. -/
theorem open_eq_of_split {l : Str} {pre post : List Str} {k : Kw} {tag t : Str}
    (hl : split l = pre ++ k.text :: tag :: t :: post) (hlen : pre.length ≤ 1)
    (hpre : ∀ q ∈ pre, Kw.ofToken q = none ∧ '{' ∉ q) (htag : '{' ∉ tag) (ht : '{' ∈ t) :
    openType l = some k ∧ openDecl l = some tag := by
  obtain ⟨hisDef, hdef, htype⟩ := openType_of_split hl hlen fun q hq => (hpre q hq).1
  have hS : indexOfS l = some (pre.length + 2) := by
    have hk : '{' ∉ k.text := (braces_eq_nil_iff.1 k.braces_text).1
    rw [indexOfS_eq, hl, List.findIdx?_append,
      List.findIdx?_eq_none_iff.2 fun q hq => by simpa using (hpre q hq).2]
    simp [List.findIdx?_cons, hk, htag, ht]
    omega
  refine ⟨htype, ?_⟩
  rw [openDecl, if_pos hisDef, hdef, hS, split_strip, hl]
  simp

/-- Reading an opening line with a tag that starts with its keyword. -/
theorem open_eq_of_split_tagged {l : Str} {post : List Str} {k : Kw} {tag t : Str}
    (hl : split l = k.text :: tag :: t :: post) (htag : '{' ∉ tag) (ht : '{' ∈ t) :
    openType l = some k ∧ openDecl l = some tag :=
  @open_eq_of_split l [] post k tag t hl (Nat.zero_le 1) (by simp) htag ht

/-- Reading an opening line without a tag. -/
theorem open_eq_of_split_anonymous {l : Str} {post : List Str} {k : Kw} {t : Str}
    (hl : split l = k.text :: t :: post) (ht : '{' ∈ t) :
    openType l = some k ∧ openDecl l = none := by
  obtain ⟨hisDef, hdef, htype⟩ := @openType_of_split l [] _ k hl (Nat.zero_le 1) (by simp)
  have hS : indexOfS l = some 1 := by
    have hk : '{' ∉ k.text := (braces_eq_nil_iff.1 k.braces_text).1
    rw [indexOfS_eq, hl]
    simp [List.findIdx?_cons, hk, ht]
  refine ⟨htype, ?_⟩
  rw [openDecl, if_pos hisDef, hdef, hS]
  simp

/-- The tag of an opening line stands right before the first token with a `{`. -/
theorem exists_split_of_openDecl {l d : Str} (h : openDecl l = some d) :
    ∃ pre t post, split l = pre ++ d :: t :: post ∧ '{' ∈ t ∧ '{' ∉ d ∧ ∀ q ∈ pre, '{' ∉ q := by
  unfold openDecl at h
  split_ifs at h with hdef
  cases hi : indexOfDef l with
  | none => simp [hi] at h
  | some i =>
    cases hj : indexOfS l with
    | none => simp [hi, hj] at h
    | some j =>
      simp only [hi, hj] at h
      split_ifs at h with hij
      subst hij
      rw [split_strip] at h
      rw [indexOfS_eq] at hj
      -- `index_of_S` is the first token with a `{`, so none before it has one
      obtain ⟨hlt, hp, hmin⟩ := List.findIdx?_eq_some_iff_getElem.1 hj
      have hd : (split l)[i + 1] = d := by
        rw [List.getElem?_eq_getElem (by omega)] at h
        exact Option.some.inj h
      have hbefore : ∀ k (hk : k < i + 2), '{' ∉ (split l)[k] := fun k hk => by
        simpa using hmin k hk
      refine ⟨(split l).take (i + 1), (split l)[i + 2], (split l).drop (i + 3), ?_,
        by simpa using hp, hd ▸ hbefore (i + 1) (by omega), fun q hq => ?_⟩
      · rw [← hd, List.getElem_cons_drop, List.getElem_cons_drop, List.take_append_drop]
      · obtain ⟨k, hk, rfl⟩ := List.getElem_of_mem hq
        rw [List.getElem_take]
        exact hbefore k (by rw [List.length_take] at hk; omega)

theorem isToken_of_openDecl {l d : Str} (h : openDecl l = some d) : IsToken d := by
  obtain ⟨pre, t, post, hl, -⟩ := exists_split_of_openDecl h
  exact isToken_of_mem_split (s := l) (by simp [hl])

/-- A text in front of the first `{` holds no brace when the first brace is a `{`. -/
theorem braces_eq_nil_of_prefix {a b : Str} {r : Str} (h : braces (a ++ b) = '{' :: r)
    (ha : '{' ∉ a) : braces a = [] := by
  rw [braces_append] at h
  cases hb : braces a with
  | nil => rfl
  | cons c s =>
    rw [hb, List.cons_append] at h
    obtain ⟨rfl, -⟩ := List.cons.inj h
    exact absurd ((mem_braces_iff rfl).1 (hb ▸ List.mem_cons_self)) ha

/-- The first brace of a line that opens a block is a `{`. -/
def OpensBlock (l : Str) : Prop := ∃ r, braces l = '{' :: r

theorem opensBlock_of_opn {l : Str} (h : braceKind l = some .opn) : OpensBlock l :=
  ⟨_, braceKind_opn_iff.1 h⟩

theorem opensBlock_of_both {l : Str} (h : braceKind l = some .both) : OpensBlock l :=
  ⟨_, braceKind_both_iff.1 h⟩

/-- The tag of an opening line holds no brace. -/
theorem braces_of_openDecl {l d : Str} (h : openDecl l = some d) (hl : OpensBlock l) :
    braces d = [] := by
  obtain ⟨pre, t, post, hs, -, hd, hpre⟩ := exists_split_of_openDecl h
  obtain ⟨r, hr⟩ := hl
  rw [← braces_flatten_split, hs] at hr
  have hnil : braces (pre.flatten ++ d) = [] := by
    refine braces_eq_nil_of_prefix (b := (t :: post).flatten) (r := r) ?_ ?_
    · rw [← hr]
      simp
    · rw [List.mem_append, List.mem_flatten]
      rintro (⟨q, hq, hm⟩ | hm)
      · exact hpre q hq hm
      · exact hd hm
  rw [braces_append] at hnil
  exact (List.append_eq_nil_iff.1 hnil).2

end StructEnum
