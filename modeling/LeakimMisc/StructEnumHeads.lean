/-
# The tags in a text

Where a definition starts, its tag is the last word in front of the `{`, with a keyword in front
of it.  The words may stand on several lines, with comments between them.  `heads` takes the text
in front of every `{` from the brace before it on, and `defTags` reads the tags from there.

The lines of a file are read one after the other (`tagsFrom_opn`, `tagsFrom_cls`), each with the
text since the last brace.  Of this text only the words matter that a tag can be made of
(`Alike`): neither indentation nor a closing line changes what is read behind it.
-/
import LeakimMisc.StructEnumRun
import Mathlib.Data.List.DropRight

open PyStr Nest

namespace StructEnum

/-! ## Reading a tag -/

/-- The characters of a name. -/
def isNameChar (c : Char) : Bool := c.isAlphanum || c == '_' || decide (128 ≤ c.toNat)

/-- The word starts a comment. -/
def opensComment (w : Str) : Bool := "//".toList.isPrefixOf w || "/*".toList.isPrefixOf w

/-- The words of a line outside its comments; in the first case a comment goes on.  A comment
starts with a word and ends with the line at the latest. -/
def uncomment : Bool → List Str → List Str
  | _, [] => []
  | true, w :: ws => uncomment (!"*/".toList.isSuffixOf w) ws
  | false, w :: ws =>
      if "//".toList.isPrefixOf w then []
      else if "/*".toList.isPrefixOf w then uncomment (!"*/".toList.isSuffixOf w) ws
      else w :: uncomment false ws

/-- The words of a text outside its comments. -/
def words (text : Str) : List Str := (splitLines text).flatMap fun l => uncomment false (split l)

/-- A word that can be a tag: it ends like a name and is no keyword.  In front of the `{` of a
function stands a `)`, and in front of that of an initialiser a `=`. -/
def isTag (t : Str) : Bool :=
  t.getLast?.any isNameChar && (Kw.ofToken t).isNone && !opensComment t

/-- The word ends with a keyword. -/
def endsKw (w : Str) : Bool := (Kw.ofToken (w.rtakeWhile isNameChar)).isSome

/-- The tag at the end of a list of words, which is given backwards: the last word, when a
keyword stands in front of it. -/
def lastTag : List Str → Option Str
  | t :: k :: _ => if endsKw k && isTag t then some t else none
  | _ => none

/-- The tag of a definition, from the text in front of its `{`. -/
def headTag (before : Str) : Option Str := lastTag (words before).reverse

/-- Every `{` of a text: the depth of the block that it opens, and the text between the brace
before it and itself. -/
def heads : ℕ → Str → Str → List (ℕ × Str)
  | _, _, [] => []
  | depth, before, c :: s =>
      if c = '{' then (depth + 1, before) :: heads (depth + 1) [] s
      else if c = '}' then heads (depth - 1) [] s
      else heads depth (before ++ [c]) s

/-- The tags of the definitions in a text that stands behind `before`. -/
def tagsFrom (before text : Str) : List Str :=
  (heads 0 before text).filterMap fun h => headTag h.2

/-- The tags of the definitions in a text. -/
def defTags (text : Str) : List Str := tagsFrom [] text

example : defTags "struct a // b\n\x7b \x7d;\nint f(union c d) \x7b\n".toList = ["a".toList] := by
  decide

/-- The texts in front of the braces do not depend on the depth. -/
theorem map_snd_heads (depth depth' : ℕ) (before text : Str) :
    (heads depth before text).map Prod.snd = (heads depth' before text).map Prod.snd := by
  induction text generalizing depth depth' before with
  | nil => rfl
  | cons c s ih =>
    rw [heads, heads]
    split_ifs
    · rw [List.map_cons, List.map_cons, ih (depth + 1) (depth' + 1)]
    · exact ih _ _ _
    · exact ih _ _ _

theorem tagsFrom_eq (depth : ℕ) (before text : Str) :
    tagsFrom before text = (heads depth before text).filterMap fun h => headTag h.2 := by
  have hmap : ∀ hs : List (ℕ × Str),
      hs.filterMap (fun h => headTag h.2) = (hs.map Prod.snd).filterMap headTag := by
    intro hs
    rw [List.filterMap_map]
    rfl
  rw [tagsFrom, hmap, hmap, map_snd_heads 0 depth]

@[simp] theorem tagsFrom_nil (before : Str) : tagsFrom before [] = [] := rfl

/-- What stands in front of the rest of a text behind a character. -/
def behind (before : Str) (c : Char) : Str := if isBrace c then [] else before ++ [c]

/-- **One character.** -/
theorem tagsFrom_cons (before : Str) (c : Char) (s : Str) :
    tagsFrom before (c :: s) =
      (if c = '{' then (headTag before).toList else []) ++ tagsFrom (behind before c) s := by
  by_cases hopen : c = '{'
  · rw [if_pos hopen, tagsFrom, heads, if_pos hopen, List.filterMap_cons, hopen]
    show _ = _ ++ tagsFrom [] s
    rw [tagsFrom_eq 1 [] s]
    cases headTag before <;> rfl
  · rw [if_neg hopen, List.nil_append, tagsFrom, heads, if_neg hopen, behind]
    by_cases hclose : c = '}'
    · rw [if_pos hclose, hclose]
      rfl
    · rw [if_neg hclose, if_neg (by simp [isBrace, hopen, hclose])]
      rfl

theorem tagsFrom_open (before s : Str) :
    tagsFrom before ('{' :: s) = (headTag before).toList ++ tagsFrom [] s :=
  tagsFrom_cons before '{' s

theorem tagsFrom_close (before s : Str) : tagsFrom before ('}' :: s) = tagsFrom [] s :=
  tagsFrom_cons before '}' s

/-- A text without braces goes to what stands in front. -/
theorem tagsFrom_plain {x : Str} (hx : braces x = []) (before s : Str) :
    tagsFrom before (x ++ s) = tagsFrom (before ++ x) s := by
  induction x generalizing before with
  | nil => rw [List.append_nil, List.nil_append]
  | cons c x ih =>
    rw [braces_cons] at hx
    split_ifs at hx with hc
    have hopen : c ≠ '{' := fun h => hc (h ▸ rfl)
    rw [List.cons_append, tagsFrom_cons, if_neg hopen, behind, if_neg hc, List.nil_append, ih hx,
      List.append_assoc, List.singleton_append]

/-- What is read of a text does not depend on the text in front of it: then it is read behind
every text. -/
theorem tagsFrom_append {s : Str} {tags : List Str} (h : ∀ b, tagsFrom b s = tags)
    (before x : Str) : tagsFrom before (x ++ s) = tagsFrom before x ++ tags := by
  induction x generalizing before with
  | nil => exact h before
  | cons c x ih => rw [List.cons_append, tagsFrom_cons, tagsFrom_cons, ih, List.append_assoc]

/-! ## Lines -/

/-- What a line has in front of its `{`. -/
def beforeOpen (l : Str) : Str := l.takeWhile (· != '{')

/-- What a line has behind its `{`. -/
def afterOpen (l : Str) : Str := (l.dropWhile (· != '{')).tail

/-- What a line has behind its `}`. -/
def afterClose (l : Str) : Str := (l.dropWhile (· != '}')).tail

/-- The parts of a line whose first brace is a `{`. -/
theorem line_eq_open {l : Str} {r : Str} (h : braces l = '{' :: r) :
    l = beforeOpen l ++ '{' :: afterOpen l ∧ braces (beforeOpen l) = [] ∧
      braces (afterOpen l) = r := by
  have hmem : '{' ∈ l := (mem_braces_iff rfl).1 (by simp [h])
  obtain ⟨s, hs, hdrop⟩ := takeWhile_append_cons_of_mem hmem
  have hafter : afterOpen l = s := by rw [afterOpen, hdrop, List.tail_cons]
  have hsplit : l = beforeOpen l ++ '{' :: s := hs
  have hbefore : braces (beforeOpen l) = [] :=
    braces_eq_nil_of_prefix (hsplit ▸ h) (not_mem_takeWhile_ne l '{')
  refine ⟨by rw [hafter]; exact hsplit, hbefore, ?_⟩
  rw [hsplit, braces_append, hbefore, List.nil_append, braces_cons,
    if_pos (show isBrace '{' = true from rfl)] at h
  rw [hafter]
  exact (List.cons.inj h).2

/-- The text that a longer block starts with. -/
theorem openBody_opn {l : Str} (h : braceKind l = some .opn) :
    openBody l = '{' :: afterOpen l ∧ braces (afterOpen l) = [] := by
  obtain ⟨hparts, -, hafter⟩ := line_eq_open (braceKind_opn_iff.1 h)
  have hmem : '{' ∈ l := (opensBlock_of_opn h).mem
  obtain ⟨s, -, hdrop⟩ := takeWhile_append_cons_of_mem hmem
  have heq : afterOpen l = s := by rw [afterOpen, hdrop, List.tail_cons]
  have hclose : '}' ∉ '{' :: s := by
    rw [List.mem_cons, not_or, ← heq]
    exact ⟨by decide, (braces_eq_nil_iff.1 hafter).2⟩
  refine ⟨?_, hafter⟩
  rw [openBody_eq hmem, hdrop, takeWhile_ne_of_not_mem hclose, heq]

/-- The parts of a line that closes a block. -/
theorem line_eq_close {l : Str} (h : braces l = ['}']) :
    l = l.takeWhile (· != '}') ++ '}' :: afterClose l ∧ braces (l.takeWhile (· != '}')) = [] ∧
      braces (afterClose l) = [] := by
  obtain ⟨hafter, hmem⟩ := braces_tail_of_closesBlock (Or.inl h)
  obtain ⟨s, hs, hdrop⟩ := takeWhile_append_cons_of_mem hmem
  have heq : afterClose l = s := by rw [afterClose, hdrop, List.tail_cons]
  refine ⟨by rw [heq]; exact hs, ?_, hafter⟩
  rw [hs, braces_append, braces_cons, if_pos (show isBrace '}' = true from rfl)] at h
  cases hb : braces (l.takeWhile (· != '}')) with
  | nil => rfl
  | cons a s =>
    rw [hb] at h
    simp at h

/-- **A line that opens a block.** -/
theorem tagsFrom_opn {l : Str} (hl : braceKind l = some .opn) (before s : Str) :
    tagsFrom before (l ++ s) =
      (headTag (before ++ beforeOpen l)).toList ++ tagsFrom (afterOpen l) s := by
  obtain ⟨hparts, hbefore, hafter⟩ := line_eq_open (braceKind_opn_iff.1 hl)
  conv_lhs => rw [hparts, List.append_assoc, List.cons_append]
  rw [tagsFrom_plain hbefore, tagsFrom_open, tagsFrom_plain hafter, List.nil_append]

/-- **A line that closes a block.** -/
theorem tagsFrom_cls {l : Str} (hl : braceKind l = some .cls) (before s : Str) :
    tagsFrom before (l ++ s) = tagsFrom (afterClose l) s := by
  obtain ⟨hparts, hbefore, hafter⟩ := line_eq_close (braceKind_cls_iff.1 hl)
  conv_lhs => rw [hparts, List.append_assoc, List.cons_append]
  rw [tagsFrom_plain hbefore, tagsFrom_close, tagsFrom_plain hafter, List.nil_append]

/-- **A block on one line.** -/
theorem tagsFrom_both {l : Str} (hl : braceKind l = some .both) (before s : Str) :
    tagsFrom before (l ++ s) =
      (headTag (before ++ beforeOpen l)).toList ++ tagsFrom (afterClose l) s := by
  obtain ⟨hparts, hbefore, hafter⟩ := line_eq_open (braceKind_both_iff.1 hl)
  obtain ⟨hparts', hbefore', hafter'⟩ := line_eq_close hafter
  have hclose : afterClose (afterOpen l) = afterClose l := by
    have hnot : '}' ∉ beforeOpen l ++ ['{'] := by
      rw [List.mem_append, not_or]
      exact ⟨(braces_eq_nil_iff.1 hbefore).2, by decide⟩
    conv_rhs => rw [hparts, ← List.singleton_append, ← List.append_assoc]
    rw [afterClose, afterClose, List.dropWhile_append_of_pos]
    intro c hc
    simpa using ne_of_mem_of_not_mem hc hnot
  conv_lhs => rw [hparts, List.append_assoc, List.cons_append]
  rw [tagsFrom_plain hbefore, tagsFrom_open]
  conv_lhs => rw [hparts', List.append_assoc, List.cons_append]
  rw [tagsFrom_plain hbefore', tagsFrom_close, tagsFrom_plain hafter', List.nil_append, hclose]

/-- A closing line ends what is read in front of it. -/
theorem tagsFrom_append_cls {c : Str} (hc : braceKind c = some .cls) (before x s : Str) :
    tagsFrom before (x ++ (c ++ s)) = tagsFrom before x ++ tagsFrom (afterClose c) s :=
  tagsFrom_append (fun b => tagsFrom_cls hc b s) before x

/-! ## What the tags depend on -/

/-- Two texts in front of which nothing of a tag differs: it goes on in the same way behind them. -/
def Alike (a b : Str) : Prop := ∀ x, headTag (a ++ x) = headTag (b ++ x)

theorem Alike.append {a b : Str} (h : Alike a b) (x : Str) : Alike (a ++ x) (b ++ x) := by
  intro y
  rw [List.append_assoc, List.append_assoc]
  exact h (x ++ y)

theorem Alike.tagsFrom_eq {a b : Str} (h : Alike a b) (s : Str) :
    tagsFrom a s = tagsFrom b s := by
  induction s generalizing a b with
  | nil => rfl
  | cons c s ih =>
    have hhead : headTag a = headTag b := by
      have hnil := h []
      rwa [List.append_nil, List.append_nil] at hnil
    have hbehind : Alike (behind a c) (behind b c) := by
      unfold behind
      split_ifs
      · exact fun _ => rfl
      · exact h.append [c]
    rw [tagsFrom_cons, tagsFrom_cons, hhead, ih hbehind]

theorem words_append {a : Str} (ha : EndsLine a) (x : Str) :
    words (a ++ x) = words a ++ words x := by
  rw [words, splitLines_append ha, List.flatMap_append]
  rfl

theorem headTag_append {a : Str} (ha : EndsLine a) (x : Str) :
    headTag (a ++ x) = lastTag ((words x).reverse ++ (words a).reverse) := by
  rw [headTag, words_append ha, List.reverse_append]

/-- Behind a word that no tag is made of nothing of the text in front counts. -/
theorem alike_nil {a : Str} (ha : EndsLine a) {w : Str} {ws : List Str}
    (hwords : (words a).reverse = w :: ws) (hk : endsKw w = false)
    (htag : lastTag (w :: ws) = none) : Alike a [] := by
  intro x
  rw [headTag_append ha, headTag_append endsLine_nil, hwords]
  show _ = lastTag ((words x).reverse ++ [])
  rw [List.append_nil]
  -- the words behind `w` are none, one, or enough for a tag
  rcases (words x).reverse with _ | ⟨t, _ | ⟨k, ts⟩⟩
  · exact htag
  · show (if endsKw w && isTag t then some t else none) = none
    rw [hk]
    rfl
  · rfl

theorem endsLine_afterOpen {l : Str} (h : IsLine l) : EndsLine (afterOpen l) :=
  endsLine_of_suffix h ((List.tail_suffix _).trans (List.dropWhile_suffix _))

theorem endsLine_afterClose {l : Str} (h : IsLine l) : EndsLine (afterClose l) :=
  endsLine_of_suffix h ((List.tail_suffix _).trans (List.dropWhile_suffix _))

theorem words_tab_cons (x : Str) : words ('\t' :: x) = words x := by
  rw [words, words, splitLines, if_neg (by decide)]
  cases splitLines x with
  | nil => rfl
  | cons l ls =>
    show uncomment false (split ('\t' :: l)) ++ _ = _
    rw [split_cons_space rfl]
    rfl

/-- Indentation does not count. -/
theorem tagsFrom_indented {l' l : Str} (h : TabsBefore l' l) {before : Str} (hb : EndsLine before)
    (s : Str) : tagsFrom before (l' ++ s) = tagsFrom before (l ++ s) := by
  obtain ⟨t, rfl, ht⟩ := h
  have hplain : braces t = [] := braces_eq_nil_iff.2
    ⟨fun hm => absurd (ht _ hm) (by decide), fun hm => absurd (ht _ hm) (by decide)⟩
  have hwords : ∀ x, words (t ++ x) = words x := by
    intro x
    clear hplain
    induction t with
    | nil => rfl
    | cons c t ih =>
      rw [ht c List.mem_cons_self, List.cons_append, words_tab_cons,
        ih fun d hd => ht d (List.mem_cons_of_mem _ hd)]
  rw [List.append_assoc, tagsFrom_plain hplain]
  apply Alike.tagsFrom_eq
  intro x
  rw [List.append_assoc, headTag_append hb, headTag_append hb, hwords]

/-- What is read behind a complete line may change its indentation. -/
theorem tagsFrom_congr_line {s s' : Str} (h : ∀ b, EndsLine b → tagsFrom b s = tagsFrom b s')
    {l : Str} (hl : IsLine l) (before : Str) :
    tagsFrom before (l ++ s) = tagsFrom before (l ++ s') := by
  obtain ⟨x, rfl, -⟩ := hl
  rw [List.append_assoc, List.append_assoc, List.singleton_append, List.singleton_append]
  induction x generalizing before with
  | nil =>
    rw [List.nil_append, List.nil_append, tagsFrom_cons, tagsFrom_cons]
    exact congrArg _ (h _ (endsLine_concat before))
  | cons c x ih =>
    rw [List.cons_append, List.cons_append, tagsFrom_cons, tagsFrom_cons, ih]

/-- Lines that are indented in another way. -/
theorem tagsFrom_map {f : Str → Str} (hf : Reindents f) {ls : List Str}
    (hls : ∀ l ∈ ls, IsLine l) {before : Str} (hb : EndsLine before) (s : Str) :
    tagsFrom before ((ls.map f).flatten ++ s) = tagsFrom before (ls.flatten ++ s) := by
  induction ls generalizing before with
  | nil => rfl
  | cons l ls ih =>
    rw [List.map_cons, List.flatten_cons, List.flatten_cons, List.append_assoc, List.append_assoc,
      tagsFrom_indented (hf.tabs l) hb]
    apply tagsFrom_congr_line _ (hls l List.mem_cons_self)
    intro b hgap
    exact ih (fun m hm => hls m (List.mem_cons_of_mem _ hm)) hgap

/-! ## The lines that a hoist writes -/

theorem Kw.endsKw_text (k : Kw) : endsKw k.text = true := by cases k <;> decide

/-- A word behind a keyword that looks like a comment does not count. -/
theorem uncomment_pair (k : Kw) (t : Str) :
    uncomment false [k.text, t] = k.text :: if opensComment t then [] else [t] := by
  have hkw : uncomment false [k.text, t] = k.text :: uncomment false [t] := by cases k <;> rfl
  rw [hkw, uncomment, opensComment]
  cases "//".toList.isPrefixOf t <;> cases "/*".toList.isPrefixOf t <;> rfl

/-- A keyword is no tag. -/
theorem lastTag_kw (k : Kw) (ws : List Str) : lastTag (k.text :: ws) = none := by
  have hname : isTag k.text = false := by cases k <;> decide
  cases ws with
  | nil => rfl
  | cons w ws =>
    show (if endsKw w && isTag k.text then some k.text else none) = none
    rw [hname, Bool.and_false]
    rfl

namespace Hoist

variable {h : Hoist}

/-- In front of the `{` stand the keyword and the tag, unless the tag looks like a comment. -/
theorem Ok.words_head (hok : h.Ok) : ∃ pre,
    words h.head = pre ++ h.kw.text :: if opensComment h.tag then [] else [h.tag] := by
  have hline : words h.head = uncomment false (split h.head) := by
    have hnewline : '\n' ∉ h.head := hok.newline_not_mem_head
    have hne : h.head ≠ [] := List.append_ne_nil_of_right_ne_nil _ (by decide)
    rw [words, splitLines_of_not_mem hne hnewline]
    exact List.append_nil _
  have htag : split (h.tag ++ " ".toList) = [h.tag] :=
    split_token_append (hok.tag.isToken hok.tag_ne) rfl []
  have hkw : split (h.kw.text ++ ' ' :: (h.tag ++ " ".toList)) = [h.kw.text, h.tag] := by
    rw [split_token_append h.kw.isToken_text rfl, htag]
  rw [hline, ← uncomment_pair]
  cases hp : h.packed with
  | false => exact ⟨[], by rw [List.nil_append, ← hkw, head, hp]; simp⟩
  | true =>
    refine ⟨["STRUCT_PACKED_START".toList], ?_⟩
    have htok : IsToken "STRUCT_PACKED_START".toList := by simp [IsToken, isSpace]
    have hsplit : split h.head = "STRUCT_PACKED_START".toList :: [h.kw.text, h.tag] := by
      rw [← hkw, ← split_token_append (c := ' ') htok rfl, head, hp]
      simp
    rw [hsplit]
    rfl

/-- **The hoisted definition** carries the tag of the hoist. -/
theorem Ok.tagsFrom_head (hok : h.Ok) {before : Str} (hb : EndsLine before) (s : Str) :
    tagsFrom before (h.head ++ '{' :: s) =
      (if isTag h.tag then [h.tag] else []) ++ tagsFrom [] s := by
  have hhead : headTag (before ++ h.head) = if isTag h.tag then some h.tag else none := by
    obtain ⟨pre, hwords⟩ := hok.words_head
    rw [headTag_append hb, hwords, List.reverse_append, List.append_assoc]
    cases hcomment : opensComment h.tag with
    | true =>
      have htag : isTag h.tag = false := by rw [isTag, hcomment, Bool.not_true, Bool.and_false]
      rw [htag]
      exact lastTag_kw h.kw _
    | false =>
      show (if endsKw h.kw.text && isTag h.tag then some h.tag else none) = _
      rw [h.kw.endsKw_text, Bool.true_and]
  rw [tagsFrom_plain hok.braces_head, tagsFrom_open, hhead]
  split_ifs <;> rfl

/-- The closing line of a hoisted definition ends what is read in front of it. -/
theorem tagsFrom_append_closeLine (h : Hoist) (before x s : Str) :
    tagsFrom before (x ++ (h.closeLine ++ s)) = tagsFrom before x ++ tagsFrom [] s := by
  have hend : EndsLine (afterClose h.closeLine) := endsLine_afterClose h.isLine_closeLine
  have hwords : ∃ ws, (words (afterClose h.closeLine)).reverse = [';'] :: ws ∧
      lastTag ([';'] :: ws) = none := by
    unfold closeLine
    cases h.packed
    · exact ⟨[], by decide, by decide⟩
    · exact ⟨["STRUCT_PACKED_END".toList], by decide, by decide⟩
  obtain ⟨ws, hwords, hnone⟩ := hwords
  rw [tagsFrom_append_cls h.braceKind_closeLine,
    (alike_nil hend hwords (by decide) hnone).tagsFrom_eq]

/-- The opening line of a hoisted definition. -/
theorem Ok.tagsFrom_openLine (hok : h.Ok) {o : Str} (ho : braceKind o = some .opn)
    {before : Str} (hb : EndsLine before) (s : Str) :
    tagsFrom before (h.openLine o ++ s) =
      (if isTag h.tag then [h.tag] else []) ++ tagsFrom (afterOpen o) s := by
  obtain ⟨hbody, hafter⟩ := openBody_opn ho
  rw [openLine, hbody, List.append_assoc, List.cons_append, hok.tagsFrom_head hb,
    tagsFrom_plain hafter, List.nil_append]

/-- A hoisted definition on one line. -/
theorem Ok.tagsFrom_oneLine (hok : h.Ok) {l : Str} (hl : braceKind l = some .both)
    {before : Str} (hb : EndsLine before) (s : Str) :
    tagsFrom before (h.oneLine l ++ s) =
      (if isTag h.tag then [h.tag] else []) ++ tagsFrom [] s := by
  obtain ⟨⟨x, hx⟩, hbody⟩ := braces_openBody (Or.inr (braceKind_both_iff.1 hl))
  have hinner : braces x = [] := by
    rw [hx, braces_cons, if_pos (show isBrace '{' = true from rfl)] at hbody
    exact (List.cons.inj hbody).2
  have hnone : tagsFrom [] x = [] := by
    have hplain := tagsFrom_plain hinner [] []
    rwa [List.append_nil, tagsFrom_nil] at hplain
  rw [oneLine, openLine, hx, List.append_assoc, List.append_assoc, List.cons_append,
    hok.tagsFrom_head hb, h.tagsFrom_append_closeLine, hnone, List.nil_append]

/-- What is left in the place of a hoisted block has no braces. -/
theorem Ok.braces_genLines (hok : h.Ok) : braces h.genLines.flatten = [] := by
  rw [braces, List.filter_flatten, List.flatten_eq_nil_iff]
  intro l hl
  obtain ⟨m, hm, rfl⟩ := List.mem_map.1 hl
  exact braceKind_plain_iff.1 (hok.braceKind_genLines hm)

theorem endsLine_append_genLines (h : Hoist) (before : Str) :
    EndsLine (before ++ h.genLines.flatten) := by
  have hlast : before ++ h.genLines.flatten =
      before ++ "\t/* GENERATED */\n\t".toList ++ h.declText ++ ['\n'] ++ ['\n'] := by
    simp [genLines]
  rw [hlast]
  exact endsLine_concat _

end Hoist

end StructEnum
