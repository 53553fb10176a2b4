/-
# One block, hoisted

What becomes of a block that a pass hoists.  `hoistOf` reads the opening and the
closing line of a block: whether it is a definition at all, and if so its keyword,
its tag (written or made) and its declarator; it fails where `last_line` raises.
From that the lines that the pass writes are put together (`Hoist.openLine`,
`Hoist.closeLine`, `Hoist.genLines`), and they are lines of the same kinds again: the
opening line opens a block and carries the tag, the closing line closes it, and what
stands in place of the block holds no brace.
-/
import LeakimMisc.StructEnumLines

open PyStr Nest

namespace StructEnum

/-- The closing line of a block: nothing but the one `}`, or a block on one line. -/
def ClosesBlock (l : Str) : Prop := braces l = ['}'] ∨ braces l = ['{', '}']

theorem closesBlock_of_cls {l : Str} (h : braceKind l = some .cls) : ClosesBlock l :=
  Or.inl (braceKind_cls_iff.1 h)

theorem closesBlock_of_both {l : Str} (h : braceKind l = some .both) : ClosesBlock l :=
  Or.inr (braceKind_both_iff.1 h)

/-! ## The body -/

theorem OpensBlock.mem {l : Str} (h : OpensBlock l) : '{' ∈ l := by
  obtain ⟨r, hr⟩ := h
  exact (mem_braces_iff rfl).1 (hr ▸ List.mem_cons_self)

/-- `takeWhile` runs to the end when the character does not occur. -/
theorem takeWhile_ne_of_not_mem {s : Str} {c : Char} (h : c ∉ s) : s.takeWhile (· != c) = s :=
  List.takeWhile_eq_self_iff.2 fun a ha => by simpa using fun hac : a = c => h (hac ▸ ha)

/-- `__init__` keeps the line from the `{` on, up to a `}`. -/
theorem openBody_eq {l : Str} (h : '{' ∈ l) :
    openBody l = (l.dropWhile (· != '{')).takeWhile (· != '}') := by
  have hi : find l '{' ≠ -1 := fun he => find_eq_neg_one_iff.1 he h
  simp only [openBody, if_pos hi, sliceFrom_find_of_mem h]
  by_cases hj : '}' ∈ l.dropWhile (· != '{')
  · rw [if_pos fun he => find_eq_neg_one_iff.1 he hj, sliceTo_find_of_mem hj]
  · rw [if_neg (by simpa using find_of_not_mem hj), takeWhile_ne_of_not_mem hj]

/-- A text is what stands before a character of it, the character, and the rest. -/
theorem takeWhile_append_cons_of_mem {s : Str} {c : Char} (h : c ∈ s) :
    ∃ r, s = s.takeWhile (· != c) ++ c :: r ∧ s.dropWhile (· != c) = c :: r := by
  have hne : s.dropWhile (· != c) ≠ [] := by
    rw [ne_eq, List.dropWhile_eq_nil_iff]
    exact fun hall => by simpa using hall c h
  obtain ⟨a, r, hr⟩ := List.exists_cons_of_ne_nil hne
  have ha := List.head_dropWhile_not (· != c) (l := s) hne
  simp only [hr, List.head_cons, bne_eq_false_iff_eq] at ha
  subst ha
  exact ⟨r, by rw [← hr, List.takeWhile_append_dropWhile], hr⟩

theorem not_mem_takeWhile_ne (s : Str) (c : Char) : c ∉ s.takeWhile (· != c) := fun h => by
  simpa using List.mem_takeWhile_imp h

/-- The body of an opening line starts with the `{`, which is its only brace. -/
theorem braces_openBody {l : Str} (h : braces l = ['{'] ∨ braces l = ['{', '}']) :
    (∃ x, openBody l = '{' :: x) ∧ braces (openBody l) = ['{'] := by
  have hopen : OpensBlock l := h.elim (fun h => ⟨_, h⟩) fun h => ⟨_, h⟩
  obtain ⟨r, hl, hr⟩ := takeWhile_append_cons_of_mem hopen.mem
  have hx : openBody l = '{' :: r.takeWhile (· != '}') := by
    rw [openBody_eq hopen.mem, hr]
    rfl
  refine ⟨⟨_, hx⟩, ?_⟩
  have hpre : braces (l.takeWhile (· != '{')) = [] := by
    obtain ⟨s, hs⟩ := hopen
    exact braces_eq_nil_of_prefix (hl ▸ hs) (not_mem_takeWhile_ne l '{')
  have hbr : braces l = '{' :: braces r := by
    conv_lhs => rw [hl]
    rw [braces_append, hpre, braces_cons]
    rfl
  -- the second brace of the line, if there is one, is a `}`
  have hrest : '{' ∉ r := by
    intro hm
    have hm' : '{' ∈ braces r := (mem_braces_iff rfl).2 hm
    rcases h with h | h
    · rw [(List.cons.inj (hbr.symm.trans h)).2] at hm'
      simp at hm'
    · rw [(List.cons.inj (hbr.symm.trans h)).2] at hm'
      simp at hm'
  have hnil : braces (r.takeWhile (· != '}')) = [] := braces_eq_nil_iff.2
    ⟨fun hm => hrest ((List.takeWhile_prefix _).subset hm), not_mem_takeWhile_ne r '}'⟩
  rw [hx, braces_cons, hnil]
  rfl

/-- The body of the opening line of a longer block is a complete line. -/
theorem isLine_openBody {l : Str} (h : braces l = ['{']) (hl : IsLine l) :
    IsLine (openBody l) := by
  have hopen : OpensBlock l := ⟨[], h⟩
  have hno : '}' ∉ l := fun hm => by
    have := (mem_braces_iff (c := '}') rfl).2 hm
    simp [h] at this
  obtain ⟨r, hr, hdrop⟩ := takeWhile_append_cons_of_mem hopen.mem
  have hbody : openBody l = '{' :: r := by
    rw [openBody_eq hopen.mem, hdrop, takeWhile_ne_of_not_mem]
    rw [← hdrop]
    exact fun hm => hno ((List.dropWhile_suffix _).subset hm)
  obtain ⟨x, hx, hn⟩ := hl
  rw [hbody]
  -- the newline that ends the line is the last character of the body
  rcases List.eq_nil_or_concat r with rfl | ⟨y, c, rfl⟩
  · rw [hr] at hx
    have := (List.append_inj' hx rfl).2
    exact absurd (List.cons.inj this).1 (by decide)
  · rw [List.concat_eq_append] at hr hbody ⊢
    rw [hx, ← List.cons_append, ← List.append_assoc] at hr
    obtain ⟨hxy, hc⟩ := List.append_inj' hr rfl
    refine ⟨'{' :: y, by rw [← hc]; rfl, fun hm => hn ?_⟩
    rw [hxy]
    exact List.mem_append_right _ hm

/-- The body of a block on one line ends before the newline. -/
theorem newline_not_mem_openBody {l : Str} (h : braces l = ['{', '}']) (hl : IsLine l) :
    '\n' ∉ openBody l := by
  have hopen : OpensBlock l := ⟨_, h⟩
  have hcls : '}' ∈ l := (mem_braces_iff rfl).1 (by simp [h])
  obtain ⟨r, hr, hdrop⟩ := takeWhile_append_cons_of_mem hopen.mem
  have hpre : '}' ∉ l.takeWhile (· != '{') := by
    have := braces_eq_nil_of_prefix (hr ▸ h) (not_mem_takeWhile_ne l '{')
    exact (braces_eq_nil_iff.1 this).2
  have hmem : '}' ∈ l.dropWhile (· != '{') := by
    rw [← List.takeWhile_append_dropWhile (p := (· != '{')) (l := l), List.mem_append] at hcls
    exact hcls.resolve_left hpre
  obtain ⟨s, hs, -⟩ := takeWhile_append_cons_of_mem hmem
  obtain ⟨x, hx, hn⟩ := hl
  rw [openBody_eq hopen.mem]
  intro hm
  -- the newline is the last character of the line, and the `}` comes after the body
  have hsplit : l = (l.takeWhile (· != '{')
      ++ (l.dropWhile (· != '{')).takeWhile (· != '}')) ++ '}' :: s := by
    rw [List.append_assoc, ← hs, List.takeWhile_append_dropWhile]
  rcases List.eq_nil_or_concat ('}' :: s) with h0 | ⟨y, c, hy⟩
  · simp at h0
  · rw [List.concat_eq_append] at hy
    rw [hy, ← List.append_assoc] at hsplit
    obtain ⟨hxy, -⟩ := List.append_inj' (hx.symm.trans hsplit) rfl
    refine hn ?_
    rw [hxy]
    exact List.mem_append_left _ (List.mem_append_right _ hm)

/-! ## The closing line -/

/-- The declarator as `last_line` reads it: `name0`. -/
def closeName0 (c : Str) : Option Str := (closeTokens c).head?.map nameZero

/-- What follows the `}` of a closing line holds no brace. -/
theorem braces_tail_of_closesBlock {l : Str} (h : ClosesBlock l) :
    braces (l.dropWhile (· != '}')).tail = [] ∧ '}' ∈ l := by
  have hmem : '}' ∈ l := (mem_braces_iff rfl).1 (by rcases h with h | h <;> simp [h])
  obtain ⟨r, hr, hdrop⟩ := takeWhile_append_cons_of_mem hmem
  refine ⟨?_, hmem⟩
  have hno := not_mem_takeWhile_ne l '}'
  have hb : braces l = braces (l.takeWhile (· != '}')) ++ '}' :: braces r := by
    conv_lhs => rw [hr]
    rw [braces_append, braces_cons]
    rfl
  rw [hdrop, List.tail_cons]
  -- the `}` is the only brace, or the second of `{` and `}`
  rcases h with h | h <;> rw [hb] at h
  · cases hp : braces (l.takeWhile (· != '}')) with
    | nil => rw [hp] at h; simpa using h
    | cons a s => rw [hp] at h; simp at h
  · cases hp : braces (l.takeWhile (· != '}')) with
    | nil => rw [hp] at h; simp at h
    | cons a s =>
      rw [hp] at h
      cases s with
      | nil => simpa using (List.cons.inj h).2
      | cons b s => simp at h

/-- The tokens of the closing line after its `}`. -/
theorem closeTokens_eq {l : Str} (h : '}' ∈ l) :
    closeTokens l = if hasText l "STRUCT_PACKED".toList
      then (split (l.dropWhile (· != '}')).tail).drop 1
      else split (l.dropWhile (· != '}')).tail := by
  simp only [closeTokens, sliceFrom_find_succ_of_mem h, split_strip]

theorem isToken_packed : IsToken "STRUCT_PACKED".toList := by simp [IsToken, isSpace]

/-- A token of the closing line after its `}` is a token without braces. -/
theorem isToken_of_mem_closeTokens {l t : Str} (hl : ClosesBlock l) (ht : t ∈ closeTokens l) :
    IsToken t ∧ braces t = [] := by
  obtain ⟨hb, hmem⟩ := braces_tail_of_closesBlock hl
  have ht' : t ∈ split (l.dropWhile (· != '}')).tail := by
    rw [closeTokens_eq hmem] at ht
    split_ifs at ht
    · exact List.mem_of_mem_drop ht
    · exact ht
  refine ⟨isToken_of_mem_split ht', braces_eq_nil_iff.2 ?_⟩
  have hsub : ∀ c, isSpace c = false → c ∈ t → c ∈ (l.dropWhile (· != '}')).tail :=
    fun c hc hct => (mem_iff_mem_split hc).2 ⟨t, ht', hct⟩
  obtain ⟨ho, hc⟩ := braces_eq_nil_iff.1 hb
  exact ⟨fun hm => ho (hsub _ rfl hm), fun hm => hc (hsub _ rfl hm)⟩

theorem sliceTo_isPrefix (s : Str) (k : ℤ) : sliceTo s k <+: s := by
  unfold sliceTo
  split_ifs <;> exact List.take_prefix _ _

theorem sliceTo_sublist (s : Str) (k : ℤ) : (sliceTo s k).Sublist s :=
  (sliceTo_isPrefix s k).sublist

theorem sliceFrom_sublist (s : Str) (k : ℤ) : (sliceFrom s k).Sublist s := by
  unfold sliceFrom
  split_ifs <;> exact List.drop_sublist _ _

theorem nameZero_sublist (f0 : Str) : (nameZero f0).Sublist f0 := sliceTo_sublist _ _

theorem bareName_sublist (name0 : Str) : (bareName name0).Sublist name0 := by
  have hcut : (if find name0 '[' ≠ -1 then sliceTo name0 (find name0 '[') else name0).Sublist
      name0 := by
    split_ifs
    · exact sliceTo_sublist _ _
    · exact List.Sublist.refl _
  simp only [bareName]
  split_ifs
  · exact (sliceFrom_sublist _ _).trans (sliceTo_sublist _ _)
  · exact sliceTo_sublist _ _
  · exact sliceFrom_sublist _ _
  · exact List.Sublist.refl _

/-- The cut at the `;` keeps what stands in front of it. -/
theorem nameZero_append_semicolon {s : Str} (h : ';' ∉ s) (r : Str) :
    nameZero (s ++ ';' :: r) = s := by
  rw [nameZero, sliceTo_find_of_mem (by simp), List.takeWhile_append_of_pos]
  · simp
  · intro c hc
    simpa using ne_of_mem_of_not_mem hc h

/-- `last_line` cuts the name at the first `[`, and then keeps it from a `*` on. -/
theorem bareName_append {a s : Str} (ha : '[' ∉ a) (hs : s = [] ∨ ∃ r, s = '[' :: r) :
    bareName (a ++ s) = if '*' ∈ a then a.dropWhile (· != '*') else a := by
  have hcut : (if find (a ++ s) '[' ≠ -1 then sliceTo (a ++ s) (find (a ++ s) '[') else a ++ s)
      = a := by
    rcases hs with rfl | ⟨r, rfl⟩
    · rw [List.append_nil, if_neg (by simpa using find_of_not_mem ha)]
    · have hmem : '[' ∈ a ++ '[' :: r := by simp
      rw [if_pos fun he => find_eq_neg_one_iff.1 he hmem, sliceTo_find_of_mem hmem,
        List.takeWhile_append_of_pos fun c hc => by simpa using ne_of_mem_of_not_mem hc ha]
      simp
  simp only [bareName, hcut]
  by_cases hstar : '*' ∈ a
  · rw [if_pos fun he => find_eq_neg_one_iff.1 he hstar, if_pos hstar, sliceFrom_find_of_mem hstar]
  · rw [if_neg (by simpa using find_of_not_mem hstar), if_neg hstar]

/-- No white space and no brace: what a tag and a declarator are made of. -/
def Solid (s : Str) : Prop := ∀ c ∈ s, isSpace c = false ∧ isBrace c = false

theorem Solid.sublist {s t : Str} (h : Solid t) (hs : s.Sublist t) : Solid s :=
  fun c hc => h c (hs.subset hc)

theorem Solid.append {s t : Str} (hs : Solid s) (ht : Solid t) : Solid (s ++ t) := fun c hc =>
  (List.mem_append.1 hc).elim (hs c) (ht c)

theorem Solid.braces {s : Str} (h : Solid s) : braces s = [] :=
  List.filter_eq_nil_iff.2 fun c hc => by simp [(h c hc).2]

theorem Solid.newline_not_mem {s : Str} (h : Solid s) : '\n' ∉ s := fun hm =>
  absurd (h _ hm).1 (by decide)

theorem Solid.isToken {s : Str} (h : Solid s) (hne : s ≠ []) : IsToken s :=
  ⟨hne, fun c hc => (h c hc).1⟩

theorem solid_of_isToken {s : Str} (h : IsToken s) (hb : StructEnum.braces s = []) : Solid s :=
  fun c hc => ⟨h.2 c hc, by simpa using List.filter_eq_nil_iff.1 hb c hc⟩

theorem Kw.solid_text (k : Kw) : Solid k.text := solid_of_isToken k.isToken_text k.braces_text

/-- The declarator of a closing line. -/
theorem solid_of_closeName0 {c n : Str} (hc : ClosesBlock c) (h : closeName0 c = some n) :
    Solid n := by
  unfold closeName0 at h
  obtain ⟨f0, hf0, rfl⟩ := Option.map_eq_some_iff.1 h
  obtain ⟨htok, hb⟩ := isToken_of_mem_closeTokens hc (List.mem_of_mem_head? hf0)
  exact (solid_of_isToken htok hb).sublist (nameZero_sublist f0)

/-- The generated tag. -/
theorem solid_genDecl {name parent : Str} (k : Kw) (hn : Solid name) (hp : Solid parent) :
    Solid (genDecl name parent k) ∧ genDecl name parent k ≠ [] := by
  have h1 : Solid "_in_".toList := by simp [Solid, isSpace, isBrace]
  have h2 : Solid "_".toList := by simp [Solid, isSpace, isBrace]
  refine ⟨(((hn.append h1).append hp).append h2).append
    (k.solid_text.sublist (List.take_sublist _ _)), ?_⟩
  simp [genDecl]

/-! ## What a hoist writes -/

/-- What a pass knows about the block that it hoists. -/
structure Hoist where
  kw : Kw
  tag : Str
  packed : Bool
  name0 : Option Str
  deriving DecidableEq, Repr

/-- Reading a block from its opening line `o` and its closing line `c`, inside a parent
whose tag is `parent`: `none` when it is no definition. -/
def hoistOf (o c : Str) (parent : Option Str) : Except PyError (Option Hoist) :=
  match openType o with
  | none => .ok none
  | some kw =>
      let packed := hasText c "STRUCT_PACKED".toList
      match openDecl o, (closeName0 c).map bareName, parent with
      | some tag, _, _ => .ok (some ⟨kw, tag, packed, closeName0 c⟩)
      | none, some name, some parent =>
          .ok (some ⟨kw, genDecl name parent kw, packed, closeName0 c⟩)
      | none, _, _ => .error .typeError

namespace Hoist

/-- What stands before the body in front of the parent. -/
def head (h : Hoist) : Str :=
  (if h.packed then "STRUCT_PACKED_START ".toList else []) ++ h.kw.text ++ " ".toList
    ++ h.tag ++ " ".toList

/-- The opening line of the hoisted definition. -/
def openLine (h : Hoist) (o : Str) : Str := h.head ++ openBody o

/-- The closing line of the hoisted definition. -/
def closeLine (h : Hoist) : Str :=
  '}' :: (if h.packed then " STRUCT_PACKED_END ".toList else []) ++ ";\n".toList

/-- The hoisted definition of a block on one line. -/
def oneLine (h : Hoist) (o : Str) : Str := h.openLine o ++ h.closeLine

/-- The declaration that replaces the block. -/
def declText (h : Hoist) : Str :=
  match h.name0 with
  | none => missingName
  | some name0 => h.kw.text ++ " ".toList ++ h.tag ++ " ".toList ++ name0 ++ ";".toList

/-- The lines that replace the block. -/
def genLines (h : Hoist) : List Str :=
  ["\t/* GENERATED */\n".toList, "\t".toList ++ h.declText ++ "\n".toList, "\n".toList]

/-- The object that `last_line` leaves, for a block with the text `txt` between its
opening and its closing line. -/
def toS (h : Hoist) (start stop : ℕ) (o txt : Str) : S where
  decl := some h.tag
  name0 := h.name0
  name := h.name0.map bareName
  type0 := some h.kw
  structPacked := h.packed
  start := start
  stop := stop
  body := openBody o ++ txt ++ ['}']

theorem getDecl_toS (h : Hoist) (start stop : ℕ) (o txt : Str) :
    (h.toS start stop o txt).getDecl = .ok h.declText := by
  unfold declText toS S.getDecl
  cases h.name0 <;> rfl

theorem getTypedef_toS_eq (h : Hoist) (start stop : ℕ) (o txt : Str) :
    (h.toS start stop o txt).getTypedef = .ok (h.head ++ openBody o ++ txt
      ++ '}' :: ((if h.packed then " STRUCT_PACKED_END ".toList else []) ++ ";".toList)) := by
  unfold toS S.getTypedef head
  cases h.packed <;> simp

theorem getTypedef_toS (h : Hoist) (start stop : ℕ) (o txt : Str) :
    ∃ t, (h.toS start stop o txt).getTypedef = .ok t ∧
      t ++ "\n".toList = h.openLine o ++ txt ++ h.closeLine := by
  refine ⟨_, h.getTypedef_toS_eq start stop o txt, ?_⟩
  unfold openLine closeLine
  cases h.packed <;> simp

/-- The tag and the declarator are made of neither white space nor braces. -/
structure Ok (h : Hoist) : Prop where
  tag : Solid h.tag
  tag_ne : h.tag ≠ []
  name0 : ∀ n, h.name0 = some n → Solid n

end Hoist

/-- A tag that can stand in front of a `{`. -/
def ParentOk (parent : Option Str) : Prop := ∀ d, parent = some d → Solid d ∧ d ≠ []

theorem parentOk_openDecl {o : Str} (ho : OpensBlock o) : ParentOk (openDecl o) := fun _ hd =>
  have htok := isToken_of_openDecl hd
  ⟨solid_of_isToken htok (braces_of_openDecl hd ho), htok.1⟩

theorem Hoist.Ok.parentOk {h : Hoist} (hok : h.Ok) : ParentOk (some h.tag) := fun _ hd => by
  obtain rfl := Option.some.inj hd
  exact ⟨hok.tag, hok.tag_ne⟩

/-- Leading tabs do not matter to the search for a text without tabs. -/
theorem TabsBefore.hasText_eq {l' l : Str} (h : TabsBefore l' l) {a : Char} {t : Str}
    (ha : a ≠ '\t') : hasText l' (a :: t) = hasText l (a :: t) := by
  obtain ⟨tabs, rfl, htabs⟩ := h
  induction tabs with
  | nil => rfl
  | cons c tabs ih =>
    rw [ih fun d hd => htabs d (List.mem_cons_of_mem _ hd), hasText, hasText, decide_eq_decide,
      List.cons_append, List.infix_cons_iff, or_iff_right]
    intro hp
    exact ha ((List.cons_prefix_cons.1 hp).1.trans (htabs c List.mem_cons_self))

theorem hasText_packed_indentNone (c : Str) :
    hasText (indentNone c) "STRUCT_PACKED".toList = hasText c "STRUCT_PACKED".toList :=
  (tabsBefore_indentNone c).hasText_eq (by decide)

theorem closeTokens_indentNone {c : Str} (hc : '}' ∈ c) :
    closeTokens (indentNone c) = closeTokens c := by
  have htabs := tabsBefore_indentNone c
  rw [closeTokens_eq hc, closeTokens_eq ((htabs.mem_iff (by decide)).2 hc),
    hasText_packed_indentNone, htabs.dropWhile_eq (by decide)]

/-- What `hoistOf` reads is fit to be written. -/
theorem hoistOf_ok {o c : Str} {parent : Option Str} {h : Hoist}
    (heq : hoistOf o c parent = .ok (some h)) (ho : OpensBlock o) (hc : ClosesBlock c)
    (hp : ParentOk parent) : h.Ok := by
  unfold hoistOf at heq
  cases hk : openType o with
  | none => simp [hk] at heq
  | some kw =>
    cases hd : openDecl o with
    | some tag =>
      -- the block keeps the tag that it has
      simp only [hk, hd, Except.ok.injEq, Option.some.injEq] at heq
      subst heq
      obtain ⟨hs, hne⟩ := parentOk_openDecl ho tag hd
      exact ⟨hs, hne, fun n hn => solid_of_closeName0 hc hn⟩
    | none =>
      -- the tag is made of the name and the tag of the parent
      cases hn : closeName0 c with
      | none => simp [hk, hd, hn] at heq
      | some n =>
        cases parent with
        | none => simp [hk, hd, hn] at heq
        | some p =>
          simp only [hk, hd, hn, Option.map_some, Except.ok.injEq, Option.some.injEq] at heq
          subst heq
          have hsn := solid_of_closeName0 hc hn
          obtain ⟨hs, hne⟩ := solid_genDecl kw (hsn.sublist (bareName_sublist n)) (hp p rfl).1
          exact ⟨hs, hne, fun n' hn' => solid_of_closeName0 hc (hn.trans hn')⟩

/-- What `hoistOf` reads from the two lines as they are. -/
theorem read_of_hoistOf {o c : Str} {parent : Option Str} {h : Hoist}
    (heq : hoistOf o c parent = .ok (some h)) :
    openType o = some h.kw ∧ h.packed = hasText c "STRUCT_PACKED".toList ∧
      h.name0 = closeName0 c := by
  unfold hoistOf at heq
  cases hk : openType o with
  | none => simp [hk] at heq
  | some kw =>
    rw [hk] at heq
    dsimp only at heq
    split at heq
    · simp only [Except.ok.injEq, Option.some.injEq] at heq
      rw [← heq]
      exact ⟨rfl, rfl, rfl⟩
    · simp only [Except.ok.injEq, Option.some.injEq] at heq
      rw [← heq]
      exact ⟨rfl, rfl, rfl⟩
    · simp at heq

/-- **`__init__`, `append` and `last_line` together** read what `hoistOf` reads. -/
theorem lastLine_init (start stop : ℕ) (o txt c : Str) (parent : Option Str) :
    ((S.init start o).append txt).lastLine stop c parent
      = match hoistOf o c parent with
        | .error e => .error e
        | .ok none => .ok ((S.init start o).append txt)
        | .ok (some h) => .ok (h.toS start stop o txt) := by
  unfold S.lastLine hoistOf closeName0
  cases hk : openType o with
  | none => simp [S.init, S.append, hk]
  | some kw =>
    cases hd : openDecl o with
    | some tag =>
      cases closeTokens c <;> simp [S.init, S.append, hk, hd, Hoist.toS]
    | none =>
      cases closeTokens c with
      | nil => simp [S.init, S.append, hk, hd]
      | cons f0 f =>
        cases parent <;> simp [S.init, S.append, hk, hd, Hoist.toS]

/-- The tabs in front of the closing line do not matter. -/
theorem lastLine_init_append (start stop : ℕ) (o txt c : Str) (parent : Option Str)
    (hc : '}' ∈ c) :
    ((S.init start o).append txt).lastLine stop (indentNone c) parent
      = match hoistOf o c parent with
        | .error e => .error e
        | .ok none => .ok ((S.init start o).append txt)
        | .ok (some h) => .ok (h.toS start stop o txt) := by
  have hsame : hoistOf o (indentNone c) parent = hoistOf o c parent := by
    unfold hoistOf closeName0
    rw [closeTokens_indentNone hc, hasText_packed_indentNone]
  rw [lastLine_init, hsame]

/-! ## The lines that are written -/

namespace Hoist

variable {h : Hoist}

theorem Ok.braces_head (hok : h.Ok) : braces h.head = [] := by
  have hk := h.kw.braces_text
  have ht := hok.tag.braces
  unfold head
  cases h.packed <;> simp [hk, ht, braces_cons, isBrace]

theorem Ok.newline_not_mem_head (hok : h.Ok) : '\n' ∉ h.head := by
  have hk := h.kw.solid_text.newline_not_mem
  have ht := hok.tag.newline_not_mem
  unfold head
  cases h.packed <;> simp [hk, ht]

/-- The hoisted definition opens with one `{`. -/
theorem Ok.braces_openLine (hok : h.Ok) {o : Str}
    (ho : braces o = ['{'] ∨ braces o = ['{', '}']) : braces (h.openLine o) = ['{'] := by
  rw [openLine, braces_append, hok.braces_head, (braces_openBody ho).2]
  rfl

theorem braces_closeLine (h : Hoist) : braces h.closeLine = ['}'] := by
  unfold closeLine
  cases h.packed <;> simp [braces_cons, isBrace]

theorem isLine_closeLine (h : Hoist) : IsLine h.closeLine := by
  unfold closeLine
  cases h.packed
  · exact ⟨['}', ';'], rfl, by decide⟩
  · exact ⟨"\x7d STRUCT_PACKED_END ;".toList, rfl, by simp⟩

theorem Ok.isLine_openLine (hok : h.Ok) {o : Str} (ho : braces o = ['{']) (hl : IsLine o) :
    IsLine (h.openLine o) := by
  obtain ⟨x, hx, hn⟩ := isLine_openBody ho hl
  refine ⟨h.head ++ x, by rw [openLine, hx, List.append_assoc], ?_⟩
  rw [List.mem_append]
  exact not_or.2 ⟨hok.newline_not_mem_head, hn⟩

theorem Ok.braceKind_openLine (hok : h.Ok) {o : Str} (ho : braceKind o = some .opn) :
    braceKind (h.openLine o) = some .opn :=
  braceKind_opn_iff.2 (hok.braces_openLine (Or.inl (braceKind_opn_iff.1 ho)))

theorem braceKind_closeLine (h : Hoist) : braceKind h.closeLine = some .cls :=
  braceKind_cls_iff.2 h.braces_closeLine

theorem Ok.braceKind_oneLine (hok : h.Ok) {o : Str} (ho : braceKind o = some .both) :
    braceKind (h.oneLine o) = some .both := by
  rw [braceKind_both_iff, oneLine, braces_append, h.braces_closeLine,
    hok.braces_openLine (Or.inr (braceKind_both_iff.1 ho))]
  rfl

theorem Ok.isLine_oneLine (hok : h.Ok) {o : Str} (ho : braces o = ['{', '}'])
    (hl : IsLine o) : IsLine (h.oneLine o) := by
  obtain ⟨x, hx, hn⟩ := h.isLine_closeLine
  refine ⟨h.openLine o ++ x, by rw [oneLine, hx, List.append_assoc], ?_⟩
  rw [openLine, List.append_assoc, List.mem_append, List.mem_append]
  exact not_or.2 ⟨hok.newline_not_mem_head, not_or.2 ⟨newline_not_mem_openBody ho hl, hn⟩⟩

/-- The placeholder is one text without a brace and without a newline. -/
theorem missingName_spec : braces missingName = [] ∧ '\n' ∉ missingName := by decide

/-- The declaration is one text without a brace and without a newline. -/
theorem Ok.declText_spec (hok : h.Ok) : braces h.declText = [] ∧ '\n' ∉ h.declText := by
  have hk := h.kw.solid_text
  unfold declText
  split
  · exact missingName_spec
  · rename_i n hn
    have hs := hok.name0 n hn
    constructor
    · simp [hk.braces, hok.tag.braces, hs.braces, braces_cons, isBrace]
    · simp [hk.newline_not_mem, hok.tag.newline_not_mem, hs.newline_not_mem]

/-- What replaces the block holds no brace. -/
theorem Ok.braceKind_genLines (hok : h.Ok) {l : Str} (hl : l ∈ h.genLines) :
    braceKind l = some .plain := by
  rw [braceKind_plain_iff]
  simp only [genLines, List.mem_cons, List.not_mem_nil, or_false] at hl
  rcases hl with rfl | rfl | rfl
  · rfl
  · rw [braces_append, braces_append, hok.declText_spec.1]
    rfl
  · rfl

theorem Ok.isLine_genLines (hok : h.Ok) {l : Str} (hl : l ∈ h.genLines) : IsLine l := by
  simp only [genLines, List.mem_cons, List.not_mem_nil, or_false] at hl
  rcases hl with rfl | rfl | rfl
  · exact ⟨"\t/* GENERATED */".toList, rfl, by decide⟩
  · refine ⟨"\t".toList ++ h.declText, rfl, ?_⟩
    rw [List.mem_append]
    exact not_or.2 ⟨by decide, hok.declText_spec.2⟩
  · exact ⟨[], rfl, by simp⟩

/-- **The hoisted opening line reads back**: its keyword and its tag are those of the
hoist. -/
theorem Ok.open_openLine (hok : h.Ok) {o x : Str} (ho : openBody o = '{' :: x) (y : Str) :
    openType (h.openLine o ++ y) = some h.kw ∧ openDecl (h.openLine o ++ y) = some h.tag := by
  have htag : '{' ∉ h.tag := (braces_eq_nil_iff.1 hok.tag.braces).1
  obtain ⟨t, post, ht, hline⟩ : ∃ t post, '{' ∈ t ∧
      split (h.kw.text ++ ' ' :: (h.tag ++ ' ' :: ('{' :: (x ++ y))))
        = h.kw.text :: h.tag :: t :: post := by
    refine ⟨'{' :: (x ++ y).takeWhile (fun a => !isSpace a),
      split ((x ++ y).dropWhile (fun a => !isSpace a)), List.mem_cons_self, ?_⟩
    rw [split_token_append h.kw.isToken_text rfl,
      split_token_append (hok.tag.isToken hok.tag_ne) rfl, split_cons_of_not_space rfl]
  -- a packed definition has one token in front of its keyword
  cases hp : h.packed with
  | false =>
    have hsplit : split (h.openLine o ++ y) = [] ++ h.kw.text :: h.tag :: t :: post := by
      rw [List.nil_append, ← hline, openLine, head, hp, ho]
      simp
    exact open_eq_of_split hsplit (by simp) (by simp) htag ht
  | true =>
    have hsplit : split (h.openLine o ++ y)
        = ["STRUCT_PACKED_START".toList] ++ h.kw.text :: h.tag :: t :: post := by
      rw [List.singleton_append, ← hline, openLine, head, hp, ho,
        ← split_token_append (c := ' ') (t := "STRUCT_PACKED_START".toList)
          (by simp [IsToken, isSpace]) rfl]
      simp
    refine open_eq_of_split hsplit (by simp) (fun q hq => ?_) htag ht
    rw [List.mem_singleton.1 hq]
    exact ⟨rfl, by decide⟩

end Hoist

end StructEnum
