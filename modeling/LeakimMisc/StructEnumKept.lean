/-
# What a hoist keeps of the text

A nested block stands in the file as `Q KW [TAG] {`, the lines inside, and
`pre } D1, ..., Dk;` (`NestedText`).  A hoist takes these two lines apart and writes a
definition and a declaration of its own in their place.  The qualifier `Q` and the members
`pre` are always lost, and so are declarators when there is white space between them
(`kept_iff`).
-/
import LeakimMisc.StructEnumEdit
import LeakimMisc.StructEnumLayout
import LeakimMisc.StructEnumClosing

open PyStr Nest Pieces

namespace StructEnum

/-! ## The text of a block -/

/-- **The text of a nested block**: the opening line is `Q KW [TAG] {`, with or without the
qualifier, and the closing line `pre } D1, ..., Dk;`. -/
structure NestedText (B : Block) where
  qualifier : Option Str
  kw : Kw
  tag : Option Str
  opens : split B.opening = qualifier.toList ++ kw.text :: (tag.toList ++ ["\x7b".toList])
  other : ∀ q, qualifier = some q → Kw.ofToken q = none ∧ Solid q
  solid : ∀ t, tag = some t → Solid t
  pre : Str
  declarators : List Str
  trail : Str
  closes : B.closing = pre ++ '}' :: ([','].intercalate declarators ++ ';' :: trail)
  braceFree : braces pre = []
  ne_nil : declarators ≠ []
  declarator : ∀ d ∈ declarators, unspace d ≠ [] ∧ braces d = [] ∧ ';' ∉ d
  blank : ∀ c ∈ trail, isSpace c = true

namespace NestedText

variable {B : Block}

/-- The declarators, with their commas. -/
def list (t : NestedText B) : Str := [','].intercalate t.declarators

/-- The qualifier still stands in front of the keyword, in one of the two texts. -/
def KeepsQualifier (t : NestedText B) (typedef decl : Str) : Prop :=
  t.qualifier.toList ++ [t.kw.text] <+: split typedef ∨
    t.qualifier.toList ++ [t.kw.text] <+: split decl

/-- Between the braces of the definition stand the members of the block, `pre` as the last of
them, with any white space. -/
def KeepsMembers (t : NestedText B) (typedef : Str) : Prop :=
  ∃ head body rest, typedef = head ++ '{' :: (body ++ '}' :: rest) ∧ '{' ∉ head ∧ '}' ∉ rest ∧
    unspace body = unspace (B.inner.flatten ++ t.pre)

/-- The declaration declares all of the declarators, with the keyword and the tag `tag`. -/
def Declares (t : NestedText B) (tag decl : Str) : Prop :=
  ∃ ds : List Str, decl = t.kw.text ++ " ".toList ++ tag ++ " ".toList ++ [','].intercalate ds
    ++ ";".toList ∧ (t.declarators.map unspace).Sublist (ds.map unspace)

/-- **No text is lost** when `n` is hoisted: its definition and its declaration together have
the qualifier, the members and the declarators of the block. -/
def Kept (t : NestedText B) (n : S) : Prop :=
  ∃ typedef decl tag, n.getTypedef = .ok typedef ∧ n.getDecl = .ok decl ∧ n.decl = some tag ∧
    t.KeepsQualifier typedef decl ∧ t.KeepsMembers typedef ∧ t.Declares tag decl

/-- The condition: no qualifier, nothing in front of the `}`, no white space from the first
declarator to the `;`, and no `STRUCT_PACKED`. -/
structure Plain (t : NestedText B) : Prop where
  unqualified : t.qualifier = none
  nothing : ∀ c ∈ t.pre, isSpace c = true
  oneToken : (split (t.list ++ [';'])).length = 1
  unpacked : hasText B.closing "STRUCT_PACKED".toList = false

/-! ## The two lines -/

theorem not_mem_pre (t : NestedText B) : '}' ∉ t.pre := (braces_eq_nil_iff.1 t.braceFree).2

theorem not_mem_list (t : NestedText B) : ';' ∉ t.list := by
  intro hm
  rcases mem_intercalate hm with heq | ⟨d, hd, hmem⟩
  · exact absurd heq (by decide)
  · exact (t.declarator d hd).2.2 hmem

/-- `last_line` reads all of the declarators, or too little. -/
theorem closeName0_closing (t : NestedText B) :
    (hasText B.closing "STRUCT_PACKED".toList = false ∧ (split (t.list ++ [';'])).length = 1 →
      closeName0 B.closing = some (unspace t.list)) ∧
    (¬ (hasText B.closing "STRUCT_PACKED".toList = false ∧
        (split (t.list ++ [';'])).length = 1) →
      ∀ d, closeName0 B.closing = some d → d.length < (unspace t.list).length) :=
  closeName0_spec t.closes t.not_mem_pre t.not_mem_list t.blank

/-- `__init__` reads the keyword. -/
theorem openType_opening (t : NestedText B) : openType B.opening = some t.kw := by
  refine (openType_of_split t.opens ?_ ?_).2.2
  · cases t.qualifier <;> simp
  · intro q hq
    exact (t.other q (by simpa using hq)).1

/-- `__init__` keeps the `{` and nothing else. -/
theorem openBody_opening (t : NestedText B) :
    ∃ x, openBody B.opening = '{' :: x ∧ ∀ c ∈ x, isSpace c = true := by
  have htokens : split B.opening
      = (t.qualifier.toList ++ t.kw.text :: t.tag.toList) ++ ["\x7b".toList] := by
    rw [t.opens]
    simp
  refine openBody_of_split htokens fun q hq => ?_
  rcases List.mem_append.1 hq with hq | hq
  · exact (t.other q (by simpa using hq)).2
  · rcases List.mem_cons.1 hq with rfl | hq
    · exact t.kw.solid_text
    · exact t.solid q (by simpa using hq)

/-! ## What is written -/

theorem head?_split_kw (k : Kw) (s : Str) :
    (split (k.text ++ ' ' :: s)).head? = some k.text := by
  rw [split_token_append k.isToken_text rfl]
  rfl

/-- Both texts start with the keyword, and no qualifier stands in front of it. -/
theorem keepsQualifier_iff (t : NestedText B) {typedef decl : Str}
    (htypedef : (split typedef).head? = some t.kw.text)
    (hdecl : (split decl).head? = some t.kw.text) :
    t.KeepsQualifier typedef decl ↔ t.qualifier = none := by
  obtain ⟨as, has⟩ := List.head?_eq_some_iff.1 htypedef
  obtain ⟨bs, hbs⟩ := List.head?_eq_some_iff.1 hdecl
  unfold KeepsQualifier
  rw [has, hbs]
  cases hq : t.qualifier with
  | none => simp
  | some q =>
    have hne : q ≠ t.kw.text := by
      rintro rfl
      have hnone := (t.other _ hq).1
      rw [Kw.ofToken_text] at hnone
      exact absurd hnone (by simp)
    simp [hne]

/-- The body holds the members of the lines inside, and never those of the closing line. -/
theorem keepsMembers_iff (t : NestedText B) {h : Hoist} (hok : h.Ok) {close : Str}
    (hclose : '}' ∉ close) :
    t.KeepsMembers (h.head ++ openBody B.opening ++ (B.inner.map indentOne).flatten
      ++ '}' :: close) ↔ ∀ c ∈ t.pre, isSpace c = true := by
  obtain ⟨x, hx, hspace⟩ := t.openBody_opening
  have hhead : '{' ∉ h.head := (braces_eq_nil_iff.1 hok.braces_head).1
  have htext : h.head ++ openBody B.opening ++ (B.inner.map indentOne).flatten ++ '}' :: close
      = h.head ++ '{' :: ((x ++ (B.inner.map indentOne).flatten) ++ '}' :: close) := by
    rw [hx]
    simp
  have hbody : unspace (x ++ (B.inner.map indentOne).flatten) = unspace B.inner.flatten := by
    rw [unspace_append, unspace_of_space hspace, List.nil_append, unspace_map_indentOne]
  rw [htext]
  constructor
  · rintro ⟨head, body, rest, heq, hhead', hrest, hmembers⟩
    obtain ⟨-, hinner⟩ := eq_of_append_cons_eq hhead hhead' heq
    obtain ⟨hxbody, -⟩ := eq_of_append_cons_eq' hclose hrest hinner
    rw [← hxbody, hbody, unspace_append] at hmembers
    exact unspace_eq_nil_iff.1 (List.self_eq_append_right.1 hmembers)
  · intro hpre
    refine ⟨h.head, _, close, rfl, hhead, hclose, ?_⟩
    rw [hbody, unspace_append, unspace_of_space hpre, List.append_nil]

/-- The placeholder does not start with a keyword. -/
theorem missingName_ne (k : Kw) (s : Str) : missingName ≠ k.text ++ s := by
  intro h
  have hne : k.text.head? ≠ missingName.head? := by cases k <;> decide
  apply hne
  rw [h, List.head?_append_of_ne_nil _ k.isToken_text.1]

/-- The declaration is made of what `last_line` read. -/
theorem declares_iff (t : NestedText B) {h : Hoist} (hkw : h.kw = t.kw)
    (hname : h.name0 = closeName0 B.closing) :
    t.Declares h.tag h.declText ↔
      hasText B.closing "STRUCT_PACKED".toList = false ∧
        (split (t.list ++ [';'])).length = 1 := by
  obtain ⟨hwhole, hless⟩ := t.closeName0_closing
  constructor
  · rintro ⟨ds, hdecl, hsub⟩
    by_contra hnot
    cases hn : h.name0 with
    | none =>
      -- the placeholder declares nothing
      rw [Hoist.declText, hn] at hdecl
      simp only [List.append_assoc] at hdecl
      exact missingName_ne t.kw _ hdecl
    | some d =>
      have hlt : d.length < (unspace t.list).length := hless hnot d (hname ▸ hn)
      have hd : d = [','].intercalate ds := by
        rw [Hoist.declText, hn, hkw] at hdecl
        exact List.append_cancel_left (List.append_cancel_right hdecl)
      have hle : (unspace t.list).length ≤ (unspace d).length := by
        unfold list unspace
        rw [hd, filter_intercalate rfl, filter_intercalate rfl]
        exact length_intercalate_le hsub
      have hd' := length_unspace_le d
      omega
  · intro hcond
    have hn : h.name0 = some (unspace t.list) := hname.trans (hwhole hcond)
    refine ⟨t.declarators.map unspace, ?_, ?_⟩
    · have hlist : unspace t.list = [','].intercalate (t.declarators.map unspace) :=
        filter_intercalate rfl t.declarators
      rw [Hoist.declText, hn, hkw, ← hlist]
    · have hidem : unspace ∘ unspace = unspace := by
        funext s
        exact unspace_unspace s
      rw [List.map_map, hidem]

/-- What is written for a block, against its text. -/
theorem kept_toS_iff (t : NestedText B) {h : Hoist} (hok : h.Ok) (hkw : h.kw = t.kw)
    (hpacked : h.packed = hasText B.closing "STRUCT_PACKED".toList)
    (hname : h.name0 = closeName0 B.closing) (start stop : ℕ) :
    t.Kept (h.toS start stop B.opening (B.inner.map indentOne).flatten) ↔ t.Plain := by
  have htypedef := h.getTypedef_toS_eq start stop B.opening (B.inner.map indentOne).flatten
  have hdecl := h.getDecl_toS start stop B.opening (B.inner.map indentOne).flatten
  have hclose : '}' ∉ (if h.packed then " STRUCT_PACKED_END ".toList else []) ++ ";".toList := by
    cases h.packed <;> decide
  -- without `STRUCT_PACKED` the two texts start with the keyword
  have hheads : hasText B.closing "STRUCT_PACKED".toList = false →
      closeName0 B.closing = some (unspace t.list) → ∀ close,
      (split (h.head ++ openBody B.opening ++ (B.inner.map indentOne).flatten
        ++ '}' :: close)).head? = some t.kw.text ∧ (split h.declText).head? = some t.kw.text := by
    intro hunpacked hread close
    rw [hunpacked] at hpacked
    rw [hread] at hname
    constructor
    · rw [Hoist.head, hpacked, hkw]
      simp only [List.append_assoc, Bool.false_eq_true, if_false, List.nil_append]
      exact head?_split_kw t.kw _
    · rw [Hoist.declText, hname, hkw]
      simp only [List.append_assoc]
      exact head?_split_kw t.kw _
  constructor
  · rintro ⟨typedef, decl, tag, heq, heq', htag, hqualifier, hmembers, hdeclares⟩
    rw [htypedef] at heq
    rw [hdecl] at heq'
    obtain rfl := Except.ok.inj heq
    obtain rfl := Except.ok.inj heq'
    obtain rfl := Option.some.inj htag
    obtain ⟨hunpacked, hone⟩ := (t.declares_iff hkw hname).1 hdeclares
    obtain ⟨htypedefKw, hdeclKw⟩ :=
      hheads hunpacked (t.closeName0_closing.1 ⟨hunpacked, hone⟩) _
    exact ⟨(t.keepsQualifier_iff htypedefKw hdeclKw).1 hqualifier,
      (t.keepsMembers_iff hok hclose).1 hmembers,
      hone, hunpacked⟩
  · intro hplain
    obtain ⟨htypedefKw, hdeclKw⟩ := hheads hplain.unpacked
      (t.closeName0_closing.1 ⟨hplain.unpacked, hplain.oneToken⟩) _
    exact ⟨_, _, _, htypedef, hdecl, rfl,
      (t.keepsQualifier_iff htypedefKw hdeclKw).2 hplain.unqualified,
      (t.keepsMembers_iff hok hclose).2 hplain.nothing,
      (t.declares_iff hkw hname).2 ⟨hplain.unpacked, hplain.oneToken⟩⟩

end NestedText

/-! ## Two headers -/

/-- A block with two declarators. -/
def keptBlock : Block :=
  .many "\tstruct t \x7b\n".toList (by decide) (.line "\t\tint x;\n".toList (by decide) .nil)
    "\t\x7d b,c;\n".toList (by decide)

/-- A qualified block whose last member stands on the closing line, with two declarators. -/
def lostBlock : Block :=
  .many "\tconst struct t \x7b\n".toList (by decide)
    (.line "\t\tint x;\n".toList (by decide) .nil) "\t\tint y; \x7d b, c;\n".toList (by decide)

/-- The block as the only member of a `struct a`. -/
def headerOf (B : Block) : Str :=
  "struct a \x7b\n".toList ++ B.lines.flatten ++ "\x7d;\n".toList

theorem firstNested_keptBlock : FirstNested (headerOf keptBlock) [] "struct a \x7b\n".toList []
    keptBlock ["\x7d;\n".toList] :=
  ⟨by decide, by decide, by decide, by decide, by decide, by decide⟩

theorem firstNested_lostBlock : FirstNested (headerOf lostBlock) [] "struct a \x7b\n".toList []
    lostBlock ["\x7d;\n".toList] :=
  ⟨by decide, by decide, by decide, by decide, by decide, by decide⟩

def keptText : NestedText keptBlock where
  qualifier := none
  kw := .struct
  tag := some "t".toList
  opens := by decide
  other := by simp
  solid := by simp [Solid, isSpace, isBrace]
  pre := "\t".toList
  declarators := [" b".toList, "c".toList]
  trail := "\n".toList
  closes := by decide
  braceFree := by decide
  ne_nil := by simp
  declarator := by simp [unspace, braces, isSpace, isBrace]
  blank := isSpace_newline

def lostText : NestedText lostBlock where
  qualifier := some "const".toList
  kw := .struct
  tag := some "t".toList
  opens := by decide
  other := by
    intro q hq
    rw [← Option.some.inj hq]
    exact ⟨by decide, by simp [Solid, isSpace, isBrace]⟩
  solid := by simp [Solid, isSpace, isBrace]
  pre := "\t\tint y; ".toList
  declarators := [" b".toList, " c".toList]
  trail := "\n".toList
  closes := by decide
  braceFree := by decide
  ne_nil := by simp
  declarator := by simp [unspace, braces, isSpace, isBrace]
  blank := isSpace_newline

end StructEnum
