/-
# When a pass is sound

What can go wrong in a pass over a brace-disciplined file: the `TypeError` of
`last_line`, the hoisting of a block that is no type definition, and a placeholder of
`get_decl` in the file (`PassOk` excludes the three).  All of it is decided by three
lines of the file, the opening and the closing line of the first definition inside a
top-level block and the opening line of that block (`DefOk`): a pass is sound exactly
when it meets no such definition or one that these lines describe in full
(`passOk_iff`).
-/
import LeakimMisc.StructEnumPass

open PyStr Nest

namespace StructEnum

/-! ## The property -/

/-- The opening line of a type definition: the keyword stands in front of the `{`, and no
`=` and no `)` between the two. -/
def isTypeDefHead (l : Str) : Bool :=
  match indexOfDef l with
  | none => false
  | some i =>
      let before := split (l.takeWhile (· != '{'))
      decide (i < before.length) &&
        (before.drop (i + 1)).flatten.all fun c => c != '=' && c != ')'

/-- **A sound pass**: it raises no exception, and when it hoists a block, that block is a
type definition and its declaration is none of the placeholders. -/
structure PassOk (infile : Str) : Prop where
  noError : ∀ e, searchAndMod infile ≠ .error e
  typeDef : ∀ m n, search infile = .ok (some (m, n)) →
    isTypeDefHead (lineAt infile n.start) = true
  noPlaceholder : ∀ m n d, search infile = .ok (some (m, n)) → n.getDecl = .ok d →
    d ≠ missingType0 ∧ d ≠ missingDecl ∧ d ≠ missingName

/-! ## The condition -/

/-- `index_of_def(l) + 2 == index_of_S(l)` on a line that `is_def`: the test of `__init__`
for a tag. -/
def hasTag (l : Str) : Bool := isDef l && (indexOfDef l).map (· + 2) == indexOfS l

/-- A token follows the `}`; two, when the line holds `STRUCT_PACKED`. -/
def hasDeclarator (l : Str) : Bool :=
  decide ((if hasText l "STRUCT_PACKED".toList then 1 else 0)
    < (split (sliceFrom l (find l '}' + 1))).length)

/-- A definition with the opening line `o` and the closing line `c`, in a block with the
opening line `p`, that is described in full. -/
structure DefOk (p o c : Str) : Prop where
  head : isTypeDefHead o = true
  declarator : hasDeclarator c = true
  tag : hasTag o = true ∨ hasTag p = true

/-- The first definition inside a top-level block, if there is one, is described in
full. -/
def FirstDefOk (infile : Str) : Prop :=
  ∃ g : Forest braceKind, g.lines = splitLines infile ∧
    ∀ p o c, firstDef g = some (p, o, c) → DefOk p o c

/-! ## What is read from the three lines -/

theorem hasTag_eq_isSome_openDecl (l : Str) : hasTag l = (openDecl l).isSome := by
  unfold hasTag openDecl
  cases hdef : isDef l with
  | false => simp
  | true =>
    cases hi : indexOfDef l with
    | none => simp [isDef, hi] at hdef
    | some i =>
      cases hj : indexOfS l with
      | none => simp
      | some j =>
        by_cases hij : i + 2 = j
        · subst hij
          obtain ⟨hlt, -, -⟩ := List.findIdx?_eq_some_iff_getElem.1 hj
          have hget : (split (strip l))[i + 1]?.isSome = true := by
            rw [List.getElem?_eq_getElem (by omega)]
            rfl
          simpa using hget.symm
        · simp [hij]

theorem hasDeclarator_eq_isSome_closeName0 (c : Str) :
    hasDeclarator c = (closeName0 c).isSome := by
  unfold hasDeclarator closeName0 closeTokens
  simp only [split_strip]
  rw [Option.isSome_map, Bool.eq_iff_iff, decide_eq_true_iff, List.isSome_head?]
  split_ifs with hpacked
  · rw [← List.length_pos_iff, List.length_drop]
    omega
  · exact List.length_pos_iff

/-- A definition is read without an exception exactly when it is tagged, or its
declarator and the tag of its parent can be read. -/
theorem hoistOf_eq_error_iff {o c : Str} {parent : Option Str} (ho : isDef o = true) :
    (∃ e, hoistOf o c parent = .error e) ↔
      openDecl o = none ∧ (closeName0 c = none ∨ parent = none) := by
  unfold hoistOf
  cases hk : openType o with
  | none => simp [openType_eq_none_iff.1 hk] at ho
  | some kw =>
    cases openDecl o with
    | some tag => simp
    | none => cases closeName0 c <;> cases parent <;> simp

/-- The declaration is a placeholder exactly when there is no declarator to write. -/
theorem Hoist.declText_ne_missing_iff (h : Hoist) :
    (h.declText ≠ missingType0 ∧ h.declText ≠ missingDecl ∧ h.declText ≠ missingName) ↔
      h.name0.isSome = true := by
  unfold declText
  cases h.name0 with
  | none => exact ⟨fun hne => absurd rfl hne.2.2, fun hsome => absurd hsome (by simp)⟩
  | some n =>
    -- a declaration starts with its keyword, a placeholder with an `M`
    have hkw : ∀ t : Str, (h.kw.text ++ t).head? ≠ some 'M' := by
      intro t
      rw [List.head?_append_of_ne_nil _ h.kw.isToken_text.1]
      cases h.kw <;> decide
    have hdecl := hkw (" ".toList ++ (h.tag ++ (" ".toList ++ (n ++ ";".toList))))
    simp only [← List.append_assoc] at hdecl
    refine ⟨fun _ => rfl, fun _ => ⟨fun heq => ?_, fun heq => ?_, fun heq => ?_⟩⟩
    all_goals
      dsimp only at heq
      rw [heq] at hdecl
      exact hdecl rfl

/-! ## The characterisation -/

/-- A pass that meets no definition inside a top-level block is sound. -/
theorem passOk_of_firstDef_none (g : Forest braceKind) {infile : Str}
    (hg : splitLines infile = g.lines) (h : firstDef g = none) : PassOk infile := by
  obtain ⟨hsearch, hmod⟩ := search_of_firstDef_none g hg h
  constructor
  · intro e he
    simp [hmod] at he
  · intro m n hmn
    simp [hsearch] at hmn
  · intro m n d hmn
    simp [hsearch] at hmn

/-- **A pass that meets a definition** is sound exactly when the definition is described
in full. -/
theorem passOk_iff_defOk (g : Forest braceKind) {infile : Str}
    (hg : splitLines infile = g.lines) {p o c : Str} (h : firstDef g = some (p, o, c)) :
    PassOk infile ↔ DefOk p o c := by
  have hdef : isDef o = true := by
    obtain ⟨_, _, _, _, _, _, _, _, _, _, _, hdef⟩ := exists_lines_of_firstDef g h
    exact hdef
  have hpass := search_of_firstDef g hg h
  cases hh : hoistOf o c (openDecl p) with
  | error e =>
    -- `last_line` raises: there is no declarator, or no tag on both lines
    rw [hh] at hpass
    obtain ⟨hdecl, hmissing⟩ := (hoistOf_eq_error_iff hdef).1 ⟨e, hh⟩
    constructor
    · exact fun hok => absurd hpass.2 (hok.noError e)
    · rintro ⟨-, hdeclarator, htag⟩
      rw [hasDeclarator_eq_isSome_closeName0] at hdeclarator
      rw [hasTag_eq_isSome_openDecl, hasTag_eq_isSome_openDecl, hdecl] at htag
      rcases hmissing with hnone | hnone
      · simp [hnone] at hdeclarator
      · simp [hnone] at htag
  | ok r =>
    cases r with
    | none =>
      rw [hh] at hpass
      exact hpass.elim
    | some hoist =>
      -- the definition is hoisted: what is left are the head and the placeholder
      rw [hh] at hpass
      obtain ⟨m, start, stop, txt, hline, hsearch, infile', hmod, -⟩ := hpass
      have hread : ¬ (openDecl o = none ∧ (closeName0 c = none ∨ openDecl p = none)) := by
        intro hbad
        obtain ⟨e, he⟩ := (hoistOf_eq_error_iff hdef).2 hbad
        simp [hh] at he
      constructor
      · intro hok
        have hhead := hok.typeDef m _ hsearch
        have hdecl := hok.noPlaceholder m _ _ hsearch (hoist.getDecl_toS start stop o txt)
        rw [Hoist.declText_ne_missing_iff, (read_of_hoistOf hh).2.2] at hdecl
        refine ⟨hline ▸ hhead, by rw [hasDeclarator_eq_isSome_closeName0, hdecl], ?_⟩
        rw [hasTag_eq_isSome_openDecl, hasTag_eq_isSome_openDecl]
        cases ho : openDecl o with
        | some tag => exact Or.inl rfl
        | none =>
          refine Or.inr (Option.isSome_iff_ne_none.2 fun hp => hread ⟨ho, Or.inr hp⟩)
      · rintro ⟨hhead, hdeclarator, -⟩
        constructor
        · intro e he
          simp [hmod] at he
        · intro m' n' hmn
          rw [hsearch] at hmn
          obtain ⟨-, rfl⟩ := Prod.mk.inj (Option.some.inj (Except.ok.inj hmn))
          show isTypeDefHead (lineAt infile start) = true
          rw [hline, hhead]
        · intro m' n' d hmn hd
          rw [hsearch] at hmn
          obtain ⟨-, rfl⟩ := Prod.mk.inj (Option.some.inj (Except.ok.inj hmn))
          rw [hoist.getDecl_toS] at hd
          rw [← Except.ok.inj hd, Hoist.declText_ne_missing_iff, (read_of_hoistOf hh).2.2,
            ← hasDeclarator_eq_isSome_closeName0, hdeclarator]

/-- **When the passes of a run are sound**: the pass over any file that a run on a
brace-disciplined file reaches is sound exactly when the first definition inside a
top-level block of that file is described in full. -/
theorem passOk_iff {k : ℕ} {infile file : Str} (h : Disciplined infile)
    (hrun : rewrites k infile = some file) : PassOk file ↔ FirstDefOk file := by
  have hpass : ∀ g : Forest braceKind, g.lines = splitLines file →
      (PassOk file ↔ ∀ p o c, firstDef g = some (p, o, c) → DefOk p o c) := by
    intro g hg
    cases hf : firstDef g with
    | none =>
      have hok := passOk_of_firstDef_none g hg.symm hf
      exact ⟨fun _ p o c hpoc => by simp at hpoc, fun _ => hok⟩
    | some poc =>
      obtain ⟨p, o, c⟩ := poc
      rw [passOk_iff_defOk g hg.symm hf]
      constructor
      · intro hok p' o' c' heq
        obtain ⟨rfl, rfl, rfl⟩ : p = p' ∧ o = o' ∧ c = c' := by simpa using heq
        exact hok
      · exact fun hall => hall p o c rfl
  constructor
  · intro hok
    obtain ⟨g, hg⟩ := exists_lines_eq_of_depthFrom (disciplined_of_rewrites h hrun)
    exact ⟨g, hg, (hpass g hg).1 hok⟩
  · rintro ⟨g, hg, hall⟩
    exact (hpass g hg).2 hall

theorem passOk_iff_nestedHeader : Disciplined nestedHeader ∧
    rewrites 0 nestedHeader = some nestedHeader ∧
    (PassOk nestedHeader ↔ FirstDefOk nestedHeader) :=
  have h : Disciplined nestedHeader := by decide
  ⟨h, rfl, passOk_iff h (k := 0) rfl⟩

/-- An unnamed block whose declarator stands below its `}`. -/
def declaratorBelow : Str :=
  "struct a \x7b\n\tstruct \x7b\n\t\tint x;\n\t\x7d\n\tb;\n\x7d;\n".toList

/-- A block with a tag whose declarator stands below its `}`. -/
def taggedDeclaratorBelow : Str :=
  "struct a \x7b\n\tstruct c \x7b\n\t\tint x;\n\t\x7d\n\tb;\n\x7d;\n".toList

/-- A function with an initialised variable. -/
def initialiser : Str :=
  "int f(void) \x7b\n\tstruct foo x=\x7b\n\t\t1\n\t\x7d;\n\treturn x.a;\n\x7d\n".toList

/-- The three ways in which a pass goes wrong: the exception, the placeholder, and a block
that is no type definition. -/
theorem not_passOk : ¬ (∀ infile, Disciplined infile → ∀ k file,
      rewrites k infile = some file → PassOk file) ∧
    (Disciplined declaratorBelow ∧ searchAndMod declaratorBelow = .error .typeError) ∧
    (Disciplined taggedDeclaratorBelow ∧ ∃ m n, search taggedDeclaratorBelow = .ok (some (m, n)) ∧
      n.getDecl = .ok missingName) ∧
    (Disciplined initialiser ∧ ∃ m n, search initialiser = .ok (some (m, n)) ∧
      isTypeDefHead (lineAt initialiser n.start) = false) := by
  have h₁ : Disciplined declaratorBelow := by decide
  have hraise : searchAndMod declaratorBelow = .error .typeError := by rfl
  refine ⟨fun hall => ?_, ⟨h₁, hraise⟩, ⟨by decide, _, _, rfl, rfl⟩, ⟨by decide, _, _, rfl, rfl⟩⟩
  exact (hall declaratorBelow h₁ 0 declaratorBelow rfl).noError _ hraise

end StructEnum
