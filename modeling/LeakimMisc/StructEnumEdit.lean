/-
# The edit of one pass

What one call of `search_and_mod` does to the bytes of a brace-disciplined file.  The block
that it looks for is the first one directly inside a top-level block whose opening line
`is_def` (`FirstNested`).  If there is one, the bytes of its lines are cut out, its definition
is put in front of the top-level block and its declaration in its place, and no other byte
changes; if there is none, nothing changes at all (`searchAndMod_of_disciplined`).
-/
import LeakimMisc.StructEnumPass

open PyStr Nest

namespace StructEnum

/-- **The first nested definition of a file**: the lines `pre` in front of the top-level
block that `p` opens, the members `R` before the definition, the definition `B`, and the lines
after it. -/
structure FirstNested (infile : Str) (pre : List Str) (p : Str) (R : List Str) (B : Block)
    (rest : List Str) : Prop where
  lines : splitLines infile = pre ++ p :: (R ++ (B.lines ++ rest))
  top : depthFrom braceKind 0 pre = some 0
  parent : braceKind p = some .opn
  members : depthFrom braceKind 0 R = some 0
  definition : isDef B.opening = true
  first : ∀ q ∈ openings braceKind 0 (pre ++ p :: R), q.2 = 2 → isDef q.1 = false

/-- The offset of the line `p` after the lines `pre`. -/
def parentStart (pre : List Str) : ℕ := pre.flatten.length

/-- The offset of the block after the members `R`. -/
def blockStart (pre : List Str) (p : Str) (R : List Str) : ℕ := (pre ++ p :: R).flatten.length

/-- The offset of the line after the block. -/
def blockEnd (pre : List Str) (p : Str) (R : List Str) (B : Block) : ℕ :=
  (pre ++ p :: (R ++ B.lines)).flatten.length

/-- The file after the edit: the text `typedef` in front of `a`, and the text `decl` in place
of the bytes from `b` to `c`. -/
def edited (infile : Str) (a b c : ℕ) (typedef decl : Str) : Str :=
  infile.take a ++ typedef ++ "\n".toList ++ (infile.drop a).take (b - a)
    ++ "\t/* GENERATED */\n\t".toList ++ decl ++ "\n\n".toList ++ infile.drop c

/-- The object `n` that the pass builds of the block: `__init__` with its opening line,
`append` with each line inside, `last_line` with its closing line. -/
def builtFrom (pre : List Str) (p : Str) (R : List Str) (B : Block) : Except PyError S :=
  ((S.init (blockStart pre p R) B.opening).append (B.inner.map indentOne).flatten).lastLine
    (blockEnd pre p R B) (indentNone B.closing) (openDecl p)

/-! ## Around the block -/

theorem openings_around {pre R : List Str} {p : Str} (hpre : depthFrom braceKind 0 pre = some 0)
    (hp : braceKind p = some .opn) (hR : depthFrom braceKind 0 R = some 0) :
    openings braceKind 0 (pre ++ p :: R) = openings braceKind 0 pre ++
      (p, 1) :: (openings braceKind 0 R).map fun q => (q.1, q.2 + 1) := by
  obtain ⟨f, rfl⟩ := exists_lines_eq_of_depthFrom hR
  rw [openings_append_of_balanced hpre, openings, hp, ← Forest.openings_succ]

/-- In front of the first nested definition there is nothing to hoist. -/
theorem FirstNested.settled {infile p : Str} {pre R rest : List Str} {B : Block}
    (h : FirstNested infile pre p R B rest) : Settled pre ∧ NoDefs R := by
  have hfirst := h.first
  rw [openings_around h.top h.parent h.members] at hfirst
  refine ⟨⟨h.top, fun q hq => ?_⟩, h.members, fun q hq hq1 => ?_⟩
  · exact hfirst q (List.mem_append_left _ hq)
  · exact hfirst (q.1, q.2 + 1)
      (List.mem_append_right _ (List.mem_cons_of_mem _ (List.mem_map_of_mem hq))) (by rw [hq1])

/-- **There is a first one** if there is any. -/
theorem exists_firstNested {infile : Str} (h : Disciplined infile)
    (hdef : ∃ q ∈ openings braceKind 0 (splitLines infile), q.2 = 2 ∧ isDef q.1 = true) :
    ∃ pre p R B rest, FirstNested infile pre p R B rest := by
  obtain ⟨g, hg⟩ := exists_lines_eq_of_depthFrom h
  cases hf : firstDef g with
  | none =>
    obtain ⟨q, hq, hq2, hqdef⟩ := hdef
    have hsettled := settled_of_firstDef g hf
    rw [hg] at hsettled
    rw [hsettled.2 q hq hq2] at hqdef
    exact absurd hqdef (by decide)
  | some poc =>
    obtain ⟨p, o, c⟩ := poc
    obtain ⟨pre, R, B, rest, hlines, hpre, hp, hR, -, rfl, -, hB⟩ :=
      exists_lines_of_firstDef g hf
    refine ⟨pre, p, R, B, rest, hg.symm.trans hlines, hpre.1, hp, hR.1, hB, ?_⟩
    rw [openings_around hpre.1 hp hR.1]
    intro q hq hq2
    rcases List.mem_append.mp hq with hq | hq
    · exact hpre.2 q hq hq2
    · rcases List.mem_cons.mp hq with rfl | hq
      · exact absurd hq2 (by simp)
      · obtain ⟨q', hq', rfl⟩ := List.mem_map.mp hq
        exact hR.2 q' hq' (Nat.succ.inj hq2)

/-! ## The edit -/

theorem FirstNested.hoistOf_ne_none {infile p : Str} {pre R rest : List Str} {B : Block}
    (h : FirstNested infile pre p R B rest) :
    hoistOf B.opening B.closing (openDecl p) ≠ .ok none := by
  rw [Ne, hoistOf_eq_none_iff, openType_eq_none_iff, h.definition]
  decide

/-- The block as `hoistOf` reads it. -/
theorem builtFrom_eq {infile p : Str} {pre R rest : List Str} {B : Block}
    (h : FirstNested infile pre p R B rest) :
    builtFrom pre p R B = .error .typeError ∨ ∃ hoist : Hoist,
      builtFrom pre p R B = .ok (hoist.toS (blockStart pre p R) (blockEnd pre p R B) B.opening
        (B.inner.map indentOne).flatten) := by
  rw [builtFrom, lastLine_init_append _ _ _ _ _ _ (braces_tail_of_closesBlock B.closesBlock).2]
  cases hh : hoistOf B.opening B.closing (openDecl p) with
  | error e => exact .inl rfl
  | ok r =>
    cases r with
    | none => exact absurd hh h.hoistOf_ne_none
    | some hoist => exact .inr ⟨hoist, rfl⟩

/-- What the pass hands to `modify_and_swap`. -/
theorem search_of_firstNested {infile p : Str} {pre R rest : List Str} {B : Block}
    (h : FirstNested infile pre p R B rest) :
    search infile = (builtFrom pre p R B).map fun n =>
      some (S.init (parentStart pre) p, n) := by
  obtain ⟨hpre, hR⟩ := h.settled
  have hb : blockStart pre p R = pre.flatten.length + p.length + R.flatten.length := by
    simp [blockStart, Nat.add_assoc]
  have hc : blockEnd pre p R B
      = pre.flatten.length + p.length + R.flatten.length + B.lines.flatten.length := by
    simp [blockEnd, Nat.add_assoc]
  rw [search_of_block h.lines hpre h.parent hR, builtFrom,
    lastLine_init_append _ _ _ _ _ _ (braces_tail_of_closesBlock B.closesBlock).2, hb, hc]
  cases hh : hoistOf B.opening B.closing (openDecl p) with
  | error e => rfl
  | ok r =>
    cases r with
    | none => exact absurd hh h.hoistOf_ne_none
    | some hoist => rfl

/-- If `last_line` does not raise, the new file is the edited one. -/
theorem searchAndMod_of_firstNested {infile p : Str} {pre R rest : List Str} {B : Block}
    (h : FirstNested infile pre p R B rest) (hok : ∀ e, search infile ≠ .error e) :
    ∃ n typedef decl, builtFrom pre p R B = .ok n ∧ n.getTypedef = .ok typedef ∧
      n.getDecl = .ok decl ∧ searchAndMod infile = .ok (some (edited infile (parentStart pre)
        (blockStart pre p R) (blockEnd pre p R B) typedef decl)) := by
  have hsearch := search_of_firstNested h
  rcases builtFrom_eq h with herror | ⟨hoist, hbuilt⟩
  · rw [herror] at hsearch
    exact absurd hsearch (hok _)
  · rw [hbuilt] at hsearch
    obtain ⟨typedef, htypedef, _⟩ := hoist.getTypedef_toS (blockStart pre p R)
      (blockEnd pre p R B) B.opening (B.inner.map indentOne).flatten
    refine ⟨_, typedef, hoist.declText, hbuilt, htypedef, hoist.getDecl_toS _ _ _ _, ?_⟩
    rw [searchAndMod, hsearch]
    simp only [bind, Except.bind, Except.map, modifyAndSwap, htypedef, hoist.getDecl_toS, pure,
      Except.pure, edited]
    simp [S.init, Hoist.toS]

/-- **One call of `search_and_mod`** on a brace-disciplined file on which `last_line` does not
raise: if an opening line at depth 2 `is_def`, the first such block is cut out, its
definition written in front of its parent and its declaration in its place; if none is, the
file is left alone. -/
theorem searchAndMod_of_disciplined (infile : Str) (h : Disciplined infile)
    (hok : ∀ e, search infile ≠ .error e) :
    ((∃ q ∈ openings braceKind 0 (splitLines infile), q.2 = 2 ∧ isDef q.1 = true) →
      ∃ pre p R B rest, FirstNested infile pre p R B rest) ∧
    (∀ pre p R B rest, FirstNested infile pre p R B rest →
      ∃ n typedef decl, builtFrom pre p R B = .ok n ∧ n.getTypedef = .ok typedef ∧
        n.getDecl = .ok decl ∧ searchAndMod infile = .ok (some (edited infile (parentStart pre)
          (blockStart pre p R) (blockEnd pre p R B) typedef decl))) ∧
    ((∀ q ∈ openings braceKind 0 (splitLines infile), q.2 = 2 → isDef q.1 = false) →
      searchAndMod infile = .ok none) :=
  ⟨exists_firstNested h, fun _ _ _ _ _ hfirst => searchAndMod_of_firstNested hfirst hok,
    fun hnone => (searchAndMod_of_settled ⟨h, hnone⟩).2⟩

theorem searchAndMod_nestedHeader : Disciplined nestedHeader ∧
    (∀ e, search nestedHeader ≠ .error e) ∧
    ∃ pre p R B rest, FirstNested nestedHeader pre p R B rest := by
  have h : Disciplined nestedHeader := by decide
  have hok : ∀ e, search nestedHeader ≠ .error e := by
    intro e he
    have hsearch : ∃ mn, search nestedHeader = .ok (some mn) := ⟨_, rfl⟩
    obtain ⟨mn, hmn⟩ := hsearch
    rw [he] at hmn
    exact absurd hmn (by simp)
  refine ⟨h, hok, (searchAndMod_of_disciplined nestedHeader h hok).1 ?_⟩
  decide

end StructEnum
