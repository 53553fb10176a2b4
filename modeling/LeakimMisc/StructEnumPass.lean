/-
# The first definition inside a top-level block

Which block a pass hoists, said without the scanner: the first definition directly
inside a top-level block of the file (`firstDef`).  A pass over a brace-disciplined
file leaves it alone when there is none and otherwise does what `hoistOf` says of that
block (`search_of_firstDef_none`, `search_of_firstDef`).  The new file is brace-disciplined
again, so all of this holds of every pass of a run (`disciplined_of_rewrites`).
-/
import LeakimMisc.StructEnumRun

open PyStr Nest

namespace StructEnum

/-- The opening and the closing line of the first definition among the members. -/
def firstDefMember : Forest braceKind → Option (Str × Str)
  | .nil => none
  | .line _ _ r => firstDefMember r
  | .one l _ r => if isDef l then some (l, l) else firstDefMember r
  | .block o _ _ c _ r => if isDef o then some (o, c) else firstDefMember r

/-- The first definition directly inside a top-level block: the opening line of that
block, and the opening and the closing line of the definition. -/
def firstDef : Forest braceKind → Option (Str × Str × Str)
  | .nil => none
  | .line _ _ r => firstDef r
  | .one _ _ r => firstDef r
  | .block p _ b _ _ r =>
      match firstDefMember b with
      | some (o, c) => some (p, o, c)
      | none => firstDef r

theorem noDefs_of_firstDefMember (g : Forest braceKind) (h : firstDefMember g = none) :
    NoDefs g.lines := by
  induction g with
  | nil => exact noDefs_nil
  | line l hl r ih =>
    have hplain : NoDefs [l] := noDefs_of_plain fun m hm => List.mem_singleton.1 hm ▸ hl
    exact hplain.append (ih h)
  | one l hl r ih =>
    rw [firstDefMember] at h
    split_ifs at h with hdef
    have hone : NoDefs [l] := noDefs_of_not_isDef (B := .one l hl) (Bool.eq_false_iff.2 hdef)
    exact hone.append (ih h)
  | block o ho b c hc r ihb ih =>
    rw [firstDefMember] at h
    split_ifs at h with hdef
    have hblock := noDefs_of_not_isDef (B := .many o ho b c hc) (Bool.eq_false_iff.2 hdef)
    rw [lines_of_block]
    exact hblock.append (ih h)

/-- The first definition among the members, with the members before and after it. -/
theorem exists_lines_of_firstDefMember (g : Forest braceKind) {o c : Str}
    (h : firstDefMember g = some (o, c)) :
    ∃ (R : List Str) (B : Block) (post : List Str), g.lines = R ++ (B.lines ++ post) ∧
      NoDefs R ∧ B.opening = o ∧ B.closing = c ∧ isDef o = true := by
  induction g with
  | nil => simp [firstDefMember] at h
  | line l hl r ih =>
    obtain ⟨R, B, post, hlines, hR, rest⟩ := ih h
    have hplain : NoDefs [l] := noDefs_of_plain fun m hm => List.mem_singleton.1 hm ▸ hl
    exact ⟨l :: R, B, post, by rw [Forest.lines, hlines]; rfl, hplain.append hR, rest⟩
  | one l hl r ih =>
    rw [firstDefMember] at h
    split_ifs at h with hdef
    · obtain ⟨rfl, rfl⟩ := Prod.mk.inj (Option.some.inj h)
      exact ⟨[], .one l hl, r.lines, rfl, noDefs_nil, rfl, rfl, hdef⟩
    · obtain ⟨R, B, post, hlines, hR, rest⟩ := ih h
      have hone : NoDefs [l] := noDefs_of_not_isDef (B := .one l hl) (Bool.eq_false_iff.2 hdef)
      exact ⟨l :: R, B, post, by rw [Forest.lines, hlines]; rfl, hone.append hR, rest⟩
  | block o' ho b c' hc r ihb ih =>
    rw [firstDefMember] at h
    split_ifs at h with hdef
    · obtain ⟨rfl, rfl⟩ := Prod.mk.inj (Option.some.inj h)
      exact ⟨[], .many o' ho b c' hc, r.lines, by rw [lines_of_block]; rfl, noDefs_nil, rfl, rfl,
        hdef⟩
    · obtain ⟨R, B, post, hlines, hR, rest⟩ := ih h
      have hblock := noDefs_of_not_isDef (B := .many o' ho b c' hc) (Bool.eq_false_iff.2 hdef)
      refine ⟨(Block.many o' ho b c' hc).lines ++ R, B, post, ?_, hblock.append hR, rest⟩
      rw [lines_of_block, hlines, List.append_assoc]

theorem settled_of_firstDef (g : Forest braceKind) (h : firstDef g = none) :
    Settled g.lines := by
  induction g with
  | nil => exact settled_nil
  | line l hl r ih => exact (settled_of_plain hl).append (ih h)
  | one l hl r ih => exact (settled_of_both hl).append (ih h)
  | block o ho b c hc r ihb ih =>
    rw [firstDef] at h
    cases hb : firstDefMember b with
    | some oc => simp [hb] at h
    | none =>
      rw [hb] at h
      have hwrap := settled_of_noDefs ho (noDefs_of_firstDefMember b hb) hc
      rw [lines_of_block]
      exact hwrap.append (ih h)

/-- **The first definition inside a top-level block**, with what stands before and after
it in the file. -/
theorem exists_lines_of_firstDef (g : Forest braceKind) {p o c : Str}
    (h : firstDef g = some (p, o, c)) :
    ∃ (pre R : List Str) (B : Block) (rest : List Str),
      g.lines = pre ++ p :: (R ++ (B.lines ++ rest)) ∧ Settled pre ∧
      braceKind p = some .opn ∧ NoDefs R ∧ rest ≠ [] ∧ B.opening = o ∧ B.closing = c ∧
      isDef o = true := by
  induction g with
  | nil => simp [firstDef] at h
  | line l hl r ih =>
    obtain ⟨pre, R, B, rest, hlines, hpre, hrest⟩ := ih h
    exact ⟨l :: pre, R, B, rest, by rw [Forest.lines, hlines]; rfl,
      (settled_of_plain hl).append hpre, hrest⟩
  | one l hl r ih =>
    obtain ⟨pre, R, B, rest, hlines, hpre, hrest⟩ := ih h
    exact ⟨l :: pre, R, B, rest, by rw [Forest.lines, hlines]; rfl,
      (settled_of_both hl).append hpre, hrest⟩
  | block p' hp b c' hc r ihb ih =>
    rw [firstDef] at h
    cases hb : firstDefMember b with
    | none =>
      -- nothing to hoist from this block, which is part of what stands in front
      rw [hb] at h
      obtain ⟨pre, R, B, rest, hlines, hpre, hrest⟩ := ih h
      have hwrap := settled_of_noDefs hp (noDefs_of_firstDefMember b hb) hc
      refine ⟨(Block.many p' hp b c' hc).lines ++ pre, R, B, rest, ?_, hwrap.append hpre, hrest⟩
      rw [lines_of_block, hlines, List.append_assoc]
    | some oc =>
      obtain ⟨o', c''⟩ := oc
      rw [hb] at h
      obtain ⟨rfl, heq⟩ := Prod.mk.inj (Option.some.inj h)
      obtain ⟨rfl, rfl⟩ := Prod.mk.inj heq
      obtain ⟨R, B, post, hlines, hR, ho, hcl, hdef⟩ := exists_lines_of_firstDefMember b hb
      refine ⟨[], R, B, post ++ c' :: r.lines, ?_, settled_nil, hp, hR, by simp, ho, hcl, hdef⟩
      rw [Forest.lines, hlines]
      simp

/-! ## The pass -/

/-- A pass leaves a file without such a definition alone. -/
theorem search_of_firstDef_none (g : Forest braceKind) {infile : Str}
    (hg : splitLines infile = g.lines) (h : firstDef g = none) :
    search infile = .ok none ∧ searchAndMod infile = .ok none :=
  searchAndMod_of_settled (hg ▸ settled_of_firstDef g h)

/-- The line of a file that starts at an offset. -/
def lineAt (infile : Str) (start : ℕ) : Str := (splitLines (infile.drop start)).headD []

/-- The offset at which the lines `as` end is where the next line starts. -/
theorem lineAt_of_splitLines {infile l : Str} {as bs : List Str}
    (h : splitLines infile = as ++ l :: bs) : lineAt infile as.flatten.length = l := by
  have hdrop : infile.drop as.flatten.length = (l :: bs).flatten := by
    rw [← flatten_splitLines infile, h, List.flatten_append, List.drop_left' rfl]
  rw [lineAt, hdrop, (splitLines_eq_append h).1]
  rfl

/-- What is written in front of the parent is balanced. -/
theorem Hoist.Ok.depthFrom_defLines {h : Hoist} (hok : h.Ok) (B : Block) :
    depthFrom braceKind 0 (h.defLines B) = some 0 := by
  cases B with
  | one l hl => exact (settled_of_both (hok.braceKind_oneLine hl)).1
  | many o ho b c hc =>
    have hf := (Forest.block _ (hok.braceKind_openLine ho) (b.map indentOne braceKind_indentOne) _
      h.braceKind_closeLine .nil).depthFrom_lines 0
    simpa [Forest.lines, Hoist.defLines] using hf

theorem Block.depthFrom_lines (B : Block) : depthFrom braceKind 0 B.lines = some 0 := by
  cases B with
  | one l hl => exact (settled_of_both hl).1
  | many o ho b c hc =>
    simpa [Forest.lines, Block.lines] using (Forest.block o ho b c hc .nil).depthFrom_lines 0

theorem Block.lines_eq_cons (B : Block) : ∃ ls, B.lines = B.opening :: ls := by
  cases B <;> exact ⟨_, rfl⟩

/-- **What a pass does with the first definition** inside a top-level block. -/
theorem search_of_firstDef (g : Forest braceKind) {infile : Str}
    (hg : splitLines infile = g.lines) {p o c : Str} (h : firstDef g = some (p, o, c)) :
    match hoistOf o c (openDecl p) with
    | .error e => search infile = .error e ∧ searchAndMod infile = .error e
    | .ok none => False
    | .ok (some hoist) => ∃ m start stop txt, lineAt infile start = o ∧
        search infile = .ok (some (m, hoist.toS start stop o txt)) ∧
        ∃ infile', searchAndMod infile = .ok (some infile') ∧ Disciplined infile' := by
  obtain ⟨pre, R, B, rest, hlines, hpre, hp, hR, hrest, rfl, rfl, hdef⟩ :=
    exists_lines_of_firstDef g h
  have hfile := hg.trans hlines
  cases hh : hoistOf B.opening B.closing (openDecl p) with
  | error e => exact searchAndMod_of_error hfile hpre hp hR hh
  | ok r =>
    cases r with
    | none =>
      have := openType_eq_none_iff.1 (hoistOf_eq_none_iff.1 hh)
      simp [this] at hdef
    | some hoist =>
      have hsearch := search_of_block hfile hpre hp hR
      rw [hh] at hsearch
      refine ⟨_, _, _, _, ?_, hsearch, ?_⟩
      · obtain ⟨ls, hls⟩ := B.lines_eq_cons
        have hcut : splitLines infile = (pre ++ p :: R) ++ B.opening :: (ls ++ rest) := by
          rw [hfile, hls]
          simp
        have hstart := lineAt_of_splitLines hcut
        simpa [Nat.add_assoc] using hstart
      · obtain ⟨infile', hmod, hnew⟩ := searchAndMod_of_block hfile hpre hp hR hrest hh
        have hok := ok_of_hoistOf hp hh
        -- the lines around the block are balanced without it
        have hold : depthFrom braceKind 0 g.lines = some 0 := g.depthFrom_lines 0
        rw [hlines, depthFrom_append_of_balanced hpre.1, depthFrom, hp] at hold
        dsimp only at hold
        rw [depthFrom_append_of_balanced hR.1, depthFrom_append_of_balanced B.depthFrom_lines]
          at hold
        refine ⟨infile', hmod, ?_⟩
        rw [Disciplined, hnew, depthFrom_append_of_balanced hpre.1,
          depthFrom_append_of_balanced (hok.depthFrom_defLines B), depthFrom, hp]
        dsimp only
        rw [depthFrom_append_of_balanced hR.1,
          depthFrom_append_of_balanced hok.noDefs_genLines.1, hold]

/-- A pass over a brace-disciplined file leaves a brace-disciplined file. -/
theorem disciplined_of_searchAndMod {infile infile' : Str} (h : Disciplined infile)
    (hmod : searchAndMod infile = .ok (some infile')) : Disciplined infile' := by
  obtain ⟨g, hg⟩ := exists_lines_eq_of_depthFrom h
  cases hf : firstDef g with
  | none =>
    rw [(search_of_firstDef_none g hg.symm hf).2] at hmod
    simp at hmod
  | some poc =>
    obtain ⟨p, o, c⟩ := poc
    have hstep := search_of_firstDef g hg.symm hf
    cases hh : hoistOf o c (openDecl p) with
    | error e => simp [hh, hmod] at hstep
    | ok r =>
      cases r with
      | none => simp [hh] at hstep
      | some hoist =>
        rw [hh] at hstep
        obtain ⟨_, _, _, _, -, -, infile'', hmod', hd⟩ := hstep
        rw [hmod] at hmod'
        obtain rfl := Option.some.inj (Except.ok.inj hmod')
        exact hd

/-- **Every file of a run** on a brace-disciplined file is brace-disciplined. -/
theorem disciplined_of_rewrites {k : ℕ} {infile file : Str} (h : Disciplined infile)
    (hrun : rewrites k infile = some file) : Disciplined file := by
  induction k generalizing infile with
  | zero => exact Option.some.inj hrun ▸ h
  | succ k ih =>
    rw [rewrites] at hrun
    cases hs : searchAndMod infile with
    | error e => simp [hs] at hrun
    | ok r =>
      cases r with
      | none => simp [hs] at hrun
      | some infile' =>
        rw [hs] at hrun
        exact ih (disciplined_of_searchAndMod h hs) hrun

end StructEnum
