/-
# One pass over a brace-disciplined file

What the loop of `search_and_mod` does with the lines of a balanced file, stated on
the lines alone.  Top-level blocks without a definition among their members are
passed over (`scan_settled`); in the first block that has one, the scanner stops at
the first such member with the object that `hoistOf` describes (`search_of_block`),
and the new file has the lines of the old one with two changes: the definition in
front of the parent, and the declaration in place of the member
(`searchAndMod_of_block`).
-/
import LeakimMisc.StructEnumHoist

open PyStr Nest

namespace StructEnum

/-! ## One turn -/

/-- The state between two top-level blocks. -/
def outside : Scan := ⟨none, none, 0⟩

/-- The state among the members of the top-level block `m`. -/
def inParent (m : S) : Scan := ⟨some m, none, 1⟩

theorem turn_plain {l : Str} (h : braceKind l = some .plain) (start : ℕ) (st : Scan) :
    turn start l st = .ok (.next (st.onText l false)) := by
  simp [turn, isStart_strip, isEnd_strip, braceKind_plain_iff.1 h]

theorem turn_opn {l : Str} (h : braceKind l = some .opn) (start : ℕ) (st : Scan) :
    turn start l st
      = .ok (.next ((st.onStart start l).1.onText l (st.onStart start l).2)) := by
  simp [turn, isStart_strip, isEnd_strip, braceKind_opn_iff.1 h]

theorem turn_cls {l : Str} (h : braceKind l = some .cls) (start : ℕ) (st : Scan) :
    turn start l st = st.onEnd (start + l.length) l false := by
  simp [turn, isStart_strip, isEnd_strip, braceKind_cls_iff.1 h]

theorem turn_both {l : Str} (h : braceKind l = some .both) (start : ℕ) (st : Scan) :
    turn start l st = (st.onStart start l).1.onEnd (start + l.length) l
      (st.onStart start l).2 := by
  simp [turn, isStart_strip, isEnd_strip, braceKind_both_iff.1 h]

/-- A turn that does not hoist goes on with the next line. -/
theorem scan_cons_next {l : Str} {ls : List Str} {start : ℕ} {st st' : Scan}
    (h : turn start l st = .ok (.next st')) :
    scan (l :: ls) start st = scan ls (start + l.length) st' := by
  rw [scan, h]
  rfl

@[simp] theorem S.append_append (s : S) (a b : Str) :
    (s.append a).append b = s.append (a ++ b) := by
  simp [S.append]

@[simp] theorem S.append_nil (s : S) : s.append [] = s := by simp [S.append]

/-- A line of text inside the block `n`. -/
theorem onText_inside (m n : S) {d : ℤ} (hd : 0 < d) (l : Str) :
    Scan.onText ⟨some m, some n, d⟩ l false = ⟨some m, some (n.append (indentOne l)), d⟩ := by
  simp [Scan.onText, hd]

/-- **Inside the block `n`** the scanner collects the lines, whatever is nested in
them. -/
theorem scan_inside (f : Forest braceKind) (m n : S) {d : ℤ} (hd : 2 ≤ d) (start : ℕ)
    (ls : List Str) :
    scan (f.lines ++ ls) start ⟨some m, some n, d⟩
      = scan ls (start + f.lines.flatten.length)
          ⟨some m, some (n.append (f.lines.map indentOne).flatten), d⟩ := by
  induction f generalizing n d start ls with
  | nil => simp [Forest.lines]
  | line l h r ih =>
    rw [Forest.lines, List.cons_append, scan_cons_next (turn_plain h _ _),
      onText_inside _ _ (by omega), ih _ hd]
    simp [Nat.add_assoc]
  | one l h r ih =>
    have hturn : turn start l ⟨some m, some n, d⟩
        = .ok (.next ⟨some m, some (n.append (indentOne l)), d⟩) := by
      rw [turn_both h]
      simp [Scan.onStart, Scan.onEnd, Scan.onText, show d ≠ 0 by omega, show d ≠ 1 by omega,
        show 0 < d by omega]
    rw [Forest.lines, List.cons_append, scan_cons_next hturn, ih _ hd]
    simp [Nat.add_assoc]
  | block o ho b c hc r ihb ih =>
    -- in between the depth is `d + 1`, so the closing line of `n` is not mistaken
    have hopen : turn start o ⟨some m, some n, d⟩
        = .ok (.next ⟨some m, some (n.append (indentOne o)), d + 1⟩) := by
      rw [turn_opn ho]
      simp [Scan.onStart, Scan.onText, show 0 < d + 1 by omega]
    have hclose : ∀ p n', turn p c ⟨some m, some n', d + 1⟩
        = .ok (.next ⟨some m, some (n'.append (indentOne c)), d⟩) := by
      intro p n'
      rw [turn_cls hc]
      simp [Scan.onEnd, Scan.onText, show d ≠ 0 by omega, show d ≠ 1 by omega,
        show 0 < d by omega]
    rw [Forest.lines, List.cons_append, List.append_assoc, List.cons_append,
      scan_cons_next hopen, ihb _ (by omega), scan_cons_next (hclose _ _), ih _ hd]
    simp [Nat.add_assoc]

/-! ## A member that is a block -/

/-- The lines of one block: a line that opens and closes it, or an opening line,
balanced lines and a closing line. -/
inductive Block
  | one (l : Str) (h : braceKind l = some .both)
  | many (o : Str) (ho : braceKind o = some .opn) (body : Forest braceKind)
      (c : Str) (hc : braceKind c = some .cls)

namespace Block

/-- The lines of the block, in order. -/
def lines : Block → List Str
  | one l _ => [l]
  | many o _ b c _ => o :: (b.lines ++ [c])

/-- The opening line. -/
def opening : Block → Str
  | one l _ => l
  | many o _ _ _ _ => o

/-- The lines between the opening and the closing line. -/
def inner : Block → List Str
  | one _ _ => []
  | many _ _ b _ _ => b.lines

/-- The closing line. -/
def closing : Block → Str
  | one l _ => l
  | many _ _ _ c _ => c

theorem opensBlock (B : Block) : OpensBlock B.opening := by
  cases B with
  | one l h => exact opensBlock_of_both h
  | many o ho b c hc => exact opensBlock_of_opn ho

theorem closesBlock (B : Block) : ClosesBlock B.closing := by
  cases B with
  | one l h => exact closesBlock_of_both h
  | many o ho b c hc => exact closesBlock_of_cls hc

end Block

theorem hoistOf_eq_none_iff {o c : Str} {parent : Option Str} :
    hoistOf o c parent = .ok none ↔ openType o = none := by
  unfold hoistOf
  cases openType o with
  | none => simp
  | some kw =>
    cases openDecl o with
    | some tag => simp
    | none => cases (closeName0 c).map bareName <;> cases parent <;> simp

/-- The closing line of the block `n`, read from its opening line `o` and its text. -/
theorem onEnd_block (m : S) (start tell : ℕ) (o txt : Str) {c : Str} (hc : '}' ∈ c)
    (startOrEnd : Bool) :
    Scan.onEnd ⟨some m, some ((S.init start o).append txt), 2⟩ tell c startOrEnd
      = match hoistOf o c m.decl with
        | .error e => .error e
        | .ok none => .ok (.next (inParent m))
        | .ok (some h) => .ok (.hoist m (h.toS start tell o txt)) := by
  have hend : ∀ n, Scan.onEnd ⟨some m, some n, 2⟩ tell c startOrEnd
      = (n.lastLine tell (indentNone c) m.decl).bind fun n =>
          if n.type0.isSome then .ok (.hoist m n) else .ok (.next (inParent m)) := fun n => rfl
  rw [hend, lastLine_init_append start tell o txt c m.decl hc]
  cases hh : hoistOf o c m.decl with
  | error e => rfl
  | ok r =>
    cases r with
    | none =>
      have htype : ((S.init start o).append txt).type0 = none := hoistOf_eq_none_iff.1 hh
      simp [Except.bind, htype]
    | some h => rfl

/-- **A block among the members of `m`**: the scanner reads it as `hoistOf` does, and
hoists it if it is a definition. -/
theorem scan_block (B : Block) (m : S) (start : ℕ) (ls : List Str) :
    scan (B.lines ++ ls) start (inParent m)
      = match hoistOf B.opening B.closing m.decl with
        | .error e => .error e
        | .ok none => scan ls (start + B.lines.flatten.length) (inParent m)
        | .ok (some h) => .ok (some (m, h.toS start (start + B.lines.flatten.length) B.opening
            (B.inner.map indentOne).flatten)) := by
  have hcls : '}' ∈ B.closing := (braces_tail_of_closesBlock B.closesBlock).2
  cases B with
  | one l h =>
    -- the line opens `n` and closes it in one turn, without a line in between
    have hturn : turn start l (inParent m)
        = Scan.onEnd ⟨some m, some ((S.init start l).append []), 2⟩ (start + l.length) l true := by
      rw [turn_both h, S.append_nil]
      rfl
    rw [Block.lines, List.singleton_append, scan, hturn,
      onEnd_block m _ _ _ _ (show '}' ∈ l from hcls)]
    cases hh : hoistOf l l m.decl with
    | error e => simp [Block.opening, Block.closing, hh, Bind.bind, Except.bind]
    | ok r => cases r <;> simp [Block.opening, Block.closing, Block.inner, hh, Bind.bind,
        Except.bind, Pure.pure, Except.pure]
  | many o ho b c hc =>
    have hopen : turn start o (inParent m) = .ok (.next ⟨some m, some (S.init start o), 2⟩) := by
      rw [turn_opn ho]
      rfl
    rw [Block.lines, List.cons_append, List.append_assoc, List.singleton_append,
      scan_cons_next hopen, scan_inside b m _ (le_refl 2), scan, turn_cls hc,
      onEnd_block m _ _ _ _ (show '}' ∈ c from hcls)]
    cases hh : hoistOf o c m.decl with
    | error e => simp [Block.opening, Block.closing, hh, Bind.bind, Except.bind]
    | ok r => cases r <;> simp [Block.opening, Block.closing, Block.inner, hh, Bind.bind,
        Except.bind, Pure.pure, Except.pure, Nat.add_assoc]

/-! ## Members and top-level blocks without definitions -/

/-- Balanced lines none of whose outermost blocks is a definition: the members of a
block from which nothing is left to hoist. -/
def NoDefs (ls : List Str) : Prop :=
  depthFrom braceKind 0 ls = some 0 ∧ ∀ p ∈ openings braceKind 0 ls, p.2 = 1 → isDef p.1 = false

/-- Balanced lines no line of which opens a definition directly inside a top-level
block: a file from which nothing is left to hoist. -/
def Settled (ls : List Str) : Prop :=
  depthFrom braceKind 0 ls = some 0 ∧ ∀ p ∈ openings braceKind 0 ls, p.2 = 2 → isDef p.1 = false

theorem lines_of_block (o : Str) (ho : braceKind o = some .opn) (b : Forest braceKind) (c : Str)
    (hc : braceKind c = some .cls) (r : Forest braceKind) :
    (Forest.block o ho b c hc r).lines = (Block.many o ho b c hc).lines ++ r.lines := by
  simp [Forest.lines, Block.lines]

/-- The blocks among the members, and what follows each. -/
theorem scan_of_not_isDef (B : Block) (m : S) (h : isDef B.opening = false) (start : ℕ)
    (ls : List Str) :
    scan (B.lines ++ ls) start (inParent m)
      = scan ls (start + B.lines.flatten.length) (inParent m) := by
  rw [scan_block, hoistOf_eq_none_iff.2 (openType_eq_none_iff.2 h)]

theorem NoDefs.of_block {o : Str} {ho : braceKind o = some .opn} {b : Forest braceKind} {c : Str}
    {hc : braceKind c = some .cls} {r : Forest braceKind}
    (h : NoDefs (Forest.block o ho b c hc r).lines) : isDef o = false ∧ NoDefs r.lines := by
  obtain ⟨-, hall⟩ := h
  rw [Forest.openings_block] at hall
  exact ⟨hall (o, 1) List.mem_cons_self rfl, r.depthFrom_lines 0,
    fun p hp => hall p (List.mem_cons_of_mem _ (List.mem_append_right _ hp))⟩

/-- **Members without definitions are passed over.** -/
theorem scan_noDefs {R : List Str} (hR : NoDefs R) (m : S) (start : ℕ) (ls : List Str) :
    scan (R ++ ls) start (inParent m) = scan ls (start + R.flatten.length) (inParent m) := by
  obtain ⟨f, rfl⟩ := exists_lines_eq_of_depthFrom hR.1
  induction f generalizing start with
  | nil => rfl
  | line l h r ih =>
    have hturn : turn start l (inParent m) = .ok (.next (inParent m)) := by
      rw [turn_plain h]
      rfl
    have hr : NoDefs r.lines := by
      refine ⟨r.depthFrom_lines 0, fun p hp => hR.2 p ?_⟩
      simpa [Forest.lines, openings, h] using hp
    rw [Forest.lines, List.cons_append, scan_cons_next hturn, ih _ hr]
    simp [Nat.add_assoc]
  | one l h r ih =>
    have hl : isDef l = false := hR.2 (l, 1) (by simp [Forest.lines, openings, h]) rfl
    have hr : NoDefs r.lines := by
      refine ⟨r.depthFrom_lines 0, fun p hp => hR.2 p ?_⟩
      simpa [Forest.lines, openings, h] using Or.inr hp
    -- the block is opened as `n`, closed, and forgotten: its `type0` is `None`
    have hone := scan_of_not_isDef (.one l h) m hl start (r.lines ++ ls)
    rw [Block.lines, List.singleton_append] at hone
    rw [Forest.lines, List.cons_append, hone, ih _ hr]
    simp [Nat.add_assoc]
  | block o ho b c hc r ihb ih =>
    obtain ⟨hdef, hr⟩ := hR.of_block
    rw [lines_of_block, List.append_assoc, scan_of_not_isDef (.many o ho b c hc) m hdef, ih _ hr]
    simp [Nat.add_assoc]

theorem Settled.of_block {o : Str} {ho : braceKind o = some .opn} {b : Forest braceKind} {c : Str}
    {hc : braceKind c = some .cls} {r : Forest braceKind}
    (h : Settled (Forest.block o ho b c hc r).lines) : NoDefs b.lines ∧ Settled r.lines := by
  obtain ⟨-, hall⟩ := h
  rw [Forest.openings_block, Forest.openings_succ] at hall
  refine ⟨⟨b.depthFrom_lines 0, fun p hp hp1 => ?_⟩, r.depthFrom_lines 0,
    fun p hp => hall p (List.mem_cons_of_mem _ (List.mem_append_right _ hp))⟩
  exact hall (p.1, p.2 + 1) (List.mem_cons_of_mem _ (List.mem_append_left _
    (List.mem_map_of_mem hp))) (by rw [hp1])

/-- The opening line of a top-level block. -/
theorem scan_top_opn {o : Str} (ho : braceKind o = some .opn) (start : ℕ) (ls : List Str) :
    scan (o :: ls) start outside = scan ls (start + o.length) (inParent (S.init start o)) := by
  refine scan_cons_next ?_
  rw [turn_opn ho]
  rfl

/-- The closing line of a top-level block. -/
theorem scan_top_cls {c : Str} (hc : braceKind c = some .cls) (m : S) (start : ℕ)
    (ls : List Str) :
    scan (c :: ls) start (inParent m) = scan ls (start + c.length) outside := by
  refine scan_cons_next ?_
  rw [turn_cls hc]
  rfl

/-- **A settled part of the file is passed over.** -/
theorem scan_settled {ls₀ : List Str} (h₀ : Settled ls₀) (start : ℕ) (ls : List Str) :
    scan (ls₀ ++ ls) start outside = scan ls (start + ls₀.flatten.length) outside := by
  obtain ⟨f, rfl⟩ := exists_lines_eq_of_depthFrom h₀.1
  induction f generalizing start with
  | nil => rfl
  | line l h r ih =>
    have hturn : turn start l outside = .ok (.next outside) := by
      rw [turn_plain h]
      rfl
    have hr : Settled r.lines := by
      refine ⟨r.depthFrom_lines 0, fun p hp => h₀.2 p ?_⟩
      simpa [Forest.lines, openings, h] using hp
    rw [Forest.lines, List.cons_append, scan_cons_next hturn, ih _ hr]
    simp [Nat.add_assoc]
  | one l h r ih =>
    have hturn : turn start l outside = .ok (.next outside) := by
      rw [turn_both h]
      rfl
    have hr : Settled r.lines := by
      refine ⟨r.depthFrom_lines 0, fun p hp => h₀.2 p ?_⟩
      simpa [Forest.lines, openings, h] using Or.inr hp
    rw [Forest.lines, List.cons_append, scan_cons_next hturn, ih _ hr]
    simp [Nat.add_assoc]
  | block o ho b c hc r ihb ih =>
    -- the block becomes `m`, its members are passed over, and `m` is forgotten
    obtain ⟨hb, hr⟩ := h₀.of_block
    rw [Forest.lines, List.cons_append, List.append_assoc, List.cons_append, scan_top_opn ho,
      scan_noDefs hb, scan_top_cls hc, ih _ hr]
    simp [Nat.add_assoc]

/-- A settled file is left alone. -/
theorem searchAndMod_of_settled {infile : Str} (h : Settled (splitLines infile)) :
    search infile = .ok none ∧ searchAndMod infile = .ok none := by
  have hs : search infile = .ok none := by
    have := scan_settled h 0 []
    rw [List.append_nil] at this
    exact this
  exact ⟨hs, by rw [searchAndMod, hs]; rfl⟩

/-! ## The rewrite -/

/-- The lines of the hoisted definition of a block. -/
def Hoist.defLines (h : Hoist) : Block → List Str
  | .one l _ => [h.oneLine l]
  | .many o _ b _ _ => h.openLine o :: (b.lines.map indentOne ++ [h.closeLine])

theorem Hoist.flatten_defLines (h : Hoist) (B : Block) :
    (h.defLines B).flatten
      = h.openLine B.opening ++ (B.inner.map indentOne).flatten ++ h.closeLine := by
  cases B <;> simp [defLines, Block.opening, Block.inner, oneLine]

theorem Hoist.flatten_genLines (h : Hoist) :
    h.genLines.flatten
      = "\t/* GENERATED */\n".toList ++ "\t".toList ++ h.declText ++ "\n\n".toList := by
  simp [genLines]

theorem Hoist.Ok.isLine_defLines {h : Hoist} (hok : h.Ok) {B : Block}
    (hB : ∀ l ∈ B.lines, IsLine l) : ∀ l ∈ h.defLines B, IsLine l := by
  intro l hl
  cases B with
  | one o ho =>
    rw [List.mem_singleton.1 hl]
    exact hok.isLine_oneLine (braceKind_both_iff.1 ho) (hB o (by simp [Block.lines]))
  | many o ho b c hc =>
    rcases List.mem_cons.1 hl with rfl | hl
    · exact hok.isLine_openLine (braceKind_opn_iff.1 ho) (hB o (by simp [Block.lines]))
    · rcases List.mem_append.1 hl with hl | hl
      · obtain ⟨x, hx, rfl⟩ := List.mem_map.1 hl
        exact (tabsBefore_indentOne x).isLine (hB x (by simp [Block.lines, hx]))
      · rw [List.mem_singleton.1 hl]
        exact h.isLine_closeLine

theorem ok_of_hoistOf {B : Block} {o : Str} {h : Hoist} (ho : braceKind o = some .opn)
    (hh : hoistOf B.opening B.closing (openDecl o) = .ok (some h)) : h.Ok :=
  hoistOf_ok hh B.opensBlock B.closesBlock (parentOk_openDecl (opensBlock_of_opn ho))

/-- The four pieces of a file around a block, cut at the recorded offsets. -/
theorem cut_pieces (a b c d : Str) :
    (a ++ (b ++ (c ++ d))).take a.length = a ∧
    ((a ++ (b ++ (c ++ d))).drop a.length).take ((a.length + b.length) - a.length) = b ∧
    (a ++ (b ++ (c ++ d))).drop (a.length + b.length + c.length) = d := by
  refine ⟨List.take_left' rfl, ?_, ?_⟩
  · rw [List.drop_left' rfl, Nat.add_sub_cancel_left, List.take_left' rfl]
  · rw [← List.append_assoc, ← List.append_assoc]
    exact List.drop_left' (by simp [Nat.add_assoc])

variable {infile : Str} {pre R rest : List Str} {o : Str} {B : Block}

/-- **The scanner stops at the first definition inside a top-level block.** -/
theorem search_of_block (hlines : splitLines infile = pre ++ o :: (R ++ (B.lines ++ rest)))
    (hpre : Settled pre) (ho : braceKind o = some .opn) (hR : NoDefs R) :
    search infile
      = match hoistOf B.opening B.closing (openDecl o) with
        | .error e => .error e
        | .ok none => scan rest (pre.flatten.length + o.length + R.flatten.length
            + B.lines.flatten.length) (inParent (S.init pre.flatten.length o))
        | .ok (some h) => .ok (some (S.init pre.flatten.length o,
            h.toS (pre.flatten.length + o.length + R.flatten.length)
              (pre.flatten.length + o.length + R.flatten.length + B.lines.flatten.length)
              B.opening (B.inner.map indentOne).flatten)) := by
  rw [search, hlines]
  have hstart := scan_settled hpre 0 (o :: (R ++ (B.lines ++ rest)))
  rw [Nat.zero_add] at hstart
  refine hstart.trans ?_
  rw [scan_top_opn ho, scan_noDefs hR, scan_block]
  rfl

/-- **A pass that hoists**, as a change of the lines of the file: the definition goes in
front of the parent, the declaration in place of the block. -/
theorem searchAndMod_of_block (hlines : splitLines infile = pre ++ o :: (R ++ (B.lines ++ rest)))
    (hpre : Settled pre) (ho : braceKind o = some .opn) (hR : NoDefs R) (hrest : rest ≠ [])
    {h : Hoist} (hh : hoistOf B.opening B.closing (openDecl o) = .ok (some h)) :
    ∃ infile', searchAndMod infile = .ok (some infile') ∧
      splitLines infile' = pre ++ (h.defLines B ++ o :: (R ++ (h.genLines ++ rest))) := by
  have hok := ok_of_hoistOf ho hh
  have hsearch := search_of_block hlines hpre ho hR
  rw [hh] at hsearch
  obtain ⟨typedef, htypedef, htext⟩ := h.getTypedef_toS
    (pre.flatten.length + o.length + R.flatten.length)
    (pre.flatten.length + o.length + R.flatten.length + B.lines.flatten.length)
    B.opening (B.inner.map indentOne).flatten
  -- the file is cut in front of the parent, in front of the block, and after it
  have hfile : infile
      = pre.flatten ++ ((o ++ R.flatten) ++ (B.lines.flatten ++ rest.flatten)) := by
    rw [← flatten_splitLines infile, hlines]
    simp
  obtain ⟨hcut₁, hcut₂, hcut₃⟩ :=
    cut_pieces pre.flatten (o ++ R.flatten) B.lines.flatten rest.flatten
  rw [← hfile, List.length_append, ← Nat.add_assoc] at hcut₂ hcut₃
  rw [← hfile] at hcut₁
  have hswap : searchAndMod infile = .ok (some (pre.flatten ++ typedef ++ "\n".toList
      ++ (o ++ R.flatten) ++ "\t/* GENERATED */\n".toList ++ "\t".toList ++ h.declText
      ++ "\n\n".toList ++ rest.flatten)) := by
    rw [searchAndMod, hsearch]
    simp only [bind, Except.bind, modifyAndSwap, htypedef, h.getDecl_toS, pure, Except.pure]
    rw [show (S.init pre.flatten.length o).start = pre.flatten.length from rfl, hcut₁]
    simp only [Hoist.toS, hcut₂, hcut₃]
  refine ⟨_, hswap, ?_⟩
  -- every line in front of `rest` is complete
  have hlines' : splitLines infile = (pre ++ o :: (R ++ B.lines)) ++ rest := by
    rw [hlines]
    simp
  obtain ⟨hrestLines, hcomplete⟩ := splitLines_eq_append hlines'
  have hline := hcomplete hrest
  have hnew : pre.flatten ++ typedef ++ "\n".toList ++ (o ++ R.flatten)
      ++ "\t/* GENERATED */\n".toList ++ "\t".toList ++ h.declText ++ "\n\n".toList
      ++ rest.flatten
      = (pre ++ (h.defLines B ++ o :: (R ++ h.genLines))).flatten ++ rest.flatten := by
    simp only [List.flatten_append, List.flatten_cons, h.flatten_defLines, h.flatten_genLines,
      ← htext, List.append_assoc]
  rw [hnew, splitLines_flatten_append, hrestLines]
  · simp
  · intro l hl
    simp only [List.mem_append, List.mem_cons] at hl
    rcases hl with hl | hl | rfl | hl | hl
    · exact hline l (by simp [hl])
    · exact hok.isLine_defLines (fun x hx => hline x (by simp [hx])) l hl
    · exact hline l (by simp)
    · exact hline l (by simp [hl])
    · exact hok.isLine_genLines hl

/-- A pass that raises, raises in `last_line`. -/
theorem searchAndMod_of_error (hlines : splitLines infile = pre ++ o :: (R ++ (B.lines ++ rest)))
    (hpre : Settled pre) (ho : braceKind o = some .opn) (hR : NoDefs R) {e : PyError}
    (hh : hoistOf B.opening B.closing (openDecl o) = .error e) :
    search infile = .error e ∧ searchAndMod infile = .error e := by
  have hsearch := search_of_block hlines hpre ho hR
  rw [hh] at hsearch
  exact ⟨hsearch, by rw [searchAndMod, hsearch]; rfl⟩

end StructEnum
