/-
# Whole runs

What the main loop makes of a brace-disciplined file, as one recursion over its
blocks: `hoistMembers` takes the members of a top-level block and returns the
definitions that end up in front of the block and what is left inside it;
`hoistFile` does so for every block of the file.  The run rewrites the file step by
step until its lines are those of `hoistFile`, or raises where `hoistFile` fails
(`runsTo_hoistFile`).  The induction follows the blocks: after a block has been
hoisted, the scanner finds its own members next, before the rest of its parent.

It takes at most as many rewrites as the sum over the opening lines of the depth
less one, since a rewrite moves a block and all that is nested in it one level out.
-/
import LeakimMisc.StructEnumScan

open PyStr Nest

namespace StructEnum

/-! ## Balanced parts -/

theorem depthFrom_append_of_balanced {a b : List Str} (ha : depthFrom braceKind 0 a = some 0)
    (d : ℕ) : depthFrom braceKind d (a ++ b) = depthFrom braceKind d b := by
  obtain ⟨f, rfl⟩ := exists_lines_eq_of_depthFrom ha
  exact f.depthFrom_lines_append d b

theorem openings_append_of_balanced {a b : List Str} (ha : depthFrom braceKind 0 a = some 0)
    (d : ℕ) : openings braceKind d (a ++ b) = openings braceKind d a ++ openings braceKind d b := by
  obtain ⟨f, rfl⟩ := exists_lines_eq_of_depthFrom ha
  exact f.openings_lines_append d b

theorem noDefs_nil : NoDefs [] := ⟨rfl, by simp [openings]⟩

theorem settled_nil : Settled [] := ⟨rfl, by simp [openings]⟩

theorem NoDefs.append {a b : List Str} (ha : NoDefs a) (hb : NoDefs b) : NoDefs (a ++ b) := by
  refine ⟨by rw [depthFrom_append_of_balanced ha.1, hb.1], fun p hp => ?_⟩
  rw [openings_append_of_balanced ha.1, List.mem_append] at hp
  exact hp.elim (ha.2 p) (hb.2 p)

theorem Settled.append {a b : List Str} (ha : Settled a) (hb : Settled b) :
    Settled (a ++ b) := by
  refine ⟨by rw [depthFrom_append_of_balanced ha.1, hb.1], fun p hp => ?_⟩
  rw [openings_append_of_balanced ha.1, List.mem_append] at hp
  exact hp.elim (ha.2 p) (hb.2 p)

theorem noDefs_of_plain {ls : List Str} (h : ∀ l ∈ ls, braceKind l = some .plain) :
    NoDefs ls := by
  induction ls with
  | nil => exact noDefs_nil
  | cons l ls ih =>
    have hl : NoDefs [l] :=
      ⟨by simp [depthFrom, h l List.mem_cons_self], by simp [openings, h l List.mem_cons_self]⟩
    exact hl.append (ih fun m hm => h m (List.mem_cons_of_mem _ hm))

theorem settled_of_plain {l : Str} (h : braceKind l = some .plain) : Settled [l] :=
  ⟨by simp [depthFrom, h], by simp [openings, h]⟩

/-- A block on one line at the top of a file. -/
theorem settled_of_both {l : Str} (h : braceKind l = some .both) : Settled [l] :=
  ⟨by simp [depthFrom, h], by simp [openings, h]⟩

theorem openings_many (o : Str) (ho : braceKind o = some .opn) (b : Forest braceKind) (c : Str)
    (hc : braceKind c = some .cls) (d : ℕ) :
    openings braceKind d (o :: (b.lines ++ [c]))
      = (o, d + 1) :: openings braceKind (d + 1) b.lines := by
  have h := Forest.openings_block o ho b c hc .nil d
  simpa [Forest.lines, openings] using h

/-- A block with nothing to hoist from it, at the top of a file. -/
theorem settled_of_noDefs {o c : Str} {R : List Str} (ho : braceKind o = some .opn)
    (hR : NoDefs R) (hc : braceKind c = some .cls) : Settled (o :: (R ++ [c])) := by
  obtain ⟨b, rfl⟩ := exists_lines_eq_of_depthFrom hR.1
  refine ⟨?_, fun p hp hp2 => ?_⟩
  · simpa [Forest.lines] using (Forest.block o ho b c hc .nil).depthFrom_lines 0
  · rw [openings_many o ho b c hc, Forest.openings_succ] at hp
    rcases List.mem_cons.1 hp with rfl | hp
    · simp at hp2
    · obtain ⟨q, hq, rfl⟩ := List.mem_map.1 hp
      exact hR.2 q hq (by simpa using hp2)

/-- A block that is no definition, among the members of another. -/
theorem noDefs_of_not_isDef {B : Block} (h : isDef B.opening = false) : NoDefs B.lines := by
  cases B with
  | one l hl =>
    refine ⟨by simp [Block.lines, depthFrom, hl], fun p hp _ => ?_⟩
    simp only [Block.lines, openings, hl, List.mem_singleton] at hp
    rw [hp]
    exact h
  | many o ho b c hc =>
    refine ⟨?_, fun p hp hp1 => ?_⟩
    · simpa [Forest.lines, Block.lines] using (Forest.block o ho b c hc .nil).depthFrom_lines 0
    · rw [Block.lines, openings_many o ho b c hc, Forest.openings_succ] at hp
      rcases List.mem_cons.1 hp with rfl | hp
      · exact h
      · -- deeper blocks are at depth two or more
        obtain ⟨q, hq, rfl⟩ := List.mem_map.1 hp
        have := one_le_of_mem_openings hq
        simp at hp1
        omega

/-! ## Runs as changes of the lines -/

/-- From a file with the lines `ls`, `n` rewrites lead to one with the lines `ls'`. -/
def LeadsTo (n : ℕ) (ls ls' : List Str) : Prop :=
  ∀ infile, splitLines infile = ls →
    ∃ infile', rewrites n infile = some infile' ∧ splitLines infile' = ls'

/-- On a file with the lines `ls` the pass raises. -/
def RaisesAt (ls : List Str) (e : PyError) : Prop :=
  ∀ infile, splitLines infile = ls → searchAndMod infile = .error e

/-- In at most `n` rewrites the run leads to the lines of `r`, or raises if `r` is an
exception. -/
def RunsTo (n : ℕ) (ls : List Str) : Except PyError (List Str) → Prop
  | .ok ls' => ∃ k ≤ n, LeadsTo k ls ls'
  | .error e => ∃ k ≤ n, ∃ ls', LeadsTo k ls ls' ∧ RaisesAt ls' e

theorem leadsTo_zero (ls : List Str) : LeadsTo 0 ls ls := fun infile h => ⟨infile, rfl, h⟩

theorem rewrites_add {k n : ℕ} {infile mid : Str} (h : rewrites k infile = some mid) :
    rewrites (k + n) infile = rewrites n mid := by
  induction k generalizing infile with
  | zero => rw [Nat.zero_add, ← Option.some.inj h]
  | succ k ih =>
    rw [rewrites] at h
    rw [Nat.succ_add, rewrites]
    cases hs : searchAndMod infile with
    | error e => simp [hs] at h
    | ok r =>
      cases r with
      | none => simp [hs] at h
      | some infile' =>
        simp only [hs] at h ⊢
        exact ih h

theorem LeadsTo.trans {k n : ℕ} {a b c : List Str} (h₁ : LeadsTo k a b) (h₂ : LeadsTo n b c) :
    LeadsTo (k + n) a c := by
  intro infile ha
  obtain ⟨mid, hmid, hb⟩ := h₁ infile ha
  obtain ⟨last, hlast, hc⟩ := h₂ mid hb
  exact ⟨last, by rw [rewrites_add hmid, hlast], hc⟩

theorem LeadsTo.runsTo {k n : ℕ} {a b : List Str} {r : Except PyError (List Str)}
    (h₁ : LeadsTo k a b) (h₂ : RunsTo n b r) : RunsTo (k + n) a r := by
  cases r with
  | error e =>
    obtain ⟨j, hj, c, hbc, hc⟩ := h₂
    exact ⟨k + j, by omega, c, h₁.trans hbc, hc⟩
  | ok c =>
    obtain ⟨j, hj, hbc⟩ := h₂
    exact ⟨k + j, by omega, h₁.trans hbc⟩

theorem RunsTo.mono {m n : ℕ} {a : List Str} {r : Except PyError (List Str)}
    (h : RunsTo m a r) (hmn : m ≤ n) : RunsTo n a r := by
  cases r with
  | error e =>
    obtain ⟨k, hk, rest⟩ := h
    exact ⟨k, hk.trans hmn, rest⟩
  | ok c =>
    obtain ⟨k, hk, hac⟩ := h
    exact ⟨k, hk.trans hmn, hac⟩

/-- A run that leads somewhere goes on from there. -/
theorem RunsTo.trans {m n : ℕ} {a b : List Str} {r : Except PyError (List Str)}
    (h₁ : RunsTo m a (.ok b)) (h₂ : RunsTo n b r) : RunsTo (m + n) a r := by
  obtain ⟨k, hk, hab⟩ := h₁
  exact (hab.runsTo h₂).mono (by omega)

theorem leadsTo_of_block {pre R : List Str} {o : Str} {B : Block} (rest : List Str)
    (hpre : Settled pre) (ho : braceKind o = some .opn) (hR : NoDefs R) (hrest : rest ≠ [])
    {h : Hoist} (hh : hoistOf B.opening B.closing (openDecl o) = .ok (some h)) :
    LeadsTo 1 (pre ++ o :: (R ++ (B.lines ++ rest)))
      (pre ++ (h.defLines B ++ o :: (R ++ (h.genLines ++ rest)))) := by
  intro infile hlines
  obtain ⟨infile', hmod, hnew⟩ := searchAndMod_of_block hlines hpre ho hR hrest hh
  exact ⟨infile', by rw [rewrites, hmod]; rfl, hnew⟩

theorem raisesAt_of_block {pre R : List Str} {o : Str} {B : Block} (rest : List Str)
    (hpre : Settled pre) (ho : braceKind o = some .opn) (hR : NoDefs R) {e : PyError}
    (hh : hoistOf B.opening B.closing (openDecl o) = .error e) :
    RaisesAt (pre ++ o :: (R ++ (B.lines ++ rest))) e :=
  fun _ hlines => (searchAndMod_of_error hlines hpre ho hR hh).2

/-! ## The recursion over the blocks -/

/-- What is left in the place of a hoisted block has no definition in it. -/
theorem Hoist.Ok.noDefs_genLines {h : Hoist} (hok : h.Ok) : NoDefs h.genLines :=
  noDefs_of_plain fun _ hm => hok.braceKind_genLines hm

/-- A change of indentation that `indent_one` undoes. -/
structure Reindents (f : Str → Str) : Prop where
  tabs : ∀ l, TabsBefore (f l) l
  indentOne : ∀ l, StructEnum.indentOne (f l) = StructEnum.indentOne l

theorem reindents_id : Reindents id := ⟨fun _ => ⟨[], rfl, by simp⟩, fun _ => rfl⟩

theorem reindents_indentOne : Reindents indentOne :=
  ⟨tabsBefore_indentOne, indentOne_indentOne⟩

theorem Reindents.braceKind {f : Str → Str} (hf : Reindents f) (l : Str) :
    StructEnum.braceKind (f l) = StructEnum.braceKind l :=
  braceKind_congr (hf.tabs l).braces_eq

theorem Reindents.isDef {f : Str → Str} (hf : Reindents f) (l : Str) :
    StructEnum.isDef (f l) = StructEnum.isDef l := by
  rw [isDef_eq_isSome_openType, isDef_eq_isSome_openType, openType_congr (hf.tabs l).split_eq]

/-- Indentation does not matter to what is read from a block. -/
theorem Reindents.hoistOf {f : Str → Str} (hf : Reindents f) {o c : Str} (hc : '}' ∈ c)
    (parent : Option Str) :
    StructEnum.hoistOf (f o) (f c) parent = StructEnum.hoistOf o c parent := by
  have hpacked : hasText (f c) "STRUCT_PACKED".toList = hasText c "STRUCT_PACKED".toList :=
    (hf.tabs c).hasText_eq (by decide)
  have hname : closeName0 (f c) = closeName0 c := by
    rw [closeName0, closeName0, closeTokens_eq hc, closeTokens_eq
      (((hf.tabs c).mem_iff (by decide)).2 hc), hpacked, (hf.tabs c).dropWhile_eq (by decide)]
  simp only [StructEnum.hoistOf, openType_congr (hf.tabs o).split_eq,
    openDecl_congr (hf.tabs o).split_eq, hpacked, hname]

theorem Reindents.openLine {f : Str → Str} (hf : Reindents f) (h : Hoist) {o : Str}
    (ho : '{' ∈ o) : h.openLine (f o) = h.openLine o := by
  rw [Hoist.openLine, Hoist.openLine, openBody_eq ho,
    openBody_eq (((hf.tabs o).mem_iff (by decide)).2 ho), (hf.tabs o).dropWhile_eq (by decide)]

/-- A block that is read as none to hoist is no definition, through any indentation. -/
theorem Reindents.isDef_of_hoistOf {f : Str → Str} (hf : Reindents f) {o c : Str}
    {parent : Option Str} (h : StructEnum.hoistOf o c parent = .ok none) :
    StructEnum.isDef (f o) = false := by
  rw [hf.isDef, ← openType_eq_none_iff]
  exact hoistOf_eq_none_iff.1 h

/-- The definition that is hoisted is the same through any indentation. -/
theorem Reindents.defLines_many {f : Str → Str} (hf : Reindents f) (h : Hoist) {o c : Str}
    (ho : StructEnum.braceKind (f o) = some .opn) (b : Forest StructEnum.braceKind)
    (hc : StructEnum.braceKind (f c) = some .cls) (hopen : '{' ∈ o) :
    h.defLines (.many (f o) ho (b.map f hf.braceKind) (f c) hc) =
      h.openLine o :: (b.lines.map StructEnum.indentOne ++ [h.closeLine]) := by
  rw [Hoist.defLines, hf.openLine _ hopen, Forest.lines_map, List.map_map]
  congr 3
  funext l
  exact hf.indentOne l

/-- The tag of a hoisted block is read back from its opening line. -/
theorem Hoist.Ok.openDecl_openLine {h : Hoist} (hok : h.Ok) {o : Str}
    (ho : braceKind o = some .opn) : openDecl (h.openLine o) = some h.tag := by
  obtain ⟨⟨x, hbody⟩, -⟩ := braces_openBody (Or.inl (braceKind_opn_iff.1 ho))
  have htag := (hok.open_openLine hbody []).2
  rwa [List.append_nil] at htag

/-- **The members of a top-level block**, read through the indentation `f`, with the tag
`parent` of the block: the lines of the definitions that are hoisted out of it, and the
lines that stay. -/
def hoistMembers (f : Str → Str) (parent : Option Str) :
    Forest braceKind → Except PyError (List Str × List Str)
  | .nil => .ok ([], [])
  | .line l _ r => (hoistMembers f parent r).map fun (defs, stay) => (defs, f l :: stay)
  | .one l _ r => (hoistOf l l parent).bind fun
      | none => (hoistMembers f parent r).map fun (defs, stay) => (defs, f l :: stay)
      | some h => (hoistMembers f parent r).map fun (defs, stay) =>
          (h.oneLine l :: defs, h.genLines ++ stay)
  | .block o _ b c _ r => (hoistOf o c parent).bind fun
      | none => (hoistMembers f parent r).map fun (defs, stay) =>
          (defs, f o :: (b.lines.map f ++ f c :: stay))
      | some h => (hoistMembers indentOne (some h.tag) b).bind fun (defs₁, body) =>
          (hoistMembers f parent r).map fun (defs₂, stay) =>
            (defs₁ ++ h.openLine o :: (body ++ h.closeLine :: defs₂), h.genLines ++ stay)

/-- **The whole file**: every top-level block after the definitions hoisted out of it. -/
def hoistFile : Forest braceKind → Except PyError (List Str)
  | .nil => .ok []
  | .line l _ r => (hoistFile r).map fun ls => l :: ls
  | .one l _ r => (hoistFile r).map fun ls => l :: ls
  | .block o _ b c _ r => (hoistMembers id (openDecl o) b).bind fun (defs, stay) =>
      (hoistFile r).map fun ls => defs ++ o :: (stay ++ c :: ls)

theorem bind_eq_ok {ε α β : Type*} {x : Except ε α} {f : α → Except ε β} {b : β} :
    x.bind f = .ok b ↔ ∃ a, x = .ok a ∧ f a = .ok b := by
  cases x <;> simp [Except.bind]

theorem map_eq_ok {ε α β : Type*} {x : Except ε α} {f : α → β} {b : β} :
    x.map f = .ok b ↔ ∃ a, x = .ok a ∧ f a = b := by
  cases x <;> simp [Except.map]

theorem map_map {ε α β γ : Type*} (x : Except ε α) (f : α → β) (g : β → γ) :
    (x.map f).map g = x.map (g ∘ f) := by
  cases x <;> rfl

/-- What the members that start with a line without braces give. -/
theorem hoistMembers_line_eq_ok {f : Str → Str} {parent : Option Str} {l : Str}
    {hl : braceKind l = some .plain} {r : Forest braceKind} {defs stay : List Str}
    (h : hoistMembers f parent (.line l hl r) = .ok (defs, stay)) :
    ∃ s, hoistMembers f parent r = .ok (defs, s) ∧ stay = f l :: s := by
  rw [hoistMembers, map_eq_ok] at h
  obtain ⟨⟨d, s⟩, hr, heq⟩ := h
  obtain ⟨rfl, rfl⟩ := Prod.mk.inj heq
  exact ⟨s, hr, rfl⟩

/-- What the members that start with a block in one line give: it stays, or it is hoisted. -/
theorem hoistMembers_one_eq_ok {f : Str → Str} {parent : Option Str} {l : Str}
    {hl : braceKind l = some .both} {r : Forest braceKind} {defs stay : List Str}
    (h : hoistMembers f parent (.one l hl r) = .ok (defs, stay)) :
    ∃ d s, hoistMembers f parent r = .ok (d, s) ∧
      (hoistOf l l parent = .ok none ∧ defs = d ∧ stay = f l :: s ∨
        ∃ hoist, hoistOf l l parent = .ok (some hoist) ∧ defs = hoist.oneLine l :: d ∧
          stay = hoist.genLines ++ s) := by
  rw [hoistMembers, bind_eq_ok] at h
  obtain ⟨hoist, hh, h⟩ := h
  cases hoist with
  | none =>
    rw [map_eq_ok] at h
    obtain ⟨⟨d, s⟩, hr, heq⟩ := h
    obtain ⟨rfl, rfl⟩ := Prod.mk.inj heq
    exact ⟨d, s, hr, Or.inl ⟨hh, rfl, rfl⟩⟩
  | some hoist =>
    rw [map_eq_ok] at h
    obtain ⟨⟨d, s⟩, hr, heq⟩ := h
    obtain ⟨rfl, rfl⟩ := Prod.mk.inj heq
    exact ⟨d, s, hr, Or.inr ⟨hoist, hh, rfl, rfl⟩⟩

/-- What the members that start with a block of several lines give: it stays, or what is in it
is hoisted and then the block itself. -/
theorem hoistMembers_block_eq_ok {f : Str → Str} {parent : Option Str} {o c : Str}
    {ho : braceKind o = some .opn} {hc : braceKind c = some .cls} {b r : Forest braceKind}
    {defs stay : List Str} (h : hoistMembers f parent (.block o ho b c hc r) = .ok (defs, stay)) :
    ∃ d s, hoistMembers f parent r = .ok (d, s) ∧
      (hoistOf o c parent = .ok none ∧ defs = d ∧
          stay = f o :: (b.lines.map f ++ f c :: s) ∨
        ∃ hoist d₁ body, hoistOf o c parent = .ok (some hoist) ∧
          hoistMembers indentOne (some hoist.tag) b = .ok (d₁, body) ∧
          defs = d₁ ++ hoist.openLine o :: (body ++ hoist.closeLine :: d) ∧
          stay = hoist.genLines ++ s) := by
  rw [hoistMembers, bind_eq_ok] at h
  obtain ⟨hoist, hh, h⟩ := h
  cases hoist with
  | none =>
    rw [map_eq_ok] at h
    obtain ⟨⟨d, s⟩, hr, heq⟩ := h
    obtain ⟨rfl, rfl⟩ := Prod.mk.inj heq
    exact ⟨d, s, hr, Or.inl ⟨hh, rfl, rfl⟩⟩
  | some hoist =>
    rw [bind_eq_ok] at h
    obtain ⟨⟨d₁, body⟩, hb, h⟩ := h
    rw [map_eq_ok] at h
    obtain ⟨⟨d, s⟩, hr, heq⟩ := h
    obtain ⟨rfl, rfl⟩ := Prod.mk.inj heq
    exact ⟨d, s, hr, Or.inr ⟨hoist, d₁, body, hh, hb, rfl, rfl⟩⟩

/-- What is hoisted out of a block needs no further rewrite, and neither does what
stays. -/
theorem settled_of_hoistMembers {f : Str → Str} (hf : Reindents f) (g : Forest braceKind)
    {parent : Option Str} (hp : ParentOk parent) {defs stay : List Str}
    (h : hoistMembers f parent g = .ok (defs, stay)) : Settled defs ∧ NoDefs stay := by
  induction g generalizing f parent defs stay with
  | nil =>
    simp only [hoistMembers, Except.ok.injEq, Prod.mk.injEq] at h
    rw [← h.1, ← h.2]
    exact ⟨settled_nil, noDefs_nil⟩
  | line l hl r ih =>
    obtain ⟨s, hr, rfl⟩ := hoistMembers_line_eq_ok h
    obtain ⟨hd, hs⟩ := ih hf hp hr
    have hplain : NoDefs [f l] := noDefs_of_plain fun m hm => by
      rw [List.mem_singleton.1 hm, hf.braceKind, hl]
    exact ⟨hd, hplain.append hs⟩
  | one l hl r ih =>
    obtain ⟨d, s, hr, ⟨hh, rfl, rfl⟩ | ⟨hoist, hh, rfl, rfl⟩⟩ := hoistMembers_one_eq_ok h
    · obtain ⟨hd, hs⟩ := ih hf hp hr
      have hone := noDefs_of_not_isDef (B := .one (f l) (by rw [hf.braceKind, hl]))
        (hf.isDef_of_hoistOf hh)
      exact ⟨hd, hone.append hs⟩
    · obtain ⟨hd, hs⟩ := ih hf hp hr
      have hok := hoistOf_ok hh (opensBlock_of_both hl) (closesBlock_of_both hl) hp
      exact ⟨(settled_of_both (hok.braceKind_oneLine hl)).append hd,
        hok.noDefs_genLines.append hs⟩
  | block o ho b c hc r ihb ih =>
    obtain ⟨d, s, hr, ⟨hh, rfl, rfl⟩ | ⟨hoist, d₁, body, hh, hb, rfl, rfl⟩⟩ :=
      hoistMembers_block_eq_ok h
    · obtain ⟨hd, hs⟩ := ih hf hp hr
      have hblock := noDefs_of_not_isDef
        (B := .many (f o) (by rw [hf.braceKind, ho]) (b.map f hf.braceKind) (f c)
          (by rw [hf.braceKind, hc])) (hf.isDef_of_hoistOf hh)
      rw [Block.lines, Forest.lines_map] at hblock
      refine ⟨hd, ?_⟩
      simpa using hblock.append hs
    · -- the members of the block are hoisted first, then the block itself
      have hok := hoistOf_ok hh (opensBlock_of_opn ho) (closesBlock_of_cls hc) hp
      obtain ⟨hd₁, hbody⟩ := ihb reindents_indentOne hok.parentOk hb
      obtain ⟨hd₂, hs⟩ := ih hf hp hr
      have hwrap := settled_of_noDefs (hok.braceKind_openLine ho) hbody hoist.braceKind_closeLine
      refine ⟨?_, hok.noDefs_genLines.append hs⟩
      simpa using hd₁.append (hwrap.append hd₂)

/-- **The members of a top-level block, hoisted by the run.**  In front of the block
(`pre`) and before the members at hand (`R`) nothing is left to hoist. -/
theorem runsTo_hoistMembers {f : Str → Str} (hf : Reindents f) (g : Forest braceKind)
    {pre R : List Str} {o : Str} (c : Str) (post : List Str) (hpre : Settled pre)
    (ho : braceKind o = some .opn) (hR : NoDefs R) :
    RunsTo (excess braceKind 1 g.lines) (pre ++ o :: (R ++ (g.lines.map f ++ c :: post)))
      ((hoistMembers f (openDecl o) g).map fun (defs, stay) =>
        pre ++ (defs ++ o :: (R ++ (stay ++ c :: post)))) := by
  have hparent := parentOk_openDecl (opensBlock_of_opn ho)
  induction g generalizing f pre R post o c with
  | nil => exact ⟨0, le_rfl, leadsTo_zero _⟩
  | line l hl r ih =>
    have hplain : NoDefs [f l] := noDefs_of_plain fun m hm => by
      rw [List.mem_singleton.1 hm, hf.braceKind, hl]
    have hrec := ih hf c post hpre ho (hR.append hplain) hparent
    rw [Forest.excess_line, hoistMembers, map_map]
    simpa [Forest.lines, Function.comp_def] using hrec
  | one l hl r ih =>
    rw [Forest.excess_one, hoistMembers]
    have hl' : braceKind (f l) = some .both := by rw [hf.braceKind, hl]
    have hclose : '}' ∈ l := (braces_tail_of_closesBlock (closesBlock_of_both hl)).2
    have hread := hf.hoistOf (o := l) hclose (openDecl o)
    cases hh : hoistOf l l (openDecl o) with
    | error e =>
      have hraise := raisesAt_of_block (r.lines.map f ++ c :: post)
        (B := .one (f l) hl') hpre ho hR (hread.trans hh)
      exact ⟨0, by omega, _, leadsTo_zero _, by simpa [Forest.lines, Block.lines] using hraise⟩
    | ok hoist =>
      cases hoist with
      | none =>
        have hone := noDefs_of_not_isDef (B := .one (f l) hl') (hf.isDef_of_hoistOf hh)
        have hrec := ih hf c post hpre ho (hR.append hone) hparent
        refine RunsTo.mono ?_ (Nat.le_add_left _ 1)
        simpa [Forest.lines, Block.lines, Except.bind, map_map, Function.comp_def] using hrec
      | some hoist =>
        have hok := hoistOf_ok hh (opensBlock_of_both hl) (closesBlock_of_both hl) hparent
        have hstep := leadsTo_of_block (r.lines.map f ++ c :: post)
          (B := .one (f l) hl') hpre ho hR (by simp) (hread.trans hh)
        have hrec := ih hf c post
          (hpre.append (settled_of_both (hok.braceKind_oneLine hl))) ho
          (hR.append hok.noDefs_genLines) hparent
        have hline : hoist.oneLine (f l) = hoist.oneLine l := by
          rw [Hoist.oneLine, Hoist.oneLine, hf.openLine _ (opensBlock_of_both hl).mem]
        have hrun := hstep.runsTo (by simpa [Hoist.defLines, hline] using hrec)
        simpa [Forest.lines, Block.lines, Except.bind, map_map, Function.comp_def] using hrun
  | block o' ho' b c' hc' r ihb ih =>
    rw [Forest.excess_block, hoistMembers]
    have ho'' : braceKind (f o') = some .opn := by rw [hf.braceKind, ho']
    have hc'' : braceKind (f c') = some .cls := by rw [hf.braceKind, hc']
    have hclose : '}' ∈ c' := (braces_tail_of_closesBlock (closesBlock_of_cls hc')).2
    have hread := hf.hoistOf (o := o') hclose (openDecl o)
    cases hh : hoistOf o' c' (openDecl o) with
    | error e =>
      have hraise := raisesAt_of_block (r.lines.map f ++ c :: post)
        (B := .many (f o') ho'' (b.map f hf.braceKind) (f c') hc'') hpre ho hR (hread.trans hh)
      exact ⟨0, by omega, _, leadsTo_zero _, by simpa [Forest.lines, Block.lines] using hraise⟩
    | ok hoist =>
      cases hoist with
      | none =>
        have hblock := noDefs_of_not_isDef
          (B := .many (f o') ho'' (b.map f hf.braceKind) (f c') hc'') (hf.isDef_of_hoistOf hh)
        have hrec := ih hf c post hpre ho (hR.append hblock) hparent
        refine RunsTo.mono (m := excess braceKind 1 r.lines) ?_ (by omega)
        simpa [Forest.lines, Block.lines, Except.bind, map_map, Function.comp_def] using hrec
      | some hoist =>
        have hok := hoistOf_ok hh (opensBlock_of_opn ho') (closesBlock_of_cls hc') hparent
        have hstep := leadsTo_of_block (r.lines.map f ++ c :: post)
          (B := .many (f o') ho'' (b.map f hf.braceKind) (f c') hc'') hpre ho hR (by simp)
          (hread.trans hh)
        have htag := hok.openDecl_openLine ho'
        have hopen := hok.braceKind_openLine ho'
        -- the scanner comes to the members of the hoisted block first
        have hinner := ihb reindents_indentOne hoist.closeLine
          (o :: (R ++ (hoist.genLines ++ (r.lines.map f ++ c :: post)))) hpre hopen noDefs_nil
          (htag ▸ hok.parentOk)
        rw [htag] at hinner
        rw [hf.defLines_many hoist ho'' b hc'' (opensBlock_of_opn ho').mem] at hstep
        have hrun := hstep.runsTo (by simpa using hinner)
        have hle := Forest.excess_le_succ b 1
        cases hb : hoistMembers indentOne (some hoist.tag) b with
        | error e =>
          rw [hb] at hrun
          refine RunsTo.mono ?_ (show 1 + excess braceKind 1 b.lines ≤ _ by omega)
          simpa [Forest.lines, Block.lines, Except.bind, Except.map, hb] using hrun
        | ok inner =>
          obtain ⟨defs₁, body⟩ := inner
          rw [hb] at hrun
          obtain ⟨hdefs₁, hstay⟩ :=
            settled_of_hoistMembers reindents_indentOne b hok.parentOk hb
          -- then to the rest of the parent's members
          have hrec := ih hf c post
            (hpre.append (hdefs₁.append
              (settled_of_noDefs hopen hstay hoist.braceKind_closeLine))) ho
            (hR.append hok.noDefs_genLines) hparent
          have hall := RunsTo.trans (by simpa [Except.map] using hrun) (by simpa using hrec)
          refine RunsTo.mono ?_ (show (1 + excess braceKind 1 b.lines)
            + excess braceKind 1 r.lines ≤ _ by omega)
          simpa [Forest.lines, Block.lines, Except.bind, map_map, Function.comp_def, hb] using hall

/-- A finished file needs no further rewrite. -/
theorem settled_of_hoistFile (g : Forest braceKind) {ls : List Str}
    (h : hoistFile g = .ok ls) : Settled ls := by
  induction g generalizing ls with
  | nil =>
    rw [← Except.ok.inj h]
    exact settled_nil
  | line l hl r ih =>
    rw [hoistFile, map_eq_ok] at h
    obtain ⟨ls', hr, rfl⟩ := h
    exact (settled_of_plain hl).append (ih hr)
  | one l hl r ih =>
    rw [hoistFile, map_eq_ok] at h
    obtain ⟨ls', hr, rfl⟩ := h
    exact (settled_of_both hl).append (ih hr)
  | block o ho b c hc r ihb ih =>
    rw [hoistFile, bind_eq_ok] at h
    obtain ⟨⟨defs, stay⟩, hb, h⟩ := h
    rw [map_eq_ok] at h
    obtain ⟨ls', hr, rfl⟩ := h
    obtain ⟨hdefs, hstay⟩ := settled_of_hoistMembers reindents_id b
      (parentOk_openDecl (opensBlock_of_opn ho)) hb
    simpa using hdefs.append ((settled_of_noDefs ho hstay hc).append (ih hr))

/-- **The run on a brace-disciplined file** leads to the lines of `hoistFile`, or raises
where `hoistFile` fails. -/
theorem runsTo_hoistFile (g : Forest braceKind) {pre : List Str} (hpre : Settled pre) :
    RunsTo (excess braceKind 0 g.lines) (pre ++ g.lines)
      ((hoistFile g).map fun ls => pre ++ ls) := by
  induction g generalizing pre with
  | nil => exact ⟨0, le_rfl, leadsTo_zero _⟩
  | line l hl r ih =>
    have hrec := ih (hpre.append (settled_of_plain hl))
    rw [Forest.excess_line, hoistFile, map_map]
    simpa [Forest.lines, Function.comp_def] using hrec
  | one l hl r ih =>
    have hrec := ih (hpre.append (settled_of_both hl))
    rw [Forest.excess_one, Nat.zero_add, hoistFile, map_map]
    simpa [Forest.lines, Function.comp_def] using hrec
  | block o ho b c hc r ihb ih =>
    have hinner := runsTo_hoistMembers reindents_id b c r.lines hpre ho noDefs_nil
    rw [Forest.excess_block, Nat.zero_add, hoistFile]
    cases hb : hoistMembers id (openDecl o) b with
    | error e =>
      rw [hb] at hinner
      refine RunsTo.mono ?_ (Nat.le_add_right _ _)
      simpa [Forest.lines, Except.map, Except.bind] using hinner
    | ok inner =>
      -- the run works off this block and goes on with the blocks after it
      obtain ⟨defs, stay⟩ := inner
      rw [hb] at hinner
      obtain ⟨hdefs, hstay⟩ := settled_of_hoistMembers reindents_id b
        (parentOk_openDecl (opensBlock_of_opn ho)) hb
      have hrec := ih (hpre.append (hdefs.append (settled_of_noDefs ho hstay hc)))
      have hall := RunsTo.trans (by simpa [Except.map] using hinner) (by simpa using hrec)
      simpa [Forest.lines, Except.bind, map_map, Function.comp_def] using hall

/-! ## The main loop -/

theorem mainLoop_of_rewrites {k : ℕ} {infile mid : Str} (h : rewrites k infile = some mid)
    (calls modCount : ℕ) :
    mainLoop (k + calls) infile modCount = mainLoop calls mid (modCount + k) := by
  induction k generalizing infile modCount with
  | zero => rw [Nat.zero_add, ← Option.some.inj h, Nat.add_zero]
  | succ k ih =>
    rw [rewrites] at h
    rw [Nat.succ_add, mainLoop]
    cases hs : searchAndMod infile with
    | error e => simp [hs] at h
    | ok r =>
      cases r with
      | none => simp [hs] at h
      | some infile' =>
        simp only [hs] at h ⊢
        rw [ih h, Nat.add_assoc, Nat.add_comm 1 k]

/-- A run that has ended does not go on. -/
theorem mainLoop_add {calls : ℕ} {infile : Str} {modCount : ℕ} {out : Outcome}
    (h : mainLoop calls infile modCount = some out) (n : ℕ) :
    mainLoop (calls + n) infile modCount = some out := by
  induction calls generalizing infile modCount with
  | zero => simp [mainLoop] at h
  | succ calls ih =>
    rw [Nat.succ_add, mainLoop]
    rw [mainLoop] at h
    cases hs : searchAndMod infile with
    | error e => rwa [hs] at h
    | ok r =>
      rw [hs] at h
      cases r with
      | none => exact h
      | some infile' => exact ih h

/-- A run ends in one way. -/
theorem Ends.unique {infile : Str} {out out' : Outcome} (h : Ends infile out)
    (h' : Ends infile out') : out = out' := by
  obtain ⟨m, hm⟩ := h
  obtain ⟨n, hn⟩ := h'
  have hm' := mainLoop_add hm n
  rw [Nat.add_comm, mainLoop_add hn m] at hm'
  exact (Option.some.inj hm').symm

/-- **How the run on a brace-disciplined file ends**: with the lines of `hoistFile`, or
with its exception, after at most as many rewrites as the excess depth of the file. -/
theorem mainLoop_eq (g : Forest braceKind) {infile : Str} (h : splitLines infile = g.lines) :
    ∃ out : Outcome, (∀ calls, excess braceKind 0 g.lines < calls →
        mainLoop calls infile 0 = some out) ∧
      out.modCount ≤ excess braceKind 0 g.lines ∧
      match hoistFile g with
      | .ok ls => out.error = none ∧ splitLines out.file = ls
      | .error e => out.error = some e := by
  have hrun := runsTo_hoistFile g settled_nil
  simp only [List.nil_append] at hrun
  cases hg : hoistFile g with
  | ok ls =>
    rw [hg] at hrun
    obtain ⟨k, hk, hlead⟩ := hrun
    obtain ⟨file, hfile, hlines⟩ := hlead infile h
    -- after `k` rewrites a last call finds nothing
    have hstop : searchAndMod file = .ok none :=
      (searchAndMod_of_settled (hlines ▸ settled_of_hoistFile g hg)).2
    refine ⟨⟨file, k, none⟩, fun calls hcalls => ?_, hk, rfl, hlines⟩
    obtain ⟨n, rfl⟩ : ∃ n, calls = k + (n + 1) := ⟨calls - k - 1, by omega⟩
    rw [mainLoop_of_rewrites hfile, mainLoop, hstop, Nat.zero_add]
  | error e =>
    rw [hg] at hrun
    obtain ⟨k, hk, ls', hlead, hraise⟩ := hrun
    obtain ⟨file, hfile, hlines⟩ := hlead infile h
    refine ⟨⟨file, k, some e⟩, fun calls hcalls => ?_, hk, rfl⟩
    obtain ⟨n, rfl⟩ : ∃ n, calls = k + (n + 1) := ⟨calls - k - 1, by omega⟩
    rw [mainLoop_of_rewrites hfile, mainLoop, hraise file hlines, Nat.zero_add]

/-- **The main loop ends on every brace-disciplined file**, after at most as many rewrites
as the sum over its opening lines of the depth less one.  When it ends without an
exception, the file is brace-disciplined again and no definition is left directly inside
a top-level block. -/
theorem mainLoop_ends_of_disciplined {infile : Str} (h : Disciplined infile) :
    ∃ out : Outcome,
      (∀ calls, excess braceKind 0 (splitLines infile) < calls →
        mainLoop calls infile 0 = some out) ∧
      out.modCount ≤ excess braceKind 0 (splitLines infile) ∧
      (out.error = none → Disciplined out.file ∧
        ∀ p ∈ openings braceKind 0 (splitLines out.file), p.2 = 2 → isDef p.1 = false) := by
  obtain ⟨g, hg⟩ := exists_lines_eq_of_depthFrom h
  obtain ⟨out, hloop, hcount, hend⟩ := mainLoop_eq g hg.symm
  rw [← hg]
  refine ⟨out, hloop, hcount, fun hnone => ?_⟩
  cases hf : hoistFile g with
  | ok ls =>
    rw [hf] at hend
    rw [Disciplined, hend.2]
    exact settled_of_hoistFile g hf
  | error e =>
    rw [hf] at hend
    simp [hend] at hnone

/-- A header with two definitions inside each other. -/
def nestedHeader : Str :=
  "struct a \x7b\n\tstruct \x7b\n\t\tunion u \x7b\n\t\t\tint q;\n\t\t\x7d w[3];\n\t\x7d b;\n\x7d;\n".toList

theorem mainLoop_ends_nestedHeader :
    Disciplined nestedHeader ∧ ∃ out : Outcome,
      (∀ calls, excess braceKind 0 (splitLines nestedHeader) < calls →
        mainLoop calls nestedHeader 0 = some out) ∧
      out.modCount ≤ excess braceKind 0 (splitLines nestedHeader) ∧
      (out.error = none → Disciplined out.file ∧
        ∀ p ∈ openings braceKind 0 (splitLines out.file), p.2 = 2 → isDef p.1 = false) :=
  have h : Disciplined nestedHeader := by decide
  ⟨h, mainLoop_ends_of_disciplined h⟩

end StructEnum
