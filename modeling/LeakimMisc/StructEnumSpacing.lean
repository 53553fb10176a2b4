/-
# White space and the run

The script looks at the tokens of a line between white space, so two files whose lines
have the same tokens, line by line, are treated alike: the passes over them hoist the
blocks on the same lines under the same tags, and the new files again have the same
tokens line by line (`sameStep_of_sameTokens`), through whole runs
(`run_of_sameTokens`).

It does not hold of spacing in general: without the space in front of its `{` a tag is
not read, and the block gets a new one (`glued_loses_tag`).
-/
import LeakimMisc.StructEnumPass

open PyStr Nest

namespace StructEnum

/-! ## Lines with the same tokens -/

/-- The same tokens, line by line. -/
def SameTokens (ls ls' : List Str) : Prop := ls.map split = ls'.map split

variable {a b : Str} {ls ls' : List Str}

theorem SameTokens.append {ks ks' : List Str} (h : SameTokens ls ls') (hk : SameTokens ks ks') :
    SameTokens (ls ++ ks) (ls' ++ ks') := by
  rw [SameTokens, List.map_append, List.map_append, h, hk]

theorem SameTokens.cons (hab : split a = split b) (h : SameTokens ls ls') :
    SameTokens (a :: ls) (b :: ls') := by
  rw [SameTokens, List.map_cons, List.map_cons, hab, h]

theorem SameTokens.refl (ls : List Str) : SameTokens ls ls := rfl

theorem braces_congr (h : split a = split b) : braces a = braces b := by
  rw [← braces_flatten_split, h, braces_flatten_split]

/-- The kind of a line, read from its tokens. -/
def tokenKind (ts : List Str) : Option Kind := braceKind ts.flatten

theorem tokenKind_split (l : Str) : tokenKind (split l) = braceKind l :=
  braceKind_congr (braces_flatten_split l)

theorem isDef_congr (h : split a = split b) : isDef a = isDef b := by
  rw [isDef_eq_isSome_openType, isDef_eq_isSome_openType, openType_congr h]

theorem depthFrom_congr (h : SameTokens ls ls') (d : ℕ) :
    depthFrom braceKind d ls = depthFrom braceKind d ls' := by
  rw [← Forest.depthFrom_map split tokenKind_split, h,
    Forest.depthFrom_map split tokenKind_split]

/-- The blocks are opened on lines with the same tokens, at the same depths. -/
theorem exists_opening_congr (h : SameTokens ls ls') {d : ℕ} {p : Str × ℕ}
    (hp : p ∈ openings braceKind d ls') :
    ∃ q ∈ openings braceKind d ls, split q.1 = split p.1 ∧ q.2 = p.2 := by
  have hmap : (openings braceKind d ls).map (Prod.map split id)
      = (openings braceKind d ls').map (Prod.map split id) := by
    rw [← Forest.openings_map split tokenKind_split, h,
      Forest.openings_map split tokenKind_split]
  obtain ⟨q, hq, heq⟩ := List.mem_map.1 (hmap ▸ List.mem_map_of_mem hp)
  obtain ⟨hsplit, hdepth⟩ := Prod.mk.inj heq
  exact ⟨q, hq, hsplit, hdepth⟩

theorem NoDefs.congr (hR : NoDefs ls) (h : SameTokens ls ls') : NoDefs ls' := by
  refine ⟨(depthFrom_congr h 0).symm.trans hR.1, fun p hp hp1 => ?_⟩
  obtain ⟨q, hq, hsplit, hdepth⟩ := exists_opening_congr h hp
  rw [← isDef_congr hsplit]
  exact hR.2 q hq (hdepth.trans hp1)

theorem Settled.congr (hR : Settled ls) (h : SameTokens ls ls') : Settled ls' := by
  refine ⟨(depthFrom_congr h 0).symm.trans hR.1, fun p hp hp2 => ?_⟩
  obtain ⟨q, hq, hsplit, hdepth⟩ := exists_opening_congr h hp
  rw [← isDef_congr hsplit]
  exact hR.2 q hq (hdepth.trans hp2)

/-! ## Blocks with the same tokens -/

theorem closeName0_congr (ha : '}' ∈ a) (h : split a = split b) : closeName0 a = closeName0 b := by
  have hb : '}' ∈ b := by rwa [mem_iff_mem_split rfl, ← h, ← mem_iff_mem_split rfl]
  rw [closeName0, closeName0, closeTokens_eq ha, closeTokens_eq hb,
    hasText_congr isToken_packed h, split_tail_dropWhile_congr rfl ha h]

/-- What a pass reads from a block depends on tokens alone. -/
theorem hoistOf_congr {o o' c c' : Str} (ho : split o = split o') (hc : split c = split c')
    (hmem : '}' ∈ c) (parent : Option Str) : hoistOf o c parent = hoistOf o' c' parent := by
  simp only [hoistOf, openType_congr ho, openDecl_congr ho, hasText_congr isToken_packed hc,
    closeName0_congr hmem hc]

theorem Hoist.endsGap_head (h : Hoist) : EndsGap h.head := by
  intro c hc
  have hlast : h.head.getLast? = some ' ' := by
    unfold head
    rw [List.getLast?_append_of_ne_nil _ (by simp)]
    rfl
  rw [hlast] at hc
  rw [← Option.some.inj hc]
  rfl

/-- The opening line that is written, for a longer block. -/
theorem Hoist.split_openLine_congr (h : Hoist) (ha : braceKind a = some .opn)
    (hab : split a = split b) : split (h.openLine a) = split (h.openLine b) := by
  have hbody : ∀ l, braceKind l = some .opn → openBody l = l.dropWhile (· != '{') := by
    intro l hl
    have hno : '}' ∉ l := fun hm => by
      have hbr := (mem_braces_iff (c := '}') rfl).2 hm
      simp [braceKind_opn_iff.1 hl] at hbr
    rw [openBody_eq (opensBlock_of_opn hl).mem, takeWhile_ne_of_not_mem]
    exact fun hm => hno ((List.dropWhile_suffix _).subset hm)
  have hb : braceKind b = some .opn := (braceKind_congr (braces_congr hab)).symm.trans ha
  rw [openLine, openLine, split_append_of_endsGap h.endsGap_head,
    split_append_of_endsGap h.endsGap_head, hbody a ha, hbody b hb,
    split_dropWhile_congr rfl (opensBlock_of_opn ha).mem hab]

/-- The line that is written for a block on one line. -/
theorem Hoist.split_oneLine_congr (h : Hoist) (ha : braceKind a = some .both)
    (hab : split a = split b) : split (h.oneLine a) = split (h.oneLine b) := by
  have hb : braceKind b = some .both := (braceKind_congr (braces_congr hab)).symm.trans ha
  -- the `}` stands behind the `{`
  have hmem : '}' ∈ a.dropWhile (· != '{') := by
    obtain ⟨r, hr, hdrop⟩ := takeWhile_append_cons_of_mem (opensBlock_of_both ha).mem
    have hpre : braces (a.takeWhile (· != '{')) = [] :=
      braces_eq_nil_of_prefix (hr ▸ braceKind_both_iff.1 ha) (not_mem_takeWhile_ne a '{')
    have hcls : '}' ∈ braces a := by simp [braceKind_both_iff.1 ha]
    rw [← List.takeWhile_append_dropWhile (p := (· != '{')) (l := a), braces_append, hpre,
      List.nil_append] at hcls
    exact (mem_braces_iff rfl).1 hcls
  rw [oneLine, oneLine, openLine, openLine, List.append_assoc, List.append_assoc,
    split_append_of_endsGap h.endsGap_head, split_append_of_endsGap h.endsGap_head,
    openBody_eq (opensBlock_of_both ha).mem, openBody_eq (opensBlock_of_both hb).mem,
    split_takeWhile_append_congr rfl hmem
      (split_dropWhile_congr rfl (opensBlock_of_both ha).mem hab)]

theorem sameTokens_map_indentOne (h : SameTokens ls ls') :
    SameTokens (ls.map indentOne) (ls'.map indentOne) := by
  have hsplit : ∀ ks : List Str, (ks.map indentOne).map split = ks.map split := fun ks => by
    rw [List.map_map]
    exact List.map_congr_left fun l _ => (tabsBefore_indentOne l).split_eq
  rw [SameTokens, hsplit, hsplit, h]

/-- Lines with the tokens of a block are a block, and its definition is written with the
same tokens. -/
theorem exists_block_congr (B : Block) (h : SameTokens B.lines ls') :
    ∃ B' : Block, B'.lines = ls' ∧ split B.opening = split B'.opening ∧
      split B.closing = split B'.closing ∧
      ∀ hoist : Hoist, SameTokens (hoist.defLines B) (hoist.defLines B') := by
  cases B with
  | one l hl =>
    obtain ⟨l', rfl⟩ : ∃ l', ls' = [l'] := by
      have hlen := congrArg List.length h
      simp only [Block.lines, List.length_map, List.length_singleton] at hlen
      exact List.length_eq_one_iff.1 hlen.symm
    have hl' : split l = split l' := by simpa [SameTokens, Block.lines] using h
    have hkind : braceKind l' = some .both := (braceKind_congr (braces_congr hl')).symm.trans hl
    refine ⟨.one l' hkind, rfl, hl', hl', fun hoist => ?_⟩
    exact SameTokens.cons (hoist.split_oneLine_congr hl hl') (SameTokens.refl [])
  | many o ho body c hc =>
    rw [SameTokens, Block.lines, List.map_cons, List.map_append] at h
    obtain ⟨o', rest, rfl, ho', hrest⟩ := List.map_eq_cons_iff.1 h.symm
    obtain ⟨ks, tail, rfl, hks, htail⟩ := List.map_eq_append_iff.1 hrest
    obtain ⟨c', tail', rfl, hc', hnil⟩ := List.map_eq_cons_iff.1 htail
    obtain rfl : tail' = [] := by simpa using hnil
    have hbody : SameTokens body.lines ks := hks.symm
    -- lines with the same tokens have the same braces, hence the same shape
    obtain ⟨body', rfl⟩ := exists_lines_eq_of_depthFrom
      ((depthFrom_congr hbody 0).symm.trans (body.depthFrom_lines 0))
    have hko : braceKind o' = some .opn := (braceKind_congr (braces_congr ho')).trans ho
    have hkc : braceKind c' = some .cls := (braceKind_congr (braces_congr hc')).trans hc
    refine ⟨.many o' hko body' c' hkc, rfl, ho'.symm, hc'.symm, fun hoist => ?_⟩
    exact SameTokens.cons (hoist.split_openLine_congr ho ho'.symm)
      ((sameTokens_map_indentOne hbody).append (SameTokens.refl _))

/-! ## One pass over two files -/

/-- The number of lines in front of an offset. -/
def lineNumber (infile : Str) (start : ℕ) : ℕ := (splitLines (infile.take start)).length

theorem lineNumber_of_splitLines {infile : Str} {as bs : List Str}
    (h : splitLines infile = as ++ bs) (hbs : bs ≠ []) :
    lineNumber infile as.flatten.length = as.length := by
  have htake : infile.take as.flatten.length = as.flatten := by
    rw [← flatten_splitLines infile, h, List.flatten_append, List.take_left' rfl]
  rw [lineNumber, htake, splitLines_flatten ((splitLines_eq_append h).2 hbs)]

/-- **Two passes hoist the same block**: a block that starts on the same line, with the
same keyword and the same tag; or both hoist none, or both raise the exception. -/
def SamePass (infile infile' : Str) : Prop :=
  match search infile, search infile' with
  | .ok (some (_, n)), .ok (some (_, n')) =>
      lineNumber infile n.start = lineNumber infile' n'.start ∧ n.type0 = n'.type0 ∧
        n.decl = n'.decl
  | .ok none, .ok none => True
  | .error e, .error e' => e = e'
  | _, _ => False

/-- Two passes write files with the same tokens line by line, or both write none. -/
def SameStep (infile infile' : Str) : Prop :=
  match searchAndMod infile, searchAndMod infile' with
  | .ok (some file), .ok (some file') => SameTokens (splitLines file) (splitLines file')
  | .ok none, .ok none => True
  | .error e, .error e' => e = e'
  | _, _ => False

/-- A file with the same tokens falls into the same parts. -/
theorem exists_parts_congr {pre R rest : List Str} {p : Str} {B : Block}
    (h : SameTokens (pre ++ p :: (R ++ (B.lines ++ rest))) ls') :
    ∃ (pre' R' rest' : List Str) (p' : Str) (B' : Block),
      ls' = pre' ++ p' :: (R' ++ (B'.lines ++ rest')) ∧ SameTokens pre pre' ∧
      split p = split p' ∧ SameTokens R R' ∧ SameTokens rest rest' ∧
      split B.opening = split B'.opening ∧ split B.closing = split B'.closing ∧
      ∀ hoist : Hoist, SameTokens (hoist.defLines B) (hoist.defLines B') := by
  unfold SameTokens at h
  simp only [List.map_append, List.map_cons] at h
  obtain ⟨pre', ks, rfl, hpre, hks⟩ := List.map_eq_append_iff.1 h.symm
  obtain ⟨p', ks₁, rfl, hp, hks₁⟩ := List.map_eq_cons_iff.1 hks
  obtain ⟨R', ks₂, rfl, hR, hks₂⟩ := List.map_eq_append_iff.1 hks₁
  obtain ⟨bs, rest', rfl, hbs, hrest⟩ := List.map_eq_append_iff.1 hks₂
  have hB : SameTokens B.lines bs := hbs.symm
  obtain ⟨B', rfl, hblock⟩ := exists_block_congr B hB
  exact ⟨pre', R', rest', p', B', rfl, hpre.symm, hp.symm, hR.symm, hrest.symm, hblock⟩

/-- **Files with the same tokens line by line are treated alike** by a pass. -/
theorem sameStep_of_sameTokens {infile infile' : Str} (h : Disciplined infile)
    (hs : SameTokens (splitLines infile) (splitLines infile')) :
    SamePass infile infile' ∧ SameStep infile infile' := by
  obtain ⟨g, hg⟩ := exists_lines_eq_of_depthFrom h
  cases hf : firstDef g with
  | none =>
    have hsettled : Settled (splitLines infile) := hg ▸ settled_of_firstDef g hf
    obtain ⟨hsearch, hmod⟩ := searchAndMod_of_settled hsettled
    obtain ⟨hsearch', hmod'⟩ := searchAndMod_of_settled (hsettled.congr hs)
    simp only [SamePass, SameStep, hsearch, hmod, hsearch', hmod', and_self]
  | some poc =>
    obtain ⟨p, o, c⟩ := poc
    obtain ⟨pre, R, B, rest, hlines, hpre, hp, hR, hrest, rfl, rfl, hdef⟩ :=
      exists_lines_of_firstDef g hf
    have hfile := hg.symm.trans hlines
    rw [hfile] at hs
    obtain ⟨pre', R', rest', p', B', hfile', hsPre, hsp, hsR, hsRest, hopen, hclose, hdefs⟩ :=
      exists_parts_congr hs
    have hp' : braceKind p' = some .opn := (braceKind_congr (braces_congr hsp)).symm.trans hp
    have hrest' : rest' ≠ [] := fun hnil => hrest (by simpa [SameTokens, hnil] using hsRest)
    have hread : hoistOf B'.opening B'.closing (openDecl p')
        = hoistOf B.opening B.closing (openDecl p) := by
      rw [openDecl_congr hsp,
        hoistOf_congr hopen hclose (braces_tail_of_closesBlock B.closesBlock).2]
    cases hh : hoistOf B.opening B.closing (openDecl p) with
    | error e =>
      obtain ⟨hsearch, hmod⟩ := searchAndMod_of_error hfile hpre hp hR hh
      obtain ⟨hsearch', hmod'⟩ := searchAndMod_of_error hfile' (hpre.congr hsPre) hp'
        (hR.congr hsR) (hread.trans hh)
      simp only [SamePass, SameStep, hsearch, hmod, hsearch', hmod', and_self]
    | ok r =>
      cases r with
      | none =>
        have hnot := openType_eq_none_iff.1 (hoistOf_eq_none_iff.1 hh)
        simp [hnot] at hdef
      | some hoist =>
        constructor
        · have hsearch := search_of_block hfile hpre hp hR
          have hsearch' := search_of_block hfile' (hpre.congr hsPre) hp' (hR.congr hsR)
          rw [hh] at hsearch
          rw [hread, hh] at hsearch'
          simp only [SamePass, hsearch, hsearch']
          refine ⟨?_, rfl, rfl⟩
          -- the block starts after equally many lines
          have hcut : splitLines infile = (pre ++ p :: R) ++ (B.lines ++ rest) := by
            rw [hfile]
            simp
          have hcut' : splitLines infile' = (pre' ++ p' :: R') ++ (B'.lines ++ rest') := by
            rw [hfile']
            simp
          have hnum := lineNumber_of_splitLines hcut (by simp [hrest])
          have hnum' := lineNumber_of_splitLines hcut' (by simp [hrest'])
          have hlen := congrArg List.length hsPre
          have hlenR := congrArg List.length hsR
          simp only [List.length_map] at hlen hlenR
          simp only [List.flatten_append, List.flatten_cons, List.length_append,
            List.length_cons] at hnum hnum'
          simp only [Hoist.toS, Nat.add_assoc]
          rw [hnum, hnum', hlen, hlenR]
        · obtain ⟨file, hmod, hnew⟩ := searchAndMod_of_block hfile hpre hp hR hrest hh
          obtain ⟨file', hmod', hnew'⟩ := searchAndMod_of_block hfile' (hpre.congr hsPre) hp'
            (hR.congr hsR) hrest' (hread.trans hh)
          simp only [SameStep, hmod, hmod']
          rw [hnew, hnew']
          exact hsPre.append ((hdefs hoist).append
            (SameTokens.cons hsp (hsR.append ((SameTokens.refl _).append hsRest))))

/-! ## Two runs -/

/-- After equally many rewrites the files have the same tokens line by line. -/
theorem rewrites_of_sameTokens {k : ℕ} {infile infile' file : Str} (h : Disciplined infile)
    (hs : SameTokens (splitLines infile) (splitLines infile'))
    (hrun : rewrites k infile = some file) :
    ∃ file', rewrites k infile' = some file' ∧
      SameTokens (splitLines file) (splitLines file') := by
  induction k generalizing infile infile' with
  | zero => exact ⟨infile', rfl, Option.some.inj hrun ▸ hs⟩
  | succ k ih =>
    have hstep := (sameStep_of_sameTokens h hs).2
    unfold SameStep at hstep
    rw [rewrites] at hrun
    cases hmod : searchAndMod infile with
    | error e => simp [hmod] at hrun
    | ok r =>
      cases r with
      | none => simp [hmod] at hrun
      | some next =>
        rw [hmod] at hstep hrun
        cases hmod' : searchAndMod infile' with
        | error e => simp [hmod'] at hstep
        | ok r' =>
          rw [hmod'] at hstep
          cases r' with
          | none => exact hstep.elim
          | some next' =>
            obtain ⟨file', hrun', hfile⟩ := ih (disciplined_of_searchAndMod h hmod) hstep hrun
            exact ⟨file', by rw [rewrites, hmod']; exact hrun', hfile⟩

/-- The runs end alike. -/
theorem mainLoop_of_sameTokens {calls : ℕ} {infile infile' : Str} {modCount : ℕ}
    {out : Outcome} (h : Disciplined infile)
    (hs : SameTokens (splitLines infile) (splitLines infile'))
    (hrun : mainLoop calls infile modCount = some out) :
    ∃ out', mainLoop calls infile' modCount = some out' ∧ out'.modCount = out.modCount ∧
      out'.error = out.error ∧ SameTokens (splitLines out.file) (splitLines out'.file) := by
  induction calls generalizing infile infile' modCount with
  | zero => simp [mainLoop] at hrun
  | succ calls ih =>
    have hstep := (sameStep_of_sameTokens h hs).2
    unfold SameStep at hstep
    rw [mainLoop] at hrun ⊢
    cases hmod : searchAndMod infile with
    | error e =>
      rw [hmod] at hstep hrun
      -- both passes raise
      obtain rfl := Option.some.inj hrun
      cases hmod' : searchAndMod infile' with
      | error e' =>
        rw [hmod'] at hstep
        exact ⟨_, rfl, rfl, by rw [show e = e' from hstep], hs⟩
      | ok r' => cases r' <;> simp [hmod'] at hstep
    | ok r =>
      rw [hmod] at hstep hrun
      cases hmod' : searchAndMod infile' with
      | error e => cases r <;> simp [hmod'] at hstep
      | ok r' =>
        rw [hmod'] at hstep
        cases r with
        | none =>
          -- both passes find nothing
          obtain rfl := Option.some.inj hrun
          cases r' with
          | none => exact ⟨_, rfl, rfl, rfl, hs⟩
          | some next' => exact hstep.elim
        | some next =>
          cases r' with
          | none => exact hstep.elim
          -- both rewrite, and the new files have the same tokens again
          | some next' => exact ih (disciplined_of_searchAndMod h hmod) hstep hrun

/-- The opening line `KW TAG {`: three tokens. -/
def OpensTagged (l : Str) (kw : Kw) (tag : Str) : Prop :=
  '{' ∉ tag ∧ ∃ t post, split l = kw.text :: tag :: ('{' :: t) :: post

/-- A block that is opened by `KW TAG {` keeps its tag. -/
theorem keeps_tag {infile : Str} (h : Disciplined infile) {m n : S}
    (hsearch : search infile = .ok (some (m, n))) {kw : Kw} {tag : Str}
    (htagged : OpensTagged (lineAt infile n.start) kw tag) :
    n.type0 = some kw ∧ n.decl = some tag := by
  obtain ⟨g, hg⟩ := exists_lines_eq_of_depthFrom h
  obtain ⟨hno, t, post, hsplit⟩ := htagged
  cases hf : firstDef g with
  | none => simp [(search_of_firstDef_none g hg.symm hf).1] at hsearch
  | some poc =>
    obtain ⟨p, o, c⟩ := poc
    have hpass := search_of_firstDef g hg.symm hf
    cases hh : hoistOf o c (openDecl p) with
    | error e => simp [hh, hsearch] at hpass
    | ok r =>
      cases r with
      | none => simp [hh] at hpass
      | some hoist =>
        rw [hh] at hpass
        obtain ⟨m', start, stop, txt, hline, hsearch', -⟩ := hpass
        rw [hsearch'] at hsearch
        obtain ⟨-, rfl⟩ := Prod.mk.inj (Option.some.inj (Except.ok.inj hsearch))
        -- the line at `n.start` is the opening line of the block that is hoisted
        have hsplit' : split o = kw.text :: tag :: ('{' :: t) :: post := hline ▸ hsplit
        obtain ⟨htype, hdecl⟩ := open_eq_of_split_tagged hsplit' hno (by simp)
        simp only [hoistOf, htype, hdecl, Except.ok.injEq, Option.some.injEq] at hh
        rw [← hh]
        exact ⟨rfl, rfl⟩

/-- **Spacing between tokens does not matter.**  Of two files with the same tokens line by
line the first of which is brace-disciplined, the runs go through files with the same
tokens line by line, hoist the same blocks under the same tags, and end alike; and a block
that is opened by `KW TAG {` keeps its tag. -/
theorem run_of_sameTokens {infile infile' : Str} (h : Disciplined infile)
    (hs : SameTokens (splitLines infile) (splitLines infile')) :
    (∀ k file, rewrites k infile = some file → ∃ file', rewrites k infile' = some file' ∧
      SameTokens (splitLines file) (splitLines file') ∧ SamePass file file') ∧
    (∀ out, Ends infile out → ∃ out', Ends infile' out' ∧ out'.modCount = out.modCount ∧
      out'.error = out.error ∧ SameTokens (splitLines out.file) (splitLines out'.file)) ∧
    (∀ k file m n kw tag, rewrites k infile = some file → search file = .ok (some (m, n)) →
      OpensTagged (lineAt file n.start) kw tag → n.type0 = some kw ∧ n.decl = some tag) := by
  refine ⟨fun k file hrun => ?_, ?_, fun k file m n kw tag hrun hsearch htagged => ?_⟩
  · obtain ⟨file', hrun', hfile⟩ := rewrites_of_sameTokens h hs hrun
    exact ⟨file', hrun', hfile, (sameStep_of_sameTokens (disciplined_of_rewrites h hrun) hfile).1⟩
  · rintro out ⟨calls, hcalls⟩
    obtain ⟨out', hcalls', hout⟩ := mainLoop_of_sameTokens h hs hcalls
    exact ⟨out', ⟨calls, hcalls'⟩, hout⟩
  · exact keeps_tag (disciplined_of_rewrites h hrun) hsearch htagged

/-- A header with a tagged block in another. -/
def spacedHeader : Str := "struct a \x7b\n\tstruct foo \x7b\n\t\tint x;\n\t\x7d b;\n\x7d;\n".toList

/-- The same header with other spacing between its tokens. -/
def respacedHeader : Str :=
  "struct  a  \x7b\n  struct\tfoo\t\x7b\n\t\tint x;\n\t\x7d b;\n\x7d;\n".toList

/-- The same header without the space in front of the inner `{`. -/
def gluedHeader : Str := "struct a \x7b\n\tstruct foo\x7b\n\t\tint x;\n\t\x7d b;\n\x7d;\n".toList

/-- The same header with the inner `{` on a line of its own. -/
def braceBelowHeader : Str :=
  "struct a \x7b\n\tstruct foo\n\t\x7b\n\t\tint x;\n\t\x7d b;\n\x7d;\n".toList

theorem run_of_spacedHeader :
    (Disciplined spacedHeader ∧
      SameTokens (splitLines spacedHeader) (splitLines respacedHeader)) ∧
    (∀ k file, rewrites k spacedHeader = some file → ∃ file',
      rewrites k respacedHeader = some file' ∧
      SameTokens (splitLines file) (splitLines file') ∧ SamePass file file') ∧
    (∀ out, Ends spacedHeader out → ∃ out', Ends respacedHeader out' ∧
      out'.modCount = out.modCount ∧ out'.error = out.error ∧
      SameTokens (splitLines out.file) (splitLines out'.file)) ∧
    (∀ k file m n kw tag, rewrites k spacedHeader = some file →
      search file = .ok (some (m, n)) →
      OpensTagged (lineAt file n.start) kw tag → n.type0 = some kw ∧ n.decl = some tag) :=
  have h : Disciplined spacedHeader := by decide
  have hs : SameTokens (splitLines spacedHeader) (splitLines respacedHeader) := by
    unfold SameTokens
    decide
  ⟨⟨h, hs⟩, run_of_sameTokens h hs⟩

/-- The C tokens of a line: identifiers and numbers as wholes, other characters one by
one. -/
def cTokens (l : Str) : List Str :=
  let word := fun c : Char => c.isAlphanum || c == '_'
  (l.splitBy fun a b => word a && word b).filter fun t => !t.all isSpace

/-- Lines with the same C tokens, and alike unless they open a block. -/
def SameHeader (ls ls' : List Str) : Prop :=
  List.Forall₂ (fun a b => a = b ∨ '{' ∈ a ∧ '{' ∈ b ∧ cTokens a = cTokens b) ls ls'

/-- A tag without a space behind it is lost: the block gets a generated one.  And a block
whose `{` stands on a line of its own is not hoisted at all. -/
theorem glued_loses_tag : ¬ (∀ infile infile' : Str, Disciplined infile → Disciplined infile' →
      SameHeader (splitLines infile) (splitLines infile') → SamePass infile infile') ∧
    (∃ m n, search spacedHeader = .ok (some (m, n)) ∧ n.decl = some "foo".toList) ∧
    (∃ m n, search gluedHeader = .ok (some (m, n)) ∧ n.decl = some "b_in_a_s".toList) ∧
    (Disciplined braceBelowHeader ∧ search braceBelowHeader = .ok none) := by
  refine ⟨fun hall => ?_, ⟨_, _, rfl, rfl⟩, ⟨_, _, rfl, rfl⟩, by decide, rfl⟩
  have hsame : SameHeader (splitLines spacedHeader) (splitLines gluedHeader) := by
    unfold SameHeader
    decide
  obtain ⟨-, -, hdecl⟩ := hall spacedHeader gluedHeader (by decide) (by decide) hsame
  exact absurd hdecl (by decide)

end StructEnum
