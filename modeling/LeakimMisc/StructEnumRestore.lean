/-
# The output means what the input meant

A header in the supported layout can be put together again from the output of the run:
when every generated declaration `KW T D;` is replaced by the body of the definition of
`T`, closed by `} D;`, the block tree of the input comes back (`restore_flatten`), with
the generated tags on the blocks that had none.  The definitions of the output stand in
the order of the closing lines of the input, so every definition stands before its use
(`run_of_header`).
-/
import LeakimMisc.StructEnumLayout

open PyStr Nest

namespace StructEnum

/-! ## The block tree -/

/-- The members of a block up to their indentation, every block with its tag. -/
inductive Tree
  | nil
  | line (l : Str) (rest : Tree)
  | block (kw : Kw) (tag : Str) (body : Tree) (declarator : Str) (rest : Tree)
  deriving DecidableEq

/-- An item of a header: a line, or a top-level block. -/
inductive TopTree
  | line (l : Str)
  | block (kw : Kw) (tag : Str) (body : Tree)
  deriving DecidableEq

/-- The tree of the members of a block with the tag `parent`. -/
def Members.tree (parent : Str) : Members → Tree
  | .nil => .nil
  | .line l _ rest => .line (indentNone l) (rest.tree parent)
  | .block o body c rest =>
      .block o.kw (blockTag o c parent) (body.tree (blockTag o c parent)) c.declarator.text
        (rest.tree parent)

/-- The trees of a header. -/
def Header.tree : Header → List TopTree
  | [] => []
  | .line l _ :: rest => .line l :: Header.tree rest
  | .block fr body :: rest => .block fr.kw fr.tag (body.tree fr.tag) :: Header.tree rest

/-! ## Restoring the tree -/

/-- A definition of the output, with its members restored. -/
structure Defn where
  kw : Kw
  tag : Str
  body : Tree

/-- The definition as an item. -/
def Defn.top (e : Defn) : TopTree := .block e.kw e.tag e.body

/-- The definition of `kw tag` among those read so far. -/
def lookup (env : List Defn) (kw : Kw) (tag : Str) : Option Tree :=
  (env.find? fun e => decide (e.kw = kw ∧ e.tag = tag)).map Defn.body

/-- A generated declaration becomes the block again: the body of the definition, and the
declarator. -/
def restoreMembers (env : List Defn) : List OutMember → Option Tree
  | [] => some .nil
  | .line l _ :: ms => (restoreMembers env ms).map fun rest => .line (indentNone l) rest
  | .gen kw tag d _ :: ms =>
      (lookup env kw tag).bind fun body =>
        (restoreMembers env ms).map fun rest => .block kw tag body d.text rest

/-- Every definition in turn, with those before it at hand. -/
def restoreItems (env : List Defn) : List OutItem → Option (List TopTree)
  | [] => some []
  | .line l _ :: items => (restoreItems env items).map fun rest => .line l :: rest
  | .defn fr ms :: items =>
      (restoreMembers env ms).bind fun body =>
        (restoreItems (⟨fr.kw, fr.tag, body⟩ :: env) items).map fun rest =>
          .block fr.kw fr.tag body :: rest

/-- The tag that a generated declaration uses. -/
def OutMember.use : OutMember → Option Str
  | .line _ _ => none
  | .gen _ tag _ _ => some tag

/-- The tags that the generated declarations of an item use. -/
def OutItem.uses : OutItem → List Str
  | .line _ _ => []
  | .defn _ ms => ms.filterMap OutMember.use

/-- A definition whose tag is used has gone back to its place. -/
def isOuter (used : List Str) : TopTree → Bool
  | .line _ => true
  | .block _ tag _ => decide (tag ∉ used)

/-- **Undoing the run**: all definitions go back to the places where they are used. -/
def restore (items : List OutItem) : Option (List TopTree) :=
  (restoreItems [] items).map fun ts => ts.filter (isOuter (items.flatMap OutItem.uses))

/-! ## The definitions of a header -/

/-- The nested blocks of a block with the tag `parent`, in the order of their closing
lines. -/
def Members.defns (parent : Str) : Members → List Defn
  | .nil => []
  | .line _ _ rest => rest.defns parent
  | .block o body c rest =>
      body.defns (blockTag o c parent)
        ++ ⟨o.kw, blockTag o c parent, body.tree (blockTag o c parent)⟩ :: rest.defns parent

/-- No two definitions have one tag. -/
def Distinct (env : List Defn) : Prop := (env.map Defn.tag).Nodup

theorem Distinct.sublist {a b : List Defn} (h : Distinct b) (hab : a.Sublist b) : Distinct a :=
  List.Nodup.sublist (hab.map Defn.tag) h

theorem Distinct.perm {a b : List Defn} (h : Distinct b) (hab : a.Perm b) : Distinct a :=
  (hab.map Defn.tag).nodup_iff.2 h

theorem lookup_of_mem {env : List Defn} (h : Distinct env) {e : Defn} (he : e ∈ env) :
    lookup env e.kw e.tag = some e.body := by
  induction env with
  | nil => simp at he
  | cons a env ih =>
    obtain ⟨ha, henv⟩ := List.nodup_cons.1 h
    unfold lookup
    rcases List.mem_cons.1 he with rfl | he
    · rw [List.find?_cons_of_pos (by simp)]
      rfl
    · have hne : a.tag ≠ e.tag := fun heq => ha (heq ▸ List.mem_map_of_mem he)
      rw [List.find?_cons_of_neg (by simp [hne])]
      exact ih henv he

theorem Members.tag_defns (ms : Members) (parent : Str) :
    (ms.defns parent).map Defn.tag = (ms.closings parent).map Closed.tag := by
  induction ms generalizing parent with
  | nil => rfl
  | line l h rest ih => exact ih parent
  | block o body c rest ihb ih => simp [defns, closings, ihb, ih]

/-- The members that stay, restored. -/
theorem restoreMembers_stay {f : Str → Str} (hf : Reindents f) (ms : Members) {parent : Str}
    (hp : IsIdent parent) {env : List Defn} (henv : Distinct env)
    (hms : ∀ e ∈ ms.defns parent, e ∈ env) :
    restoreMembers env (ms.stay hf parent hp) = some (ms.tree parent) := by
  induction ms generalizing parent with
  | nil => rfl
  | line l h rest ih =>
    rw [Members.stay, restoreMembers, ih hp hms, (hf.tabs l).indentNone_eq]
    rfl
  | block o body c rest ihb ih =>
    have hbody := hms ⟨o.kw, blockTag o c parent, body.tree (blockTag o c parent)⟩
      (by simp [Members.defns])
    have hrest := ih hp fun e he => hms e (by simp [Members.defns, he])
    rw [Members.stay, restoreMembers, lookup_of_mem henv hbody, hrest]
    rfl

/-- **The hoisted definitions, restored** one after the other. -/
theorem restoreItems_hoisted (ms : Members) {parent : Str} (hp : IsIdent parent)
    {env : List Defn} (h : Distinct (ms.defns parent ++ env)) (items : List OutItem) :
    restoreItems env (ms.hoisted parent hp ++ items)
      = (restoreItems ((ms.defns parent).reverse ++ env) items).map fun rest =>
          (ms.defns parent).map Defn.top ++ rest := by
  induction ms generalizing parent env items with
  | nil => simp [Members.hoisted, Members.defns]
  | line l _ rest ih => exact ih hp h items
  | block o body c rest ihb ih =>
    simp only [Members.defns, List.append_assoc, List.cons_append] at h
    -- the nested blocks of the body come first
    have hbody : Distinct (body.defns (blockTag o c parent) ++ env) :=
      h.sublist (List.Sublist.append (List.Sublist.refl _)
        ((List.sublist_append_right _ _).cons _))
    have hseen : Distinct ((body.defns (blockTag o c parent)).reverse ++ env) :=
      hbody.perm ((List.reverse_perm _).append_right env)
    rw [Members.hoisted, List.append_assoc, ihb _ hbody, List.cons_append, restoreItems,
      restoreMembers_stay reindents_indentOne body _ hseen fun e he => by simp [he]]
    -- then the block itself, then the rest
    have hrest : Distinct (rest.defns parent ++
        (⟨o.kw, blockTag o c parent, body.tree (blockTag o c parent)⟩ ::
          ((body.defns (blockTag o c parent)).reverse ++ env))) := by
      refine h.perm ?_
      have hcomm : (rest.defns parent ++ body.defns (blockTag o c parent)).Perm
          (body.defns (blockTag o c parent) ++ rest.defns parent) := List.perm_append_comm
      have hswap := hcomm.append_right env
      refine List.perm_middle.trans (List.Perm.trans ?_ List.perm_middle.symm)
      refine List.Perm.cons _ ?_
      rw [List.append_assoc, List.append_assoc] at hswap
      exact (((List.reverse_perm _).append_right env).append_left _).trans hswap
    simp only [Option.bind_some]
    rw [show (hoistFrame o c parent hp).kw = o.kw from rfl,
      show (hoistFrame o c parent hp).tag = blockTag o c parent from rfl, ih hp hrest]
    simp [Members.defns, Defn.top, Function.comp_def]

/-- The tags that are used are those of the nested blocks. -/
theorem mem_uses_iff {f : Str → Str} (hf : Reindents f) (ms : Members) {parent : Str}
    (hp : IsIdent parent) (t : Str) :
    (t ∈ (ms.hoisted parent hp).flatMap OutItem.uses ∨
        t ∈ (ms.stay hf parent hp).filterMap OutMember.use) ↔
      t ∈ (ms.defns parent).map Defn.tag := by
  induction ms generalizing f parent with
  | nil => simp [Members.hoisted, Members.stay, Members.defns]
  | line l _ rest ih =>
    rw [← show _ ↔ t ∈ (Members.defns parent (.line l _ rest)).map Defn.tag from ih hf hp]
    simp [Members.hoisted, Members.stay, OutMember.use]
  | block o body c rest ihb ih =>
    have hb := ihb reindents_indentOne (isIdent_blockTag o c hp)
    have hr := ih hf hp
    simp only [Members.hoisted, Members.stay, Members.defns, List.flatMap_append,
      List.flatMap_cons, List.map_append, List.map_cons, List.mem_append, List.mem_cons,
      OutItem.uses, List.filterMap_cons, OutMember.use] at hb hr ⊢
    rw [← hb, ← hr]
    ac_nf

/-! ## Headers -/

/-- The nested blocks of the header. -/
def Header.nested : Header → List Str
  | [] => []
  | .line _ _ :: rest => Header.nested rest
  | .block fr body :: rest => (body.defns fr.tag).map Defn.tag ++ Header.nested rest

/-- The tags of the top-level blocks. -/
def Header.outer : Header → List Str
  | [] => []
  | .line _ _ :: rest => Header.outer rest
  | .block fr _ :: rest => fr.tag :: Header.outer rest

theorem Header.perm_tags (H : Header) :
    (Header.tags H).Perm (Header.nested H ++ Header.outer H) := by
  unfold Header.tags
  induction H with
  | nil => exact List.Perm.refl _
  | cons t rest ih =>
    cases t with
    | line l h => exact ih
    | block fr body =>
      simp only [closings, nested, outer, List.map_append, List.map_cons, List.append_assoc,
        body.tag_defns]
      exact ((ih.cons fr.tag).trans List.perm_middle.symm).append_left _

/-- All definitions of the output, in order. -/
def Header.tops : Header → List TopTree
  | [] => []
  | .line l _ :: rest => .line l :: Header.tops rest
  | .block fr body :: rest =>
      (body.defns fr.tag).map Defn.top
        ++ .block fr.kw fr.tag (body.tree fr.tag) :: Header.tops rest

/-- The definitions of the output are restored one after the other. -/
theorem restoreItems_flatten (H : Header) (env : List Defn)
    (h : (Header.tags H ++ env.map Defn.tag).Nodup) :
    restoreItems env (Header.flatten H) = some (Header.tops H) := by
  unfold Header.tags at h
  induction H generalizing env with
  | nil => rfl
  | cons t rest ih =>
    cases t with
    | line l hl =>
      rw [Header.flatten, restoreItems, ih env h]
      rfl
    | block fr body =>
      simp only [Header.closings, List.map_append, List.map_cons, ← body.tag_defns,
        List.append_assoc, List.cons_append] at h
      have hbody : Distinct (body.defns fr.tag ++ env) := by
        rw [Distinct, List.map_append]
        refine h.sublist (List.Sublist.append (List.Sublist.refl _) ?_)
        exact (List.sublist_append_right _ _).cons _
      have hseen : Distinct ((body.defns fr.tag).reverse ++ env) :=
        hbody.perm ((List.reverse_perm _).append_right env)
      -- the definitions seen so far are those of the members, and then the block itself
      have hrest : ((Header.closings rest).map Closed.tag ++
          (⟨fr.kw, fr.tag, body.tree fr.tag⟩ :: ((body.defns fr.tag).reverse ++ env)).map
            Defn.tag).Nodup := by
        rw [List.map_cons, List.map_append, List.map_reverse]
        refine List.Perm.nodup_iff (List.Perm.trans List.perm_middle ?_) |>.2 h
        refine (List.Perm.cons _ ?_).trans List.perm_middle.symm
        rw [← List.append_assoc, ← List.append_assoc]
        exact (List.perm_append_comm.trans
          ((List.reverse_perm _).append_right _)).append_right _
      rw [Header.flatten, restoreItems_hoisted body fr.ident hbody, restoreItems,
        restoreMembers_stay reindents_id body fr.ident hseen fun e he => by simp [he]]
      simp only [Option.bind_some]
      rw [ih _ hrest]
      simp [Header.tops]

theorem mem_uses_flatten_iff (H : Header) (t : Str) :
    t ∈ (Header.flatten H).flatMap OutItem.uses ↔ t ∈ Header.nested H := by
  induction H with
  | nil => rfl
  | cons top rest ih =>
    cases top with
    | line l h => simpa [Header.flatten, Header.nested, OutItem.uses] using ih
    | block fr body =>
      have hb := mem_uses_iff reindents_id body fr.ident t
      simp only [Header.flatten, Header.nested, List.flatMap_append, List.flatMap_cons,
        List.mem_append, OutItem.uses] at ih ⊢
      rw [← hb, ih]
      ac_nf

/-- Of all definitions only the top-level blocks are left. -/
theorem filter_tops (H : Header) {used : List Str} (hnested : ∀ t ∈ Header.nested H, t ∈ used)
    (houter : ∀ t ∈ Header.outer H, t ∉ used) :
    (Header.tops H).filter (isOuter used) = Header.tree H := by
  induction H with
  | nil => rfl
  | cons top rest ih =>
    cases top with
    | line l h =>
      rw [Header.tops, List.filter_cons_of_pos (by rfl), ih hnested houter]
      rfl
    | block fr body =>
      simp only [Header.nested, Header.outer, List.mem_append, List.mem_cons] at hnested houter
      -- the members were hoisted to the top and are used inside the block
      have hgone : ((body.defns fr.tag).map Defn.top).filter (isOuter used) = [] := by
        rw [List.filter_eq_nil_iff]
        intro x hx
        obtain ⟨e, he, rfl⟩ := List.mem_map.1 hx
        simpa [Defn.top, isOuter] using hnested e.tag (Or.inl (List.mem_map_of_mem he))
      have hkeep : isOuter used (.block fr.kw fr.tag (body.tree fr.tag)) = true := by
        simpa [isOuter] using houter fr.tag (Or.inl rfl)
      rw [Header.tops, List.filter_append, hgone, List.nil_append,
        List.filter_cons_of_pos hkeep,
        ih (fun t ht => hnested t (Or.inr ht)) fun t ht => houter t (Or.inr ht)]
      rfl

/-- **The output restores to the input.** -/
theorem restore_flatten (H : Header) (h : (Header.tags H).Nodup) :
    restore (Header.flatten H) = some (Header.tree H) := by
  have hdisjoint := (List.nodup_append.1 ((Header.perm_tags H).nodup_iff.1 h)).2.2
  rw [restore, restoreItems_flatten H [] (by simpa using h), Option.map_some,
    filter_tops H (fun t ht => (mem_uses_flatten_iff H t).2 ht)]
  intro t ht hused
  exact hdisjoint t ((mem_uses_flatten_iff H t).1 hused) t ht rfl

/-! ## The order of the definitions -/

/-- The keyword and the tag of a definition of the output. -/
def OutItem.defined : OutItem → Option (Kw × Str)
  | .line _ _ => none
  | .defn fr _ => some (fr.kw, fr.tag)

/-- **Definitions stand before their uses**: a generated declaration `KW T D;` follows the
definition of `KW T`. -/
def DefinedBeforeUse (items : List OutItem) : Prop :=
  ∀ before fr ms after, items = before ++ .defn fr ms :: after →
    ∀ kw tag d h, OutMember.gen kw tag d h ∈ ms → some (kw, tag) ∈ before.map OutItem.defined

theorem mem_of_lookup {env : List Defn} {kw : Kw} {tag : Str} {body : Tree}
    (h : lookup env kw tag = some body) : ⟨kw, tag, body⟩ ∈ env := by
  obtain ⟨e, he, rfl⟩ := Option.map_eq_some_iff.1 h
  have htag := List.find?_some he
  simp only [decide_eq_true_eq] at htag
  obtain ⟨rfl, rfl⟩ := htag
  exact List.mem_of_find?_eq_some he

theorem exists_mem_of_restoreMembers {env : List Defn} {ms : List OutMember} {body : Tree}
    (h : restoreMembers env ms = some body) {kw : Kw} {tag : Str} {d : Declarator}
    {hi : IsIdent tag} (hm : OutMember.gen kw tag d hi ∈ ms) :
    ∃ e ∈ env, e.kw = kw ∧ e.tag = tag := by
  induction ms generalizing body with
  | nil => simp at hm
  | cons m ms ih =>
    cases m with
    | line l hl =>
      obtain ⟨rest, hrest, -⟩ := Option.map_eq_some_iff.1 h
      exact ih hrest (by simpa using hm)
    | gen kw' tag' d' h' =>
      obtain ⟨b, hb, h⟩ := Option.bind_eq_some_iff.1 h
      obtain ⟨rest, hrest, -⟩ := Option.map_eq_some_iff.1 h
      rcases List.mem_cons.1 hm with heq | hm
      · obtain ⟨rfl, rfl, -⟩ := OutMember.gen.inj heq
        exact ⟨_, mem_of_lookup hb, rfl, rfl⟩
      · exact ih hrest hm

/-- What can be restored in order is defined before it is used. -/
theorem defined_of_restoreItems {env : List Defn} {items : List OutItem} {ts : List TopTree}
    (h : restoreItems env items = some ts) {before after : List OutItem} {fr : Frame}
    {ms : List OutMember} (hitems : items = before ++ .defn fr ms :: after) {kw : Kw}
    {tag : Str} {d : Declarator} {hi : IsIdent tag} (hm : OutMember.gen kw tag d hi ∈ ms) :
    (∃ e ∈ env, e.kw = kw ∧ e.tag = tag) ∨ some (kw, tag) ∈ before.map OutItem.defined := by
  induction before generalizing env items ts with
  | nil =>
    subst hitems
    obtain ⟨body, hbody, -⟩ := Option.bind_eq_some_iff.1 h
    exact Or.inl (exists_mem_of_restoreMembers hbody hm)
  | cons b before ih =>
    subst hitems
    cases b with
    | line l hl =>
      obtain ⟨rest, hrest, -⟩ := Option.map_eq_some_iff.1 h
      exact (ih hrest rfl).imp_right fun hd => List.mem_cons_of_mem _ hd
    | defn fr' ms' =>
      obtain ⟨body, -, h⟩ := Option.bind_eq_some_iff.1 h
      obtain ⟨rest, hrest, -⟩ := Option.map_eq_some_iff.1 h
      -- what the rest uses is in `env`, is this definition, or stands between
      rcases ih hrest rfl with ⟨e, he, hkw, htag⟩ | hd
      · rcases List.mem_cons.1 he with rfl | he
        · refine Or.inr (List.mem_cons.2 (Or.inl ?_))
          rw [← hkw, ← htag]
          rfl
        · exact Or.inl ⟨e, he, hkw, htag⟩
      · exact Or.inr (List.mem_cons_of_mem _ hd)

theorem definedBeforeUse_flatten (H : Header) (h : (Header.tags H).Nodup) :
    DefinedBeforeUse (Header.flatten H) := by
  intro before fr ms after hitems kw tag d hi hm
  have hrestore := restoreItems_flatten H [] (by simpa using h)
  rcases defined_of_restoreItems hrestore hitems hm with ⟨e, he, -⟩ | hd
  · simp at he
  · exact hd

theorem defined_hoisted (ms : Members) {parent : Str} (hp : IsIdent parent) :
    (ms.hoisted parent hp).filterMap OutItem.defined
      = (ms.closings parent).map fun c => (c.kw, c.tag) := by
  induction ms generalizing parent with
  | nil => rfl
  | line l h rest ih => exact ih hp
  | block o body c rest ihb ih =>
    simp [Members.hoisted, Members.closings, OutItem.defined, ihb, ih, hoistFrame]

/-- **The definitions of the output** are listed as their blocks were closed. -/
theorem defined_flatten (H : Header) :
    (Header.flatten H).filterMap OutItem.defined
      = (Header.closings H).map fun c => (c.kw, c.tag) := by
  induction H with
  | nil => rfl
  | cons t rest ih =>
    cases t with
    | line l h => exact ih
    | block fr body =>
      simp [Header.flatten, Header.closings, OutItem.defined, ih, defined_hoisted]

/-! ## No nested blocks -/

/-- Lines without braces open nothing and leave the depth as it was. -/
theorem openings_append_of_plain {ls : List Str} (h : ∀ l ∈ ls, braceKind l = some .plain)
    (d : ℕ) (rest : List Str) :
    openings braceKind d (ls ++ rest) = openings braceKind d rest := by
  induction ls with
  | nil => rfl
  | cons l ls ih =>
    have hl := h l List.mem_cons_self
    rw [List.cons_append, openings, hl]
    exact ih fun m hm => h m (List.mem_cons_of_mem _ hm)

theorem OutMember.plain {m : OutMember} {l : Str} (hl : l ∈ m.lines) :
    braceKind l = some .plain := by
  cases m with
  | line l' h => rw [List.mem_singleton.1 hl, h]
  | gen kw tag d h => exact (ok_blockHoist kw d h).braceKind_genLines hl

/-- An item of the output is balanced, and opens blocks of depth one only. -/
theorem OutItem.flat (it : OutItem) : depthFrom braceKind 0 it.lines = some 0 ∧
    ∀ p ∈ openings braceKind 0 it.lines, p.2 = 1 := by
  cases it with
  | line l h => exact ⟨(settled_of_plain h).1, by simp [lines, openings, h]⟩
  | defn fr ms =>
    have hplain : ∀ l ∈ ms.flatMap OutMember.lines, braceKind l = some .plain := by
      intro l hl
      obtain ⟨m, -, hlm⟩ := List.mem_flatMap.1 hl
      exact m.plain hlm
    have hdepth : depthFrom braceKind 0 (ms.flatMap OutMember.lines) = some 0 :=
      (noDefs_of_plain hplain).1
    obtain ⟨b, hb⟩ := exists_lines_eq_of_depthFrom hdepth
    constructor
    · have hblock := (Forest.block fr.opening fr.kind_opening b fr.closing fr.kind_closing
        .nil).depthFrom_lines 0
      rw [Forest.lines, hb] at hblock
      exact hblock
    · intro p hp
      rw [lines, openings, fr.kind_opening] at hp
      dsimp only at hp
      rw [openings_append_of_plain hplain] at hp
      have hfirst : p = (fr.opening, 1) := by simpa [openings, fr.kind_closing] using hp
      rw [hfirst]

/-- **The output has no nested block.** -/
theorem flat_of_items (items : List OutItem) :
    depthFrom braceKind 0 (items.flatMap OutItem.lines) = some 0 ∧
      ∀ p ∈ openings braceKind 0 (items.flatMap OutItem.lines), p.2 = 1 := by
  induction items with
  | nil => exact ⟨rfl, by simp [openings]⟩
  | cons it items ih =>
    obtain ⟨hd, ho⟩ := it.flat
    rw [List.flatMap_cons]
    refine ⟨by rw [depthFrom_append_of_balanced hd, ih.1], fun p hp => ?_⟩
    rw [openings_append_of_balanced hd, List.mem_append] at hp
    exact hp.elim (ho p) (ih.2 p)

/-! ## The run -/

/-- **A run on a header in the supported layout** whose tags are distinct ends without an
exception and leaves the header without nested blocks: no block is nested in another, the
definitions stand in the order of the closing lines of the input and before their uses,
and when they go back to their places, the input is there again. -/
theorem run_of_header (H : Header) (h : (Header.tags H).Nodup) {infile : Str}
    (hlines : splitLines infile = Header.lines H) :
    ∃ out : Outcome, Ends infile out ∧ out.error = none ∧
      splitLines out.file = (Header.flatten H).flatMap OutItem.lines ∧
      (Disciplined out.file ∧ ∀ p ∈ openings braceKind 0 (splitLines out.file), p.2 = 1) ∧
      ((Header.flatten H).filterMap OutItem.defined
          = (Header.closings H).map (fun c => (c.kw, c.tag)) ∧
        (Header.closings H).map Closed.line
          = (splitLines infile).filter (fun l => braceKind l == some .cls) ∧
        DefinedBeforeUse (Header.flatten H)) ∧
      restore (Header.flatten H) = some (Header.tree H) := by
  obtain ⟨out, hloop, -, hend⟩ := mainLoop_eq (Header.forest H)
    (hlines.trans (Header.lines_forest H).symm)
  rw [hoistFile_forest] at hend
  obtain ⟨hdepth, hflat⟩ := flat_of_items (Header.flatten H)
  refine ⟨out, ⟨_, hloop _ (Nat.lt_succ_self _)⟩, hend.1, hend.2, ⟨?_, ?_⟩,
    ⟨defined_flatten H, ?_, definedBeforeUse_flatten H h⟩, restore_flatten H h⟩
  · rw [Disciplined, hend.2, hdepth]
  · rw [hend.2]
    exact hflat
  · rw [hlines, Header.line_closings]

/-- A declarator that is an identifier of one letter. -/
def letter (c : Char) (h : c.isAlphanum = true) : Declarator where
  name := [c]
  suffix := []
  ident := ⟨by simp, by simpa using Or.inl h⟩
  array := Or.inl rfl
  solid := by simp [Solid]
  semicolon := by simp

/-- A header with an unnamed block in a named one, in another. -/
def sampleHeader : Header :=
  [.block ⟨.struct, "a".toList, by simp [IsIdent, Char.isAlphanum], "struct a \x7b\n".toList, rfl,
      "\x7d;\n".toList, rfl⟩
    (.block ⟨.struct, some "c".toList, "\tstruct c \x7b\n".toList, rfl,
        by simp [IsIdent, Char.isAlphanum]⟩
      (.block ⟨.union, none, "\t\tunion \x7b\n".toList, rfl, by simp⟩
        (.line "\t\t\tint x;\n".toList rfl .nil)
        ⟨letter 'u' (by decide), "\t\t\x7d u;\n".toList, rfl, rfl⟩
        (.line "\t\tint y;\n".toList rfl .nil))
      ⟨letter 'd' (by decide), "\t\x7d d;\n".toList, rfl, rfl⟩ .nil)]

example : (Header.flatten sampleHeader).flatMap OutItem.lines
    = ["union u_in_c_u \x7b\n".toList, "\tint x;\n".toList, "\x7d;\n".toList,
      "struct c \x7b\n".toList, "\t/* GENERATED */\n".toList, "\tunion u_in_c_u u;\n".toList,
      "\n".toList, "\tint y;\n".toList, "\x7d;\n".toList,
      "struct a \x7b\n".toList, "\t/* GENERATED */\n".toList, "\tstruct c d;\n".toList,
      "\n".toList, "\x7d;\n".toList] := by decide

theorem run_of_sampleHeader : ∃ out : Outcome,
    Ends (Header.lines sampleHeader).flatten out ∧ out.error = none ∧
      splitLines out.file = (Header.flatten sampleHeader).flatMap OutItem.lines ∧
      (Disciplined out.file ∧ ∀ p ∈ openings braceKind 0 (splitLines out.file), p.2 = 1) ∧
      ((Header.flatten sampleHeader).filterMap OutItem.defined
          = (Header.closings sampleHeader).map (fun c => (c.kw, c.tag)) ∧
        (Header.closings sampleHeader).map Closed.line
          = (splitLines (Header.lines sampleHeader).flatten).filter
            (fun l => braceKind l == some .cls) ∧
        DefinedBeforeUse (Header.flatten sampleHeader)) ∧
      restore (Header.flatten sampleHeader) = some (Header.tree sampleHeader) :=
  run_of_header sampleHeader (by decide) (by decide)

end StructEnum
