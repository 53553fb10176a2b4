/-
# Headers in the supported layout

The layout that `struct_enum.py` is made for, as a tree: lines without braces, and blocks
nested to any depth, where a top-level block is opened by `KW TAG {` and closed by `};`,
and a nested one is opened by `KW {` or `KW TAG {` and closed by `} D;`.  Every line
carries the proof that it has this form.

The run turns such a header into one without nested blocks (`Header.flatten`): in front
of a top-level block stand the definitions of all blocks that were nested in it, and in
their places stand generated declarations (`hoistFile_forest`).
-/
import LeakimMisc.StructEnumRun

open PyStr Nest

namespace StructEnum

/-! ## Identifiers and declarators -/

/-- The letters, the digits and the underscore. -/
def IdentChars (s : Str) : Prop := ∀ c ∈ s, c.isAlphanum = true ∨ c = '_'

instance (s : Str) : Decidable (IdentChars s) :=
  inferInstanceAs (Decidable (∀ c ∈ s, c.isAlphanum = true ∨ c = '_'))

theorem identChars_append (s t : Str) : IdentChars (s ++ t) ↔ IdentChars s ∧ IdentChars t :=
  List.forall_mem_append

/-- An identifier. -/
def IsIdent (s : Str) : Prop := s ≠ [] ∧ ∀ c ∈ s, c.isAlphanum = true ∨ c = '_'

instance (s : Str) : Decidable (IsIdent s) := inferInstanceAs (Decidable (_ ∧ _))

theorem IsIdent.not_mem {s : Str} (h : IsIdent s) {c : Char} (hc : c.isAlphanum = false)
    (hu : c ≠ '_') : c ∉ s := by
  intro hm
  rcases h.2 c hm with ha | ha
  · simp [hc] at ha
  · exact hu ha

theorem IsIdent.solid {s : Str} (h : IsIdent s) : Solid s := by
  intro c hc
  constructor
  · refine isSpace_eq_false (P := fun c => c ∈ s) ⟨?_, ?_, ?_, ?_, ?_, ?_⟩ hc
    all_goals exact h.not_mem (by decide) (by decide)
  · by_contra hbr
    simp only [isBrace, Bool.not_eq_false, Bool.or_eq_true, beq_iff_eq] at hbr
    rcases hbr with rfl | rfl
    all_goals exact h.not_mem (by decide) (by decide) hc

/-- The generated tag is made of the tag of the parent and of what fits into an identifier. -/
theorem identChars_genDecl_iff {name parent : Str} (hn : IdentChars name) (k : Kw) :
    IdentChars (genDecl name parent k) ↔ IdentChars parent := by
  have hin : IdentChars "_in_".toList := by simp [IdentChars, Char.isAlphanum]
  have hsep : IdentChars "_".toList := by simp [IdentChars, Char.isAlphanum]
  have hkw : IdentChars (k.text.take 1) := by
    cases k <;> simp [IdentChars, Kw.text, Char.isAlphanum]
  unfold genDecl
  simp only [identChars_append]
  constructor
  · rintro ⟨⟨⟨⟨-, -⟩, hparent⟩, -⟩, -⟩
    exact hparent
  · intro hparent
    exact ⟨⟨⟨⟨hn, hin⟩, hparent⟩, hsep⟩, hkw⟩

/-- The generated tag of a block with a declarator is an identifier. -/
theorem IsIdent.genDecl {name parent : Str} (hn : IsIdent name) (hp : IsIdent parent) (k : Kw) :
    IsIdent (genDecl name parent k) :=
  ⟨by simp [StructEnum.genDecl], (identChars_genDecl_iff hn.2 k).2 hp.2⟩

/-- A declarator: an identifier and perhaps an array suffix. -/
structure Declarator where
  name : Str
  suffix : Str
  ident : IsIdent name
  array : suffix = [] ∨ ∃ s, suffix = '[' :: s
  solid : Solid suffix
  semicolon : ';' ∉ suffix

namespace Declarator

/-- The text of the declarator. -/
def text (d : Declarator) : Str := d.name ++ d.suffix

theorem solid_text (d : Declarator) : Solid d.text := d.ident.solid.append d.solid

/-- `last_line` cuts the `;` off. -/
theorem nameZero_text (d : Declarator) : nameZero (d.text ++ [';']) = d.text := by
  apply nameZero_append_semicolon
  rw [text, List.mem_append, not_or]
  exact ⟨d.ident.not_mem (by decide) (by decide), d.semicolon⟩

/-- `last_line` cuts the array suffix off. -/
theorem bareName_text (d : Declarator) : bareName d.text = d.name := by
  have hbracket : '[' ∉ d.name := d.ident.not_mem (by decide) (by decide)
  have hstar : '*' ∉ d.name := d.ident.not_mem (by decide) (by decide)
  rw [text, bareName_append hbracket d.array, if_neg hstar]

end Declarator

/-! ## The lines of the layout -/

/-- The opening line `KW {` or `KW TAG {`. -/
structure Opening where
  kw : Kw
  tag : Option Str
  text : Str
  tokens : split text = kw.text :: (tag.toList ++ ["\x7b".toList])
  ident : ∀ t, tag = some t → IsIdent t

/-- The closing line `} D;` of a nested block. -/
structure Closing where
  declarator : Declarator
  text : Str
  tokens : split text = ["\x7d".toList, declarator.text ++ ";".toList]
  unpacked : hasText text "STRUCT_PACKED".toList = false

/-- The opening line `KW TAG {` and the closing line `};` of a top-level block. -/
structure Frame where
  kw : Kw
  tag : Str
  ident : IsIdent tag
  opening : Str
  opens : split opening = [kw.text, tag, "\x7b".toList]
  closing : Str
  closes : split closing = ["\x7d;".toList]

/-- The body of an opening line that ends with a lone `{`. -/
theorem openBody_of_split {o : Str} {pre : List Str} (h : split o = pre ++ ["\x7b".toList])
    (hpre : ∀ q ∈ pre, Solid q) : ∃ x, openBody o = '{' :: x ∧ ∀ c ∈ x, isSpace c = true := by
  have hflat : o.filter (fun c => !isSpace c) = pre.flatten ++ ['{'] := by
    rw [← flatten_split, h]
    simp
  have hmem : '{' ∈ o := by
    have : '{' ∈ o.filter (fun c => !isSpace c) := by simp [hflat]
    exact List.mem_of_mem_filter this
  obtain ⟨x, ho, hdrop⟩ := takeWhile_append_cons_of_mem hmem
  -- nothing but white space follows the `{`
  have hx : x.filter (fun c => !isSpace c) = [] := by
    have hcut := congrArg (List.dropWhile (· != '{')) hflat
    rw [ho, List.filter_append, List.filter_cons_of_pos (by rfl), List.dropWhile_append_of_pos,
      List.dropWhile_append_of_pos] at hcut
    · simpa using hcut
    · intro c hc
      obtain ⟨q, hq, hcq⟩ := List.mem_flatten.1 hc
      have hbr := (hpre q hq c hcq).2
      simp only [isBrace, Bool.or_eq_false_iff, beq_eq_false_iff_ne] at hbr
      simpa using hbr.1
    · intro c hc
      have hcut' := List.mem_of_mem_filter hc
      simpa using fun heq : c = '{' => not_mem_takeWhile_ne o '{' (heq ▸ hcut')
  have hspace : ∀ c ∈ x, isSpace c = true := fun c hc => by
    simpa using List.filter_eq_nil_iff.1 hx c hc
  refine ⟨x, ?_, hspace⟩
  rw [openBody_eq hmem, hdrop, takeWhile_ne_of_not_mem]
  rw [List.mem_cons, not_or]
  exact ⟨by decide, fun hm => absurd (hspace _ hm) (by decide)⟩

/-- What follows a lone `}` at the start of a line. -/
theorem split_tail_of_split {c : Str} {ts : List Str} (h : split c = "\x7d".toList :: ts) :
    split (c.dropWhile (· != '}')).tail = ts := by
  obtain ⟨w, r, rfl, hw, hr⟩ := eq_append_of_split_eq_cons h
  rw [List.dropWhile_append_of_pos fun a ha => ?_]
  · simpa using hr
  · have hsp := hw a ha
    simpa using fun heq : a = '}' => by simp [heq, isSpace] at hsp

namespace Opening

theorem braces_text (o : Opening) : braces o.text = ['{'] := by
  rw [← braces_flatten_split, o.tokens]
  cases ht : o.tag with
  | none => simp [o.kw.braces_text, braces_cons, isBrace]
  | some t => simp [o.kw.braces_text, (o.ident t ht).solid.braces, braces_cons, isBrace]

theorem kind (o : Opening) : braceKind o.text = some .opn := braceKind_opn_iff.2 o.braces_text

/-- `__init__` reads the keyword and the tag. -/
theorem read (o : Opening) : openType o.text = some o.kw ∧ openDecl o.text = o.tag := by
  have htokens := o.tokens
  cases ht : o.tag with
  | none =>
    rw [ht] at htokens
    exact open_eq_of_split_anonymous htokens (by simp)
  | some t =>
    rw [ht] at htokens
    exact open_eq_of_split_tagged htokens ((o.ident t ht).not_mem (by decide) (by decide))
      (by simp)

/-- The body of the opening line is the lone `{`. -/
theorem openBody_text (o : Opening) :
    ∃ x, openBody o.text = '{' :: x ∧ ∀ c ∈ x, isSpace c = true := by
  have htokens : split o.text = (o.kw.text :: o.tag.toList) ++ ["\x7b".toList] := o.tokens
  refine openBody_of_split htokens fun q hq => ?_
  rcases List.mem_cons.1 hq with rfl | hq
  · exact o.kw.solid_text
  · exact (o.ident q (by simpa using hq)).solid

end Opening

namespace Closing

theorem braces_text (c : Closing) : braces c.text = ['}'] := by
  rw [← braces_flatten_split, c.tokens]
  simp [c.declarator.solid_text.braces, braces_cons, isBrace]

theorem kind (c : Closing) : braceKind c.text = some .cls := braceKind_cls_iff.2 c.braces_text

/-- `last_line` reads the declarator. -/
theorem closeName0_text (c : Closing) : closeName0 c.text = some c.declarator.text := by
  have hmem : '}' ∈ c.text := (mem_braces_iff rfl).1 (by simp [c.braces_text])
  rw [closeName0, closeTokens_eq hmem, c.unpacked, split_tail_of_split c.tokens]
  simpa using c.declarator.nameZero_text

end Closing

namespace Frame

theorem kind_opening (fr : Frame) : braceKind fr.opening = some .opn := by
  rw [braceKind_opn_iff, ← braces_flatten_split, fr.opens]
  simp [fr.kw.braces_text, fr.ident.solid.braces, braces_cons, isBrace]

theorem kind_closing (fr : Frame) : braceKind fr.closing = some .cls := by
  rw [braceKind_cls_iff, ← braces_flatten_split, fr.closes]
  rfl

theorem openDecl_opening (fr : Frame) : openDecl fr.opening = some fr.tag :=
  (open_eq_of_split_tagged fr.opens (fr.ident.not_mem (by decide) (by decide)) (by simp)).2

end Frame

/-! ## Headers -/

/-- The members of a block. -/
inductive Members
  | nil
  | line (l : Str) (h : braceKind l = some .plain) (rest : Members)
  | block (o : Opening) (body : Members) (c : Closing) (rest : Members)

/-- An item of a header: a line, or a top-level block. -/
inductive Top
  | line (l : Str) (h : braceKind l = some .plain)
  | block (fr : Frame) (body : Members)

/-- A header in the supported layout. -/
abbrev Header := List Top

/-- The members as balanced lines. -/
def Members.forest : Members → Forest braceKind
  | .nil => .nil
  | .line l h rest => .line l h rest.forest
  | .block o body c rest => .block o.text o.kind body.forest c.text c.kind rest.forest

/-- The header as balanced lines. -/
def Header.forest : Header → Forest braceKind
  | [] => .nil
  | .line l h :: rest => .line l h (Header.forest rest)
  | .block fr body :: rest => .block fr.opening fr.kind_opening body.forest fr.closing
      fr.kind_closing (Header.forest rest)

/-- The lines of the members. -/
def Members.lines : Members → List Str
  | .nil => []
  | .line l _ rest => l :: rest.lines
  | .block o body c rest => o.text :: (body.lines ++ c.text :: rest.lines)

/-- The lines of the header. -/
def Header.lines : Header → List Str
  | [] => []
  | .line l _ :: rest => l :: Header.lines rest
  | .block fr body :: rest =>
      fr.opening :: (body.lines ++ fr.closing :: Header.lines rest)

theorem Members.lines_forest (ms : Members) : ms.forest.lines = ms.lines := by
  induction ms with
  | nil => rfl
  | line l h rest ih => rw [forest, Forest.lines, lines, ih]
  | block o body c rest ihb ih => rw [forest, Forest.lines, lines, ihb, ih]

theorem Header.lines_forest (H : Header) : (Header.forest H).lines = Header.lines H := by
  induction H with
  | nil => rfl
  | cons t rest ih =>
    cases t with
    | line l h => rw [Header.forest, Forest.lines, Header.lines, ih]
    | block fr body =>
      rw [Header.forest, Forest.lines, Header.lines, ih, body.lines_forest]

/-- The tag of a block in a parent with the tag `parent`: the written one, or the one that
is generated. -/
def blockTag (o : Opening) (c : Closing) (parent : Str) : Str :=
  o.tag.getD (genDecl c.declarator.name parent o.kw)

theorem isIdent_blockTag (o : Opening) (c : Closing) {parent : Str} (hp : IsIdent parent) :
    IsIdent (blockTag o c parent) := by
  unfold blockTag
  cases ht : o.tag with
  | none => exact c.declarator.ident.genDecl hp o.kw
  | some t => exact o.ident t ht

/-- A block as its definition in the output lists it: the closing line that it had, its
keyword and its tag. -/
structure Closed where
  line : Str
  kw : Kw
  tag : Str

/-- **The blocks in the order of their closing lines**, among the members of a block with
the tag `parent`. -/
def Members.closings (parent : Str) : Members → List Closed
  | .nil => []
  | .line _ _ rest => rest.closings parent
  | .block o body c rest =>
      body.closings (blockTag o c parent)
        ++ ⟨c.text, o.kw, blockTag o c parent⟩ :: rest.closings parent

/-- The blocks of the header in the order of their closing lines. -/
def Header.closings : Header → List Closed
  | [] => []
  | .line _ _ :: rest => Header.closings rest
  | .block fr body :: rest =>
      body.closings fr.tag ++ ⟨fr.closing, fr.kw, fr.tag⟩ :: Header.closings rest

/-- All tags of the header, written and generated. -/
def Header.tags (H : Header) : List Str := (Header.closings H).map Closed.tag

theorem Members.line_closings (ms : Members) (parent : Str) :
    (ms.closings parent).map Closed.line
      = ms.lines.filter fun l => braceKind l == some .cls := by
  induction ms generalizing parent with
  | nil => rfl
  | line l h rest ih => simp [closings, lines, ih, h]
  | block o body c rest ihb ih => simp [closings, lines, ih, ihb, o.kind, c.kind]

/-- The blocks are listed once each, in the order of the closing lines of the file. -/
theorem Header.line_closings (H : Header) :
    (Header.closings H).map Closed.line
      = (Header.lines H).filter fun l => braceKind l == some .cls := by
  induction H with
  | nil => rfl
  | cons t rest ih =>
    cases t with
    | line l h => simp [closings, lines, ih, h]
    | block fr body =>
      simp [closings, lines, ih, body.line_closings, fr.kind_opening, fr.kind_closing]

/-! ## Headers without nested blocks -/

/-- A member of a block in the output: a line, or a generated declaration. -/
inductive OutMember
  | line (l : Str) (h : braceKind l = some .plain)
  | gen (kw : Kw) (tag : Str) (d : Declarator) (h : IsIdent tag)

/-- An item of the output: a line, or a block without nested blocks. -/
inductive OutItem
  | line (l : Str) (h : braceKind l = some .plain)
  | defn (fr : Frame) (ms : List OutMember)

/-- What stands for a block of the input in its parent. -/
def blockHoist (kw : Kw) (tag : Str) (d : Declarator) : Hoist := ⟨kw, tag, false, some d.text⟩

theorem ok_blockHoist (kw : Kw) {tag : Str} (d : Declarator) (h : IsIdent tag) :
    (blockHoist kw tag d).Ok :=
  ⟨h.solid, h.1, fun n hn => by rw [← Option.some.inj hn]; exact d.solid_text⟩

/-- The lines of a member of the output. -/
def OutMember.lines : OutMember → List Str
  | .line l _ => [l]
  | .gen kw tag d _ => (blockHoist kw tag d).genLines

/-- The lines of an item of the output. -/
def OutItem.lines : OutItem → List Str
  | .line l _ => [l]
  | .defn fr ms => fr.opening :: (ms.flatMap OutMember.lines ++ [fr.closing])

/-- The tokens of the opening line of a hoisted block. -/
theorem split_openLine (o : Opening) {tag : Str} (d : Declarator) (h : IsIdent tag) :
    split ((blockHoist o.kw tag d).openLine o.text) = [o.kw.text, tag, "\x7b".toList] := by
  obtain ⟨x, hx, hspace⟩ := o.openBody_text
  have hline : (blockHoist o.kw tag d).openLine o.text
      = o.kw.text ++ ' ' :: (tag ++ ' ' :: ("\x7b".toList ++ x)) := by
    rw [Hoist.openLine, hx]
    simp [Hoist.head, blockHoist]
  rw [hline, split_token_append o.kw.isToken_text rfl,
    split_token_append (h.solid.isToken h.1) rfl, split_append_spaces hspace]
  rfl

/-- The opening and the closing line of a hoisted block. -/
def hoistFrame (o : Opening) (c : Closing) (parent : Str) (hp : IsIdent parent) : Frame where
  kw := o.kw
  tag := blockTag o c parent
  ident := isIdent_blockTag o c hp
  opening := (blockHoist o.kw (blockTag o c parent) c.declarator).openLine o.text
  opens := split_openLine o c.declarator (isIdent_blockTag o c hp)
  closing := (blockHoist o.kw (blockTag o c parent) c.declarator).closeLine
  closes := rfl

/-- The members that stay in a block, read through the indentation `f`. -/
def Members.stay {f : Str → Str} (hf : Reindents f) (parent : Str) (hp : IsIdent parent) :
    Members → List OutMember
  | .nil => []
  | .line l h rest => .line (f l) (by rw [hf.braceKind, h]) :: rest.stay hf parent hp
  | .block o _ c rest =>
      .gen o.kw (blockTag o c parent) c.declarator (isIdent_blockTag o c hp)
        :: rest.stay hf parent hp

/-- The definitions that are hoisted out of a block. -/
def Members.hoisted (parent : Str) (hp : IsIdent parent) : Members → List OutItem
  | .nil => []
  | .line _ _ rest => rest.hoisted parent hp
  | .block o body c rest =>
      body.hoisted (blockTag o c parent) (isIdent_blockTag o c hp)
        ++ .defn (hoistFrame o c parent hp)
            (body.stay reindents_indentOne (blockTag o c parent) (isIdent_blockTag o c hp))
        :: rest.hoisted parent hp

/-- **The header without nested blocks.** -/
def Header.flatten : Header → List OutItem
  | [] => []
  | .line l h :: rest => .line l h :: Header.flatten rest
  | .block fr body :: rest =>
      body.hoisted fr.tag fr.ident
        ++ .defn fr (body.stay reindents_id fr.tag fr.ident) :: Header.flatten rest

/-- What a pass reads from a block of the layout. -/
theorem hoistOf_block (o : Opening) (c : Closing) (parent : Str) :
    hoistOf o.text c.text (some parent)
      = .ok (some (blockHoist o.kw (blockTag o c parent) c.declarator)) := by
  obtain ⟨htype, hdecl⟩ := o.read
  rw [hoistOf, htype, hdecl, c.closeName0_text, c.unpacked]
  cases ht : o.tag with
  | none => simp [blockHoist, blockTag, ht, c.declarator.bareName_text]
  | some t => simp [blockHoist, blockTag, ht]

/-- **The run on the members of a block** hoists every nested block. -/
theorem hoistMembers_forest {f : Str → Str} (hf : Reindents f) (ms : Members) (parent : Str)
    (hp : IsIdent parent) :
    hoistMembers f (some parent) ms.forest
      = .ok ((ms.hoisted parent hp).flatMap OutItem.lines,
          (ms.stay hf parent hp).flatMap OutMember.lines) := by
  induction ms generalizing f parent with
  | nil => rfl
  | line l h rest ih =>
    rw [Members.forest, hoistMembers, ih hf parent hp]
    rfl
  | block o body c rest ihb ih =>
    rw [Members.forest, hoistMembers, hoistOf_block]
    simp only [Except.bind]
    rw [show (blockHoist o.kw (blockTag o c parent) c.declarator).tag = blockTag o c parent
      from rfl, ihb reindents_indentOne _ (isIdent_blockTag o c hp), ih hf parent hp]
    simp [Except.map, Members.hoisted, Members.stay, OutItem.lines, OutMember.lines, hoistFrame]

/-- **The run on a header** leaves the header without nested blocks. -/
theorem hoistFile_forest (H : Header) :
    hoistFile (Header.forest H) = .ok ((Header.flatten H).flatMap OutItem.lines) := by
  induction H with
  | nil => rfl
  | cons t rest ih =>
    cases t with
    | line l h =>
      rw [Header.forest, hoistFile, ih]
      rfl
    | block fr body =>
      rw [Header.forest, hoistFile, fr.openDecl_opening,
        hoistMembers_forest reindents_id body fr.tag fr.ident, ih]
      simp [Except.bind, Except.map, Header.flatten, OutItem.lines]

end StructEnum
