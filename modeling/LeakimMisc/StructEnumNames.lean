/-
# What `last_line` makes of a declarator

A closing line with one declarator: any number of `*`, an identifier, any number of array
suffixes, white space between all of them, and `STRUCT_PACKED` in front of the declarator,
behind it, or not at all (`DeclClosing`).  `last_line` reads the declarator, the name and the
marker as the comments on its fields say exactly if the declarator has no `*`, there is no
white space from its start to the `;`, and the marker does not follow it (`reads_iff`).
-/
import LeakimMisc.StructEnumLayout
import LeakimMisc.StructEnumClosing

open PyStr Pieces

namespace StructEnum

/-! ## Identifiers -/

/-- An identifier of C: it does not start with a digit. -/
def IsCIdent (s : Str) : Prop := IsIdent s ∧ ∀ c ∈ s.head?, c.isDigit = false

instance (s : Str) : Decidable (IsCIdent s) := inferInstanceAs (Decidable (_ ∧ _))

/-- **The generated tag** is an identifier exactly if the tag of the parent is made of the
right characters. -/
theorem isCIdent_genDecl_iff {name parent : Str} (hname : IsCIdent name) (k : Kw) :
    IsCIdent (genDecl name parent k) ↔ IdentChars parent := by
  have hhead : (genDecl name parent k).head? = name.head? := by
    unfold genDecl
    simp only [List.append_assoc]
    exact List.head?_append_of_ne_nil _ hname.1.1
  have hne : genDecl name parent k ≠ [] := by simp [genDecl]
  rw [← identChars_genDecl_iff hname.1.2 k]
  constructor
  · intro h
    exact h.1.2
  · intro h
    refine ⟨⟨hne, h⟩, ?_⟩
    rw [hhead]
    exact hname.2

/-! ## Declarators -/

/-- **A declarator**: the white space after each `*`, the identifier, and for each array
suffix the white space in front of it and the text in its brackets. -/
structure SpacedDeclarator where
  stars : List Str
  id : Str
  suffixes : List (Str × Str)
  ident : IsCIdent id
  starSpace : ∀ w ∈ stars, ∀ c ∈ w, isSpace c = true
  suffixSpace : ∀ s ∈ suffixes, ∀ c ∈ s.1, isSpace c = true
  bracket : ∀ s ∈ suffixes, ';' ∉ s.2

namespace SpacedDeclarator

/-- The `*`s. -/
def pointer (d : SpacedDeclarator) : Str := d.stars.flatMap fun w => '*' :: w

/-- The array suffixes. -/
def array (d : SpacedDeclarator) : Str := d.suffixes.flatMap fun s => s.1 ++ '[' :: (s.2 ++ [']'])

/-- The text of the declarator. -/
def text (d : SpacedDeclarator) : Str := d.pointer ++ (d.id ++ d.array)

theorem not_mem_pointer (d : SpacedDeclarator) {c : Char} (hspace : isSpace c = false)
    (hc : c ≠ '*') : c ∉ d.pointer := by
  intro hm
  obtain ⟨w, hw, hmem⟩ := List.mem_flatMap.1 hm
  rcases List.mem_cons.1 hmem with heq | hmem
  · exact hc heq
  · rw [d.starSpace w hw c hmem] at hspace
    exact absurd hspace (by decide)

theorem not_mem_text (d : SpacedDeclarator) : ';' ∉ d.text := by
  unfold text
  rw [List.mem_append, List.mem_append]
  rintro (hm | hm | hm)
  · exact d.not_mem_pointer rfl (by decide) hm
  · exact d.ident.1.not_mem (by decide) (by decide) hm
  · obtain ⟨s, hs, hmem⟩ := List.mem_flatMap.1 hm
    rcases List.mem_append.1 hmem with hmem | hmem
    · exact absurd (d.suffixSpace s hs _ hmem) (by decide)
    · rcases List.mem_cons.1 hmem with heq | hmem
      · exact absurd heq (by decide)
      · rcases List.mem_append.1 hmem with hmem | hmem
        · exact d.bracket s hs hmem
        · exact absurd hmem (by decide)

/-- The declarator starts with a character that is no white space. -/
theorem exists_text_eq (d : SpacedDeclarator) : ∃ a r, d.text = a :: r ∧ isSpace a = false := by
  unfold text pointer
  cases hs : d.stars with
  | nil =>
    obtain ⟨a, r, hid⟩ := List.exists_cons_of_ne_nil d.ident.1.1
    refine ⟨a, r ++ d.array, by simp [hid], ?_⟩
    exact (d.ident.1.solid a (by rw [hid]; exact List.mem_cons_self)).1
  | cons w ws => exact ⟨'*', _, rfl, rfl⟩

/-- Without its white space the pointer is a row of `*`s. -/
theorem unspace_pointer (d : SpacedDeclarator) :
    unspace d.pointer = List.replicate d.stars.length '*' := by
  unfold pointer
  have hspace := d.starSpace
  generalize d.stars = stars at hspace
  induction stars with
  | nil => rfl
  | cons w ws ih =>
    have hw := unspace_of_space (hspace w List.mem_cons_self)
    have hws := ih fun w' hw' => hspace w' (List.mem_cons_of_mem _ hw')
    rw [List.flatMap_cons, unspace_append, hws, List.length_cons, List.replicate_succ]
    show ('*' :: unspace w) ++ _ = _
    rw [hw]
    rfl

/-- Without its white space the array part is empty or starts with a bracket. -/
theorem unspace_array (d : SpacedDeclarator) :
    unspace d.array = [] ∨ ∃ r, unspace d.array = '[' :: r := by
  unfold array
  have hspace := d.suffixSpace
  cases hs : d.suffixes with
  | nil => exact Or.inl rfl
  | cons s ss =>
    rw [hs] at hspace
    refine Or.inr ⟨unspace (s.2 ++ [']'] ++ ss.flatMap fun s => s.1 ++ '[' :: (s.2 ++ [']'])), ?_⟩
    rw [List.flatMap_cons, List.append_assoc, unspace_append,
      unspace_of_space (hspace s List.mem_cons_self)]
    rfl

theorem unspace_text (d : SpacedDeclarator) :
    unspace d.text = List.replicate d.stars.length '*' ++ d.id ++ unspace d.array := by
  unfold text
  rw [unspace_append, unspace_append, d.unspace_pointer,
    unspace_eq_self fun c hc => (d.ident.1.solid c hc).1, List.append_assoc]

/-- **The name keeps the `*`s.** -/
theorem bareName_unspace_text (d : SpacedDeclarator) :
    bareName (unspace d.text) = List.replicate d.stars.length '*' ++ d.id := by
  have hstar : '*' ∉ d.id := d.ident.1.not_mem (by decide) (by decide)
  have hbracket : '[' ∉ List.replicate d.stars.length '*' ++ d.id := by
    rw [List.mem_append, not_or]
    refine ⟨?_, d.ident.1.not_mem (by decide) (by decide)⟩
    intro hm
    exact absurd (List.eq_of_mem_replicate hm) (by decide)
  rw [d.unspace_text, bareName_append hbracket d.unspace_array]
  cases hn : d.stars.length with
  | zero => rw [if_neg (by simpa using hstar)]
  | succ n =>
    rw [if_pos (by simp [List.replicate_succ])]
    rfl

theorem bareName_unspace_text_iff (d : SpacedDeclarator) :
    bareName (unspace d.text) = d.id ↔ d.stars = [] := by
  rw [d.bareName_unspace_text, List.append_left_eq_self, List.replicate_eq_nil_iff,
    List.length_eq_zero_iff]

/-- With array suffixes the declarator ends with a bracket. -/
theorem exists_text_eq_concat (d : SpacedDeclarator) (h : d.suffixes ≠ []) :
    ∃ x, d.text = x ++ [']'] := by
  obtain ⟨ss, s, hs⟩ := (List.eq_nil_or_concat d.suffixes).resolve_left h
  refine ⟨d.pointer ++ (d.id ++ (ss.flatMap (fun s => s.1 ++ '[' :: (s.2 ++ [']']))
    ++ (s.1 ++ '[' :: s.2))), ?_⟩
  unfold text array
  rw [hs]
  simp

/-- A declarator without `*` that reads as a text without brackets is that text. -/
theorem text_eq_of_unspace (d : SpacedDeclarator) (hstars : d.stars = []) {x : Str}
    (hx : '[' ∉ x) (h : unspace d.text = x) : d.text = x := by
  have hpointer : d.pointer = [] := by rw [pointer, hstars]; rfl
  have hsuffixes : d.suffixes = [] := by
    by_contra hne
    apply hx
    obtain ⟨s, hs⟩ := List.exists_mem_of_ne_nil _ hne
    have hmem : '[' ∈ d.text := by
      rw [text, List.mem_append, List.mem_append]
      exact Or.inr (Or.inr (List.mem_flatMap.2 ⟨s, hs, by simp⟩))
    rw [← h]
    exact List.mem_filter.2 ⟨hmem, rfl⟩
  have htext : d.text = d.id := by rw [text, hpointer, array, hsuffixes]; simp
  have hid : unspace d.id = d.id := unspace_eq_self fun c hc => (d.ident.1.solid c hc).1
  rw [htext, hid] at h
  exact htext.trans h

theorem some_eq_unspace_text_iff (d : SpacedDeclarator) (hstars : d.stars = []) {x : Str}
    (hx : '[' ∉ x) (hsolid : ∀ c ∈ x, isSpace c = false) :
    some x = some (unspace d.text) ↔ d.text = x := by
  rw [Option.some_inj]
  constructor
  · intro h
    exact d.text_eq_of_unspace hstars hx h.symm
  · intro h
    rw [h, unspace_eq_self hsolid]

/-- A declarator has a token. -/
theorem split_text_ne_nil (d : SpacedDeclarator) : split d.text ≠ [] := by
  intro hnil
  obtain ⟨a, r, htext, ha⟩ := d.exists_text_eq
  rw [htext, split_cons_of_not_space ha] at hnil
  exact absurd hnil (by simp)

end SpacedDeclarator

/-! ## The closing line -/

/-- Where `STRUCT_PACKED` stands, with the white space between it and the declarator. -/
inductive Marker
  | absent
  | before (w : Str)
  | after (w : Str)

namespace Marker

/-- `STRUCT_PACKED` occurs. -/
def present : Marker → Bool
  | absent => false
  | _ => true

/-- The declarator with the marker. -/
def attach (d : Str) : Marker → Str
  | absent => d
  | before w => "STRUCT_PACKED".toList ++ (w ++ d)
  | after w => d ++ (w ++ "STRUCT_PACKED".toList)

/-- White space, a `*` or a bracket keeps the marker and the identifier apart. -/
def Apart (d : SpacedDeclarator) : Marker → Prop
  | absent => True
  | before w => (∀ c ∈ w, isSpace c = true) ∧ (w ≠ [] ∨ d.stars ≠ [])
  | after w => (∀ c ∈ w, isSpace c = true) ∧ (w ≠ [] ∨ d.suffixes ≠ [])

end Marker

/-- **A closing line with one declarator**: `pre }`, white space, the declarator with or
without the marker, white space, a `;` and white space. -/
structure DeclClosing where
  pre : Str
  lead : Str
  declarator : SpacedDeclarator
  marker : Marker
  gap : Str
  trail : Str
  notClosed : '}' ∉ pre
  leadSpace : ∀ c ∈ lead, isSpace c = true
  gapSpace : ∀ c ∈ gap, isSpace c = true
  trailSpace : ∀ c ∈ trail, isSpace c = true
  apart : marker.Apart declarator

namespace DeclClosing

/-- The text of the line. -/
def line (c : DeclClosing) : Str :=
  c.pre ++ '}' :: (c.lead ++ (c.marker.attach c.declarator.text ++ c.gap) ++ ';' :: c.trail)

/-- **What the comments on the fields say**: `name0` is the declarator, `name` the
identifier, `struct_packed` says whether the marker occurs, and a block without a tag gets
one. -/
structure Reads (c : DeclClosing) (o : Str) (n : S) : Prop where
  name0 : n.name0.map unspace = some (unspace c.declarator.text)
  name : n.name = some c.declarator.id
  structPacked : n.structPacked = c.marker.present
  decl : openDecl o = none → ∃ tag, n.decl = some tag ∧ IsCIdent tag

/-- Where `last_line` finds the declarator: at the start of the line without the marker, or
behind the marker.  If the marker is behind the declarator, it finds the marker instead, and
without its last letter if a `;` does not follow at once: the declarator only if it is
spelled so. -/
def Found (c : DeclClosing) : Prop :=
  match c.marker with
  | .absent => c.gap = [] ∧ hasText c.line "STRUCT_PACKED".toList = false
  | .before _ => c.gap = []
  | .after w => w ≠ [] ∧ c.declarator.text
      = if c.gap = [] then "STRUCT_PACKED".toList else "STRUCT_PACKE".toList

/-- The condition on the line: no `*`, no white space in the declarator and none in front of
the `;`, and the marker not behind it. -/
structure Tight (c : DeclClosing) : Prop where
  direct : c.declarator.stars = []
  compact : ∀ a ∈ c.declarator.text, isSpace a = false
  found : c.Found

/-! ## The tokens behind the `}` -/

/-- The tokens of the line behind its `}`. -/
def tokens (c : DeclClosing) : List Str :=
  split (c.marker.attach c.declarator.text ++ c.gap ++ [';'])

theorem closeName0_line (c : DeclClosing) :
    closeName0 c.line = (if hasText c.line "STRUCT_PACKED".toList then c.tokens.drop 1
      else c.tokens).head?.map nameZero := by
  have htail : split (c.lead ++ (c.marker.attach c.declarator.text ++ c.gap) ++ ';' :: c.trail)
      = c.tokens := by
    rw [split_semicolon_trail _ c.trailSpace, List.append_assoc, split_space_append c.leadSpace]
    rfl
  rw [closeName0, line, closeTokens_append c.notClosed, htail]

/-- What is read has no white space. -/
theorem unspace_of_closeName0 (c : DeclClosing) {d : Str} (h : closeName0 c.line = some d) :
    unspace d = d := by
  rw [c.closeName0_line] at h
  obtain ⟨t, ht, rfl⟩ := Option.map_eq_some_iff.1 h
  have hmem : t ∈ c.tokens := by
    have hmem := List.mem_of_mem_head? ht
    split_ifs at hmem
    · exact List.mem_of_mem_drop hmem
    · exact hmem
  apply unspace_eq_self
  intro a ha
  exact (isToken_of_mem_split hmem).2 a ((nameZero_sublist t).subset ha)

end DeclClosing

section Tokens

variable (d : SpacedDeclarator) {w gap : Str}

/-- A declarator that comes first is read whole exactly if it is one token with the `;`. -/
theorem head_split_text_iff (hgap : ∀ a ∈ gap, isSpace a = true) :
    (split (d.text ++ gap ++ [';'])).head?.map nameZero = some (unspace d.text) ↔
      (∀ a ∈ d.text, isSpace a = false) ∧ gap = [] := by
  obtain ⟨a, r, htext, ha⟩ := d.exists_text_eq
  have hA : d.text ++ gap = a :: (r ++ gap) := by rw [htext]; rfl
  have hsemi : ';' ∉ d.text ++ gap := by
    rw [List.mem_append, not_or]
    exact ⟨d.not_mem_text, fun hm => absurd (hgap _ hm) (by decide)⟩
  have hunspace : unspace (d.text ++ gap) = unspace d.text := by
    rw [unspace_append, unspace_of_space hgap, List.append_nil]
  have hcompact : (∀ c ∈ d.text ++ gap, isSpace c = false) ↔
      (∀ c ∈ d.text, isSpace c = false) ∧ gap = [] := by
    rw [List.forall_mem_append]
    apply and_congr_right
    intro _
    constructor
    · intro h
      apply List.eq_nil_iff_forall_not_mem.2
      intro c hc
      have hc' := h c hc
      rw [hgap c hc] at hc'
      exact absurd hc' (by decide)
    · rintro rfl
      simp
  rw [← hcompact, ← length_split_eq_one_iff ha hA, ← hunspace]
  constructor
  · intro h
    by_contra hlen
    obtain ⟨t, ht, heq⟩ := Option.map_eq_some_iff.1 h
    have hlt := length_nameZero_lt_of_mem hlen (List.mem_of_mem_head? ht)
    rw [heq] at hlt
    omega
  · intro h
    exact head_split_of_length_eq_one hsemi h

/-- Behind the marker the declarator comes first again. -/
theorem split_before (hw : ∀ a ∈ w, isSpace a = true) (hne : w ≠ []) (s : Str) :
    split ("STRUCT_PACKED".toList ++ (w ++ s)) = "STRUCT_PACKED".toList :: split s := by
  obtain ⟨a, w', rfl⟩ := List.exists_cons_of_ne_nil hne
  rw [List.cons_append, split_token_append isToken_packed (hw a List.mem_cons_self),
    split_space_append fun b hb => hw b (List.mem_cons_of_mem _ hb)]

/-- Behind white space the marker starts a token. -/
theorem split_after (hw : ∀ a ∈ w, isSpace a = true) (hne : w ≠ []) (s gap : Str) :
    split (s ++ (w ++ "STRUCT_PACKED".toList) ++ gap ++ [';'])
      = split s ++ split ("STRUCT_PACKED".toList ++ (gap ++ [';'])) := by
  have hstarts : StartsGap (w ++ ("STRUCT_PACKED".toList ++ (gap ++ [';']))) := by
    obtain ⟨b, w', rfl⟩ := List.exists_cons_of_ne_nil hne
    intro c hc
    rw [← Option.some.inj hc]
    exact hw b List.mem_cons_self
  rw [← split_space_append hw ("STRUCT_PACKED".toList ++ (gap ++ [';'])),
    ← split_append_of_startsGap s hstarts]
  simp only [List.append_assoc]

/-- A marker behind the declarator, with white space between them: the marker is read. -/
theorem head_split_after_iff (hstars : d.stars = []) (hw : ∀ a ∈ w, isSpace a = true)
    (hne : w ≠ []) (hgap : ∀ a ∈ gap, isSpace a = true) :
    ((split (d.text ++ (w ++ "STRUCT_PACKED".toList) ++ gap ++ [';'])).drop 1).head?.map nameZero
      = some (unspace d.text) ↔
        d.text = if gap = [] then "STRUCT_PACKED".toList else "STRUCT_PACKE".toList := by
  rw [split_after hw hne]
  cases hsplit : split d.text with
  | nil => exact absurd hsplit d.split_text_ne_nil
  | cons t ts =>
    cases ts with
    | nil =>
      show (split ("STRUCT_PACKED".toList ++ (gap ++ [';']))).head?.map nameZero = _ ↔ _
      by_cases hgapnil : gap = []
      · -- the token is the marker with the `;`
        subst hgapnil
        have hread : (split ("STRUCT_PACKED".toList ++ ([] ++ [';']))).head?.map nameZero
            = some "STRUCT_PACKED".toList := by decide
        rw [hread, if_pos rfl]
        exact d.some_eq_unspace_text_iff hstars (by decide) (by simp [isSpace])
      · -- the token is the marker, and it has no `;`
        have hcut : nameZero "STRUCT_PACKED".toList = "STRUCT_PACKE".toList := by decide
        rw [split_before hgap hgapnil, List.head?_cons, Option.map_some, hcut, if_neg hgapnil]
        exact d.some_eq_unspace_text_iff hstars (by decide) (by simp [isSpace])
    | cons t' ts =>
      -- the token is one of several of the declarator
      have hlt : t'.length < (unspace d.text).length := by
        rw [← flatten_split_eq_unspace]
        apply length_lt_flatten_of_mem (fun u hu => (isToken_of_mem_split hu).1)
        · rw [hsplit]
          simp
        · rw [hsplit]
          simp
      show some (nameZero t') = _ ↔ _
      constructor
      · intro h
        have hle : (nameZero t').length ≤ t'.length := (nameZero_sublist t').length_le
        rw [Option.some.inj h] at hle
        omega
      · intro h
        have hone : (split d.text).length = 1 := by
          rw [h]
          split_ifs <;> decide
        rw [hsplit] at hone
        exact absurd hone (by simp)

/-- A marker right behind the brackets: what is read is not the declarator. -/
theorem head_split_glued_ne (hsuffixes : d.suffixes ≠ [])
    (hgap : ∀ a ∈ gap, isSpace a = true) :
    ((split (d.text ++ ([] ++ "STRUCT_PACKED".toList) ++ gap ++ [';'])).drop 1).head?.map nameZero
      ≠ some (unspace d.text) := by
  intro h
  obtain ⟨x, hx⟩ := d.exists_text_eq_concat hsuffixes
  have hunspace : unspace d.text = unspace x ++ [']'] := by
    rw [hx, unspace_append]
    rfl
  have hflatten := flatten_split_eq_unspace
    (d.text ++ ([] ++ "STRUCT_PACKED".toList) ++ gap ++ [';'])
  have hbracket : ']' ∉ "STRUCT_PACKED;".toList := by decide
  have hrest : unspace (d.text ++ ([] ++ "STRUCT_PACKED".toList) ++ gap ++ [';'])
      = unspace x ++ [']'] ++ "STRUCT_PACKED;".toList := by
    rw [unspace_append, unspace_append, unspace_append, unspace_of_space hgap, hunspace,
      List.append_nil, List.append_assoc]
    rfl
  rw [hrest] at hflatten
  cases hsplit : split (d.text ++ ([] ++ "STRUCT_PACKED".toList) ++ gap ++ [';']) with
  | nil =>
    rw [hsplit] at h
    exact absurd h (by simp)
  | cons t ts =>
    cases ts with
    | nil =>
      rw [hsplit] at h
      exact absurd h (by simp)
    | cons t' ts =>
      -- the second token would start with the declarator, of which the first has a part
      have hread : nameZero t' = unspace d.text := by
        rw [hsplit] at h
        exact Option.some.inj h
      have hprefix : nameZero t' <+: t' := sliceTo_isPrefix t' _
      obtain ⟨y, hy⟩ := hprefix
      have ht : t ≠ [] := (isToken_of_mem_split (by rw [hsplit]; exact List.mem_cons_self)).1
      rw [hread, hunspace] at hy
      rw [hsplit, List.flatten_cons, List.flatten_cons, ← hy, List.append_assoc] at hflatten
      exact append_append_ne ht hbracket hflatten

end Tokens

namespace DeclClosing

/-- The marker is found in the line. -/
theorem hasText_line (c : DeclClosing) (h : c.marker ≠ .absent) :
    hasText c.line "STRUCT_PACKED".toList = true := by
  unfold hasText line
  rw [decide_eq_true_iff]
  cases hm : c.marker with
  | absent => exact absurd hm h
  | before w =>
    unfold Marker.attach
    generalize "STRUCT_PACKED".toList = t
    exact ⟨c.pre ++ '}' :: c.lead, w ++ c.declarator.text ++ c.gap ++ ';' :: c.trail, by simp⟩
  | after w =>
    unfold Marker.attach
    generalize "STRUCT_PACKED".toList = t
    exact ⟨c.pre ++ '}' :: (c.lead ++ c.declarator.text ++ w), c.gap ++ ';' :: c.trail, by simp⟩

/-- **What is read of a declarator without `*`.** -/
theorem closeName0_line_iff (c : DeclClosing) (hstars : c.declarator.stars = [])
    (hpresent : hasText c.line "STRUCT_PACKED".toList = c.marker.present) :
    closeName0 c.line = some (unspace c.declarator.text) ↔
      (∀ a ∈ c.declarator.text, isSpace a = false) ∧ c.Found := by
  have hapart := c.apart
  rw [c.closeName0_line, hpresent]
  unfold tokens Found
  cases hm : c.marker with
  | absent =>
    rw [hm] at hpresent
    exact (head_split_text_iff c.declarator c.gapSpace).trans
      (and_congr_right fun _ => (and_iff_left hpresent).symm)
  | before w =>
    rw [hm] at hapart
    have hne : w ≠ [] := hapart.2.resolve_right fun hne => hne hstars
    have htokens : split ((Marker.before w).attach c.declarator.text ++ c.gap ++ [';'])
        = "STRUCT_PACKED".toList :: split (c.declarator.text ++ c.gap ++ [';']) := by
      rw [← split_before hapart.1 hne]
      unfold Marker.attach
      simp only [List.append_assoc]
    rw [htokens]
    exact head_split_text_iff c.declarator c.gapSpace
  | after w =>
    rw [hm] at hapart
    show ((split (c.declarator.text ++ (w ++ "STRUCT_PACKED".toList) ++ c.gap ++ [';'])).drop
      1).head?.map nameZero = _ ↔ _
    by_cases hw : w = []
    · subst hw
      have hsuffixes := hapart.2.resolve_left fun hne => hne rfl
      constructor
      · intro h
        exact absurd h (head_split_glued_ne c.declarator hsuffixes c.gapSpace)
      · rintro ⟨-, hne, -⟩
        exact absurd rfl hne
    · rw [head_split_after_iff c.declarator hstars hapart.1 hw c.gapSpace]
      constructor
      · intro htext
        refine ⟨?_, hw, htext⟩
        rw [htext]
        split_ifs <;> simp [isSpace]
      · rintro ⟨-, -, htext⟩
        exact htext

/-- **The three fields that only depend on the closing line.** -/
theorem tight_iff (c : DeclClosing) :
    (∃ d, closeName0 c.line = some d ∧ unspace d = unspace c.declarator.text ∧
      bareName d = c.declarator.id ∧
        hasText c.line "STRUCT_PACKED".toList = c.marker.present) ↔ c.Tight := by
  constructor
  · rintro ⟨d, hread, hname0, hname, hpresent⟩
    rw [c.unspace_of_closeName0 hread] at hname0
    subst hname0
    have hstars := c.declarator.bareName_unspace_text_iff.1 hname
    obtain ⟨hcompact, hfound⟩ := (c.closeName0_line_iff hstars hpresent).1 hread
    exact ⟨hstars, hcompact, hfound⟩
  · intro h
    have hpresent : hasText c.line "STRUCT_PACKED".toList = c.marker.present := by
      by_cases hm : c.marker = .absent
      · have hfound := h.found
        unfold Found at hfound
        rw [hm] at hfound ⊢
        exact hfound.2
      · rw [c.hasText_line hm]
        cases hm' : c.marker <;> simp [Marker.present, hm'] at hm ⊢
    have hread := (c.closeName0_line_iff h.direct hpresent).2 ⟨h.compact, h.found⟩
    exact ⟨_, hread, unspace_unspace _, c.declarator.bareName_unspace_text_iff.2 h.direct,
      hpresent⟩

/-- The fields of the object that `last_line` leaves. -/
theorem reads_toS_iff (c : DeclClosing) (h : Hoist) (start stop : ℕ) (o txt : Str) :
    c.Reads o (h.toS start stop o txt) ↔
      (∃ d, h.name0 = some d ∧ unspace d = unspace c.declarator.text ∧
        bareName d = c.declarator.id ∧ h.packed = c.marker.present) ∧
      (openDecl o = none → IsCIdent h.tag) := by
  constructor
  · rintro ⟨hname0, hname, hpacked, hdecl⟩
    obtain ⟨d, hd, hd'⟩ := Option.map_eq_some_iff.1 hname0
    have hname' : h.name0.map bareName = some c.declarator.id := hname
    have hd0 : h.name0 = some d := hd
    rw [hd0] at hname'
    refine ⟨⟨d, hd0, hd', Option.some.inj hname', hpacked⟩, fun hanonymous => ?_⟩
    obtain ⟨tag, htag, hident⟩ := hdecl hanonymous
    rw [Option.some.inj htag]
    exact hident
  · rintro ⟨⟨d, hd, hname0, hname, hpacked⟩, htag⟩
    constructor
    · show h.name0.map unspace = _
      rw [hd, Option.map_some, hname0]
    · show h.name0.map bareName = _
      rw [hd, Option.map_some, hname]
    · exact hpacked
    · intro hanonymous
      exact ⟨h.tag, rfl, htag hanonymous⟩

/-- **When `last_line` reads a declarator.**  For every opening line that `is_def` and every
closing line with one declarator: `last_line` sets the fields as their comments say exactly
if the line is tight and, for a block without a tag, the parent has a tag that is made of
letters, digits and underscores. -/
theorem reads_iff (c : DeclClosing) {o : Str} (ho : isDef o = true) (start tell : ℕ) (txt : Str)
    (parent : Option Str) :
    (∃ n, ((S.init start o).append txt).lastLine tell c.line parent = .ok n ∧ c.Reads o n) ↔
      c.Tight ∧ (openDecl o = none → ∃ p, parent = some p ∧ IdentChars p) := by
  obtain ⟨kw, hkw⟩ : ∃ kw, openType o = some kw := by
    rw [isDef_eq_isSome_openType] at ho
    exact Option.isSome_iff_exists.1 ho
  rw [lastLine_init, ← c.tight_iff]
  unfold hoistOf
  rw [hkw]
  dsimp only
  cases hdecl : openDecl o with
  | some tag =>
    -- the block keeps its tag
    constructor
    · rintro ⟨n, hn, hreads⟩
      rw [← Except.ok.inj hn, reads_toS_iff] at hreads
      exact ⟨hreads.1, by simp⟩
    · rintro ⟨hread, -⟩
      refine ⟨_, rfl, (c.reads_toS_iff _ _ _ _ _).2 ⟨hread, ?_⟩⟩
      rw [hdecl]
      simp
  | none =>
    -- the tag is made of the name and the tag of the parent
    constructor
    · rintro ⟨n, hn, hreads⟩
      cases hname : closeName0 c.line with
      | none => simp [hname] at hn
      | some d =>
        cases parent with
        | none => simp [hname] at hn
        | some p =>
          rw [hname] at hn
          simp only [Option.map_some] at hn
          rw [← Except.ok.inj hn, reads_toS_iff] at hreads
          obtain ⟨⟨d', hd', hname0, hbare, hpacked⟩, htag⟩ := hreads
          obtain rfl := Option.some.inj hd'
          refine ⟨⟨d, rfl, hname0, hbare, hpacked⟩, fun _ => ⟨p, rfl, ?_⟩⟩
          have hident := htag hdecl
          rw [hbare] at hident
          exact (isCIdent_genDecl_iff c.declarator.ident kw).1 hident
    · rintro ⟨⟨d, hname, hname0, hbare, hpacked⟩, hparent⟩
      obtain ⟨p, rfl, hchars⟩ := hparent rfl
      rw [hname]
      simp only [Option.map_some]
      refine ⟨_, rfl, (c.reads_toS_iff _ _ _ _ _).2 ⟨⟨d, rfl, hname0, hbare, hpacked⟩, ?_⟩⟩
      intro _
      rw [hbare]
      exact (isCIdent_genDecl_iff c.declarator.ident kw).2 hchars

end DeclClosing

/-! ## Two lines -/

/-- The declarator `b[3]`. -/
def arrayDeclarator : SpacedDeclarator where
  stars := []
  id := "b".toList
  suffixes := [([], "3".toList)]
  ident := by simp [IsCIdent, IsIdent, Char.isAlphanum, Char.isDigit]
  starSpace := by simp
  suffixSpace := by simp
  bracket := by simp

/-- The declarator `*p`. -/
def pointerDeclarator : SpacedDeclarator where
  stars := [[]]
  id := "p".toList
  suffixes := []
  ident := by simp [IsCIdent, IsIdent, Char.isAlphanum, Char.isDigit]
  starSpace := by simp
  suffixSpace := by simp
  bracket := by simp

/-- The line `} STRUCT_PACKED b[3];`. -/
def packedClosing : DeclClosing where
  pre := "\t".toList
  lead := " ".toList
  declarator := arrayDeclarator
  marker := .before " ".toList
  gap := []
  trail := "\n".toList
  notClosed := by decide
  leadSpace := by simp [isSpace]
  gapSpace := by simp
  trailSpace := isSpace_newline
  apart := by simp [Marker.Apart, isSpace]

/-- The line `} *p;`. -/
def pointerClosing : DeclClosing where
  pre := "\t".toList
  lead := " ".toList
  declarator := pointerDeclarator
  marker := .absent
  gap := []
  trail := "\n".toList
  notClosed := by decide
  leadSpace := by simp [isSpace]
  gapSpace := by simp
  trailSpace := isSpace_newline
  apart := trivial

theorem reads_packedClosing : ∃ n,
    ((S.init 0 "struct \x7b\n".toList).append []).lastLine 0 packedClosing.line
      (some "a".toList) = .ok n ∧ packedClosing.Reads "struct \x7b\n".toList n := by
  have htight : packedClosing.Tight := by
    refine ⟨rfl, ?_, rfl⟩
    show ∀ a ∈ "b[3]".toList, isSpace a = false
    simp [isSpace]
  have hparent : IdentChars "a".toList := by simp [IdentChars, Char.isAlphanum]
  exact (packedClosing.reads_iff (by decide) 0 0 [] (some "a".toList)).2
    ⟨htight, fun _ => ⟨_, rfl, hparent⟩⟩

/-- Of the other one the name is `*p`. -/
theorem not_reads_pointerClosing :
    ¬ ∀ (c : DeclClosing) (o : Str), isDef o = true → ∀ (start tell : ℕ) (txt : Str)
      (parent : Option Str), (openDecl o = none → ∃ p, parent = some p ∧ IdentChars p) →
        ∃ n, ((S.init start o).append txt).lastLine tell c.line parent = .ok n ∧
          c.Reads o n := by
  intro h
  have htag : openDecl "struct t \x7b\n".toList ≠ none := by decide
  obtain ⟨n, hn, hreads⟩ := h pointerClosing "struct t \x7b\n".toList (by decide) 0 0 [] none
    fun hnone => absurd hnone htag
  have hname : (((S.init 0 "struct t \x7b\n".toList).append []).lastLine 0 pointerClosing.line
      none).map S.name = .ok (some "*p".toList) := rfl
  rw [hn] at hname
  have hstar : n.name = some "*p".toList := Except.ok.inj hname
  rw [hreads.name] at hstar
  exact absurd hstar (by decide)

end StructEnum
