/-
# Declarators and their semicolon

What `last_line` reads from a closing line on which declarators and a `;` follow the `}`.
It cuts the first token at its `;`, and where the token has none it cuts off its last
character.  So it reads the declarators whole exactly if they and the `;` are one token;
otherwise what it reads is too short (`closeName0_spec`).
-/
import LeakimMisc.StructEnumHoist
import LeakimMisc.ListPieces

open PyStr Pieces

namespace StructEnum

/-! ## Texts without their white space -/

/-- A text without its white space. -/
def unspace (s : Str) : Str := s.filter fun c => !isSpace c

theorem flatten_split_eq_unspace (s : Str) : (split s).flatten = unspace s := flatten_split s

theorem unspace_append (s t : Str) : unspace (s ++ t) = unspace s ++ unspace t :=
  List.filter_append _ _

theorem unspace_of_space {w : Str} (h : ∀ c ∈ w, isSpace c = true) : unspace w = [] :=
  List.filter_eq_nil_iff.2 fun c hc => by simp [h c hc]

theorem unspace_eq_self {s : Str} (h : ∀ c ∈ s, isSpace c = false) : unspace s = s :=
  List.filter_eq_self.2 fun c hc => by simp [h c hc]

theorem unspace_eq_nil_iff {s : Str} : unspace s = [] ↔ ∀ c ∈ s, isSpace c = true := by
  unfold unspace
  rw [List.filter_eq_nil_iff]
  apply forall₂_congr
  intro c _
  simp

theorem unspace_unspace (s : Str) : unspace (unspace s) = unspace s := by
  apply unspace_eq_self
  intro c hc
  simpa using (List.mem_filter.1 hc).2

theorem unspace_flatten (ls : List Str) : unspace ls.flatten = (ls.map unspace).flatten := by
  unfold unspace
  rw [List.filter_flatten]

theorem length_unspace_le (s : Str) : (unspace s).length ≤ s.length := List.length_filter_le _ _

/-- Tabs at the start of a line are white space. -/
theorem TabsBefore.unspace_eq {l' l : Str} (h : TabsBefore l' l) : unspace l' = unspace l := by
  rw [← flatten_split_eq_unspace, ← flatten_split_eq_unspace, h.split_eq]

theorem unspace_map_indentOne (ls : List Str) :
    unspace (ls.map indentOne).flatten = unspace ls.flatten := by
  rw [unspace_flatten, unspace_flatten, List.map_map]
  congr 1
  apply List.map_congr_left
  intro l _
  exact (tabsBefore_indentOne l).unspace_eq

/-! ## The first token up to its semicolon -/

/-- The cut at the `;` never keeps the whole token. -/
theorem length_nameZero_lt {f : Str} (h : f ≠ []) : (nameZero f).length < f.length := by
  have hpos : 0 < f.length := List.length_pos_iff.2 h
  unfold nameZero
  by_cases hsemi : ';' ∈ f
  · obtain ⟨r, hr, -⟩ := takeWhile_append_cons_of_mem hsemi
    have hlen := congrArg List.length hr
    rw [List.length_append, List.length_cons] at hlen
    rw [sliceTo_find_of_mem hsemi]
    omega
  · -- `find` returns `-1`, and the slice loses the last character
    rw [find_of_not_mem hsemi]
    show (sliceTo f (-1)).length < f.length
    rw [sliceTo, if_pos (by omega), List.length_take]
    omega

section Semicolon

variable {A : Str}

theorem flatten_split_semicolon (A : Str) :
    (split (A ++ [';'])).flatten = unspace A ++ [';'] := by
  rw [flatten_split_eq_unspace, unspace_append]
  rfl

/-- The declarators and the `;` are one token: it is cut at the `;`. -/
theorem head_split_of_length_eq_one (hA : ';' ∉ A) (h : (split (A ++ [';'])).length = 1) :
    (split (A ++ [';'])).head?.map nameZero = some (unspace A) := by
  obtain ⟨t, ht⟩ := List.length_eq_one_iff.1 h
  have htext : t = unspace A ++ [';'] := by
    rw [← flatten_split_semicolon, ht, List.flatten_singleton]
  have hno : ';' ∉ unspace A := fun hm => hA (List.mem_of_mem_filter hm)
  rw [ht, htext, List.head?_cons, Option.map_some, nameZero_append_semicolon hno]

/-- They are several tokens: whichever is cut, too little is left. -/
theorem length_nameZero_lt_of_mem (h : (split (A ++ [';'])).length ≠ 1) {t : Str}
    (ht : t ∈ split (A ++ [';'])) : (nameZero t).length < (unspace A).length := by
  have htokens : ∀ t ∈ split (A ++ [';']), t ≠ [] := fun t ht => (isToken_of_mem_split ht).1
  have hpos : 0 < (split (A ++ [';'])).length := List.length_pos_of_mem ht
  have hlt := length_lt_flatten_of_mem htokens (by omega) ht
  rw [flatten_split_semicolon, List.length_append, List.length_singleton] at hlt
  have hcut := length_nameZero_lt (htokens t ht)
  omega

/-- Declarators that start without white space are one token with the `;` if they have no
white space at all. -/
theorem length_split_eq_one_iff {a : Char} {r : Str} (ha : isSpace a = false)
    (hA : A = a :: r) :
    (split (A ++ [';'])).length = 1 ↔ ∀ c ∈ A, isSpace c = false := by
  constructor
  · intro h
    obtain ⟨t, ht⟩ := List.length_eq_one_iff.1 h
    have htoken : IsToken t := isToken_of_mem_split (by rw [ht]; exact List.mem_cons_self)
    obtain ⟨w, y, htext, hw, hy⟩ := eq_append_of_split_eq_cons ht
    have hyspace : ∀ c ∈ y, isSpace c = true := by
      rw [← unspace_eq_nil_iff, ← flatten_split_eq_unspace, hy]
      rfl
    -- white space stands at neither end
    have hwnil : w = [] := by
      cases w with
      | nil => rfl
      | cons b w =>
        rw [hA] at htext
        have hab : a = b := (List.cons.inj htext).1
        rw [hab, hw b List.mem_cons_self] at ha
        exact absurd ha (by decide)
    have hynil : y = [] := by
      rcases List.eq_nil_or_concat y with rfl | ⟨z, b, rfl⟩
      · rfl
      · rw [List.concat_eq_append, ← List.append_assoc, ← List.append_assoc] at htext
        have hb : ';' = b := List.singleton_inj.1 (List.append_inj' htext rfl).2
        have hspace := hyspace b (by simp)
        rw [← hb] at hspace
        exact absurd hspace (by decide)
    rw [hwnil, hynil, List.nil_append, List.append_nil] at htext
    intro c hc
    exact htoken.2 c (by rw [← htext]; exact List.mem_append_left _ hc)
  · intro h
    have htoken : IsToken (A ++ [';']) := by
      refine ⟨by simp, fun c hc => ?_⟩
      rcases List.mem_append.1 hc with hc | hc
      · exact h c hc
      · rw [List.mem_singleton.1 hc]
        rfl
    rw [split_of_token htoken]
    rfl

end Semicolon

/-! ## The closing line -/

/-- The tokens of a closing line after its `}`, with the text behind it. -/
theorem closeTokens_append {pre : Str} (hpre : '}' ∉ pre) (tail : Str) :
    closeTokens (pre ++ '}' :: tail)
      = if hasText (pre ++ '}' :: tail) "STRUCT_PACKED".toList then (split tail).drop 1
        else split tail := by
  have htail : ((pre ++ '}' :: tail).dropWhile (· != '}')).tail = tail := by
    rw [List.dropWhile_append_of_pos]
    · simp
    · intro c hc
      simpa using ne_of_mem_of_not_mem hc hpre
  rw [closeTokens_eq (by simp), htail]

/-- The newline behind the `;` is white space. -/
theorem isSpace_newline : ∀ c ∈ "\n".toList, isSpace c = true := by simp [isSpace]

/-- White space after the `;` is no token. -/
theorem split_semicolon_trail (A : Str) {trail : Str} (h : ∀ c ∈ trail, isSpace c = true) :
    split (A ++ ';' :: trail) = split (A ++ [';']) := by
  rw [← split_append_spaces h (A ++ [';'])]
  simp

/-- **What `last_line` reads of the declarators `A`**: all of them, if the line is not packed
and they are one token with the `;`; otherwise nothing, or too little. -/
theorem closeName0_spec {c pre A trail : Str} (hc : c = pre ++ '}' :: (A ++ ';' :: trail))
    (hpre : '}' ∉ pre) (hA : ';' ∉ A) (htrail : ∀ a ∈ trail, isSpace a = true) :
    (hasText c "STRUCT_PACKED".toList = false ∧ (split (A ++ [';'])).length = 1 →
      closeName0 c = some (unspace A)) ∧
    (¬ (hasText c "STRUCT_PACKED".toList = false ∧ (split (A ++ [';'])).length = 1) →
      ∀ d, closeName0 c = some d → d.length < (unspace A).length) := by
  have htokens := closeTokens_append hpre (A ++ ';' :: trail)
  rw [← hc, split_semicolon_trail A htrail] at htokens
  constructor
  · rintro ⟨hunpacked, hone⟩
    rw [closeName0, htokens, hunpacked]
    exact head_split_of_length_eq_one hA hone
  · intro hnot d hd
    rw [closeName0, htokens] at hd
    obtain ⟨t, ht, rfl⟩ := Option.map_eq_some_iff.1 hd
    have hmem := List.mem_of_mem_head? ht
    split_ifs at hmem with hpacked
    · -- the first token is dropped, so there is another one
      have hlen : (split (A ++ [';'])).length ≠ 1 := by
        have hpos := List.length_pos_of_mem hmem
        rw [List.length_drop] at hpos
        omega
      exact length_nameZero_lt_of_mem hlen (List.mem_of_mem_drop hmem)
    · refine length_nameZero_lt_of_mem (fun hone => hnot ⟨?_, hone⟩) hmem
      simpa using hpacked

end StructEnum
