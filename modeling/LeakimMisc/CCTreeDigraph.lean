/-
# The digraphs of compressed cscope databases

`src/shell/.vim/plugin/cctree.vim`: a compressed database writes some pairs of characters as
one character above 127.  The plugin has two functions that undo this, one character by
character (`digraphUncompressSlow`) and one with a substitution for each character above 127
(`digraphUncompressFast`, the one it uses), and one that does it (`digraphCompress`).

The strings are those of an 8-bit encoding, which the plugin sets before it uncompresses.
-/
import LeakimMisc.ListPieces

namespace CCTree

/-- A string of Vim in an 8-bit encoding. -/
abbrev Text := List UInt8

/-- The text of a string literal. -/
def text (s : String) : Text := s.toList.map fun c => c.toNat.toUInt8

/-! ## The functions -/

/-- `s:dichar1`. -/
def dichar1 : Text := text " teisaprnl(of)=c"

/-- `s:dichar2`. -/
def dichar2 : Text := text " tnerpla"

/-- `s:Digraph_DictTable_Init`. -/
def digraphDictTableInit : List Text :=
  dichar1.flatMap fun dc1 => dichar2.map fun dc2 => [dc1, dc2]

/-- What one character stands for.  An index that the table does not have is an error, and
nothing is appended. -/
def undigraph (dicttable : List Text) (b : UInt8) : Text :=
  if 128 ≤ b then dicttable.getD (b.toNat - 128) [] else [b]

/-- `s:Digraph_Uncompress_Slow`. -/
def digraphUncompressSlow (value : Text) (dicttable : List Text) : Text :=
  value.flatMap (undigraph dicttable)

/-- `split(a:value, '[^\d128-\d255]\{}')`: the pattern also matches the empty text, so that the
parts are the single characters above 127. -/
def dicharList (value : Text) : List UInt8 := value.filter fun b => 128 ≤ b

/-- `substitute(retval, '\C'.adichar, sub, "g")`; `sub` has no character that is special in a
substitution. -/
def substitute (retval : Text) (adichar : UInt8) (sub : Text) : Text :=
  retval.flatMap fun b => if b = adichar then sub else [b]

/-- `s:Digraph_Uncompress_Fast`. -/
def digraphUncompressFast (value : Text) (dicttable : List Text) : Text :=
  (dicharList value).foldl
    (fun retval adichar =>
      substitute retval adichar (dicttable.getD (adichar.toNat - 128) [])) value

/-- `stridx` for the text `a:value[index]`, which is empty behind the end; `none` is -1. -/
def stridx (haystack : Text) : Option UInt8 → Option ℕ
  | none => some 0
  | some b => haystack.idxOf? b

/-- `s:Digraph_Compress`; it does not use its table. -/
def digraphCompress : Text → Text
  | [] => []
  | b :: rest =>
    match stridx dichar1 (some b) with
    | none => b :: digraphCompress rest
    | some dc1 =>
      match stridx dichar2 rest.head? with
      | none => b :: digraphCompress rest
      | some dc2 => (128 + dc1 * 8 + dc2).toUInt8 :: digraphCompress rest.tail
termination_by value => value.length
decreasing_by all_goals simp_wf; try omega

/-! ## The table -/

theorem lt_of_mem_dichar1 {b : UInt8} (h : b ∈ dichar1) : b < 128 :=
  (by decide +kernel : ∀ b ∈ dichar1, b < 128) b h

theorem lt_of_mem_dichar2 {b : UInt8} (h : b ∈ dichar2) : b < 128 :=
  (by decide +kernel : ∀ b ∈ dichar2, b < 128) b h

/-- The table has no character above 127. -/
theorem lt_of_mem_table {i : ℕ} {b : UInt8} (h : b ∈ digraphDictTableInit.getD i []) :
    b < 128 := by
  have hrow : ∀ w ∈ digraphDictTableInit, ∀ b ∈ w, b < 128 := by
    intro w hw b hb
    obtain ⟨dc1, h1, hw⟩ := List.mem_flatMap.mp hw
    obtain ⟨dc2, h2, rfl⟩ := List.mem_map.mp hw
    rcases List.mem_pair.mp hb with rfl | rfl
    · exact lt_of_mem_dichar1 h1
    · exact lt_of_mem_dichar2 h2
  rw [List.getD_eq_getElem?_getD] at h
  cases hi : digraphDictTableInit[i]? with
  | none => simp [hi] at h
  | some w =>
    rw [hi] at h
    exact hrow w (List.mem_of_getElem? hi) b h

/-- The character that stands for a pair. -/
def digraph (dc1 dc2 : ℕ) : UInt8 := (128 + dc1 * 8 + dc2).toUInt8

theorem toNat_digraph {dc1 dc2 : ℕ} (h1 : dc1 < 16) (h2 : dc2 < 8) :
    (digraph dc1 dc2).toNat = 128 + dc1 * 8 + dc2 := by
  show (128 + dc1 * 8 + dc2) % 256 = _
  omega

/-- **The character for a pair stands for it.** -/
theorem undigraph_digraph {dc1 dc2 : ℕ} {a b : UInt8} (h1 : dichar1.idxOf? a = some dc1)
    (h2 : dichar2.idxOf? b = some dc2) :
    undigraph digraphDictTableInit (digraph dc1 dc2) = [a, b] := by
  obtain ⟨hlt1, ha, -⟩ := List.idxOf?_eq_some_iff.mp h1
  obtain ⟨hlt2, hb, -⟩ := List.idxOf?_eq_some_iff.mp h2
  have ha : dichar1[dc1]? = some a := by
    rw [List.getElem?_eq_getElem hlt1, ha]
  have hb : dichar2[dc2]? = some b := by
    rw [List.getElem?_eq_getElem hlt2, hb]
  have hnat := toNat_digraph hlt1 hlt2
  have hhigh : 128 ≤ digraph dc1 dc2 := by
    rw [UInt8.le_iff_toNat_le, hnat]
    show 128 ≤ 128 + dc1 * 8 + dc2
    omega
  have hindex : 128 + dc1 * 8 + dc2 - 128 = dc1 * dichar2.length + dc2 := by
    show _ = dc1 * 8 + dc2
    omega
  rw [undigraph, if_pos hhigh, hnat, hindex, digraphDictTableInit, List.getD_eq_getElem?_getD,
    Pieces.getElem?_flatMap_map hlt2, ha, Option.bind_some, hb]
  rfl

/-- **A character above 127 stands for a pair.** -/
theorem undigraph_of_le {b : UInt8} (h : 128 ≤ b) :
    ∃ a a', undigraph digraphDictTableInit b = [a, a'] := by
  have hlow : 128 ≤ b.toNat := UInt8.le_iff_toNat_le.mp h
  have hhigh := b.toNat_lt
  have hlt1 : (b.toNat - 128) / 8 < dichar1.length := by
    show _ < 16
    omega
  have hlt2 : (b.toNat - 128) % 8 < dichar2.length := by
    show _ < 8
    omega
  have hindex : b.toNat - 128 =
      (b.toNat - 128) / 8 * dichar2.length + (b.toNat - 128) % 8 := by
    show _ = _ * 8 + _
    omega
  obtain ⟨a, ha⟩ : ∃ a, dichar1[(b.toNat - 128) / 8]? = some a :=
    ⟨_, List.getElem?_eq_getElem hlt1⟩
  obtain ⟨a', ha'⟩ : ∃ a', dichar2[(b.toNat - 128) % 8]? = some a' :=
    ⟨_, List.getElem?_eq_getElem hlt2⟩
  refine ⟨a, a', ?_⟩
  rw [undigraph, if_pos h, hindex, digraphDictTableInit, List.getD_eq_getElem?_getD,
    Pieces.getElem?_flatMap_map hlt2, ha, Option.bind_some, ha']
  rfl

/-! ## The fast function -/

/-- Several substitutions are one, as what is put in is not substituted again. -/
theorem foldl_substitute {f : UInt8 → Text} {ds : Text}
    (hf : ∀ d, ∀ b ∈ f d, b ∉ ds) (value : Text) :
    ds.foldl (fun retval d => substitute retval d (f d)) value =
      value.flatMap fun b => if b ∈ ds then f b else [b] := by
  induction ds generalizing value with
  | nil => simp
  | cons d ds ih =>
    have hlater : ∀ d', ∀ b ∈ f d', b ∉ ds :=
      fun d' b hb hmem => hf d' b hb (List.mem_cons_of_mem _ hmem)
    rw [List.foldl_cons, ih hlater, substitute, List.flatMap_assoc]
    apply List.flatMap_congr
    intro b _
    by_cases hb : b = d
    · subst hb
      rw [if_pos rfl, if_pos List.mem_cons_self]
      have hkept : ∀ c ∈ f b, (if c ∈ ds then f c else [c]) = [c] :=
        fun c hc => if_neg (hlater b c hc)
      rw [List.flatMap_congr hkept]
      simp
    · rw [if_neg hb, List.flatMap_singleton]
      simp [hb]

/-- The fast function puts the text of every character in its place. -/
theorem digraphUncompressFast_eq_flatMap (value : Text) :
    digraphUncompressFast value digraphDictTableInit =
      value.flatMap (undigraph digraphDictTableInit) := by
  rw [digraphUncompressFast, foldl_substitute]
  · apply List.flatMap_congr
    intro b hb
    rw [undigraph, dicharList]
    simp [hb]
  · intro d b hb hmem
    have hhigh : 128 ≤ b := by simpa using (List.mem_filter.mp hmem).2
    exact absurd (lt_of_mem_table hb) (UInt8.not_lt.mpr hhigh)

/-- **The fast function is the slow one.** -/
theorem digraphUncompressFast_eq (value : Text) :
    digraphUncompressFast value digraphDictTableInit =
      digraphUncompressSlow value digraphDictTableInit :=
  digraphUncompressFast_eq_flatMap value

/-! ## Compressing and uncompressing -/

/-- The pieces that `digraphCompress` cuts a text into: single characters, pairs, and at the end
a single character that could be the first of a pair. -/
inductive Piece
  | single (b : UInt8)
  | pair (dc1 dc2 : ℕ) (b b' : UInt8) (h : dichar1.idxOf? b = some dc1)
      (h' : dichar2.idxOf? b' = some dc2)
  | half (dc1 : ℕ) (b : UInt8) (h : dichar1.idxOf? b = some dc1)

namespace Piece

/-- The text of a piece. -/
def text : Piece → Text
  | .single b => [b]
  | .pair _ _ b b' _ _ => [b, b']
  | .half _ b _ => [b]

/-- What is written for a piece.  Behind the end of the text is the empty text, which is found
at the beginning of `s:dichar2`. -/
def code : Piece → UInt8
  | .single b => b
  | .pair dc1 dc2 _ _ _ _ => digraph dc1 dc2
  | .half dc1 _ _ => digraph dc1 0

def isHalf : Piece → Bool
  | .half _ _ _ => true
  | _ => false

end Piece

/-- The pieces of a text. -/
def pieces : Text → List Piece
  | [] => []
  | b :: rest =>
    match h : dichar1.idxOf? b, rest with
    | none, rest => .single b :: pieces rest
    | some dc1, [] => [.half dc1 b h]
    | some dc1, b' :: rest =>
      match h' : dichar2.idxOf? b' with
      | none => .single b :: pieces (b' :: rest)
      | some dc2 => .pair dc1 dc2 b b' h h' :: pieces rest
termination_by value => value.length

theorem flatMap_text_pieces (value : Text) : (pieces value).flatMap Piece.text = value := by
  fun_induction pieces value with
  | case1 => rfl
  | case2 b rest h ih => rw [List.flatMap_cons, ih]; rfl
  | case3 => rfl
  | case4 b b' rest dc1 h h' ih => rw [List.flatMap_cons, ih]; rfl
  | case5 b b' rest dc1 h dc2 h' ih => rw [List.flatMap_cons, ih]; rfl

theorem digraphCompress_eq (value : Text) :
    digraphCompress value = (pieces value).map Piece.code := by
  fun_induction pieces value with
  | case1 =>
    rw [digraphCompress]
    rfl
  | case2 b rest h ih =>
    rw [digraphCompress, stridx, h, List.map_cons, ← ih]
    rfl
  | case3 b dc1 h =>
    rw [digraphCompress, stridx, h]
    simp [stridx, digraphCompress, Piece.code, digraph]
  | case4 b b' rest dc1 h h' ih =>
    rw [digraphCompress, stridx, h, List.map_cons, ← ih]
    simp [stridx, h', Piece.code]
  | case5 b b' rest dc1 h dc2 h' ih =>
    rw [digraphCompress, stridx, h, List.map_cons, ← ih]
    simp [stridx, h', Piece.code, digraph]

/-- What becomes of a piece. -/
def Piece.decoded : Piece → Text
  | .single b => undigraph digraphDictTableInit b
  | .pair _ _ b b' _ _ => [b, b']
  | .half _ b _ => [b, 32]

theorem Piece.undigraph_code (p : Piece) :
    undigraph digraphDictTableInit p.code = p.decoded := by
  cases p with
  | single b => rfl
  | pair dc1 dc2 b b' h h' => exact undigraph_digraph h h'
  | half dc1 b h => exact undigraph_digraph h (by decide +kernel)

/-- A piece is read back unless it is a character above 127 or a half pair. -/
theorem Piece.decoded_eq_iff (p : Piece) :
    p.text.length ≤ p.decoded.length ∧
      (p.text = p.decoded ↔ (∀ b ∈ p.text, b < 128) ∧ p.isHalf = false) := by
  cases p with
  | single b =>
    by_cases hb : 128 ≤ b
    · obtain ⟨a, a', hpair⟩ := undigraph_of_le hb
      have hdecoded : (Piece.single b).decoded = [a, a'] := hpair
      rw [hdecoded]
      simp [Piece.text, UInt8.not_lt.mpr hb]
    · have hdecoded : (Piece.single b).decoded = [b] := if_neg hb
      rw [hdecoded]
      simp [Piece.text, Piece.isHalf, UInt8.not_le.mp hb]
  | pair dc1 dc2 b b' h h' =>
    have hmem : b ∈ dichar1 := List.isSome_idxOf?.mp (by rw [h]; rfl)
    have hmem' : b' ∈ dichar2 := List.isSome_idxOf?.mp (by rw [h']; rfl)
    simp [Piece.text, Piece.decoded, Piece.isHalf, lt_of_mem_dichar1 hmem,
      lt_of_mem_dichar2 hmem']
  | half dc1 b h => simp [Piece.text, Piece.decoded, Piece.isHalf]

/-- **What is compressed is uncompressed again** if and only if the text has no character above
127 and does not end with a half pair. -/
theorem digraphUncompress_compress_iff (value : Text) :
    digraphUncompressFast (digraphCompress value) digraphDictTableInit = value ↔
      (∀ b ∈ value, b < 128) ∧ ∀ p ∈ pieces value, p.isHalf = false := by
  have hdecoded : digraphUncompressFast (digraphCompress value) digraphDictTableInit =
      (pieces value).flatMap Piece.decoded := by
    rw [digraphUncompressFast_eq_flatMap, digraphCompress_eq, List.flatMap_map]
    exact List.flatMap_congr fun p _ => p.undigraph_code
  have hpieces : (pieces value).flatMap Piece.decoded = value ↔
      ∀ p ∈ pieces value, p.text = p.decoded := by
    constructor
    · intro h
      apply Pieces.eq_of_flatMap_eq (fun p _ => p.decoded_eq_iff.1)
      rw [h, flatMap_text_pieces]
    · intro h
      rw [← List.flatMap_congr h, flatMap_text_pieces]
  rw [hdecoded, hpieces]
  have hchars : (∀ b ∈ value, b < 128) ↔ ∀ p ∈ pieces value, ∀ b ∈ p.text, b < 128 := by
    conv_lhs => rw [← flatMap_text_pieces value]
    simp only [List.mem_flatMap, forall_exists_index, and_imp]
    exact forall_comm.trans (forall_congr' fun p => forall_comm)
  rw [hchars, ← forall₂_and]
  exact forall₂_congr fun p _ => p.decoded_eq_iff.2

end CCTree
