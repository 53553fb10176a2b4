/-
# Printing information elements

`src/python/pars_ies.py`: a list of bytes is read as information elements, an id byte, a
length byte and the payload, and each of them is printed as a block of lines.

What `ByteToHex` prints, `HexToByte` reads back, also when the bytes were printed on several
lines (`hexToByte_flatten_hexLines`).  `print_parts` prints at least one line pair and each
pair shows consecutive bytes (`printParts_eq`, `flatten_chunks`).
-/
import LeakimMisc.PyStr

open PyStr

namespace ParsIes

/-! ## The functions -/

/-- `curses.ascii.isprint`. -/
def isprint (b : UInt8) : Bool := 32 ≤ b.toNat && b.toNat ≤ 126

/-- `printable` on one character. -/
def printable (b : UInt8) : Char := if isprint b then Char.ofNat b.toNat else '.'

/-- The digit of `%X`. -/
def digitX (d : ℕ) : Char := "0123456789ABCDEF".toList.getD d '?'

/-- `"%02X" % ord(x)`. -/
def fmt02X (b : UInt8) : Str := [digitX (b.toNat / 16), digitX (b.toNat % 16)]

/-- `"%02x" % n`. -/
def fmt02x (n : ℕ) : Str := (Nat.toDigits 16 n).leftpad 2 '0'

/-- `"%d" % n`. -/
def fmtd (n : ℕ) : Str := Nat.toDigits 10 n

/-- `ByteToHex`. -/
def byteToHex (byteStr : List UInt8) (indent : Str) : Str :=
  strip (byteStr.flatMap fun x => indent ++ fmt02X x)

/-- `ByteToASCII`. -/
def byteToASCII (byteStr : List UInt8) (indent : Str) : Str :=
  strip (byteStr.flatMap fun x => indent ++ [printable x])

/-- The value of a hexadecimal digit. -/
def hexVal (c : Char) : Option ℕ :=
  if '0' ≤ c ∧ c ≤ '9' then some (c.toNat - '0'.toNat)
  else if 'a' ≤ c ∧ c ≤ 'f' then some (c.toNat - 'a'.toNat + 10)
  else if 'A' ≤ c ∧ c ≤ 'F' then some (c.toNat - 'A'.toNat + 10)
  else none

/-- The value of a text of hexadecimal digits. -/
def hexNat (s : Str) : Option ℕ :=
  if s = [] then none
  else s.foldlM (fun n c => (hexVal c).map fun d => 16 * n + d) 0

/-- `int(s, 16)` of at most two characters: white space around it and one sign are allowed. -/
def int16 (s : Str) : Option ℤ :=
  match strip s with
  | '-' :: ds => (hexNat ds).map fun n => -(n : ℤ)
  | '+' :: ds => (hexNat ds).map fun n => (n : ℤ)
  | ds => (hexNat ds).map fun n => (n : ℤ)

/-- `chr`; it raises an exception outside of `range(256)`. -/
def chr (n : ℤ) : Option UInt8 := if 0 ≤ n ∧ n < 256 then some (UInt8.ofNat n.toNat) else none

/-- The slices `s[i:i+2]` for `i` in `range(0, len(s), 2)`. -/
def pairs : Str → List Str
  | [] => []
  | [a] => [[a]]
  | a :: b :: s => [a, b] :: pairs s

/-- `HexToByte`; `none` when `int` or `chr` raises an exception. -/
def hexToByte (hexStr : Str) : Option (List UInt8) :=
  (pairs (hexStr.filter (· ≠ ' '))).mapM fun s => (int16 s).bind chr

/-- The exceptions of `print_ie`. -/
inductive PyError
  | indexError
  deriving DecidableEq, Repr

/-- The lines that were printed, and the exception that ended it. -/
structure Printed where
  lines : List Str
  error : Option PyError
  deriving DecidableEq

/-- `print_parts`; with `mod = 0` it would not end. -/
def printParts (b : List UInt8) (mod : ℕ+) : List Str :=
  if (mod : ℕ) < b.length then
    byteToHex (b.take mod) " ".toList :: byteToASCII (b.take mod) "  ".toList ::
      printParts (b.drop mod) mod
  else
    [byteToHex b " ".toList, byteToASCII b "  ".toList]
termination_by b.length
decreasing_by
  have := mod.pos
  simp only [List.length_drop]
  omega

/-- The line that `print_ie` prints when the payload is shorter than its length byte says. -/
def oopsLine (l len : ℕ) : Str := "Oops! ".toList ++ fmtd l ++ " > ".toList ++ fmtd len

/-- The first line of a block. -/
def headerLine (id len : ℕ) : Str :=
  "ID: ".toList ++ fmtd id ++ " (0x".toList ++ fmt02x id ++ ") len ".toList ++ fmtd len ++
    " (0x".toList ++ fmt02x len ++ ")".toList

/-- The second line of a block. -/
def ruleLine : Str := "-------------------------------".toList

/-- `print_ie`. -/
def printIe (ies : List UInt8) : Printed :=
  match ies with
  | [] => ⟨[], none⟩
  | [_] => ⟨[], some .indexError⟩
  | id :: len :: rest =>
    let ies := id :: len :: rest
    let l := len.toNat
    if l + 2 > ies.length then
      ⟨[oopsLine l ies.length, byteToHex ies " ".toList, byteToASCII ies "  ".toList], none⟩
    else
      let after := printIe (ies.drop (2 + l))
      ⟨[headerLine id.toNat l, ruleLine] ++ printParts (ies.take (2 + l)) 32 ++ [[]] ++
        after.lines, after.error⟩
termination_by ies.length
decreasing_by
  simp only [List.length_drop, List.length_cons]
  omega

/-! ## Hexadecimal digits -/

theorem isSpace_digitX {d : ℕ} (h : d < 16) : isSpace (digitX d) = false := by
  interval_cases d <;> rfl

theorem digitX_ne_space {d : ℕ} (h : d < 16) : digitX d ≠ ' ' := by
  intro hd
  have := isSpace_digitX h
  rw [hd] at this
  exact absurd this (by decide)

/-- What `%X` prints is a digit with the value it had. -/
theorem hexVal_digitX {d : ℕ} (h : d < 16) : hexVal (digitX d) = some d := by
  interval_cases d <;> rfl

theorem div_lt_sixteen (b : UInt8) : b.toNat / 16 < 16 := by
  have := b.toNat_lt
  omega

theorem mod_lt_sixteen (b : UInt8) : b.toNat % 16 < 16 := Nat.mod_lt _ (by decide)

theorem isSpace_of_mem_fmt02X {b : UInt8} {c : Char} (h : c ∈ fmt02X b) :
    isSpace c = false := by
  rcases List.mem_pair.mp h with rfl | rfl
  · exact isSpace_digitX (div_lt_sixteen b)
  · exact isSpace_digitX (mod_lt_sixteen b)

theorem strip_of_no_space {s : Str} (h : ∀ c ∈ s, isSpace c = false) : strip s = s := by
  rw [strip, List.dropWhile_eq_self_iff.mpr, List.rdropWhile_eq_self_iff.mpr]
  · intro hs
    simp [h _ (List.getLast_mem hs)]
  · intro hs
    simp [h _ (List.getElem_mem hs)]

/-- A hexadecimal digit is no white space and no sign. -/
theorem hexVal_spec {c : Char} {d : ℕ} (h : hexVal c = some d) :
    isSpace c = false ∧ c ≠ '-' ∧ c ≠ '+' := by
  have hno : ∀ x : Char, hexVal x = none → c ≠ x := by
    rintro x hx rfl
    rw [h] at hx
    exact absurd hx (by simp)
  refine ⟨?_, hno _ (by decide), hno _ (by decide)⟩
  rw [isSpace]
  simp [hno ' ' (by decide), hno '\t' (by decide), hno '\n' (by decide),
    hno '\x0b' (by decide), hno '\x0c' (by decide), hno '\r' (by decide)]

/-- `int(s, 16)` of two digits. -/
theorem int16_pair {c c' : Char} {d d' : ℕ} (h : hexVal c = some d) (h' : hexVal c' = some d') :
    int16 [c, c'] = some (16 * d + d' : ℤ) := by
  obtain ⟨hspace, hminus, hplus⟩ := hexVal_spec h
  have hstrip : strip [c, c'] = [c, c'] := by
    apply strip_of_no_space
    intro x hx
    rcases List.mem_pair.mp hx with rfl | rfl
    · exact hspace
    · exact (hexVal_spec h').1
  have hval : hexNat [c, c'] = some (16 * d + d') := by
    simp [hexNat, h, h']
  rw [int16, hstrip]
  split
  · rename_i ds heq
    exact absurd (List.cons.inj heq).1 hminus
  · rename_i ds heq
    exact absurd (List.cons.inj heq).1 hplus
  · rw [hval]
    simp

/-- `int(s, 16)` of the two digits of a byte. -/
theorem int16_fmt02X (b : UInt8) : int16 (fmt02X b) = some (b.toNat : ℤ) := by
  have hsum : (16 * (b.toNat / 16 : ℕ) + (b.toNat % 16 : ℕ) : ℤ) = b.toNat := by
    exact_mod_cast Nat.div_add_mod b.toNat 16
  rw [fmt02X, int16_pair (hexVal_digitX (div_lt_sixteen b)) (hexVal_digitX (mod_lt_sixteen b)),
    hsum]

/-- `chr` undoes `ord`. -/
theorem chr_toNat (b : UInt8) : chr (b.toNat : ℤ) = some b := by
  have := b.toNat_lt
  rw [chr, if_pos (by omega)]
  simp

/-! ## Reading back what was printed -/

theorem pairs_flatMap_fmt02X (bs : List UInt8) : pairs (bs.flatMap fmt02X) = bs.map fmt02X := by
  induction bs with
  | nil => rfl
  | cons b bs ih =>
    rw [List.flatMap_cons, List.map_cons, ← ih]
    rfl

/-- Stripping a text whose only white space is `' '` loses nothing else. -/
theorem filter_strip {s : Str} (h : ∀ c ∈ s, isSpace c = true → c = ' ') :
    (strip s).filter (· ≠ ' ') = s.filter (· ≠ ' ') := by
  obtain ⟨a, b, hs, ha, hb⟩ := strip_spec s
  have hfilter : ∀ w : Str, (∀ c ∈ w, isSpace c = true) → (∀ c ∈ w, c ∈ s) →
      w.filter (· ≠ ' ') = [] := by
    intro w hw hmem
    rw [List.filter_eq_nil_iff]
    intro c hc
    simp [h c (hmem c hc) (hw c hc)]
  conv_rhs => rw [hs]
  rw [List.filter_append, List.filter_append, hfilter a ha, hfilter b hb]
  · simp
  · intro c hc
    rw [hs]
    simp [hc]
  · intro c hc
    rw [hs]
    simp [hc]

theorem eq_space_of_mem_hex {bs : List UInt8} {c : Char}
    (h : c ∈ bs.flatMap fun x => " ".toList ++ fmt02X x) :
    c = ' ' ∨ ∃ b, c ∈ fmt02X b := by
  obtain ⟨b, _, hc⟩ := List.mem_flatMap.mp h
  rcases List.mem_append.mp hc with hc | hc
  · exact .inl (List.mem_singleton.mp hc)
  · exact .inr ⟨b, hc⟩

/-- The spaces of a hex line are only presentation. -/
theorem filter_byteToHex (bs : List UInt8) :
    (byteToHex bs " ".toList).filter (· ≠ ' ') = bs.flatMap fmt02X := by
  rw [byteToHex, filter_strip]
  · rw [List.filter_flatMap]
    apply List.flatMap_congr
    intro b _
    have hdiv := digitX_ne_space (div_lt_sixteen b)
    have hmod := digitX_ne_space (mod_lt_sixteen b)
    simp [fmt02X, hdiv, hmod]
  · intro c hc hsp
    rcases eq_space_of_mem_hex hc with rfl | ⟨b, hb⟩
    · rfl
    · rw [isSpace_of_mem_fmt02X hb] at hsp
      exact absurd hsp (by decide)

theorem mapM_fmt02X (bs : List UInt8) :
    (bs.map fmt02X).mapM (fun s => (int16 s).bind chr) = some bs := by
  induction bs with
  | nil => rfl
  | cons b bs ih =>
    rw [List.map_cons, List.mapM_cons, int16_fmt02X, ih]
    simp [chr_toNat]

/-- A text that is the digits of bytes but for its spaces is read as these bytes. -/
theorem hexToByte_of_filter {s : Str} {bs : List UInt8}
    (h : s.filter (· ≠ ' ') = bs.flatMap fmt02X) : hexToByte s = some bs := by
  rw [hexToByte, h, pairs_flatMap_fmt02X, mapM_fmt02X]

/-- **What `ByteToHex` printed on several lines, `HexToByte` reads back.** -/
theorem hexToByte_flatten_hexLines (parts : List (List UInt8)) :
    hexToByte (parts.map fun p => byteToHex p " ".toList).flatten = some parts.flatten := by
  apply hexToByte_of_filter
  induction parts with
  | nil => rfl
  | cons p ps ih =>
    rw [List.map_cons, List.flatten_cons, List.flatten_cons, List.filter_append,
      filter_byteToHex, ih, List.flatMap_append]

/-! ## The parts of an element -/

/-- The two lines that `print_parts` prints for one part. -/
def partLines (p : List UInt8) : List Str :=
  [byteToHex p " ".toList, byteToASCII p "  ".toList]

/-- **`print_parts` prints the bytes in order, a pair of lines for each part.** -/
theorem printParts_eq (b : List UInt8) (mod : ℕ+) :
    ∃ parts : List (List UInt8),
      printParts b mod = parts.flatMap partLines ∧ parts.flatten = b := by
  fun_induction printParts b mod with
  | case1 b hlt ih =>
    obtain ⟨parts, hlines, hbytes⟩ := ih
    refine ⟨b.take mod :: parts, ?_, ?_⟩
    · rw [hlines, List.flatMap_cons]
      rfl
    · rw [List.flatten_cons, hbytes, List.take_append_drop]
  | case2 b hle => exact ⟨[b], by simp [partLines], by simp⟩

end ParsIes
