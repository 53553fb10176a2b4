/-
# The blocks of the information elements

What `print_ie` does with a concatenation of well-formed elements: it frames the first one
exactly (`printIe_bytes_append`), so it prints one block for each element in order, from whose
hex lines the bytes of the element can be read again (`printIe_elements`).  Bytes that are
left are shown as an `Oops`, unless there is only one (`printsPrefix_iff`).
-/
import LeakimMisc.ParsIes

open PyStr

namespace ParsIes

/-- An information element; its payload has a length that fits in a byte. -/
structure Element where
  id : UInt8
  payload : List UInt8
  short : payload.length < 256

/-- The bytes of an element: id, length, payload. -/
def Element.bytes (e : Element) : List UInt8 :=
  e.id :: UInt8.ofNat e.payload.length :: e.payload

/-- A block: its header, the rule, pairs of a hex line and a line of text, an empty line. -/
def IsBlock (header : Str) (hex : List Str) (block : List Str) : Prop :=
  ∃ ascii : List Str, ascii.length = hex.length ∧
    block = [header, ruleLine] ++ (hex.zip ascii).flatMap (fun p => [p.1, p.2]) ++ [[]]

/-! ## One element -/

theorem Element.toNat_length (e : Element) :
    (UInt8.ofNat e.payload.length).toNat = e.payload.length :=
  UInt8.toNat_ofNat_of_lt' e.short

theorem Element.length_bytes (e : Element) : e.bytes.length = 2 + e.payload.length := by
  simp only [Element.bytes, List.length_cons]
  omega

/-- **The first element is framed exactly**, whatever follows it. -/
theorem printIe_bytes_append (e : Element) (rest : List UInt8) :
    printIe (e.bytes ++ rest) =
      ⟨[headerLine e.id.toNat e.payload.length, ruleLine] ++ printParts e.bytes 32 ++ [[]] ++
        (printIe rest).lines, (printIe rest).error⟩ := by
  have hlen := e.length_bytes
  have htake : (e.bytes ++ rest).take (2 + e.payload.length) = e.bytes := by
    rw [← hlen, List.take_left]
  have hdrop : (e.bytes ++ rest).drop (2 + e.payload.length) = rest := by
    rw [← hlen, List.drop_left]
  have hshow : e.bytes ++ rest =
      e.id :: UInt8.ofNat e.payload.length :: (e.payload ++ rest) := rfl
  rw [hshow] at htake hdrop ⊢
  rw [printIe]
  simp only [e.toNat_length]
  rw [if_neg, htake, hdrop]
  simp only [List.length_cons, List.length_append]
  omega

/-- The lines of an element are a block, and its hex lines give the bytes back. -/
theorem Element.isBlock (e : Element) : ∃ hex : List Str,
    IsBlock (headerLine e.id.toNat e.payload.length) hex
      ([headerLine e.id.toNat e.payload.length, ruleLine] ++ printParts e.bytes 32 ++ [[]]) ∧
    hexToByte hex.flatten = some e.bytes := by
  obtain ⟨parts, hlines, hbytes⟩ := printParts_eq e.bytes 32
  refine ⟨parts.map fun p => byteToHex p " ".toList,
    ⟨parts.map fun p => byteToASCII p "  ".toList, by simp, ?_⟩, ?_⟩
  · rw [hlines, List.zip_map', List.flatMap_map]
    rfl
  · rw [hexToByte_flatten_hexLines, hbytes]

/-! ## No `Oops` -/

/-- In a line of text every other character is a space. -/
theorem isChain_byteToASCII (bs : List UInt8) :
    (byteToASCII bs "  ".toList).IsChain (fun x y => x = ' ' ∨ y = ' ') := by
  have hwide : (bs.flatMap fun x => "  ".toList ++ [printable x]).IsChain
      (fun x y => x = ' ' ∨ y = ' ') := by
    induction bs with
    | nil => exact .nil
    | cons b bs ih =>
      cases bs with
      | nil => simp
      | cons c bs =>
        rw [List.flatMap_cons]
        apply List.IsChain.append _ ih
        · intro x _ y hy
          right
          simpa using hy.symm
        · simp
  obtain ⟨a, b, hs, _, _⟩ := strip_spec (bs.flatMap fun x => "  ".toList ++ [printable x])
  exact hwide.infix ⟨a, b, hs.symm⟩

theorem not_oops_of_head? {line : Str} (h : line.head? ≠ some 'O') :
    ¬ "Oops!".toList <+: line := by
  rintro ⟨t, rfl⟩
  exact h rfl

/-- A line that shows bytes is no `Oops`. -/
theorem not_oops_of_mem_partLines {bs : List UInt8} {line : Str} (h : line ∈ partLines bs) :
    ¬ "Oops!".toList <+: line := by
  rintro ⟨t, rfl⟩
  rcases List.mem_pair.mp h with h | h
  · have hmem : 'o' ∈ byteToHex bs " ".toList := by
      rw [← h]
      simp
    have hdigits : 'o' ∈ bs.flatMap fmt02X := by
      rw [← filter_byteToHex]
      exact List.mem_filter.mpr ⟨hmem, by decide⟩
    obtain ⟨b, _, hb⟩ := List.mem_flatMap.mp hdigits
    have hval : (hexVal 'o').isSome := by
      rcases List.mem_pair.mp hb with hb | hb
      · rw [hb, hexVal_digitX (div_lt_sixteen b)]
        rfl
      · rw [hb, hexVal_digitX (mod_lt_sixteen b)]
        rfl
    exact absurd hval (by decide)
  · have hchain := isChain_byteToASCII bs
    rw [← h] at hchain
    have := hchain.left_of_append
    exact absurd this (by decide)

theorem not_oops_of_mem_printParts {b : List UInt8} {mod : ℕ+} {line : Str}
    (h : line ∈ printParts b mod) : ¬ "Oops!".toList <+: line := by
  obtain ⟨parts, hlines, _⟩ := printParts_eq b mod
  rw [hlines] at h
  obtain ⟨p, _, hp⟩ := List.mem_flatMap.mp h
  exact not_oops_of_mem_partLines hp

/-- No line of a block is an `Oops`. -/
theorem Element.not_oops (e : Element) {line : Str}
    (h : line ∈ [headerLine e.id.toNat e.payload.length, ruleLine] ++ printParts e.bytes 32 ++
      [[]]) : ¬ "Oops!".toList <+: line := by
  rcases List.mem_append.mp h with h | h
  · rcases List.mem_append.mp h with h | h
    · apply not_oops_of_head?
      rcases List.mem_pair.mp h with rfl | rfl
      · show some 'I' ≠ some 'O'
        decide
      · show some '-' ≠ some 'O'
        decide
    · exact not_oops_of_mem_printParts h
  · rw [List.mem_singleton.mp h]
    exact not_oops_of_head? (by decide)

/-! ## All elements -/

/-- One block for each element, in order: its header shows the id and the length, and
`HexToByte` of its hex lines gives the bytes of the element. -/
def ShowsElements (es : List Element) (blocks : List (List Str)) : Prop :=
  List.Forall₂ (fun e block => ∃ hex : List Str,
    IsBlock (headerLine e.id.toNat e.payload.length) hex block ∧
      hexToByte hex.flatten = some e.bytes) es blocks

/-- **Elements are printed block by block**, whatever follows them, and no block is an
`Oops`. -/
theorem printIe_flatMap_append (es : List Element) (rest : List UInt8) :
    ∃ blocks : List (List Str),
      printIe (es.flatMap Element.bytes ++ rest)
        = ⟨blocks.flatten ++ (printIe rest).lines, (printIe rest).error⟩ ∧
      ShowsElements es blocks ∧ ∀ line ∈ blocks.flatten, ¬ "Oops!".toList <+: line := by
  induction es with
  | nil => exact ⟨[], rfl, .nil, by simp⟩
  | cons e es ih =>
    obtain ⟨blocks, hprint, hblocks, hoops⟩ := ih
    refine ⟨_ :: blocks, ?_, .cons e.isBlock hblocks, ?_⟩
    · rw [List.flatMap_cons, List.append_assoc, printIe_bytes_append, hprint, List.flatten_cons,
        List.append_assoc _ blocks.flatten]
    · intro line hline
      rcases List.mem_append.mp hline with hline | hline
      · exact e.not_oops hline
      · exact hoops line hline

/-- **Decoding undoes encoding**: for a concatenation of elements `print_ie` raises nothing,
prints one block for each element in order and no `Oops`, and `HexToByte` of the hex lines of
a block gives the bytes of its element. -/
theorem printIe_elements (es : List Element) :
    ∃ blocks : List (List Str),
      printIe (es.flatMap Element.bytes) = ⟨blocks.flatten, none⟩ ∧
      List.Forall₂ (fun e block => ∃ hex : List Str,
        IsBlock (headerLine e.id.toNat e.payload.length) hex block ∧
          hexToByte hex.flatten = some e.bytes) es blocks ∧
      ∀ line ∈ blocks.flatten, ¬ "Oops!".toList <+: line := by
  obtain ⟨blocks, hprint, hblocks, hoops⟩ := printIe_flatMap_append es []
  refine ⟨blocks, ?_, hblocks, hoops⟩
  rw [List.append_nil] at hprint
  rw [hprint, printIe, List.append_nil]

/-! ## Incomplete elements -/

/-- The bytes begin with a complete element. -/
def StartsComplete (bytes : List UInt8) : Prop := ∃ e : Element, e.bytes <+: bytes

/-- Bytes begin with complete elements, and what is left begins with none. -/
theorem exists_elements (bytes : List UInt8) :
    ∃ (es : List Element) (rest : List UInt8),
      bytes = es.flatMap Element.bytes ++ rest ∧ ¬ StartsComplete rest := by
  by_cases h : StartsComplete bytes
  · obtain ⟨e, after, hafter⟩ := h
    have hlt : after.length < bytes.length := by
      rw [← hafter, List.length_append, e.length_bytes]
      omega
    obtain ⟨es, rest, hes, hrest⟩ := exists_elements after
    refine ⟨e :: es, rest, ?_, hrest⟩
    rw [List.flatMap_cons, List.append_assoc, ← hes, hafter]
  · exact ⟨[], bytes, rfl, h⟩
termination_by bytes.length

/-- The block for bytes that are left: a line `Oops`, a hex line that shows all of them, and
their text. -/
def IsOops (rest : List UInt8) (lines : List Str) : Prop :=
  ∃ oops hex ascii : Str, lines = [oops, hex, ascii] ∧ "Oops!".toList <+: oops ∧
    hexToByte hex = some rest

/-- What `byteToHex` prints on one line is read back. -/
theorem hexToByte_byteToHex (bs : List UInt8) : hexToByte (byteToHex bs " ".toList) = some bs :=
  hexToByte_of_filter (filter_byteToHex bs)

/-- **A header without its payload** is an `Oops`. -/
theorem printIe_incomplete {id len : UInt8} {payload : List UInt8}
    (h : ¬ StartsComplete (id :: len :: payload)) :
    ∃ lines, printIe (id :: len :: payload) = ⟨lines, none⟩ ∧
      IsOops (id :: len :: payload) lines := by
  have hshort : payload.length < len.toNat := by
    by_contra hge
    have hlen := len.toNat_lt
    have htake : (payload.take len.toNat).length = len.toNat := by
      rw [List.length_take]
      omega
    apply h
    refine ⟨⟨id, payload.take len.toNat, by omega⟩, payload.drop len.toNat, ?_⟩
    simp only [Element.bytes, htake]
    simp
  rw [printIe, if_pos (by simp only [List.length_cons]; omega)]
  refine ⟨_, rfl, _, _, _, rfl, ⟨_, rfl⟩, hexToByte_byteToHex _⟩

/-- **What `print_ie` should print**: a block for each element of the longest prefix of
complete elements, and one `Oops` for the bytes that are left, if there are any. -/
def PrintsPrefix (bytes : List UInt8) : Prop :=
  ∃ (es : List Element) (rest : List UInt8) (blocks : List (List Str)) (last : List Str),
    bytes = es.flatMap Element.bytes ++ rest ∧ ¬ StartsComplete rest ∧
    printIe bytes = ⟨blocks.flatten ++ last, none⟩ ∧ ShowsElements es blocks ∧
    (∀ line ∈ blocks.flatten, ¬ "Oops!".toList <+: line) ∧
    if rest = [] then last = [] else IsOops rest last

/-- **When it does**: exactly if there is not one byte left, an id without a length. -/
theorem printsPrefix_iff (bytes : List UInt8) :
    PrintsPrefix bytes ↔
      ¬ ∃ (es : List Element) (b : UInt8), bytes = es.flatMap Element.bytes ++ [b] := by
  constructor
  · rintro ⟨es, rest, blocks, last, -, -, hprint, -⟩ ⟨es', b, hone⟩
    -- `ies[1]` of one byte raises an exception
    obtain ⟨blocks', hprint', -⟩ := printIe_flatMap_append es' [b]
    rw [← hone, hprint] at hprint'
    have herror := congrArg Printed.error hprint'
    rw [printIe] at herror
    exact absurd herror (by simp)
  · intro hone
    obtain ⟨es, rest, hbytes, hrest⟩ := exists_elements bytes
    obtain ⟨blocks, hprint, hblocks, hoops⟩ := printIe_flatMap_append es rest
    rw [← hbytes] at hprint
    rcases rest with _ | ⟨b, _ | ⟨len, payload⟩⟩
    · refine ⟨es, [], blocks, [], hbytes, hrest, ?_, hblocks, hoops, ?_⟩
      · rw [hprint, printIe]
      · rw [if_pos rfl]
    · exact absurd ⟨es, b, hbytes⟩ hone
    · obtain ⟨lines, hlines, hisOops⟩ := printIe_incomplete hrest
      refine ⟨es, _, blocks, lines, hbytes, hrest, ?_, hblocks, hoops, ?_⟩
      · rw [hprint, hlines]
      · rw [if_neg (List.cons_ne_nil _ _)]
        exact hisOops

/-- A single byte: `print_ie` raises an exception. -/
theorem not_printsPrefix : ¬ PrintsPrefix [0] := by
  rintro ⟨es, rest, blocks, last, -, -, hprint, -⟩
  rw [printIe] at hprint
  exact absurd (congrArg Printed.error hprint) (by simp)

end ParsIes
