/-
# Reading the bytes of the information elements

The two loops of `src/python/pars_ies.py` that read hexadecimal text from the standard input.
Each reads lines until one of fewer than three characters and takes the bytes of the lines
before it; so the second loop goes on behind the first short line, and the second short line
ends the input (`readIes_of_areLines`).

A line with the digits of one byte is a short line too.  So the lines are only a presentation
of their bytes as long as each has two bytes at least and there is one blank line at most
(`readsAll_iff`).
-/
import LeakimMisc.ParsIes
import LeakimMisc.TextLines

open PyStr

namespace ParsIes

/-! ## The loops -/

/-- `l.replace("\n","")`. -/
def chomp (l : Str) : Str := l.filter (· ≠ '\n')

/-- One of the two loops, on the lines that `readline` returns, of which there is an empty one
at the end of the input: the bytes that it adds to `ies`, and the lines that are left. -/
def readLoop : List Str → List UInt8 → Option (List UInt8 × List Str)
  | [], ies => some (ies, [])
  | l :: f, ies =>
      if (chomp l).length < 3 then some (ies, f)
      else (hexToByte (chomp l)).bind fun bytes => readLoop f (ies ++ bytes)

/-- `ies` after the two loops; `none` when `HexToByte` raises an exception. -/
def readIes (text : Str) : Option (List UInt8) :=
  (readLoop (splitLines text) []).bind fun r => (readLoop r.2 r.1).map Prod.fst

/-! ## Bytes on lines -/

/-- Two digits that write a byte. -/
def IsHex (s : Str) (b : UInt8) : Prop :=
  ∃ c c', s = [c, c'] ∧ hexVal c = some (b.toNat / 16) ∧ hexVal c' = some (b.toNat % 16)

/-- Bytes in hexadecimal, separated by spaces or not. -/
inductive Writes : Str → List UInt8 → Prop
  | one {s : Str} {b : UInt8} (h : IsHex s b) : Writes s [b]
  | cons {s t : Str} {b : UInt8} {bs : List UInt8} (h : IsHex s b) (spaces : ℕ)
      (ht : Writes t bs) : Writes (s ++ (List.replicate spaces ' ' ++ t)) (b :: bs)

/-- A line of bytes. -/
structure HexLine where
  text : Str
  bytes : List UInt8
  writes : Writes text bytes

/-- **A presentation** of bytes: lines of bytes, in front of each but the first one blank line
at most, and a newline after the last line or not. -/
structure Presentation where
  first : HexLine
  rest : List (Bool × HexLine)
  newline : Bool

namespace Presentation

/-- The lines of bytes. -/
def hexLines (p : Presentation) : List HexLine := p.first :: p.rest.map Prod.snd

/-- The bytes that are presented. -/
def bytes (p : Presentation) : List UInt8 := p.hexLines.flatMap HexLine.bytes

/-- The lines, of which `none` is blank. -/
def lines (p : Presentation) : List (Option HexLine) :=
  some p.first :: p.rest.flatMap fun r => (if r.1 then [none] else []) ++ [some r.2]

end Presentation

/-- The text of a line. -/
def lineText (l : Option HexLine) : Str := (l.map HexLine.text).getD []

/-- The bytes of a line. -/
def lineBytes (l : Option HexLine) : List UInt8 := (l.map HexLine.bytes).getD []

/-- The text of a presentation. -/
def Presentation.text (p : Presentation) : Str :=
  "\n".toList.intercalate (p.lines.map lineText) ++ if p.newline then ['\n'] else []

/-- The two loops find the bytes that the text presents. -/
def Presentation.ReadsAll (p : Presentation) : Prop := readIes p.text = some p.bytes

/-! ## What a line says -/

theorem IsHex.spec {s : Str} {b : UInt8} (h : IsHex s b) :
    s.filter (· ≠ ' ') = s ∧ '\n' ∉ s ∧ (int16 s).bind chr = some b ∧ s.length = 2 := by
  obtain ⟨c, c', rfl, hc, hc'⟩ := h
  have hspace := (hexVal_spec hc).1
  have hspace' := (hexVal_spec hc').1
  have hne : ∀ x, isSpace x = true → x ∉ [c, c'] := by
    intro x hx hmem
    rcases List.mem_pair.mp hmem with rfl | rfl
    · rw [hx] at hspace
      exact absurd hspace (by decide)
    · rw [hx] at hspace'
      exact absurd hspace' (by decide)
  refine ⟨?_, hne _ (by decide), ?_, rfl⟩
  · apply List.filter_eq_self.mpr
    intro x hx
    simpa using ne_of_mem_of_not_mem hx (hne ' ' (by decide))
  · have hsum : (16 * (b.toNat / 16 : ℕ) + (b.toNat % 16 : ℕ) : ℤ) = b.toNat := by
      exact_mod_cast Nat.div_add_mod b.toNat 16
    rw [int16_pair hc hc', hsum, Option.bind_some, chr_toNat]

theorem pairs_append {s t : Str} (h : s.length = 2) : pairs (s ++ t) = s :: pairs t := by
  match s, h with
  | [a, b], _ => rfl

/-- **`HexToByte` reads the bytes of a line**, which has two characters for each. -/
theorem Writes.spec {t : Str} {bs : List UInt8} (h : Writes t bs) :
    hexToByte t = some bs ∧ '\n' ∉ t ∧ bs ≠ [] ∧ 2 ≤ t.length ∧
      (t.length < 3 ↔ bs.length = 1) := by
  induction h with
  | @one s b h =>
    obtain ⟨hfilter, hnl, hchr, hlen⟩ := h.spec
    refine ⟨?_, hnl, by simp, by omega, by simp [hlen]⟩
    rw [hexToByte, hfilter, ← List.append_nil s, pairs_append hlen, pairs, List.mapM_cons, hchr]
    rfl
  | @cons s t b bs h spaces ht ih =>
    obtain ⟨hfilter, hnl, hchr, hlen⟩ := h.spec
    obtain ⟨hread, hnl', hne, htwo, -⟩ := ih
    have hspaces : (List.replicate spaces ' ').filter (· ≠ ' ') = [] := by
      rw [List.filter_eq_nil_iff]
      intro c hc
      simp [List.eq_of_mem_replicate hc]
    have hpos := List.length_pos_of_ne_nil hne
    refine ⟨?_, ?_, by simp, ?_, ?_⟩
    · rw [hexToByte] at hread ⊢
      rw [List.filter_append, List.filter_append, hfilter, hspaces, List.nil_append,
        pairs_append hlen, List.mapM_cons, hchr, hread]
      rfl
    · simp only [List.mem_append, not_or]
      refine ⟨hnl, fun hmem => ?_, hnl'⟩
      exact absurd (List.eq_of_mem_replicate hmem) (by decide)
    · simp only [List.length_append]
      omega
    · simp only [List.length_append, List.length_cons]
      omega

/-- A line that a loop takes: neither blank nor the digits of one byte. -/
def isLong (l : Option HexLine) : Bool := 3 ≤ (lineText l).length

theorem isLong_some_iff (l : HexLine) : isLong (some l) ↔ 2 ≤ l.bytes.length := by
  obtain ⟨-, -, hne, -, hshort⟩ := l.writes.spec
  have hpos := List.length_pos_of_ne_nil hne
  rw [isLong, decide_eq_true_iff]
  show 3 ≤ l.text.length ↔ _
  omega

theorem chomp_of_not_mem {s : Str} (h : '\n' ∉ s) : chomp s = s := by
  apply List.filter_eq_self.mpr
  intro c hc
  simpa using ne_of_mem_of_not_mem hc h

theorem newline_not_mem_lineText (l : Option HexLine) : '\n' ∉ lineText l := by
  cases l with
  | none => exact List.not_mem_nil
  | some l => exact l.writes.spec.2.1

/-! ## What the loops read -/

/-- The lines as `readline` returns them: each with its newline, the last one maybe without. -/
def AreLines (f : List Str) (ls : List (Option HexLine)) : Prop := f.map chomp = ls.map lineText

/-- **One loop** reads the lines in front of the first short one, and drops that one. -/
theorem readLoop_eq {f : List Str} {ls : List (Option HexLine)} (h : AreLines f ls)
    (ies : List UInt8) :
    ∃ f', readLoop f ies = some (ies ++ (ls.takeWhile isLong).flatMap lineBytes, f') ∧
      AreLines f' (ls.dropWhile isLong).tail := by
  induction ls generalizing f ies with
  | nil =>
    obtain rfl : f = [] := List.map_eq_nil_iff.mp h
    exact ⟨[], by simp [readLoop], rfl⟩
  | cons l ls ih =>
    obtain ⟨raw, f, rfl⟩ : ∃ raw f', f = raw :: f' := by
      cases f with
      | nil => exact absurd h (by simp [AreLines])
      | cons raw f => exact ⟨raw, f, rfl⟩
    obtain ⟨hraw, hmap⟩ := List.cons.inj h
    have hf : AreLines f ls := hmap
    rw [readLoop, hraw]
    by_cases hlong : isLong l = true
    · have hlen : 3 ≤ (lineText l).length := of_decide_eq_true hlong
      rw [if_neg (by omega)]
      cases l with
      | none => exact absurd hlen (by decide)
      | some l =>
        obtain ⟨f', hloop, hf'⟩ := ih hf (ies ++ l.bytes)
        refine ⟨f', ?_, by simpa [hlong] using hf'⟩
        rw [show lineText (some l) = l.text from rfl, l.writes.spec.1, Option.bind_some, hloop]
        simp [hlong, lineBytes]
    · have hlen : ¬ 3 ≤ (lineText l).length := fun hlen => hlong (decide_eq_true hlen)
      rw [if_pos (by omega)]
      exact ⟨f, by simp [hlong], by simpa [hlong] using hf⟩

/-- What is left of some lines behind the first short one. -/
def afterShort (ls : List (Option HexLine)) : List (Option HexLine) := (ls.dropWhile isLong).tail

/-- **The two loops** read the lines in front of the first short line, and those between it
and the second one. -/
theorem readIes_of_areLines {text : Str} {ls : List (Option HexLine)}
    (h : AreLines (splitLines text) ls) :
    readIes text = some ((ls.takeWhile isLong).flatMap lineBytes ++
      ((afterShort ls).takeWhile isLong).flatMap lineBytes) := by
  obtain ⟨f, hfirst, hf⟩ := readLoop_eq h []
  obtain ⟨f', hsecond, -⟩ := readLoop_eq hf ((ls.takeWhile isLong).flatMap lineBytes)
  rw [readIes, hfirst, Option.bind_some, List.nil_append, hsecond]
  rfl

/-- The lines of a text put together from lines, of which the last one is not blank. -/
theorem areLines_intercalate {ls : List (Option HexLine)} {newline : Bool}
    (hlast : ∃ l, ls.getLast? = some (some l)) :
    AreLines (splitLines ("\n".toList.intercalate (ls.map lineText) ++
      if newline then ['\n'] else [])) ls := by
  induction ls with
  | nil =>
    obtain ⟨l, hl⟩ := hlast
    exact absurd hl (by simp)
  | cons l ls ih =>
    have hchomp : chomp (lineText l) = lineText l := chomp_of_not_mem (newline_not_mem_lineText l)
    have hline : IsLine (lineText l ++ ['\n']) := ⟨_, rfl, newline_not_mem_lineText l⟩
    have hchomp' : chomp (lineText l ++ ['\n']) = lineText l := by
      rw [chomp, List.filter_append]
      simpa [chomp] using hchomp
    cases ls with
    | nil =>
      rw [List.map_singleton, List.intercalate_singleton]
      cases newline with
      | true =>
        have hsplit := splitLines_line_append hline []
        rw [List.append_nil] at hsplit
        rw [if_pos rfl, hsplit]
        simp [AreLines, splitLines, hchomp']
      | false =>
        obtain ⟨l', hl'⟩ := hlast
        obtain rfl : l = some l' := by simpa using hl'
        have htwo : 2 ≤ (lineText (some l')).length := l'.writes.spec.2.2.2.1
        have hne : lineText (some l') ≠ [] := List.ne_nil_of_length_pos (by omega)
        rw [if_neg (by simp), List.append_nil,
          splitLines_of_not_mem hne (newline_not_mem_lineText _)]
        simp [AreLines, hchomp]
    | cons l' ls =>
      have hrest := ih (by simpa using hlast)
      rw [List.map_cons, List.map_cons, List.intercalate_cons_cons, List.append_assoc,
        List.append_assoc]
      have hcut : lineText l ++ ("\n".toList ++ ("\n".toList.intercalate
          (lineText l' :: ls.map lineText) ++ if newline then ['\n'] else []))
          = (lineText l ++ ['\n']) ++ ("\n".toList.intercalate ((l' :: ls).map lineText) ++
            if newline then ['\n'] else []) := by simp
      rw [hcut, splitLines_line_append hline]
      exact congrArg₂ List.cons hchomp' hrest

/-! ## Lost bytes -/

/-- Lines are all long, or cut at the first one that is not. -/
theorem forall_isLong_or_cut (ls : List (Option HexLine)) :
    (∀ l ∈ ls, isLong l) ∨ ∃ as l bs, ls = as ++ l :: bs ∧ (∀ a ∈ as, isLong a) ∧
      isLong l = false := by
  induction ls with
  | nil => exact Or.inl fun l hl => absurd hl List.not_mem_nil
  | cons l ls ih =>
    by_cases hl : isLong l = true
    · rcases ih with hall | ⟨as, m, bs, rfl, has, hm⟩
      · exact Or.inl fun x hx => (List.mem_cons.mp hx).elim (fun h => h ▸ hl) (hall x)
      · refine Or.inr ⟨l :: as, m, bs, rfl, ?_, hm⟩
        exact fun x hx => (List.mem_cons.mp hx).elim (fun h => h ▸ hl) (has x)
    · exact Or.inr ⟨[], l, ls, rfl, fun a ha => absurd ha List.not_mem_nil, by simpa using hl⟩

section Cut

variable {as bs : List (Option HexLine)} {l : Option HexLine}

theorem takeWhile_of_forall (h : ∀ a ∈ as, isLong a) : as.takeWhile isLong = as :=
  List.takeWhile_eq_self_iff.mpr h

theorem afterShort_of_forall (h : ∀ a ∈ as, isLong a) : afterShort as = [] := by
  rw [afterShort, List.dropWhile_eq_nil_iff.mpr h]
  rfl

theorem takeWhile_cut (has : ∀ a ∈ as, isLong a) (hl : isLong l = false) :
    (as ++ l :: bs).takeWhile isLong = as := by
  rw [List.takeWhile_append_of_pos has, List.takeWhile_cons_of_neg (by simp [hl]), List.append_nil]

theorem afterShort_cut (has : ∀ a ∈ as, isLong a) (hl : isLong l = false) :
    afterShort (as ++ l :: bs) = bs := by
  rw [afterShort, List.dropWhile_append_of_pos has, List.dropWhile_cons_of_neg (by simp [hl])]
  rfl

/-- A blank line is not taken. -/
theorem ne_none_of_isLong (h : isLong l = true) : l ≠ none := by
  rintro rfl
  exact absurd h (by decide)

theorem countP_isNone_of_forall (h : ∀ a ∈ as, isLong a) : as.countP Option.isNone = 0 := by
  rw [List.countP_eq_zero]
  intro a ha
  simpa using ne_none_of_isLong (h a ha)

/-- Bytes on a line are lost with it. -/
theorem lineBytes_ne_nil (l : HexLine) : lineBytes (some l) ≠ [] := l.writes.spec.2.2.1

/-- Where a line of bytes stands, there are bytes. -/
theorem flatMap_lineBytes_ne_nil {l : HexLine} (h : some l ∈ as) :
    as.flatMap lineBytes ≠ [] := by
  intro hnil
  exact lineBytes_ne_nil l (List.flatMap_eq_nil_iff.mp hnil _ h)

end Cut

/-- **No byte is lost** exactly if no line of bytes is short and at most one line is blank. -/
theorem readLines_eq_iff {ls : List (Option HexLine)} (hlast : ∃ l, ls.getLast? = some (some l)) :
    (ls.takeWhile isLong).flatMap lineBytes ++
        ((afterShort ls).takeWhile isLong).flatMap lineBytes = ls.flatMap lineBytes ↔
      (∀ l, some l ∈ ls → isLong (some l)) ∧ ls.countP Option.isNone ≤ 1 := by
  rcases forall_isLong_or_cut ls with hall | ⟨as, l, bs, rfl, has, hl⟩
  · rw [takeWhile_of_forall hall, afterShort_of_forall hall, countP_isNone_of_forall hall]
    simp only [List.takeWhile_nil, List.flatMap_nil, List.append_nil, true_iff]
    exact ⟨fun l hl => hall _ hl, Nat.zero_le 1⟩
  · rw [takeWhile_cut has hl, afterShort_cut has hl, List.flatMap_append, List.flatMap_cons,
      List.append_right_inj, List.countP_append, List.countP_cons, countP_isNone_of_forall has]
    cases l with
    | some l =>
      -- the digits of one byte: they are not read
      constructor
      · intro h
        have hlen := congrArg List.length h
        have hle : (bs.takeWhile isLong).flatMap lineBytes <+: bs.flatMap lineBytes := by
          conv_rhs => rw [← List.takeWhile_append_dropWhile (p := isLong) (l := bs)]
          rw [List.flatMap_append]
          exact List.prefix_append _ _
        have hpos := List.length_pos_of_ne_nil (lineBytes_ne_nil l)
        have hle' := hle.length_le
        rw [List.length_append] at hlen
        omega
      · rintro ⟨hlong, -⟩
        rw [hlong l (by simp)] at hl
        exact absurd hl (by decide)
    | none =>
      rcases forall_isLong_or_cut bs with hall | ⟨bs, m, cs, rfl, hbs, hm⟩
      · rw [takeWhile_of_forall hall, countP_isNone_of_forall hall]
        refine iff_of_true rfl ⟨?_, by simp⟩
        intro l hmem
        rcases List.mem_append.mp hmem with hmem | hmem
        · exact has _ hmem
        · rcases List.mem_cons.mp hmem with hno | hmem
          · exact absurd hno (by simp)
          · exact hall _ hmem
      · -- the second short line or the last one has bytes that are not read
        rw [takeWhile_cut hbs hm, List.flatMap_append]
        constructor
        · intro h
          obtain ⟨l, hl⟩ := hlast
          have hmem : some l ∈ m :: cs := by
            apply List.mem_of_getLast?
            rw [← hl, show as ++ none :: (bs ++ m :: cs) = (as ++ none :: bs) ++ m :: cs by simp,
              List.getLast?_append_of_ne_nil _ (List.cons_ne_nil m cs)]
          have hnil : (m :: cs).flatMap lineBytes = [] := List.self_eq_append_right.mp h
          exact absurd hnil (flatMap_lineBytes_ne_nil hmem)
        · rintro ⟨hlong, hblank⟩
          cases m with
          | some m =>
            rw [hlong m (by simp)] at hm
            exact absurd hm (by decide)
          | none => simp at hblank

/-! ## Presentations -/

namespace Presentation

theorem some_mem_lines_iff (p : Presentation) (l : HexLine) :
    some l ∈ p.lines ↔ l ∈ p.hexLines := by
  simp only [lines, hexLines, List.mem_cons, Option.some.injEq, List.mem_flatMap,
    List.mem_append, List.mem_map]
  apply or_congr Iff.rfl
  constructor
  · rintro ⟨r, hr, hno | hl⟩
    · split_ifs at hno <;> simp at hno
    · exact ⟨r, hr, (hl.resolve_right List.not_mem_nil).symm⟩
  · rintro ⟨r, hr, rfl⟩
    exact ⟨r, hr, Or.inr (by simp)⟩

theorem flatMap_lines (p : Presentation) : p.lines.flatMap lineBytes = p.bytes := by
  rw [lines, bytes, hexLines, List.flatMap_cons, List.flatMap_cons, List.flatMap_assoc,
    List.flatMap_map]
  apply congrArg (lineBytes (some p.first) ++ ·)
  apply List.flatMap_congr
  intro r _
  cases r.1 <;> simp [lineBytes]

theorem countP_lines (p : Presentation) :
    p.lines.countP Option.isNone = p.rest.countP Prod.fst := by
  rw [lines, List.countP_cons]
  induction p.rest with
  | nil => rfl
  | cons r rest ih =>
    rw [List.flatMap_cons, List.countP_append, List.countP_cons, ← ih]
    cases r.1
    · simp
    · simp
      omega

/-- The last line is a line of bytes. -/
theorem exists_getLast?_lines (p : Presentation) : ∃ l, p.lines.getLast? = some (some l) := by
  rcases List.eq_nil_or_concat p.rest with hrest | ⟨rest, r, hrest⟩
  · exact ⟨p.first, by rw [lines, hrest]; rfl⟩
  · refine ⟨r.2, ?_⟩
    rw [lines, hrest, List.concat_eq_append, List.flatMap_append, List.flatMap_singleton,
      ← List.append_assoc, ← List.cons_append, List.getLast?_concat]

end Presentation

/-- **When the lines are only a presentation**: the two loops find the bytes exactly if every
line has two bytes at least and there is one blank line at most. -/
theorem readsAll_iff (p : Presentation) :
    p.ReadsAll ↔ (∀ l ∈ p.hexLines, 2 ≤ l.bytes.length) ∧ p.rest.countP Prod.fst ≤ 1 := by
  have hlast := p.exists_getLast?_lines
  rw [Presentation.ReadsAll, Presentation.text, readIes_of_areLines (areLines_intercalate hlast),
    Option.some.injEq, ← p.flatMap_lines, readLines_eq_iff hlast, p.countP_lines]
  simp only [p.some_mem_lines_iff, isLong_some_iff]

/-- One byte on a line of its own. -/
def sampleShort : Presentation :=
  ⟨⟨"00".toList, [0], .one ⟨'0', '0', rfl, by decide, by decide⟩⟩, [], true⟩

/-- It is not read. -/
theorem not_readsAll : ¬ sampleShort.ReadsAll := by
  unfold Presentation.ReadsAll
  decide

end ParsIes
