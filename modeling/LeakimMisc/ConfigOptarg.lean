/-
# Settings on the command line

The loop body of `config_optarg_vars` in `src/c/optargs/test.c`: the argument of an option is
cut at its first `=` into a name and a value.  The value of `-d` is read with `%d` and then, if
there was anything to read at all, once more with `%x` into the same variable.
-/
import LeakimMisc.ScanInt

open PyStr ScanInt

namespace ConfigOptarg

/-! ## The body of the loop -/

/-- What a turn of the loop comes to; a value that no conversion has written is `none`. -/
inductive Turn
  | nullPointer
  | nothing
  | debug
  | setStr (name p : Str)
  | setInt (name : Str) (val : Option (BitVec 32))
  | fail (name p : Str)
  | undefined
  deriving DecidableEq, Repr

/-- `case 'd'`. -/
def caseD (name p : Str) : Turn :=
  match sscanf (scanD p) none with
  | none => .undefined
  | some (r, val) =>
    match if r ≠ -1 then sscanf (scanX p) val else some (r, val) with
    | none => .undefined
    | some (r, val) => if r = -1 then .fail name p else .setInt name val

/-- `case 's'`. -/
def caseS (name p : Str) : Turn := if name ≠ [] then .setStr name p else .fail name p

/-- The body of the loop, with what `getopt` has left in `c` and `optarg`. -/
def turn (c : Char) (optarg : Option Str) : Turn :=
  match optarg with
  | none => .nullPointer
  | some arg =>
    if '=' ∈ arg then
      let name := arg.takeWhile (· ≠ '=')
      let p := (arg.dropWhile (· ≠ '=')).tail
      match c with
      | 'v' => .debug
      | 's' => caseS name p
      | 'd' => caseD name p
      | _ => .nothing
    else .nothing

/-- The argument is cut at its first `=`. -/
theorem turn_cut {name : Str} (hname : '=' ∉ name) (p : Str) :
    turn 's' (some (name ++ '=' :: p)) = caseS name p ∧
      turn 'd' (some (name ++ '=' :: p)) = caseD name p := by
  have hall : ∀ c ∈ name, decide (c ≠ '=') = true := by
    intro c hc
    exact decide_eq_true fun h => hname (h ▸ hc)
  have hfront : (name ++ '=' :: p).takeWhile (· ≠ '=') = name := by
    rw [List.takeWhile_append_of_pos hall, List.takeWhile_cons_of_neg (by simp), List.append_nil]
  have hback : (name ++ '=' :: p).dropWhile (· ≠ '=') = '=' :: p := by
    rw [List.dropWhile_append_of_pos hall, List.dropWhile_cons_of_neg (by simp)]
  have hmem : '=' ∈ name ++ '=' :: p := List.mem_append_right _ List.mem_cons_self
  simp only [turn, if_pos hmem, hfront, hback, List.tail_cons, and_self]

/-! ## The documented numerals -/

/-- What a value of `-d` stands for: `0x` and hexadecimal digits, for a word of 32 bits, or a
sign that there may be and decimal digits, for an `int`. -/
def numeral : Str → Option (BitVec 32)
  | '0' :: 'x' :: ds =>
    if ds ≠ [] ∧ ds.all (isDigit 16) ∧ value 16 ds < 2 ^ 32 then
      some (BitVec.ofNat 32 (value 16 ds))
    else none
  | p =>
    let n := signed (cutSign p).1 (value 10 (cutSign p).2)
    if (cutSign p).2 ≠ [] ∧ (cutSign p).2.all (isDigit 10) ∧ fitsInt n then
      some (BitVec.ofInt 32 n)
    else none

/-- What is to be done with a value of `-d`. -/
def expected (name p : Str) : Turn :=
  match numeral p with
  | some v => .setInt name (some v)
  | none => .fail name p

/-- `0x` and hexadecimal digits, for a word of 32 bits. -/
def IsHex (p : Str) : Prop :=
  ∃ ds, p = '0' :: 'x' :: ds ∧ ds ≠ [] ∧ (∀ c ∈ ds, isDigit 16 c) ∧ value 16 ds < 2 ^ 32

/-- A sign that there may be and decimal digits. -/
def IsDecimal (p : Str) : Prop := (cutSign p).2 ≠ [] ∧ ∀ c ∈ (cutSign p).2, isDigit 10 c

/-- Nothing but white space. -/
def IsBlank (p : Str) : Prop := ∀ c ∈ p, isSpace c = true

theorem not_isDigit_x {base : ℕ} (h : base ≤ 16) : isDigit base 'x' = false :=
  decide_eq_false (by rw [show digitVal 'x' = 16 by decide]; omega)

theorem isSpace_of_digit {base : ℕ} (hbase : base ≤ 16) {c : Char} (h : isDigit base c) :
    isSpace c = false := by
  have hval : digitVal c < 16 := (of_decide_eq_true h).trans_le hbase
  exact isSpace_eq_false (P := fun c => digitVal c < 16) (by decide) hval

theorem numeral_of_isHex {p : Str} (h : IsHex p) :
    ∃ ds, p = '0' :: 'x' :: ds ∧ numeral p = some (BitVec.ofNat 32 (value 16 ds)) := by
  obtain ⟨ds, rfl, hne, hds, hlt⟩ := h
  exact ⟨ds, rfl, by rw [numeral, if_pos ⟨hne, List.all_eq_true.mpr hds, hlt⟩]⟩

/-- A decimal numeral does not start with `0x`. -/
theorem IsDecimal.not_hex {p : Str} (h : IsDecimal p) (ds : Str) : p ≠ '0' :: 'x' :: ds := by
  rintro rfl
  have hx := h.2 'x' (List.mem_cons_of_mem _ List.mem_cons_self)
  rw [not_isDigit_x (by omega)] at hx
  exact absurd hx (by decide)

theorem numeral_of_not_hex {p : Str} (h : ∀ ds, p ≠ '0' :: 'x' :: ds) :
    numeral p = if (cutSign p).2 ≠ [] ∧ (cutSign p).2.all (isDigit 10) ∧
      fitsInt (signed (cutSign p).1 (value 10 (cutSign p).2)) then
        some (BitVec.ofInt 32 (signed (cutSign p).1 (value 10 (cutSign p).2))) else none := by
  rw [numeral]
  exact h

/-- What is documented is one of the two. -/
theorem isHex_or_isDecimal {p : Str} {v : BitVec 32} (h : numeral p = some v) :
    IsHex p ∨ IsDecimal p ∧ fitsInt (signed (cutSign p).1 (value 10 (cutSign p).2)) := by
  by_cases hp : ∃ ds, p = '0' :: 'x' :: ds
  · obtain ⟨ds, rfl⟩ := hp
    rw [numeral] at h
    split_ifs at h with hds
    exact Or.inl ⟨ds, rfl, hds.1, List.all_eq_true.mp hds.2.1, hds.2.2⟩
  · push Not at hp
    rw [numeral_of_not_hex hp] at h
    split_ifs at h with hds
    exact Or.inr ⟨⟨hds.1, List.all_eq_true.mp hds.2.1⟩, hds.2.2⟩

/-! ## What the two conversions make of a value -/

theorem scanD_of_hex {ds : Str} : scanD ('0' :: 'x' :: ds) = .value 0 := by
  have hds : (cutSign ('0' :: 'x' :: ds)).2.takeWhile (isDigit 10) = ['0'] := by
    show ('0' :: 'x' :: ds).takeWhile (isDigit 10) = ['0']
    rw [List.takeWhile_cons_of_pos (by decide),
      List.takeWhile_cons_of_neg (by rw [not_isDigit_x (by omega)]; decide)]
  rw [scanD, scan_of_digits (by simp [isSpace]) hds (by simp) (by simp)]
  rfl

theorem takeWhile_digits {base : ℕ} {ds : Str} (h : ∀ c ∈ ds, isDigit base c) :
    ds.takeWhile (isDigit base) = ds := List.takeWhile_eq_self_iff.mpr h

theorem scanX_of_hex {ds : Str} (hne : ds ≠ []) (h : ∀ c ∈ ds, isDigit 16 c)
    (hfits : value 16 ds < 2 ^ 32) :
    scanX ('0' :: 'x' :: ds) = .value (BitVec.ofNat 32 (value 16 ds)) := by
  have hds : hexDigits (cutSign ('0' :: 'x' :: ds)).2 = ds := takeWhile_digits h
  rw [scanX, scan_of_digits (by simp [isSpace]) hds hne (by simp)]
  show (if fitsUnsigned (signed false (value 16 ds)) then _ else _) = _
  rw [if_pos ((fitsUnsigned_signed false _).mpr hfits)]
  rfl

/-- A decimal numeral starts with a sign or a digit. -/
theorem IsDecimal.head {p : Str} (h : IsDecimal p) : ∀ c ∈ p.head?, isSpace c = false := by
  intro c hc
  cases p with
  | nil => exact absurd hc (by simp)
  | cons b p =>
    obtain rfl : b = c := by simpa using hc
    by_cases hminus : b = '-'
    · rw [hminus]
      decide
    · by_cases hplus : b = '+'
      · rw [hplus]
        decide
      · have hcut : cutSign (b :: p) = (false, b :: p) := by
          rw [cutSign]
          · simpa using hminus
          · simpa using hplus
        have hdigit := h.2 b (by rw [hcut]; exact List.mem_cons_self)
        exact isSpace_of_digit (by omega) hdigit

theorem IsDecimal.ne_nil {p : Str} (h : IsDecimal p) : p ≠ [] := by
  rintro rfl
  exact h.1 rfl

/-- `%x` takes decimal digits, too. -/
theorem hexDigits_of_decimal {ds : Str} (h : ∀ c ∈ ds, isDigit 10 c) : hexDigits ds = ds := by
  have hhex : ∀ c ∈ ds, isDigit 16 c := by
    intro c hc
    have hlt : digitVal c < 10 := of_decide_eq_true (h c hc)
    exact decide_eq_true (by omega)
  rw [hexDigits]
  · exact takeWhile_digits hhex
  · rintro s rfl
    exact absurd (h 'x' (by simp)) (by decide)
  · rintro s rfl
    exact absurd (h 'X' (by simp)) (by decide)

theorem scanD_of_decimal {p : Str} (h : IsDecimal p)
    (hfits : fitsInt (signed (cutSign p).1 (value 10 (cutSign p).2))) :
    scanD p = .value (BitVec.ofInt 32 (signed (cutSign p).1 (value 10 (cutSign p).2))) := by
  rw [scanD, scan_of_digits h.head (takeWhile_digits h.2) h.1 h.ne_nil, if_pos hfits]

theorem scanX_of_decimal {p : Str} (h : IsDecimal p) :
    scanX p = if fitsUnsigned (signed (cutSign p).1 (value 16 (cutSign p).2)) then
      .value (BitVec.ofInt 32 (signed (cutSign p).1 (value 16 (cutSign p).2))) else .overflow :=
  scan_of_digits h.head (hexDigits_of_decimal h.2) h.1 h.ne_nil

theorem caseD_cases (name p : Str) :
    caseD name p = .undefined ∨ caseD name p = .fail name p ∨
      ∃ val, caseD name p = .setInt name val := by
  rw [caseD]
  split
  · exact Or.inl rfl
  · split
    · exact Or.inl rfl
    · split_ifs
      · exact Or.inr (Or.inl rfl)
      · exact Or.inr (Or.inr ⟨_, rfl⟩)

theorem caseD_of_value {name p : Str} {v w : BitVec 32} (hd : scanD p = .value v)
    (hx : scanX p = .value w) : caseD name p = .setInt name (some w) := by
  rw [caseD, hd, hx]
  rfl

/-- The failure is reported if and only if there was nothing to read. -/
theorem caseD_eq_fail_iff {name p : Str} : caseD name p = .fail name p ↔ IsBlank p := by
  constructor
  · intro h
    by_contra hblank
    have hd : scanD p ≠ .eof := fun heof => hblank (scan_eq_eof_iff.mp heof)
    have hx : scanX p ≠ .eof := fun heof => hblank (scan_eq_eof_iff.mp heof)
    rw [caseD] at h
    cases hfirst : sscanf (scanD p) none with
    | none =>
      rw [hfirst] at h
      exact absurd h (by simp)
    | some r =>
      have hr : r.1 ≠ -1 := sscanf_ne hd hfirst
      rw [hfirst] at h
      simp only [if_pos hr] at h
      cases hsecond : sscanf (scanX p) r.2 with
      | none =>
        rw [hsecond] at h
        exact absurd h (by simp)
      | some r' =>
        have hr' : r'.1 ≠ -1 := sscanf_ne hx hsecond
        rw [hsecond] at h
        simp only [if_neg hr'] at h
        exact absurd h (by simp)
  · intro h
    have hd : scanD p = .eof := scan_eq_eof_iff.mpr h
    rw [caseD, hd]
    rfl

/-! ## The value that is set -/

/-- Decimal digits are the right ones for `%x` if those in front of the last one are zeros. -/
theorem caseD_decimal_iff {name p : Str} (h : IsDecimal p)
    (hfits : fitsInt (signed (cutSign p).1 (value 10 (cutSign p).2))) :
    caseD name p =
        .setInt name (some (BitVec.ofInt 32 (signed (cutSign p).1 (value 10 (cutSign p).2)))) ↔
      ∀ c ∈ (cutSign p).2.dropLast, digitVal c = 0 := by
  have hten : value 10 (cutSign p).2 < 2 ^ 32 := by
    have hint := of_decide_eq_true hfits
    cases hneg : (cutSign p).1 <;> simp only [hneg, signed] at hint <;> omega
  rw [← value_eq_value_iff (b := 16) (show 0 < 10 by omega) (by omega)]
  have hx := scanX_of_decimal h
  by_cases hlt : value 16 (cutSign p).2 < 2 ^ 32
  · rw [if_pos ((fitsUnsigned_signed _ _).mpr hlt)] at hx
    rw [caseD_of_value (scanD_of_decimal h hfits) hx, Turn.setInt.injEq, Option.some_inj,
      ofInt_signed_inj hlt hten, and_iff_right rfl]
    exact eq_comm
  · rw [if_neg (mt (fitsUnsigned_signed _ _).mp hlt)] at hx
    rw [caseD, scanD_of_decimal h hfits, hx]
    refine iff_of_false ?_ (by omega)
    simp [sscanf]

theorem IsHex.not_decimal {p : Str} (h : IsHex p) : ¬ IsDecimal p := by
  obtain ⟨ds, hp, -⟩ := h
  exact fun hdec => hdec.not_hex ds hp

theorem IsDecimal.not_blank {p : Str} (h : IsDecimal p) : ¬ IsBlank p := by
  intro hblank
  cases p with
  | nil => exact h.ne_nil rfl
  | cons c p =>
    have hc := h.head c rfl
    rw [hblank c List.mem_cons_self] at hc
    exact absurd hc (by decide)

theorem IsHex.not_blank {p : Str} (h : IsHex p) : ¬ IsBlank p := by
  obtain ⟨ds, rfl, -⟩ := h
  intro hblank
  exact absurd (hblank '0' List.mem_cons_self) (by decide)

/-- The values that are dealt with as they are documented. -/
def Agrees (p : Str) : Prop :=
  IsBlank p ∨ IsHex p ∨ IsDecimal p ∧ ∀ c ∈ (cutSign p).2.dropLast, digitVal c = 0

/-- What agrees and is not blank is documented. -/
theorem numeral_isSome_of_zeros {p : Str} (h : IsDecimal p)
    (hzeros : ∀ c ∈ (cutSign p).2.dropLast, digitVal c = 0) : (numeral p).isSome := by
  have hlt := value_lt_of_zeros (by omega) h.2 hzeros
  have hfits : fitsInt (signed (cutSign p).1 (value 10 (cutSign p).2)) := by
    refine decide_eq_true ?_
    cases (cutSign p).1 <;> simp only [signed] <;> omega
  rw [numeral_of_not_hex h.not_hex, if_pos ⟨h.1, List.all_eq_true.mpr h.2, hfits⟩]
  rfl

/-- The value of `-d` is dealt with as documented. -/
theorem caseD_eq_expected_iff (name p : Str) : caseD name p = expected name p ↔ Agrees p := by
  rw [expected]
  cases hnum : numeral p with
  | none =>
    show caseD name p = .fail name p ↔ _
    rw [caseD_eq_fail_iff]
    refine ⟨Or.inl, fun h => ?_⟩
    rcases h with h | h | h
    · exact h
    · obtain ⟨ds, -, hsome⟩ := numeral_of_isHex h
      exact absurd (hnum.symm.trans hsome) (by simp)
    · have hsome := numeral_isSome_of_zeros h.1 h.2
      rw [hnum] at hsome
      exact absurd hsome (by decide)
  | some v =>
    show caseD name p = .setInt name (some v) ↔ _
    rcases isHex_or_isDecimal hnum with h | ⟨h, hfits⟩
    · refine iff_of_true ?_ (Or.inr (Or.inl h))
      obtain ⟨ds, rfl, hne, hds, hlt⟩ := h
      rw [numeral, if_pos ⟨hne, List.all_eq_true.mpr hds, hlt⟩] at hnum
      rw [caseD_of_value scanD_of_hex (scanX_of_hex hne hds hlt), hnum]
    · rw [numeral_of_not_hex h.not_hex, if_pos ⟨h.1, List.all_eq_true.mpr h.2, hfits⟩] at hnum
      rw [← Option.some.inj hnum, caseD_decimal_iff h hfits]
      constructor
      · exact fun hzeros => Or.inr (Or.inr ⟨h, hzeros⟩)
      · rintro (hblank | hhex | hzeros)
        · exact absurd hblank h.not_blank
        · exact absurd h hhex.not_decimal
        · exact hzeros.2

/-- **An option `-d name=p` sets the documented value, or fails if there is none**, if and only
if `p` is blank, or a hexadecimal numeral, or a decimal one whose digits are all zeros but the
last. -/
theorem turn_d_iff {name : Str} (hname : '=' ∉ name) (p : Str) :
    turn 'd' (some (name ++ '=' :: p)) = expected name p ↔ Agrees p := by
  rw [(turn_cut hname p).2, caseD_eq_expected_iff]

/-- `-d hex=0xdeadbeef`. -/
theorem turn_d_deadbeef :
    turn 'd' (some ("hex".toList ++ '=' :: "0xdeadbeef".toList)) =
      expected "hex".toList "0xdeadbeef".toList :=
  (turn_d_iff (by decide) _).mpr (Or.inr (Or.inl ⟨"deadbeef".toList, rfl, by simp,
    List.all_eq_true.mp (by decide), by decide⟩))

/-- `-d count=10` sets 16. -/
theorem not_turn_d :
    ¬ ∀ name p : Str, name ≠ [] → '=' ∉ name →
      turn 'd' (some (name ++ '=' :: p)) = expected name p := by
  intro h
  have hten := h "count".toList "10".toList (by simp) (by decide)
  exact absurd hten (by decide)

/-- Text that is no number at all is not refused, and nothing has been read. -/
example : turn 'd' (some "count=zz".toList) = .setInt "count".toList none := by decide

end ConfigOptarg
