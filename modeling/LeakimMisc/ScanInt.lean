/-
# Reading integers with `sscanf`

The conversions `%d` and `%x` of `sscanf` into a variable of 32 bits: white space is passed
over, then there may be a sign, and the digits go as far as they can.  A number that the
variable cannot hold is undefined behaviour.

Digits that are read in two bases stand for the same number only if all of them but the last are
zeros (`value_eq_value_iff`).
-/
import LeakimMisc.PyStr

open PyStr

namespace ScanInt

/-! ## Digits -/

/-- The value of a digit; 16 for what is none. -/
def digitVal (c : Char) : ℕ :=
  if '0' ≤ c ∧ c ≤ '9' then c.toNat - '0'.toNat
  else if 'a' ≤ c ∧ c ≤ 'f' then c.toNat - 'a'.toNat + 10
  else if 'A' ≤ c ∧ c ≤ 'F' then c.toNat - 'A'.toNat + 10
  else 16

/-- A digit of a base up to 16. -/
def isDigit (base : ℕ) (c : Char) : Bool := digitVal c < base

/-- The number that digits stand for. -/
def value (base : ℕ) (ds : Str) : ℕ := ds.foldl (fun n c => base * n + digitVal c) 0

theorem value_concat (base : ℕ) (ds : Str) (c : Char) :
    value base (ds ++ [c]) = base * value base ds + digitVal c := by
  rw [value, List.foldl_append]
  rfl

theorem value_eq_zero_iff {base : ℕ} (hbase : 0 < base) (ds : Str) :
    value base ds = 0 ↔ ∀ c ∈ ds, digitVal c = 0 := by
  induction ds using List.reverseRecOn with
  | nil => simp [value]
  | append_singleton ds c ih =>
    rw [value_concat, List.forall_mem_append, ← ih, List.forall_mem_singleton,
      Nat.add_eq_zero_iff, Nat.mul_eq_zero, or_iff_right (by omega)]

theorem value_mono {a b : ℕ} (hab : a ≤ b) (ds : Str) : value a ds ≤ value b ds := by
  induction ds using List.reverseRecOn with
  | nil => exact le_rfl
  | append_singleton ds c ih =>
    rw [value_concat, value_concat]
    have hmul := Nat.mul_le_mul hab ih
    omega

/-- **The same digits in two bases** stand for the same number if and only if those in front of
the last one are zeros. -/
theorem value_eq_value_iff {a b : ℕ} (ha : 0 < a) (hab : a < b) (ds : Str) :
    value a ds = value b ds ↔ ∀ c ∈ ds.dropLast, digitVal c = 0 := by
  rcases List.eq_nil_or_concat ds with rfl | ⟨front, c, rfl⟩
  · simp [value]
  · rw [List.concat_eq_append, List.dropLast_concat, value_concat, value_concat,
      ← value_eq_zero_iff ha]
    have hle := value_mono hab.le front
    constructor
    · intro h
      by_contra hne
      have hlt : a * value a front < b * value b front :=
        Nat.mul_lt_mul_of_lt_of_le hab hle (Nat.pos_of_ne_zero fun h0 => by omega)
      omega
    · intro h
      have hzero : value b front = 0 :=
        (value_eq_zero_iff (by omega) front).mpr ((value_eq_zero_iff ha front).mp h)
      rw [h, hzero]
      omega

/-- Then it is the value of the last digit. -/
theorem value_lt_of_zeros {base : ℕ} (hbase : 0 < base) {ds : Str}
    (hds : ∀ c ∈ ds, isDigit base c) (hzeros : ∀ c ∈ ds.dropLast, digitVal c = 0) :
    value base ds < base := by
  rcases List.eq_nil_or_concat ds with rfl | ⟨front, c, rfl⟩
  · exact hbase
  · rw [List.concat_eq_append] at hds hzeros ⊢
    rw [List.dropLast_concat] at hzeros
    have hlast : digitVal c < base := of_decide_eq_true (hds c (by simp))
    rw [value_concat, (value_eq_zero_iff hbase front).mpr hzeros]
    omega

/-! ## The conversions -/

/-- What a conversion comes to. -/
inductive Scanned
  | eof
  | noMatch
  | value (v : BitVec 32)
  | overflow
  deriving DecidableEq, Repr

/-- A sign that there may be, and the rest. -/
def cutSign : Str → Bool × Str
  | '-' :: s => (true, s)
  | '+' :: s => (false, s)
  | s => (false, s)

/-- A number with its sign. -/
def signed (neg : Bool) (n : ℕ) : ℤ := if neg then -n else n

/-- Both conversions, from the digits that come behind the sign, and what can be stored. -/
def scan (base : ℕ) (digits : Str → Str) (fits : ℤ → Bool) (s : Str) : Scanned :=
  match s.dropWhile isSpace with
  | [] => .eof
  | t =>
    let ds := digits (cutSign t).2
    if ds = [] then .noMatch
    else
      let n := signed (cutSign t).1 (value base ds)
      if fits n then .value (BitVec.ofInt 32 n) else .overflow

/-- The values of an `int`. -/
def fitsInt (n : ℤ) : Bool := -2 ^ 31 ≤ n ∧ n < 2 ^ 31

/-- What an `unsigned int` can hold, with or without a sign in front. -/
def fitsUnsigned (n : ℤ) : Bool := n.natAbs < 2 ^ 32

/-- The digits of `%x`: `0x` may be in front of them, but then there has to be one. -/
def hexDigits : Str → Str
  | '0' :: 'x' :: s => s.takeWhile (isDigit 16)
  | '0' :: 'X' :: s => s.takeWhile (isDigit 16)
  | s => s.takeWhile (isDigit 16)

/-- `%d`. -/
def scanD (s : Str) : Scanned := scan 10 (List.takeWhile (isDigit 10)) fitsInt s

/-- `%x`. -/
def scanX (s : Str) : Scanned := scan 16 hexDigits fitsUnsigned s

/-- `sscanf` with one conversion: its result, and the variable; `none` is undefined. -/
def sscanf (r : Scanned) (val : Option (BitVec 32)) : Option (ℤ × Option (BitVec 32)) :=
  match r with
  | .eof => some (-1, val)
  | .noMatch => some (0, val)
  | .value v => some (1, some v)
  | .overflow => none

/-- Only the end of the text is reported as -1: no match is 0. -/
theorem sscanf_ne {r : Scanned} {val : Option (BitVec 32)} {n : ℤ × Option (BitVec 32)}
    (hr : r ≠ .eof) (h : sscanf r val = some n) : n.1 ≠ -1 := by
  cases r with
  | eof => exact absurd rfl hr
  | noMatch =>
    rw [← Option.some.inj h]
    show (0 : ℤ) ≠ -1
    omega
  | value v =>
    rw [← Option.some.inj h]
    show (1 : ℤ) ≠ -1
    omega
  | overflow => exact absurd h (by simp [sscanf])

/-- Numbers of the same sign below `2 ^ 32` are told apart by what is stored of them. -/
theorem ofInt_signed_inj {neg : Bool} {m n : ℕ} (hm : m < 2 ^ 32) (hn : n < 2 ^ 32) :
    BitVec.ofInt 32 (signed neg m) = BitVec.ofInt 32 (signed neg n) ↔ m = n := by
  constructor
  · intro h
    have hmod := congrArg BitVec.toNat h
    rw [BitVec.toNat_ofInt, BitVec.toNat_ofInt] at hmod
    cases neg with
    | true =>
      have hmod : (-(m : ℤ) % (2 ^ 32 : ℕ)).toNat = (-(n : ℤ) % (2 ^ 32 : ℕ)).toNat := hmod
      omega
    | false =>
      have hmod : ((m : ℤ) % (2 ^ 32 : ℕ)).toNat = ((n : ℤ) % (2 ^ 32 : ℕ)).toNat := hmod
      omega
  · rintro rfl
    rfl

theorem fitsUnsigned_signed (neg : Bool) (n : ℕ) : fitsUnsigned (signed neg n) ↔ n < 2 ^ 32 := by
  cases neg <;> simp [fitsUnsigned, signed]

/-! ## Texts without white space in front -/

theorem scan_eq_eof_iff {base : ℕ} {digits : Str → Str} {fits : ℤ → Bool} {s : Str} :
    scan base digits fits s = .eof ↔ ∀ c ∈ s, isSpace c = true := by
  rw [← List.dropWhile_eq_nil_iff, scan]
  cases s.dropWhile isSpace with
  | nil => simp
  | cons c t =>
    refine iff_of_false ?_ (by simp)
    dsimp only
    split_ifs <;> simp

theorem scan_of_digits {base : ℕ} {digits : Str → Str} {fits : ℤ → Bool} {s ds : Str}
    (hs : ∀ c ∈ s.head?, isSpace c = false) (hds : digits (cutSign s).2 = ds) (hne : ds ≠ [])
    (hs_ne : s ≠ []) :
    scan base digits fits s =
      if fits (signed (cutSign s).1 (value base ds)) then
        .value (BitVec.ofInt 32 (signed (cutSign s).1 (value base ds)))
      else .overflow := by
  cases s with
  | nil => exact absurd rfl hs_ne
  | cons c t =>
    have hc : isSpace c = false := hs c rfl
    have hdrop : (c :: t).dropWhile isSpace = c :: t :=
      List.dropWhile_cons_of_neg (by rw [hc]; decide)
    rw [scan, hdrop]
    dsimp only
    rw [hds, if_neg hne]

end ScanInt
