/-
# The rows of a hex dump

`src/c/gdb-scripts/hexdump.gdb`: the gdb command `hexdump <address> <length>` shows memory in
rows of sixteen bytes, in hexadecimal and as characters.  The length is counted down by
sixteen until it is no longer positive; what that means depends on its type.

The memory is 64 bits wide; a byte that gdb cannot read is `none`.
-/
import LeakimMisc.ListPieces

namespace Hexdump

/-! ## The command -/

abbrev Addr := BitVec 64

abbrev Mem := Addr → Option UInt8

/-- The value of `$kgm_len`: an `int`, or unsigned and `w` bits wide. -/
inductive Length
  | int (v : BitVec 32)
  | unsigned (w : ℕ) (v : BitVec w)

/-- The number that is meant. -/
def Length.value : Length → ℤ
  | .int v => v.toInt
  | .unsigned _ v => v.toNat

/-- `$kgm_len -= 16`: a type that is narrower than `int` becomes `int`, an unsigned one of its
width or more stays what it is. -/
def Length.sub16 : Length → Length
  | .int v => .int (v - 16)
  | .unsigned w v => if w < 32 then .int (v.setWidth 32 - 16) else .unsigned w (v - 16)

/-- The byte that is printed in the character column: what is not printable is a dot. -/
def char (b : UInt8) : UInt8 := if b < 32 ∨ 127 ≤ b then 46 else b

/-- A row: what `showptr` prints of the address (`%08x` is 32 bits), and the bytes of both
columns with the addresses they were read from. -/
structure Row where
  ptr : BitVec 32
  hex : List (Addr × UInt8)
  chars : List (Addr × UInt8)

/-- One of the inner loops. -/
def column (f : UInt8 → UInt8) (mem : Mem) (addr : Addr) : Option (List (Addr × UInt8)) :=
  (List.range 16).mapM fun i =>
    (mem (addr + BitVec.ofNat 64 i)).map fun b => (addr + BitVec.ofNat 64 i, f b)

/-- The body of the outer loop. -/
def row (mem : Mem) (addr : Addr) : Option Row :=
  (column id mem addr).bind fun hex =>
    (column char mem addr).map fun chars => ⟨addr.setWidth 32, hex, chars⟩

/-- How the command ends: not yet, with an error of gdb, or with all its rows printed. -/
inductive Result
  | running
  | error
  | done (rows : List Row)

/-- A row in front of what follows. -/
def Result.cons (r : Row) : Result → Result
  | .running => .running
  | .error => .error
  | .done rows => .done (r :: rows)

/-- The outer loop, for as many tests of its condition as `fuel` allows. -/
def hexdump (mem : Mem) : ℕ → Addr → Length → Result
  | 0, _, _ => .running
  | fuel + 1, addr, len =>
    if 0 < len.value then
      match row mem addr with
      | none => .error
      | some r => (hexdump mem fuel (addr + 16) len.sub16).cons r
    else .done []

/-! ## The length -/

/-- Sixteen less, as long as there are sixteen. -/
theorem Length.value_sub16 {len : Length} (h : 16 ≤ len.value) :
    len.sub16.value = len.value - 16 := by
  cases len with
  | int v =>
    show (v - 16).toInt = v.toInt - 16
    have h : 16 ≤ v.toInt := h
    have hlt := BitVec.toInt_lt (x := v)
    rw [BitVec.toInt_sub, show (16 : BitVec 32).toInt = 16 by decide]
    exact Int.bmod_eq_of_le_mul_two (by omega) (by omega)
  | unsigned w v =>
    have h : 16 ≤ (v.toNat : ℤ) := h
    have hlt := v.isLt
    rw [Length.sub16]
    by_cases hw : w < 32
    · have hpow : 2 ^ w ≤ 2 ^ 31 := Nat.pow_le_pow_right (by decide) (by omega)
      have hint : (v.setWidth 32).toInt = v.toNat := by
        rw [BitVec.toInt_eq_toNat_of_lt (by rw [BitVec.toNat_setWidth]; omega),
          BitVec.toNat_setWidth, Nat.mod_eq_of_lt (by omega)]
      rw [if_pos hw]
      show (v.setWidth 32 - 16).toInt = (v.toNat : ℤ) - 16
      rw [BitVec.toInt_sub, hint, show (16 : BitVec 32).toInt = 16 by decide]
      exact Int.bmod_eq_of_le_mul_two (by omega) (by omega)
    · have hsixteen : (16 : BitVec w).toNat = 16 := by
        show 16 % 2 ^ w = 16
        rw [Nat.mod_eq_of_lt (by omega)]
      rw [if_neg hw]
      show ((v - 16).toNat : ℤ) = (v.toNat : ℤ) - 16
      rw [BitVec.toNat_sub_of_le (by rw [BitVec.le_def, hsixteen]; omega), hsixteen]
      omega

/-! ## The bytes to be shown -/

/-- The `n` bytes at `addr`, each with its address and shown by `f`. -/
def cells (f : UInt8 → UInt8) (mem : Mem) (addr : Addr) (n : ℕ) : List (Addr × Option UInt8) :=
  (List.range n).map fun i =>
    (addr + BitVec.ofNat 64 i, (mem (addr + BitVec.ofNat 64 i)).map f)

/-- What a column shows, in the form of `cells`. -/
def shown (cs : List (Addr × UInt8)) : List (Addr × Option UInt8) := cs.map fun p => (p.1, some p.2)

theorem shown_append (cs cs' : List (Addr × UInt8)) :
    shown (cs ++ cs') = shown cs ++ shown cs' := List.map_append

theorem cells_add (f : UInt8 → UInt8) (mem : Mem) (addr : Addr) (m n : ℕ) :
    cells f mem addr (m + n) = cells f mem addr m ++ cells f mem (addr + BitVec.ofNat 64 m) n := by
  rw [cells, cells, cells, List.range_add, List.map_append, List.map_map]
  congr 2
  funext i
  show _ = (addr + BitVec.ofNat 64 m + BitVec.ofNat 64 i, _)
  rw [BitVec.add_assoc, ← BitVec.ofNat_add]
  rfl

/-- A column shows sixteen bytes. -/
theorem column_eq_some_iff {f : UInt8 → UInt8} {mem : Mem} {addr : Addr}
    {cs : List (Addr × UInt8)} :
    column f mem addr = some cs ↔ shown cs = cells f mem addr 16 := by
  have hcell : ∀ (c : Addr × UInt8) (a : Addr),
      some c = (mem a).map (fun b => (a, f b)) ↔ (c.1, some c.2) = (a, (mem a).map f) := by
    intro c a
    cases mem a with
    | none => simp
    | some b => simp [Prod.ext_iff]
  rw [column, Pieces.mapM_eq_some_iff, shown, cells, ← List.forall₂_eq_eq_eq,
    List.forall₂_map_left_iff, List.forall₂_map_right_iff]
  exact ⟨fun h => h.imp fun c i => (hcell c _).mp, fun h => h.imp fun c i => (hcell c _).mpr⟩

theorem column_isSome {mem : Mem} {addr : Addr} (f : UInt8 → UInt8)
    (h : ∀ i < 16, (mem (addr + BitVec.ofNat 64 i)).isSome) : (column f mem addr).isSome := by
  rw [column, Pieces.isSome_mapM_iff]
  intro i hi
  rw [Option.isSome_map]
  exact h i (List.mem_range.mp hi)

/-- A row shows sixteen bytes in both columns. -/
theorem row_spec {mem : Mem} {addr : Addr} {r : Row} (h : row mem addr = some r) :
    shown r.hex = cells id mem addr 16 ∧ shown r.chars = cells char mem addr 16 := by
  obtain ⟨hex, hhex, h⟩ := Option.bind_eq_some_iff.mp h
  obtain ⟨chars, hchars, rfl⟩ := Option.map_eq_some_iff.mp h
  exact ⟨column_eq_some_iff.mp hhex, column_eq_some_iff.mp hchars⟩

theorem row_isSome {mem : Mem} {addr : Addr}
    (h : ∀ i < 16, (mem (addr + BitVec.ofNat 64 i)).isSome) : (row mem addr).isSome := by
  obtain ⟨hex, hhex⟩ := Option.isSome_iff_exists.mp (column_isSome id h)
  obtain ⟨chars, hchars⟩ := Option.isSome_iff_exists.mp (column_isSome char h)
  rw [row, hhex, Option.bind_some, hchars]
  rfl

/-! ## The rows -/

/-- The command ends and shows the `n` bytes at `addr`, in order, in both columns of
`⌈n / 16⌉` rows, and has read nothing else. -/
def Shows (mem : Mem) (addr : Addr) (len : Length) (n : ℕ) : Prop :=
  ∃ fuel rows, hexdump mem fuel addr len = .done rows ∧ rows.length = (n + 15) / 16 ∧
    shown (rows.flatMap (·.hex)) = cells id mem addr n ∧
    shown (rows.flatMap (·.chars)) = cells char mem addr n

theorem cons_eq_done {r : Row} {res : Result} {rows : List Row} (h : res.cons r = .done rows) :
    ∃ rest, res = .done rest ∧ rows = r :: rest := by
  cases res with
  | running => exact absurd h (by simp [Result.cons])
  | error => exact absurd h (by simp [Result.cons])
  | done rest => exact ⟨rest, rfl, by simpa [Result.cons] using h.symm⟩

/-- Every row that is printed shows sixteen bytes. -/
theorem length_of_done {mem : Mem} {fuel : ℕ} {addr : Addr} {len : Length} {rows : List Row}
    (h : hexdump mem fuel addr len = .done rows) :
    (shown (rows.flatMap (·.hex))).length = 16 * rows.length := by
  induction fuel generalizing addr len rows with
  | zero => exact absurd h (by simp [hexdump])
  | succ fuel ih =>
    rw [hexdump] at h
    by_cases hlen : 0 < len.value
    · rw [if_pos hlen] at h
      cases hrow : row mem addr with
      | none =>
        rw [hrow] at h
        exact absurd h (by simp)
      | some r =>
        rw [hrow] at h
        obtain ⟨rest, hrest, rfl⟩ := cons_eq_done h
        have hr : (shown r.hex).length = 16 := by
          rw [(row_spec hrow).1, cells, List.length_map, List.length_range]
        rw [List.flatMap_cons, shown_append, List.length_append, ih hrest, hr, List.length_cons]
        omega
    · rw [if_neg hlen] at h
      obtain rfl : [] = rows := by simpa using h
      rfl

/-- A length of `q` times sixteen gives `q` rows. -/
theorem shows_of_value {mem : Mem} {addr : Addr} {len : Length} {q : ℕ}
    (hlen : len.value = 16 * (q : ℤ))
    (h : ∀ i < 16 * q, (mem (addr + BitVec.ofNat 64 i)).isSome) :
    ∃ rows, hexdump mem (q + 1) addr len = .done rows ∧ rows.length = q ∧
      shown (rows.flatMap (·.hex)) = cells id mem addr (16 * q) ∧
      shown (rows.flatMap (·.chars)) = cells char mem addr (16 * q) := by
  induction q generalizing addr len with
  | zero => exact ⟨[], by rw [hexdump, if_neg (by omega)], rfl, rfl, rfl⟩
  | succ q ih =>
    obtain ⟨r, hr⟩ := Option.isSome_iff_exists.mp
      (row_isSome fun i hi => h i (by omega))
    have hsub : len.sub16.value = 16 * (q : ℤ) := by
      rw [Length.value_sub16 (by omega)]
      omega
    have hrest : ∀ i < 16 * q, (mem (addr + 16 + BitVec.ofNat 64 i)).isSome := by
      intro i hi
      have h := h (16 + i) (by omega)
      rw [BitVec.ofNat_add, ← BitVec.add_assoc] at h
      exact h
    obtain ⟨rows, hrows, hlength, hhex, hchars⟩ := ih hsub hrest
    have hcells : ∀ f, cells f mem addr (16 * (q + 1)) =
        cells f mem addr 16 ++ cells f mem (addr + 16) (16 * q) := by
      intro f
      rw [show 16 * (q + 1) = 16 + 16 * q by omega, cells_add]
      rfl
    refine ⟨r :: rows, ?_, by rw [List.length_cons, hlength], ?_, ?_⟩
    · rw [hexdump, if_pos (by omega), hr]
      show (hexdump mem (q + 1) (addr + 16) len.sub16).cons r = _
      rw [hrows]
      rfl
    · rw [List.flatMap_cons, shown_append, (row_spec hr).1, hhex, hcells]
    · rw [List.flatMap_cons, shown_append, (row_spec hr).2, hchars, hcells]

/-- What is shown could be read. -/
theorem isSome_of_shown {f : UInt8 → UInt8} {mem : Mem} {addr : Addr} {n : ℕ}
    {cs : List (Addr × UInt8)} (h : shown cs = cells f mem addr n) :
    ∀ i < n, (mem (addr + BitVec.ofNat 64 i)).isSome := by
  intro i hi
  have hcell : (addr + BitVec.ofNat 64 i, (mem (addr + BitVec.ofNat 64 i)).map f) ∈ shown cs := by
    rw [h]
    exact List.mem_map.mpr ⟨i, List.mem_range.mpr hi, rfl⟩
  obtain ⟨c, -, hc⟩ := List.mem_map.mp hcell
  have hsome : some c.2 = (mem (addr + BitVec.ofNat 64 i)).map f := congrArg Prod.snd hc
  rw [← Option.isSome_map (f := f), ← hsome]
  rfl

/-- An unsigned length that is no multiple of sixteen passes by zero: the command does not
come to its end. -/
theorem hexdump_unsigned_ne_done {mem : Mem} {w : ℕ} (hw : 32 ≤ w) {v : BitVec w}
    (hv : ¬ 16 ∣ v.toNat) (fuel : ℕ) (addr : Addr) (rows : List Row) :
    hexdump mem fuel addr (.unsigned w v) ≠ .done rows := by
  induction fuel generalizing v addr rows with
  | zero => simp [hexdump]
  | succ fuel ih =>
    have hpos : 0 < (Length.unsigned w v).value := by
      show (0 : ℤ) < v.toNat
      by_contra hzero
      exact hv (by rw [show v.toNat = 0 by omega]; exact dvd_zero 16)
    -- 16 divides 2 ^ w, so that the remainder stays what it is
    have hsub : ¬ 16 ∣ (v - 16).toNat := by
      have hpow : 16 ∣ 2 ^ w := (show 16 ∣ 2 ^ 4 by decide).trans (pow_dvd_pow 2 (by omega))
      have hsixteen : (16 : BitVec w).toNat = 16 := by
        show 16 % 2 ^ w = 16
        have hle : 2 ^ 5 ≤ 2 ^ w := Nat.pow_le_pow_right (by decide) (by omega)
        exact Nat.mod_eq_of_lt (by omega)
      rw [BitVec.toNat_sub, hsixteen, Nat.dvd_mod_iff hpow]
      have hle := Nat.le_of_dvd (by positivity) hpow
      omega
    have hnarrow : (Length.unsigned w v).sub16 = .unsigned w (v - 16) := if_neg (by omega)
    rw [hexdump, if_pos hpos, hnarrow]
    cases row mem addr with
    | none => simp
    | some r =>
      intro h
      obtain ⟨rest, hrest, -⟩ := cons_eq_done h
      exact ih hsub (addr + 16) rest hrest

/-- **The dump shows the range that was asked for** if and only if its length is a multiple of
sixteen and gdb can read it. -/
theorem shows_iff (mem : Mem) (addr : Addr) (len : Length) :
    Shows mem addr len len.value.toNat ↔
      16 ∣ len.value.toNat ∧
        ∀ i < len.value.toNat, (mem (addr + BitVec.ofNat 64 i)).isSome := by
  constructor
  · rintro ⟨fuel, rows, hdone, -, hhex, -⟩
    have hlength := length_of_done hdone
    rw [hhex, cells, List.length_map, List.length_range] at hlength
    exact ⟨⟨rows.length, hlength⟩, isSome_of_shown hhex⟩
  · rintro ⟨⟨q, hq⟩, hread⟩
    rw [hq] at hread ⊢
    by_cases hneg : len.value < 0
    · obtain rfl : q = 0 := by omega
      have hstop : ¬ 0 < len.value := by omega
      exact ⟨1, [], by rw [hexdump, if_neg hstop], rfl, rfl, rfl⟩
    · have hvalue : len.value = 16 * (q : ℤ) := by omega
      obtain ⟨rows, hdone, hlength, hhex, hchars⟩ := shows_of_value hvalue hread
      exact ⟨q + 1, rows, hdone, by omega, hhex, hchars⟩

/-- For a `sizeof` of 20 the command does not end. -/
theorem not_shows :
    ¬ ∀ (mem : Mem) (addr : Addr) (len : Length), 0 ≤ len.value →
      (∀ i < len.value.toNat, (mem (addr + BitVec.ofNat 64 i)).isSome) →
      Shows mem addr len len.value.toNat := by
  intro h
  obtain ⟨fuel, rows, hdone, -⟩ := h (fun _ => some 0) 0x1000 (.unsigned 64 20) (by decide)
    fun i hi => rfl
  exact hexdump_unsigned_ne_done (by decide) (by decide) fuel _ rows hdone

end Hexdump
