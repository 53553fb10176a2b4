/-
# Adding up the sizes of symbols

`get_size.py`, which `src/shell/nm-obj_syms.sh` writes: the sizes in `nm.txt` are stored in a
dictionary by the name of the symbol.  The symbols that `obj.txt` lists are added up and taken
out, four special ones are taken out, and then the rest is added up.

A Python error (`KeyError`, `ValueError`) is `none`.
-/
import LeakimMisc.PyStr
import LeakimMisc.DictTotals
import LeakimMisc.ListPieces

open PyStr Dict

namespace GetSize

/-! ## The script -/

/-- A number in decimal digits. -/
def decNat (ds : Str) : Option ℕ :=
  if ds ≠ [] ∧ ds.all Char.isDigit then some (Nat.ofDigitChars 10 ds 0) else none

/-- `int(s)`. -/
def int10 (s : Str) : Option ℤ :=
  match strip s with
  | '-' :: ds => (decNat ds).map fun n => -(n : ℤ)
  | '+' :: ds => (decNat ds).map fun n => (n : ℤ)
  | ds => (decNat ds).map fun n => (n : ℤ)

/-- The first loop: a line of `nm.txt`. -/
def readNmLine (r : Dict Str Str) (line : Str) : Dict Str Str :=
  match split (strip line) with
  | size :: name :: _ => r.insert name size
  | _ => r

def readNm (nm : List Str) : Dict Str Str := nm.foldl readNmLine ∅

/-- The variables of the second loop, with the names reported as missing. -/
structure Drained where
  r : Dict Str Str
  esum : ℤ
  missing : List Str

/-- The second loop: a line of `obj.txt`. -/
def readObjLine (d : Drained) (line : Str) : Option Drained :=
  let name := strip line
  match d.r.lookup name with
  | none => some { d with missing := d.missing ++ [name] }
  | some size => (int10 size).map fun n => { d with r := d.r.erase name, esum := d.esum + n }

/-- The names behind `del`. -/
def special : List Str :=
  ["firmware_nrx511c".toList, "dlm1".toList, "dlm2".toList, "dlm3".toList]

/-- `del r[name]`. -/
def del (r : Dict Str Str) (name : Str) : Option (Dict Str Str) :=
  if name ∈ r then some (r.erase name) else none

/-- `r.iteritems()`: the items of a dictionary, in some order. -/
structure Iteritems where
  items : Dict Str Str → List (Str × Str)
  perm : ∀ r, (items r).Perm (r.entries.map fun e => (e.1, e.2))

/-- What is printed: the missing names, the remaining symbols, and the three totals. -/
structure Output where
  missing : List Str
  rows : List (ℤ × Str)
  sum : ℤ
  eum : ℤ
  tot : ℤ

/-- The last loop. -/
def rows (items : List (Str × Str)) : Option (List (ℤ × Str)) :=
  items.mapM fun p => (int10 p.2).map fun size => (size, p.1)

/-- The script, on the lines of `nm.txt` and `obj.txt`. -/
def getSize (order : Iteritems) (nm obj : List Str) : Option Output :=
  (obj.foldlM readObjLine ⟨readNm nm, 0, []⟩).bind fun d =>
    (special.foldlM del d.r).bind fun r =>
      (rows (order.items r)).map fun rs =>
        let ssum := (rs.map Prod.fst).sum
        { missing := d.missing, rows := rs, sum := ssum, eum := d.esum, tot := d.esum + ssum }

/-! ## The lines of `nm.txt` -/

/-- A symbol and its size, in decimal digits. -/
structure Symbol where
  size : Str
  name : Str
  size_ne : size ≠ []
  size_digits : ∀ c ∈ size, c.isDigit
  name_token : IsToken name

/-- The line `size name`. -/
def Symbol.line (s : Symbol) : Str := s.size ++ ' ' :: (s.name ++ ['\n'])

/-- The number that the digits of a size stand for. -/
def sizeValue (size : Str) : ℕ := Nat.ofDigitChars 10 size 0

/-- An entry of the dictionary. -/
def Symbol.item (s : Symbol) : Str × Str := (s.name, s.size)

theorem Symbol.split_line (s : Symbol) : split (strip s.line) = [s.size, s.name] := by
  have hsize : IsToken s.size :=
    ⟨s.size_ne, fun c hc => isSpace_of_isDigit (s.size_digits c hc)⟩
  rw [split_strip, Symbol.line, split_token_append hsize (by decide),
    split_token_append s.name_token (by decide), split_nil]

/-- The dictionary has the sizes as they are stored one after the other. -/
theorem readNm_lines (symbols : List Symbol) :
    readNm (symbols.map Symbol.line) = fill ∅ (symbols.map Symbol.item) := by
  rw [readNm, fill, List.foldl_map, List.foldl_map]
  congr 1
  funext r s
  rw [readNmLine, s.split_line]
  rfl

/-! ## Dictionaries of sizes -/

/-- All values are sizes that `int` can read. -/
def Sized (r : Dict Str Str) : Prop :=
  ∀ name size, r.lookup name = some size → int10 size = some (sizeValue size : ℤ)

theorem strip_of_digits {ds : Str} (h : ∀ c ∈ ds, c.isDigit) : strip ds = ds := by
  have hspace : ∀ c ∈ ds, isSpace c = false := fun c hc => isSpace_of_isDigit (h c hc)
  have hfront : ds.dropWhile isSpace = ds := by
    rw [List.dropWhile_eq_self_iff]
    intro hpos
    simp [hspace _ (List.getElem_mem hpos)]
  rw [strip, hfront, List.rdropWhile_eq_self_iff]
  intro hne
  simp [hspace _ (List.getLast_mem hne)]

theorem int10_digits {ds : Str} (hne : ds ≠ []) (h : ∀ c ∈ ds, c.isDigit) :
    int10 ds = some (sizeValue ds : ℤ) := by
  have hdec : decNat ds = some (sizeValue ds) := by
    rw [decNat, if_pos ⟨hne, List.all_eq_true.mpr h⟩, sizeValue]
  rw [int10, strip_of_digits h]
  split
  · exact absurd (h '-' List.mem_cons_self) (by decide)
  · exact absurd (h '+' List.mem_cons_self) (by decide)
  · rw [hdec]
    rfl

theorem sized_fill (symbols : List Symbol) : Sized (fill ∅ (symbols.map Symbol.item)) := by
  intro name size h
  rw [lookup_fill, AList.lookup_empty, Option.or_none, Option.map_eq_some_iff] at h
  obtain ⟨p, hp, rfl⟩ := h
  obtain ⟨s, -, rfl⟩ := List.mem_map.mp (List.mem_reverse.mp (List.mem_of_find?_eq_some hp))
  exact int10_digits s.size_ne s.size_digits

theorem Sized.erase {r : Dict Str Str} (h : Sized r) (name : Str) : Sized (r.erase name) := by
  intro name' size hsize
  have hne : name' ≠ name := by
    rintro rfl
    rw [AList.lookup_erase] at hsize
    exact absurd hsize (by simp)
  rw [AList.lookup_erase_ne hne] at hsize
  exact h name' size hsize

/-! ## The loops -/

/-- **A line of `obj.txt`** moves a size from the dictionary to `esum`, or is reported. -/
theorem readObjLine_spec {d : Drained} (h : Sized d.r) (line : Str) :
    ∃ d', readObjLine d line = some d' ∧ Sized d'.r ∧
      (total sizeValue d'.r : ℤ) + d'.esum = total sizeValue d.r + d.esum ∧
      ∀ name, strip line ≠ name → d'.r.lookup name = d.r.lookup name := by
  have herase := total_erase sizeValue d.r (strip line)
  rw [readObjLine]
  cases hsize : d.r.lookup (strip line) with
  | none => exact ⟨_, rfl, h, rfl, fun _ _ => rfl⟩
  | some size =>
    rw [hsize] at herase
    refine ⟨⟨d.r.erase (strip line), d.esum + sizeValue size, d.missing⟩, ?_, h.erase _, ?_, ?_⟩
    · show (int10 size).map _ = _
      rw [h _ _ hsize]
      rfl
    · show (total sizeValue (d.r.erase (strip line)) : ℤ) + (d.esum + sizeValue size) = _
      have hcast : (sizeValue size : ℤ) + total sizeValue (d.r.erase (strip line)) =
          total sizeValue d.r := by exact_mod_cast herase
      omega
    · exact fun name hname => AList.lookup_erase_ne (Ne.symm hname)

/-- The second loop keeps what is in the dictionary and `esum` together, and leaves the names
that are not listed alone. -/
theorem readObj_spec (obj : List Str) {d : Drained} (h : Sized d.r) :
    ∃ d', obj.foldlM readObjLine d = some d' ∧ Sized d'.r ∧
      (total sizeValue d'.r : ℤ) + d'.esum = total sizeValue d.r + d.esum ∧
      ∀ name, (∀ line ∈ obj, strip line ≠ name) → d'.r.lookup name = d.r.lookup name := by
  induction obj generalizing d with
  | nil => exact ⟨d, rfl, h, rfl, fun _ _ => rfl⟩
  | cons line obj ih =>
    obtain ⟨d₁, hline, h₁, htotal₁, hlookup₁⟩ := readObjLine_spec h line
    obtain ⟨d₂, hobj, h₂, htotal₂, hlookup₂⟩ := ih h₁
    refine ⟨d₂, ?_, h₂, htotal₂.trans htotal₁, ?_⟩
    · rw [List.foldlM_cons, hline]
      exact hobj
    · intro name hname
      rw [hlookup₂ name fun l hl => hname l (List.mem_cons_of_mem _ hl)]
      exact hlookup₁ name (hname line List.mem_cons_self)

/-- What `del` takes out is missing from the total. -/
theorem del_spec {names : List Str} (hnodup : names.Nodup) {r : Dict Str Str} (h : Sized r)
    (hmem : ∀ name ∈ names, name ∈ r) :
    ∃ r', names.foldlM del r = some r' ∧ Sized r' ∧
      total sizeValue r' + (names.map fun name => weight sizeValue (r.lookup name)).sum =
        total sizeValue r := by
  induction names generalizing r with
  | nil => exact ⟨r, rfl, h, rfl⟩
  | cons name names ih =>
    obtain ⟨hname, hnodup⟩ := List.nodup_cons.mp hnodup
    have hne : ∀ n ∈ names, n ≠ name := by
      rintro n hn rfl
      exact hname hn
    obtain ⟨r', hdel, h', htotal⟩ := ih hnodup (h.erase name) fun n hn =>
      AList.mem_erase.mpr ⟨hne n hn, hmem n (List.mem_cons_of_mem _ hn)⟩
    refine ⟨r', ?_, h', ?_⟩
    · rw [List.foldlM_cons, del, if_pos (hmem name List.mem_cons_self)]
      exact hdel
    · have hsame : (names.map fun n => weight sizeValue ((r.erase name).lookup n)) =
          names.map fun n => weight sizeValue (r.lookup n) := by
        refine List.map_congr_left fun n hn => ?_
        rw [AList.lookup_erase_ne (hne n hn)]
      have herase := total_erase sizeValue r name
      rw [hsame] at htotal
      rw [List.map_cons, List.sum_cons]
      omega

/-- The last loop adds up what is left, in whatever order. -/
theorem rows_spec (order : Iteritems) {r : Dict Str Str} (h : Sized r) :
    ∃ rs, rows (order.items r) = some rs ∧ (rs.map Prod.fst).sum = (total sizeValue r : ℤ) := by
  have hmem : ∀ p ∈ order.items r, int10 p.2 = some (sizeValue p.2 : ℤ) := by
    intro p hp
    obtain ⟨e, he, rfl⟩ := List.mem_map.mp ((order.perm r).mem_iff.mp hp)
    exact h e.1 e.2 (AList.mem_lookup_iff.mpr he)
  refine ⟨(order.items r).map fun p => ((sizeValue p.2 : ℤ), p.1), ?_, ?_⟩
  · rw [rows, Pieces.mapM_eq_some_iff, List.forall₂_map_left_iff, List.forall₂_same]
    intro p hp
    rw [hmem p hp]
    rfl
  · have hsum := ((order.perm r).map fun p => (sizeValue p.2 : ℤ)).sum_eq
    rw [List.map_map] at hsum ⊢
    rw [total, Nat.cast_list_sum, List.map_map]
    exact hsum

/-! ## The totals -/

/-- The size of a symbol. -/
def Symbol.value (s : Symbol) : ℕ := sizeValue s.size

/-- The sizes of the four symbols that are removed: those on their last lines. -/
def removed (symbols : List Symbol) : ℕ :=
  (special.map fun name =>
    weight Symbol.value (symbols.reverse.find? fun s => s.name = name)).sum

/-- The script ends, and the totals that it prints account for all sizes. -/
def Accounts (order : Iteritems) (symbols : List Symbol) (obj : List Str) : Prop :=
  ∃ out, getSize order (symbols.map Symbol.line) obj = some out ∧ out.sum + out.eum = out.tot ∧
    out.tot + removed symbols = ((symbols.map Symbol.value).sum : ℤ)

theorem lookup_items (symbols : List Symbol) (name : Str) :
    (fill ∅ (symbols.map Symbol.item)).lookup name =
      (symbols.reverse.find? fun s => s.name = name).map Symbol.size := by
  rw [lookup_fill, AList.lookup_empty, Option.or_none, ← List.map_reverse, List.find?_map,
    Option.map_map]
  rfl

/-- The totals are those of the dictionary. -/
theorem getSize_spec (order : Iteritems) {symbols : List Symbol} {obj : List Str}
    (hspecial : ∀ name ∈ special, ∃ s ∈ symbols, s.name = name)
    (hobj : ∀ line ∈ obj, strip line ∉ special) :
    ∃ out, getSize order (symbols.map Symbol.line) obj = some out ∧
      out.sum + out.eum = out.tot ∧ out.tot + removed symbols =
        (total sizeValue (fill ∅ (symbols.map Symbol.item)) : ℤ) := by
  obtain ⟨d, hd, hsized, htotal, hlookup⟩ :=
    readObj_spec obj (d := ⟨fill ∅ (symbols.map Symbol.item), 0, []⟩) (sized_fill symbols)
  have hkept : ∀ name ∈ special, d.r.lookup name =
      (symbols.reverse.find? fun s => s.name = name).map Symbol.size := by
    intro name hname
    rw [hlookup name fun line hline heq => hobj line hline (heq ▸ hname)]
    exact lookup_items symbols name
  have hmem : ∀ name ∈ special, name ∈ d.r := by
    intro name hname
    obtain ⟨s, hs, rfl⟩ := hspecial name hname
    rw [← AList.lookup_isSome, hkept _ hname, Option.isSome_map, List.find?_isSome]
    exact ⟨s, List.mem_reverse.mpr hs, decide_eq_true rfl⟩
  obtain ⟨r, hr, hr_sized, hr_total⟩ := del_spec (by decide) hsized hmem
  obtain ⟨rs, hrs, hsum⟩ := rows_spec order hr_sized
  have hremoved : (special.map fun name => weight sizeValue (d.r.lookup name)).sum =
      removed symbols := by
    rw [removed]
    congr 1
    refine List.map_congr_left fun name hname => ?_
    rw [hkept name hname]
    cases symbols.reverse.find? fun s => s.name = name <;> rfl
  refine ⟨⟨d.missing, rs, (rs.map Prod.fst).sum, d.esum, d.esum + (rs.map Prod.fst).sum⟩,
    ?_, ?_, ?_⟩
  · rw [getSize, readNm_lines, hd, Option.bind_some, hr, Option.bind_some, hrs]
    rfl
  · exact Int.add_comm _ _
  · show d.esum + (rs.map Prod.fst).sum + (removed symbols : ℤ) = _
    have hcast : (total sizeValue r : ℤ) + removed symbols = total sizeValue d.r := by
      rw [← hremoved]
      exact_mod_cast hr_total
    have htotal : (total sizeValue d.r : ℤ) + d.esum =
        total sizeValue (fill ∅ (symbols.map Symbol.item)) + 0 := htotal
    omega

/-- The totals account for all sizes if none got lost in the dictionary. -/
theorem accounts_iff_total (order : Iteritems) {symbols : List Symbol} {obj : List Str}
    (hspecial : ∀ name ∈ special, ∃ s ∈ symbols, s.name = name)
    (hobj : ∀ line ∈ obj, strip line ∉ special) :
    Accounts order symbols obj ↔ total sizeValue (fill ∅ (symbols.map Symbol.item)) =
      ((symbols.map Symbol.item).map fun p => sizeValue p.2).sum := by
  have hvalues : ((symbols.map Symbol.item).map fun p => sizeValue p.2) =
      symbols.map Symbol.value := List.map_map
  obtain ⟨out, hout, hsum, htotal⟩ := getSize_spec order hspecial hobj
  rw [hvalues]
  constructor
  · rintro ⟨out', hout', -, htotal'⟩
    obtain rfl := Option.some.inj (hout.symm.trans hout')
    exact_mod_cast htotal.symm.trans htotal'
  · intro h
    exact ⟨out, hout, hsum, by rw [htotal, h]⟩

/-- **No size is counted twice or dropped** if and only if no symbol has another one of its name
behind it in `nm.txt`, but for symbols of size 0. -/
theorem accounts_iff (order : Iteritems) {symbols : List Symbol} {obj : List Str}
    (hspecial : ∀ name ∈ special, ∃ s ∈ symbols, s.name = name)
    (hobj : ∀ line ∈ obj, strip line ∉ special) :
    Accounts order symbols obj ↔ symbols.Pairwise fun s t => s.name = t.name → s.value = 0 := by
  rw [accounts_iff_total order hspecial hobj, total_fill_eq_iff, List.pairwise_map]
  rfl

/-- The items in the order of the dictionary itself. -/
def insertionOrder : Iteritems := ⟨fun r => r.entries.map fun e => (e.1, e.2), fun _ => .rfl⟩

/-- The four special symbols. -/
def fourSymbols : List Symbol :=
  [⟨"64".toList, "firmware_nrx511c".toList, by simp, by simp, by simp, by simp [isSpace]⟩,
    ⟨"8".toList, "dlm1".toList, by simp, by simp, by simp, by simp [isSpace]⟩,
    ⟨"8".toList, "dlm2".toList, by simp, by simp, by simp, by simp [isSpace]⟩,
    ⟨"8".toList, "dlm3".toList, by simp, by simp, by simp, by simp [isSpace]⟩]

/-- A symbol of 4 bytes. -/
def buf : Symbol := ⟨"4".toList, "buf".toList, by simp, by simp, by simp, by simp [isSpace]⟩

theorem accounts_buf : Accounts insertionOrder (fourSymbols ++ [buf]) ["buf\n".toList] :=
  (accounts_iff insertionOrder (by decide) (by decide)).mpr (by decide)

/-- Two static symbols of one name. -/
theorem not_accounts :
    ¬ ∀ (order : Iteritems) (symbols : List Symbol) (obj : List Str),
      (∀ name ∈ special, ∃ s ∈ symbols, s.name = name) → (∀ line ∈ obj, strip line ∉ special) →
      Accounts order symbols obj := by
  intro h
  have hspecial : ∀ name ∈ special, ∃ s ∈ fourSymbols ++ [buf, buf], s.name = name := by decide
  have htwo := h insertionOrder (fourSymbols ++ [buf, buf]) [] hspecial (by decide)
  rw [accounts_iff_total insertionOrder hspecial (by decide), total_fill_eq_iff] at htwo
  exact absurd htwo (by decide)

end GetSize
