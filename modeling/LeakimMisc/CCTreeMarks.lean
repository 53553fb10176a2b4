/-
# Marking the call tree

`src/shell/.vim/plugin/cctree.vim`: when the cursor rests on a line of the window, the branch of
that line is marked, by an exclamation mark in the first column of each of its lines, and the
marks of the branch before are taken away.  The other lines on the way get a `#`, and a `@` stands
in front of the bar that belongs to the branch.

Wherever the cursor has been, taking the marks away gives back the lines of the tree
(`clearMarks_run_eq`), and when it comes to rest on a line that was not the last one looked at,
exactly the branch of that line is marked (`marked_cursorHold`).
-/
import LeakimMisc.CCTreeDisplay

open LevelTree

namespace CCTree

/-! ## Marking -/

/-- `strpart(src, start, len)`; what a negative start leaves out counts for the length. -/
def strpart (src : Text) (start len : ℤ) : Text :=
  (src.drop start.toNat).take (if start < 0 then len + start else len).toNat

/-- The place of bar number `n`, counted from 0. -/
def barAt : Text → ℕ → Option ℕ
  | [], _ => none
  | b :: rest, n =>
    if isBar b then
      if n = 0 then some 0 else (barAt rest (n - 1)).map (· + 1)
    else (barAt rest n).map (· + 1)

/-- `match(curline, '[+|]', 0, count)`; a count that is not positive is that of the first
match. -/
def matchBar (curline : Text) (count : ℤ) : ℤ :=
  (barAt curline (count - 1).toNat).elim (-1) fun pos => pos

/-- "Unconventional change char". -/
def changeChars (linemarker : UInt8) (pos : ℤ) (curline : Text) : Text :=
  linemarker :: strpart curline 1 (pos - 2) ++
    byte '@' :: (strpart curline pos 1 ++ curline.drop (pos + 1).toNat)

/-- A line of the window with its entry in the list, and whether it is in a closed fold. -/
structure Row where
  curline : Text
  aentry : Option (Text × ℕ)
  closed : Bool

/-- A turn of the loop of `s:CCTreeMarkCallTree`: `declevel` and the line.  An entry that the
list does not have is an error, and the turn does nothing. -/
def markTurn (keyword : Text) (declevel : ℤ) (r : Row) : ℤ × Text :=
  match r.aentry with
  | none => (declevel, r.curline)
  | some (entry, level) =>
    let declevel := if declevel = -1 ∧ entry = keyword then (level : ℤ) else declevel
    if declevel ≠ -1 ∧ r.closed = false then
      if declevel = level then
        (declevel - 1, changeChars (byte '!') (matchBar r.curline declevel) r.curline)
      else (declevel, changeChars (byte '#') (matchBar r.curline (declevel + 1)) r.curline)
    else (declevel, r.curline)

/-- The loop, from the line of the cursor up. -/
def markUp (keyword : Text) : ℤ → List Row → List Text
  | _, [] => []
  | declevel, r :: up =>
    let turned := markTurn keyword declevel r
    turned.2 :: markUp keyword turned.1 up

/-- The lines of the window from that of the cursor up; `row` is its number, from 0. -/
def rowsUp (treelst : List (Text × ℕ)) (buffer : List Text) (closed : ℕ → Bool) (row : ℕ) :
    List Row :=
  ((buffer.take (row + 1)).zipIdx.map fun p => ⟨p.1, treelst[p.2]?, closed p.2⟩).reverse

/-- `s:CCTreeMarkCallTree`. -/
def markCallTree (treelst : List (Text × ℕ)) (keyword : Text) (buffer : List Text)
    (closed : ℕ → Bool) (row : ℕ) : List Text :=
  (markUp keyword (-1) (rowsUp treelst buffer closed row)).reverse ++ buffer.drop (row + 1)

/-- `s/[!#@]/ /g` on one character. -/
def clearByte (b : UInt8) : UInt8 := if b ∈ [byte '!', byte '#', byte '@'] then byte ' ' else b

/-- `s:CCTreeClearMarks`. -/
def clearMarks (buffer : List Text) : List Text := buffer.map (List.map clearByte)

/-- The characters of `s:CCTreeKeywordRegEx`. -/
def isKeywordChar (b : UInt8) : Bool :=
  byte 'A' ≤ b && b ≤ byte 'Z' || byte 'a' ≤ b && b ≤ byte 'z' || byte '0' ≤ b && b ≤ byte '9' ||
    b ∈ [byte '_', byte '\\', byte '.', byte '/']

/-- `matchstr(getline("."), s:CCTreeKeywordRegEx)`. -/
def matchKeyword (curline : Text) : Text :=
  (curline.dropWhile fun b => !isKeywordChar b).takeWhile isKeywordChar

/-- The window, and the keyword that was looked at last with its line. -/
structure Window where
  buffer : List Text
  keyword : Text
  keywordLine : Option ℕ

/-- Where the cursor is, and which lines are in closed folds. -/
structure Cursor where
  row : ℕ
  closed : ℕ → Bool

/-- The keyword under the cursor, if there is one and it is not the one that was looked at
last. -/
def newKeyword (w : Window) (cur : Cursor) : Option Text :=
  if cur.closed cur.row = false then
    let curkeyword := matchKeyword (w.buffer.getD cur.row [])
    if curkeyword ≠ [] ∧ (curkeyword ≠ w.keyword ∨ some cur.row ≠ w.keywordLine) then
      some curkeyword
    else none
  else none

/-- `s:CCTreeGetCurrentKeyword`, as the commands call it that go to a tag. -/
def getCurrentKeyword (w : Window) (cur : Cursor) : Window :=
  (newKeyword w cur).elim w fun curkeyword =>
    { w with keyword := curkeyword, keywordLine := some cur.row }

/-- `s:CCTreeCursorHoldHandle`, with highlighting switched on. -/
def cursorHold (treelst : List (Text × ℕ)) (w : Window) (cur : Cursor) : Window :=
  (newKeyword w cur).elim w fun curkeyword =>
    ⟨markCallTree treelst curkeyword (clearMarks w.buffer) cur.closed cur.row, curkeyword,
      some cur.row⟩

/-- What the user does in the window. -/
inductive Event
  | hold (cur : Cursor)
  | goto (cur : Cursor)

/-- The cursor of an event. -/
def Event.cursor : Event → Cursor
  | .hold cur | .goto cur => cur

/-- The window after an event. -/
def handle (treelst : List (Text × ℕ)) (w : Window) : Event → Window
  | .hold cur => cursorHold treelst w cur
  | .goto cur => getCurrentKeyword w cur

/-! ## One line -/

theorem barAt_append {w : Text} {b : UInt8} (hb : isBar b = true) (rest : Text) :
    barAt (w ++ b :: rest) (w.countP isBar) = some w.length := by
  induction w with
  | nil => simp [barAt, hb]
  | cons c w ih =>
    rw [List.cons_append, barAt]
    by_cases hc : isBar c = true
    · rw [if_pos hc, List.countP_cons_of_pos hc, if_neg (Nat.succ_ne_zero _),
        Nat.add_sub_cancel, ih]
      rfl
    · rw [if_neg hc, List.countP_cons_of_neg hc, ih]
      rfl

/-- **What changing the characters of a line does**, if there are two characters in front of the
bar at least: the first one becomes the mark, and the last one the `@`. -/
theorem changeChars_eq (linemarker b c : UInt8) {mid rest : Text} {k : ℕ} {count : ℤ}
    (hc : isBar c = true) (hcount : (count - 1).toNat = k)
    (hk : (b :: mid ++ [byte ' ']).countP isBar = k) :
    changeChars linemarker (matchBar (b :: mid ++ byte ' ' :: c :: rest) count)
        (b :: mid ++ byte ' ' :: c :: rest) =
      linemarker :: mid ++ byte '@' :: c :: rest := by
  have hpos : matchBar (b :: mid ++ byte ' ' :: c :: rest) count = (mid.length + 2 : ℕ) := by
    have hbar := barAt_append (w := b :: mid ++ [byte ' ']) hc rest
    rw [hk] at hbar
    rw [matchBar, hcount]
    simp only [List.cons_append, List.append_assoc, List.nil_append] at hbar ⊢
    rw [hbar, Option.elim_some, List.length_cons, List.length_append, List.length_singleton]
  rw [hpos, changeChars, strpart, strpart, if_neg (by omega), if_neg (by omega)]
  have hlen : ((mid.length + 2 : ℕ) - 2 : ℤ).toNat = mid.length := by omega
  have hsucc : (((mid.length + 2 : ℕ) : ℤ) + 1).toNat = mid.length + 3 := by omega
  rw [hlen, hsucc, Int.toNat_natCast]
  simp

/-! ## The lines of a tree -/

theorem getD_levelLens_ne_zero (mode : DisplayMode) (ps : List (Text × ℕ)) (j : ℕ) :
    (levelLens mode ps).getD j 255 ≠ 0 := by
  rw [List.getD_eq_getElem?_getD]
  by_cases hj : j < calltreemaxdepth
  · have hstart : (List.replicate calltreemaxdepth 255)[j]? = some 255 := by
      rw [List.getElem?_replicate, if_pos hj]
    obtain ⟨len, hget, -, hfrom, -⟩ := getElem?_foldl_shorten mode ps hstart
    rw [levelLens, hget, Option.getD_some]
    rcases hfrom with rfl | ⟨p, -, -, rfl⟩
    · decide
    · cases mode <;> simp [curlevellen]
  · rw [List.getElem?_eq_none (by rw [length_levelLens]; omega)]
    decide

theorem bars_prefix (lenlist : List ℕ) {j k : ℕ} (h : j ≤ k) :
    bars lenlist j <+: bars lenlist k := by
  induction k, h using Nat.le_induction with
  | base => exact List.prefix_rfl
  | succ k _ ih =>
    rw [bars, List.append_assoc]
    exact ih.trans (List.prefix_append _ _)

/-- The bars of a line: each has a blank in front of it, and the line begins with another
blank. -/
theorem exists_bar (mode : DisplayMode) {lenlist : List ℕ} {idx k : ℕ} (hk : k = 0 ∨ k < idx)
    (hlens : lenlist.getD k 255 ≠ 0) :
    ∃ mid c rest, drawing mode lenlist idx = byte ' ' :: mid ++ byte ' ' :: c :: rest ∧
      isBar c = true ∧ (byte ' ' :: mid ++ [byte ' ']).countP isBar = k := by
  cases idx with
  | zero =>
    obtain rfl : k = 0 := by omega
    exact ⟨[], byte '+', [], rfl, rfl, rfl⟩
  | succ m =>
    have hbar : ∃ c rest, drawing mode lenlist (m + 1) =
        bars lenlist k ++ spaces (lenlist.getD k 255) ++ c :: rest ∧ isBar c = true := by
      rcases Nat.eq_or_lt_of_le (show k ≤ m by omega) with rfl | hlt
      · exact ⟨byte '+', arrows mode (k + 1), by simp [drawing], rfl⟩
      · obtain ⟨more, hmore⟩ := bars_prefix lenlist (Nat.succ_le_of_lt hlt)
        refine ⟨byte '|', more ++ spaces (lenlist.getD m 255) ++ [byte '+'] ++
          arrows mode (m + 1), ?_, rfl⟩
        rw [drawing, ← hmore, Nat.succ_eq_add_one, bars]
        simp
    obtain ⟨c, rest, hdrawing, hc⟩ := hbar
    obtain ⟨bs, hbs⟩ := bars_prefix lenlist (Nat.zero_le k)
    obtain ⟨n, hn⟩ := Nat.exists_eq_succ_of_ne_zero hlens
    -- the text in front of the bar, with its first and its last blank
    have hfront : bars lenlist k ++ spaces (lenlist.getD k 255) =
        byte ' ' :: (byte ' ' :: bs ++ spaces n) ++ [byte ' '] := by
      rw [hn, ← hbs, spaces, List.replicate_succ']
      simp [bars, spaces]
    refine ⟨byte ' ' :: bs ++ spaces n, c, rest, ?_, hc, ?_⟩
    · rw [hdrawing, hfront, List.append_assoc, List.singleton_append]
    · rw [← hfront, List.countP_append, countP_isBar_bars, countP_isBar_spaces, Nat.add_zero]

/-- The line of a symbol. -/
def lineOf (mode : DisplayMode) (direction : Direction) (t : LevelTree Text) (p : Text × ℕ) :
    Text :=
  prependText mode direction (levelLens mode (levels 0 t)) p.2 ++ p.1

/-- A name that the plugin takes for one keyword. -/
def IsKeyword (name : Text) : Prop := ∀ b ∈ name, isKeywordChar b = true

instance (name : Text) : Decidable (IsKeyword name) :=
  inferInstanceAs (Decidable (∀ b ∈ name, isKeywordChar b = true))

theorem clearByte_of_isKeywordChar {b : UInt8} (h : isKeywordChar b = true) : clearByte b = b := by
  apply if_neg
  intro hb
  simp only [List.mem_cons, List.not_mem_nil, or_false] at hb
  rcases hb with rfl | rfl | rfl <;> exact absurd h (by decide)

theorem isKeywordChar_clearByte (b : UInt8) : isKeywordChar (clearByte b) = isKeywordChar b := by
  rw [clearByte]
  split_ifs with hb
  · simp only [List.mem_cons, List.not_mem_nil, or_false] at hb
    rcases hb with rfl | rfl | rfl <;> decide
  · rfl

/-- What stands in front of the symbol is neither a mark nor a part of a keyword. -/
theorem prependText_spec {mode : DisplayMode} {direction : Direction} {lenlist : List ℕ}
    {idx : ℕ} {b : UInt8} (h : b ∈ prependText mode direction lenlist idx) :
    clearByte b = b ∧ isKeywordChar b = false := by
  rcases List.mem_append.mp h with h | h
  · rcases isDrawn_of_mem_drawing h with rfl | rfl | rfl | rfl <;> decide
  · have hall : ∀ d, ∀ b ∈ directiontxt d, clearByte b = b ∧ isKeywordChar b = false := by
      intro d
      cases d <;> decide +kernel
    exact hall direction b h

variable {mode : DisplayMode} {direction : Direction} {t : LevelTree Text} {p : Text × ℕ}

theorem clear_lineOf (hname : IsKeyword p.1) :
    (lineOf mode direction t p).map clearByte = lineOf mode direction t p := by
  refine (List.map_congr_left fun b hb => ?_).trans (List.map_id _)
  rcases List.mem_append.mp hb with hb | hb
  · exact (prependText_spec hb).1
  · exact clearByte_of_isKeywordChar (hname b hb)

/-- **The keyword of a line is its symbol.** -/
theorem matchKeyword_lineOf (hname : IsKeyword p.1) :
    matchKeyword (lineOf mode direction t p) = p.1 := by
  have hdrop : ∀ b ∈ prependText mode direction (levelLens mode (levels 0 t)) p.2,
      (!isKeywordChar b) = true := fun b hb => by rw [(prependText_spec hb).2]; rfl
  have hkeep : (p.1.dropWhile fun b => !isKeywordChar b) = p.1 := by
    rw [List.dropWhile_eq_self_iff]
    intro hpos
    rw [hname _ (List.getElem_mem hpos)]
    decide
  rw [matchKeyword, lineOf, List.dropWhile_append_of_pos hdrop, hkeep]
  exact List.takeWhile_eq_self_iff.mpr hname

theorem matchKeyword_clear (curline : Text) :
    matchKeyword (curline.map clearByte) = matchKeyword curline := by
  have hchars : isKeywordChar ∘ clearByte = isKeywordChar := by
    funext b
    exact isKeywordChar_clearByte b
  have hdrop : (fun b => !isKeywordChar b) ∘ clearByte = fun b => !isKeywordChar b := by
    funext b
    exact congrArg not (isKeywordChar_clearByte b)
  rw [matchKeyword, matchKeyword, List.dropWhile_map, List.takeWhile_map, hdrop, hchars]
  refine (List.map_congr_left fun b hb => ?_).trans (List.map_id _)
  exact clearByte_of_isKeywordChar (List.mem_takeWhile_imp hb)

/-- **A mark on a line can be taken away again.** -/
theorem changeChars_lineOf (mode : DisplayMode) (direction : Direction) (t : LevelTree Text)
    (hname : IsKeyword p.1) {linemarker : UInt8}
    (hmarker : linemarker = byte '!' ∨ linemarker = byte '#') (count : ℤ)
    (hcount : (count - 1).toNat = 0 ∨ (count - 1).toNat < p.2) :
    ∃ rest, changeChars linemarker (matchBar (lineOf mode direction t p) count)
        (lineOf mode direction t p) = linemarker :: rest ∧
      (linemarker :: rest).map clearByte = lineOf mode direction t p := by
  obtain ⟨mid, c, rest, hdrawing, hc, hk⟩ :=
    exists_bar mode hcount (getD_levelLens_ne_zero mode (levels 0 t) _)
  have hline : lineOf mode direction t p =
      byte ' ' :: mid ++ byte ' ' :: c :: (rest ++ directiontxt direction ++ p.1) := by
    rw [lineOf, prependText, hdrawing]
    simp
  refine ⟨mid ++ byte '@' :: c :: (rest ++ directiontxt direction ++ p.1), ?_, ?_⟩
  · rw [hline, changeChars_eq linemarker _ _ hc rfl hk]
    rfl
  · have hclear : clearByte linemarker = byte ' ' := by
      rcases hmarker with rfl | rfl <;> decide
    rw [← clear_lineOf hname, hline, List.cons_append, List.map_cons, List.map_cons,
      List.map_append, List.map_append, List.map_cons, List.map_cons, hclear]
    rfl

/-! ## Going up -/

/-- A line of the tree with its entry. -/
def rowOf (mode : DisplayMode) (direction : Direction) (t : LevelTree Text)
    (s : (Text × ℕ) × Bool) : Row :=
  ⟨lineOf mode direction t s.1, some s.1, s.2⟩

/-- An entry, for `climb`. -/
def withLevel (s : (Text × ℕ) × Bool) : ((Text × ℕ) × Bool) × ℕ := (s, s.1.2)

/-- A line with an exclamation mark. -/
def isMarked (line : Text) : Bool := line.head? = some (byte '!')

theorem isMarked_cons (b : UInt8) (line : Text) : isMarked (b :: line) = (b = byte '!' : Bool) := by
  rw [isMarked, List.head?_cons]
  simp

theorem isMarked_lineOf : isMarked (lineOf mode direction t p) = false := by
  obtain ⟨mid, c, rest, hdrawing, -, -⟩ :=
    exists_bar mode (Or.inl rfl : 0 = 0 ∨ 0 < p.2) (getD_levelLens_ne_zero mode (levels 0 t) 0)
  rw [lineOf, prependText, hdrawing, List.append_assoc, List.append_assoc, List.cons_append,
    isMarked_cons]
  decide

/-- The entries of the lines that are marked. -/
def markedRows (seen : List ((Text × ℕ) × Bool)) (new : List Text) :
    List (((Text × ℕ) × Bool) × ℕ) :=
  ((seen.zip new).filter fun x => isMarked x.2).map fun x => withLevel x.1

theorem markedRows_cons (s : (Text × ℕ) × Bool) (seen : List ((Text × ℕ) × Bool)) (l : Text)
    (new : List Text) :
    markedRows (s :: seen) (l :: new) =
      if isMarked l then withLevel s :: markedRows seen new else markedRows seen new := by
  rw [markedRows, List.zip_cons_cons, List.filter_cons]
  split_ifs <;> rfl

/-- **What the loop does on its way up**, from a line that is not above the level `d` that is
looked for: it marks the lines that `climb` finds, if they are in no closed fold, and all that it
writes can be taken away again. -/
theorem markUp_spec (mode : DisplayMode) (direction : Direction) (t : LevelTree Text)
    (keyword : Text) {d : ℤ} {seen : List ((Text × ℕ) × Bool)}
    (hnames : ∀ s ∈ seen, IsKeyword s.1.1) (hd : d = -1 → seen = [])
    (hhead : ∀ s ∈ seen.head?, d ≤ s.1.2)
    (hchain : seen.IsChain fun s s' => s.1.2 ≤ s'.1.2 + 1)
    (hroot : ∀ a s b, seen = a ++ s :: b → s.1.2 = 0 → b = [])
    (hshown : ∀ q ∈ climb d (seen.map withLevel), q.1.2 = false) :
    (markUp keyword d (seen.map (rowOf mode direction t))).map (List.map clearByte) =
        seen.map (fun s => lineOf mode direction t s.1) ∧
      markedRows seen (markUp keyword d (seen.map (rowOf mode direction t))) =
        climb d (seen.map withLevel) := by
  induction seen generalizing d with
  | nil => exact ⟨rfl, rfl⟩
  | cons s seen ih =>
    have hname := hnames s List.mem_cons_self
    have hd0 : d ≠ -1 := fun h => List.cons_ne_nil _ _ (hd h)
    have hlevel : d ≤ s.1.2 := hhead s rfl
    obtain ⟨hnext, hrest⟩ := List.isChain_cons.mp hchain
    have hrootRest : ∀ a s' b, seen = a ++ s' :: b → s'.1.2 = 0 → b = [] :=
      fun a s' b h => hroot (s :: a) s' b (by rw [h]; rfl)
    have hturn : markTurn keyword d (rowOf mode direction t s) =
        if s.2 = false then
          if d = s.1.2 then
            (d - 1, changeChars (byte '!') (matchBar (lineOf mode direction t s.1) d)
              (lineOf mode direction t s.1))
          else
            (d, changeChars (byte '#') (matchBar (lineOf mode direction t s.1) (d + 1))
              (lineOf mode direction t s.1))
        else (d, lineOf mode direction t s.1) := by
      simp only [markTurn, rowOf, hd0, false_and, if_false, ne_eq, not_false_eq_true, true_and]
    have hclimb : climb d ((s :: seen).map withLevel) =
        if d = s.1.2 then withLevel s :: climb (d - 1) (seen.map withLevel)
        else climb d (seen.map withLevel) := by
      rw [List.map_cons, climb]
      rfl
    rw [hclimb] at hshown ⊢
    rw [List.map_cons, List.map_cons, markUp, hturn]
    by_cases heq : d = s.1.2
    · -- a line of the branch
      rw [if_pos heq] at hshown
      rw [if_pos heq, if_pos heq]
      have hopen : s.2 = false := hshown _ List.mem_cons_self
      have hlast : d - 1 = -1 → seen = [] := fun h => hroot [] s seen rfl (by omega)
      obtain ⟨line, hline, hclear⟩ := changeChars_lineOf mode direction t hname (Or.inl rfl) d
        (by omega)
      obtain ⟨hcleared, hmarked⟩ := ih (fun s' hs' => hnames s' (List.mem_cons_of_mem _ hs')) hlast
        (fun s' hs' => by have := hnext s' hs'; omega) hrest hrootRest
        (fun q hq => hshown q (List.mem_cons_of_mem _ hq))
      rw [if_pos hopen, hline]
      refine ⟨?_, ?_⟩
      · rw [List.map_cons, hclear, hcleared]
      · rw [markedRows_cons, isMarked_cons, if_pos (by decide), hmarked]
    · -- a line below another branch
      rw [if_neg heq] at hshown
      rw [if_neg heq, if_neg heq]
      obtain ⟨hcleared, hmarked⟩ := ih (fun s' hs' => hnames s' (List.mem_cons_of_mem _ hs'))
        (fun h => absurd h hd0) (fun s' hs' => by have := hnext s' hs'; omega) hrest hrootRest
        hshown
      by_cases hclosed : s.2 = false
      · obtain ⟨line, hline, hclear⟩ := changeChars_lineOf mode direction t hname (Or.inr rfl)
          (d + 1) (by omega)
        rw [if_pos hclosed, hline]
        refine ⟨?_, ?_⟩
        · rw [List.map_cons, hclear, hcleared]
        · rw [markedRows_cons, isMarked_cons, if_neg (by decide), hmarked]
      · rw [if_neg hclosed]
        refine ⟨?_, ?_⟩
        · rw [List.map_cons, clear_lineOf hname, hcleared]
        · rw [markedRows_cons, isMarked_lineOf, if_neg Bool.false_ne_true, hmarked]

/-! ## The whole window -/

/-- The entries from that of the cursor up. -/
def seenUp (treelst : List (Text × ℕ)) (cur : Cursor) : List ((Text × ℕ) × Bool) :=
  ((treelst.take (cur.row + 1)).zipIdx.map fun x => (x.1, cur.closed x.2)).reverse

/-- If the line of the cursor is in no closed fold, then none of its branch is. -/
def Cursor.Shown (treelst : List (Text × ℕ)) (cur : Cursor) : Prop :=
  cur.closed cur.row = false → ∀ p, treelst[cur.row]? = some p →
    ∀ q ∈ climb p.2 ((seenUp treelst cur).map withLevel), q.1.2 = false

/-- The symbols of the lines that are marked. -/
def marked (treelst : List (Text × ℕ)) (buffer : List Text) : List Text :=
  ((treelst.zip buffer).filter fun x => isMarked x.2).map fun x => x.1.1

variable {cur : Cursor}

/-- Without closed folds all lines are shown. -/
theorem shown_of_open (treelst : List (Text × ℕ)) (hopen : ∀ row, cur.closed row = false) :
    cur.Shown treelst := by
  intro _ p _ q hq
  obtain ⟨s, hs, rfl⟩ := List.mem_map.mp ((climb_sublist _ _).subset hq)
  obtain ⟨x, -, rfl⟩ := List.mem_map.mp (List.mem_reverse.mp hs)
  exact hopen x.2

theorem seenUp_map_fst (treelst : List (Text × ℕ)) (cur : Cursor) :
    (seenUp treelst cur).map Prod.fst = (treelst.take (cur.row + 1)).reverse := by
  rw [seenUp, List.map_reverse, List.map_map]
  congr 1
  exact List.zipIdx_map_fst 0 _

theorem exists_split_of_getElem? {treelst : List (Text × ℕ)} {k : ℕ}
    (h : treelst[k]? = some p) :
    ∃ front rest, treelst = front ++ p :: rest ∧ k = front.length := by
  obtain ⟨hlt, hget⟩ := List.getElem?_eq_some_iff.mp h
  refine ⟨treelst.take k, treelst.drop (k + 1), ?_, ?_⟩
  · rw [← hget, List.getElem_cons_drop, List.take_append_drop]
  · rw [List.length_take]
    omega

theorem seenUp_eq {treelst front rest : List (Text × ℕ)} {p : Text × ℕ}
    (h : treelst = front ++ p :: rest) (hrow : cur.row = front.length) :
    ∃ up, seenUp treelst cur = (p, cur.closed cur.row) :: up ∧ up.map Prod.fst = front.reverse := by
  have htake : treelst.take (cur.row + 1) = front ++ [p] := by
    rw [h, hrow, List.take_append, List.take_of_length_le (by omega), Nat.add_sub_cancel_left]
    rfl
  refine ⟨(front.zipIdx.map fun x => (x.1, cur.closed x.2)).reverse, ?_, ?_⟩
  · rw [seenUp, htake, List.zipIdx_append, List.zipIdx_singleton, List.map_append, List.map_singleton,
      List.reverse_append, List.reverse_singleton, hrow, Nat.zero_add]
    rfl
  · rw [List.map_reverse, List.map_map]
    congr 1
    exact List.zipIdx_map_fst 0 _

/-- The lines from that of the cursor up, before anything is marked. -/
theorem rowsUp_eq (cur : Cursor) (hrow : cur.row < (levels 0 t).length) :
    rowsUp (levels 0 t) ((levels 0 t).map (lineOf mode direction t) ++ [[]]) cur.closed cur.row =
      (seenUp (levels 0 t) cur).map (rowOf mode direction t) := by
  rw [rowsUp, seenUp, List.map_reverse, List.take_append_of_le_length (by simpa using hrow),
    ← List.map_take, List.zipIdx_map, List.map_map, List.map_map]
  congr 1
  apply List.map_congr_left
  intro x hx
  have hget := List.mem_zipIdx_iff_getElem?.mp hx
  have hlt := (List.getElem?_eq_some_iff.mp hget).1
  rw [List.length_take] at hlt
  rw [List.getElem?_take_of_lt (by omega)] at hget
  simp [rowOf, hget]

theorem markUp_start (s : (Text × ℕ) × Bool) (seen : List ((Text × ℕ) × Bool)) :
    markUp s.1.1 (-1) ((s :: seen).map (rowOf mode direction t)) =
      markUp s.1.1 s.1.2 ((s :: seen).map (rowOf mode direction t)) := by
  have hturn : markTurn s.1.1 (-1) (rowOf mode direction t s) =
      markTurn s.1.1 s.1.2 (rowOf mode direction t s) := by simp [markTurn, rowOf]
  rw [List.map_cons, markUp, markUp, hturn]

theorem clearMarks_lines (hnames : ∀ p ∈ levels 0 t, IsKeyword p.1) :
    clearMarks ((levels 0 t).map (lineOf mode direction t) ++ [[]]) =
      (levels 0 t).map (lineOf mode direction t) ++ [[]] := by
  rw [clearMarks, List.map_append, List.map_map]
  congr 1
  exact List.map_congr_left fun p hp => clear_lineOf (hnames p hp)

theorem marked_append {ps ps' : List (Text × ℕ)} {ls ls' : List Text}
    (h : ps.length = ls.length) :
    marked (ps ++ ps') (ls ++ ls') = marked ps ls ++ marked ps' ls' := by
  rw [marked, List.zip_append h, List.filter_append, List.map_append]
  rfl

/-- Lines that have not been marked. -/
theorem marked_lines (ps : List (Text × ℕ)) (more : List Text) :
    marked ps (ps.map (lineOf mode direction t) ++ more) = [] := by
  induction ps with
  | nil => rfl
  | cons p ps ih =>
    rw [marked] at ih ⊢
    rw [List.map_cons, List.cons_append, List.zip_cons_cons, List.filter_cons, isMarked_lineOf,
      if_neg Bool.false_ne_true, ih]

/-- The marked lines, from the top. -/
theorem marked_reverse {seen : List ((Text × ℕ) × Bool)} {new : List Text}
    (h : seen.length = new.length) :
    marked (seen.map Prod.fst).reverse new.reverse =
      ((markedRows seen new).map fun q => q.1.1.1).reverse := by
  have hzip : (seen.map Prod.fst).reverse.zip new.reverse =
      ((seen.zip new).map (Prod.map Prod.fst id)).reverse := by
    rw [← List.zip_map_left, List.zip, List.reverse_zipWith (by simpa using h)]
  rw [marked, markedRows, hzip, List.filter_reverse, List.map_reverse, List.filter_map,
    List.map_map, List.map_map]
  rfl

theorem length_markUp (keyword : Text) (d : ℤ) (rows : List Row) :
    (markUp keyword d rows).length = rows.length := by
  induction rows generalizing d with
  | nil => rfl
  | cons r rows ih => rw [markUp, List.length_cons, List.length_cons, ih]

/-- Going up, the level falls by one at most from line to line. -/
theorem isChain_seenUp (t : LevelTree Text) (cur : Cursor) :
    (seenUp (levels 0 t) cur).IsChain fun s s' => s.1.2 ≤ s'.1.2 + 1 := by
  have hlist := isChain_levels 0 t
  rw [← List.take_append_drop (cur.row + 1) (levels 0 t)] at hlist
  have hmap := List.isChain_reverse.mpr hlist.left_of_append
  rw [← seenUp_map_fst, List.isChain_map] at hmap
  exact hmap

/-- Above the root there is nothing. -/
theorem seenUp_root {a b : List ((Text × ℕ) × Bool)} {s : (Text × ℕ) × Bool}
    (h : seenUp (levels 0 t) cur = a ++ s :: b) (hs : s.1.2 = 0) : b = [] := by
  by_contra hb
  have htake : (levels 0 t).take (cur.row + 1) =
      (b.map Prod.fst).reverse ++ s.1 :: (a.map Prod.fst).reverse := by
    rw [← List.reverse_reverse ((levels 0 t).take (cur.row + 1)), ← seenUp_map_fst, h]
    simp
  cases hfirst : (b.map Prod.fst).reverse with
  | nil => exact hb (by simpa using hfirst)
  | cons r more =>
    have hall := List.take_append_drop (cur.row + 1) (levels 0 t)
    rw [htake, hfirst] at hall
    have hdeep := (levels_eq_cons hall.symm).2 s.1 (by simp)
    omega

/-- The lines that `climb` finds from that of the cursor are those of its branch. -/
theorem climb_seenUp (hrow : (levels 0 t)[cur.row]? = some p) :
    some ((climb p.2 ((seenUp (levels 0 t) cur).map withLevel)).map fun q => q.1.1.1).reverse =
      t.branches[cur.row]? := by
  obtain ⟨front, rest, hlevels, hlength⟩ := exists_split_of_getElem? hrow
  obtain ⟨up, hseen, hup⟩ := seenUp_eq hlevels hlength
  have hmap := climb_map (fun s : (Text × ℕ) × Bool => s.1.1) p.2
    ((seenUp (levels 0 t) cur).map withLevel)
  have hentries : ((seenUp (levels 0 t) cur).map withLevel).map
      (Prod.map (fun s : (Text × ℕ) × Bool => s.1.1) id) = p :: front.reverse := by
    rw [hseen, ← hup, List.map_map, List.map_cons]
    rfl
  have hfst : (climb p.2 ((seenUp (levels 0 t) cur).map withLevel)).map (fun q => q.1.1.1) =
      (climb p.2 (p :: front.reverse)).map Prod.fst := by
    rw [← hentries, hmap, List.map_map]
    rfl
  obtain ⟨found, hclimb, hfound⟩ := climb_levels hlevels []
  rw [List.append_nil] at hclimb
  rw [hfst, hclimb, hlength, hfound, climb, List.append_nil, List.map_reverse]

/-- **What marking the tree of a line does**: the marks can be taken away again, and the lines of
its branch are marked. -/
theorem markCallTree_spec (hnames : ∀ p ∈ levels 0 t, IsKeyword p.1)
    (hrow : (levels 0 t)[cur.row]? = some p) (hopen : cur.closed cur.row = false)
    (hshown : cur.Shown (levels 0 t)) {buffer : List Text}
    (hbuffer : buffer = (levels 0 t).map (lineOf mode direction t) ++ [[]]) :
    clearMarks (markCallTree (levels 0 t) p.1 buffer cur.closed cur.row) = buffer ∧
      some (marked (levels 0 t) (markCallTree (levels 0 t) p.1 buffer cur.closed cur.row)) =
        t.branches[cur.row]? := by
  obtain ⟨hlt, -⟩ := List.getElem?_eq_some_iff.mp hrow
  obtain ⟨front, rest, hlevels, hlength⟩ := exists_split_of_getElem? hrow
  obtain ⟨up, hseen, -⟩ := seenUp_eq hlevels hlength
  have hnamesUp : ∀ s ∈ seenUp (levels 0 t) cur, IsKeyword s.1.1 := by
    intro s hs
    have hmem : s.1 ∈ ((levels 0 t).take (cur.row + 1)).reverse :=
      seenUp_map_fst (levels 0 t) cur ▸ List.mem_map_of_mem hs
    exact hnames s.1 (List.mem_of_mem_take (List.mem_reverse.mp hmem))
  have hnew : markCallTree (levels 0 t) p.1 buffer cur.closed cur.row =
      (markUp p.1 p.2 ((seenUp (levels 0 t) cur).map (rowOf mode direction t))).reverse ++
        buffer.drop (cur.row + 1) := by
    rw [markCallTree, hbuffer, rowsUp_eq cur hlt, hseen, markUp_start (p, cur.closed cur.row) up]
  have hlengths : (seenUp (levels 0 t) cur).length =
      (markUp p.1 p.2 ((seenUp (levels 0 t) cur).map (rowOf mode direction t))).length := by
    rw [length_markUp, List.length_map]
  obtain ⟨hcleared, hmarked⟩ := markUp_spec mode direction t p.1 (d := p.2) hnamesUp (by omega)
    (by rw [hseen]; simp) (isChain_seenUp t cur) (fun a s b h => seenUp_root h)
    (hshown hopen p hrow)
  generalize markUp p.1 (p.2 : ℤ) ((seenUp (levels 0 t) cur).map (rowOf mode direction t)) = new
    at hnew hlengths hcleared hmarked
  rw [hnew]
  constructor
  · have htake : (seenUp (levels 0 t) cur).map (fun s => lineOf mode direction t s.1) =
        (buffer.take (cur.row + 1)).reverse := by
      rw [hbuffer, List.take_append_of_le_length (by simpa using hlt), ← List.map_take,
        ← List.map_reverse, ← seenUp_map_fst, List.map_map]
      rfl
    have hclear : clearMarks buffer = buffer := by
      rw [hbuffer]
      exact clearMarks_lines hnames
    rw [clearMarks] at hclear ⊢
    rw [List.map_append, List.map_reverse, hcleared, htake, List.reverse_reverse, List.map_drop,
      hclear, List.take_append_drop]
  · have hdrop : buffer.drop (cur.row + 1) =
        ((levels 0 t).drop (cur.row + 1)).map (lineOf mode direction t) ++ [[]] := by
      rw [hbuffer, List.drop_append_of_le_length (by simpa using hlt), List.map_drop]
    have htake : (levels 0 t).take (cur.row + 1) =
        ((seenUp (levels 0 t) cur).map Prod.fst).reverse := by
      rw [seenUp_map_fst, List.reverse_reverse]
    have hsplit : marked (levels 0 t) (new.reverse ++ buffer.drop (cur.row + 1)) =
        marked ((seenUp (levels 0 t) cur).map Prod.fst).reverse new.reverse := by
      conv_lhs => rw [← List.take_append_drop (cur.row + 1) (levels 0 t)]
      rw [marked_append, hdrop, marked_lines, List.append_nil, htake]
      rw [htake, List.length_reverse, List.length_reverse, List.length_map, hlengths]
    rw [hsplit, marked_reverse hlengths, hmarked, climb_seenUp hrow]

/-! ## The cursor moves about -/

variable {w : Window}

theorem displayTree_eq_lines (hfits : Fits mode t) :
    displayTree mode direction t = (levels 0 t).map (lineOf mode direction t) ++ [[]] :=
  hfits.displayTree_eq direction

/-- The keyword under the cursor, whether the line is marked or not. -/
theorem matchKeyword_getD {buffer : List Text} (row : ℕ) :
    matchKeyword (buffer.getD row []) = matchKeyword ((clearMarks buffer).getD row []) := by
  rw [List.getD_eq_getElem?_getD, List.getD_eq_getElem?_getD, clearMarks, List.getElem?_map]
  cases buffer[row]? with
  | none => rfl
  | some curline => exact (matchKeyword_clear curline).symm

theorem matchKeyword_row (hfits : Fits mode t) (hnames : ∀ p ∈ levels 0 t, IsKeyword p.1)
    (hclear : clearMarks w.buffer = displayTree mode direction t)
    (hrow : (levels 0 t)[cur.row]? = some p) :
    matchKeyword (w.buffer.getD cur.row []) = p.1 := by
  obtain ⟨hlt, -⟩ := List.getElem?_eq_some_iff.mp hrow
  rw [matchKeyword_getD, hclear, displayTree_eq_lines hfits, List.getD_eq_getElem?_getD,
    List.getElem?_append_left (by simpa using hlt), List.getElem?_map, hrow, Option.map_some,
    Option.getD_some, matchKeyword_lineOf (hnames p (List.mem_of_getElem? hrow))]

/-- The line behind the last one is empty. -/
theorem matchKeyword_of_none (hfits : Fits mode t)
    (hclear : clearMarks w.buffer = displayTree mode direction t)
    (hrow : (levels 0 t)[cur.row]? = none) : matchKeyword (w.buffer.getD cur.row []) = [] := by
  rw [matchKeyword_getD, hclear, displayTree_eq_lines hfits, List.getD_eq_getElem?_getD,
    List.getElem?_append_right (by simpa using hrow)]
  cases cur.row - ((levels 0 t).map (lineOf mode direction t)).length <;> rfl

/-- **A new keyword** is the symbol in the line of the cursor. -/
theorem newKeyword_spec (hfits : Fits mode t) (hnames : ∀ p ∈ levels 0 t, IsKeyword p.1)
    (hclear : clearMarks w.buffer = displayTree mode direction t) {curkeyword : Text}
    (h : newKeyword w cur = some curkeyword) :
    cur.closed cur.row = false ∧
      ∃ p, (levels 0 t)[cur.row]? = some p ∧ p.1 = curkeyword := by
  rw [newKeyword] at h
  split_ifs at h with hopen
  dsimp only at h
  split_ifs at h with hnew
  obtain rfl := Option.some.inj h
  refine ⟨hopen, ?_⟩
  cases hrow : (levels 0 t)[cur.row]? with
  | none => exact absurd (matchKeyword_of_none hfits hclear hrow) hnew.1
  | some p => exact ⟨p, rfl, (matchKeyword_row hfits hnames hclear hrow).symm⟩

/-- **What an event does**: all marks can be taken away again. -/
theorem clearMarks_handle (hfits : Fits mode t) (hnames : ∀ p ∈ levels 0 t, IsKeyword p.1)
    (hclear : clearMarks w.buffer = displayTree mode direction t) {e : Event}
    (hshown : e.cursor.Shown (levels 0 t)) :
    clearMarks (handle (levels 0 t) w e).buffer = displayTree mode direction t := by
  cases e with
  | goto cur =>
    rw [handle, getCurrentKeyword]
    cases newKeyword w cur with
    | none => exact hclear
    | some curkeyword => exact hclear
  | hold cur =>
    rw [handle, cursorHold]
    cases hnew : newKeyword w cur with
    | none => exact hclear
    | some curkeyword =>
      obtain ⟨hopen, p, hrow, rfl⟩ := newKeyword_spec hfits hnames hclear hnew
      exact (markCallTree_spec hnames hrow hopen hshown
        (hclear.trans (displayTree_eq_lines hfits))).1.trans hclear

theorem clearMarks_foldl (hfits : Fits mode t) (hnames : ∀ p ∈ levels 0 t, IsKeyword p.1)
    (hclear : clearMarks w.buffer = displayTree mode direction t) {evs : List Event}
    (hshown : ∀ e ∈ evs, e.cursor.Shown (levels 0 t)) :
    clearMarks (evs.foldl (handle (levels 0 t)) w).buffer = displayTree mode direction t := by
  induction evs generalizing w with
  | nil => exact hclear
  | cons e evs ih =>
    exact ih (clearMarks_handle hfits hnames hclear (hshown e List.mem_cons_self))
      fun e' he' => hshown e' (List.mem_cons_of_mem _ he')

/-- **What resting on a line does**, if the keyword there is a new one: its branch is marked. -/
theorem marked_of_clear (hfits : Fits mode t) (hnames : ∀ p ∈ levels 0 t, IsKeyword p.1)
    (hclear : clearMarks w.buffer = displayTree mode direction t)
    (hcur : cur.Shown (levels 0 t)) (hopen : cur.closed cur.row = false)
    (hrow : (levels 0 t)[cur.row]? = some p) (hname : p.1 ≠ [])
    (hnew : p.1 ≠ w.keyword ∨ some cur.row ≠ w.keywordLine) :
    some (marked (levels 0 t) (handle (levels 0 t) w (.hold cur)).buffer) =
      t.branches[cur.row]? := by
  have hword := matchKeyword_row hfits hnames hclear hrow
  have hkeyword : newKeyword w cur = some p.1 := by
    rw [newKeyword, if_pos hopen, hword]
    exact if_pos ⟨hname, hnew⟩
  rw [handle, cursorHold, hkeyword, Option.elim_some]
  exact (markCallTree_spec hnames hrow hopen hcur
    (hclear.trans (displayTree_eq_lines hfits))).2

/-- The window when a tree has been displayed. -/
def openWindow (mode : DisplayMode) (direction : Direction) (t : LevelTree Text) (keyword : Text)
    (keywordLine : Option ℕ) : Window :=
  ⟨displayTree mode direction t, keyword, keywordLine⟩

/-- The window after some events; `b:treelist` is the list that was built with the lines. -/
def runWindow (mode : DisplayMode) (direction : Direction) (t : LevelTree Text) (w : Window)
    (evs : List Event) : Window :=
  evs.foldl (handle (buildTreeDisplayItems mode direction t).1) w

theorem clearMarks_runWindow (hfits : Fits mode t) (hnames : ∀ p ∈ levels 0 t, IsKeyword p.1)
    (direction : Direction) (keyword : Text) (keywordLine : Option ℕ) {evs : List Event}
    (hshown : ∀ e ∈ evs, e.cursor.Shown (levels 0 t)) :
    clearMarks (runWindow mode direction t (openWindow mode direction t keyword keywordLine)
      evs).buffer = displayTree mode direction t := by
  rw [runWindow, buildTreeDisplayItems_eq]
  apply clearMarks_foldl hfits hnames _ hshown
  show clearMarks (displayTree mode direction t) = _
  rw [displayTree_eq_lines hfits, clearMarks_lines hnames]

/-- **Wherever the cursor has been, taking the marks away gives back the lines of the tree.** -/
theorem clearMarks_run_eq (hfits : Fits mode t) (hnames : ∀ p ∈ levels 0 t, IsKeyword p.1)
    (direction : Direction) (keyword : Text) (keywordLine : Option ℕ) {evs : List Event}
    (hshown : ∀ e ∈ evs, e.cursor.Shown (levels 0 t)) :
    clearMarks (runWindow mode direction t (openWindow mode direction t keyword keywordLine)
      evs).buffer = displayTree mode direction t :=
  clearMarks_runWindow hfits hnames direction keyword keywordLine hshown

/-- A tree of four symbols. -/
def sampleTree : LevelTree Text :=
  .node (text "main") [.node (text "f") [.node (text "g") []], .node (text "h") []]

/-- The cursor on a line, without closed folds. -/
def sampleCursor (row : ℕ) : Cursor := ⟨row, fun _ => false⟩

theorem clearMarks_run_sampleTree :
    clearMarks (runWindow .wide .p sampleTree (openWindow .wide .p sampleTree [] none)
      [.hold (sampleCursor 2), .goto (sampleCursor 0), .hold (sampleCursor 3)]).buffer =
        displayTree .wide .p sampleTree := by
  apply clearMarks_run_eq (by decide +kernel) (by decide +kernel)
  intro e he
  apply shown_of_open
  simp only [List.mem_cons, List.not_mem_nil, or_false] at he
  rcases he with rfl | rfl | rfl <;> exact fun _ => rfl

/-- **When the cursor comes to rest on a line, its branch is marked**, whatever has been marked
before, unless this line and its symbol were the last that were looked at. -/
theorem marked_cursorHold (hfits : Fits mode t) (hnames : ∀ p ∈ levels 0 t, IsKeyword p.1)
    (direction : Direction) (keyword : Text) (keywordLine : Option ℕ) {evs : List Event}
    (hshown : ∀ e ∈ evs, e.cursor.Shown (levels 0 t)) {w : Window}
    (hw : w = runWindow mode direction t (openWindow mode direction t keyword keywordLine) evs)
    {cur : Cursor} (hcur : cur.Shown (levels 0 t)) (hopen : cur.closed cur.row = false)
    (hrow : (levels 0 t)[cur.row]? = some p) (hname : p.1 ≠ [])
    (hnew : p.1 ≠ w.keyword ∨ some cur.row ≠ w.keywordLine) :
    some (marked (levels 0 t) (runWindow mode direction t w [.hold cur]).buffer) =
      t.branches[cur.row]? := by
  have hclear : clearMarks w.buffer = displayTree mode direction t := by
    rw [hw]
    exact clearMarks_runWindow hfits hnames direction keyword keywordLine hshown
  rw [runWindow, buildTreeDisplayItems_eq]
  exact marked_of_clear hfits hnames hclear hcur hopen hrow hname hnew

theorem marked_cursorHold_sampleTree :
    some (marked (levels 0 sampleTree) (runWindow .compact .c sampleTree
      (runWindow .compact .c sampleTree (openWindow .compact .c sampleTree [] none)
        [.hold (sampleCursor 3)]) [.hold (sampleCursor 2)]).buffer) =
      some [text "main", text "f", text "g"] := by
  have hshown : ∀ row, (sampleCursor row).Shown (levels 0 sampleTree) :=
    fun row => shown_of_open _ fun _ => rfl
  refine (marked_cursorHold (p := (text "g", 2)) (by decide +kernel) (by decide +kernel) .c [] none
    ?_ rfl (hshown 2) rfl rfl (by decide +kernel) (by decide +kernel)).trans rfl
  intro e he
  rw [List.mem_singleton.mp he]
  exact hshown 3

end CCTree
