/-
# The lines of a call tree

`src/shell/.vim/plugin/cctree.vim`: a call tree is shown as one line for each symbol, behind a
text that draws the branches.  How far the symbols of a level are indented depends on the
shortest of them, and on the display mode.  In all modes the lines of a tree of at most ten
levels show all of it: two trees have the same lines only if they are the same, but for what was
cut off (`displayTree_eq_iff`).
-/
import LeakimMisc.CCTreeTrace

open LevelTree

namespace CCTree

/-! ## Building the lines -/

/-- The values of `g:CCTreeDisplayMode`. -/
inductive DisplayMode
  | ultraCompact
  | compact
  | wide
  deriving DecidableEq, Repr

/-- `curlevellen`. -/
def curlevellen : DisplayMode → Text → ℕ → ℕ
  | .ultraCompact, _, _ => 1
  | .compact, _, level => level + 2
  | .wide, entry, level => entry.length + level + 2

/-- `s:calltreemaxdepth`. -/
def calltreemaxdepth : ℕ := 10

/-- `let a:lvllen[a:level] = min([a:lvllen[a:level], curlevellen])`; a level that the list does
not have is an error, and the function goes on. -/
def shorten (mode : DisplayMode) (lvllen : List ℕ) (entry : Text) (level : ℕ) : List ℕ :=
  lvllen.modify level fun len => min len (curlevellen mode entry level)

mutual

/-- `s:CCTreeBuildTreeForLevel`, with `treelist` and `lvllen`. -/
def buildTreeForLevel (mode : DisplayMode) (level : ℕ) :
    LevelTree Text → List (Text × ℕ) × List ℕ → List (Text × ℕ) × List ℕ
  | .cut, acc => acc
  | .node entry childlinks, acc =>
    buildTreesForLevel mode (level + 1) childlinks
      (acc.1 ++ [(entry, level)], shorten mode acc.2 entry level)

/-- Its loop over the children. -/
def buildTreesForLevel (mode : DisplayMode) (level : ℕ) :
    List (LevelTree Text) → List (Text × ℕ) × List ℕ → List (Text × ℕ) × List ℕ
  | [], acc => acc
  | a :: childlinks, acc =>
    buildTreesForLevel mode level childlinks (buildTreeForLevel mode level a acc)

end

/-- A character of the display. -/
def byte (c : Char) : UInt8 := c.toNat.toUInt8

/-- `repeat(" ", n)`. -/
def spaces (n : ℕ) : Text := List.replicate n (byte ' ')

/-- `directiontxt`. -/
def directiontxt : Direction → Text
  | .p => text "< "
  | .c => text "> "

/-- `arrows`. -/
def arrows : DisplayMode → ℕ → Text
  | .ultraCompact, _ => [byte '-']
  | _, idx => List.replicate idx (byte '-')

/-- A turn of the loop of `s:CCTreeBuildDisplayPrependText`, on `pptxt` and `treepptext`. -/
def prependTurn (mode : DisplayMode) (direction : Direction) (lenlist : List ℕ)
    (acc : Text × List Text) (idx : ℕ) : Text × List Text :=
  if lenlist.getD idx 255 ≠ 255 then
    let pptxt := acc.1 ++ spaces (lenlist.getD (idx - 1) 255)
    (pptxt ++ [byte '|'],
      acc.2.set idx (pptxt ++ [byte '+'] ++ arrows mode idx ++ directiontxt direction))
  else acc

/-- `s:CCTreeBuildDisplayPrependText`. -/
def buildDisplayPrependText (mode : DisplayMode) (direction : Direction) (lenlist : List ℕ) :
    List Text :=
  ((List.range' 1 (calltreemaxdepth - 1)).foldl (prependTurn mode direction lenlist)
    (spaces 2, (List.replicate calltreemaxdepth (spaces 1)).set 0
      (spaces 2 ++ [byte '+'] ++ directiontxt direction))).2

/-- `s:CCTreeBuildTreeDisplayItems`: the list of the symbols, and the texts in front of them. -/
def buildTreeDisplayItems (mode : DisplayMode) (direction : Direction) (treedict : LevelTree Text) :
    List (Text × ℕ) × List Text :=
  let built := buildTreeForLevel mode 0 treedict ([], List.replicate calltreemaxdepth 255)
  (built.1, buildDisplayPrependText mode direction built.2)

/-- `s:CCTreeDisplayTreeList` in an empty buffer: a line for each symbol, of which one that is
too deep stays empty, and the line that was opened behind the last one. -/
def displayTreeList (pptxtlst : List Text) (treelst : List (Text × ℕ)) : List Text :=
  (treelst.map fun aentry => (pptxtlst[aentry.2]?).elim [] fun pptxt => pptxt ++ aentry.1) ++ [[]]

/-- `s:CCTreeDisplayTreeInWindow`: the lines of the buffer. -/
def displayTree (mode : DisplayMode) (direction : Direction) (atree : LevelTree Text) : List Text :=
  let items := buildTreeDisplayItems mode direction atree
  displayTreeList items.2 items.1

/-! ## The list of the symbols -/

mutual

theorem buildTreeForLevel_eq (mode : DisplayMode) (level : ℕ) :
    ∀ (t : LevelTree Text) (acc : List (Text × ℕ) × List ℕ), buildTreeForLevel mode level t acc =
      (acc.1 ++ levels level t,
        (levels level t).foldl (fun lens p => shorten mode lens p.1 p.2) acc.2)
  | .cut, acc => by simp [buildTreeForLevel, levels]
  | .node entry childlinks, acc => by
    rw [buildTreeForLevel, buildTreesForLevel_eq, levels, List.foldl_cons, List.append_assoc,
      List.singleton_append]

theorem buildTreesForLevel_eq (mode : DisplayMode) (level : ℕ) :
    ∀ (ts : List (LevelTree Text)) (acc : List (Text × ℕ) × List ℕ),
      buildTreesForLevel mode level ts acc =
        (acc.1 ++ levelsAll level ts,
          (levelsAll level ts).foldl (fun lens p => shorten mode lens p.1 p.2) acc.2)
  | [], acc => by simp [buildTreesForLevel, levelsAll]
  | t :: ts, acc => by
    rw [buildTreesForLevel, buildTreesForLevel_eq, buildTreeForLevel_eq, levelsAll,
      List.foldl_append, List.append_assoc]

end

/-! ## How far a level is indented -/

@[simp] theorem length_shorten (mode : DisplayMode) (lens : List ℕ) (entry : Text) (level : ℕ) :
    (shorten mode lens entry level).length = lens.length := List.length_modify _ _ _

theorem getElem?_shorten (mode : DisplayMode) (lens : List ℕ) (entry : Text) (level j : ℕ) :
    (shorten mode lens entry level)[j]? =
      lens[j]?.map fun len => if level = j then min len (curlevellen mode entry level) else len :=
  List.getElem?_modify _ _ _ _

/-- The lengths of the levels of some lines. -/
def levelLens (mode : DisplayMode) (ps : List (Text × ℕ)) : List ℕ :=
  ps.foldl (fun lens p => shorten mode lens p.1 p.2) (List.replicate calltreemaxdepth 255)

theorem length_levelLens (mode : DisplayMode) (ps : List (Text × ℕ)) :
    (levelLens mode ps).length = calltreemaxdepth := by
  have hfold : ∀ lens : List ℕ,
      (ps.foldl (fun lens p => shorten mode lens p.1 p.2) lens).length = lens.length := by
    induction ps with
    | nil => exact fun _ => rfl
    | cons p ps ih => exact fun lens => (ih _).trans (length_shorten _ _ _ _)
  rw [levelLens, hfold, List.length_replicate]

/-- **No line is shorter than its level**, and nothing else than a line shortens one. -/
theorem getElem?_foldl_shorten (mode : DisplayMode) (ps : List (Text × ℕ)) {lens : List ℕ}
    {j len : ℕ} (hlen : lens[j]? = some len) :
    ∃ len', (ps.foldl (fun lens p => shorten mode lens p.1 p.2) lens)[j]? = some len' ∧
      (∀ p ∈ ps, p.2 = j → len' ≤ curlevellen mode p.1 p.2) ∧
      (len' = len ∨ ∃ p ∈ ps, p.2 = j ∧ len' = curlevellen mode p.1 p.2) ∧ len' ≤ len := by
  induction ps generalizing lens len with
  | nil => exact ⟨len, hlen, fun p hp => absurd hp List.not_mem_nil, Or.inl rfl, le_rfl⟩
  | cons p ps ih =>
    have hstep := getElem?_shorten mode lens p.1 p.2 j
    rw [hlen, Option.map_some] at hstep
    obtain ⟨len', hget, hle, hfrom, hlen'⟩ := ih hstep
    refine ⟨len', hget, ?_, ?_, ?_⟩
    · intro p' hp' hj
      rcases List.mem_cons.mp hp' with rfl | hp'
      · rw [if_pos hj] at hlen'
        omega
      · exact hle p' hp' hj
    · rcases hfrom with hsame | ⟨p', hp', hj, heq⟩
      · split_ifs at hsame with hj
        · rcases Nat.le_total len (curlevellen mode p.1 p.2) with hmin | hmin
          · exact Or.inl (by omega)
          · exact Or.inr ⟨p, List.mem_cons_self, hj, by omega⟩
        · exact Or.inl hsame
      · exact Or.inr ⟨p', List.mem_cons_of_mem _ hp', hj, heq⟩
    · split_ifs at hlen' <;> omega

/-- A tree that the display has room for: ten levels, and in the wide mode no name of more than
about 250 characters. -/
def Fits (mode : DisplayMode) (t : LevelTree Text) : Prop :=
  ∀ p ∈ levels 0 t, p.2 < calltreemaxdepth ∧ curlevellen mode p.1 p.2 < 255

/-- The levels down to that of a line are all indented. -/
theorem Fits.getD_levelLens_ne {mode : DisplayMode} {t : LevelTree Text} (h : Fits mode t)
    {p : Text × ℕ} (hp : p ∈ levels 0 t) {j : ℕ} (hj : j ≤ p.2) :
    (levelLens mode (levels 0 t)).getD j 255 ≠ 255 := by
  obtain ⟨q, hq, rfl⟩ := exists_mem_levels_of_le hp (Nat.zero_le j) hj
  have hstart : (List.replicate calltreemaxdepth 255)[q.2]? = some 255 := by
    rw [List.getElem?_replicate, if_pos (h q hq).1]
  obtain ⟨len, hget, hle, -, -⟩ := getElem?_foldl_shorten mode (levels 0 t) hstart
  have hlen := hle q hq rfl
  have hroom := (h q hq).2
  rw [List.getD_eq_getElem?_getD, levelLens, hget, Option.getD_some]
  omega

/-! ## The text in front of a symbol -/

/-- The bars of the levels above. -/
def bars (lenlist : List ℕ) : ℕ → Text
  | 0 => spaces 2
  | k + 1 => bars lenlist k ++ spaces (lenlist.getD k 255) ++ [byte '|']

/-- What is drawn in front of the direction. -/
def drawing (mode : DisplayMode) (lenlist : List ℕ) : ℕ → Text
  | 0 => spaces 2 ++ [byte '+']
  | k + 1 => bars lenlist k ++ spaces (lenlist.getD k 255) ++ [byte '+'] ++ arrows mode (k + 1)

/-- The text in front of a symbol. -/
def prependText (mode : DisplayMode) (direction : Direction) (lenlist : List ℕ) (idx : ℕ) : Text :=
  drawing mode lenlist idx ++ directiontxt direction

theorem foldl_prependTurn (mode : DisplayMode) (direction : Direction) (lenlist : List ℕ) (n : ℕ)
    (hn : n < calltreemaxdepth) {acc : Text × List Text}
    (hacc : acc = (List.range' 1 n).foldl (prependTurn mode direction lenlist)
      (spaces 2, (List.replicate calltreemaxdepth (spaces 1)).set 0
        (spaces 2 ++ [byte '+'] ++ directiontxt direction))) :
    acc.2.length = calltreemaxdepth ∧
      ((∀ j, 1 ≤ j → j ≤ n → lenlist.getD j 255 ≠ 255) → acc.1 = bars lenlist n) ∧
      ∀ idx ≤ n, (∀ j, 1 ≤ j → j ≤ idx → lenlist.getD j 255 ≠ 255) →
        acc.2[idx]? = some (prependText mode direction lenlist idx) := by
  induction n generalizing acc with
  | zero =>
    subst hacc
    refine ⟨by simp, fun _ => rfl, ?_⟩
    intro idx hidx _
    obtain rfl := Nat.le_zero.mp hidx
    simp [calltreemaxdepth, prependText, drawing]
  | succ n ih =>
    rw [List.range'_1_concat, List.foldl_append, List.foldl_cons, List.foldl_nil] at hacc
    obtain ⟨hlength, hbars, htexts⟩ := ih (by omega) rfl
    rw [prependTurn, Nat.add_comm 1 n, Nat.add_sub_cancel] at hacc
    split_ifs at hacc with hlen
    · subst hacc
      refine ⟨by simpa using hlength, ?_, ?_⟩
      · intro hall
        rw [bars, ← hbars fun j h1 hj => hall j h1 (by omega)]
      · intro idx hidx hall
        rcases Nat.eq_or_lt_of_le hidx with rfl | hlt
        · rw [List.getElem?_set_self (by omega), hbars fun j h1 hj => hall j h1 (by omega)]
          rfl
        · rw [List.getElem?_set_ne (by omega)]
          exact htexts idx (by omega) hall
    · subst hacc
      refine ⟨hlength, fun hall => absurd (hall (n + 1) (by omega) le_rfl) hlen, ?_⟩
      intro idx hidx hall
      rcases Nat.eq_or_lt_of_le hidx with rfl | hlt
      · exact absurd (hall (n + 1) (by omega) le_rfl) hlen
      · exact htexts idx (by omega) hall

/-- **The text in front of a symbol**, if all levels down to its own are indented. -/
theorem getElem?_buildDisplayPrependText {mode : DisplayMode} {direction : Direction}
    {lenlist : List ℕ} {idx : ℕ} (hidx : idx < calltreemaxdepth)
    (hall : ∀ j, 1 ≤ j → j ≤ idx → lenlist.getD j 255 ≠ 255) :
    (buildDisplayPrependText mode direction lenlist)[idx]? =
      some (prependText mode direction lenlist idx) :=
  (foldl_prependTurn mode direction lenlist (calltreemaxdepth - 1) (by decide) rfl).2.2 idx
    (Nat.le_sub_one_of_lt hidx) hall

theorem buildTreeDisplayItems_eq (mode : DisplayMode) (direction : Direction)
    (t : LevelTree Text) :
    buildTreeDisplayItems mode direction t =
      (levels 0 t, buildDisplayPrependText mode direction (levelLens mode (levels 0 t))) := by
  rw [buildTreeDisplayItems, buildTreeForLevel_eq]
  rfl

/-- **The lines of a tree.** -/
theorem Fits.displayTree_eq {mode : DisplayMode} {t : LevelTree Text} (h : Fits mode t)
    (direction : Direction) :
    displayTree mode direction t = (levels 0 t).map (fun p =>
      prependText mode direction (levelLens mode (levels 0 t)) p.2 ++ p.1) ++ [[]] := by
  rw [displayTree, buildTreeDisplayItems_eq]
  show displayTreeList _ (levels 0 t) = _
  rw [displayTreeList]
  congr 1
  apply List.map_congr_left
  intro p hp
  rw [getElem?_buildDisplayPrependText (h p hp).1 fun j _ hj => h.getD_levelLens_ne hp hj,
    Option.elim_some]

/-! ## Reading the lines -/

/-- The characters of a path. -/
def isBar (b : UInt8) : Bool := b = byte '|' || b = byte '+'

/-- A character that shows the direction. -/
def isArrowHead (b : UInt8) : Bool := b = byte '<' || b = byte '>'

/-- The symbol in a line, and its level. -/
def readLine (line : Text) : Text × ℕ :=
  let drawn := line.takeWhile fun b => !isArrowHead b
  (line.drop (drawn.length + 2), if byte '-' ∈ drawn then drawn.countP isBar else 0)

/-- What a line is drawn with. -/
def IsDrawn (b : UInt8) : Prop := b = byte ' ' ∨ b = byte '|' ∨ b = byte '+' ∨ b = byte '-'

theorem IsDrawn.not_isArrowHead {b : UInt8} (h : IsDrawn b) : (!isArrowHead b) = true := by
  rcases h with rfl | rfl | rfl | rfl <;> decide

theorem eq_of_mem_spaces {n : ℕ} {b : UInt8} (h : b ∈ spaces n) : b = byte ' ' :=
  List.eq_of_mem_replicate h

theorem eq_of_mem_arrows {mode : DisplayMode} {idx : ℕ} {b : UInt8} (h : b ∈ arrows mode idx) :
    b = byte '-' := by
  cases mode with
  | ultraCompact => exact List.mem_singleton.mp h
  | compact => exact List.eq_of_mem_replicate h
  | wide => exact List.eq_of_mem_replicate h

theorem mem_arrows (mode : DisplayMode) (k : ℕ) : byte '-' ∈ arrows mode (k + 1) := by
  cases mode with
  | ultraCompact => exact List.mem_singleton_self _
  | compact => exact List.mem_replicate.mpr ⟨k.succ_ne_zero, rfl⟩
  | wide => exact List.mem_replicate.mpr ⟨k.succ_ne_zero, rfl⟩

theorem countP_isBar_spaces (n : ℕ) : (spaces n).countP isBar = 0 := by
  rw [List.countP_eq_zero]
  intro b hb
  rw [eq_of_mem_spaces hb]
  decide

theorem countP_isBar_bars (lenlist : List ℕ) (k : ℕ) : (bars lenlist k).countP isBar = k := by
  induction k with
  | zero => exact countP_isBar_spaces 2
  | succ k ih =>
    rw [bars, List.countP_append, List.countP_append, ih, countP_isBar_spaces]
    rfl

theorem isDrawn_of_mem_bars {lenlist : List ℕ} {k : ℕ} {b : UInt8} (h : b ∈ bars lenlist k) :
    b = byte ' ' ∨ b = byte '|' := by
  induction k with
  | zero => exact Or.inl (eq_of_mem_spaces h)
  | succ k ih =>
    rcases List.mem_append.mp h with h | h
    · rcases List.mem_append.mp h with h | h
      · exact ih h
      · exact Or.inl (eq_of_mem_spaces h)
    · exact Or.inr (List.mem_singleton.mp h)

theorem isDrawn_of_mem_drawing {mode : DisplayMode} {lenlist : List ℕ} {idx : ℕ} {b : UInt8}
    (h : b ∈ drawing mode lenlist idx) : IsDrawn b := by
  cases idx with
  | zero =>
    rcases List.mem_append.mp h with h | h
    · exact Or.inl (eq_of_mem_spaces h)
    · exact Or.inr (Or.inr (Or.inl (List.mem_singleton.mp h)))
  | succ k =>
    simp only [drawing, List.mem_append, List.mem_singleton] at h
    rcases h with ((h | h) | h) | h
    · exact (isDrawn_of_mem_bars h).imp_right Or.inl
    · exact Or.inl (eq_of_mem_spaces h)
    · exact Or.inr (Or.inr (Or.inl h))
    · exact Or.inr (Or.inr (Or.inr (eq_of_mem_arrows h)))

/-- The bars in front of a symbol count its level; that of the root is the only one without a
dash. -/
theorem level_drawing (mode : DisplayMode) (lenlist : List ℕ) (idx : ℕ) :
    (if byte '-' ∈ drawing mode lenlist idx then (drawing mode lenlist idx).countP isBar else 0) =
      idx := by
  cases idx with
  | zero => rfl
  | succ k =>
    have hdash : byte '-' ∈ drawing mode lenlist (k + 1) :=
      List.mem_append_right _ (mem_arrows mode k)
    have harrows : (arrows mode (k + 1)).countP isBar = 0 := by
      rw [List.countP_eq_zero]
      intro b hb
      rw [eq_of_mem_arrows hb]
      decide
    rw [if_pos hdash, drawing, List.countP_append, List.countP_append, List.countP_append,
      countP_isBar_bars, countP_isBar_spaces, harrows]
    rfl

/-- **A line can be read back**, whatever the name is. -/
theorem readLine_prependText (mode : DisplayMode) (direction : Direction) (lenlist : List ℕ)
    (idx : ℕ) (entry : Text) :
    readLine (prependText mode direction lenlist idx ++ entry) = (entry, idx) := by
  have hhead : ∃ b, directiontxt direction = [b, byte ' '] ∧ (!isArrowHead b) = false := by
    cases direction with
    | c => exact ⟨byte '>', by decide +kernel, by decide⟩
    | p => exact ⟨byte '<', by decide +kernel, by decide⟩
  obtain ⟨b, htxt, hb⟩ := hhead
  have hdrawn : (prependText mode direction lenlist idx ++ entry).takeWhile
      (fun b => !isArrowHead b) = drawing mode lenlist idx := by
    rw [prependText, htxt, List.append_assoc, List.takeWhile_append_of_pos
      fun c hc => (isDrawn_of_mem_drawing hc).not_isArrowHead, List.cons_append,
      List.takeWhile_cons, if_neg (by rw [hb]; decide), List.append_nil]
  rw [readLine, hdrawn, level_drawing, prependText, htxt, List.append_assoc]
  congr 1
  rw [List.drop_append]
  simp

/-- Reading all lines gives the symbols with their levels. -/
theorem Fits.map_readLine {mode : DisplayMode} {t : LevelTree Text} (h : Fits mode t)
    (direction : Direction) :
    (displayTree mode direction t).dropLast.map readLine = levels 0 t := by
  rw [h.displayTree_eq, List.dropLast_concat, List.map_map]
  refine (List.map_congr_left fun p _ => ?_).trans (List.map_id _)
  exact readLine_prependText mode direction _ p.2 p.1

/-- **The lines show all of a tree**: two trees that the display has room for have the same lines
if and only if they are the same but for what was cut off. -/
theorem displayTree_eq_iff {mode : DisplayMode} (direction : Direction) {t t' : LevelTree Text}
    (h : Fits mode t) (h' : Fits mode t') :
    displayTree mode direction t = displayTree mode direction t' ↔ pruned t = pruned t' := by
  rw [← levels_eq_iff 0]
  constructor
  · intro hsame
    rw [← h.map_readLine direction, hsame, h'.map_readLine]
  · intro hsame
    rw [h.displayTree_eq, h'.displayTree_eq, hsame]

instance (mode : DisplayMode) (t : LevelTree Text) : Decidable (Fits mode t) :=
  inferInstanceAs (Decidable (∀ p ∈ levels 0 t,
    p.2 < calltreemaxdepth ∧ curlevellen mode p.1 p.2 < 255))

/-- A place that was cut off does not show. -/
theorem displayTree_cut :
    displayTree .wide .c (.node (text "f") [.cut, .node (text "g") []]) =
      displayTree .wide .c (.node (text "f") [.node (text "g") []]) :=
  (displayTree_eq_iff .c (by decide +kernel) (by decide +kernel)).mpr rfl

/-! ## The lines of a trace -/

theorem fits_trace {mode : DisplayMode} (hmode : mode ≠ .wide) (o : KeyOrder) (st : State)
    {recursiveDepth : ℤ} (hdepth : recursiveDepth < calltreemaxdepth) (symname : Text)
    (direction : Direction) : Fits mode (trace o st recursiveDepth symname direction) := by
  intro p hp
  rw [trace, getCallsForSymbol_eq] at hp
  have hlevel := lt_of_mem_levels_unfold hp
  have hroom : p.2 < 10 := by
    simp only [calltreemaxdepth] at hdepth
    omega
  refine ⟨hroom, ?_⟩
  cases mode with
  | ultraCompact => exact Nat.one_lt_ofNat
  | compact =>
    show p.2 + 2 < 255
    omega
  | wide => exact absurd rfl hmode

/-- **The lines of a trace stand for its branches**, one for each of them and in their order: the
symbol in a line is the last one of the branch, and its level says how long the branch is. -/
theorem readLine_trace {mode : DisplayMode} (hmode : mode ≠ .wide) (o : KeyOrder) (st : State)
    {recursiveDepth : ℤ} (hdepth : recursiveDepth < calltreemaxdepth) (symname : Text)
    (direction : Direction) :
    (displayTree mode direction (trace o st recursiveDepth symname direction)).dropLast.map
        (fun l => some (readLine l)) =
      (trace o st recursiveDepth symname direction).branches.map (line 0) := by
  have hread := (fits_trace hmode o st hdepth symname direction).map_readLine direction
  rw [← levels_eq, ← hread, List.map_map]
  rfl

theorem readLine_trace_main :
    (displayTree .compact .c
        (trace sampleOrder (session sampleSession) 3 (text "main") .c)).dropLast.map
          (fun l => some (readLine l)) =
      (trace sampleOrder (session sampleSession) 3 (text "main") .c).branches.map (line 0) :=
  readLine_trace (by decide) sampleOrder _ (by decide) _ _

end CCTree
