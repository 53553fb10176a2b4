/-
# The window of the call-tree plugin

`src/shell/.vim/plugin/cctree.vim`: what the user does in one session with databases, traces and
the two commands for the depth, and what the window shows.  The two commands change the depth
also if they refuse to show the tree, for the assignments that should bring it back into its
bounds assign nothing.

The lines of the window are those of the tree that was asked for last, with the databases and the
depth of that moment (`window_session`), so that they stand for the chains of calls that the
databases give (`window_chains`); the status line names this tree as long as no trace in
the window itself is for another symbol or the other direction, and no longer
(`titled_session_iff`).  A depth that was refused takes effect with the next trace: its lines are
those of the deepest tree that would have been shown, with empty lines in between
(`displayTree_deep`).
-/
import LeakimMisc.CCTreeDisplay
import LeakimMisc.LabelledRuns

open LevelTree LabelledRuns

namespace CCTree

/-! ## The commands -/

/-- The buffer of the window, with its variables. -/
structure TreeBuffer where
  lines : List Text
  treelist : List (Text × ℕ)
  currentkeyword : Text
  currentdirection : Direction

/-- The variables of the script, and `g:CCTreeRecursiveDepth`; `current` is `s:currentkeyword`
with `s:currentdirection`, if it is not empty. -/
structure Script where
  db : State
  recursiveDepth : ℤ
  current : Option (Text × Direction)
  window : Option TreeBuffer

/-- The variables when the script is loaded. -/
def Script.init (recursiveDepth : ℤ) : Script := ⟨State.init, recursiveDepth, none, none⟩

/-- `s:CCTreeSanitizeCallDepth`: whether it warns.  The assignments in it have no `let`, and
`g:CCTreeRecursiveDepth = 1` is the command `:global` with colons around its pattern, which
leaves the variable as it is. -/
def sanitizeCallDepth (recursiveDepth : ℤ) : Bool :=
  decide (recursiveDepth ≥ calltreemaxdepth) || decide (recursiveDepth < 1)

variable (o : KeyOrder) (mode : DisplayMode)

/-- `s:CCTreeDisplayTreeInWindow`, from the window itself or from another one; the tree is that of
`symbol`, which is `s:currentkeyword`. -/
def displayTreeInWindow (inWindow : Bool) (v : Script) (symbol : Text) (direction : Direction)
    (atree : LevelTree Text) : Script :=
  let lines := displayTree mode direction atree
  let treelist := (buildTreeDisplayItems mode direction atree).1
  match v.window, inWindow with
  -- `s:CCTreeStoreStateInBuffer` is not called
  | some b, true => { v with window := some { b with lines := lines, treelist := treelist } }
  | _, _ => { v with window := some ⟨lines, treelist, symbol, direction⟩ }

/-- `s:CCTreeUpdateForCurrentSymbol`. -/
def updateForCurrentSymbol (inWindow : Bool) (v : Script) : Script :=
  match v.current with
  | none => v
  | some (symbol, direction) =>
    displayTreeInWindow mode inWindow v symbol direction
      (trace o v.db v.recursiveDepth symbol direction)

/-- The symbol that is traced: without one the user is asked. -/
def askedSymbol (symArg answer : Text) : Text := if symArg = [] then answer else symArg

/-- `s:CCTreeTraceTreeForSymbol`. -/
def traceTreeForSymbol (inWindow : Bool) (v : Script) (symArg answer : Text)
    (direction : Direction) : Script :=
  if v.db.dbloaded = false then v
  else if askedSymbol symArg answer = [] then v
  else
    updateForCurrentSymbol o mode inWindow
      { v with current := some (askedSymbol symArg answer, direction) }

/-- `s:CCTreeRecursiveDepthIncrease` and `s:CCTreeRecursiveDepthDecrease`. -/
def changeDepth (inWindow : Bool) (v : Script) (step : ℤ) : Script :=
  let v := { v with recursiveDepth := v.recursiveDepth + step }
  if sanitizeCallDepth v.recursiveDepth then v else updateForCurrentSymbol o mode inWindow v

/-- What a user does; `inWindow` says whether it is done in the window of the tree. -/
inductive UserCommand
  | db (cmd : Command)
  | traceSymbol (inWindow : Bool) (symArg answer : Text) (direction : Direction)
  | recurseDepthPlus (inWindow : Bool)
  | recurseDepthMinus (inWindow : Bool)

/-- A command. -/
def perform (v : Script) : UserCommand → Script
  | .db cmd => { v with db := exec v.db cmd }
  | .traceSymbol inWindow symArg answer direction =>
    traceTreeForSymbol o mode inWindow v symArg answer direction
  | .recurseDepthPlus inWindow => changeDepth o mode inWindow v 1
  | .recurseDepthMinus inWindow => changeDepth o mode inWindow v (-1)

/-- A session. -/
def userSession (recursiveDepth : ℤ) (cmds : List UserCommand) : Script :=
  cmds.foldl (perform o mode) (Script.init recursiveDepth)

/-- `s:CCTreeMiscConvertDirectionToString`. -/
def miscConvertDirectionToString : Direction → Text
  | .p => text "(Reverse)"
  | .c => text "(Forward)"

/-- `CCTreePreviewStatusLine`. -/
def previewStatusLine (recursiveDepth : ℤ) (currentkeyword : Text)
    (currentdirection : Direction) : Text :=
  text "CCTree-Preview -- " ++ currentkeyword ++
    (text "[Depth: " ++ (nr recursiveDepth).map byte ++ text "," ++
      (miscConvertDirectionToString currentdirection ++ text "]"))

/-! ## One command -/

variable {o mode}

theorem sanitizeCallDepth_eq_false_iff {recursiveDepth : ℤ} :
    sanitizeCallDepth recursiveDepth = false ↔
      1 ≤ recursiveDepth ∧ recursiveDepth < calltreemaxdepth := by
  simp only [sanitizeCallDepth, Bool.or_eq_false_iff, decide_eq_false_iff_not]
  omega

section Display

variable (inWindow : Bool) (v : Script) (symbol : Text) (direction : Direction)
  (atree : LevelTree Text)

@[simp] theorem displayTreeInWindow_db :
    (displayTreeInWindow mode inWindow v symbol direction atree).db = v.db := by
  unfold displayTreeInWindow
  split <;> rfl

@[simp] theorem displayTreeInWindow_recursiveDepth :
    (displayTreeInWindow mode inWindow v symbol direction atree).recursiveDepth =
      v.recursiveDepth := by
  unfold displayTreeInWindow
  split <;> rfl

@[simp] theorem displayTreeInWindow_current :
    (displayTreeInWindow mode inWindow v symbol direction atree).current = v.current := by
  unfold displayTreeInWindow
  split <;> rfl

/-- What the window shows, and whose name it has: its own one if the command was given in it. -/
theorem displayTreeInWindow_window :
    ∃ b, (displayTreeInWindow mode inWindow v symbol direction atree).window = some b ∧
      b.lines = displayTree mode direction atree ∧
      (b.currentkeyword, b.currentdirection) =
        if inWindow then v.window.elim (symbol, direction) fun b =>
          (b.currentkeyword, b.currentdirection)
        else (symbol, direction) := by
  unfold displayTreeInWindow
  cases v.window with
  | none => exact ⟨_, rfl, rfl, by simp⟩
  | some b => cases inWindow <;> exact ⟨_, rfl, rfl, rfl⟩

end Display

/-- The command that changes the databases, if it is one. -/
def UserCommand.dbCommand : UserCommand → Option Command
  | .db cmd => some cmd
  | _ => none

/-- By how much a command changes the depth. -/
def UserCommand.press : UserCommand → ℤ
  | .recurseDepthPlus _ => 1
  | .recurseDepthMinus _ => -1
  | _ => 0

/-- A command brings a tree into the window: a trace of a symbol with a database, or a change of
the depth that stays within the bounds when there has been one. -/
def Updates (v : Script) : UserCommand → Prop
  | .db _ => False
  | .traceSymbol _ symArg answer _ => v.db.dbloaded = true ∧ askedSymbol symArg answer ≠ []
  | .recurseDepthPlus _ =>
    v.current ≠ none ∧ 1 ≤ v.recursiveDepth + 1 ∧ v.recursiveDepth + 1 < calltreemaxdepth
  | .recurseDepthMinus _ =>
    v.current ≠ none ∧ 1 ≤ v.recursiveDepth + -1 ∧ v.recursiveDepth + -1 < calltreemaxdepth

/-- What only some commands write. -/
def Script.shown (v : Script) : Option TreeBuffer × Option (Text × Direction) := (v.window, v.current)

/-- The window shows the tree of a symbol. -/
def Script.ShowsTree (o : KeyOrder) (mode : DisplayMode) (v : Script) (st : State)
    (recursiveDepth : ℤ) : Prop :=
  ∃ b symbol direction, v.window = some b ∧ v.current = some (symbol, direction) ∧
    b.lines = displayTree mode direction (trace o st recursiveDepth symbol direction)

@[simp] theorem updateForCurrentSymbol_db (inWindow : Bool) (v : Script) :
    (updateForCurrentSymbol o mode inWindow v).db = v.db := by
  unfold updateForCurrentSymbol
  split
  · rfl
  · exact displayTreeInWindow_db _ _ _ _ _

@[simp] theorem updateForCurrentSymbol_recursiveDepth (inWindow : Bool) (v : Script) :
    (updateForCurrentSymbol o mode inWindow v).recursiveDepth = v.recursiveDepth := by
  unfold updateForCurrentSymbol
  split
  · rfl
  · exact displayTreeInWindow_recursiveDepth _ _ _ _ _

theorem updateForCurrentSymbol_showsTree {v : Script} (inWindow : Bool) (h : v.current ≠ none) :
    (updateForCurrentSymbol o mode inWindow v).ShowsTree o mode v.db v.recursiveDepth := by
  unfold updateForCurrentSymbol
  cases hcur : v.current with
  | none => exact absurd hcur h
  | some c =>
    obtain ⟨symbol, direction⟩ := c
    obtain ⟨b, hwindow, hlines, -⟩ := @displayTreeInWindow_window mode inWindow v symbol
      direction (trace o v.db v.recursiveDepth symbol direction)
    refine ⟨b, symbol, direction, hwindow, ?_, hlines⟩
    rw [displayTreeInWindow_current, hcur]

section Change

variable {v : Script} {step : ℤ}

/-- The depth is changed, and the tree of the current symbol is shown. -/
theorem changeDepth_of_room (inWindow : Bool) (h : 1 ≤ v.recursiveDepth + step)
    (h' : v.recursiveDepth + step < calltreemaxdepth) :
    changeDepth o mode inWindow v step =
      updateForCurrentSymbol o mode inWindow
        { v with recursiveDepth := v.recursiveDepth + step } := by
  unfold changeDepth
  rw [if_neg]
  rw [Bool.not_eq_true, sanitizeCallDepth_eq_false_iff]
  exact ⟨h, h'⟩

/-- The depth is changed also if nothing is shown. -/
theorem changeDepth_of_not (inWindow : Bool)
    (h : ¬ (v.current ≠ none ∧ 1 ≤ v.recursiveDepth + step ∧
      v.recursiveDepth + step < calltreemaxdepth)) :
    changeDepth o mode inWindow v step = { v with recursiveDepth := v.recursiveDepth + step } := by
  by_cases hcur : v.current = none
  · unfold changeDepth updateForCurrentSymbol
    simp [hcur]
  · unfold changeDepth
    rw [if_pos]
    rw [← Bool.not_eq_false, sanitizeCallDepth_eq_false_iff]
    exact fun hroom => h ⟨hcur, hroom⟩

theorem changeDepth_db (inWindow : Bool) : (changeDepth o mode inWindow v step).db = v.db := by
  by_cases h : v.current ≠ none ∧ 1 ≤ v.recursiveDepth + step ∧
      v.recursiveDepth + step < calltreemaxdepth
  · rw [changeDepth_of_room inWindow h.2.1 h.2.2, updateForCurrentSymbol_db]
  · rw [changeDepth_of_not inWindow h]

theorem changeDepth_recursiveDepth (inWindow : Bool) :
    (changeDepth o mode inWindow v step).recursiveDepth = v.recursiveDepth + step := by
  by_cases h : v.current ≠ none ∧ 1 ≤ v.recursiveDepth + step ∧
      v.recursiveDepth + step < calltreemaxdepth
  · rw [changeDepth_of_room inWindow h.2.1 h.2.2, updateForCurrentSymbol_recursiveDepth]
  · rw [changeDepth_of_not inWindow h]

end Change

/-- A trace without a database or without a symbol does nothing. -/
theorem traceTreeForSymbol_of_not {v : Script} {symArg answer : Text} (inWindow : Bool)
    (direction : Direction) (h : ¬ (v.db.dbloaded = true ∧ askedSymbol symArg answer ≠ [])) :
    traceTreeForSymbol o mode inWindow v symArg answer direction = v := by
  unfold traceTreeForSymbol
  split_ifs with hloaded hsymbol
  · rfl
  · rfl
  · exact absurd ⟨by simpa using hloaded, hsymbol⟩ h

theorem traceTreeForSymbol_of_loaded {v : Script} {symArg answer : Text} (inWindow : Bool)
    (direction : Direction) (h : v.db.dbloaded = true) (h' : askedSymbol symArg answer ≠ []) :
    traceTreeForSymbol o mode inWindow v symArg answer direction =
      updateForCurrentSymbol o mode inWindow
        { v with current := some (askedSymbol symArg answer, direction) } := by
  unfold traceTreeForSymbol
  rw [if_neg (by simp [h]), if_neg h']

/-- **Only the commands for databases change them.** -/
theorem perform_db (v : Script) (cmd : UserCommand) :
    (perform o mode v cmd).db = cmd.dbCommand.elim v.db (exec v.db) := by
  cases cmd with
  | db cmd => rfl
  | traceSymbol inWindow symArg answer direction =>
    show (traceTreeForSymbol o mode inWindow v symArg answer direction).db = v.db
    unfold traceTreeForSymbol
    split_ifs <;> simp
  | recurseDepthPlus inWindow => exact changeDepth_db inWindow
  | recurseDepthMinus inWindow => exact changeDepth_db inWindow

/-- **Each press changes the depth**, whether it warns or not. -/
theorem perform_recursiveDepth (v : Script) (cmd : UserCommand) :
    (perform o mode v cmd).recursiveDepth = v.recursiveDepth + cmd.press := by
  cases cmd with
  | db cmd => exact (add_zero _).symm
  | traceSymbol inWindow symArg answer direction =>
    show (traceTreeForSymbol o mode inWindow v symArg answer direction).recursiveDepth = _ + 0
    unfold traceTreeForSymbol
    split_ifs <;> simp
  | recurseDepthPlus inWindow => exact changeDepth_recursiveDepth inWindow
  | recurseDepthMinus inWindow => exact changeDepth_recursiveDepth inWindow

/-- A command that brings no tree leaves the window and the current symbol as they are. -/
theorem perform_of_not_updates (v : Script) (cmd : UserCommand) (h : ¬ Updates v cmd) :
    (perform o mode v cmd).shown = v.shown := by
  cases cmd with
  | db cmd => rfl
  | traceSymbol inWindow symArg answer direction =>
    rw [perform, traceTreeForSymbol_of_not inWindow direction h]
  | recurseDepthPlus inWindow =>
    rw [perform, changeDepth_of_not inWindow h]
    rfl
  | recurseDepthMinus inWindow =>
    rw [perform, changeDepth_of_not inWindow h]
    rfl

/-- **A command that brings a tree**: it is that of the current symbol, with the depth as the
command leaves it. -/
theorem perform_of_updates {v : Script} {cmd : UserCommand} (h : Updates v cmd) :
    (perform o mode v cmd).ShowsTree o mode v.db (v.recursiveDepth + cmd.press) := by
  cases cmd with
  | db cmd => exact h.elim
  | traceSymbol inWindow symArg answer direction =>
    have hpress : (UserCommand.traceSymbol inWindow symArg answer direction).press = 0 := rfl
    rw [perform, traceTreeForSymbol_of_loaded inWindow direction h.1 h.2, hpress, add_zero]
    exact updateForCurrentSymbol_showsTree inWindow (Option.some_ne_none _)
  | recurseDepthPlus inWindow =>
    rw [perform, changeDepth_of_room inWindow h.2.1 h.2.2]
    exact updateForCurrentSymbol_showsTree inWindow h.1
  | recurseDepthMinus inWindow =>
    rw [perform, changeDepth_of_room inWindow h.2.1 h.2.2]
    exact updateForCurrentSymbol_showsTree inWindow h.1

/-! ## Sessions -/

/-- The commands for databases. -/
def dbCommands (cmds : List UserCommand) : List Command := cmds.filterMap UserCommand.dbCommand

/-- By how much the commands change the depth. -/
def presses (cmds : List UserCommand) : ℤ := (cmds.map UserCommand.press).sum

theorem userSession_db (recursiveDepth : ℤ) (cmds : List UserCommand) :
    (userSession o mode recursiveDepth cmds).db = session (dbCommands cmds) := by
  have hfold : ∀ v : Script, (cmds.foldl (perform o mode) v).db =
      (dbCommands cmds).foldl exec v.db := by
    induction cmds with
    | nil => exact fun _ => rfl
    | cons cmd cmds ih =>
      intro v
      have hcons : dbCommands (cmd :: cmds) = cmd.dbCommand.toList ++ dbCommands cmds := by
        rw [dbCommands, dbCommands, List.filterMap_cons]
        cases cmd.dbCommand <;> rfl
      rw [List.foldl_cons, ih, perform_db, hcons, List.foldl_append]
      cases cmd.dbCommand <;> rfl
  exact hfold _

theorem userSession_recursiveDepth (recursiveDepth : ℤ) (cmds : List UserCommand) :
    (userSession o mode recursiveDepth cmds).recursiveDepth = recursiveDepth + presses cmds := by
  have hfold : ∀ v : Script, (cmds.foldl (perform o mode) v).recursiveDepth =
      v.recursiveDepth + presses cmds := by
    induction cmds with
    | nil => exact fun _ => (add_zero _).symm
    | cons cmd cmds ih =>
      intro v
      rw [List.foldl_cons, ih, perform_recursiveDepth, presses, presses, List.map_cons,
        List.sum_cons, add_assoc]
  exact hfold _

/-- The tree that a command has brought stays until another one brings a tree. -/
theorem showsTree_of_updates {o : KeyOrder} {mode : DisplayMode} {recursiveDepth : ℤ}
    {pre post : List UserCommand} {cmd : UserCommand}
    (hupdates : Updates (userSession o mode recursiveDepth pre) cmd)
    (hlater : Throughout (perform o mode) (fun v cmd => ¬ Updates v cmd)
      (userSession o mode recursiveDepth (pre ++ [cmd])) post) :
    (userSession o mode recursiveDepth (pre ++ cmd :: post)).ShowsTree o mode
      (session (dbCommands pre)) (recursiveDepth + presses (pre ++ [cmd])) := by
  have hlast : userSession o mode recursiveDepth (pre ++ [cmd]) =
      perform o mode (userSession o mode recursiveDepth pre) cmd := by
    simp [userSession]
  have hall : userSession o mode recursiveDepth (pre ++ cmd :: post) =
      post.foldl (perform o mode) (userSession o mode recursiveDepth (pre ++ [cmd])) := by
    simp [userSession]
  have hview : (userSession o mode recursiveDepth (pre ++ cmd :: post)).shown =
      (perform o mode (userSession o mode recursiveDepth pre) cmd).shown := by
    rw [hall, ← hlast]
    exact foldl_of_throughout perform_of_not_updates hlater
  obtain ⟨hsame, hsame'⟩ := Prod.mk.inj hview
  obtain ⟨b, symbol, direction, hwindow, hcurrent, hlines⟩ :
      (perform o mode (userSession o mode recursiveDepth pre) cmd).ShowsTree o mode
        (userSession o mode recursiveDepth pre).db
        ((userSession o mode recursiveDepth pre).recursiveDepth + cmd.press) :=
    perform_of_updates hupdates
  have hdepth : (userSession o mode recursiveDepth pre).recursiveDepth + cmd.press =
      recursiveDepth + presses (pre ++ [cmd]) := by
    rw [userSession_recursiveDepth]
    simp [presses, add_assoc]
  rw [hdepth, userSession_db] at hlines
  exact ⟨b, symbol, direction, hsame.trans hwindow, hsame'.trans hcurrent, hlines⟩

/-- **What the window shows**: nothing as long as no command has brought a tree, and then the
tree of the current symbol, with the databases as they were at the last command that did and with
all changes of the depth up to it, also those that were refused. -/
theorem window_session (o : KeyOrder) (mode : DisplayMode) (recursiveDepth : ℤ)
    (cmds : List UserCommand) :
    (Throughout (perform o mode) (fun v cmd => ¬ Updates v cmd) (Script.init recursiveDepth) cmds ∧
        (userSession o mode recursiveDepth cmds).window = none) ∨
      ∃ pre cmd post, cmds = pre ++ cmd :: post ∧
        Updates (userSession o mode recursiveDepth pre) cmd ∧
        Throughout (perform o mode) (fun v cmd => ¬ Updates v cmd)
          (userSession o mode recursiveDepth (pre ++ [cmd])) post ∧
        (userSession o mode recursiveDepth cmds).ShowsTree o mode (session (dbCommands pre))
          (recursiveDepth + presses (pre ++ [cmd])) := by
  rcases exists_last_write (f := perform o mode) Updates (Script.init recursiveDepth) cmds with
    hnone | ⟨pre, cmd, post, rfl, hupdates, hlater⟩
  · left
    have hview := foldl_of_throughout perform_of_not_updates hnone
    exact ⟨hnone, congrArg Prod.fst hview⟩
  · right
    exact ⟨pre, cmd, post, rfl, hupdates, hlater, showsTree_of_updates hupdates hlater⟩

/-- **From the databases to the window**: in a session in which no symbols were unloaded before
the last command that brought a tree, and at a depth that the display has room for, the lines of
the window stand one by one for the chains of calls from the current symbol in the databases, down
to the depth, each chain once. -/
theorem window_chains {o : KeyOrder} {mode : DisplayMode} (hmode : mode ≠ .wide)
    {recursiveDepth : ℤ} {pre post : List UserCommand} {cmd : UserCommand}
    (hplain : ∀ c ∈ dbCommands pre, c.Plain)
    (hfirst : ∀ c ∈ dbCommands pre, FileFirst none (c.symbols.filterMap readMark))
    (hunloaded : unloaded State.init (dbCommands pre) = 0)
    (hupdates : Updates (userSession o mode recursiveDepth pre) cmd)
    (hlater : Throughout (perform o mode) (fun v cmd => ¬ Updates v cmd)
      (userSession o mode recursiveDepth (pre ++ [cmd])) post)
    (hdepth : recursiveDepth + presses (pre ++ [cmd]) < calltreemaxdepth) :
    ∃ (b : TreeBuffer) (symbol : Text) (direction : Direction) (chains : List (List Text)),
      (userSession o mode recursiveDepth (pre ++ cmd :: post)).window = some b ∧
      (userSession o mode recursiveDepth (pre ++ cmd :: post)).current =
        some (symbol, direction) ∧
      b.lines.dropLast.map (fun l => some (readLine l)) = chains.map (line 0) ∧
      chains.Nodup ∧ ∀ chain, chain ∈ chains ↔
        chain.head? = some symbol ∧ symbol ∈ (session (dbCommands pre)).names ∧
          (chain.length : ℤ) ≤ recursiveDepth + presses (pre ++ [cmd]) + 1 ∧
          chain.IsChain (Refers ((dbCommands pre).flatMap Command.refs) direction) := by
  obtain ⟨b, symbol, direction, hwindow, hcurrent, hlines⟩ := showsTree_of_updates hupdates hlater
  have hshows : Shows ([] ++ (dbCommands pre).flatMap Command.refs) (session (dbCommands pre)) :=
    shows_init.session hplain hfirst hunloaded
  have hfits := fits_trace hmode o (session (dbCommands pre)) hdepth symbol direction
  refine ⟨b, symbol, direction, _, hwindow, hcurrent, ?_, nodup_branches_trace o _ _ _ direction,
    fun chain => hshows.mem_branches_trace_iff⟩
  rw [hlines, ← levels_eq, ← hfits.map_readLine direction, List.map_map]
  rfl

/-- A database is loaded. -/
def sampleUser : List UserCommand := sampleSession.map .db

theorem window_chains_sampleUser :
    ∃ (b : TreeBuffer) (symbol : Text) (direction : Direction) (chains : List (List Text)),
      (userSession sampleOrder .compact 3
        (sampleUser ++ [.traceSymbol false (text "main") [] .c])).window = some b ∧
      (userSession sampleOrder .compact 3
        (sampleUser ++ [.traceSymbol false (text "main") [] .c])).current =
          some (symbol, direction) ∧
      b.lines.dropLast.map (fun l => some (readLine l)) = chains.map (line 0) ∧
      chains.Nodup ∧ ∀ chain, chain ∈ chains ↔
        chain.head? = some symbol ∧ symbol ∈ (session (dbCommands sampleUser)).names ∧
          (chain.length : ℤ) ≤
            3 + presses (sampleUser ++ [.traceSymbol false (text "main") [] .c]) + 1 ∧
          chain.IsChain (Refers ((dbCommands sampleUser).flatMap Command.refs) direction) := by
  have hcommands : dbCommands sampleUser = sampleSession := rfl
  have hloaded : (userSession sampleOrder .compact 3 sampleUser).db.dbloaded = true := by
    rw [userSession_db, hcommands]
    decide +kernel
  apply window_chains (by decide)
  · rw [hcommands]
    decide +kernel
  · rw [hcommands]
    exact fileFirst_sampleSession
  · rw [hcommands]
    decide +kernel
  · exact ⟨hloaded, by decide +kernel⟩
  · exact trivial
  · decide

/-! ## The status line -/

/-- The status line names the symbol and the direction of the tree in the window. -/
def Script.Titled (v : Script) : Prop :=
  ∀ b ∈ v.window, ∃ c ∈ v.current,
    previewStatusLine v.recursiveDepth b.currentkeyword b.currentdirection =
      previewStatusLine v.recursiveDepth c.1 c.2

/-- A trace in the window itself is for the symbol and the direction of the tree there. -/
def TracesShown (v : Script) : UserCommand → Prop
  | .traceSymbol true symArg answer direction =>
    v.db.dbloaded = true → askedSymbol symArg answer ≠ [] → v.window ≠ none →
      v.current = some (askedSymbol symArg answer, direction)
  | _ => True

theorem previewStatusLine_eq_iff {recursiveDepth : ℤ} {symbol symbol' : Text}
    {direction direction' : Direction} :
    previewStatusLine recursiveDepth symbol direction =
        previewStatusLine recursiveDepth symbol' direction' ↔
      symbol = symbol' ∧ direction = direction' := by
  constructor
  · intro h
    rw [previewStatusLine, previewStatusLine, List.append_assoc (text "CCTree-Preview -- "),
      List.append_assoc (text "CCTree-Preview -- "), List.append_right_inj] at h
    have hlength : ∀ d, (miscConvertDirectionToString d).length = 9 := by
      intro d
      cases d <;> decide +kernel
    obtain ⟨hsymbol, hrest⟩ := List.append_inj' h (by simp [hlength])
    rw [List.append_right_inj, List.append_left_inj] at hrest
    refine ⟨hsymbol, ?_⟩
    cases direction <;> cases direction' <;> first | rfl | exact absurd hrest (by decide +kernel)
  · rintro ⟨rfl, rfl⟩
    rfl

theorem titled_iff {v : Script} :
    v.Titled ↔ ∀ b ∈ v.window, v.current = some (b.currentkeyword, b.currentdirection) := by
  refine forall_congr' fun b => imp_congr_right fun _ => ?_
  constructor
  · rintro ⟨c, hc, hline⟩
    obtain ⟨hsymbol, hdirection⟩ := previewStatusLine_eq_iff.mp hline
    rw [hc, hsymbol, hdirection]
  · intro hc
    exact ⟨_, hc, rfl⟩

theorem titled_of_shown_eq {v v' : Script} (h : v'.shown = v.shown) (hv : v.Titled) :
    v'.Titled := by
  obtain ⟨hwindow, hcurrent⟩ := Prod.mk.inj h
  rw [titled_iff, hwindow, hcurrent]
  exact titled_iff.mp hv

/-- **The name in the window** after a tree was brought: it is that of the tree, unless the command
was given in the window and this had another one. -/
theorem titled_updateForCurrentSymbol_iff {v : Script} {inWindow : Bool} {symbol : Text}
    {direction : Direction} (h : v.current = some (symbol, direction)) :
    (updateForCurrentSymbol o mode inWindow v).Titled ↔
      (inWindow = true → ∀ b ∈ v.window, (b.currentkeyword, b.currentdirection) =
        (symbol, direction)) := by
  have hupdate : updateForCurrentSymbol o mode inWindow v =
      displayTreeInWindow mode inWindow v symbol direction
        (trace o v.db v.recursiveDepth symbol direction) := by
    unfold updateForCurrentSymbol
    rw [h]
  obtain ⟨b, hwindow, -, hname⟩ := @displayTreeInWindow_window mode inWindow v symbol
    direction (trace o v.db v.recursiveDepth symbol direction)
  rw [titled_iff, hupdate, displayTreeInWindow_current, hwindow, h]
  have hsome : (∀ b' ∈ some b, some (symbol, direction) =
      some (b'.currentkeyword, b'.currentdirection)) ↔
        (b.currentkeyword, b.currentdirection) = (symbol, direction) := by
    simp [eq_comm]
  rw [hsome, hname]
  cases inWindow with
  | false => simp
  | true => cases v.window <;> simp

theorem titled_changeDepth {v : Script} (hv : v.Titled) (inWindow : Bool) (step : ℤ) :
    (changeDepth o mode inWindow v step).Titled := by
  by_cases h : v.current ≠ none ∧ 1 ≤ v.recursiveDepth + step ∧
      v.recursiveDepth + step < calltreemaxdepth
  · obtain ⟨⟨symbol, direction⟩, hcur⟩ := Option.ne_none_iff_exists'.mp h.1
    have hcur' : ({ v with recursiveDepth := v.recursiveDepth + step } : Script).current =
        some (symbol, direction) := hcur
    rw [changeDepth_of_room inWindow h.2.1 h.2.2, titled_updateForCurrentSymbol_iff hcur']
    intro _ b hb
    have hname := titled_iff.mp hv b hb
    rw [hcur] at hname
    exact (Option.some.inj hname).symm
  · rw [changeDepth_of_not inWindow h]
    exact titled_of_shown_eq (v := v) rfl hv

/-- **One command**: the status line stays right exactly if a trace in the window is for the tree
that is there. -/
theorem titled_perform_iff {v : Script} (hv : v.Titled) (cmd : UserCommand) :
    (perform o mode v cmd).Titled ↔ TracesShown v cmd := by
  cases cmd with
  | db cmd => exact iff_of_true (titled_of_shown_eq rfl hv) trivial
  | recurseDepthPlus inWindow => exact iff_of_true (titled_changeDepth hv inWindow 1) trivial
  | recurseDepthMinus inWindow => exact iff_of_true (titled_changeDepth hv inWindow (-1)) trivial
  | traceSymbol inWindow symArg answer direction =>
    by_cases h : v.db.dbloaded = true ∧ askedSymbol symArg answer ≠ []
    · obtain ⟨hloaded, hsymbol⟩ := h
      rw [perform, traceTreeForSymbol_of_loaded inWindow direction hloaded hsymbol,
        titled_updateForCurrentSymbol_iff rfl]
      cases inWindow with
      | false => exact iff_of_true (fun h => absurd h (by simp)) trivial
      | true =>
        have hnamed := titled_iff.mp hv
        simp only [TracesShown, hloaded, hsymbol, ne_eq, not_false_eq_true, forall_const]
        cases hwindow : v.window with
        | none => simp
        | some b =>
          rw [hnamed b hwindow]
          simp
    · rw [perform, traceTreeForSymbol_of_not inWindow direction h]
      refine iff_of_true hv ?_
      cases inWindow with
      | false => trivial
      | true => exact fun hloaded hsymbol => absurd ⟨hloaded, hsymbol⟩ h

/-- The list of lengths has no room for the levels that are too deep. -/
theorem levelLens_filter (mode : DisplayMode) (ps : List (Text × ℕ)) :
    levelLens mode (ps.filter fun p => p.2 < calltreemaxdepth) = levelLens mode ps := by
  have hfold : ∀ lens : List ℕ, lens.length = calltreemaxdepth →
      (ps.filter fun p => p.2 < calltreemaxdepth).foldl
          (fun lens p => shorten mode lens p.1 p.2) lens =
        ps.foldl (fun lens p => shorten mode lens p.1 p.2) lens := by
    induction ps with
    | nil => exact fun _ _ => rfl
    | cons p ps ih =>
      intro lens hlen
      by_cases hp : p.2 < calltreemaxdepth
      · rw [List.filter_cons_of_pos (by simpa using hp), List.foldl_cons, List.foldl_cons]
        exact ih _ ((length_shorten _ _ _ _).trans hlen)
      · have hsame : shorten mode lens p.1 p.2 = lens :=
          List.modify_eq_self (by omega)
        rw [List.filter_cons_of_neg (by simpa using hp), List.foldl_cons, hsame]
        exact ih lens hlen
  exact hfold _ (List.length_replicate ..)

/-- There is a text in front of each symbol that is not too deep. -/
theorem exists_getElem?_buildDisplayPrependText (mode : DisplayMode) (direction : Direction)
    (lenlist : List ℕ) (idx : ℕ) :
    (idx < calltreemaxdepth ∧ ∃ pptxt, pptxt ≠ [] ∧
        (buildDisplayPrependText mode direction lenlist)[idx]? = some pptxt) ∨
      (¬ idx < calltreemaxdepth ∧
        (buildDisplayPrependText mode direction lenlist)[idx]? = none) := by
  have hfold : ∀ (idxs : List ℕ) (acc : Text × List Text), (∀ pptxt ∈ acc.2, pptxt ≠ []) →
      (idxs.foldl (prependTurn mode direction lenlist) acc).2.length = acc.2.length ∧
        ∀ pptxt ∈ (idxs.foldl (prependTurn mode direction lenlist) acc).2, pptxt ≠ [] := by
    intro idxs
    induction idxs with
    | nil => exact fun acc hacc => ⟨rfl, hacc⟩
    | cons i idxs ih =>
      intro acc hacc
      have hturn : (prependTurn mode direction lenlist acc i).2.length = acc.2.length ∧
          ∀ pptxt ∈ (prependTurn mode direction lenlist acc i).2, pptxt ≠ [] := by
        rw [prependTurn]
        split_ifs
        · refine ⟨List.length_set, fun pptxt hpptxt => ?_⟩
          rcases List.mem_or_eq_of_mem_set hpptxt with hpptxt | rfl
          · exact hacc pptxt hpptxt
          · simp
        · exact ⟨rfl, hacc⟩
      obtain ⟨hlen, hall⟩ := ih _ hturn.2
      exact ⟨hlen.trans hturn.1, hall⟩
  have hstart : ∀ pptxt ∈ (List.replicate calltreemaxdepth (spaces 1)).set 0
      (spaces 2 ++ [byte '+'] ++ directiontxt direction), pptxt ≠ [] := by
    intro pptxt hpptxt
    rcases List.mem_or_eq_of_mem_set hpptxt with hpptxt | rfl
    · rw [List.eq_of_mem_replicate hpptxt]
      decide
    · simp
  obtain ⟨hlen, hall⟩ : (buildDisplayPrependText mode direction lenlist).length =
      calltreemaxdepth ∧ ∀ pptxt ∈ buildDisplayPrependText mode direction lenlist, pptxt ≠ [] :=
    hfold (List.range' 1 (calltreemaxdepth - 1)) (spaces 2, _) hstart
  by_cases hidx : idx < calltreemaxdepth
  · left
    have hget := List.getElem?_eq_getElem (hlen.symm ▸ hidx)
    exact ⟨hidx, _, hall _ (List.getElem_mem _), hget⟩
  · right
    refine ⟨hidx, List.getElem?_eq_none ?_⟩
    omega

/-- The lines that are not empty are those of the symbols that are not too deep. -/
theorem filter_displayTreeList (mode : DisplayMode) (direction : Direction) (lenlist : List ℕ)
    (treelst : List (Text × ℕ)) :
    (displayTreeList (buildDisplayPrependText mode direction lenlist) treelst).filter
        (fun l => l ≠ []) =
      (displayTreeList (buildDisplayPrependText mode direction lenlist)
        (treelst.filter fun p => p.2 < calltreemaxdepth)).dropLast := by
  rw [displayTreeList, displayTreeList, List.dropLast_concat, List.filter_append, List.filter_map]
  have hempty : [([] : Text)].filter (fun l => l ≠ []) = [] := rfl
  rw [hempty, List.append_nil]
  congr 1
  refine List.filter_congr fun p _ => decide_eq_decide.mpr ?_
  show ((buildDisplayPrependText mode direction lenlist)[p.2]?).elim [] (· ++ p.1) ≠ [] ↔ _
  rcases exists_getElem?_buildDisplayPrependText mode direction lenlist p.2 with
    ⟨hlt, pptxt, hne, hget⟩ | ⟨hnot, hget⟩
  · rw [hget, Option.elim_some]
    exact iff_of_true (fun h => hne (List.append_eq_nil_iff.mp h).1) hlt
  · rw [hget, Option.elim_none]
    exact iff_of_false (fun h => h rfl) hnot

/-- **A tree that is too deep for the display**: its lines that are not empty are those of the
tree with the greatest depth that the commands for the depth would have shown. -/
theorem displayTree_deep (o : KeyOrder) (mode : DisplayMode) (st : State) (recursiveDepth : ℤ)
    (symname : Text) (direction : Direction) :
    (displayTree mode direction (trace o st recursiveDepth symname direction)).filter
        (fun l => l ≠ []) =
      (displayTree mode direction
        (trace o st (min recursiveDepth (calltreemaxdepth - 1)) symname direction)).dropLast := by
  have hlevels : (levels 0 (trace o st recursiveDepth symname direction)).filter
        (fun p => p.2 < calltreemaxdepth) =
      levels 0 (trace o st (min recursiveDepth (calltreemaxdepth - 1)) symname direction) := by
    have hupper := filter_levels_unfold (children o st direction) (recursiveDepth + 1 - 0).toNat
      calltreemaxdepth 0 symname
    rw [trace, trace, getCallsForSymbol_eq, getCallsForSymbol_eq, Nat.cast_zero]
    rw [Nat.zero_add] at hupper
    rw [hupper]
    congr 2
    simp only [calltreemaxdepth]
    omega
  rw [displayTree, displayTree, buildTreeDisplayItems_eq, buildTreeDisplayItems_eq]
  dsimp only
  rw [filter_displayTreeList, hlevels, ← hlevels, levelLens_filter]

end CCTree
