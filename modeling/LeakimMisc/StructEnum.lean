/-
# `struct_enum.py`: hoisting nested definitions

The model of `src/python/arc_cpp/struct_enum.py`.  One call of `search_and_mod`
reads the file line by line with a brace counter, remembers the top-level block
(`m`) and the block directly inside it (`n`), and, when `n` closes and is a
`struct`, `union` or `enum`, rewrites the file: the definition of `n` goes in front
of `m`, and a declaration takes its place.  The main loop repeats that until a
pass finds nothing.

A file is the text it holds.  `readline` and `tell` are the lines of the text
(`splitLines`) with a running offset.  The one exception that the code can raise,
the `TypeError` of adding `None` to a string, is the error of `Except`.  What the
script prints is left out.
-/
import LeakimMisc.TextLines

open PyStr

namespace StructEnum

/-! ## Lines -/

/-- `indent_none`: no leading tabs. -/
def indentNone : Str → Str
  | [] => []
  | c :: s => if c = '\t' then indentNone s else c :: s

/-- `indent_one`: at most one leading tab. -/
def indentOne : Str → Str
  | c :: d :: s => if c = '\t' ∧ d = '\t' then indentOne (d :: s) else c :: d :: s
  | s => s

/-- The three keywords that `index_of_def` looks for. -/
inductive Kw
  | struct
  | enum
  | union
  deriving DecidableEq, Repr

/-- The keyword as it stands in the file. -/
def Kw.text : Kw → Str
  | .struct => "struct".toList
  | .enum => "enum".toList
  | .union => "union".toList

/-- The keyword that a token is, if it is one. -/
def Kw.ofToken (f : Str) : Option Kw :=
  if f = "struct".toList then some .struct
  else if f = "enum".toList then some .enum
  else if f = "union".toList then some .union
  else none

/-- `index_of_def`: the index of the first token that is a keyword; `none` for `-1`. -/
def indexOfDef (l : Str) : Option ℕ :=
  (split (strip l)).findIdx? fun f => (Kw.ofToken f).isSome

/-- `index_of_S`: the index of the first token with a `{`; `none` for `-1`. -/
def indexOfS (l : Str) : Option ℕ :=
  (split (strip l)).findIdx? fun f => decide (find f '{' > -1)

/-- `is_def`: one of the first two tokens is a keyword. -/
def isDef (l : Str) : Bool :=
  match indexOfDef l with
  | none => false
  | some i => !decide (i > 1)

/-- `is_start`. -/
def isStart (l : Str) : Bool := decide (find l '{' > -1)

/-- `is_end`. -/
def isEnd (l : Str) : Bool := decide (find l '}' > -1)

/-! ## The class `S` -/

/-- The exceptions of the script: `None` added to a string. -/
inductive PyError
  | typeError
  deriving DecidableEq, Inhabited, Repr

/-- The class `S`.  `stop` is the field `end`; `none` is `None`. -/
structure S where
  decl : Option Str
  name0 : Option Str
  name : Option Str
  type0 : Option Kw
  structPacked : Bool
  start : ℕ
  stop : ℕ
  body : Str
  deriving DecidableEq, Repr

/-- `type0` as `__init__` reads it from the opening line. -/
def openType (l : Str) : Option Kw :=
  if isDef l then
    (indexOfDef l).bind fun i => (split (strip l))[i]?.bind Kw.ofToken
  else none

/-- `decl` as `__init__` reads it: the token between the keyword and the token with
the `{`, when there is exactly one. -/
def openDecl (l : Str) : Option Str :=
  if isDef l then
    match indexOfDef l, indexOfS l with
    | some i, some j => if i + 2 = j then (split (strip l))[i + 1]? else none
    | _, _ => none
  else none

/-- `body` as `__init__` sets it: the line from the `{` on, up to a `}`. -/
def openBody (l : Str) : Str :=
  let i := find l '{'
  let body := if i ≠ -1 then sliceFrom l i else []
  let j := find body '}'
  if j ≠ -1 then sliceTo body j else body

/-- `S.__init__`. -/
def S.init (start : ℕ) (l : Str) : S where
  decl := openDecl l
  name0 := none
  name := none
  type0 := openType l
  structPacked := false
  start := start
  stop := 0
  body := openBody l

/-- The tokens after the `}` of the closing line, the first one dropped when the line
holds `STRUCT_PACKED`. -/
def closeTokens (l : Str) : List Str :=
  let i := find l '}' + 1
  let f := split (strip (sliceFrom l i))
  if hasText l "STRUCT_PACKED".toList then f.drop 1 else f

/-- `name0`: the first token up to its `;`. -/
def nameZero (f0 : Str) : Str := sliceTo f0 (find f0 ';')

/-- `name`: `name0` up to a `[`, and from a `*` on. -/
def bareName (name0 : Str) : Str :=
  let name := if find name0 '[' ≠ -1 then sliceTo name0 (find name0 '[') else name0
  if find name '*' ≠ -1 then sliceFrom name (find name '*') else name

/-- The tag made for a block without one:
`self.name + "_in_" + parent + "_" + self.type0[0:1]`. -/
def genDecl (name parent : Str) (type0 : Kw) : Str :=
  name ++ "_in_".toList ++ parent ++ "_".toList ++ type0.text.take 1

/-- `S.last_line`; `tell` is `fd.tell()` after the closing line. -/
def S.lastLine (self : S) (tell : ℕ) (l : Str) (parent : Option Str) : Except PyError S :=
  match self.type0 with
  | none => .ok self
  | some type0 =>
      let self := { self with
        body := self.body ++ ['}']
        stop := tell
        structPacked := self.structPacked || hasText l "STRUCT_PACKED".toList
        name0 := (closeTokens l).head?.map nameZero <|> self.name0
        name := (closeTokens l).head?.map (fun f0 => bareName (nameZero f0)) <|> self.name }
      match self.decl, self.name, parent with
      | some _, _, _ => .ok self
      | none, some name, some parent =>
          .ok { self with decl := some (genDecl name parent type0) }
      | none, _, _ => .error .typeError

/-- `S.append`. -/
def S.append (self : S) (l : Str) : S := { self with body := self.body ++ l }

/-- The placeholders of `get_decl`. -/
def missingType0 : Str := "MISSING_type0".toList
@[inherit_doc missingType0] def missingDecl : Str := "MISSING_decl".toList
@[inherit_doc missingType0] def missingName : Str := "MISSING_name".toList

/-- `S.get_decl`. -/
def S.getDecl (self : S) : Except PyError Str :=
  match self.type0, self.decl, self.name, self.name0 with
  | none, _, _, _ => .ok missingType0
  | some _, none, _, _ => .ok missingDecl
  | some _, some _, none, _ => .ok missingName
  | some type0, some decl, some _, some name0 =>
      .ok (type0.text ++ " ".toList ++ decl ++ " ".toList ++ name0 ++ ";".toList)
  | some _, some _, some _, none => .error .typeError

/-- `S.get_typedef`. -/
def S.getTypedef (self : S) : Except PyError Str :=
  match self.type0, self.decl with
  | some type0, some decl =>
      if self.structPacked then
        .ok ("STRUCT_PACKED_START ".toList ++ type0.text ++ " ".toList ++ decl ++ " ".toList
          ++ self.body ++ " STRUCT_PACKED_END ".toList ++ ";".toList)
      else
        .ok (type0.text ++ " ".toList ++ decl ++ " ".toList ++ self.body ++ ";".toList)
  | _, _ => .error .typeError

/-! ## One pass -/

/-- `modify_and_swap`: the text of the new file. -/
def modifyAndSwap (n m : S) (infile : Str) : Except PyError Str := do
  let typedef ← n.getTypedef
  let decl ← n.getDecl
  return infile.take m.start ++ typedef ++ "\n".toList
    ++ (infile.drop m.start).take (n.start - m.start)
    ++ "\t/* GENERATED */\n".toList ++ "\t".toList ++ decl ++ "\n\n".toList
    ++ infile.drop n.stop

/-- The variables of the loop of `search_and_mod`. -/
structure Scan where
  m : Option S
  n : Option S
  bCount : ℤ
  deriving DecidableEq, Repr

/-- What one turn of the loop comes to: the next turn, or a block to hoist. -/
inductive Turn
  | next (st : Scan)
  | hoist (m n : S)

/-- The branch `if is_start(l)`, with the new value of `start_or_end`. -/
def Scan.onStart (st : Scan) (start : ℕ) (line : Str) : Scan × Bool :=
  let st := { st with bCount := st.bCount + 1 }
  match st.m, st.n with
  | none, _ => ({ st with m := some (S.init start line) }, true)
  | some _, none => ({ st with n := some (S.init start line) }, true)
  | some _, some _ => (st, false)

/-- The branch `if start_or_end == False and (b_count > 0)`. -/
def Scan.onText (st : Scan) (line : Str) (startOrEnd : Bool) : Scan :=
  if startOrEnd = false ∧ st.bCount > 0 then
    { st with n := st.n.map fun n => n.append (indentOne line) }
  else st

/-- The branch `if is_end(l)` and what follows it in the turn. -/
def Scan.onEnd (st : Scan) (tell : ℕ) (line : Str) (startOrEnd : Bool) : Except PyError Turn :=
  let st := { st with bCount := st.bCount - 1 }
  let st := if st.bCount = 0 then { st with n := none, m := none } else st
  if st.bCount = 1 then
    match st.m, st.n with
    | some m, some n => do
        let n ← n.lastLine tell (indentNone line) m.decl
        if n.type0.isSome then return .hoist m n
        else return .next { st with n := none }
    | _, _ => .ok (.next { st with n := none })
  else .ok (.next (st.onText line startOrEnd))

/-- One turn of the loop of `search_and_mod`: `start` is the offset of the line. -/
def turn (start : ℕ) (line : Str) (st : Scan) : Except PyError Turn :=
  let l := strip line
  let r := if isStart l then st.onStart start line else (st, false)
  if isEnd l then r.1.onEnd (start + line.length) line r.2
  else .ok (.next (r.1.onText line r.2))

/-- The loop of `search_and_mod` over the remaining lines: the blocks `m` and `n` it
hands to `modify_and_swap`, or `none` when it reaches the end of the file. -/
def scan : List Str → ℕ → Scan → Except PyError (Option (S × S))
  | [], _, _ => .ok none
  | line :: lines, start, st => do
      match ← turn start line st with
      | .next st => scan lines (start + line.length) st
      | .hoist m n => return some (m, n)

/-- The state in which the loop starts. -/
def Scan.init : Scan := ⟨none, none, 0⟩

/-- What a pass over the file hoists: the parent `m` and the block `n`. -/
def search (infile : Str) : Except PyError (Option (S × S)) :=
  scan (splitLines infile) 0 .init

/-- `search_and_mod`: the new file when it returns `True`, `none` when it returns
`False`. -/
def searchAndMod (infile : Str) : Except PyError (Option Str) := do
  match ← search infile with
  | none => return none
  | some (m, n) => return some (← modifyAndSwap n m infile)

/-! ## The main loop -/

/-- How a run ends: the file, the number of rewrites, and the exception, if any. -/
structure Outcome where
  file : Str
  modCount : ℕ
  error : Option PyError
  deriving DecidableEq, Repr

/-- `while keep_running`, for at most the given number of calls of `search_and_mod`. -/
def mainLoop : ℕ → Str → ℕ → Option Outcome
  | 0, _, _ => none
  | calls + 1, infile, modCount =>
      match searchAndMod infile with
      | .ok (some infile) => mainLoop calls infile (modCount + 1)
      | .ok none => some ⟨infile, modCount, none⟩
      | .error e => some ⟨infile, modCount, some e⟩

/-- The file after exactly `k` rewrites, if the run gets that far. -/
def rewrites : ℕ → Str → Option Str
  | 0, infile => some infile
  | k + 1, infile =>
      match searchAndMod infile with
      | .ok (some infile) => rewrites k infile
      | _ => none

/-- The run of the script on a file ends with the outcome `out`. -/
def Ends (infile : Str) (out : Outcome) : Prop := ∃ calls, mainLoop calls infile 0 = some out

end StructEnum
