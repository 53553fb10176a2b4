/-
# The symbol table of the call-tree plugin

`src/shell/.vim/plugin/cctree.vim`: the plugin reads cscope databases into a list of symbols and
a dictionary of their indices.  A symbol has two texts of indices, each with a comma behind it,
of the symbols that it calls (or includes) and of those that call it.

What a user does in one session of the editor is a list of commands: databases are loaded, with
or without unloading those there are, or all are unloaded.
-/
import LeakimMisc.CCTreeDigraph
import LeakimMisc.Interning

open Interning

namespace CCTree

/-! ## Numbers in texts -/

/-- A number as a text. -/
def nr (i : ℤ) : List Char :=
  if i < 0 then '-' :: Nat.toDigits 10 i.natAbs else Nat.toDigits 10 i.toNat

/-- The number of a text; those of the plugin have no leading zeros, which would make them
octal. -/
def toNr : List Char → ℤ
  | '-' :: ds => -(Nat.ofDigitChars 10 ds 0 : ℤ)
  | ds => (Nat.ofDigitChars 10 ds 0 : ℤ)

/-- `split(s, ",")`: all empty parts at the beginning and one at the end are left out. -/
def split (s : List Char) : List (List Char) :=
  let parts := s.splitOn ','
  (if parts.getLast? = some [] then parts.dropLast else parts).dropWhile List.isEmpty

/-! ## The table -/

/-- `s:CCTreeSymbolDictCreate`: the name, and the indices of the symbols that it calls and of
those that call it. -/
structure Symbol where
  n : Text
  c : List Char
  p : List Char
  deriving DecidableEq

/-- A new symbol. -/
def symbolDictCreate (name : Text) : Symbol := ⟨name, [], []⟩

@[simp] theorem symbolDictCreate_n (name : Text) : (symbolDictCreate name).n = name := rfl

/-- The variables of the script that hold the databases. -/
structure State where
  symhashtable : Dict Text ℕ
  symlistindex : ℕ
  symlisttable : List Symbol
  loadedDBs : List Text
  dbloaded : Bool

/-- The variables when the script is loaded. -/
def State.init : State := ⟨∅, 0, [], [], false⟩

/-- The names of the symbols in the list. -/
def State.names (st : State) : List Text := st.symlisttable.map Symbol.n

/-- `s:CCTreeSymbolListAdd`, with the index that it returns. -/
def symbolListAdd (st : State) (name : Text) : State × ℕ :=
  match st.symhashtable.lookup name with
  | some i => (st, i)
  | none =>
    ({ st with
      symhashtable := st.symhashtable.insert name st.symlistindex
      symlisttable := st.symlisttable ++ [symbolDictCreate name]
      symlistindex := st.symlistindex + 1 }, st.symlistindex)

/-- The place in a list that an index means; a negative one counts from the end. -/
def listIndex (len : ℕ) (i : ℤ) : Option ℕ :=
  if 0 ≤ i then (if i < len then some i.toNat else none)
  else if -(len : ℤ) ≤ i then some (len + i).toNat else none

/-- A change of one entry.  An index out of range is an error, which does not end the function
it is in: nothing is changed. -/
def modifyAt (l : List Symbol) (i : ℤ) (f : Symbol → Symbol) : List Symbol :=
  (listIndex l.length i).elim l fun k => l.modify k f

/-- `s:symlisttable[..]['c'] .= (i. ",")`. -/
def Symbol.addCall (i : ℤ) (s : Symbol) : Symbol := { s with c := s.c ++ (nr i ++ [',']) }

/-- `s:symlisttable[..]['p'] .= (i. ",")`. -/
def Symbol.addCaller (i : ℤ) (s : Symbol) : Symbol := { s with p := s.p ++ (nr i ++ [',']) }

/-- `s:CCTreeSymbolMarkXRef`. -/
def symbolMarkXRef (st : State) (funcentryidx newfuncidx : ℤ) : State :=
  let calls := modifyAt st.symlisttable funcentryidx (Symbol.addCall newfuncidx)
  { st with symlisttable := modifyAt calls newfuncidx (Symbol.addCaller funcentryidx) }

/-! ## Looking up -/

/-- The two directions: the symbols that a symbol calls, and those that call it. -/
inductive Direction
  | c
  | p
  deriving DecidableEq, Repr

/-- `s:symlisttable[symentryidx][a:direction]`. -/
def Symbol.ids (s : Symbol) : Direction → List Char
  | .c => s.c
  | .p => s.p

/-- The name at an index of the list. -/
def State.nameAt (st : State) (i : ℤ) : Option Text :=
  (listIndex st.symlisttable.length i).bind fun k => st.symlisttable[k]?.map Symbol.n

/-- `s:CCTreeGetSymbolXRef`: the names that become keys of the dictionary it returns, one after
the other.  After an error there are none. -/
def getSymbolXRef (st : State) (symname : Text) (direction : Direction) : List Text :=
  ((st.symhashtable.lookup symname).bind fun symentryidx => st.symlisttable[symentryidx]?).elim
    [] fun s => (split (s.ids direction)).filterMap fun asymid => st.nameAt (toNr asymid)

/-! ## Loading -/

/-- The marks of the lines that the plugin reads. -/
inductive Mark
  | call
  | func
  | define
  | funcEnd
  | includeFile
  | file
  deriving DecidableEq, Repr

/-- The mark that a character stands for. -/
def Mark.ofByte (b : UInt8) : Option Mark :=
  [(text "`", Mark.call), (text "$", .func), (text "#", .define), (text "\x7d", .funcEnd),
    (text "~", .includeFile), (text "@", .file)].findSome? fun p =>
      if p.1 = [b] then some p.2 else none

/-- The lines that `filter` leaves, a tab and a mark, each with the text `a[2:]` behind it. -/
def readMark : Text → Option (Mark × Text)
  | tab :: b :: rest => if tab = 9 then (Mark.ofByte b).map fun m => (m, rest) else none
  | _ => none

/-- The variables of the loop; -1 is no function, or no file. -/
structure Loop where
  st : State
  curfuncidx : ℤ
  curfileidx : ℤ

/-- A turn of the loop. -/
def turn (l : Loop) (a : Mark × Text) : Loop :=
  match a.1 with
  | .call =>
    if l.curfuncidx ≠ -1 then
      let r := symbolListAdd l.st a.2
      { l with st := symbolMarkXRef r.1 l.curfuncidx r.2 }
    else l
  | .func =>
    let r := symbolListAdd l.st a.2
    { l with st := r.1, curfuncidx := r.2 }
  | .define => { l with st := (symbolListAdd l.st a.2).1 }
  | .funcEnd => { l with curfuncidx := -1 }
  | .includeFile =>
    -- the first character behind the mark is the quote or bracket of the include line
    let r := symbolListAdd l.st a.2.tail
    { l with st := symbolMarkXRef r.1 l.curfileidx r.2 }
  | .file =>
    if a.2 ≠ [] then
      let r := symbolListAdd l.st a.2
      { l with st := r.1, curfileidx := r.2 }
    else l

/-- The loop over the lines. -/
def readSymbols (st : State) (symbols : List Text) : State :=
  ((symbols.filterMap readMark).foldl turn ⟨st, -1, -1⟩).st

/-- `symbols[0] !~ "cscope.*\-c"`, the other way round: the database was built uncompressed. -/
def isUncompressed (header : Text) : Bool :=
  header.tails.any fun t =>
    (text "cscope").isPrefixOf t && (t.drop 6).tails.any fun u => (text "-c").isPrefixOf u

/-- `s:CCTreeUnloadDB`: the next index is not set back. -/
def unloadDB (st : State) : State :=
  { st with symlisttable := [], symhashtable := ∅, loadedDBs := [], dbloaded := false }

/-- A turn of the loop of `s:Digraph_Uncompress`.  The key is there: only its own turn takes it
out. -/
def uncompressSym (st : State) (compressedsym : Text) : State :=
  match st.symhashtable.lookup compressedsym with
  | none => st
  | some idx =>
    let uncmpname := digraphUncompressFast compressedsym digraphDictTableInit
    { st with
      symhashtable := (st.symhashtable.insert uncmpname idx).erase compressedsym
      symlisttable := modifyAt st.symlisttable idx fun s => { s with n := uncmpname } }

/-- What the editor does for the plugin: the directory it is in, the files it can read, what the
user answers when asked for a name, and the keys of a dictionary in some order. -/
structure Editor where
  cwd : Text
  readfile : Text → Option (List Text)
  answer : Text
  keys : Dict Text ℕ → List Text
  keys_perm : ∀ d, (keys d).Perm d.keys

/-- `s:Digraph_Uncompress`. -/
def digraphUncompress (ed : Editor) (st : State) : State :=
  (ed.keys st.symhashtable).foldl uncompressSym st

/-- The lines of a database; there are none without a name, also if the user was asked for it, or
if the file cannot be read. -/
def Editor.open (ed : Editor) (dbName : Text) : Option (List Text) :=
  let cscopeDb := if dbName = [] then ed.answer else dbName
  if cscopeDb = [] then none else ed.readfile cscopeDb

/-- `s:CCTreeLoadDBExt`. -/
def loadDBExt (ed : Editor) (st : State) (dbName : Text) (clear : Bool) : State :=
  let st := if clear then unloadDB st else st
  match ed.open dbName with
  | none => st
  | some symbols =>
    -- the name as it was given, also if the user was asked
    let st := { st with loadedDBs := st.loadedDBs ++ [ed.cwd ++ text "/" ++ dbName] }
    match symbols with
    | [] => st
    | header :: _ =>
      let st := readSymbols st symbols
      let st := if isUncompressed header then st else digraphUncompress ed st
      { st with dbloaded := true }

/-- The commands that change the table, each with the editor it is given in. -/
inductive Command
  | loadDB (ed : Editor) (dbName : Text)
  | appendDB (ed : Editor) (dbName : Text)
  | unloadDB

/-- A command. -/
def exec (st : State) : Command → State
  | .loadDB ed dbName => loadDBExt ed st dbName true
  | .appendDB ed dbName => loadDBExt ed st dbName false
  | .unloadDB => unloadDB st

/-- A session. -/
def session (cmds : List Command) : State := cmds.foldl exec State.init

end CCTree
