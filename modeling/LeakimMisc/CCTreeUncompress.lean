/-
# Databases that are compressed

`src/shell/.vim/plugin/cctree.vim`: the names of a compressed database are changed in place after
it has been read, in the list of symbols and in the dictionary.  For every key its text is entered
under the same index, and then the key is taken out.  A name that is its own compressed form is
entered under the key that is taken out: it stays in the list, but no lookup finds it any more
(`session_appendDB_compressed`).
-/
import LeakimMisc.CCTreeXRef

open Interning

namespace CCTree

/-- What a name in a database stands for. -/
def decode (name : Text) : Text := digraphUncompressFast name digraphDictTableInit

/-- The dictionary and the names of the list. -/
def State.tables (st : State) : Dict Text ℕ × List Text := (st.symhashtable, st.names)

theorem names_modifyAt_natCast (l : List Symbol) (i : ℕ) (name : Text) :
    (modifyAt l i fun s => { s with n := name }).map Symbol.n =
      (l.map Symbol.n).modify i fun _ => name := by
  rw [modifyAt, listIndex, if_pos (Int.natCast_nonneg i)]
  by_cases hi : i < l.length
  · rw [if_pos (by exact_mod_cast hi), Option.elim_some, Int.toNat_natCast]
    apply List.ext_getElem?
    intro j
    rw [List.getElem?_map, List.getElem?_modify, List.getElem?_modify, List.getElem?_map]
    cases l[j]? with
    | none => rfl
    | some s => by_cases hij : i = j <;> simp [hij]
  · rw [if_neg (by exact_mod_cast hi), Option.elim_none, List.modify_eq_self (by simpa using hi)]

/-- **A turn of the loop changes one key.** -/
theorem tables_uncompressSym (st : State) (compressedsym : Text) :
    (uncompressSym st compressedsym).tables = renameKey decode st.tables compressedsym := by
  have hhash : st.tables.1 = st.symhashtable := rfl
  rw [uncompressSym, renameKey, hhash]
  cases st.symhashtable.lookup compressedsym with
  | none => rfl
  | some idx =>
    exact congrArg (Prod.mk _) (names_modifyAt_natCast st.symlisttable idx _)

theorem tables_foldl (keys : List Text) (st : State) :
    (keys.foldl uncompressSym st).tables = keys.foldl (renameKey decode) st.tables := by
  induction keys generalizing st with
  | nil => rfl
  | cons k keys ih => rw [List.foldl_cons, ih, tables_uncompressSym, List.foldl_cons]

/-- The names of databases can be told apart: no two of them stand for the same text, and none
for another one. -/
structure Decodable (names : List Text) : Prop where
  inj : ∀ k ∈ names, ∀ k' ∈ names, decode k = decode k' → k = k'
  fix : ∀ k ∈ names, decode k ∈ names → decode k = k

/-- **What uncompressing does to a table.** -/
theorem digraphUncompress_spec {st : State} (h : Counted 0 st) (hdecode : Decodable st.names)
    (ed : Editor) :
    (digraphUncompress ed st).names = st.names.map decode ∧
      ∀ n i, (digraphUncompress ed st).symhashtable.lookup n = some i ↔
        n ∉ st.names ∧ (st.names.map decode)[i]? = some n := by
  have hperm := ed.keys_perm st.symhashtable
  have hmem : ∀ k, k ∈ ed.keys st.symhashtable ↔ k ∈ st.names := by
    intro k
    rw [hperm.mem_iff, ← not_iff_not, ← h.1.lookup_eq_none_iff, AList.lookup_eq_none,
      AList.mem_keys]
  have hfold := foldl_renameKey h.1 hdecode.inj hdecode.fix
    (hperm.nodup_iff.mpr st.symhashtable.nodupKeys) hmem
  have htables := tables_foldl (ed.keys st.symhashtable) st
  rw [State.tables] at htables
  rw [show (st.symhashtable, st.names) = st.tables from rfl, ← htables] at hfold
  exact hfold

/-! ## Sessions -/

/-- The state when a database has been read, and before it is uncompressed. -/
def readDB (ed : Editor) (st : State) (dbName : Text) (symbols : List Text) : State :=
  readSymbols { st with loadedDBs := st.loadedDBs ++ [ed.cwd ++ text "/" ++ dbName] } symbols

/-- **A compressed database is added** to what there is, without symbols having been unloaded:
then the list has the texts of all names, and a text is found, at its own place, exactly if it is
none of the names as they were. -/
theorem session_appendDB_compressed {cmds : List Command} (hplain : ∀ cmd ∈ cmds, cmd.Plain)
    (hunloaded : unloaded State.init cmds = 0) {ed : Editor} {dbName header : Text}
    {rest names : List Text} (hopen : ed.open dbName = some (header :: rest))
    (hcompressed : isUncompressed header = false)
    (hnames : names = (readDB ed (session cmds) dbName (header :: rest)).names)
    (hdecode : Decodable names) :
    (session (cmds ++ [.appendDB ed dbName])).names = names.map decode ∧
      ∀ n i, (session (cmds ++ [.appendDB ed dbName])).symhashtable.lookup n = some i ↔
        n ∉ names ∧ (names.map decode)[i]? = some n := by
  have hcounted := counted_init.session hplain
  rw [Nat.zero_add, hunloaded] at hcounted
  have hlisted : Counted 0 { session cmds with
      loadedDBs := (session cmds).loadedDBs ++ [ed.cwd ++ text "/" ++ dbName] } := hcounted
  have hread : Counted 0 (readDB ed (session cmds) dbName (header :: rest)) :=
    hlisted.readSymbols _
  have hexec : session (cmds ++ [.appendDB ed dbName]) =
      { digraphUncompress ed (readDB ed (session cmds) dbName (header :: rest)) with
        dbloaded := true } := by
    rw [session, List.foldl_append, List.foldl_cons, List.foldl_nil, exec, loadDBExt, hopen]
    simp only [hcompressed]
    rfl
  rw [hexec, hnames]
  exact digraphUncompress_spec hread (hnames ▸ hdecode) ed

/-- A compressed database with the functions `q` and `test`, of which only the second one has a
compressed form of its own. -/
def compressedDB : List Text :=
  [text "cscope 15 /src 0000001", text "\t@a.c", text "\t$q", text "\t$" ++ [139, 161]]

theorem session_appendDB_compressedDB :
    (session [.appendDB (sampleEditor compressedDB) (text "a.db")]).symhashtable.lookup
        (text "test") = some 2 ∧
      (session [.appendDB (sampleEditor compressedDB) (text "a.db")]).symhashtable.lookup
        (text "q") ≠ some 1 := by
  have hspec : ∀ n i, (session ([] ++
      [.appendDB (sampleEditor compressedDB) (text "a.db")])).symhashtable.lookup n = some i ↔
        n ∉ [text "a.c", text "q", [139, 161]] ∧
          ([text "a.c", text "q", [139, 161]].map decode)[i]? = some n :=
    (session_appendDB_compressed (by decide +kernel) (by decide +kernel) rfl (by decide +kernel)
      (by decide +kernel) ⟨by decide +kernel, by decide +kernel⟩).2
  exact ⟨(hspec _ _).mpr (by decide +kernel), (hspec _ _).not.mpr (by decide +kernel)⟩

end CCTree
