/-
# Calls and callers

`src/shell/.vim/plugin/cctree.vim`: what the symbol table says after a session is compared with
the databases themselves: the pairs of a caller and a callee that their lines name
(`crossRefs`).  As long as no symbols have been unloaded, both directions of a lookup give these
pairs (`session_getSymbolXRef_eq`).  The index of the next symbol is not set back when the table is
emptied, and from then on no name is found at its own entry (`session_places_iff`).
-/
import LeakimMisc.CCTreeSymbols

open Interning

namespace CCTree

/-! ## Texts of numbers -/

theorem toNr_nr (i : ℤ) : toNr (nr i) = i := by
  have hdigits : ∀ n : ℕ, toNr (Nat.toDigits 10 n) = n := by
    intro n
    rw [toNr]
    · rw [Nat.ofDigitChars_ten_toDigits]
    · intro ds hds
      have hminus : '-' ∈ Nat.toDigits 10 n := by
        rw [hds]
        exact List.mem_cons_self
      exact absurd (Nat.isDigit_of_mem_toDigits (by decide) (by decide) hminus) (by decide)
  rw [nr]
  split_ifs with h
  · rw [toNr, Nat.ofDigitChars_ten_toDigits]
    omega
  · rw [hdigits]
    omega

theorem comma_not_mem_nr (i : ℤ) : ',' ∉ nr i := by
  have hdigits : ∀ n : ℕ, ',' ∉ Nat.toDigits 10 n := by
    intro n h
    exact absurd (Nat.isDigit_of_mem_toDigits (by decide) (by decide) h) (by decide)
  rw [nr]
  split_ifs
  · simp [hdigits]
  · exact hdigits _

theorem nr_ne_nil (i : ℤ) : nr i ≠ [] := by
  rw [nr]
  split_ifs
  · simp
  · exact Nat.toDigits_ne_nil

/-- The text of a list of numbers. -/
def nrs (l : List ℤ) : List Char := l.flatMap fun i => nr i ++ [',']

theorem nrs_append (l l' : List ℤ) : nrs (l ++ l') = nrs l ++ nrs l' := List.flatMap_append

theorem splitOn_nrs (l : List ℤ) : (nrs l).splitOn ',' = l.map nr ++ [[]] := by
  induction l with
  | nil => rfl
  | cons i l ih =>
    rw [nrs, List.flatMap_cons, List.append_assoc, List.singleton_append, List.map_cons,
      List.cons_append, ← ih]
    exact List.splitOn_append_cons_self_of_not_mem (comma_not_mem_nr i) _

/-- **The numbers are read back.** -/
theorem map_toNr_split_nrs (l : List ℤ) : (split (nrs l)).map toNr = l := by
  have hparts : split (nrs l) = l.map nr := by
    rw [split, splitOn_nrs, List.getLast?_append_cons]
    simp only [List.getLast?_singleton, if_true, List.dropLast_concat]
    rw [List.dropWhile_eq_self_iff]
    intro hpos
    simp [nr_ne_nil]
  rw [hparts, List.map_map]
  exact (List.map_congr_left fun i _ => toNr_nr i).trans (List.map_id l)

/-! ## The names in the table -/

/-- The names are numbered from `d`, which is what the next index is counted from. -/
def Counted (d : ℕ) (st : State) : Prop :=
  Indexed d st.symhashtable st.names ∧ st.symlistindex = d + st.names.length

theorem counted_init : Counted 0 State.init := ⟨indexed_empty 0, rfl⟩

theorem names_modifyAt (l : List Symbol) (i : ℤ) (f : Symbol → Symbol)
    (hf : ∀ s, (f s).n = s.n) : (modifyAt l i f).map Symbol.n = l.map Symbol.n := by
  rw [modifyAt]
  cases listIndex l.length i with
  | none => rfl
  | some k =>
    show (l.modify k f).map Symbol.n = _
    apply List.ext_getElem?
    intro j
    rw [List.getElem?_map, List.getElem?_map, List.getElem?_modify]
    cases l[j]? with
    | none => rfl
    | some s =>
      by_cases hk : k = j
      · simp [hk, hf]
      · simp [hk]

@[simp] theorem names_symbolMarkXRef (st : State) (i j : ℤ) :
    (symbolMarkXRef st i j).names = st.names := by
  show (modifyAt (modifyAt st.symlisttable i (Symbol.addCall j)) j (Symbol.addCaller i)).map
    Symbol.n = _
  rw [names_modifyAt _ _ (Symbol.addCaller i) fun _ => rfl,
    names_modifyAt _ _ (Symbol.addCall j) fun _ => rfl, State.names]

theorem Counted.symbolMarkXRef {d : ℕ} {st : State} (h : Counted d st) (i j : ℤ) :
    Counted d (symbolMarkXRef st i j) := by
  rw [Counted, names_symbolMarkXRef]
  exact h

/-- **What adding a name does**: it is in the table then, with the number that is returned. -/
theorem symbolListAdd_spec {d : ℕ} {st : State} (h : Counted d st) (name : Text) :
    Counted d (symbolListAdd st name).1 ∧
      ((symbolListAdd st name).1 = st ∨
        name ∉ st.names ∧ (symbolListAdd st name).1.symlisttable =
          st.symlisttable ++ [symbolDictCreate name]) ∧
      ∃ k, (symbolListAdd st name).2 = d + k ∧
        (symbolListAdd st name).1.names[k]? = some name := by
  rw [symbolListAdd]
  cases hlookup : st.symhashtable.lookup name with
  | some i => exact ⟨h, Or.inl rfl, (h.1 name i).mp hlookup⟩
  | none =>
    have hinsert := h.1.insert hlookup
    rw [← h.2] at hinsert
    refine ⟨⟨?_, ?_⟩, Or.inr ⟨(h.1.lookup_eq_none_iff name).mp hlookup, rfl⟩,
      st.names.length, h.2, ?_⟩
    · simpa [State.names] using hinsert
    · have := h.2
      simp only [State.names, List.map_append, List.length_append, List.length_map] at this ⊢
      simp
      omega
    · simp [State.names, symbolDictCreate]

/-- The names there are stay where they are. -/
theorem names_prefix_symbolListAdd {d : ℕ} {st : State} (h : Counted d st) (name : Text) :
    st.names <+: (symbolListAdd st name).1.names := by
  rcases (symbolListAdd_spec h name).2.1 with hsame | ⟨-, hnew⟩
  · rw [hsame]
  · rw [State.names, State.names, hnew, List.map_append]
    exact List.prefix_append _ _

/-- A turn of the loop keeps the numbers. -/
theorem Counted.turn {d : ℕ} {l : Loop} (h : Counted d l.st) (a : Mark × Text) :
    Counted d (turn l a).st := by
  have hadd : ∀ name, Counted d (symbolListAdd l.st name).1 := fun name =>
    (symbolListAdd_spec h name).1
  rw [CCTree.turn]
  split
  · split_ifs
    · exact (hadd _).symbolMarkXRef _ _
    · exact h
  · exact hadd _
  · exact hadd _
  · exact h
  · exact (hadd _).symbolMarkXRef _ _
  · split_ifs
    · exact hadd _
    · exact h

theorem Counted.readSymbols {d : ℕ} {st : State} (h : Counted d st) (symbols : List Text) :
    Counted d (readSymbols st symbols) := by
  have hloop : ∀ (ls : List (Mark × Text)) (l : Loop), Counted d l.st →
      Counted d (ls.foldl CCTree.turn l).st := by
    intro ls
    induction ls with
    | nil => exact fun l hl => hl
    | cons a ls ih => exact fun l hl => ih _ (hl.turn a)
  exact hloop _ _ h

/-- **Unloading does not set the next index back.** -/
theorem Counted.unloadDB {d : ℕ} {st : State} (h : Counted d st) :
    Counted (d + st.names.length) (unloadDB st) :=
  ⟨indexed_empty _, h.2⟩

/-! ## Sessions -/

/-- The lines of the database that a command reads. -/
def Command.symbols : Command → List Text
  | .loadDB ed dbName | .appendDB ed dbName => (ed.open dbName).getD []
  | .unloadDB => []

/-- The database that a command reads, if it reads one, was built uncompressed. -/
def Command.Plain (cmd : Command) : Prop :=
  ∀ header ∈ cmd.symbols.head?, isUncompressed header = true

instance (cmd : Command) : Decidable cmd.Plain :=
  inferInstanceAs (Decidable (∀ header ∈ cmd.symbols.head?, isUncompressed header = true))

/-- The commands that unload what there is. -/
def Command.unloads : Command → Bool
  | .appendDB _ _ => false
  | _ => true

/-- The number of symbols that are unloaded in a session. -/
def unloaded : State → List Command → ℕ
  | _, [] => 0
  | st, cmd :: cmds =>
    (if cmd.unloads then st.names.length else 0) + unloaded (exec st cmd) cmds

/-- The state that a command starts to read in. -/
def Command.prepare (cmd : Command) (st : State) : State :=
  if cmd.unloads then CCTree.unloadDB st else st

/-- **What a command does to the table**, if its database is uncompressed: it reads the lines. -/
theorem exec_eq {cmd : Command} (hplain : cmd.Plain) (st : State) :
    ∃ dbs loaded, exec st cmd =
      { readSymbols { cmd.prepare st with loadedDBs := dbs } cmd.symbols with
        dbloaded := loaded } := by
  have hload : ∀ (ed : Editor) (st : State) (dbName : Text) (clear : Bool),
      (∀ header ∈ ((ed.open dbName).getD []).head?, isUncompressed header = true) →
      ∃ dbs loaded, loadDBExt ed st dbName clear =
        { readSymbols { (if clear then unloadDB st else st) with loadedDBs := dbs }
            ((ed.open dbName).getD []) with dbloaded := loaded } := by
    intro ed st dbName clear hheader
    rw [loadDBExt]
    generalize (if clear then unloadDB st else st) = st'
    cases hopen : ed.open dbName with
    | none => exact ⟨st'.loadedDBs, st'.dbloaded, rfl⟩
    | some symbols =>
      refine ⟨st'.loadedDBs ++ [ed.cwd ++ text "/" ++ dbName], ?_⟩
      cases symbols with
      | nil => exact ⟨st'.dbloaded, rfl⟩
      | cons header rest =>
        have hplain : isUncompressed header = true := hheader header (by rw [hopen]; rfl)
        exact ⟨true, by simp [hplain]⟩
  cases cmd with
  | loadDB ed dbName => exact hload ed st dbName true hplain
  | appendDB ed dbName => exact hload ed st dbName false hplain
  | unloadDB => exact ⟨_, _, rfl⟩

theorem Counted.exec {d : ℕ} {st : State} {cmd : Command} (h : Counted d st)
    (hplain : cmd.Plain) :
    Counted (d + if cmd.unloads then st.names.length else 0) (exec st cmd) := by
  obtain ⟨dbs, loaded, hexec⟩ := exec_eq hplain st
  have hprepare : Counted (d + if cmd.unloads then st.names.length else 0)
      (cmd.prepare st) := by
    rw [Command.prepare]
    split_ifs
    · exact h.unloadDB
    · exact h
  rw [hexec]
  have hlisted : Counted (d + if cmd.unloads then st.names.length else 0)
      { cmd.prepare st with loadedDBs := dbs } := hprepare
  exact hlisted.readSymbols cmd.symbols

/-- **The numbers of the names in a session** are counted from the number of symbols unloaded in
it. -/
theorem Counted.session {d : ℕ} {st : State} (h : Counted d st) {cmds : List Command}
    (hplain : ∀ cmd ∈ cmds, cmd.Plain) :
    Counted (d + unloaded st cmds) (cmds.foldl CCTree.exec st) := by
  induction cmds generalizing d st with
  | nil => exact h
  | cons cmd cmds ih =>
    have hrest := ih (h.exec (hplain cmd List.mem_cons_self))
      (fun cmd' hcmd => hplain cmd' (List.mem_cons_of_mem _ hcmd))
    rwa [Nat.add_assoc] at hrest

/-- An editor in which every file has these lines. -/
def sampleEditor (symbols : List Text) : Editor where
  cwd := text "/src"
  readfile _ := some symbols
  answer := []
  keys := AList.keys
  keys_perm _ := List.Perm.refl _

/-- A database: `main` in `a.c` calls `f`, which calls itself. -/
def sampleDB : List Text :=
  ["cscope 15 /src -c 0000001", "\t@a.c", "\t$main", "\t`f", "\t\x7d", "\t$f", "\t`f",
    "\t\x7d"].map text

/-- The session that loads it. -/
def sampleSession : List Command := [.loadDB (sampleEditor sampleDB) (text "a.db")]

/-- **Every name is found at its own entry** if and only if no symbols have been unloaded in the
session, or there are none now. -/
theorem session_places_iff {cmds : List Command} (hplain : ∀ cmd ∈ cmds, cmd.Plain) :
    (∀ name i, (session cmds).symhashtable.lookup name = some i →
        (session cmds).names[i]? = some name) ↔
      unloaded State.init cmds = 0 ∨ (session cmds).names = [] := by
  have hcounted := counted_init.session hplain
  rw [Nat.zero_add] at hcounted
  exact hcounted.1.places_iff

/-- Loading a database twice. -/
theorem session_places_twice :
    ¬ ∀ name i, (session (sampleSession ++ sampleSession)).symhashtable.lookup name = some i →
      (session (sampleSession ++ sampleSession)).names[i]? = some name := by
  rw [session_places_iff (by decide +kernel)]
  decide +kernel

/-! ## What the databases say -/

/-- **The pairs of a caller and a callee** that the lines of a database name, in the function
and the file that are current. -/
def crossRefs : Option Text → Option Text → List (Mark × Text) → List (Text × Text)
  | _, _, [] => []
  | func, file, (.call, name) :: lines =>
    (func.map fun f => (f, name)).toList ++ crossRefs func file lines
  | _, file, (.func, name) :: lines => crossRefs (some name) file lines
  | func, file, (.define, _) :: lines => crossRefs func file lines
  | _, file, (.funcEnd, _) :: lines => crossRefs none file lines
  | func, file, (.includeFile, name) :: lines =>
    (file.map fun f => (f, name.tail)).toList ++ crossRefs func file lines
  | func, file, (.file, name) :: lines =>
    crossRefs func (if name ≠ [] then some name else file) lines

/-- There is a file before every include line. -/
def FileFirst (file : Option Text) (lines : List (Mark × Text)) : Prop :=
  ∀ front name rest, lines = front ++ (Mark.includeFile, name) :: rest →
    file ≠ none ∨ ∃ f, f ≠ [] ∧ (Mark.file, f) ∈ front

/-- It is enough that the first line is that of a file. -/
theorem fileFirst_cons {file : Option Text} {f : Text} (hf : f ≠ []) (lines : List (Mark × Text)) :
    FileFirst file ((.file, f) :: lines) := by
  intro front name rest h
  cases front with
  | nil => simp at h
  | cons a front =>
    obtain ⟨rfl, -⟩ := List.cons.inj h
    exact Or.inr ⟨f, hf, List.mem_cons_self⟩

theorem fileFirst_sampleSession :
    ∀ cmd ∈ sampleSession, FileFirst none (cmd.symbols.filterMap readMark) := by
  intro cmd hcmd
  rw [List.mem_singleton.mp hcmd]
  exact fileFirst_cons (f := text "a.c") (by decide +kernel) _

theorem FileFirst.tail {file : Option Text} {a : Mark × Text} {lines : List (Mark × Text)}
    (h : FileFirst file (a :: lines)) (ha : ∀ f, a = (.file, f) → f = []) :
    FileFirst file lines := by
  rintro front name rest rfl
  rcases h (a :: front) name rest rfl with hfile | ⟨f, hf, hmem⟩
  · exact Or.inl hfile
  · refine Or.inr ⟨f, hf, (List.mem_cons.mp hmem).resolve_left fun heq => hf (ha f heq.symm)⟩

/-- The name of a pair that a direction starts from. -/
def Direction.here : Direction → Text × Text → Text
  | .c, q => q.1
  | .p, q => q.2

/-- The name of a pair that a direction leads to. -/
def Direction.there : Direction → Text × Text → Text
  | .c, q => q.2
  | .p, q => q.1

/-- The names that the pairs give for a name. -/
def refsOf (direction : Direction) (refs : List (Text × Text)) (n : Text) : List Text :=
  (refs.filter fun q => direction.here q = n).map direction.there

theorem mem_refsOf_iff {direction : Direction} {refs : List (Text × Text)} {n k : Text} :
    k ∈ refsOf direction refs n ↔
      ∃ q ∈ refs, direction.here q = n ∧ direction.there q = k := by
  simp [refsOf, and_assoc]

theorem refsOf_concat (direction : Direction) (refs : List (Text × Text)) (q : Text × Text)
    (n : Text) : refsOf direction (refs ++ [q]) n =
      refsOf direction refs n ++ if direction.here q = n then [direction.there q] else [] := by
  rw [refsOf, refsOf, List.filter_append, List.map_append]
  by_cases h : direction.here q = n <;> simp [h]

/-- The numbers of names, as a text. -/
def numbers (names l : List Text) : List Char := nrs (l.map fun k => (names.idxOf k : ℤ))

theorem numbers_append (names l l' : List Text) :
    numbers names (l ++ l') = numbers names l ++ numbers names l' := by
  rw [numbers, List.map_append, nrs_append]
  rfl

/-- Numbers stay the same when names are added. -/
theorem numbers_extend {names names' l : List Text} (h : names <+: names')
    (hl : ∀ k ∈ l, k ∈ names) : numbers names' l = numbers names l := by
  obtain ⟨more, rfl⟩ := h
  rw [numbers, numbers]
  congr 1
  apply List.map_congr_left
  intro k hk
  rw [List.idxOf_append_of_mem (hl k hk)]

/-- **The table shows the pairs** `refs`: each symbol has the numbers of its callees and of its
callers. -/
structure Shows (refs : List (Text × Text)) (st : State) : Prop where
  counted : Counted 0 st
  known : ∀ q ∈ refs, ∀ direction : Direction, direction.here q ∈ st.names
  ids : ∀ s ∈ st.symlisttable, ∀ direction,
    s.ids direction = numbers st.names (refsOf direction refs s.n)

theorem shows_init : Shows [] State.init :=
  ⟨counted_init, fun _ hq => absurd hq List.not_mem_nil,
    fun _ hs => absurd hs List.not_mem_nil⟩

theorem Shows.there_mem {refs : List (Text × Text)} {st : State} (h : Shows refs st)
    {q : Text × Text} (hq : q ∈ refs) (direction : Direction) :
    direction.there q ∈ st.names := by
  cases direction with
  | c => exact h.known q hq .p
  | p => exact h.known q hq .c

theorem Shows.symbolListAdd {refs : List (Text × Text)} {st : State} (h : Shows refs st)
    (name : Text) : Shows refs (symbolListAdd st name).1 := by
  obtain ⟨hcounted, hcases, -⟩ := symbolListAdd_spec h.counted name
  have hextend := names_prefix_symbolListAdd h.counted name
  rcases hcases with hsame | ⟨hnew, htable⟩
  · rw [hsame]
    exact h
  · refine ⟨hcounted, fun q hq direction => hextend.subset (h.known q hq direction), ?_⟩
    intro s hs direction
    rw [numbers_extend hextend]
    · rw [htable] at hs
      rcases List.mem_append.mp hs with hs | hs
      · exact h.ids s hs direction
      · obtain rfl := List.mem_singleton.mp hs
        -- no pair names a symbol that was not in the table
        have hnone : refsOf direction refs (symbolDictCreate name).n = [] := by
          rw [List.eq_nil_iff_forall_not_mem]
          intro k hk
          obtain ⟨q, hq, hhere, -⟩ := mem_refsOf_iff.mp hk
          rw [symbolDictCreate_n] at hhere
          exact hnew (hhere ▸ h.known q hq direction)
        rw [hnone]
        cases direction <;> rfl
    · intro k hk
      obtain ⟨q, hq, -, rfl⟩ := mem_refsOf_iff.mp hk
      exact h.there_mem hq direction

theorem listIndex_natCast {len k : ℕ} (h : k < len) : listIndex len (k : ℤ) = some k := by
  rw [listIndex, if_pos (by omega), if_pos (by omega)]
  simp

/-- What a mark from `i` to `j` makes of the symbol at `k`. -/
def Symbol.mark (i j k : ℕ) (s : Symbol) : Symbol :=
  let s := if i = k then s.addCall j else s
  if j = k then s.addCaller i else s

@[simp] theorem Symbol.mark_n (i j k : ℕ) (s : Symbol) : (s.mark i j k).n = s.n := by
  rw [Symbol.mark]
  split_ifs <;> rfl

theorem Symbol.mark_ids_c (i j k : ℕ) (s : Symbol) :
    (s.mark i j k).ids .c = s.ids .c ++ if i = k then nr j ++ [','] else [] := by
  rw [Symbol.mark]
  split_ifs <;> simp [Symbol.ids, Symbol.addCall, Symbol.addCaller]

theorem Symbol.mark_ids_p (i j k : ℕ) (s : Symbol) :
    (s.mark i j k).ids .p = s.ids .p ++ if j = k then nr i ++ [','] else [] := by
  rw [Symbol.mark]
  split_ifs <;> simp [Symbol.ids, Symbol.addCall, Symbol.addCaller]

theorem getElem?_symbolMarkXRef {st : State} {i j : ℕ} (hi : i < st.names.length)
    (hj : j < st.names.length) (k : ℕ) :
    (symbolMarkXRef st i j).symlisttable[k]? = st.symlisttable[k]?.map (Symbol.mark i j k) := by
  rw [State.names, List.length_map] at hi hj
  show (modifyAt (modifyAt st.symlisttable i (Symbol.addCall j)) j (Symbol.addCaller i))[k]? = _
  have hlength : (modifyAt st.symlisttable i (Symbol.addCall j)).length =
      st.symlisttable.length := by
    rw [modifyAt, listIndex_natCast hi]
    exact List.length_modify _ _ _
  rw [modifyAt, hlength, listIndex_natCast hj, modifyAt, listIndex_natCast hi]
  show ((st.symlisttable.modify i (Symbol.addCall j)).modify j (Symbol.addCaller i))[k]? = _
  rw [List.getElem?_modify, List.getElem?_modify]
  cases st.symlisttable[k]? with
  | none => rfl
  | some s => rfl

/-- **A mark adds a pair.** -/
theorem Shows.symbolMarkXRef {refs : List (Text × Text)} {st : State} (h : Shows refs st)
    {i j : ℕ} {f g : Text} (hi : st.names[i]? = some f) (hj : st.names[j]? = some g) :
    Shows (refs ++ [(f, g)]) (symbolMarkXRef st i j) := by
  have hnodup := h.counted.1.nodup
  obtain ⟨hilt, hif⟩ := List.getElem?_eq_some_iff.mp hi
  obtain ⟨hjlt, hjg⟩ := List.getElem?_eq_some_iff.mp hj
  refine ⟨h.counted.symbolMarkXRef i j, ?_, ?_⟩
  · rw [names_symbolMarkXRef]
    intro q hq direction
    rcases List.mem_append.mp hq with hq | hq
    · exact h.known q hq direction
    · obtain rfl := List.mem_singleton.mp hq
      cases direction with
      | c => exact List.mem_of_getElem? hi
      | p => exact List.mem_of_getElem? hj
  · intro s' hs' direction
    obtain ⟨k, hk⟩ := List.mem_iff_getElem?.mp hs'
    rw [getElem?_symbolMarkXRef hilt hjlt] at hk
    obtain ⟨s, hs, rfl⟩ := Option.map_eq_some_iff.mp hk
    have hname : st.names[k]? = some s.n := by rw [State.names, List.getElem?_map, hs]; rfl
    have hfk : i = k ↔ f = s.n := by
      rw [← List.getElem?_inj hilt hnodup, hi, hname, Option.some_inj]
    have hgk : j = k ↔ g = s.n := by
      rw [← List.getElem?_inj hjlt hnodup, hj, hname, Option.some_inj]
    rw [names_symbolMarkXRef, Symbol.mark_n, refsOf_concat, numbers_append,
      ← h.ids s (List.mem_of_getElem? hs)]
    have hnumber : ∀ (m : ℕ) (hm : m < st.names.length),
        numbers st.names [st.names[m]] = nr m ++ [','] := by
      intro m hm
      rw [numbers, List.map_singleton, hnodup.idxOf_getElem]
      simp [nrs]
    cases direction with
    | c =>
      rw [Symbol.mark_ids_c]
      by_cases hfs : f = s.n
      · rw [if_pos (hfk.mpr hfs), if_pos (show Direction.c.here (f, g) = s.n from hfs),
          ← hnumber j hjlt, hjg]
        rfl
      · rw [if_neg (hfk.not.mpr hfs),
          if_neg (show ¬ Direction.c.here (f, g) = s.n from hfs)]
        rfl
    | p =>
      rw [Symbol.mark_ids_p]
      by_cases hgs : g = s.n
      · rw [if_pos (hgk.mpr hgs), if_pos (show Direction.p.here (f, g) = s.n from hgs),
          ← hnumber i hilt, hif]
        rfl
      · rw [if_neg (hgk.not.mpr hgs),
          if_neg (show ¬ Direction.p.here (f, g) = s.n from hgs)]
        rfl

/-- An index variable of the loop holds the index of a name, or -1. -/
def IndexOf (st : State) (i : ℤ) : Option Text → Prop
  | none => i = -1
  | some name => ∃ k : ℕ, i = k ∧ st.names[k]? = some name

theorem IndexOf.extend {st st' : State} {i : ℤ} {o : Option Text} (h : IndexOf st i o)
    (hp : st.names <+: st'.names) : IndexOf st' i o := by
  cases o with
  | none => exact h
  | some name =>
    obtain ⟨k, hk, hname⟩ := h
    obtain ⟨more, hmore⟩ := hp
    refine ⟨k, hk, ?_⟩
    rw [← hmore, List.getElem?_append_left (List.getElem?_eq_some_iff.mp hname).1, hname]

theorem Shows.indexOf_symbolListAdd {refs : List (Text × Text)} {st : State} (h : Shows refs st)
    (name : Text) :
    IndexOf (CCTree.symbolListAdd st name).1 (CCTree.symbolListAdd st name).2 (some name) := by
  obtain ⟨-, -, k, hk, hname⟩ := symbolListAdd_spec h.counted name
  rw [Nat.zero_add] at hk
  exact ⟨k, by rw [hk], hname⟩

/-- A mark between the names of two index variables. -/
theorem Shows.mark {refs : List (Text × Text)} {st : State} (h : Shows refs st) {i j : ℤ}
    {f g : Text} (hi : IndexOf st i (some f)) (hj : IndexOf st j (some g)) :
    Shows (refs ++ [(f, g)]) (CCTree.symbolMarkXRef st i j) := by
  obtain ⟨k, rfl, hk⟩ := hi
  obtain ⟨m, rfl, hm⟩ := hj
  exact h.symbolMarkXRef hk hm

/-- A call inside a function. -/
theorem turn_call {l : Loop} {i : ℕ} (h : l.curfuncidx = i) (name : Text) :
    CCTree.turn l (.call, name) =
      ⟨CCTree.symbolMarkXRef (CCTree.symbolListAdd l.st name).1 l.curfuncidx
        (CCTree.symbolListAdd l.st name).2, l.curfuncidx, l.curfileidx⟩ :=
  if_pos (by omega)

/-- A file with a name. -/
theorem turn_file (l : Loop) {name : Text} (h : name ≠ []) :
    CCTree.turn l (.file, name) =
      ⟨(CCTree.symbolListAdd l.st name).1, l.curfuncidx, (CCTree.symbolListAdd l.st name).2⟩ :=
  if_pos h

/-- **The loop adds the pairs of its lines.** -/
theorem Shows.foldl_turn {refs : List (Text × Text)} {lines : List (Mark × Text)} {l : Loop}
    {func file : Option Text} (h : Shows refs l.st) (hfunc : IndexOf l.st l.curfuncidx func)
    (hfile : IndexOf l.st l.curfileidx file) (hfirst : FileFirst file lines) :
    Shows (refs ++ crossRefs func file lines) (lines.foldl CCTree.turn l).st := by
  induction lines generalizing refs l func file with
  | nil =>
    rw [crossRefs, List.append_nil]
    exact h
  | cons a lines ih =>
    obtain ⟨mark, name⟩ := a
    rw [List.foldl_cons]
    have hadd := h.symbolListAdd name
    have hidx := h.indexOf_symbolListAdd name
    have hp := names_prefix_symbolListAdd h.counted name
    cases mark with
    | call =>
      rw [crossRefs]
      cases func with
      | none =>
        have hturn : CCTree.turn l (.call, name) = l := if_neg (not_not_intro hfunc)
        rw [hturn]
        exact ih h hfunc hfile (hfirst.tail (by simp))
      | some f =>
        obtain ⟨k, hk, -⟩ := id hfunc
        rw [turn_call hk, Option.map_some, Option.toList_some, ← List.append_assoc]
        exact ih (hadd.mark (hfunc.extend hp) hidx)
          (hfunc.extend (hp.trans (by simp))) (hfile.extend (hp.trans (by simp)))
          (hfirst.tail (by simp))
    | func =>
      rw [crossRefs]
      exact ih hadd hidx (hfile.extend hp) (hfirst.tail (by simp))
    | define =>
      rw [crossRefs]
      exact ih hadd (hfunc.extend hp) (hfile.extend hp) (hfirst.tail (by simp))
    | funcEnd =>
      rw [crossRefs]
      exact ih h rfl hfile (hfirst.tail (by simp))
    | includeFile =>
      have haddTail := h.symbolListAdd name.tail
      have hidxTail := h.indexOf_symbolListAdd name.tail
      have hpTail := names_prefix_symbolListAdd h.counted name.tail
      rw [crossRefs]
      cases file with
      | none =>
        -- there is a file before the first include line
        rcases hfirst [] name lines rfl with hno | ⟨_, _, hmem⟩
        · exact absurd rfl hno
        · exact absurd hmem List.not_mem_nil
      | some f =>
        rw [Option.map_some, Option.toList_some, ← List.append_assoc]
        exact ih (haddTail.mark (hfile.extend hpTail) hidxTail)
          (hfunc.extend (hpTail.trans (by simp [CCTree.turn])))
          (hfile.extend (hpTail.trans (by simp [CCTree.turn]))) (hfirst.tail (by simp))
    | file =>
      rw [crossRefs]
      by_cases hname : name = []
      · have hturn : CCTree.turn l (.file, name) = l := if_neg (not_not_intro hname)
        rw [hturn, if_neg (not_not_intro hname)]
        exact ih h hfunc hfile (hfirst.tail (by simp [hname]))
      · rw [turn_file l hname, if_pos hname]
        exact ih hadd (hfunc.extend hp) hidx fun _ _ _ _ => Or.inl (by simp)

/-! ## Lookups -/

theorem Shows.readSymbols {refs : List (Text × Text)} {st : State} (h : Shows refs st)
    {symbols : List Text} (hfirst : FileFirst none (symbols.filterMap readMark)) :
    Shows (refs ++ crossRefs none none (symbols.filterMap readMark))
      (CCTree.readSymbols st symbols) := by
  show Shows _ ((symbols.filterMap readMark).foldl CCTree.turn ⟨st, -1, -1⟩).st
  exact Shows.foldl_turn h rfl rfl hfirst

/-- A table without names shows no pairs. -/
theorem Shows.eq_nil {refs : List (Text × Text)} {st : State} (h : Shows refs st)
    (hnames : st.names = []) : refs = [] := by
  rw [List.eq_nil_iff_forall_not_mem]
  intro q hq
  have hmem := h.known q hq .c
  rw [hnames] at hmem
  exact absurd hmem List.not_mem_nil

/-- The pairs of the database that a command reads. -/
def Command.refs (cmd : Command) : List (Text × Text) :=
  crossRefs none none (cmd.symbols.filterMap readMark)

theorem Shows.exec {refs : List (Text × Text)} {st : State} (h : Shows refs st) {cmd : Command}
    (hplain : cmd.Plain) (hfirst : FileFirst none (cmd.symbols.filterMap readMark))
    (hunload : cmd.unloads → st.names = []) :
    Shows (refs ++ cmd.refs) (CCTree.exec st cmd) := by
  obtain ⟨dbs, loaded, hexec⟩ := exec_eq hplain st
  have hprepare : Shows refs (cmd.prepare st) := by
    rw [Command.prepare]
    split_ifs with hunloads
    · have hnames := hunload hunloads
      have hcounted := h.counted.unloadDB
      rw [hnames] at hcounted
      rw [h.eq_nil hnames]
      exact ⟨hcounted, fun _ hq => absurd hq List.not_mem_nil,
        fun _ hs => absurd hs List.not_mem_nil⟩
    · exact h
  have hlisted : Shows refs { cmd.prepare st with loadedDBs := dbs } :=
    ⟨hprepare.counted, hprepare.known, hprepare.ids⟩
  have hread := hlisted.readSymbols hfirst
  rw [hexec]
  exact ⟨hread.counted, hread.known, hread.ids⟩

/-- **The table shows the pairs of all databases** that were loaded, if no symbols have been
unloaded. -/
theorem Shows.session {refs : List (Text × Text)} {st : State} (h : Shows refs st)
    {cmds : List Command} (hplain : ∀ cmd ∈ cmds, cmd.Plain)
    (hfirst : ∀ cmd ∈ cmds, FileFirst none (cmd.symbols.filterMap readMark))
    (hunloaded : unloaded st cmds = 0) :
    Shows (refs ++ cmds.flatMap Command.refs) (cmds.foldl CCTree.exec st) := by
  induction cmds generalizing refs st with
  | nil => simpa using h
  | cons cmd cmds ih =>
    rw [unloaded, Nat.add_eq_zero_iff] at hunloaded
    have hunload : cmd.unloads → st.names = [] := by
      intro hunloads
      have hzero := hunloaded.1
      rw [if_pos hunloads] at hzero
      exact List.length_eq_zero_iff.mp hzero
    have hexec := h.exec (hplain cmd List.mem_cons_self) (hfirst cmd List.mem_cons_self) hunload
    rw [List.foldl_cons, List.flatMap_cons, ← List.append_assoc]
    exact ih hexec (fun c hc => hplain c (List.mem_cons_of_mem _ hc))
      (fun c hc => hfirst c (List.mem_cons_of_mem _ hc)) hunloaded.2

/-- **A lookup gives the names of the pairs**, in their order. -/
theorem Shows.getSymbolXRef_eq {refs : List (Text × Text)} {st : State} (h : Shows refs st)
    (f : Text) (direction : Direction) :
    getSymbolXRef st f direction = refsOf direction refs f := by
  have hnodup := h.counted.1.nodup
  rw [getSymbolXRef]
  cases hlookup : st.symhashtable.lookup f with
  | none =>
    symm
    rw [Option.bind_none, Option.elim_none, List.eq_nil_iff_forall_not_mem]
    intro k hk
    obtain ⟨q, hq, hhere, -⟩ := mem_refsOf_iff.mp hk
    exact (h.counted.1.lookup_eq_none_iff f).mp hlookup (hhere ▸ h.known q hq direction)
  | some i =>
    have hname := (h.counted.1.lookup_eq_iff f i).mp hlookup
    rw [State.names, List.getElem?_map] at hname
    obtain ⟨s, hs, rfl⟩ := Option.map_eq_some_iff.mp hname
    have hread : ∀ text, (split text).filterMap (fun asymid => st.nameAt (toNr asymid)) =
        ((split text).map toNr).filterMap st.nameAt := by
      intro text
      rw [List.filterMap_map]
      rfl
    rw [Option.bind_some, hs, Option.elim_some, h.ids s (List.mem_of_getElem? hs), numbers, hread,
      map_toNr_split_nrs, List.filterMap_map]
    have hback : ∀ k ∈ refsOf direction refs s.n,
        (st.nameAt ∘ fun k => (st.names.idxOf k : ℤ)) k = some k := by
      intro k hk
      obtain ⟨q, hq, -, rfl⟩ := mem_refsOf_iff.mp hk
      have hmem := h.there_mem hq direction
      have hlt : st.names.idxOf (direction.there q) < st.symlisttable.length := by
        simpa [State.names] using List.idxOf_lt_length_of_mem hmem
      rw [Function.comp_apply, State.nameAt, listIndex_natCast hlt, Option.bind_some,
        ← List.getElem?_map]
      exact List.getElem?_idxOf hmem
    rw [List.filterMap_congr hback, List.filterMap_some]

/-- **Both directions of a lookup give the pairs of the databases** that were loaded, as long as
no symbols have been unloaded. -/
theorem session_getSymbolXRef_eq {cmds : List Command} (hplain : ∀ cmd ∈ cmds, cmd.Plain)
    (hfirst : ∀ cmd ∈ cmds, FileFirst none (cmd.symbols.filterMap readMark))
    (hunloaded : unloaded State.init cmds = 0) (f : Text) (direction : Direction) :
    getSymbolXRef (session cmds) f direction =
      refsOf direction (cmds.flatMap Command.refs) f :=
  (shows_init.session hplain hfirst hunloaded).getSymbolXRef_eq f direction

theorem session_getSymbolXRef_f :
    getSymbolXRef (session sampleSession) (text "f") .p = [text "main", text "f"] := by
  rw [session_getSymbolXRef_eq (by decide +kernel) fileFirst_sampleSession (by decide +kernel)]
  decide +kernel

end CCTree
