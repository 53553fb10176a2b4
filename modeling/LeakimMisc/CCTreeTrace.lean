/-
# Call trees

`src/shell/.vim/plugin/cctree.vim`: the tree of the calls of a symbol, or of its callers, down
to the depth that the user has chosen.  Its branches are the chains of calls in the databases,
each of them once (`branches_trace_session`), and a chain is in the tree
of its first symbol exactly if it is, read backwards, in the tree of the callers of its last one
(`trace_session_reverse_iff`).
-/
import LeakimMisc.CCTreeXRef
import LeakimMisc.LevelTree

open LevelTree

namespace CCTree

/-- `keys`: the keys of a dictionary to which these names were added, in some order. -/
structure KeyOrder where
  keys : List Text → List Text
  nodup : ∀ added, (keys added).Nodup
  mem_iff : ∀ added k, k ∈ keys added ↔ k ∈ added

variable (o : KeyOrder)

/-- `s:CCTreeGetCallsForSymbol`; an empty dictionary is a place that is cut off. -/
def getCallsForSymbol (st : State) (recursiveDepth : ℤ) (symname : Text) (depth : ℕ)
    (direction : Direction) : LevelTree Text :=
  if h : (depth : ℤ) > recursiveDepth then .cut
  else if st.symhashtable.lookup symname = none then .cut
  else
    .node symname ((o.keys (getSymbolXRef st symname direction)).map fun entry =>
      getCallsForSymbol st recursiveDepth entry (depth + 1) direction)
termination_by (recursiveDepth + 1 - depth).toNat

/-- The children of a symbol in a tree. -/
def children (st : State) (direction : Direction) (symname : Text) : Option (List Text) :=
  (st.symhashtable.lookup symname).map fun _ => o.keys (getSymbolXRef st symname direction)

/-- **The tree is unfolded from the table.** -/
theorem getCallsForSymbol_eq (st : State) (recursiveDepth : ℤ) (symname : Text) (depth : ℕ)
    (direction : Direction) :
    getCallsForSymbol o st recursiveDepth symname depth direction =
      unfold (children o st direction) (recursiveDepth + 1 - depth).toNat symname := by
  induction hn : (recursiveDepth + 1 - depth).toNat generalizing symname depth with
  | zero =>
    rw [getCallsForSymbol, dif_pos (by omega)]
    rfl
  | succ n ih =>
    rw [getCallsForSymbol, dif_neg (by omega), unfold, children]
    cases st.symhashtable.lookup symname with
    | none => rfl
    | some i =>
      rw [if_neg (by simp), Option.map_some, Option.elim_some]
      congr 1
      apply List.map_congr_left
      intro entry _
      exact ih entry (depth + 1) (by push_cast; omega)

/-! ## The branches -/

/-- The tree that is traced for a symbol. -/
def trace (st : State) (recursiveDepth : ℤ) (symname : Text) (direction : Direction) :
    LevelTree Text :=
  getCallsForSymbol o st recursiveDepth symname 0 direction

/-- The first name calls the second one, or the other way round. -/
def Refers (refs : List (Text × Text)) (direction : Direction) (f g : Text) : Prop :=
  ∃ q ∈ refs, direction.here q = f ∧ direction.there q = g

instance (refs : List (Text × Text)) (direction : Direction) :
    DecidableRel (Refers refs direction) := fun f g =>
  inferInstanceAs (Decidable (∃ q ∈ refs, direction.here q = f ∧ direction.there q = g))

variable {o} {refs : List (Text × Text)} {st : State}

theorem Shows.follows_iff (h : Shows refs st) (direction : Direction) (f g : Text) :
    Follows (children o st direction) f g ↔ Refers refs direction f g := by
  rw [Follows, children, Refers, ← mem_refsOf_iff, ← h.getSymbolXRef_eq]
  constructor
  · rintro ⟨as, has, hg⟩
    obtain ⟨_, -, rfl⟩ := Option.map_eq_some_iff.mp has
    exact (o.mem_iff _ _).mp hg
  · intro hg
    have hf : f ∈ st.names := by
      rw [h.getSymbolXRef_eq] at hg
      obtain ⟨q, hq, rfl, -⟩ := mem_refsOf_iff.mp hg
      exact h.known q hq direction
    cases hlookup : st.symhashtable.lookup f with
    | none => exact absurd hf ((h.counted.1.lookup_eq_none_iff f).mp hlookup)
    | some i => exact ⟨_, rfl, (o.mem_iff _ _).mpr hg⟩

theorem Shows.isSome_children_iff (h : Shows refs st) (direction : Direction) (f : Text) :
    (children o st direction f).isSome ↔ f ∈ st.names := by
  rw [children, Option.isSome_map, ← not_iff_not, Bool.not_eq_true, Option.isSome_eq_false_iff,
    Option.isNone_iff_eq_none, h.counted.1.lookup_eq_none_iff]

theorem Shows.mem_of_isChain (h : Shows refs st) {direction : Direction} {b : List Text}
    (hb : b.IsChain (Refers refs direction)) (hhead : ∀ f ∈ b.head?, f ∈ st.names) :
    ∀ x ∈ b, x ∈ st.names := by
  induction b with
  | nil => exact fun x hx => absurd hx List.not_mem_nil
  | cons f rest ih =>
    have hlater : ∀ g ∈ rest.head?, g ∈ st.names := by
      intro g hg
      obtain ⟨q, hq, -, rfl⟩ := (List.isChain_cons.mp hb).1 g hg
      exact h.there_mem hq direction
    intro x hx
    rcases List.mem_cons.mp hx with rfl | hx
    · exact hhead x rfl
    · exact ih hb.tail hlater x hx

/-- **The branches of a tree are the chains of calls** from its symbol, down to the depth. -/
theorem Shows.mem_branches_trace_iff (h : Shows refs st) {recursiveDepth : ℤ} {f : Text}
    {direction : Direction} {b : List Text} :
    b ∈ (trace o st recursiveDepth f direction).branches ↔
      b.head? = some f ∧ f ∈ st.names ∧ (b.length : ℤ) ≤ recursiveDepth + 1 ∧
        b.IsChain (Refers refs direction) := by
  have hrel : Follows (children o st direction) = Refers refs direction := by
    funext x y
    exact propext (h.follows_iff direction x y)
  rw [trace, getCallsForSymbol_eq, mem_branches_unfold_iff, hrel]
  simp only [h.isSome_children_iff]
  constructor
  · rintro ⟨hhead, hlen, hchain, hall⟩
    have hpos := List.length_pos_of_mem (List.mem_of_mem_head? hhead)
    exact ⟨hhead, hall f (List.mem_of_mem_head? hhead), by omega, hchain⟩
  · rintro ⟨hhead, hf, hlen, hchain⟩
    refine ⟨hhead, by omega, hchain, h.mem_of_isChain hchain ?_⟩
    intro x hx
    rw [hhead] at hx
    rwa [← Option.some.inj hx]

/-- Each of them is there once. -/
theorem nodup_branches_trace (o : KeyOrder) (st : State) (recursiveDepth : ℤ) (f : Text)
    (direction : Direction) : (trace o st recursiveDepth f direction).branches.Nodup := by
  rw [trace, getCallsForSymbol_eq]
  apply nodup_branches_unfold
  intro a as has
  obtain ⟨_, -, rfl⟩ := Option.map_eq_some_iff.mp has
  exact o.nodup _

/-- **A chain of calls reads the same from both ends**: it is in the tree of the calls of its
first symbol exactly if it is, backwards, in the tree of the callers of its last one. -/
theorem Shows.trace_reverse_iff (h : Shows refs st) {recursiveDepth : ℤ} {f g : Text}
    {b : List Text} :
    b ∈ (trace o st recursiveDepth f .c).branches ∧ b.getLast? = some g ↔
      b.reverse ∈ (trace o st recursiveDepth g .p).branches ∧ b.head? = some f := by
  have hflip : ∀ x y, Refers refs .c x y ↔ Refers refs .p y x :=
    fun x y => exists_congr fun q => and_congr_right fun _ => and_comm
  have hchain : b.IsChain (Refers refs .c) ↔ b.reverse.IsChain (Refers refs .p) := by
    rw [List.isChain_reverse]
    exact ⟨fun hb => hb.imp fun x y => (hflip x y).mp, fun hb => hb.imp fun x y => (hflip x y).mpr⟩
  rw [h.mem_branches_trace_iff, h.mem_branches_trace_iff, List.head?_reverse, List.length_reverse,
    ← hchain]
  constructor
  · rintro ⟨⟨hhead, hf, hlen, hb⟩, hlast⟩
    refine ⟨⟨hlast, ?_, hlen, hb⟩, hhead⟩
    apply h.mem_of_isChain hb ?_ g (List.mem_of_getLast? hlast)
    intro x hx
    rw [hhead] at hx
    rwa [← Option.some.inj hx]
  · rintro ⟨⟨hlast, hg, hlen, hb⟩, hhead⟩
    refine ⟨⟨hhead, ?_, hlen, hb⟩, hlast⟩
    apply h.mem_of_isChain (hchain.mp hb) ?_ f
      (List.mem_reverse.mpr (List.mem_of_mem_head? hhead))
    intro x hx
    rw [List.head?_reverse, hlast] at hx
    rwa [← Option.some.inj hx]

/-! ## Sessions -/

/-- **In a session in which no symbols are unloaded, the tree of a symbol shows the chains of
calls** of all databases that were loaded, down to the depth, and each of them once. -/
theorem branches_trace_session (o : KeyOrder) {cmds : List Command}
    (hplain : ∀ cmd ∈ cmds, cmd.Plain)
    (hfirst : ∀ cmd ∈ cmds, FileFirst none (cmd.symbols.filterMap readMark))
    (hunloaded : unloaded State.init cmds = 0) (recursiveDepth : ℤ) (f : Text)
    (direction : Direction) :
    (trace o (session cmds) recursiveDepth f direction).branches.Nodup ∧
      ∀ b, b ∈ (trace o (session cmds) recursiveDepth f direction).branches ↔
        b.head? = some f ∧ f ∈ (session cmds).names ∧ (b.length : ℤ) ≤ recursiveDepth + 1 ∧
          b.IsChain (Refers (cmds.flatMap Command.refs) direction) := by
  have hshows := shows_init.session hplain hfirst hunloaded
  rw [List.nil_append] at hshows
  exact ⟨nodup_branches_trace o _ _ f direction, fun b => hshows.mem_branches_trace_iff⟩

/-- **A chain of calls reads the same from both ends**: it is in the tree of the calls of its
first symbol exactly if it is, backwards, in the tree of the callers of its last one. -/
theorem trace_session_reverse_iff (o : KeyOrder) {cmds : List Command}
    (hplain : ∀ cmd ∈ cmds, cmd.Plain)
    (hfirst : ∀ cmd ∈ cmds, FileFirst none (cmd.symbols.filterMap readMark))
    (hunloaded : unloaded State.init cmds = 0) (recursiveDepth : ℤ) (f g : Text)
    (b : List Text) :
    b ∈ (trace o (session cmds) recursiveDepth f .c).branches ∧ b.getLast? = some g ↔
      b.reverse ∈ (trace o (session cmds) recursiveDepth g .p).branches ∧ b.head? = some f :=
  (shows_init.session hplain hfirst hunloaded).trace_reverse_iff

/-- The keys in the order in which they were added. -/
def sampleOrder : KeyOrder where
  keys := List.dedup
  nodup := List.nodup_dedup
  mem_iff _ _ := List.mem_dedup

theorem branches_trace_main :
    [text "main", text "f", text "f"] ∈
      (trace sampleOrder (session sampleSession) 2 (text "main") .c).branches :=
  ((branches_trace_session sampleOrder (by decide +kernel) fileFirst_sampleSession
    (by decide +kernel) _ _ _).2 _).mpr (by decide +kernel)

theorem trace_session_reverse_main :
    [text "f", text "main"] ∈
      (trace sampleOrder (session sampleSession) 2 (text "f") .p).branches := by
  have hshows : Shows ([] ++ sampleSession.flatMap Command.refs) (session sampleSession) :=
    shows_init.session (by decide +kernel) fileFirst_sampleSession (by decide +kernel)
  refine ((trace_session_reverse_iff sampleOrder (by decide +kernel) fileFirst_sampleSession
    (by decide +kernel) 2 (text "main") (text "f") [text "main", text "f"]).mp ⟨?_, rfl⟩).1
  exact hshows.mem_branches_trace_iff.mpr (by decide +kernel)

end CCTree
