/-
# The buffer of the command server

Which bytes `pars_incomming_data` in `src/c/tcp_select/cli_server.c` reads and writes, and
which texts it hands to the callback.  The caller puts a zero on the last byte; then every
access, those of `strlen` included, is below `len`, and the texts are disjoint pieces of the
buffer, each ended by a zero, in which every byte of a line up to its first zero is found
(`allWithin_and_covered`).

The accesses are recorded next to the model (`parsAccesses`); that they are the accesses of
`parsIncommingData` is part of the result.
-/
import LeakimMisc.CliServer

namespace TcpSelect

/-! ## Accesses to the buffer -/

/-- What `pars_incomming_data` does with its buffer. -/
inductive Access
  | read (k : ℕ)
  | write (k : ℕ) (b : UInt8)
  | call (p l : ℕ)
  deriving DecidableEq

/-- The memory after an access. -/
def Access.effect (mem : List UInt8) : Access → List UInt8
  | .write k b => mem.set k b
  | _ => mem

/-- The bytes that `strlen(&mem[p])` reads: up to the first zero, and one past the memory if
there is none. -/
def strlenReads (mem : List UInt8) (p : ℕ) : List Access :=
  match strlen mem p with
  | some l => (List.range' p (l + 1)).map .read
  | none => (List.range' p (mem.length + 1 - p)).map .read

/-- The callback for the text at `p`, if it is wanted. -/
def callAccess (mem : List UInt8) (p : ℕ) (wanted : ℕ → Bool) : List Access :=
  match strlen mem p with
  | some l => if wanted l then [.call p l] else []
  | none => []

/-- The accesses of `parsLoop`. -/
def parsLoopAccesses : ℕ → ℕ → ℕ → List UInt8 → List Access
  | 0, _, _, _ => []
  | n + 1, i, j, mem =>
      .read j ::
        if mem[j]? = some 10 then
          let mem' := mem.set j 0
          .write j 0 :: (strlenReads mem' i ++ callAccess mem' i (fun l => l > 0) ++
            parsLoopAccesses n (j + 1) (j + 1) mem')
        else parsLoopAccesses n i (j + 1) mem

/-- The accesses of `parsIncommingData`. -/
def parsAccesses (mem : List UInt8) (len : ℕ) : List Access :=
  parsLoopAccesses len 0 0 mem ++
    match parsLoop len 0 0 mem with
    | some (i, mem', _) =>
        if i ≠ len then strlenReads mem' i ++ callAccess mem' i (fun _ => len > 0) else []
    | none => []

/-- The memory after some accesses. -/
def effects (mem : List UInt8) (as : List Access) : List UInt8 := as.foldl Access.effect mem

/-- An access is within the first `len` bytes.  A text that is handed out lies there, is
followed by a zero and contains neither a newline nor a zero. -/
def Access.Within (len : ℕ) (mem : List UInt8) : Access → Prop
  | .read k => k < len
  | .write k _ => k < len
  | .call p l => p + l < len ∧ mem[p + l]? = some 0 ∧
      ∀ k, p ≤ k → k < p + l → ∃ b, mem[k]? = some b ∧ b ≠ 10 ∧ b ≠ 0

/-- All accesses are within the first `len` bytes, each at the moment it is made. -/
def AllWithin (len : ℕ) : List UInt8 → List Access → Prop
  | _, [] => True
  | mem, a :: as => a.Within len mem ∧ AllWithin len (a.effect mem) as

/-- The texts that were handed out, as start and length. -/
def Access.range : Access → Option (ℕ × ℕ)
  | .call p l => some (p, l)
  | _ => none

def ranges (as : List Access) : List (ℕ × ℕ) := as.filterMap Access.range

/-- A byte of a text: neither a newline nor a zero, with no zero before it in its line. -/
def IsText (mem : List UInt8) (k : ℕ) : Prop :=
  (∃ b, mem[k]? = some b ∧ b ≠ 10 ∧ b ≠ 0) ∧
    ∀ m < k, mem[m]? = some 0 → ∃ m', m < m' ∧ m' < k ∧ mem[m']? = some 10

/-! ## `strlen` -/

theorem strlen_eq_some_iff {mem : List UInt8} {p l : ℕ} :
    strlen mem p = some l ↔
      mem[p + l]? = some 0 ∧ ∀ k, p ≤ k → k < p + l → ∃ b, mem[k]? = some b ∧ b ≠ 0 := by
  unfold strlen
  rw [List.findIdx?_eq_some_iff_getElem]
  constructor
  · rintro ⟨hl, hzero, hmin⟩
    rw [List.length_drop] at hl
    constructor
    · rw [List.getElem?_eq_getElem (by omega)]
      simpa using hzero
    · intro k hp hk
      refine ⟨mem[k], List.getElem?_eq_getElem (by omega), ?_⟩
      have hne := hmin (k - p) (by omega)
      rw [List.getElem_drop] at hne
      have heq : p + (k - p) = k := by omega
      simpa [heq] using hne
  · rintro ⟨hzero, hmin⟩
    obtain ⟨hl, hz⟩ := List.getElem?_eq_some_iff.1 hzero
    refine ⟨by rw [List.length_drop]; omega, ?_, ?_⟩
    · simpa using hz
    · intro k hk
      obtain ⟨b, hb, hne⟩ := hmin (p + k) (by omega) (by omega)
      obtain ⟨hlt, rfl⟩ := List.getElem?_eq_some_iff.1 hb
      simpa using hne

/-- A zero from `p` on stops `strlen`. -/
theorem exists_strlen {mem : List UInt8} {p q : ℕ} (hp : p ≤ q) (hzero : mem[q]? = some 0) :
    ∃ l, strlen mem p = some l ∧ p + l ≤ q := by
  have hmem : 0 ∈ mem.drop p := by
    rw [List.mem_iff_getElem?]
    refine ⟨q - p, ?_⟩
    rw [List.getElem?_drop]
    have heq : p + (q - p) = q := by omega
    rwa [heq]
  cases hl : strlen mem p with
  | none =>
    have hno := List.findIdx?_eq_none_iff.1 hl 0 hmem
    simp at hno
  | some l =>
    refine ⟨l, rfl, ?_⟩
    by_contra hlt
    obtain ⟨b, hb, hne⟩ := (strlen_eq_some_iff.1 hl).2 q hp (by omega)
    rw [hzero] at hb
    exact hne (Option.some.inj hb).symm

theorem strlenReads_within {mem : List UInt8} {p l len : ℕ} (h : strlen mem p = some l)
    (hlen : p + l < len) : ∀ a ∈ strlenReads mem p, ∃ k < len, a = .read k := by
  intro a ha
  rw [strlenReads, h] at ha
  obtain ⟨k, hk, rfl⟩ := List.mem_map.1 ha
  rw [List.mem_range'_1] at hk
  exact ⟨k, by omega, rfl⟩

/-! ## Sequences of accesses -/

theorem effects_append (mem : List UInt8) (as bs : List Access) :
    effects mem (as ++ bs) = effects (effects mem as) bs := List.foldl_append

theorem allWithin_append {len : ℕ} {mem : List UInt8} {as bs : List Access} :
    AllWithin len mem (as ++ bs) ↔ AllWithin len mem as ∧ AllWithin len (effects mem as) bs := by
  induction as generalizing mem with
  | nil => simp [AllWithin, effects]
  | cons a as ih => simp [AllWithin, effects, ih, and_assoc]

theorem ranges_append (as bs : List Access) : ranges (as ++ bs) = ranges as ++ ranges bs :=
  List.filterMap_append

section Reads

variable {as : List Access} {len : ℕ} {mem : List UInt8}

/-- Reads leave the memory as it is, hand nothing out, and are within `len` if each is. -/
theorem effects_of_reads (h : ∀ a ∈ as, ∃ k < len, a = .read k) : effects mem as = mem := by
  induction as with
  | nil => rfl
  | cons a as ih =>
    obtain ⟨k, -, rfl⟩ := h a List.mem_cons_self
    exact ih fun a ha => h a (List.mem_cons_of_mem _ ha)

theorem ranges_of_reads (h : ∀ a ∈ as, ∃ k < len, a = .read k) : ranges as = [] := by
  apply List.filterMap_eq_nil_iff.2
  intro a ha
  obtain ⟨k, -, rfl⟩ := h a ha
  rfl

theorem allWithin_of_reads (h : ∀ a ∈ as, ∃ k < len, a = .read k) : AllWithin len mem as := by
  induction as generalizing mem with
  | nil => trivial
  | cons a as ih =>
    obtain ⟨k, hk, rfl⟩ := h a List.mem_cons_self
    exact ⟨hk, ih fun a ha => h a (List.mem_cons_of_mem _ ha)⟩

end Reads

/-! ## Texts -/

/-- The ranges `rs` cover the texts between `i` and `i'`: they lie there, one after the other
with a byte between them, and every byte of a text is in one. -/
structure Covers (mem : List UInt8) (i i' : ℕ) (rs : List (ℕ × ℕ)) : Prop where
  le : i ≤ i'
  within : ∀ r ∈ rs, i ≤ r.1 ∧ r.1 + r.2 < i'
  ordered : rs.Pairwise fun r r' => r.1 + r.2 < r'.1
  covers : ∀ k, i ≤ k → k < i' → IsText mem k → ∃ r ∈ rs, r.1 ≤ k ∧ k < r.1 + r.2

theorem Covers.refl (mem : List UInt8) (i : ℕ) : Covers mem i i [] where
  le := le_rfl
  within := fun _ h => absurd h List.not_mem_nil
  ordered := .nil
  covers := by
    intro k hi hk
    omega

theorem Covers.append {mem : List UInt8} {i j k : ℕ} {rs rs' : List (ℕ × ℕ)}
    (h : Covers mem i j rs) (h' : Covers mem j k rs') : Covers mem i k (rs ++ rs') where
  le := h.le.trans h'.le
  within := by
    intro r hr
    have hle := h.le
    have hle' := h'.le
    rcases List.mem_append.1 hr with hr | hr
    · have hr' := h.within r hr
      omega
    · have hr' := h'.within r hr
      omega
  ordered := by
    refine List.pairwise_append.2 ⟨h.ordered, h'.ordered, ?_⟩
    intro r hr r' hr'
    have hfirst := h.within r hr
    have hsecond := h'.within r' hr'
    omega
  covers := by
    intro m hi hm htext
    rcases Nat.lt_or_ge m j with hj | hj
    · obtain ⟨r, hr, hmr⟩ := h.covers m hi hj htext
      exact ⟨r, List.mem_append_left _ hr, hmr⟩
    · obtain ⟨r, hr, hmr⟩ := h'.covers m hj hm htext
      exact ⟨r, List.mem_append_right _ hr, hmr⟩

/-- A byte of a text is in one range only. -/
theorem Covers.existsUnique {mem : List UInt8} {i i' k : ℕ} {rs : List (ℕ × ℕ)}
    (h : Covers mem i i' rs) (hi : i ≤ k) (hk : k < i') (htext : IsText mem k) :
    ∃! r, r ∈ rs ∧ r.1 ≤ k ∧ k < r.1 + r.2 := by
  obtain ⟨r, hr, hkr⟩ := h.covers k hi hk htext
  refine ⟨r, ⟨hr, hkr⟩, ?_⟩
  rintro r' ⟨hr', hkr'⟩
  by_contra hne
  have hsymm : Std.Symm fun a b : ℕ × ℕ => a.1 + a.2 < b.1 ∨ b.1 + b.2 < a.1 :=
    ⟨fun _ _ hab => hab.symm⟩
  have hfar : r'.1 + r'.2 < r.1 ∨ r.1 + r.2 < r'.1 :=
    (h.ordered.imp Or.inl).forall (R := fun a b => a.1 + a.2 < b.1 ∨ b.1 + b.2 < a.1) hr' hr hne
  omega

/-! ## The loop -/

/-- The loop at `j`, in a line that began at `i`: the newlines before `j` are zeros now. -/
structure InLoop (mem₀ : List UInt8) (i j : ℕ) (mem : List UInt8) : Prop where
  le : i ≤ j
  mem_eq : ∀ k, mem[k]? = if k < j ∧ mem₀[k]? = some 10 then some 0 else mem₀[k]?
  line : ∀ k, i ≤ k → k < j → mem₀[k]? ≠ some 10
  start : i = 0 ∨ mem₀[i - 1]? = some 10

theorem InLoop.init (mem : List UInt8) : InLoop mem 0 0 mem where
  le := le_rfl
  mem_eq := by
    intro k
    rw [if_neg (by omega)]
  line := by
    intro k _ hk
    omega
  start := Or.inl rfl

section Line

variable {mem₀ mem : List UInt8} {i j l : ℕ}

/-- The line goes on. -/
theorem InLoop.step (h : InLoop mem₀ i j mem) (hj : mem₀[j]? ≠ some 10) :
    InLoop mem₀ i (j + 1) mem where
  le := h.le.trans (Nat.le_succ j)
  mem_eq := by
    intro k
    rw [h.mem_eq]
    apply if_congr _ rfl rfl
    constructor
    · rintro ⟨hk, hb⟩
      exact ⟨by omega, hb⟩
    · rintro ⟨hk, hb⟩
      have hne : k ≠ j := by
        rintro rfl
        exact hj hb
      exact ⟨by omega, hb⟩
  line := by
    intro k hi hk
    rcases Nat.lt_or_ge k j with hlt | hge
    · exact h.line k hi hlt
    · obtain rfl : k = j := by omega
      exact hj
  start := h.start

/-- The line ends. -/
theorem InLoop.next (h : InLoop mem₀ i j mem) (hj : mem₀[j]? = some 10) :
    InLoop mem₀ (j + 1) (j + 1) (mem.set j 0) where
  le := le_rfl
  mem_eq := by
    intro k
    have hlt : j < mem.length := by
      have hb := h.mem_eq j
      rw [if_neg (by omega), hj] at hb
      exact (List.getElem?_eq_some_iff.1 hb).1
    rw [List.getElem?_set, h.mem_eq]
    rcases Nat.lt_trichotomy k j with hk | rfl | hk
    · rw [if_neg (by omega)]
      apply if_congr _ rfl rfl
      constructor
      · rintro ⟨-, hb⟩
        exact ⟨by omega, hb⟩
      · rintro ⟨-, hb⟩
        exact ⟨by omega, hb⟩
    · rw [if_pos rfl, if_pos hlt, if_pos ⟨by omega, hj⟩]
    · rw [if_neg (by omega), if_neg (by omega), if_neg (by omega)]
  line := by
    intro k hi hk
    omega
  start := Or.inr hj

/-- **A line** that began at `i` and ends at `j`, where a zero is: `strlen` stops in it, the
text it measures is one that may be handed out, and the text is all of the line that is
text. -/
theorem exists_text {len : ℕ} (hi : i ≤ j) (hlen : j < len)
    (hline : ∀ k, i ≤ k → k < j → mem₀[k]? ≠ some 10)
    (hsame : ∀ k, i ≤ k → k < j → mem[k]? = mem₀[k]?) (hzero : mem[j]? = some 0) :
    ∃ l, strlen mem i = some l ∧ i + l ≤ j ∧ (Access.call i l).Within len mem ∧
      ∀ k, i ≤ k → k < j → IsText mem₀ k → k < i + l := by
  obtain ⟨l, hl, hle⟩ := exists_strlen hi hzero
  obtain ⟨hend, hinner⟩ := strlen_eq_some_iff.1 hl
  refine ⟨l, hl, hle, ⟨by omega, hend, ?_⟩, ?_⟩
  · intro k hi hk
    obtain ⟨b, hb, hne⟩ := hinner k hi hk
    refine ⟨b, hb, ?_, hne⟩
    rintro rfl
    rw [hsame k hi (by omega)] at hb
    exact hline k hi (by omega) hb
  · rintro k hi hk ⟨⟨b, hb, -, hne⟩, hbefore⟩
    by_contra hge
    -- the zero that ends the text is in the line, at `k` or before it
    have hstop : mem₀[i + l]? = some 0 := by
      rw [← hsame (i + l) (by omega) (by omega)]
      exact hend
    rcases Nat.lt_or_ge (i + l) k with hlt | hge'
    · obtain ⟨m, hm, hmk, hnl⟩ := hbefore (i + l) hlt hstop
      exact hline m (by omega) (by omega) hnl
    · obtain rfl : i + l = k := by omega
      rw [hstop] at hb
      exact hne (Option.some.inj hb).symm

/-- The text of a line, if it is wanted, is what the callback gets of the line. -/
theorem covers_text {wanted : Bool} {j' : ℕ} (hlt : i + l < j')
    (htext : ∀ k, i ≤ k → k < j' → IsText mem₀ k → k < i + l)
    (hwanted : wanted = false → l = 0) :
    Covers mem₀ i j' (if wanted then [(i, l)] else []) where
  le := by omega
  within := by
    intro r hr
    cases wanted with
    | true =>
      obtain rfl : r = (i, l) := List.mem_singleton.1 hr
      exact ⟨le_rfl, hlt⟩
    | false => exact absurd hr List.not_mem_nil
  ordered := by
    cases wanted with
    | true => exact List.pairwise_singleton _ _
    | false => exact .nil
  covers := by
    intro k hi hk ht
    have hlt' := htext k hi hk ht
    cases wanted with
    | true => exact ⟨(i, l), List.mem_cons_self, hi, hlt'⟩
    | false =>
      have hl := hwanted rfl
      omega

/-- The accesses for a text: they are within `len`, leave the memory as it is, and hand out
the text if it is wanted. -/
theorem text_accesses {len : ℕ} (hl : strlen mem i = some l)
    (hcall : (Access.call i l).Within len mem) (wanted : ℕ → Bool) :
    AllWithin len mem (strlenReads mem i ++ callAccess mem i wanted) ∧
      effects mem (strlenReads mem i ++ callAccess mem i wanted) = mem ∧
      ranges (strlenReads mem i ++ callAccess mem i wanted)
        = if wanted l then [(i, l)] else [] := by
  have hreads := strlenReads_within hl hcall.1
  have hcalls : callAccess mem i wanted = if wanted l then [.call i l] else [] := by
    rw [callAccess, hl]
  rw [allWithin_append, effects_append, ranges_append, effects_of_reads hreads,
    ranges_of_reads hreads, hcalls]
  refine ⟨⟨allWithin_of_reads hreads, ?_⟩, ?_, ?_⟩
  · split_ifs
    · exact ⟨hcall, trivial⟩
    · trivial
  · split_ifs <;> rfl
  · split_ifs <;> rfl

end Line

/-- The range of a callback. -/
def Event.range : Event → Option (ℕ × ℕ)
  | .command start len _ => some (start, len)
  | _ => none

/-- What the loop does from `j` on, in memory that reaches to `len`. -/
structure LoopSpec (mem₀ : List UInt8) (len i : ℕ) (mem : List UInt8) (as : List Access)
    (i' : ℕ) (mem' : List UInt8) (ev : List Event) : Prop where
  after : InLoop mem₀ i' len mem'
  within : AllWithin len mem as
  effects_eq : effects mem as = mem'
  ranges_eq : ranges as = ev.filterMap Event.range
  covers : Covers mem₀ i i' (ranges as)

/-- **The loop of `pars_incomming_data`**: it does not run out of memory, stays below `len`
and hands out the texts of the lines that it completes. -/
theorem parsLoop_spec {mem₀ mem : List UInt8} {n i j len : ℕ} (h : InLoop mem₀ i j mem)
    (hn : j + n = len) (hlen : len ≤ mem₀.length) :
    ∃ i' mem' ev, parsLoop n i j mem = some (i', mem', ev) ∧
      LoopSpec mem₀ len i mem (parsLoopAccesses n i j mem) i' mem' ev := by
  induction n generalizing i j mem with
  | zero =>
    obtain rfl : j = len := by omega
    exact ⟨i, mem, [], rfl, h, trivial, rfl, rfl, .refl mem₀ i⟩
  | succ n ih =>
    have hjlen : j < len := by omega
    -- the byte at `j` was not changed yet
    have hsame : mem[j]? = mem₀[j]? := by
      rw [h.mem_eq, if_neg (by omega)]
    obtain ⟨b, hb⟩ : ∃ b, mem₀[j]? = some b := ⟨_, List.getElem?_eq_getElem (by omega)⟩
    rw [parsLoop, parsLoopAccesses, hsame, hb]
    dsimp only
    by_cases hnl : b = 10
    · subst hnl
      have hnext : InLoop mem₀ (j + 1) (j + 1) (mem.set j 0) := h.next hb
      have hzero : (mem.set j 0)[j]? = some 0 := by
        rw [hnext.mem_eq, if_pos ⟨by omega, hb⟩]
      have hline : ∀ k, i ≤ k → k < j → (mem.set j 0)[k]? = mem₀[k]? := by
        intro k hi hk
        rw [hnext.mem_eq, if_neg]
        rintro ⟨-, hbad⟩
        exact h.line k hi hk hbad
      obtain ⟨l, hl, hle, hcall, htext⟩ := exists_text h.le hjlen h.line hline hzero
      obtain ⟨hwithin, heffects, hranges⟩ := text_accesses hl hcall fun l => decide (l > 0)
      obtain ⟨i', mem', ev, hloop, hspec⟩ := ih hnext (by omega)
      rw [if_pos rfl, if_pos rfl, hl]
      dsimp only
      rw [hloop, Option.map_some]
      refine ⟨i', mem', _, rfl, hspec.after, ?_, ?_, ?_, ?_⟩
      · refine ⟨hjlen, hjlen, allWithin_append.2 ⟨hwithin, ?_⟩⟩
        show AllWithin len (effects (mem.set j 0) _) _
        rw [heffects]
        exact hspec.within
      · show effects (mem.set j 0) _ = mem'
        rw [effects_append, heffects, hspec.effects_eq]
      · show ranges (strlenReads (mem.set j 0) i ++ _ ++ _) = _
        rw [ranges_append, hranges, hspec.ranges_eq, List.filterMap_append]
        congr 1
        by_cases hl0 : l > 0
        · simp [hl0, callback, Event.range]
        · simp [hl0]
      · show Covers mem₀ i i' (ranges (strlenReads (mem.set j 0) i ++ _ ++ _))
        rw [ranges_append, hranges]
        have hfirst : Covers mem₀ i (j + 1) (if decide (l > 0) then [(i, l)] else []) := by
          apply covers_text (by omega)
          · intro k hi hk ht
            apply htext k hi _ ht
            -- the newline itself is no text
            by_contra hge
            obtain rfl : k = j := by omega
            obtain ⟨⟨c, hc, hne, -⟩, -⟩ := ht
            rw [hb] at hc
            exact hne (Option.some.inj hc).symm
          · intro hno
            have hl0 := of_decide_eq_false hno
            omega
        exact hfirst.append hspec.covers
    · have hstep : InLoop mem₀ i (j + 1) mem := by
        apply h.step
        rw [hb]
        simpa using hnl
      obtain ⟨i', mem', ev, hloop, hspec⟩ := ih hstep (by omega)
      rw [if_neg hnl, if_neg (by simpa using hnl)]
      exact ⟨i', mem', ev, hloop, hspec.after, ⟨hjlen, hspec.within⟩, hspec.effects_eq,
        hspec.ranges_eq, hspec.covers⟩

/-- **`pars_incomming_data` stays in its buffer.**  Whatever the bytes are, if the last one is a
zero: the function does not run out of memory, every access is below `len`, every text that
it hands out lies there, is followed by a zero and contains neither a newline nor a zero; the
texts come one after the other, and each byte of a text is in exactly one of them. -/
theorem allWithin_and_covered {mem : List UInt8} {len : ℕ} (hlen : 1 ≤ len)
    (hzero : mem[len - 1]? = some 0) :
    (∃ mem' ev, parsIncommingData mem len = some (mem', ev) ∧
      effects mem (parsAccesses mem len) = mem' ∧
      ranges (parsAccesses mem len) = ev.filterMap Event.range) ∧
    AllWithin len mem (parsAccesses mem len) ∧
    (ranges (parsAccesses mem len)).Pairwise (fun r r' => r.1 + r.2 < r'.1) ∧
    ∀ k < len, IsText mem k →
      ∃! r, r ∈ ranges (parsAccesses mem len) ∧ r.1 ≤ k ∧ k < r.1 + r.2 := by
  have hle : len ≤ mem.length := by
    have hlt := (List.getElem?_eq_some_iff.1 hzero).1
    omega
  obtain ⟨i, mem', ev, hloop, hspec⟩ := parsLoop_spec (InLoop.init mem) (Nat.zero_add len) hle
  have hafter := hspec.after
  -- the last byte is no newline, so there is a last line
  have hi : i < len := by
    have hi := hafter.le
    rcases hafter.start with h0 | hnl
    · omega
    · have hne : i ≠ len := by
        rintro rfl
        rw [hzero] at hnl
        exact absurd (Option.some.inj hnl) (by decide)
      omega
  have hsame : ∀ k, i ≤ k → k < len → mem'[k]? = mem[k]? := by
    intro k hik hk
    rw [hafter.mem_eq, if_neg]
    rintro ⟨-, hnl⟩
    exact hafter.line k hik hk hnl
  obtain ⟨l, hl, hlt, hcall, htext⟩ : ∃ l, strlen mem' i = some l ∧ i + l ≤ len - 1 ∧
      (Access.call i l).Within len mem' ∧
        ∀ k, i ≤ k → k < len - 1 → IsText mem k → k < i + l := by
    apply exists_text (by omega) (by omega)
    · intro k hik hk
      exact hafter.line k hik (by omega)
    · intro k hik hk
      exact hsame k hik (by omega)
    · rw [hsame _ (by omega) (by omega), hzero]
  obtain ⟨hwithin, heffects, hranges⟩ := text_accesses hl hcall fun _ => decide (len > 0)
  have hwanted : decide (len > 0) = true := decide_eq_true (by omega)
  have haccesses : parsAccesses mem len = parsLoopAccesses len 0 0 mem ++
      (strlenReads mem' i ++ callAccess mem' i fun _ => decide (len > 0)) := by
    rw [parsAccesses, hloop]
    dsimp only
    rw [if_pos (by omega)]
  have hcovers : Covers mem 0 len (ranges (parsAccesses mem len)) := by
    rw [haccesses, ranges_append, hranges]
    apply hspec.covers.append
    apply covers_text (by omega)
    · intro k hik hk ht
      apply htext k hik _ ht
      -- the zero at the end is no text
      by_contra hge
      obtain rfl : k = len - 1 := by omega
      obtain ⟨⟨c, hc, -, hne⟩, -⟩ := ht
      rw [hzero] at hc
      exact hne (Option.some.inj hc).symm
    · intro hno
      rw [hwanted] at hno
      exact absurd hno (by decide)
  refine ⟨⟨mem', ev ++ [callback mem' i l], ?_, ?_, ?_⟩, ?_, hcovers.ordered, ?_⟩
  · rw [parsIncommingData, hloop]
    dsimp only
    rw [if_pos (by omega), hl]
    dsimp only
    rw [if_pos (by omega)]
  · rw [haccesses, effects_append, hspec.effects_eq, heffects]
  · rw [haccesses, ranges_append, hspec.ranges_eq, hranges, if_pos hwanted,
      List.filterMap_append]
    rfl
  · rw [haccesses, allWithin_append, hspec.effects_eq]
    exact ⟨hspec.within, hwithin⟩
  · intro k hk htext
    exact hcovers.existsUnique (Nat.zero_le k) hk htext

/-- Two lines, one of them with a zero in it, and an empty one. -/
def sampleBuffer : List UInt8 := [115, 0, 120, 10, 10, 112, 0]

/-- The two texts are handed out, within the buffer. -/
theorem allWithin_sampleBuffer :
    ranges (parsAccesses sampleBuffer 7) = [(0, 1), (5, 1)] ∧
      AllWithin 7 sampleBuffer (parsAccesses sampleBuffer 7) := by
  have hspec := @allWithin_and_covered sampleBuffer 7 (by decide) (by decide)
  exact ⟨by decide, hspec.2.1⟩

end TcpSelect
