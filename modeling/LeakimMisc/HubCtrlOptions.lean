/-
# The options of `hub-ctrl`

What the option loop of `main` in `src/c/usb_hub/hub-ctrl.c` does with command lines.  On any
command line that is accepted there is one way to select a hub (`options_oneSelection`).

A command line of the documented form is a list of groups (`Group`), each an option with its
words.  As long as no option without its value is followed by another one, the loop reads the
groups one by one (`optionLoop_groups`), and their order does not matter; but `-p` and `-l`
take the next word as their value whatever it is (`orderFree_iff`).
-/
import LeakimMisc.HubCtrl

open PyStr

namespace UsbHub

/-! ## One way to select a hub -/

/-- If the hub is given by its number, then not by its bus and device. -/
def Options.OneWay (o : Options) : Prop := 0 ≤ o.hub → o.busnum ≤ 0 ∧ o.devnum ≤ 0

theorem Options.OneWay.option {argc : ℕ} {o : Options} {c : Char} {args : List Str}
    {r : Options × List Str} (h : o.OneWay) (hr : option argc o c args = some r) :
    r.1.OneWay := by
  cases turn_of_option hr with
  | hub arg args hfree => exact fun _ => hfree
  | busnum arg args hfree => exact fun hhub => absurd hhub (not_le.mpr hfree)
  | devnum arg args hfree => exact fun hhub => absurd hhub (not_le.mpr hfree)
  | _ => exact h

/-- After the loop there is one way. -/
theorem oneWay_of_parseOptions {argv : List Str} {o : Options} (h : parseOptions argv = some o) :
    o.OneWay := by
  apply optionLoop_invariant _ _ h
  · intro o c args r ho hr
    exact ho.option hr
  · intro hhub
    exact absurd (show (0 : ℤ) ≤ -1 from hhub) (by decide)

/-- **One way to select a hub.**  Whatever the command line is, if `main` comes to `usb_init`:
either the hub is given by its number, and neither the bus nor the device by a positive one,
or it is not, and the bus is given; and the bus is positive exactly if the device is. -/
theorem options_oneSelection {argv : List Str} {o : Options} (h : options argv = some o) :
    ((0 ≤ o.hub ∧ ¬ 0 < o.busnum ∧ ¬ 0 < o.devnum) ∨ (o.hub < 0 ∧ o.busnum ≠ 0)) ∧
      (0 < o.busnum ↔ 0 < o.devnum) := by
  obtain ⟨o', hparse, hcheck⟩ := Option.bind_eq_some_iff.mp h
  have hway := oneWay_of_parseOptions hparse
  unfold checkOptions at hcheck
  split_ifs at hcheck with hbad hzero
  all_goals
    rw [← Option.some.inj hcheck]
    unfold Options.OneWay at hway
    dsimp only
    omega

/-- A device that is named by its bus and its number. -/
theorem options_oneSelection_device :
    options ["hub-ctrl".toList, "-b".toList, "1".toList, "-d".toList, "2".toList]
        = some ⟨1, 2, .power, 1, 0, false, false, -1⟩ ∧
      ((0 ≤ (-1 : ℤ) ∧ ¬ 0 < (1 : ℤ) ∧ ¬ 0 < (2 : ℤ)) ∨ ((-1 : ℤ) < 0 ∧ (1 : ℤ) ≠ 0)) := by
  have hparse : options ["hub-ctrl".toList, "-b".toList, "1".toList, "-d".toList, "2".toList]
      = some ⟨1, 2, .power, 1, 0, false, false, -1⟩ := by decide +kernel
  exact ⟨hparse, (options_oneSelection hparse).1⟩

/-! ## Groups of words -/

/-- An option of the documented form, with its words; the value of `-p` and `-l` may be left
out. -/
inductive Group
  | hub (n : Str)
  | device (bus dev : Str)
  | port (n : Str)
  | power (value : Option Str)
  | led (value : Option Str)
  | verbose
  deriving DecidableEq, Repr

/-- What an option is about; a command line says each thing once. -/
inductive Kind
  | selection
  | port
  | command
  | verbose
  deriving DecidableEq, Repr

def Group.kind : Group → Kind
  | .hub _ => .selection
  | .device _ _ => .selection
  | .port _ => .port
  | .power _ => .command
  | .led _ => .command
  | .verbose => .verbose

/-- The words of the group. -/
def Group.words : Group → List Str
  | .hub n => ["-h".toList, n]
  | .device bus dev => ["-b".toList, bus, "-d".toList, dev]
  | .port n => ["-P".toList, n]
  | .power value => "-p".toList :: value.toList
  | .led value => "-l".toList :: value.toList
  | .verbose => ["-v".toList]

/-- The numbers in the group. -/
def Group.numbers : Group → List Str
  | .hub n => [n]
  | .device bus dev => [bus, dev]
  | .port n => [n]
  | .power value => value.toList
  | .led value => value.toList
  | .verbose => []

/-- The value is left out. -/
def Group.Omits (g : Group) : Prop := g = .power none ∨ g = .led none

instance (g : Group) : Decidable g.Omits := inferInstanceAs (Decidable (_ ∨ _))

/-- A non-negative number in decimal. -/
def IsNumber (w : Str) : Prop := w ≠ [] ∧ ∀ c ∈ w, c.isDigit

/-- **A command line of the documented form**: each thing is said once, with numbers. -/
structure IsCommandLine (gs : List Group) : Prop where
  once : (gs.map Group.kind).Nodup
  numbers : ∀ g ∈ gs, ∀ w ∈ g.numbers, IsNumber w

/-- The words of a command line. -/
def commandLine (prog : Str) (gs : List Group) : List Str := prog :: gs.flatMap Group.words

/-- What the options mean, put into the variables. -/
def Group.apply (argc : ℕ) (o : Options) : Group → Options
  | .hub n => { o with hub := atoi n }
  | .device bus dev => { o with busnum := atoi bus, devnum := atoi dev }
  | .port n => { o with port := atoi n }
  | .power value => { o with value := (value.map atoi).getD 0, cmd := .power }
  | .led value => { o with value := (value.map atoi).getD hubLedGreen, cmd := .led }
  | .verbose => { o with verbose := true, listing := if argc = 2 then true else o.listing }

/-- Nothing was said that stands against the group. -/
def Group.Ready (o : Options) : Group → Prop
  | .hub _ => o.busnum ≤ 0 ∧ o.devnum ≤ 0
  | .device _ _ => o.hub < 0
  | .power _ => o.cmd = .none
  | .led _ => o.cmd = .none
  | _ => True

/-- A value is left out at the end only. -/
def ValuesAtEnd : List Group → Prop
  | [] => True
  | g :: gs => (g.Omits → gs = []) ∧ ValuesAtEnd gs

theorem Group.ready_init (argc : ℕ) (g : Group) : g.Ready (.init argc) := by
  cases g <;> simp [Group.Ready, Options.init]

/-- A group stays ready while others are read. -/
theorem Group.Ready.apply {argc : ℕ} {o : Options} {g g' : Group} (h : g'.Ready o)
    (hne : g.kind ≠ g'.kind) : g'.Ready (g.apply argc o) := by
  cases g <;> cases g' <;> first | exact h | exact absurd rfl hne

/-! ## The loop on groups -/

section Words

variable {argc : ℕ} {o : Options} {rest : List Str}

theorem optionLoop_cons {c : Char} {w : Str} {args : List Str} {r : Options × List Str}
    (h : option argc o c args = some r) :
    optionLoop argc o (('-' :: c :: w) :: args) = optionLoop argc r.1 r.2 := by
  rw [optionLoop]
  split
  · rename_i hnone
    rw [h] at hnone
    exact absurd hnone (by simp)
  · rename_i r' hr'
    rw [h] at hr'
    rw [Option.some.inj hr']

theorem optionLoop_value {c : Char} {cmd : Command} {default : ℤ}
    (hopt : ∀ args, option argc o c args = withValue o cmd default args) (hcmd : o.cmd = .none)
    {value : Option Str} (hvalue : value = none → rest = []) :
    optionLoop argc o (['-', c] :: (value.toList ++ rest))
      = optionLoop argc { o with value := (value.map atoi).getD default, cmd := cmd } rest := by
  cases value with
  | none =>
    obtain rfl := hvalue rfl
    have hopt' : option argc o c [] = some ({ o with value := default, cmd := cmd }, []) := by
      rw [hopt, withValue.eq_def, if_neg (not_not_intro hcmd)]
    exact optionLoop_cons hopt'
  | some v =>
    have hopt' : option argc o c (v :: rest)
        = some ({ o with value := atoi v, cmd := cmd }, rest) := by
      rw [hopt, withValue.eq_def, if_neg (not_not_intro hcmd)]
    exact optionLoop_cons hopt'

/-- **One group**: the loop reads its words and goes on behind them. -/
theorem optionLoop_words {g : Group} (hready : g.Ready o) (hvalue : g.Omits → rest = []) :
    optionLoop argc o (g.words ++ rest) = optionLoop argc (g.apply argc o) rest := by
  cases g with
  | hub n =>
    obtain ⟨hbus, hdev⟩ : o.busnum ≤ 0 ∧ o.devnum ≤ 0 := hready
    have hopt : option argc o 'h' (n :: rest) = some ({ o with hub := atoi n }, rest) := by
      simp [option, withArgument, hbus, hdev]
    exact optionLoop_cons hopt
  | device bus dev =>
    have hhub : o.hub < 0 := hready
    have hbus : option argc o 'b' (bus :: "-d".toList :: dev :: rest)
        = some ({ o with busnum := atoi bus }, "-d".toList :: dev :: rest) := by
      simp [option, withArgument, hhub]
    have hdev : option argc { o with busnum := atoi bus } 'd' (dev :: rest)
        = some ({ o with busnum := atoi bus, devnum := atoi dev }, rest) := by
      simp [option, withArgument, hhub]
    exact (optionLoop_cons hbus).trans (optionLoop_cons hdev)
  | port n =>
    have hopt : option argc o 'P' (n :: rest) = some ({ o with port := atoi n }, rest) := by
      simp [option, withArgument]
    exact optionLoop_cons hopt
  | power value =>
    have hopt : ∀ args, option argc o 'p' args = withValue o .power 0 args := by
      intro args
      rw [option]
    apply optionLoop_value hopt hready
    rintro rfl
    exact hvalue (Or.inl rfl)
  | led value =>
    have hopt : ∀ args, option argc o 'l' args = withValue o .led hubLedGreen args := by
      intro args
      rw [option]
    apply optionLoop_value hopt hready
    rintro rfl
    exact hvalue (Or.inr rfl)
  | verbose =>
    have hopt : option argc o 'v' rest
        = some ({ o with verbose := true, listing := if argc = 2 then true else o.listing },
            rest) := by
      rw [option]
    exact optionLoop_cons hopt

end Words

/-- **The loop reads the groups one by one**, if no value is left out in front of another
option. -/
theorem optionLoop_groups {argc : ℕ} {gs : List Group} {o : Options}
    (honce : (gs.map Group.kind).Nodup) (hready : ∀ g ∈ gs, g.Ready o) (hvalues : ValuesAtEnd gs) :
    optionLoop argc o (gs.flatMap Group.words) = some (gs.foldl (Group.apply argc) o) := by
  induction gs generalizing o with
  | nil => rw [List.flatMap_nil, optionLoop]; rfl
  | cons g gs ih =>
    obtain ⟨hg, honce'⟩ := List.nodup_cons.mp honce
    rw [List.flatMap_cons, optionLoop_words (hready g List.mem_cons_self)]
    · apply ih honce' _ hvalues.2
      intro g' hg'
      apply (hready g' (List.mem_cons_of_mem _ hg')).apply
      intro heq
      exact hg (heq ▸ List.mem_map_of_mem hg')
    · intro homits
      rw [hvalues.1 homits]
      rfl

/-! ## The order of the groups -/

/-- Groups about different things can be swapped. -/
theorem Group.apply_comm {g g' : Group} (h : g.kind ≠ g'.kind) (argc : ℕ) (o : Options) :
    g'.apply argc (g.apply argc o) = g.apply argc (g'.apply argc o) := by
  cases g <;> cases g' <;> first | rfl | exact absurd rfl h

/-- **The order does not matter** for what the groups mean. -/
theorem foldl_apply_perm {gs gs' : List Group} (hperm : gs.Perm gs')
    (honce : (gs.map Group.kind).Nodup) (argc : ℕ) (o : Options) :
    gs.foldl (Group.apply argc) o = gs'.foldl (Group.apply argc) o := by
  apply hperm.foldl_eq'
  intro g hg g' hg' o
  by_cases heq : g = g'
  · rw [heq]
  · apply Group.apply_comm
    intro hkind
    exact heq (List.inj_on_of_nodup_map honce hg hg' hkind)

/-- Whether `-v` was read. -/
theorem verbose_foldl {argc : ℕ} {gs : List Group} {o : Options} :
    (gs.foldl (Group.apply argc) o).verbose = true ↔ o.verbose = true ∨ .verbose ∈ gs := by
  induction gs generalizing o with
  | nil => simp
  | cons g gs ih =>
    rw [List.foldl_cons, ih]
    cases g <;> simp [Group.apply]

theorem valuesAtEnd_of_forall {gs : List Group} (h : ∀ g ∈ gs, ¬ g.Omits) : ValuesAtEnd gs := by
  induction gs with
  | nil => trivial
  | cons g gs ih =>
    refine ⟨fun homits => absurd homits (h g List.mem_cons_self), ?_⟩
    exact ih fun g' hg' => h g' (List.mem_cons_of_mem _ hg')

theorem valuesAtEnd_concat {gs : List Group} (h : ∀ g ∈ gs, ¬ g.Omits) (g : Group) :
    ValuesAtEnd (gs ++ [g]) := by
  induction gs with
  | nil => exact ⟨fun _ => rfl, trivial⟩
  | cons g' gs ih =>
    refine ⟨fun homits => absurd homits (h g' List.mem_cons_self), ?_⟩
    exact ih fun g'' hg'' => h g'' (List.mem_cons_of_mem _ hg'')

/-- An option whose value may be left out is the command. -/
theorem Group.Omits.kind {g : Group} (h : g.Omits) : g.kind = .command := by
  rcases h with rfl | rfl <;> rfl

/-- The loop on a whole command line. -/
theorem parseOptions_commandLine (prog : Str) (gs : List Group)
    (honce : (gs.map Group.kind).Nodup) (hvalues : ValuesAtEnd gs) :
    parseOptions (commandLine prog gs)
      = some (gs.foldl (Group.apply (commandLine prog gs).length)
          (.init (commandLine prog gs).length)) :=
  optionLoop_groups honce (fun g _ => g.ready_init _) hvalues

/-! ## Swallowed options -/

/-- A number is no option. -/
theorem optionLoop_number {argc : ℕ} {o : Options} {w : Str} {args : List Str} (h : IsNumber w) :
    optionLoop argc o (w :: args) = none := by
  obtain ⟨c, w, rfl⟩ := List.exists_cons_of_ne_nil h.1
  have hc : c ≠ '-' := by
    rintro rfl
    exact absurd (h.2 '-' List.mem_cons_self) (by decide)
  rw [optionLoop]
  rintro d v hd
  exact absurd (List.cons.inj hd).1 hc

/-- `-p` or `-l` without a value in front of another word. -/
theorem optionLoop_omits (argc : ℕ) {o : Options} {g : Group} (homits : g.Omits)
    (hready : g.Ready o) (w : Str) (args : List Str) :
    ∃ n cmd, optionLoop argc o (g.words ++ w :: args)
      = optionLoop argc { o with value := n, cmd := cmd } args := by
  rcases homits with rfl | rfl
  · have hrun : optionLoop argc o (Group.words (.power (some w)) ++ args)
        = optionLoop argc (Group.apply argc o (.power (some w))) args :=
      optionLoop_words hready (by simp [Group.Omits])
    exact ⟨atoi w, .power, hrun⟩
  · have hrun : optionLoop argc o (Group.words (.led (some w)) ++ args)
        = optionLoop argc (Group.apply argc o (.led (some w))) args :=
      optionLoop_words hready (by simp [Group.Omits])
    exact ⟨atoi w, .led, hrun⟩

/-- **An option that is swallowed**: in front of `-v` the value is read from `-v`, so `verbose` is
not set; in front of an option with an argument the program ends. -/
theorem optionLoop_swallowed (argc : ℕ) {g g' : Group} {gs : List Group}
    (h : IsCommandLine (g :: g' :: gs)) (homits : g.Omits) :
    optionLoop argc (.init argc) ((g :: g' :: gs).flatMap Group.words) = none ∨
      ∃ o, optionLoop argc (.init argc) ((g :: g' :: gs).flatMap Group.words) = some o ∧
        o.verbose = false ∧ g' = .verbose := by
  obtain ⟨hg, honce'⟩ := List.nodup_cons.mp h.once
  obtain ⟨hg', honce⟩ := List.nodup_cons.mp honce'
  -- the command is said once
  have hother : ∀ g'' ∈ g' :: gs, g''.kind ≠ .command := by
    intro g'' hg'' hkind
    rw [homits.kind, ← hkind] at hg
    exact hg (List.mem_map_of_mem hg'')
  have hswallow := fun w args => optionLoop_omits argc homits (g.ready_init argc) w args
  have hnumber : ∀ w ∈ g'.numbers, IsNumber w := h.numbers g' (by simp)
  rw [List.flatMap_cons, List.flatMap_cons]
  cases g' with
  | hub n =>
    left
    obtain ⟨v, cmd, hrun⟩ := hswallow "-h".toList (n :: gs.flatMap Group.words)
    exact hrun.trans (optionLoop_number (hnumber n (by simp [Group.numbers])))
  | device bus dev =>
    left
    obtain ⟨v, cmd, hrun⟩ := hswallow "-b".toList
      (bus :: "-d".toList :: dev :: gs.flatMap Group.words)
    exact hrun.trans (optionLoop_number (hnumber bus (by simp [Group.numbers])))
  | port n =>
    left
    obtain ⟨v, cmd, hrun⟩ := hswallow "-P".toList (n :: gs.flatMap Group.words)
    exact hrun.trans (optionLoop_number (hnumber n (by simp [Group.numbers])))
  | power value => exact absurd rfl (hother _ List.mem_cons_self)
  | led value => exact absurd rfl (hother _ List.mem_cons_self)
  | verbose =>
    right
    obtain ⟨v, cmd, hrun⟩ := hswallow "-v".toList (gs.flatMap Group.words)
    -- the other groups are read as they stand
    have hrest : optionLoop argc { Options.init argc with value := v, cmd := cmd }
        (gs.flatMap Group.words)
        = some (gs.foldl (Group.apply argc) { Options.init argc with value := v, cmd := cmd }) := by
      apply optionLoop_groups honce
      · intro g'' hg''
        have hne : g''.kind ≠ .command := hother g'' (List.mem_cons_of_mem _ hg'')
        have hready := g''.ready_init argc
        cases g'' <;> first | exact hready | exact absurd rfl hne
      · apply valuesAtEnd_of_forall
        intro g'' hg'' homits'
        exact hother g'' (List.mem_cons_of_mem _ hg'') homits'.kind
    refine ⟨_, hrun.trans hrest, ?_, rfl⟩
    rw [Bool.eq_false_iff]
    intro hverbose
    rcases verbose_foldl.mp hverbose with hinit | hmem
    · exact absurd hinit (by simp [Options.init])
    · exact hg' (List.mem_map_of_mem (f := Group.kind) hmem)

/-! ## When the order does not matter -/

/-- The variables that the options are about. -/
structure Settings where
  hub : ℤ
  busnum : ℤ
  devnum : ℤ
  port : ℤ
  cmd : Command
  value : ℤ
  verbose : Bool
  deriving DecidableEq

def Options.settings (o : Options) : Settings :=
  ⟨o.hub, o.busnum, o.devnum, o.port, o.cmd, o.value, o.verbose⟩

/-- The variables after the option loop, unless the command line is rejected. -/
def settings (prog : Str) (gs : List Group) : Option Settings :=
  (parseOptions (commandLine prog gs)).map Options.settings

/-- The value that `-p` or `-l` stands for without a number. -/
def Group.default : Group → Option ℤ
  | .power none => some 0
  | .led none => some hubLedGreen
  | _ => none

/-- **The order does not matter**: every order of the groups sets the same variables or is
rejected like the others, and a value that is left out is the default in each. -/
def OrderFree (prog : Str) (gs : List Group) : Prop :=
  ∀ gs' : List Group, gs'.Perm gs → settings prog gs' = settings prog gs ∧
    ∀ o, parseOptions (commandLine prog gs') = some o →
      ∀ g ∈ gs, ∀ n, g.default = some n → o.value = n

/-- Only an option without its value has a default. -/
theorem Group.omits_of_default {g : Group} {n : ℤ} (h : g.default = some n) : g.Omits := by
  cases g with
  | power value =>
    cases value with
    | none => exact Or.inl rfl
    | some v => exact absurd h (by simp [Group.default])
  | led value =>
    cases value with
    | none => exact Or.inr rfl
    | some v => exact absurd h (by simp [Group.default])
  | _ => exact absurd h (by simp [Group.default])

/-- An option without its value is read one way in front of the others and another way behind
them. -/
theorem settings_ne_of_omits {prog : Str} {g g' : Group} {gs : List Group}
    (h : IsCommandLine (g :: g' :: gs)) (homits : g.Omits) :
    settings prog (g :: g' :: gs) ≠ settings prog (g' :: gs ++ [g]) := by
  have hperm : (g' :: gs ++ [g]).Perm (g :: g' :: gs) :=
    List.perm_append_singleton g (g' :: gs)
  have honce : ((g' :: gs ++ [g]).map Group.kind).Nodup :=
    (hperm.map Group.kind).nodup_iff.mpr h.once
  have hrest : ∀ g'' ∈ g' :: gs, ¬ g''.Omits := by
    intro g'' hg'' homits'
    have hkind := (List.nodup_cons.mp h.once).1
    rw [homits.kind, ← homits'.kind] at hkind
    exact hkind (List.mem_map_of_mem hg'')
  have hend := parseOptions_commandLine prog _ honce (valuesAtEnd_concat hrest g)
  intro hsame
  rw [settings, settings, hend] at hsame
  rcases optionLoop_swallowed (commandLine prog (g :: g' :: gs)).length h homits
    with hnone | ⟨o, hsome, hverbose, rfl⟩
  · have hparse : parseOptions (commandLine prog (g :: g' :: gs)) = none := hnone
    rw [hparse] at hsame
    exact absurd hsame (by simp)
  · have hparse : parseOptions (commandLine prog (g :: .verbose :: gs)) = some o := hsome
    rw [hparse] at hsame
    have hboth := hverbose.symm.trans (congrArg Settings.verbose (Option.some.inj hsame))
    have hmem : Group.verbose ∈ .verbose :: gs ++ [g] := by simp
    exact absurd (hboth.trans (verbose_foldl.mpr (Or.inr hmem))) (by decide)

/-- If an option without its value stands alone, then no value is left out in front of another
option, in any order. -/
theorem valuesAtEnd_of_perm {gs gs' : List Group} (h : ∀ g ∈ gs, g.Omits → gs = [g])
    (hperm : gs'.Perm gs) : ValuesAtEnd gs' := by
  by_cases homits : ∃ g ∈ gs, g.Omits
  · obtain ⟨g, hg, homits⟩ := homits
    obtain rfl := h g hg homits
    obtain rfl := List.perm_singleton.mp hperm
    exact ⟨fun _ => rfl, trivial⟩
  · apply valuesAtEnd_of_forall
    intro g hg hom
    exact homits ⟨g, hperm.mem_iff.mp hg, hom⟩

/-- **When the order does not matter**: exactly if `-p` or `-l` has its value or is the only
option. -/
theorem orderFree_iff {prog : Str} {gs : List Group} (h : IsCommandLine gs) :
    OrderFree prog gs ↔ ∀ g ∈ gs, g.Omits → gs = [g] := by
  constructor
  · intro hfree g hg homits
    by_contra hne
    -- read with the option at the end and at the beginning
    have hperm : (g :: gs.erase g).Perm gs := (List.perm_cons_erase hg).symm
    have hlast : (gs.erase g ++ [g]).Perm gs :=
      (List.perm_append_singleton g (gs.erase g)).trans hperm
    have hsame := (hfree _ hperm).1.trans (hfree _ hlast).1.symm
    have hline : IsCommandLine (g :: gs.erase g) := by
      refine ⟨(hperm.map _).nodup_iff.mpr h.once, ?_⟩
      intro g' hg'
      exact h.numbers g' (hperm.mem_iff.mp hg')
    obtain ⟨g', gs', heq⟩ : ∃ g' gs', gs.erase g = g' :: gs' := by
      apply List.exists_cons_of_ne_nil
      intro hnil
      rw [hnil] at hperm
      exact hne (List.perm_singleton.mp hperm.symm)
    rw [heq] at hline hsame
    exact settings_ne_of_omits hline homits hsame
  · intro hvalues gs' hperm
    have honce' : (gs'.map Group.kind).Nodup := (hperm.map _).nodup_iff.mpr h.once
    have hparse' := parseOptions_commandLine prog _ honce' (valuesAtEnd_of_perm hvalues hperm)
    constructor
    · have hargc : (commandLine prog gs').length = (commandLine prog gs).length := by
        rw [commandLine, commandLine, List.length_cons, List.length_cons,
          (hperm.flatMap_right Group.words).length_eq]
      have hparse :=
        parseOptions_commandLine prog _ h.once (valuesAtEnd_of_perm hvalues (.refl gs))
      rw [settings, settings, hparse', hparse, hargc, foldl_apply_perm hperm honce']
    · intro o ho g hg n hn
      have homits := Group.omits_of_default hn
      obtain rfl := hvalues g hg homits
      obtain rfl := List.perm_singleton.mp hperm
      rw [hparse'] at ho
      rw [← Option.some.inj ho]
      rcases homits with rfl | rfl <;> exact Option.some.inj hn

/-- `-P 1 -p 1`. -/
def samplePower : List Group := [.port "1".toList, .power (some "1".toList)]

/-- `-P 1 -p`. -/
def sampleOmits : List Group := [.port "1".toList, .power none]

theorem isNumber_one : IsNumber "1".toList := by
  refine ⟨by decide, ?_⟩
  intro c hc
  rw [List.mem_singleton.mp hc]
  rfl

theorem isCommandLine_samplePower : IsCommandLine samplePower := by
  refine ⟨by simp [samplePower, Group.kind], ?_⟩
  intro g hg w hw
  have hone : w = "1".toList := by
    rcases List.mem_pair.mp hg with rfl | rfl <;> exact List.mem_singleton.mp hw
  rw [hone]
  exact isNumber_one

/-- With a value the order does not matter. -/
theorem orderFree_samplePower : OrderFree "hub-ctrl".toList samplePower := by
  apply (orderFree_iff isCommandLine_samplePower).mpr
  intro g hg homits
  rcases List.mem_pair.mp hg with rfl | rfl <;> exact absurd homits (by decide)

/-- Without one it does: `-P 1 -p` is accepted and `-p -P 1` is not. -/
theorem not_orderFree :
    ¬ ∀ gs : List Group, IsCommandLine gs → OrderFree "hub-ctrl".toList gs := by
  intro h
  have hline : IsCommandLine sampleOmits := by
    refine ⟨by simp [sampleOmits, Group.kind], ?_⟩
    intro g hg w hw
    rcases List.mem_pair.mp hg with rfl | rfl
    · rw [List.mem_singleton.mp hw]
      exact isNumber_one
    · exact absurd hw List.not_mem_nil
  have hsame := (h sampleOmits hline [.power none, .port "1".toList] (by decide)).1
  exact absurd hsame (by decide +kernel)

end UsbHub
