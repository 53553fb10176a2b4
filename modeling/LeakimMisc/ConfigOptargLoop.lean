/-
# The loop over the options

`config_optarg_vars` in `src/c/optargs/test.c`: the result of `getopt` is stored in a `char`,
whose signedness is up to the compiler, and compared with -1 there.  Then the body deals with
`optarg` as if every option had an argument.
-/
import LeakimMisc.ConfigOptarg
import LeakimMisc.Getopt

open PyStr Getopt

namespace ConfigOptarg

/-! ## The loop -/

/-- `"s:d:v"`. -/
def optstring : OptString
  | 's' => some true
  | 'd' => some true
  | 'v' => some false
  | _ => none

/-- A call of `config_set_str_var` or `config_set_int_var`. -/
inductive Setting
  | str (name p : Str)
  | int (name : Str) (val : Option (BitVec 32))
  deriving DecidableEq, Repr

/-- `debug`, and the settings so far. -/
structure Vars where
  debug : ℕ
  log : List Setting
  deriving DecidableEq, Repr

/-- How the function ends: not yet, by its `return 0`, with a null pointer in `strchr`, with
the exit of `optarg_fail`, or with undefined behaviour of `sscanf`. -/
inductive End
  | running
  | returned
  | nullPointer
  | failed (name p : Str)
  | undefined
  deriving DecidableEq, Repr

/-- A value stored in a `char`. -/
def toChar (charSigned : Bool) (r : ℤ) : ℤ :=
  if charSigned then (BitVec.ofInt 8 r).toInt else (BitVec.ofInt 8 r).toNat

/-- The `while` loop, for as many calls of `getopt` as `fuel` allows.  The zero that the body
writes into an argument is behind what `getopt` still reads. -/
def loop (charSigned : Bool) : ℕ → Scan → Vars → Vars × End
  | 0, _, vars => (vars, .running)
  | fuel + 1, s, vars =>
    let r := getopt optstring s
    let c := toChar charSigned (r.elim (-1) fun o => o.1.toNat)
    let optarg := r.bind fun o => o.2.1
    let s' := r.elim s fun o => o.2.2
    if c = -1 then (vars, .returned)
    else
      match turn (Char.ofNat c.toNat) optarg with
      | .nullPointer => (vars, .nullPointer)
      | .nothing => loop charSigned fuel s' vars
      | .debug => loop charSigned fuel s' { vars with debug := vars.debug + 1 }
      | .setStr name p => loop charSigned fuel s' { vars with log := vars.log ++ [.str name p] }
      | .setInt name v => loop charSigned fuel s' { vars with log := vars.log ++ [.int name v] }
      | .fail name p => (vars, .failed name p)
      | .undefined => (vars, .undefined)

/-- `config_optarg_vars`, on the words behind the name of the program. -/
def configOptargVars (charSigned : Bool) (fuel : ℕ) (words : List Str) : Vars × End :=
  loop charSigned fuel ⟨[], words⟩ ⟨0, []⟩

/-! ## Command lines -/

/-- The name of a setting. -/
structure Name where
  text : Str
  ne_nil : text ≠ []
  noEquals : '=' ∉ text

/-- The options `-v`, `-s name=str` and `-d name=num`; `num` is one of the documented numerals. -/
inductive Opt
  | v
  | s (name : Name) (str : Str)
  | d (name : Name) (num : Str) (valid : (numeral num).isSome)

/-- The letter and the argument. -/
def Opt.toPair : Opt → Char × Option Str
  | .v => ('v', none)
  | .s name str => ('s', some (name.text ++ '=' :: str))
  | .d name num _ => ('d', some (name.text ++ '=' :: num))

/-- What the option sets. -/
def Opt.setting : Opt → Option Setting
  | .v => none
  | .s name str => some (.str name.text str)
  | .d name num _ => some (.int name.text (numeral num))

/-- It is `-v`. -/
def Opt.isV : Opt → Bool
  | .v => true
  | _ => false

/-- The options that the loop deals with as documented. -/
def Opt.Agrees : Opt → Prop
  | .v => False
  | .s _ _ => True
  | .d _ num _ => ConfigOptarg.Agrees num

/-- **The function returns** and has made the settings of the options, in their order, and
counted the options `-v`, all on top of what there was. -/
def Reports (charSigned : Bool) (s : Scan) (vars : Vars) (os : List Opt) : Prop :=
  ∃ fuel vars', loop charSigned fuel s vars = (vars', .returned) ∧
    vars'.log = vars.log ++ os.filterMap Opt.setting ∧
    vars'.debug = vars.debug + os.countP Opt.isV

/-! ## One turn -/

/-- The end of the options is seen only if a `char` is signed. -/
theorem loop_of_none (charSigned : Bool) {s : Scan} (h : getopt optstring s = none) (fuel : ℕ)
    (vars : Vars) :
    loop charSigned (fuel + 1) s vars =
      (vars, if charSigned then .returned else .nullPointer) := by
  rw [loop, h]
  cases charSigned <;> rfl

/-- A letter is the same in a `char` of either kind. -/
theorem toChar_letter (charSigned : Bool) {c : Char} (hc : c.toNat < 128) :
    toChar charSigned c.toNat = c.toNat := by
  have hnat : (BitVec.ofInt 8 c.toNat).toNat = c.toNat := by
    rw [BitVec.toNat_ofInt]
    omega
  cases charSigned with
  | true =>
    show (BitVec.ofInt 8 c.toNat).toInt = c.toNat
    rw [BitVec.toInt_eq_toNat_of_lt (by omega), hnat]
  | false =>
    show ((BitVec.ofInt 8 c.toNat).toNat : ℤ) = c.toNat
    rw [hnat]

/-- The body gets the letter and the argument of an option. -/
theorem loop_of_some (charSigned : Bool) {s s' : Scan} {c : Char} {optarg : Option Str}
    (h : getopt optstring s = some (c, optarg, s')) (hc : c.toNat < 128) (fuel : ℕ)
    (vars : Vars) :
    loop charSigned (fuel + 1) s vars =
      match turn c optarg with
      | .nullPointer => (vars, .nullPointer)
      | .nothing => loop charSigned fuel s' vars
      | .debug => loop charSigned fuel s' { vars with debug := vars.debug + 1 }
      | .setStr name p => loop charSigned fuel s' { vars with log := vars.log ++ [.str name p] }
      | .setInt name v => loop charSigned fuel s' { vars with log := vars.log ++ [.int name v] }
      | .fail name p => (vars, .failed name p)
      | .undefined => (vars, .undefined) := by
  have hchar : toChar charSigned (c.toNat : ℤ) = c.toNat := toChar_letter charSigned hc
  have hne : ¬ (c.toNat : ℤ) = -1 := by omega
  rw [loop, h]
  simp only [Option.elim_some, Option.bind_some, hchar, if_neg hne, Int.toNat_natCast,
    Char.ofNat_toNat]

/-- Settings are only added. -/
theorem loop_log (charSigned : Bool) (fuel : ℕ) (s : Scan) (vars : Vars) :
    vars.log <+: (loop charSigned fuel s vars).1.log := by
  induction fuel generalizing s vars with
  | zero => exact List.prefix_rfl
  | succ fuel ih =>
    rw [loop]
    split_ifs with hend
    · exact List.prefix_rfl
    · split
      · exact List.prefix_rfl
      · exact ih _ _
      · exact ih _ { vars with debug := vars.debug + 1 }
      · rename_i name p _
        exact (List.prefix_append _ _).trans (ih _ { vars with log := vars.log ++ [.str name p] })
      · rename_i name v _
        exact (List.prefix_append _ _).trans (ih _ { vars with log := vars.log ++ [.int name v] })
      · exact List.prefix_rfl
      · exact List.prefix_rfl

/-! ## Whole command lines -/

/-- A turn that goes on leaves the rest to the next ones. -/
theorem reports_of_turn {charSigned : Bool} {s s' : Scan} {vars vars₁ : Vars} {os os' : List Opt}
    (hturn : ∀ fuel, loop charSigned (fuel + 1) s vars = loop charSigned fuel s' vars₁)
    (hlog : vars.log ++ os.filterMap Opt.setting = vars₁.log ++ os'.filterMap Opt.setting)
    (hdebug : vars.debug + os.countP Opt.isV = vars₁.debug + os'.countP Opt.isV) :
    Reports charSigned s vars os ↔ Reports charSigned s' vars₁ os' := by
  rw [Reports, Reports, hlog, hdebug]
  constructor
  · rintro ⟨fuel, vars', hloop, h⟩
    cases fuel with
    | zero => exact absurd (congrArg Prod.snd hloop) (by simp [loop])
    | succ fuel => exact ⟨fuel, vars', (hturn fuel).symm.trans hloop, h⟩
  · rintro ⟨fuel, vars', hloop, h⟩
    exact ⟨fuel + 1, vars', (hturn fuel).trans hloop, h⟩

/-- A turn that ends the function in another way. -/
theorem not_reports_of_end {charSigned : Bool} {s : Scan} {vars : Vars} {e : End} {os : List Opt}
    (hturn : ∀ fuel, loop charSigned (fuel + 1) s vars = (vars, e)) (he : e ≠ .returned) :
    ¬ Reports charSigned s vars os := by
  rintro ⟨fuel, vars', hloop, -⟩
  cases fuel with
  | zero => exact absurd (congrArg Prod.snd hloop) (by simp [loop])
  | succ fuel =>
    rw [hturn fuel] at hloop
    exact he (congrArg Prod.snd hloop)

/-- A setting with a wrong value stays in the log. -/
theorem not_reports_of_setting {charSigned : Bool} {s s' : Scan} {vars : Vars} {os : List Opt}
    {o : Opt} {x y : Setting} (ho : o.setting = some x) (hxy : y ≠ x)
    (hturn : ∀ fuel, loop charSigned (fuel + 1) s vars =
      loop charSigned fuel s' { vars with log := vars.log ++ [y] }) :
    ¬ Reports charSigned s vars (o :: os) := by
  rintro ⟨fuel, vars', hloop, hlog, -⟩
  cases fuel with
  | zero => exact absurd (congrArg Prod.snd hloop) (by simp [loop])
  | succ fuel =>
    have hpre := loop_log charSigned fuel s' { vars with log := vars.log ++ [y] }
    rw [← hturn fuel, hloop, hlog, List.filterMap_cons, ho] at hpre
    have hhead : [y] <+: x :: os.filterMap Opt.setting :=
      (List.prefix_append_right_inj vars.log).mp hpre
    exact hxy (List.cons_prefix_cons.mp hhead).1

theorem reports_v {charSigned : Bool} {s s' : Scan} {vars : Vars} {os : List Opt}
    (h : getopt optstring s = some ('v', none, s')) :
    ¬ Reports charSigned s vars (.v :: os) :=
  not_reports_of_end (fun fuel => loop_of_some charSigned h (by decide) fuel vars) (by simp)

theorem reports_s {charSigned : Bool} {s s' : Scan} {vars : Vars} {os : List Opt} {name : Name}
    {str : Str} (h : getopt optstring s = some ('s', some (name.text ++ '=' :: str), s')) :
    Reports charSigned s vars (.s name str :: os) ↔
      Reports charSigned s' { vars with log := vars.log ++ [.str name.text str] } os := by
  refine reports_of_turn (fun fuel => ?_) (by simp [Opt.setting]) (by simp [Opt.isV])
  rw [loop_of_some charSigned h (by decide), (turn_cut name.noEquals str).1, caseS,
    if_pos name.ne_nil]

theorem reports_d {charSigned : Bool} {s s' : Scan} {vars : Vars} {os : List Opt} {name : Name}
    {num : Str} (valid : (numeral num).isSome)
    (h : getopt optstring s = some ('d', some (name.text ++ '=' :: num), s')) :
    Reports charSigned s vars (.d name num valid :: os) ↔ ConfigOptarg.Agrees num ∧
      Reports charSigned s' { vars with log := vars.log ++ [.int name.text (numeral num)] } os := by
  have hcut : turn 'd' (some (name.text ++ '=' :: num)) = caseD name.text num :=
    (turn_cut name.noEquals num).2
  have hloop := fun fuel => loop_of_some charSigned h (by decide) fuel vars
  rw [hcut] at hloop
  by_cases hagrees : ConfigOptarg.Agrees num
  · obtain ⟨v, hv⟩ := Option.isSome_iff_exists.mp valid
    have hcase : caseD name.text num = .setInt name.text (numeral num) := by
      rw [(caseD_eq_expected_iff name.text num).mpr hagrees, expected, hv]
    rw [and_iff_right hagrees]
    refine reports_of_turn (fun fuel => ?_) (by simp [Opt.setting]) (by simp [Opt.isV])
    rw [hloop, hcase]
  · refine iff_of_false ?_ fun h => hagrees h.1
    rcases caseD_cases name.text num with hcase | hcase | ⟨val, hcase⟩
    · exact not_reports_of_end (fun fuel => by rw [hloop, hcase]) (e := .undefined) (by simp)
    · exact not_reports_of_end (fun fuel => by rw [hloop, hcase]) (e := .failed name.text num)
        (by simp)
    · have hne : Setting.int name.text val ≠ .int name.text (numeral num) := by
        intro heq
        obtain ⟨v, hv⟩ := Option.isSome_iff_exists.mp valid
        refine hagrees ((caseD_eq_expected_iff name.text num).mp ?_)
        rw [hcase, expected, hv, (Setting.int.inj heq).2, hv]
      exact not_reports_of_setting rfl hne fun fuel => by rw [hloop, hcase]

/-- A command line is dealt with as documented, on top of any settings. -/
theorem reports_iff {charSigned : Bool} {os : List Opt} {s : Scan} (vars : Vars)
    (h : Spells optstring s.cur s.words (os.map Opt.toPair)) :
    Reports charSigned s vars os ↔ charSigned = true ∧ ∀ o ∈ os, o.Agrees := by
  induction os generalizing s vars with
  | nil =>
    have hloop := fun fuel => loop_of_none charSigned h.getopt_nil fuel vars
    cases charSigned with
    | true => exact iff_of_true ⟨1, vars, hloop 0, by simp, by simp⟩ (by simp)
    | false => exact iff_of_false (not_reports_of_end hloop (by simp)) (by simp)
  | cons o os ih =>
    obtain ⟨s', hs', h'⟩ := h.getopt_cons
    rw [List.forall_mem_cons, and_left_comm]
    cases o with
    | v => exact iff_of_false (reports_v hs') fun h => h.1
    | s name str =>
      rw [reports_s hs', ih _ h']
      exact (and_iff_right trivial).symm
    | d name num valid =>
      rw [reports_d valid hs', ih _ h']
      rfl

/-- The words of an option, as the comment in the source has them. -/
def Opt.words : Opt → List Str
  | .v => ["-v".toList]
  | .s name str => ["-s".toList, name.text ++ '=' :: str]
  | .d name num _ => ["-d".toList, name.text ++ '=' :: num]

theorem spells_words (os : List Opt) :
    Spells optstring [] (os.flatMap Opt.words) (os.map Opt.toPair) := by
  induction os with
  | nil => exact .nil
  | cons o os ih =>
    cases o with
    | v => exact .word (by decide) (.flag rfl ih)
    | s name str => exact .word (by decide) (.separate rfl ih)
    | d name num valid => exact .word (by decide) (.separate rfl ih)

/-- **A command line is dealt with as documented**, however its options are spelled, if and only
if `char` is signed, there is no option `-v`, and the values of the options `-d` are such that
both conversions give the documented number. -/
theorem configOptargVars_iff {charSigned : Bool} {words : List Str} {os : List Opt}
    (h : Spells optstring [] words (os.map Opt.toPair)) :
    (∃ fuel vars, configOptargVars charSigned fuel words = (vars, .returned) ∧
      vars.log = os.filterMap Opt.setting ∧ vars.debug = os.countP Opt.isV) ↔
      charSigned = true ∧ ∀ o ∈ os, o.Agrees := by
  rw [← reports_iff (s := ⟨[], words⟩) ⟨0, []⟩ h]
  simp only [Reports, configOptargVars, List.nil_append, Nat.zero_add]

/-- The name `count`. -/
def count : Name := ⟨"count".toList, by simp, by decide⟩

/-- `-d count=2 -s count=`. -/
theorem configOptargVars_count :
    ∃ fuel vars, configOptargVars true fuel
        ([Opt.d count "2".toList (by decide), .s count []].flatMap Opt.words) =
          (vars, .returned) ∧
      vars.log = [Opt.d count "2".toList (by decide), .s count []].filterMap Opt.setting ∧
      vars.debug = [Opt.d count "2".toList (by decide), .s count []].countP Opt.isV :=
  (configOptargVars_iff (spells_words _)).mpr ⟨rfl, by
    intro o ho
    rcases List.mem_cons.mp ho with rfl | ho
    · exact Or.inr (Or.inr ⟨⟨by decide, List.all_eq_true.mp (by decide)⟩, fun c hc =>
        absurd hc List.not_mem_nil⟩)
    · rw [List.mem_singleton.mp ho]
      trivial⟩

/-- `-v` alone. -/
theorem not_configOptargVars :
    ¬ ∀ (charSigned : Bool) (words : List Str) (os : List Opt),
      Spells optstring [] words (os.map Opt.toPair) →
      ∃ fuel vars, configOptargVars charSigned fuel words = (vars, .returned) ∧
        vars.log = os.filterMap Opt.setting ∧ vars.debug = os.countP Opt.isV := by
  intro h
  have hspells := spells_words [.v]
  obtain ⟨fuel, vars, hloop, hlog, hdebug⟩ := h true _ [.v] hspells
  have hreports : Reports true ⟨[], [Opt.v].flatMap Opt.words⟩ ⟨0, []⟩ [.v] :=
    ⟨fuel, vars, hloop, hlog, hdebug⟩
  rw [reports_iff (s := ⟨[], [Opt.v].flatMap Opt.words⟩) _ hspells] at hreports
  exact hreports.2 .v List.mem_cons_self

end ConfigOptarg
