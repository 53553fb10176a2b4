/-
# The program `hub-ctrl`

`src/c/usb_hub/hub-ctrl.c`, `main` and `get_hub`: the options are read into variables and
checked, the hubs are found, one of them is selected by its number or by its bus and device
numbers, and a request to set or clear a feature of one of its ports is sent.

The option loop reads one option a turn; an option with an argument takes the next word, and
so do `-l` and `-p` if there is one.  What holds of the variables before a turn and after it
holds after the loop (`optionLoop_invariant`).
-/
import LeakimMisc.UsbHub

open PyStr

namespace UsbHub

/-! ## The options -/

/-- `COMMAND_SET_NONE`, `COMMAND_SET_LED` and `COMMAND_SET_POWER`. -/
inductive Command
  | none
  | led
  | power
  deriving DecidableEq, Repr

/-- `HUB_LED_GREEN`. -/
def hubLedGreen : ℤ := 2

/-- The variables of `main` that the options set. -/
structure Options where
  busnum : ℤ
  devnum : ℤ
  cmd : Command
  port : ℤ
  value : ℤ
  listing : Bool
  verbose : Bool
  hub : ℤ
  deriving DecidableEq, Repr

/-- Their values before the option loop. -/
def Options.init (argc : ℕ) : Options where
  busnum := 0
  devnum := 0
  cmd := .none
  port := 1
  value := 0
  listing := argc == 1
  verbose := false
  hub := -1

/-- An option with an argument: `exit_with_usage` if there is none or if `bad` holds, else the
argument is read with `set`. -/
def withArgument (bad : Bool) (set : ℤ → Options) : List Str → Option (Options × List Str)
  | [] => none
  | arg :: args => if bad then none else some (set (atoi arg), args)

/-- An option with a value that may be left out at the end of the line: `exit_with_usage` if
there is a command already. -/
def withValue (o : Options) (cmd : Command) (value : ℤ) (args : List Str) :
    Option (Options × List Str) :=
  if o.cmd ≠ .none then none
  else
    match args with
    | [] => some ({ o with value := value, cmd := cmd }, [])
    | arg :: args => some ({ o with value := atoi arg, cmd := cmd }, args)

/-- The `switch`: what the option `c` does with the words after it; `none` is
`exit_with_usage`. -/
def option (argc : ℕ) (o : Options) (c : Char) (args : List Str) :
    Option (Options × List Str) :=
  match c with
  | 'h' => withArgument (o.busnum > 0 || o.devnum > 0) (fun n => { o with hub := n }) args
  | 'b' => withArgument (o.hub ≥ 0) (fun n => { o with busnum := n }) args
  | 'd' => withArgument (o.hub ≥ 0) (fun n => { o with devnum := n }) args
  | 'P' => withArgument false (fun n => { o with port := n }) args
  | 'l' => withValue o .led hubLedGreen args
  | 'p' => withValue o .power 0 args
  | 'v' => some ({ o with verbose := true, listing := if argc = 2 then true else o.listing },
      args)
  | _ => none

/-- What a turn of the option loop does: the option that is read, the words after it, and the
variables and the words that are left. -/
inductive Turn (argc : ℕ) (o : Options) : Char → List Str → Options × List Str → Prop
  | hub (arg : Str) (args : List Str) (h : o.busnum ≤ 0 ∧ o.devnum ≤ 0) :
      Turn argc o 'h' (arg :: args) ({ o with hub := atoi arg }, args)
  | busnum (arg : Str) (args : List Str) (h : o.hub < 0) :
      Turn argc o 'b' (arg :: args) ({ o with busnum := atoi arg }, args)
  | devnum (arg : Str) (args : List Str) (h : o.hub < 0) :
      Turn argc o 'd' (arg :: args) ({ o with devnum := atoi arg }, args)
  | port (arg : Str) (args : List Str) :
      Turn argc o 'P' (arg :: args) ({ o with port := atoi arg }, args)
  | command (c : Char) (args args' : List Str) (cmd : Command) (n : ℤ) (hc : c = 'l' ∨ c = 'p')
      (h : o.cmd = .none) (hargs : args'.length ≤ args.length) :
      Turn argc o c args ({ o with value := n, cmd := cmd }, args')
  | verbose (args : List Str) :
      Turn argc o 'v' args
        ({ o with verbose := true, listing := if argc = 2 then true else o.listing }, args)

theorem withArgument_eq_some_iff {bad : Bool} {set : ℤ → Options} {args : List Str}
    {r : Options × List Str} :
    withArgument bad set args = some r ↔
      ∃ arg rest, args = arg :: rest ∧ bad = false ∧ r = (set (atoi arg), rest) := by
  cases args with
  | nil => simp [withArgument]
  | cons arg args => cases bad <;> simp [withArgument, eq_comm]

theorem turn_of_withValue {argc : ℕ} {o : Options} {c : Char} {cmd : Command} {value : ℤ}
    {args : List Str} {r : Options × List Str} (hc : c = 'l' ∨ c = 'p')
    (h : withValue o cmd value args = some r) : Turn argc o c args r := by
  unfold withValue at h
  split_ifs at h with hcmd
  cases args with
  | nil =>
    rw [← Option.some.inj h]
    exact .command c [] [] cmd value hc (not_not.mp hcmd) le_rfl
  | cons arg args =>
    rw [← Option.some.inj h]
    exact .command c (arg :: args) args cmd (atoi arg) hc (not_not.mp hcmd) (Nat.le_succ _)

/-- **What a turn of the option loop does.** -/
theorem turn_of_option {argc : ℕ} {o : Options} {c : Char} {args : List Str}
    {r : Options × List Str} (h : option argc o c args = some r) : Turn argc o c args r := by
  unfold option at h
  split at h
  · obtain ⟨arg, rest, rfl, hbad, rfl⟩ := withArgument_eq_some_iff.mp h
    exact .hub arg rest (by simpa using hbad)
  · obtain ⟨arg, rest, rfl, hbad, rfl⟩ := withArgument_eq_some_iff.mp h
    exact .busnum arg rest (by simpa using hbad)
  · obtain ⟨arg, rest, rfl, hbad, rfl⟩ := withArgument_eq_some_iff.mp h
    exact .devnum arg rest (by simpa using hbad)
  · obtain ⟨arg, rest, rfl, -, rfl⟩ := withArgument_eq_some_iff.mp h
    exact .port arg rest
  · exact turn_of_withValue (Or.inl rfl) h
  · exact turn_of_withValue (Or.inr rfl) h
  · rw [← Option.some.inj h]
    exact .verbose args
  · exact absurd h (by simp)

/-- An option takes words of the line. -/
theorem length_of_option {argc : ℕ} {o : Options} {c : Char} {args : List Str}
    {r : Options × List Str} (h : option argc o c args = some r) : r.2.length ≤ args.length := by
  cases turn_of_option h with
  | command c args args' cmd n hc hcmd hargs => exact hargs
  | verbose => exact le_rfl
  | _ => exact Nat.le_succ _

/-- The option loop, on the words that are left; `none` is `exit_with_usage`. -/
def optionLoop (argc : ℕ) (o : Options) : List Str → Option Options
  | [] => some o
  | ('-' :: c :: _) :: args =>
      match _h : option argc o c args with
      | none => none
      | some r => optionLoop argc r.1 r.2
  | _ :: _ => none
termination_by args => args.length
decreasing_by
  have hle := length_of_option _h
  simp only [List.length_cons]
  omega

/-- The options of a command line, of which the first word is the name of the program. -/
def parseOptions (argv : List Str) : Option Options :=
  optionLoop argv.length (.init argv.length) argv.tail

/-- The checks and the defaults after the option loop. -/
def checkOptions (o : Options) : Option Options :=
  if (o.busnum > 0 ∧ o.devnum ≤ 0) ∨ (o.busnum ≤ 0 ∧ o.devnum > 0) then none
  else
    some { o with
      hub := if o.hub < 0 ∧ o.busnum = 0 then 0 else o.hub
      cmd := if o.cmd = .none then .power else o.cmd }

/-- The variables when `main` comes to `usb_init`; `none` if it ends before. -/
def options (argv : List Str) : Option Options := (parseOptions argv).bind checkOptions

/-- The arguments for `usb_find_hubs`. -/
def Options.args (o : Options) : Args := ⟨o.listing, o.verbose, o.busnum, o.devnum, o.hub⟩

/-! ## The request -/

/-- `get_hub`: the first hub with the numbers, and `-1` if there is none. -/
def getHub (hubs : Table HubInfo maxHubs) (busnum devnum : ℤ) : ℤ :=
  match hubs.entries.findIdx? fun h => h.busnum == busnum && h.devnum == devnum with
  | some i => i
  | none => -1

/-- The entry that is selected, if its number is one of the table. -/
def selected (hubs : Table HubInfo maxHubs) (o : Options) : Option HubInfo :=
  let hub := if o.hub < 0 then getHub hubs o.busnum o.devnum else o.hub
  if 0 ≤ hub then hubs.entries[hub.toNat]? else none

/-- `USB_REQ_CLEAR_FEATURE`. -/
def usbReqClearFeature : ℕ := 1

/-- `USB_REQ_SET_FEATURE`. -/
def usbReqSetFeature : ℕ := 3

/-- `USB_PORT_FEAT_POWER`. -/
def usbPortFeatPower : ℕ := 8

/-- `USB_PORT_FEAT_INDICATOR`. -/
def usbPortFeatIndicator : ℕ := 22

/-- A request to a device; `index` is an `int`. -/
structure Request where
  dev : UsbDevice
  request : ℕ
  feature : ℕ
  index : BitVec 32
  deriving DecidableEq, Repr

/-- The request that the options ask for. -/
def Options.request (o : Options) (dev : UsbDevice) : Request :=
  if o.cmd = .power then
    if o.value ≠ 0 then
      ⟨dev, usbReqSetFeature, usbPortFeatPower, BitVec.ofInt 32 o.port⟩
    else ⟨dev, usbReqClearFeature, usbPortFeatPower, BitVec.ofInt 32 o.port⟩
  else
    ⟨dev, usbReqSetFeature, usbPortFeatIndicator,
      BitVec.ofInt 32 o.value <<< 8 ||| BitVec.ofInt 32 o.port⟩

/-- The answers to the calls of `main` itself: whether the hub can be opened again, and what
the request returns. -/
structure Target where
  opens : UsbDevice → Bool
  control : Request → BitVec 32

/-- How the program ends. -/
inductive Outcome
  /-- `exit_with_usage`. -/
  | usage
  /-- An entry was written past the table of hubs. -/
  | outOfTable
  /-- What was found and done, the request that was sent, and the exit status. -/
  | exit (s : Found) (sent : Option Request) (result : ℕ)

/-- `main`. -/
def main (usb : Usb) (target : Target) (busses : List UsbBus) (argv : List Str) : Outcome :=
  match options argv with
  | none => .usage
  | some o =>
    match usbFindHubs usb o.args busses with
    | none => .outOfTable
    | some (n, s) =>
      if n ≤ 0 then .exit s none 1
      else if o.listing then .exit s none 0
      else
        match selected s.hubs o with
        | none => .exit s none 1
        | some info =>
          if target.opens info.dev then
            let status := if o.verbose then [.portStatus info.dev info.nport] else []
            .exit (s.log ([.opened info.dev] ++ status ++ [.closed info.dev]))
              (some (o.request info.dev))
              (if (target.control (o.request info.dev)).toInt < 0 then 1 else 0)
          else .exit s none 1

/-! ## Runs of the option loop -/

/-- **What every option keeps** holds after the loop. -/
theorem optionLoop_invariant {argc : ℕ} {I : Options → Prop}
    (hkeeps : ∀ o c args r, I o → option argc o c args = some r → I r.1)
    {o o' : Options} {args : List Str} (hinit : I o) (h : optionLoop argc o args = some o') :
    I o' := by
  fun_induction optionLoop argc o args with
  | case1 o => exact Option.some.inj h ▸ hinit
  | case2 o c w args hopt => exact absurd h (by simp)
  | case3 o c w args r hopt ih => exact ih (hkeeps o c args r hinit hopt) h
  | case4 o w args hno => exact absurd h (by simp)

/-! ## Runs of the program -/

/-- A run sends the request. -/
def Sends (usb : Usb) (target : Target) (busses : List UsbBus) (argv : List Str)
    (req : Request) : Prop :=
  ∃ s r, main usb target busses argv = .exit s (some req) r

/-- **When a request is sent**: the options were accepted, hubs were found, this is no listing,
and a hub was selected and opened. -/
theorem sends_iff {usb : Usb} {target : Target} {busses : List UsbBus} {argv : List Str}
    {req : Request} :
    Sends usb target busses argv req ↔
      ∃ o n s info, options argv = some o ∧ usbFindHubs usb o.args busses = some (n, s) ∧
        0 < n ∧ o.listing = false ∧ selected s.hubs o = some info ∧
        target.opens info.dev = true ∧ req = o.request info.dev := by
  constructor
  · rintro ⟨t, r, h⟩
    unfold main at h
    split at h
    · exact absurd h (by simp)
    · rename_i o hopt
      split at h
      · exact absurd h (by simp)
      · rename_i n s hfind
        by_cases hn : n ≤ 0
        · rw [if_pos hn] at h
          exact absurd h (by simp)
        rw [if_neg hn] at h
        by_cases hlisting : o.listing = true
        · rw [if_pos hlisting] at h
          exact absurd h (by simp)
        rw [if_neg hlisting] at h
        split at h
        · exact absurd h (by simp)
        · rename_i info hsel
          by_cases hopens : target.opens info.dev = true
          · rw [if_pos hopens] at h
            obtain ⟨-, hreq, -⟩ := Outcome.exit.inj h
            exact ⟨o, n, s, info, hopt, hfind, by omega, by simpa using hlisting, hsel, hopens,
              (Option.some.inj hreq).symm⟩
          · rw [if_neg hopens] at h
            exact absurd h (by simp)
  · rintro ⟨o, n, s, info, hopt, hfind, hn, hlisting, hsel, hopens, rfl⟩
    rw [Sends, main, hopt]
    dsimp only
    rw [hfind]
    dsimp only
    rw [if_neg (by omega), if_neg (by simp [hlisting]), hsel]
    dsimp only
    rw [if_pos hopens]
    exact ⟨_, _, rfl⟩

/-- What a listing shows is what was found. -/
theorem usbFindHubs_of_listing {usb : Usb} {target : Target} {busses : List UsbBus}
    {argv : List Str} {o : Options} {s : Found} {sent : Option Request} {r : ℕ}
    (hopt : options argv = some o) (hlisting : o.listing = true)
    (h : main usb target busses argv = .exit s sent r) :
    ∃ n, usbFindHubs usb o.args busses = some (n, s) := by
  rw [main, hopt] at h
  dsimp only at h
  split at h
  · exact absurd h (by simp)
  · rename_i n t hfind
    rw [if_pos hlisting] at h
    refine ⟨n, ?_⟩
    split_ifs at h
    all_goals
      rw [hfind, (Outcome.exit.inj h).1]

end UsbHub
