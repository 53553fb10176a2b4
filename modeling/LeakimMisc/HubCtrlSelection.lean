/-
# Selecting a hub

In `src/c/usb_hub/hub-ctrl.c` a hub is named by its number in the listing (`-h`) or by its bus
and device numbers (`-b` and `-d`).  The line `Hub #k at B:D` of a listing is printed before the
entry is written, with the counter of entries, and the number is looked up in the finished
table: the line stands for entry `k` (`exists_entry_of_printedFor`) and every entry of a listing
has its line (`exists_printedFor_of_entry`).

A command line that names the hub of a line, in one way or the other, sends its request to the
device the line was printed for; one that names a device without a line sends none, unless the
bus is given as 0, which stands for no bus at all (`selection_agrees`).
-/
import LeakimMisc.HubCtrlOptions
import LeakimMisc.UsbHubHandles

open PyStr

namespace UsbHub

/-! ## The words of a command line -/

/-- A turn of the option loop reads the option `c` with the argument `w`. -/
inductive Reads (argc : ℕ) (c : Char) (w : Str) : Options → List Str → Prop
  | now {o : Options} {v : Str} {args : List Str} :
      Reads argc c w o (('-' :: c :: v) :: w :: args)
  | later {o : Options} {d : Char} {v : Str} {args : List Str} {r : Options × List Str}
      (hopt : option argc o d args = some r) (h : Reads argc c w r.1 r.2) :
      Reads argc c w o (('-' :: d :: v) :: args)

/-- The loop over a command line reads the option with the argument. -/
def Has (argv : List Str) (c : Char) (w : Str) : Prop :=
  Reads argv.length c w (.init argv.length) argv.tail

/-- The option is given, with the number `n`. -/
def Given (argv : List Str) (c : Char) (n : ℤ) : Prop :=
  (∃ w, Has argv c w) ∧ ∀ w, Has argv c w → atoi w = n

theorem Reads.two_le_length {argc : ℕ} {c : Char} {w : Str} {o : Options} {args : List Str}
    (h : Reads argc c w o args) : 2 ≤ args.length := by
  induction h with
  | now =>
    rw [List.length_cons, List.length_cons]
    omega
  | later hopt _ ih =>
    have hle := length_of_option hopt
    rw [List.length_cons]
    omega

/-- The variable `f` is set by the option `c` and by no other. -/
def SetBy (f : Options → ℤ) (c : Char) : Prop :=
  ∀ argc o d args r, Turn argc o d args r →
    (d = c ∧ ∃ arg, args = arg :: r.2 ∧ f r.1 = atoi arg) ∨ (d ≠ c ∧ f r.1 = f o)

theorem setBy_hub : SetBy Options.hub 'h' := by
  intro argc o d args r h
  cases h with
  | hub arg rest => exact Or.inl ⟨rfl, arg, rfl, rfl⟩
  | command _ _ _ _ _ hc => exact Or.inr ⟨by rcases hc with rfl | rfl <;> decide, rfl⟩
  | _ => exact Or.inr ⟨by decide, rfl⟩

theorem setBy_busnum : SetBy Options.busnum 'b' := by
  intro argc o d args r h
  cases h with
  | busnum arg rest => exact Or.inl ⟨rfl, arg, rfl, rfl⟩
  | command _ _ _ _ _ hc => exact Or.inr ⟨by rcases hc with rfl | rfl <;> decide, rfl⟩
  | _ => exact Or.inr ⟨by decide, rfl⟩

theorem setBy_devnum : SetBy Options.devnum 'd' := by
  intro argc o d args r h
  cases h with
  | devnum arg rest => exact Or.inl ⟨rfl, arg, rfl, rfl⟩
  | command _ _ _ _ _ hc => exact Or.inr ⟨by rcases hc with rfl | rfl <;> decide, rfl⟩
  | _ => exact Or.inr ⟨by decide, rfl⟩

/-- **The variable after the loop**: as before, or the last argument of its option. -/
theorem SetBy.optionLoop {f : Options → ℤ} {c : Char} (hf : SetBy f c) {argc : ℕ}
    {o o' : Options} {args : List Str} (h : optionLoop argc o args = some o') :
    (f o' = f o ∧ ∀ w, ¬ Reads argc c w o args) ∨
      ∃ w, Reads argc c w o args ∧ f o' = atoi w := by
  fun_induction UsbHub.optionLoop argc o args with
  | case1 o =>
    left
    refine ⟨by rw [Option.some.inj h], ?_⟩
    intro w hw
    cases hw
  | case2 o d v args hopt => exact absurd h (by simp)
  | case3 o d v args r hopt ih =>
    rcases ih h with ⟨hsame, hnone⟩ | ⟨w, hw, hset⟩
    · rcases hf argc o d args r (turn_of_option hopt) with ⟨rfl, arg, rfl, harg⟩ | ⟨hd, hkept⟩
      · exact Or.inr ⟨arg, .now, hsame.trans harg⟩
      · left
        refine ⟨hsame.trans hkept, ?_⟩
        intro w hw
        cases hw with
        | now => exact hd rfl
        | later hopt' hw' =>
          rw [hopt] at hopt'
          rw [← Option.some.inj hopt'] at hw'
          exact hnone w hw'
    · exact Or.inr ⟨w, .later hopt hw, hset⟩
  | case4 o w args hno => exact absurd h (by simp)

/-- An option that is given sets its variable. -/
theorem Given.eq {f : Options → ℤ} {c : Char} (hf : SetBy f c) {argv : List Str} {n : ℤ}
    (h : Given argv c n) {o : Options} (ho : parseOptions argv = some o) : f o = n := by
  obtain ⟨⟨w, hw⟩, hall⟩ := h
  rcases hf.optionLoop ho with ⟨-, hnone⟩ | ⟨v, hv, hset⟩
  · exact absurd hw (hnone w)
  · rw [hset]
    exact hall v hv

/-- Only a command line of one or two words is a listing. -/
theorem listing_of_parseOptions {argv : List Str} {c : Char} {w : Str} (hw : Has argv c w)
    {o : Options} (ho : parseOptions argv = some o) : o.listing = false := by
  have htwo := hw.two_le_length
  have hlen : 3 ≤ argv.length := by
    rw [List.length_tail] at htwo
    omega
  apply optionLoop_invariant (I := fun o => o.listing = false) _ _ ho
  · intro o c args r hlisting hr
    cases turn_of_option hr with
    | verbose args =>
      show (if argv.length = 2 then true else o.listing) = false
      rw [if_neg (by omega), hlisting]
    | _ => exact hlisting
  · show (argv.length == 1) = false
    rw [beq_eq_false_iff_ne]
    omega

/-- The variables after the checks. -/
theorem checkOptions_eq_some {o o' : Options} (h : checkOptions o' = some o) :
    o.busnum = o'.busnum ∧ o.devnum = o'.devnum ∧ o.listing = o'.listing ∧
      o.hub = if o'.hub < 0 ∧ o'.busnum = 0 then 0 else o'.hub := by
  unfold checkOptions at h
  split at h
  · exact absurd h (by simp)
  · rw [← Option.some.inj h]
    exact ⟨rfl, rfl, rfl, rfl⟩

/-- `-h`: the hub has the number. -/
theorem options_number {argv : List Str} {o : Options} (ho : options argv = some o) {k : ℕ}
    (h : Given argv 'h' k) : o.listing = false ∧ o.hub = k := by
  obtain ⟨o', hparse, hcheck⟩ := Option.bind_eq_some_iff.mp ho
  obtain ⟨-, -, hlisting, hhub⟩ := checkOptions_eq_some hcheck
  have hk : o'.hub = k := h.eq setBy_hub hparse
  obtain ⟨w, hw⟩ := h.1
  refine ⟨hlisting.trans (listing_of_parseOptions hw hparse), ?_⟩
  rw [hhub, if_neg (by omega), hk]

/-- `-b` and `-d`: the hub has no number, but a bus and a device. -/
theorem options_device {argv : List Str} {o : Options} (ho : options argv = some o) {b d : ℤ}
    (hb : Given argv 'b' b) (hd : Given argv 'd' d) (hbus : b ≠ 0)
    (hone : 0 < b ∨ ∀ w, ¬ Has argv 'h' w) :
    o.listing = false ∧ o.hub < 0 ∧ o.busnum = b ∧ o.devnum = d := by
  obtain ⟨o', hparse, hcheck⟩ := Option.bind_eq_some_iff.mp ho
  obtain ⟨hbusnum, hdevnum, hlisting, hhub⟩ := checkOptions_eq_some hcheck
  have hb' : o'.busnum = b := hb.eq setBy_busnum hparse
  have hd' : o'.devnum = d := hd.eq setBy_devnum hparse
  have hneg : o'.hub < 0 := by
    rcases hone with hpos | hnone
    · by_contra hle
      have hway := oneWay_of_parseOptions hparse (by omega)
      omega
    · rcases setBy_hub.optionLoop hparse with ⟨hinit, -⟩ | ⟨w, hw, -⟩
      · rw [hinit]
        exact show (-1 : ℤ) < 0 by omega
      · exact absurd hw (hnone w)
  obtain ⟨w, hw⟩ := hb.1
  refine ⟨hlisting.trans (listing_of_parseOptions hw hparse), ?_, ?_, ?_⟩
  · rw [hhub, if_neg (by omega)]
    exact hneg
  · rw [hbusnum, hb']
  · rw [hdevnum, hd']

/-! ## The lines and the entries -/

/-- A line `Hub #k at dirname:devnum` was printed for the device: right after it was opened. -/
def PrintedFor (s : Found) (dev : UsbDevice) (k : ℕ) (dirname : Str) (devnum : UInt8) : Prop :=
  [.opened dev, .hubLine k dirname devnum] <:+: s.trace

/-- The entry is what a line for the device shows. -/
structure HubInfo.ShownAs (info : HubInfo) (dev : UsbDevice) (dirname : Str) (devnum : UInt8) :
    Prop where
  dev : info.dev = dev
  busnum : info.busnum = atoi dirname
  devnum : info.devnum = devnum.toNat

theorem head?_leave (usb : Usb) (a : Args) (dev : UsbDevice) (k : ℕ) (dirname : Str)
    (devnum : UInt8) : (leave usb a dev).head? ≠ some (.hubLine k dirname devnum) := by
  unfold leave
  split_ifs <;> simp

theorem head?_label_append {usb : Usb} {a : Args} {bus : UsbBus} {dev : UsbDevice} {n k : ℕ}
    {dirname : Str} {devnum : UInt8} :
    (label a bus dev n ++ leave usb a dev).head? = some (.hubLine k dirname devnum) ↔
      prints a bus dev n ∧ n = k ∧ bus.dirname = dirname ∧ dev.devnum = devnum := by
  unfold label
  by_cases h : prints a bus dev n
  · rw [if_pos h, List.singleton_append, List.head?_cons, Option.some.injEq, Event.hubLine.injEq]
    exact (and_iff_right h).symm
  · rw [if_neg h, List.nil_append]
    exact ⟨fun hhead => absurd hhead (head?_leave usb a dev k dirname devnum),
      fun hprints => absurd hprints.1 h⟩

theorem opened_not_mem (usb : Usb) (a : Args) (bus : UsbBus) (dev dev' : UsbDevice) (k : ℕ) :
    Event.opened dev' ∉ label a bus dev k ++ leave usb a dev := by
  unfold label leave
  split_ifs <;> simp

/-- A visit prints a line exactly if it enters the hub and lines are printed. -/
theorem printedFor_visit {usb : Usb} {a : Args} {bus : UsbBus} {s t : Found} {dev : UsbDevice}
    (h : visit usb a bus s dev = some t) {dev' : UsbDevice} {k : ℕ} {dirname : Str}
    {devnum : UInt8} :
    PrintedFor t dev' k dirname devnum ↔ PrintedFor s dev' k dirname devnum ∨
      (Qualifies usb dev ∧ prints a bus dev s.hubs.entries.length ∧ dev' = dev ∧
        s.hubs.entries.length = k ∧ bus.dirname = dirname ∧ dev.devnum = devnum) := by
  -- the words of a visit begin with the handle that is opened
  have hopened : ∀ es : List Event, (∀ d, Event.opened d ∉ es) →
      ([.opened dev', .hubLine k dirname devnum] <:+: s.trace ++ .opened dev :: es ↔
        PrintedFor s dev' k dirname devnum ∨
          (dev' = dev ∧ es.head? = some (.hubLine k dirname devnum))) := by
    intro es hes
    rw [Pieces.pair_infix_append (by simp), Pieces.pair_infix_cons (hes dev'),
      Event.opened.injEq]
    rfl
  cases visited_of_visit h with
  | skipped hskip => exact (or_iff_left fun hq => hskip hq.1.1).symm
  | short hopen hshort =>
    rw [or_iff_left fun hq => hshort hq.1.2.1]
    exact (hopened [.closed dev] (by simp)).trans (or_iff_left (by simp))
  | featureless hf =>
    rw [or_iff_left fun hq => hf.2.2 hq.1.2.2]
    exact (hopened [] (by simp)).trans (or_iff_left (by simp))
  | entered hq hubs hadd =>
    refine (hopened _ fun d => opened_not_mem usb a bus dev d _).trans ?_
    rw [head?_label_append, and_iff_right hq]
    exact or_congr_right and_left_comm

/-- A visit writes the entry of the hub behind the others. -/
theorem entries_visit {usb : Usb} {a : Args} {bus : UsbBus} {s t : Found} {dev : UsbDevice}
    (h : visit usb a bus s dev = some t) :
    t.hubs.entries = s.hubs.entries ++ foundHub usb bus dev := by
  have hmap := map_entries_visit usb a bus s dev
  rw [h] at hmap
  exact (Table.room_eq_some_iff.mp hmap.symm).2

/-- What the visits keep holds when `usb_find_hubs` returns. -/
theorem usbFindHubs_invariant {usb : Usb} {a : Args} {I : Found → Prop}
    (hvisit : ∀ bus s dev t, I s → visit usb a bus s dev = some t → I t)
    (hinit : I ⟨.empty, []⟩) {busses : List UsbBus} {n : ℤ} {s : Found}
    (hs : usbFindHubs usb a busses = some (n, s)) : I s := by
  unfold usbFindHubs at hs
  split_ifs at hs with hnil
  · obtain ⟨-, rfl⟩ := Prod.mk.inj (Option.some.inj hs)
    exact hinit
  · obtain ⟨u, hu, hpair⟩ := Option.map_eq_some_iff.mp hs
    obtain ⟨-, rfl⟩ := Prod.mk.inj hpair
    refine Table.foldlM_induction (I := fun _ u => I u) ?_ hinit hu
    intro _ u bus v hu hv
    refine Table.foldlM_induction (I := fun _ v => I v) ?_ hu hv
    intro _ v dev w hv hw
    exact hvisit bus v dev w hv hw

/-- **A line stands for its entry.** -/
theorem exists_entry_of_printedFor {usb : Usb} {a : Args} {busses : List UsbBus} {n : ℤ}
    {s : Found} (hs : usbFindHubs usb a busses = some (n, s)) {dev : UsbDevice} {k : ℕ}
    {dirname : Str} {devnum : UInt8} (h : PrintedFor s dev k dirname devnum) :
    ∃ info, s.hubs.entries[k]? = some info ∧ info.ShownAs dev dirname devnum := by
  revert h
  refine usbFindHubs_invariant (I := fun s => PrintedFor s dev k dirname devnum →
    ∃ info, s.hubs.entries[k]? = some info ∧ info.ShownAs dev dirname devnum) ?_ ?_ hs
  · intro bus s d t ih ht h
    rw [entries_visit ht]
    rcases (printedFor_visit ht).mp h with hold | ⟨hq, -, rfl, rfl, rfl, rfl⟩
    · obtain ⟨info, hinfo, hshown⟩ := ih hold
      obtain ⟨hlt, -⟩ := List.getElem?_eq_some_iff.mp hinfo
      exact ⟨info, by rw [List.getElem?_append_left hlt, hinfo], hshown⟩
    · rw [foundHub_of_qualifies hq, List.getElem?_concat_length]
      exact ⟨_, rfl, rfl, rfl, rfl⟩
  · intro h
    exact absurd h (by simp [PrintedFor])

/-- **In a listing every entry has its line.** -/
theorem exists_printedFor_of_entry {usb : Usb} {a : Args} (hlisting : a.listing = true)
    {busses : List UsbBus} {n : ℤ} {s : Found} (hs : usbFindHubs usb a busses = some (n, s))
    {k : ℕ} {info : HubInfo} (h : s.hubs.entries[k]? = some info) :
    ∃ dev dirname devnum, PrintedFor s dev k dirname devnum ∧
      info.ShownAs dev dirname devnum := by
  revert h
  refine usbFindHubs_invariant (I := fun s => s.hubs.entries[k]? = some info →
    ∃ dev dirname devnum, PrintedFor s dev k dirname devnum ∧
      info.ShownAs dev dirname devnum) ?_ ?_ hs
  · intro bus s d t ih ht h
    rw [entries_visit ht] at h
    by_cases hlt : k < s.hubs.entries.length
    · rw [List.getElem?_append_left hlt] at h
      obtain ⟨dev, dirname, devnum, hprinted, hshown⟩ := ih h
      exact ⟨dev, dirname, devnum, (printedFor_visit ht).mpr (Or.inl hprinted), hshown⟩
    · rw [List.getElem?_append_right (by omega)] at h
      by_cases hq : Qualifies usb d
      · rw [foundHub_of_qualifies hq] at h
        obtain ⟨hzero, hinfo⟩ := List.getElem?_eq_some_iff.mp h
        rw [List.length_singleton] at hzero
        have hk : s.hubs.entries.length = k := by omega
        have hprints : prints a bus d s.hubs.entries.length := by simp [prints, hlisting]
        refine ⟨d, bus.dirname, d.devnum, (printedFor_visit ht).mpr (Or.inr ?_), ?_⟩
        · exact ⟨hq, hprints, rfl, hk, rfl, rfl⟩
        · rw [← hinfo, List.getElem_singleton]
          exact ⟨rfl, rfl, rfl⟩
      · rw [foundHub_of_not_qualifies hq] at h
        exact absurd h (by simp)
  · intro h
    exact absurd h (by simp)

/-! ## The names of the hubs -/

/-- The numbers of all devices: the bus number that is read from the name of the bus, and the
number of the device. -/
def names (busses : List UsbBus) : List (ℤ × ℤ) :=
  busses.flatMap fun bus => bus.devices.map fun dev => (atoi bus.dirname, (dev.devnum.toNat : ℤ))

/-- **The buses number their devices**: no two devices have the same numbers, and all numbers
are positive. -/
structure Numbered (busses : List UsbBus) : Prop where
  nodup : (names busses).Nodup
  positive : ∀ name ∈ names busses, 0 < name.1 ∧ 0 < name.2

def HubInfo.name (info : HubInfo) : ℤ × ℤ := (info.busnum, info.devnum)

/-- The entries have names of devices, in their order. -/
theorem map_name_foundHubs_sublist (usb : Usb) (busses : List UsbBus) :
    ((foundHubs usb busses).map HubInfo.name).Sublist (names busses) := by
  rw [foundHubs, names, List.map_flatMap]
  apply List.Sublist.flatMap_right
  intro bus _
  rw [List.map_flatMap, List.map_eq_flatMap]
  apply List.Sublist.flatMap_right
  intro dev _
  by_cases hq : Qualifies usb dev
  · rw [foundHub_of_qualifies hq]
    exact List.Sublist.refl _
  · rw [foundHub_of_not_qualifies hq]
    exact List.nil_sublist _

/-- `get_hub` finds an entry by its name, if no other entry has it. -/
theorem getHub_eq {hubs : Table HubInfo maxHubs} (hnodup : (hubs.entries.map HubInfo.name).Nodup)
    {k : ℕ} {info : HubInfo} (h : hubs.entries[k]? = some info) :
    getHub hubs info.busnum info.devnum = k := by
  obtain ⟨hlt, hinfo⟩ := List.getElem?_eq_some_iff.mp h
  have hfind : (hubs.entries.findIdx? fun h => h.busnum == info.busnum && h.devnum == info.devnum)
      = some k := by
    rw [List.findIdx?_eq_some_iff_getElem]
    refine ⟨hlt, by simp [hinfo], ?_⟩
    intro j hj hsame
    have hlt' : j < (hubs.entries.map HubInfo.name).length := by
      rw [List.length_map]
      omega
    have hname : (hubs.entries.map HubInfo.name)[j]? = (hubs.entries.map HubInfo.name)[k]? := by
      rw [List.getElem?_map, List.getElem?_map, h, List.getElem?_eq_getElem (hj.trans hlt)]
      simpa [HubInfo.name] using hsame
    have hjk := (List.getElem?_inj hlt' hnodup).mp hname
    omega
  rw [getHub, hfind]

/-- What `get_hub` finds has the name. -/
theorem entry_of_getHub {hubs : Table HubInfo maxHubs} {busnum devnum : ℤ}
    (h : 0 ≤ getHub hubs busnum devnum) :
    ∃ info, hubs.entries[(getHub hubs busnum devnum).toNat]? = some info ∧
      info.busnum = busnum ∧ info.devnum = devnum := by
  unfold getHub at h ⊢
  split at h
  · rename_i i hi
    obtain ⟨hlt, hname, -⟩ := List.findIdx?_eq_some_iff_getElem.mp hi
    exact ⟨hubs.entries[i], List.getElem?_eq_getElem hlt, by simpa using hname⟩
  · exact absurd h (by decide)

/-! ## Runs that name a hub -/

/-- A run sends its request to the device. -/
def SendsTo (usb : Usb) (target : Target) (busses : List UsbBus) (argv : List Str)
    (dev : UsbDevice) : Prop :=
  ∃ req, Sends usb target busses argv req ∧ req.dev = dev

theorem dev_request (o : Options) (dev : UsbDevice) : (o.request dev).dev = dev := by
  unfold Options.request
  split_ifs <;> rfl

/-- What is selected in a table with all hubs is selected in a run, if they fit. -/
theorem exists_found_selected {usb : Usb} {busses : List UsbBus} {o : Options} {info : HubInfo}
    (hroom : qualifying usb busses ≤ maxHubs)
    (hsel : ∀ hubs : Table HubInfo maxHubs, hubs.entries = foundHubs usb busses →
      selected hubs o = some info) :
    ∃ n s, usbFindHubs usb o.args busses = some (n, s) ∧ 0 < n ∧
      selected s.hubs o = some info := by
  obtain ⟨n, s, hs⟩ := exists_usbFindHubs_iff.mpr hroom
  obtain ⟨hentries, -, hcount⟩ := usbFindHubs_eq_some hs
  have hinfo := hsel s.hubs hentries
  exact ⟨n, s, hs, hcount (List.length_pos_of_mem (mem_of_selected hinfo)), hinfo⟩

/-- The run of a command line that selects an entry. -/
theorem sendsTo_of_selected {usb : Usb} {target : Target} {busses : List UsbBus}
    {argv : List Str} {o : Options} {info : HubInfo} (hroom : qualifying usb busses ≤ maxHubs)
    (hopt : options argv = some o) (hlisting : o.listing = false)
    (hsel : ∀ hubs : Table HubInfo maxHubs, hubs.entries = foundHubs usb busses →
      selected hubs o = some info)
    (hopens : target.opens info.dev = true) : SendsTo usb target busses argv info.dev := by
  obtain ⟨n, s, hs, hn, hinfo⟩ := exists_found_selected hroom hsel
  refine ⟨o.request info.dev, ?_, dev_request o info.dev⟩
  exact sends_iff.mpr ⟨o, n, s, info, hopt, hs, hn, hlisting, hinfo, hopens, rfl⟩

theorem selected_number {hubs : Table HubInfo maxHubs} {o : Options} {k : ℕ} {info : HubInfo}
    (hk : o.hub = k) (h : hubs.entries[k]? = some info) : selected hubs o = some info := by
  unfold selected
  dsimp only
  rw [if_neg (show ¬ o.hub < 0 by omega), if_pos (show 0 ≤ o.hub by omega), hk,
    Int.toNat_natCast, h]

theorem selected_device {hubs : Table HubInfo maxHubs} {o : Options} {k : ℕ} {info : HubInfo}
    (hnodup : (hubs.entries.map HubInfo.name).Nodup) (hhub : o.hub < 0)
    (hbus : o.busnum = info.busnum) (hdev : o.devnum = info.devnum)
    (h : hubs.entries[k]? = some info) : selected hubs o = some info := by
  unfold selected
  dsimp only
  rw [if_pos hhub, hbus, hdev, getHub_eq hnodup h, if_pos (by omega), Int.toNat_natCast, h]

/-- What is selected by the numbers has them. -/
theorem entry_of_selected {hubs : Table HubInfo maxHubs} {o : Options} {info : HubInfo}
    (hhub : o.hub < 0) (h : selected hubs o = some info) :
    (∃ k : ℕ, hubs.entries[k]? = some info) ∧ info.busnum = o.busnum ∧ info.devnum = o.devnum := by
  unfold selected at h
  dsimp only at h
  rw [if_pos hhub] at h
  split_ifs at h with hfound
  obtain ⟨info', hinfo', hname⟩ := entry_of_getHub hfound
  rw [hinfo'] at h
  obtain rfl := Option.some.inj h
  exact ⟨⟨_, hinfo'⟩, hname⟩

/-- The run is a listing, and `s` is what it found and did. -/
def IsListing (usb : Usb) (busses : List UsbBus) (s : Found) : Prop :=
  ∃ target argv o sent r, options argv = some o ∧ o.listing = true ∧
    main usb target busses argv = .exit s sent r

/-- The entry of a line is the same in all runs. -/
theorem entry_of_line {usb : Usb} {busses : List UsbBus} {s : Found} (h : IsListing usb busses s)
    {dev : UsbDevice} {k : ℕ} {dirname : Str} {devnum : UInt8}
    (hline : PrintedFor s dev k dirname devnum) :
    qualifying usb busses ≤ maxHubs ∧
      ∃ info, (foundHubs usb busses)[k]? = some info ∧ info.ShownAs dev dirname devnum := by
  obtain ⟨t, argv, o, sent, r, hopt, hlisting, hmain⟩ := h
  obtain ⟨n, hs⟩ := usbFindHubs_of_listing hopt hlisting hmain
  obtain ⟨info, hinfo, hshown⟩ := exists_entry_of_printedFor hs hline
  rw [(usbFindHubs_eq_some hs).1] at hinfo
  exact ⟨exists_usbFindHubs_iff.mp ⟨n, s, hs⟩, info, hinfo, hshown⟩

/-- The numbers of a line are positive. -/
theorem pos_of_line {usb : Usb} {busses : List UsbBus} {s : Found} (hnames : Numbered busses)
    (h : IsListing usb busses s) {dev : UsbDevice} {k : ℕ} {dirname : Str} {devnum : UInt8}
    (hline : PrintedFor s dev k dirname devnum) :
    0 < atoi dirname ∧ (0 : ℤ) < devnum.toNat := by
  obtain ⟨-, info, hinfo, hshown⟩ := entry_of_line h hline
  rw [← hshown.busnum, ← hshown.devnum]
  apply hnames.positive info.name
  apply (map_name_foundHubs_sublist usb busses).subset
  exact List.mem_map_of_mem (List.mem_of_getElem? hinfo)

/-- The number of a line is the place of an entry. -/
theorem number_lt_of_line {usb : Usb} {busses : List UsbBus} {s : Found}
    (h : IsListing usb busses s) {dev : UsbDevice} {k : ℕ} {dirname : Str} {devnum : UInt8}
    (hline : PrintedFor s dev k dirname devnum) : k < maxHubs := by
  obtain ⟨hroom, info, hinfo, -⟩ := entry_of_line h hline
  obtain ⟨hlt, -⟩ := List.getElem?_eq_some_iff.mp hinfo
  rw [length_foundHubs] at hlt
  omega

/-- `-h` with the number of a line. -/
theorem sendsTo_number {usb : Usb} {target : Target} {busses : List UsbBus} {s : Found}
    (h : IsListing usb busses s) {dev : UsbDevice} {k : ℕ} {dirname : Str} {devnum : UInt8}
    (hline : PrintedFor s dev k dirname devnum) (hopens : target.opens dev = true)
    {argv : List Str} (haccepted : options argv ≠ none) (hk : Given argv 'h' k) :
    SendsTo usb target busses argv dev := by
  obtain ⟨hroom, info, hinfo, hshown⟩ := entry_of_line h hline
  obtain ⟨o, hopt⟩ := Option.ne_none_iff_exists'.mp haccepted
  obtain ⟨hlisting, hhub⟩ := options_number hopt hk
  rw [← hshown.dev] at hopens ⊢
  apply sendsTo_of_selected hroom hopt hlisting _ hopens
  intro hubs hentries
  exact selected_number hhub (by rw [hentries, hinfo])

/-- `-b` and `-d` with the numbers of a line. -/
theorem sendsTo_device {usb : Usb} {target : Target} {busses : List UsbBus} {s : Found}
    (hnames : Numbered busses) (h : IsListing usb busses s) {dev : UsbDevice} {k : ℕ}
    {dirname : Str} {devnum : UInt8} (hline : PrintedFor s dev k dirname devnum)
    (hopens : target.opens dev = true) {argv : List Str} (haccepted : options argv ≠ none)
    (hb : Given argv 'b' (atoi dirname)) (hd : Given argv 'd' devnum.toNat) :
    SendsTo usb target busses argv dev := by
  obtain ⟨hroom, info, hinfo, hshown⟩ := entry_of_line h hline
  obtain ⟨hbus, -⟩ := pos_of_line hnames h hline
  obtain ⟨o, hopt⟩ := Option.ne_none_iff_exists'.mp haccepted
  obtain ⟨hlisting, hhub, hbusnum, hdevnum⟩ :=
    options_device hopt hb hd (by omega) (Or.inl hbus)
  rw [← hshown.dev] at hopens ⊢
  apply sendsTo_of_selected hroom hopt hlisting _ hopens
  intro hubs hentries
  have hnodup : (hubs.entries.map HubInfo.name).Nodup := by
    rw [hentries]
    exact hnames.nodup.sublist (map_name_foundHubs_sublist usb busses)
  apply selected_device hnodup hhub (hbusnum.trans hshown.busnum.symm)
    (hdevnum.trans hshown.devnum.symm)
  rw [hentries, hinfo]

/-- No line shows the device. -/
def Unlisted (s : Found) (b d : ℤ) : Prop :=
  ∀ dev k dirname devnum, PrintedFor s dev k dirname devnum →
    ¬ (atoi dirname = b ∧ (devnum.toNat : ℤ) = d)

/-- `-b` and `-d` with the numbers of no line. -/
theorem not_sends_device {usb : Usb} {target : Target} {busses : List UsbBus} {s : Found}
    (h : IsListing usb busses s) {b d : ℤ} (hunlisted : Unlisted s b d) {argv : List Str}
    (hb : Given argv 'b' b) (hd : Given argv 'd' d) (hnone : ∀ w, ¬ Has argv 'h' w)
    (hbus : b ≠ 0) (req : Request) : ¬ Sends usb target busses argv req := by
  intro hsends
  obtain ⟨t, argv', o', sent, r, hopt', hlisting', hmain⟩ := h
  obtain ⟨n, hs⟩ := usbFindHubs_of_listing hopt' hlisting' hmain
  obtain ⟨o, n', s', info, hopt, hs', -, -, hsel, -, -⟩ := sends_iff.mp hsends
  obtain ⟨-, hhub, hbusnum, hdevnum⟩ := options_device hopt hb hd hbus (Or.inr hnone)
  obtain ⟨⟨k, hinfo⟩, hb', hd'⟩ := entry_of_selected hhub hsel
  rw [(usbFindHubs_eq_some hs').1, ← (usbFindHubs_eq_some hs).1] at hinfo
  obtain ⟨dev, dirname, devnum, hline, hshown⟩ := exists_printedFor_of_entry hlisting' hs hinfo
  apply hunlisted dev k dirname devnum hline
  exact ⟨by rw [← hshown.busnum, hb', hbusnum], by rw [← hshown.devnum, hd', hdevnum]⟩

/-! ## The words of a line -/

/-- What `%d` prints. -/
def decimal (n : ℕ) : Str := Nat.toDigits 10 n

/-- What `%03d` prints. -/
def decimal3 (n : ℕ) : Str := List.replicate (3 - (decimal n).length) '0' ++ decimal n

/-- A digit is no sign and no space. -/
theorem digit_cases {c : Char} (h : c.isDigit) : isSpace c = false ∧ c ≠ '-' ∧ c ≠ '+' := by
  have hne : ∀ d : Char, d.isDigit = false → c ≠ d := by
    rintro d hd rfl
    rw [hd] at h
    exact absurd h (by decide)
  exact ⟨isSpace_of_isDigit h, hne '-' (by decide), hne '+' (by decide)⟩

/-- `atoi` reads a number that an `int` can hold. -/
theorem atoi_of_isNumber {w : Str} (h : IsNumber w) (hroom : Nat.ofDigitChars 10 w 0 < 2 ^ 31) :
    atoi w = Nat.ofDigitChars 10 w 0 := by
  have hstrtol : strtol w = Nat.ofDigitChars 10 w 0 := by
    obtain ⟨c, w, rfl⟩ := List.exists_cons_of_ne_nil h.1
    obtain ⟨hspace, hminus, hplus⟩ := digit_cases (h.2 c List.mem_cons_self)
    have hall : (c :: w).takeWhile Char.isDigit = c :: w := List.takeWhile_eq_self_iff.mpr h.2
    have hdigits : leadingDigits (c :: w) = Nat.ofDigitChars 10 (c :: w) 0 := by
      rw [leadingDigits, hall, Nat.ofDigitChars_eq_foldl]
    unfold strtol
    rw [List.dropWhile_cons_of_neg (by simp [hspace])]
    split
    · rename_i ds hds
      exact absurd (List.cons.inj hds).1 hminus
    · rename_i ds hds
      exact absurd (List.cons.inj hds).1 hplus
    · rw [hdigits]
      dsimp only
      omega
  rw [atoi, hstrtol]
  apply BitVec.toInt_ofInt_eq_self (by decide) <;> omega

theorem isNumber_decimal (n : ℕ) : IsNumber (decimal n) :=
  ⟨Nat.toDigits_ne_nil, fun _ hc => Nat.isDigit_of_mem_toDigits (by decide) (by decide) hc⟩

theorem atoi_decimal {n : ℕ} (hn : n < 2 ^ 31) : atoi (decimal n) = n := by
  have hvalue : Nat.ofDigitChars 10 (decimal n) 0 = n := Nat.ofDigitChars_ten_toDigits
  rw [atoi_of_isNumber (isNumber_decimal n) (by rwa [hvalue]), hvalue]

theorem atoi_decimal3 {n : ℕ} (hn : n < 2 ^ 31) : atoi (decimal3 n) = n := by
  have hnumber : IsNumber (decimal3 n) := by
    refine ⟨by simp [decimal3, (isNumber_decimal n).1], ?_⟩
    intro c hc
    rcases List.mem_append.mp hc with hzero | hdigit
    · rw [List.eq_of_mem_replicate hzero]
      rfl
    · exact (isNumber_decimal n).2 c hdigit
  have hvalue : Nat.ofDigitChars 10 (decimal3 n) 0 = n := by
    rw [decimal3, Nat.ofDigitChars_append, Nat.ofDigitChars_replicate_zero, Nat.mul_zero, decimal,
      Nat.ofDigitChars_ten_toDigits]
  rw [atoi_of_isNumber hnumber (by rwa [hvalue]), hvalue]

/-- The words that a turn of the loop and the turns after it read. -/
theorem reads_cons {argc : ℕ} {c d : Char} {w v : Str} {o : Options} {args : List Str} :
    Reads argc c w o (('-' :: d :: v) :: args) ↔
      (c = d ∧ ∃ rest, args = w :: rest) ∨
        ∃ r, option argc o d args = some r ∧ Reads argc c w r.1 r.2 := by
  constructor
  · intro h
    cases h with
    | now => exact Or.inl ⟨rfl, _, rfl⟩
    | later hopt h => exact Or.inr ⟨_, hopt, h⟩
  · rintro (⟨rfl, rest, rfl⟩ | ⟨r, hopt, h⟩)
    · exact .now
    · exact .later hopt h

theorem not_reads_nil {argc : ℕ} {c : Char} {w : Str} {o : Options} : ¬ Reads argc c w o [] := by
  intro h
  cases h

/-- `-h w`. -/
theorem given_hub (prog w : Str) : Given [prog, "-h".toList, w] 'h' (atoi w) := by
  refine ⟨⟨w, .now⟩, ?_⟩
  intro v hv
  rcases reads_cons.mp hv with ⟨-, rest, hrest⟩ | ⟨r, hopt, hr⟩
  · rw [(List.cons.inj hrest).1]
  · have hnil : r.2 = [] := by
      rw [← Option.some.inj hopt]
    rw [hnil] at hr
    exact absurd hr not_reads_nil

/-- What is read of `-b b -d d`. -/
theorem has_device {prog b d w : Str} {c : Char} :
    Has [prog, "-b".toList, b, "-d".toList, d] c w ↔ (c = 'b' ∧ b = w) ∨ (c = 'd' ∧ d = w) := by
  have hsecond : option 5 { Options.init 5 with busnum := atoi b } 'd' [d]
      = some ({ Options.init 5 with busnum := atoi b, devnum := atoi d }, []) := rfl
  have hfirst : option 5 (.init 5) 'b' [b, ['-', 'd'], d]
      = some ({ Options.init 5 with busnum := atoi b }, [['-', 'd'], d]) := rfl
  have hinner : Reads 5 c w { Options.init 5 with busnum := atoi b } [['-', 'd'], d] ↔
      c = 'd' ∧ d = w := by
    rw [reads_cons, hsecond]
    simp [not_reads_nil]
  show Reads 5 c w (.init 5) [['-', 'b'], b, ['-', 'd'], d] ↔ _
  rw [reads_cons, hfirst]
  simp only [Option.some.injEq, exists_eq_left', hinner, List.cons.injEq, exists_and_left,
    exists_eq', and_true]

theorem given_device (prog b d : Str) :
    Given [prog, "-b".toList, b, "-d".toList, d] 'b' (atoi b) ∧
      Given [prog, "-b".toList, b, "-d".toList, d] 'd' (atoi d) ∧
      ∀ w, ¬ Has [prog, "-b".toList, b, "-d".toList, d] 'h' w := by
  refine ⟨⟨⟨b, has_device.mpr (by simp)⟩, ?_⟩, ⟨⟨d, has_device.mpr (by simp)⟩, ?_⟩, ?_⟩
  · intro w hw
    have hb : b = w := by simpa using has_device.mp hw
    rw [hb]
  · intro w hw
    have hd : d = w := by simpa using has_device.mp hw
    rw [hd]
  · intro w hw
    exact absurd (has_device.mp hw) (by simp)

/-- `-h w` alone is accepted. -/
theorem options_hub (prog w : Str) : options [prog, "-h".toList, w] ≠ none := by
  have hparse : parseOptions [prog, "-h".toList, w]
      = some { Options.init 3 with hub := atoi w } :=
    parseOptions_commandLine prog [.hub w] (by simp) ⟨fun _ => rfl, trivial⟩
  rw [options, hparse, Option.bind_some, checkOptions, if_neg]
  · simp
  · show ¬ ((0 : ℤ) > 0 ∧ (0 : ℤ) ≤ 0 ∨ (0 : ℤ) ≤ 0 ∧ (0 : ℤ) > 0)
    omega

/-- `-b b -d d` is accepted if both numbers are positive or none is. -/
theorem options_bus (prog : Str) {b d : Str} (h : 0 < atoi b ↔ 0 < atoi d) :
    options [prog, "-b".toList, b, "-d".toList, d] ≠ none := by
  have hparse : parseOptions [prog, "-b".toList, b, "-d".toList, d]
      = some { Options.init 5 with busnum := atoi b, devnum := atoi d } :=
    parseOptions_commandLine prog [.device b d] (by simp) ⟨fun _ => rfl, trivial⟩
  rw [options, hparse, Option.bind_some, checkOptions, if_neg]
  · simp
  · show ¬ (atoi b > 0 ∧ atoi d ≤ 0 ∨ atoi b ≤ 0 ∧ atoi d > 0)
    omega

/-! ## The listing and the two ways to name a hub -/

/-- **The hub of a line**: every accepted command line with `-h k`, or with `-b` and `-d` and
the numbers of the line, sends its request to the device the line was printed for; and so do
the words of the line itself. -/
def NamesLines (usb : Usb) (target : Target) (busses : List UsbBus) (s : Found) : Prop :=
  ∀ dev k dirname devnum, PrintedFor s dev k dirname devnum → target.opens dev = true →
    (∀ argv, options argv ≠ none → Given argv 'h' k → SendsTo usb target busses argv dev) ∧
    (∀ argv, options argv ≠ none → Given argv 'b' (atoi dirname) →
      Given argv 'd' devnum.toNat → SendsTo usb target busses argv dev) ∧
    ∀ prog, SendsTo usb target busses [prog, "-h".toList, decimal k] dev ∧
      SendsTo usb target busses
        [prog, "-b".toList, dirname, "-d".toList, decimal3 devnum.toNat] dev

/-- **A device without a line**: no command line whose `-b` and `-d` are read as its numbers sends
a request. -/
def SilentFor (usb : Usb) (target : Target) (busses : List UsbBus) (s : Found) (b d : ℤ) :
    Prop :=
  Unlisted s b d → ∀ argv, Given argv 'b' b → Given argv 'd' d → (∀ w, ¬ Has argv 'h' w) →
    ∀ req, ¬ Sends usb target busses argv req

/-- **The two ways to name a hub agree with the listing**, except that the bus 0 is no bus. -/
theorem selection_agrees {usb : Usb} {busses : List UsbBus} {s : Found}
    (hnames : Numbered busses) (hlisting : IsListing usb busses s) (target : Target) :
    NamesLines usb target busses s ∧ ∀ b d, b ≠ 0 → SilentFor usb target busses s b d := by
  constructor
  · intro dev k dirname devnum hline hopens
    refine ⟨fun argv => sendsTo_number hlisting hline hopens,
      fun argv => sendsTo_device hnames hlisting hline hopens, fun prog => ⟨?_, ?_⟩⟩
    · have hlt : k < 128 := number_lt_of_line hlisting hline
      have hk := given_hub prog (decimal k)
      rw [atoi_decimal (by omega)] at hk
      exact sendsTo_number hlisting hline hopens (options_hub prog _) hk
    · obtain ⟨hb, hd, -⟩ := given_device prog dirname (decimal3 devnum.toNat)
      have hpos := pos_of_line hnames hlisting hline
      have hvalue : atoi (decimal3 devnum.toNat) = devnum.toNat := by
        have hlt := devnum.toNat_lt
        exact atoi_decimal3 (by omega)
      have hsame : 0 < atoi dirname ↔ 0 < atoi (decimal3 devnum.toNat) := by
        rw [hvalue]
        exact iff_of_true hpos.1 hpos.2
      rw [hvalue] at hd
      exact sendsTo_device hnames hlisting hline hopens (options_bus prog hsame) hb hd
  · intro b d hbus hunlisted argv hb hd hnone req
    exact not_sends_device hlisting hunlisted hb hd hnone hbus req

/-! ## One hub -/

/-- Every hub can be opened again, and answers. -/
def accepting : Target := ⟨fun _ => true, fun _ => 0⟩

/-- The entry of the hub. -/
def oneInfo : HubInfo := ⟨1, 1, ⟨1, usbClassHub, 1⟩, 4, false⟩

theorem selected_oneHub {o : Options} (hhub : o.hub = 0) (hubs : Table HubInfo maxHubs)
    (hentries : hubs.entries = foundHubs answering oneHub) :
    selected hubs o = some oneInfo := by
  apply selected_number (k := 0) hhub
  rw [hentries]
  rfl

/-- What the listing of one hub finds and does. -/
def oneHubListing : Found where
  hubs := ⟨[oneInfo], by decide⟩
  trace := [.opened ⟨1, usbClassHub, 1⟩, .hubLine 0 "001".toList 1,
    .closed ⟨1, usbClassHub, 1⟩]

theorem numbered_oneHub : Numbered oneHub := by
  have hnames : names oneHub = [(1, 1)] := by decide
  constructor
  · rw [hnames]
    exact List.nodup_singleton _
  · rw [hnames]
    simp

theorem isListing_oneHub : IsListing answering oneHub oneHubListing := by
  have hopt : options ["hub-ctrl".toList] = some ⟨0, 0, .power, 1, 0, true, false, 0⟩ := by
    decide +kernel
  refine ⟨accepting, ["hub-ctrl".toList], _, none, 0, hopt, rfl, ?_⟩
  rw [main, hopt]
  rfl

/-- The line `Hub #0 at 001:001`. -/
theorem selection_agrees_oneHub :
    PrintedFor oneHubListing ⟨1, usbClassHub, 1⟩ 0 "001".toList 1 ∧
      NamesLines answering accepting oneHub oneHubListing ∧
      ∀ b d, b ≠ 0 → SilentFor answering accepting oneHub oneHubListing b d :=
  ⟨⟨[], [.closed ⟨1, usbClassHub, 1⟩], rfl⟩,
    selection_agrees numbered_oneHub isListing_oneHub accepting⟩

/-- `-b 0 -d 0` names a device that no line shows, and sends its request to hub 0. -/
theorem not_silentFor :
    ¬ ∀ (usb : Usb) (busses : List UsbBus) (s : Found), Numbered busses →
      IsListing usb busses s → ∀ target : Target,
        NamesLines usb target busses s ∧ ∀ b d, SilentFor usb target busses s b d := by
  intro h
  have hsilent := (h answering oneHub oneHubListing numbered_oneHub isListing_oneHub accepting).2
  have hunlisted : Unlisted oneHubListing 0 0 := by
    rintro dev k dirname devnum hline ⟨hbus, -⟩
    have hpos := pos_of_line numbered_oneHub isListing_oneHub hline
    omega
  have hopt : options ["hub-ctrl".toList, "-b".toList, "0".toList, "-d".toList, "0".toList]
      = some ⟨0, 0, .power, 1, 0, false, false, 0⟩ := by decide +kernel
  obtain ⟨hb, hd, hnone⟩ := given_device "hub-ctrl".toList "0".toList "0".toList
  obtain ⟨req, hsends, -⟩ : SendsTo answering accepting oneHub
      ["hub-ctrl".toList, "-b".toList, "0".toList, "-d".toList, "0".toList]
      oneInfo.dev :=
    sendsTo_of_selected (by decide) hopt rfl (selected_oneHub rfl) rfl
  exact hsilent 0 0 hunlisted _ hb hd hnone req hsends

end UsbHub
