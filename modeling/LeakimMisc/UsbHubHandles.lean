/-
# The handles and the entries of `usb_find_hubs`

A visit of a device in `usb_find_hubs` leaves the loop body in one of four ways (`Visited`).
All of them but one close the handle that was opened: a hub without power switching and port
indicators is left by a `continue` with its handle open (`closesHandles_iff`).

The index at which an entry is written is not compared with `MAX_HUBS`: the writes stay inside
the table exactly if there are few enough hubs to be entered (`staysInside_iff`).
-/
import Mathlib.Data.Multiset.AddSub
import LeakimMisc.UsbHubTable
import LeakimMisc.HubCtrl

open PyStr

namespace UsbHub

/-! ## The ways through the loop body -/

/-- The device is a hub and gives a handle. -/
abbrev Opened (usb : Usb) (dev : UsbDevice) : Prop :=
  dev.bDeviceClass = usbClassHub ∧ usb.opens dev

/-- The descriptor is taken for a long one, and the hub has something to control. -/
abbrev Qualifies (usb : Usb) (dev : UsbDevice) : Prop :=
  Opened usb dev ∧ (usb.descriptor dev).isLong ∧ (usb.descriptor dev).HasFeature

/-- The descriptor is taken for a long one, and the hub has nothing to control. -/
abbrev Featureless (usb : Usb) (dev : UsbDevice) : Prop :=
  Opened usb dev ∧ (usb.descriptor dev).isLong ∧ ¬ (usb.descriptor dev).HasFeature

theorem foundHub_of_qualifies {usb : Usb} {bus : UsbBus} {dev : UsbDevice}
    (h : Qualifies usb dev) :
    foundHub usb bus dev = [hubInfo bus dev (usb.descriptor dev)] :=
  foundHub_eq ⟨h.1.1, h.1.2, h.2⟩

theorem foundHub_of_not_qualifies {usb : Usb} {bus : UsbBus} {dev : UsbDevice}
    (h : ¬ Qualifies usb dev) : foundHub usb bus dev = [] :=
  foundHub_eq_nil fun hf => h ⟨⟨hf.1, hf.2.1⟩, hf.2.2⟩

/-- What is printed for a hub before it is entered as number `k`. -/
def label (a : Args) (bus : UsbBus) (dev : UsbDevice) (k : ℕ) : List Event :=
  if prints a bus dev k then [.hubLine k bus.dirname dev.devnum] else []

/-- What is done with a hub after it was entered. -/
def leave (usb : Usb) (a : Args) (dev : UsbDevice) : List Event :=
  (if a.verbose then [.portStatus dev (usb.descriptor dev).nport] else []) ++ [.closed dev]

/-- The ways through the loop body, from a state to the next one. -/
inductive Visited (usb : Usb) (a : Args) (bus : UsbBus) (dev : UsbDevice) (s : Found) :
    Found → Prop
  /-- No hub, or no handle. -/
  | skipped (h : ¬ Opened usb dev) : Visited usb a bus dev s s
  /-- No descriptor, or a short one. -/
  | short (hopen : Opened usb dev) (hshort : ¬ (usb.descriptor dev).isLong) :
      Visited usb a bus dev s (s.log [.opened dev, .closed dev])
  /-- Nothing to control. -/
  | featureless (h : Featureless usb dev) : Visited usb a bus dev s (s.log [.opened dev])
  /-- The hub is entered. -/
  | entered (h : Qualifies usb dev) (hubs : Table HubInfo maxHubs)
      (hadd : s.hubs.add (hubInfo bus dev (usb.descriptor dev)) = some hubs) :
      Visited usb a bus dev s
        ⟨hubs, s.trace ++ (.opened dev :: (label a bus dev s.hubs.entries.length
          ++ leave usb a dev))⟩

/-- **The ways through the loop body.** -/
theorem visited_of_visit {usb : Usb} {a : Args} {bus : UsbBus} {s t : Found} {dev : UsbDevice}
    (h : visit usb a bus s dev = some t) : Visited usb a bus dev s t := by
  unfold visit at h
  by_cases hopen : Opened usb dev
  · rw [if_neg (not_not_intro hopen.1), if_pos hopen.2] at h
    dsimp only at h
    by_cases hlong : (usb.descriptor dev).isLong
    · rw [if_pos hlong] at h
      by_cases hfeature : (usb.descriptor dev).HasFeature
      · rw [if_neg (by rcases hfeature with h | h <;> simp [h])] at h
        obtain ⟨u, hadd, hu⟩ := Option.map_eq_some_iff.mp h
        obtain ⟨hubs, hhubs, rfl⟩ := Option.map_eq_some_iff.mp hadd
        rw [← hu]
        have hentered := Visited.entered (a := a) (s := s) ⟨hopen, hlong, hfeature⟩
          hubs hhubs
        simpa [Found.log, label, leave] using hentered
      · rw [if_pos (by simpa using hfeature)] at h
        rw [← Option.some.inj h]
        exact .featureless ⟨hopen, hlong, hfeature⟩
    · rw [if_neg hlong] at h
      rw [← Option.some.inj h]
      have hshort : Visited usb a bus dev s (s.log [.opened dev, .closed dev]) :=
        .short hopen hlong
      simpa [Found.log] using hshort
  · have hskip : some s = some t := by
      by_cases hclass : dev.bDeviceClass = usbClassHub
      · rwa [if_neg (not_not_intro hclass), if_neg fun ho => hopen ⟨hclass, ho⟩] at h
      · rwa [if_pos hclass] at h
    rw [← Option.some.inj hskip]
    exact .skipped hopen

/-! ## The handles -/

/-- The handles that are open after some events; `none` if one is closed that is not open. -/
def handles (h : Multiset UsbDevice) : List Event → Option (Multiset UsbDevice)
  | [] => some h
  | .opened dev :: es => handles (dev ::ₘ h) es
  | .closed dev :: es => if dev ∈ h then handles (h.erase dev) es else none
  | .hubLine _ _ _ :: es => handles h es
  | .portStatus _ _ :: es => handles h es

theorem handles_append (h : Multiset UsbDevice) (es fs : List Event) :
    handles h (es ++ fs) = (handles h es).bind fun k => handles k fs := by
  induction es generalizing h with
  | nil => rfl
  | cons e es ih =>
    cases e with
    | opened dev => exact ih _
    | closed dev =>
      rw [List.cons_append, handles, handles]
      by_cases hmem : dev ∈ h
      · rw [if_pos hmem, if_pos hmem, ih]
      · rw [if_neg hmem, if_neg hmem]
        rfl
    | hubLine k dirname devnum => exact ih h
    | portStatus dev nport => exact ih h

/-- A handle that is opened and then closed, with nothing in between but output. -/
theorem handles_leave (usb : Usb) (a : Args) (bus : UsbBus) (dev : UsbDevice) (k : ℕ)
    (h : Multiset UsbDevice) :
    handles h (.opened dev :: (label a bus dev k ++ leave usb a dev)) = some h := by
  have hclose : ∀ es : List Event, handles (dev ::ₘ h) (es ++ [.closed dev])
      = (handles (dev ::ₘ h) es).bind fun k => handles k [.closed dev] :=
    fun es => handles_append _ es _
  have hlast : handles (dev ::ₘ h) [.closed dev] = some h := by simp [handles]
  rw [handles, leave, ← List.append_assoc, hclose, handles_append]
  unfold label
  split_ifs <;> simp [handles]

/-- What stays open after the devices were visited. -/
def leftOpen (usb : Usb) (devs : List UsbDevice) : Multiset UsbDevice :=
  (devs.filter fun dev => Featureless usb dev : List UsbDevice)

theorem leftOpen_append (usb : Usb) (devs devs' : List UsbDevice) :
    leftOpen usb (devs ++ devs') = leftOpen usb devs + leftOpen usb devs' := by
  simp [leftOpen]

theorem leftOpen_eq_zero_iff {usb : Usb} {devs : List UsbDevice} :
    leftOpen usb devs = 0 ↔ ∀ dev ∈ devs, ¬ Featureless usb dev := by
  rw [leftOpen, Multiset.coe_eq_zero, List.filter_eq_nil_iff]
  simp

/-- **One visit**: the handle stays open exactly if the hub has nothing to control. -/
theorem handles_visit {usb : Usb} {a : Args} {bus : UsbBus} {s t : Found} {dev : UsbDevice}
    {h k : Multiset UsbDevice} (hs : handles h s.trace = some k)
    (ht : visit usb a bus s dev = some t) :
    handles h t.trace = some (k + leftOpen usb [dev]) := by
  have hstep : ∀ es, handles h (s.trace ++ es) = handles k es := by
    intro es
    rw [handles_append, hs, Option.bind_some]
  have hclosed : ¬ Featureless usb dev → some k = some (k + leftOpen usb [dev]) := by
    intro hnot
    rw [leftOpen_eq_zero_iff.mpr (by simpa using hnot), add_zero]
  cases visited_of_visit ht with
  | skipped hnot =>
    rw [hs]
    exact hclosed fun hf => hnot hf.1
  | short hopen hshort =>
    have hpair : handles k [.opened dev, .closed dev] = some k := by simp [handles]
    rw [Found.log, hstep, hpair]
    exact hclosed fun hf => hshort hf.2.1
  | featureless hf =>
    have hleft : leftOpen usb [dev] = {dev} := by
      rw [leftOpen, List.filter_singleton, decide_eq_true hf]
      rfl
    rw [Found.log, hstep, handles, handles, hleft, add_comm, Multiset.singleton_add]
  | entered hq hubs hadd =>
    rw [hstep, handles_leave]
    exact hclosed fun hf => hf.2.2 hq.2.2

/-- **All visits.** -/
theorem handles_usbFindHubs {usb : Usb} {a : Args} {busses : List UsbBus} {n : ℤ} {s : Found}
    (h : Multiset UsbDevice) (hs : usbFindHubs usb a busses = some (n, s)) :
    handles h s.trace = some (h + leftOpen usb (busses.flatMap UsbBus.devices)) := by
  unfold usbFindHubs at hs
  split_ifs at hs with hnil
  · obtain ⟨-, rfl⟩ := Prod.mk.inj (Option.some.inj hs)
    rw [hnil]
    simp [handles, leftOpen]
  · obtain ⟨u, hu, hpair⟩ := Option.map_eq_some_iff.mp hs
    obtain ⟨-, rfl⟩ := Prod.mk.inj hpair
    refine Table.foldlM_induction (I := fun (bs : List UsbBus) (u : Found) =>
      handles h u.trace = some (h + leftOpen usb (bs.flatMap UsbBus.devices))) ?_ ?_ hu
    · intro bs u bus v hbs hv
      rw [List.flatMap_append, List.flatMap_singleton, leftOpen_append, ← add_assoc]
      refine Table.foldlM_induction (I := fun (devs : List UsbDevice) (u : Found) =>
        handles h u.trace
          = some (h + leftOpen usb (bs.flatMap UsbBus.devices) + leftOpen usb devs)) ?_ ?_ hv
      · intro devs u dev v hdevs hv
        rw [leftOpen_append, ← add_assoc]
        exact handles_visit hdevs hv
      · simpa [leftOpen] using hbs
    · simp [handles, leftOpen]

/-! ## The number of entries -/

/-- How many hubs are to be entered. -/
def qualifying (usb : Usb) (busses : List UsbBus) : ℕ :=
  (busses.flatMap UsbBus.devices).countP fun dev => Qualifies usb dev

theorem length_foundHub (usb : Usb) (bus : UsbBus) (dev : UsbDevice) :
    (foundHub usb bus dev).length = [dev].countP fun dev => Qualifies usb dev := by
  rw [List.countP_singleton]
  by_cases h : Qualifies usb dev
  · rw [foundHub_of_qualifies h, decide_eq_true h]
    rfl
  · rw [foundHub_of_not_qualifies h, decide_eq_false h]
    rfl

theorem length_flatMap_foundHub (usb : Usb) (bus : UsbBus) (devs : List UsbDevice) :
    (devs.flatMap (foundHub usb bus)).length = devs.countP fun dev => Qualifies usb dev := by
  induction devs with
  | nil => rfl
  | cons dev devs ih =>
    rw [List.flatMap_cons, List.length_append, length_foundHub, ih, ← List.countP_append]
    rfl

theorem length_foundHubs (usb : Usb) (busses : List UsbBus) :
    (foundHubs usb busses).length = qualifying usb busses := by
  induction busses with
  | nil => rfl
  | cons bus busses ih =>
    rw [foundHubs, List.flatMap_cons, List.length_append, length_flatMap_foundHub,
      qualifying, List.flatMap_cons, List.countP_append]
    exact congrArg _ ih

/-- `usb_find_hubs` returns exactly if the hubs to be entered fit into the table. -/
theorem exists_usbFindHubs_iff {usb : Usb} {a : Args} {busses : List UsbBus} :
    (∃ n s, usbFindHubs usb a busses = some (n, s)) ↔ qualifying usb busses ≤ maxHubs := by
  have hmap := map_entries_usbFindHubs usb a busses
  rw [← length_foundHubs]
  constructor
  · rintro ⟨n, s, hs⟩
    rw [hs] at hmap
    exact (Table.room_eq_some_iff.mp hmap.symm).1
  · intro hle
    rw [Table.room_eq_some_iff.mpr ⟨hle, rfl⟩] at hmap
    obtain ⟨⟨n, s⟩, hs, -⟩ := Option.map_eq_some_iff.mp hmap
    exact ⟨n, s, hs⟩

theorem usbFindHubs_eq_some {usb : Usb} {a : Args} {busses : List UsbBus} {n : ℤ} {s : Found}
    (hs : usbFindHubs usb a busses = some (n, s)) :
    s.hubs.entries = foundHubs usb busses ∧ n ≤ s.hubs.entries.length ∧
      (0 < s.hubs.entries.length → 0 < n) := by
  have hmap := map_entries_usbFindHubs usb a busses
  rw [hs] at hmap
  refine ⟨(Table.room_eq_some_iff.mp hmap.symm).2, ?_⟩
  unfold usbFindHubs at hs
  split_ifs at hs with hnil
  · obtain ⟨rfl, rfl⟩ := Prod.mk.inj (Option.some.inj hs)
    exact ⟨by simp, fun hpos => absurd hpos (by simp)⟩
  · obtain ⟨u, -, hpair⟩ := Option.map_eq_some_iff.mp hs
    obtain ⟨rfl, rfl⟩ := Prod.mk.inj hpair
    exact ⟨le_rfl, fun hpos => by omega⟩

/-! ## Every handle is closed -/

/-- **Every handle is closed exactly once**: `usb_find_hubs` returns, every `usb_close` is of a
handle that is open, and the open handles are the same before and after. -/
def ClosesHandles (usb : Usb) (a : Args) (busses : List UsbBus) : Prop :=
  ∃ n s, usbFindHubs usb a busses = some (n, s) ∧ ∀ h, handles h s.trace = some h

/-- **When every handle is closed**: exactly if no hub that was opened has a long descriptor
without features, and the others fit into the table. -/
theorem closesHandles_iff (usb : Usb) (a : Args) (busses : List UsbBus) :
    ClosesHandles usb a busses ↔
      (∀ bus ∈ busses, ∀ dev ∈ bus.devices, ¬ Featureless usb dev) ∧
        qualifying usb busses ≤ maxHubs := by
  have hleft : leftOpen usb (busses.flatMap UsbBus.devices) = 0 ↔
      ∀ bus ∈ busses, ∀ dev ∈ bus.devices, ¬ Featureless usb dev := by
    rw [leftOpen_eq_zero_iff]
    simp only [List.mem_flatMap, forall_exists_index, and_imp]
    exact ⟨fun h bus hbus dev hdev => h dev bus hbus hdev,
      fun h dev bus hbus hdev => h bus hbus dev hdev⟩
  rw [← hleft, ← exists_usbFindHubs_iff (a := a)]
  constructor
  · rintro ⟨n, s, hs, hclosed⟩
    refine ⟨?_, n, s, hs⟩
    have hzero := (handles_usbFindHubs 0 hs).symm.trans (hclosed 0)
    rwa [zero_add, Option.some.injEq] at hzero
  · rintro ⟨hzero, n, s, hs⟩
    refine ⟨n, s, hs, fun h => ?_⟩
    rw [handles_usbFindHubs h hs, hzero, add_zero]

/-- The hub has four ports, no power switching and no port indicators. -/
def featureless : Usb :=
  ⟨fun _ => true, fun _ => ⟨9, fun i => if i.val = 2 then 4 else if i.val = 3 then 2 else 0⟩⟩

/-- The handle of the hub stays open. -/
theorem not_closesHandles : ¬ ClosesHandles featureless listing oneHub := by
  rw [closesHandles_iff]
  rintro ⟨hnone, -⟩
  exact hnone ⟨"001".toList, [⟨1, usbClassHub, 1⟩]⟩ (by decide) ⟨1, usbClassHub, 1⟩ (by decide)
    (by decide)

/-! ## Every entry is inside the table -/

/-- **All writes and reads are inside the table**: `usb_find_hubs` wrote no entry past it, its
counter is at most `MAX_HUBS`, and `get_hub` and `main` read entries that were written. -/
def StaysInside (usb : Usb) (a : Args) (busses : List UsbBus) : Prop :=
  ∃ n s, usbFindHubs usb a busses = some (n, s) ∧ n ≤ maxHubs ∧
    (∀ busnum devnum, getHub s.hubs busnum devnum < s.hubs.entries.length) ∧
    ∀ o info, selected s.hubs o = some info → info ∈ s.hubs.entries

theorem getHub_lt (hubs : Table HubInfo maxHubs) (busnum devnum : ℤ) :
    getHub hubs busnum devnum < hubs.entries.length := by
  unfold getHub
  split
  · rename_i i hi
    obtain ⟨hlt, -⟩ := List.findIdx?_eq_some_iff_getElem.mp hi
    omega
  · omega

theorem mem_of_selected {hubs : Table HubInfo maxHubs} {o : Options} {info : HubInfo}
    (h : selected hubs o = some info) : info ∈ hubs.entries := by
  unfold selected at h
  dsimp only at h
  split_ifs at h <;> exact List.mem_of_getElem? h

/-- **When all writes and reads are inside the table**: exactly if at most `MAX_HUBS` hubs are
to be entered. -/
theorem staysInside_iff (usb : Usb) (a : Args) (busses : List UsbBus) :
    StaysInside usb a busses ↔ qualifying usb busses ≤ maxHubs := by
  rw [← exists_usbFindHubs_iff (a := a)]
  constructor
  · rintro ⟨n, s, hs, -⟩
    exact ⟨n, s, hs⟩
  · rintro ⟨n, s, hs⟩
    have hfits := s.hubs.fits
    have hcount := (usbFindHubs_eq_some hs).2.1
    refine ⟨n, s, hs, by omega, ?_, ?_⟩
    · exact getHub_lt s.hubs
    · exact fun o info => mem_of_selected

/-- Two buses with 65 and 64 hubs. -/
def manyHubs : List UsbBus :=
  [⟨"001".toList, (List.range 65).map fun i => ⟨i, usbClassHub, .ofNat (i + 1)⟩⟩,
    ⟨"002".toList, (List.range 64).map fun i => ⟨i + 65, usbClassHub, .ofNat (i + 1)⟩⟩]

/-- The last of the hubs is written past the table. -/
theorem not_staysInside : ¬ StaysInside answering listing manyHubs := by
  rw [staysInside_iff]
  -- the descriptor is the same for all devices
  have hfirst : (answering.descriptor ⟨0, usbClassHub, 1⟩).isLong ∧
      (answering.descriptor ⟨0, usbClassHub, 1⟩).HasFeature := by decide
  have hall : ∀ dev ∈ manyHubs.flatMap UsbBus.devices, Qualifies answering dev := by
    intro dev hdev
    have hclass : dev.bDeviceClass = usbClassHub := by
      simp only [manyHubs, List.flatMap_cons, List.flatMap_nil, List.append_nil,
        List.mem_append, List.mem_map] at hdev
      rcases hdev with ⟨i, -, rfl⟩ | ⟨i, -, rfl⟩ <;> rfl
    exact ⟨⟨hclass, rfl⟩, hfirst⟩
  rw [qualifying, List.countP_eq_length.mpr fun dev hdev => decide_eq_true (hall dev hdev)]
  simp [manyHubs]

end UsbHub
