/-
# The table of hubs

Which entries `usb_find_hubs` should write, and when it does.  A negative error code is
converted to a large `size_t`, so a failed request counts as a long answer, and a number of
ports from 128 on is read as a negative one (`listsHubs_iff`).
-/
import LeakimMisc.ListPieces
import LeakimMisc.UsbHub

open PyStr

namespace UsbHub

/-- The entry a device should have: it is a hub, it was opened, more than the fixed part of
the descriptor was read, and it has a feature to control. -/
def expectedHub (usb : Usb) (bus : UsbBus) (dev : UsbDevice) : List HubInfo :=
  if dev.bDeviceClass = usbClassHub ∧ usb.opens dev ∧
      sizeofHubDescriptor.toInt < (usb.descriptor dev).ret.toInt ∧
      (usb.descriptor dev).HasFeature then
    [{ busnum := atoi bus.dirname
       devnum := dev.devnum.toNat
       dev := dev
       nport := (usb.descriptor dev).bNbrPorts.toNat
       indicatorSupport := (usb.descriptor dev).portind }]
  else []

/-- The entries the table should have. -/
def expectedHubs (usb : Usb) (busses : List UsbBus) : List HubInfo :=
  busses.flatMap fun bus => bus.devices.flatMap (expectedHub usb bus)

/-- `usb_find_hubs` returns, with exactly the expected entries in the table. -/
def ListsHubs (usb : Usb) (a : Args) (busses : List UsbBus) : Prop :=
  ∃ n s, usbFindHubs usb a busses = some (n, s) ∧ s.hubs.entries = expectedHubs usb busses

/-- Neither conversion changes the value: a failed request left a buffer without features, and
the number of ports of a hub is below 128. -/
def Reply.NoWrap (r : Reply) : Prop :=
  (r.ret.toInt < 0 → ¬ r.HasFeature) ∧
    (sizeofHubDescriptor.toInt < r.ret.toInt → r.HasFeature → r.bNbrPorts.toNat < 128)

/-! ## The conversions -/

/-- The comparison of an `int` with a `size_t`. -/
theorem Reply.isLong_iff (r : Reply) :
    r.isLong ↔ r.ret.toInt < 0 ∨ sizeofHubDescriptor.toInt < r.ret.toInt := by
  have hext : (r.ret.signExtend 64).toInt = r.ret.toInt :=
    BitVec.toInt_signExtend_of_le (by decide)
  have hmin := BitVec.le_toInt r.ret
  rw [BitVec.toInt_eq_toNat_cond] at hext
  have hlt := (r.ret.signExtend 64).isLt
  have hseven : sizeofHubDescriptor.toInt = 7 := by decide
  have hseven' : sizeofHubDescriptor.toNat = 7 := by decide
  rw [Reply.isLong, BitVec.ult, decide_eq_true_iff, hseven, hseven']
  split at hext <;> omega

/-- A signed byte and an unsigned one are the same number below 128 only. -/
theorem Reply.nport_eq_iff (r : Reply) :
    r.nport = r.bNbrPorts.toNat ↔ r.bNbrPorts.toNat < 128 := by
  have hlt := r.bNbrPorts.toNat_lt
  show r.bNbrPorts.toBitVec.toInt = _ ↔ _
  rw [BitVec.toInt_eq_toNat_cond, UInt8.toNat_toBitVec]
  split <;> omega

/-! ## One device -/

theorem expectedHub_eq_nil {usb : Usb} {bus : UsbBus} {dev : UsbDevice}
    (h : ¬ (dev.bDeviceClass = usbClassHub ∧ usb.opens dev ∧
      sizeofHubDescriptor.toInt < (usb.descriptor dev).ret.toInt ∧
      (usb.descriptor dev).HasFeature)) : expectedHub usb bus dev = [] := if_neg h

/-- A long answer: both entries are written, and they differ in the number of ports at most. -/
theorem expectedHub_eq_foundHub_of_long {usb : Usb} {bus : UsbBus} {dev : UsbDevice}
    (hclass : dev.bDeviceClass = usbClassHub) (hopen : usb.opens dev)
    (hlong : sizeofHubDescriptor.toInt < (usb.descriptor dev).ret.toInt)
    (hfeature : (usb.descriptor dev).HasFeature) :
    expectedHub usb bus dev = foundHub usb bus dev ↔
      (usb.descriptor dev).bNbrPorts.toNat < 128 := by
  rw [← Reply.nport_eq_iff, expectedHub, if_pos ⟨hclass, hopen, hlong, hfeature⟩,
    foundHub_eq ⟨hclass, hopen, (Reply.isLong_iff _).mpr (.inr hlong), hfeature⟩, hubInfo]
  simp [eq_comm]

theorem length_expectedHub_le (usb : Usb) (bus : UsbBus) (dev : UsbDevice) :
    (expectedHub usb bus dev).length ≤ (foundHub usb bus dev).length := by
  rw [expectedHub]
  split
  · rename_i h
    rw [foundHub_eq ⟨h.1, h.2.1, (Reply.isLong_iff _).mpr (.inr h.2.2.1), h.2.2.2⟩]
    exact le_rfl
  · exact Nat.zero_le _

/-- A device gets the entry it should have exactly if no conversion changes a value. -/
theorem expectedHub_eq_foundHub_iff (usb : Usb) (bus : UsbBus) (dev : UsbDevice) :
    expectedHub usb bus dev = foundHub usb bus dev ↔
      (dev.bDeviceClass = usbClassHub → usb.opens dev → (usb.descriptor dev).NoWrap) := by
  have hseven : sizeofHubDescriptor.toInt = 7 := by decide
  by_cases hopen : dev.bDeviceClass = usbClassHub ∧ usb.opens dev
  · by_cases hfeature : (usb.descriptor dev).HasFeature
    · rcases lt_or_ge (usb.descriptor dev).ret.toInt 0 with hneg | hnonneg
      · -- a failed request is found, but not expected
        rw [expectedHub_eq_nil (fun h => by omega),
          foundHub_eq ⟨hopen.1, hopen.2, (Reply.isLong_iff _).mpr (.inl hneg), hfeature⟩]
        constructor
        · intro h
          exact absurd h (by simp)
        · intro h
          exact absurd hfeature ((h hopen.1 hopen.2).1 hneg)
      · have hnonneg' : ¬ (usb.descriptor dev).ret.toInt < 0 := by omega
        by_cases hlong : sizeofHubDescriptor.toInt < (usb.descriptor dev).ret.toInt
        · rw [expectedHub_eq_foundHub_of_long hopen.1 hopen.2 hlong hfeature]
          constructor
          · exact fun h _ _ => ⟨fun hneg => absurd hneg hnonneg', fun _ _ => h⟩
          · exact fun h => (h hopen.1 hopen.2).2 hlong hfeature
        · have hshort : ¬ (usb.descriptor dev).isLong := by
            rw [Reply.isLong_iff]
            exact not_or.mpr ⟨hnonneg', hlong⟩
          rw [expectedHub_eq_nil (fun h => hlong h.2.2.1),
            foundHub_eq_nil (fun h => hshort h.2.2.1)]
          exact ⟨fun _ _ _ => ⟨fun hneg => absurd hneg hnonneg', fun h => absurd h hlong⟩,
            fun _ => rfl⟩
    · rw [expectedHub_eq_nil (fun h => hfeature h.2.2.2),
        foundHub_eq_nil (fun h => hfeature h.2.2.2)]
      exact ⟨fun _ _ _ => ⟨fun _ => hfeature, fun _ h => absurd h hfeature⟩, fun _ => rfl⟩
  · rw [expectedHub_eq_nil (fun h => hopen ⟨h.1, h.2.1⟩),
      foundHub_eq_nil (fun h => hopen ⟨h.1, h.2.1⟩)]
    exact ⟨fun _ hc ho => absurd ⟨hc, ho⟩ hopen, fun _ => rfl⟩

/-! ## All devices -/

/-- The whole table is as expected exactly if each entry is. -/
theorem expectedHubs_eq_foundHubs_iff (usb : Usb) (busses : List UsbBus) :
    expectedHubs usb busses = foundHubs usb busses ↔
      ∀ bus ∈ busses, ∀ dev ∈ bus.devices, expectedHub usb bus dev = foundHub usb bus dev := by
  constructor
  · intro h bus hbus
    apply Pieces.eq_of_flatMap_eq fun dev _ => length_expectedHub_le usb bus dev
    apply Pieces.eq_of_flatMap_eq _ h bus hbus
    intro bus _
    rw [List.length_flatMap, List.length_flatMap]
    exact List.sum_le_sum fun dev _ => length_expectedHub_le usb bus dev
  · intro h
    apply List.flatMap_congr
    intro bus hbus
    exact List.flatMap_congr (h bus hbus)

theorem listsHubs_iff_eq {usb : Usb} {busses : List UsbBus}
    (hmax : (expectedHubs usb busses).length ≤ maxHubs) (a : Args) :
    ListsHubs usb a busses ↔ expectedHubs usb busses = foundHubs usb busses := by
  have hfind := map_entries_usbFindHubs usb a busses
  constructor
  · rintro ⟨n, s, hs, hentries⟩
    rw [hs] at hfind
    rw [← hentries]
    exact (Table.room_eq_some_iff.mp hfind.symm).2
  · intro h
    rw [Table.room_eq_some_iff.mpr ⟨by rwa [List.nil_append, ← h], h⟩] at hfind
    obtain ⟨⟨n, s⟩, hs, hentries⟩ := Option.map_eq_some_iff.mp hfind
    exact ⟨n, s, hs, hentries⟩

/-- **The table is exactly as expected** if and only if no device that was opened has an
answer that a conversion changes. -/
theorem listsHubs_iff (usb : Usb) (a : Args) (busses : List UsbBus)
    (hmax : (expectedHubs usb busses).length ≤ maxHubs) :
    ListsHubs usb a busses ↔ ∀ bus ∈ busses, ∀ dev ∈ bus.devices,
      dev.bDeviceClass = usbClassHub → usb.opens dev → (usb.descriptor dev).NoWrap := by
  rw [listsHubs_iff_eq hmax, expectedHubs_eq_foundHubs_iff]
  simp only [expectedHub_eq_foundHub_iff]

/-! ## A failed request -/

/-- One bus with one hub. -/
def oneHub : List UsbBus := [⟨"001".toList, [⟨1, usbClassHub, 1⟩]⟩]

/-- The request for the descriptor fails; the buffer is not written. -/
def failing : Usb := ⟨fun _ => true, fun _ => ⟨-1, fun _ => 0⟩⟩

/-- The request succeeds: four ports, ganged switching. -/
def answering : Usb := ⟨fun _ => true, fun _ => ⟨9, fun i => if i.val = 2 then 4 else 0⟩⟩

/-- A plain listing. -/
def listing : Args := ⟨true, false, 0, 0, 0⟩

theorem listsHubs_answering :
    (expectedHubs answering oneHub).length ≤ maxHubs ∧ ListsHubs answering listing oneHub := by
  have hmax : (expectedHubs answering oneHub).length ≤ maxHubs := by decide
  refine ⟨hmax, (listsHubs_iff answering listing oneHub hmax).mpr ?_⟩
  intro bus _ dev _ _ _
  refine ⟨fun h => ?_, fun _ _ => ?_⟩
  · exact absurd h (show ¬ (9 : BitVec 32).toInt < 0 by decide)
  · show (4 : UInt8).toNat < 128
    decide

/-- The hub whose request failed is in the table, with no port. -/
theorem not_listsHubs_failing :
    (expectedHubs failing oneHub).length ≤ maxHubs ∧ ¬ ListsHubs failing listing oneHub := by
  have hmax : (expectedHubs failing oneHub).length ≤ maxHubs := by decide
  refine ⟨hmax, fun h => ?_⟩
  rw [listsHubs_iff_eq hmax] at h
  exact absurd h (by decide)

end UsbHub
