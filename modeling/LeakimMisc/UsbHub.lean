/-
# Finding the hubs on USB

`src/c/usb_hub/hub-ctrl.c`, `usb_find_hubs`: all devices of all buses are visited, the hubs
among them are opened and asked for their hub descriptor, and those with power switching or
port indicators are put into the table `hubs`.

The calls of the USB library are answered by an arbitrary `Usb`.  What a visit adds to the
table is `foundHub`; the whole call adds what its visits add, in order, or writes past the
table (`map_entries_usbFindHubs`).
-/
import LeakimMisc.BoundedTable
import LeakimMisc.PyStr

open PyStr

namespace UsbHub

/-! ## The data -/

/-- `USB_CLASS_HUB`. -/
def usbClassHub : UInt8 := 9

/-- `HUB_CHAR_LPSM`. -/
def hubCharLpsm : UInt8 := 0x03

/-- `HUB_CHAR_PORTIND`. -/
def hubCharPortind : UInt8 := 0x80

/-- `sizeof (struct usb_hub_descriptor)`, a `size_t`. -/
def sizeofHubDescriptor : BitVec 64 := 7

/-- `MAX_HUBS`. -/
abbrev maxHubs : ℕ := 128

/-- A `struct usb_device`; `ptr` is its address. -/
structure UsbDevice where
  ptr : ℕ
  bDeviceClass : UInt8
  devnum : UInt8
  deriving DecidableEq, Repr

/-- A `struct usb_bus`. -/
structure UsbBus where
  dirname : Str
  devices : List UsbDevice
  deriving DecidableEq, Repr

/-- `struct hub_info`. -/
structure HubInfo where
  busnum : ℤ
  devnum : ℤ
  dev : UsbDevice
  nport : ℤ
  indicatorSupport : Bool
  deriving DecidableEq, Repr

/-- The answer to the request for the hub descriptor: the value returned and the buffer. -/
structure Reply where
  ret : BitVec 32
  buf : Fin 1024 → UInt8

/-- The answers of the USB library: whether `usb_open` gives a handle, and the descriptor. -/
structure Usb where
  opens : UsbDevice → Bool
  descriptor : UsbDevice → Reply

/-- The arguments of `usb_find_hubs`. -/
structure Args where
  listing : Bool
  verbose : Bool
  busnum : ℤ
  devnum : ℤ
  hub : ℤ
  deriving DecidableEq, Repr

/-- What `usb_find_hubs` does besides filling the table. -/
inductive Event
  /-- `usb_open` gave a handle. -/
  | opened (dev : UsbDevice)
  /-- `usb_close`. -/
  | closed (dev : UsbDevice)
  /-- The line `Hub #k at dirname:devnum`. -/
  | hubLine (k : ℕ) (dirname : Str) (devnum : UInt8)
  /-- `hub_port_status`. -/
  | portStatus (dev : UsbDevice) (nport : ℤ)
  deriving DecidableEq, Repr

/-- `hubs` and `number_of_hubs_with_feature`, and what was done so far. -/
structure Found where
  hubs : Table HubInfo maxHubs
  trace : List Event

def Found.log (s : Found) (e : List Event) : Found := { s with trace := s.trace ++ e }

/-- Write an entry into the table and count it. -/
def Found.addHub (s : Found) (h : HubInfo) : Option Found :=
  (s.hubs.add h).map fun hubs => { s with hubs := hubs }

@[simp] theorem Found.log_hubs (s : Found) (e : List Event) : (s.log e).hubs = s.hubs := rfl

theorem Found.map_entries_addHub (s : Found) (h : HubInfo) :
    (s.addHub h).map (fun s => s.hubs.entries) = Table.room maxHubs s.hubs.entries [h] := by
  rw [← Table.map_entries_add, addHub, Option.map_map]
  rfl

/-! ## The functions -/

/-- The value of the digits that a text starts with. -/
def leadingDigits (s : Str) : ℕ :=
  (s.takeWhile Char.isDigit).foldl (fun n c => 10 * n + (c.toNat - '0'.toNat)) 0

/-- `strtol` with base 10: what a `long` cannot hold becomes the nearest value that it can. -/
def strtol (s : Str) : ℤ :=
  let n : ℤ :=
    match s.dropWhile isSpace with
    | '-' :: ds => -(leadingDigits ds : ℤ)
    | '+' :: ds => leadingDigits ds
    | ds => leadingDigits ds
  max (-2 ^ 63) (min n (2 ^ 63 - 1))

/-- `atoi`: the `int` that the lower 32 bits of `strtol` are. -/
def atoi (s : Str) : ℤ := (BitVec.ofInt 32 (strtol s)).toInt

/-- `len > sizeof (struct usb_hub_descriptor)`: the `int` is converted to `size_t`. -/
def Reply.isLong (r : Reply) : Bool := sizeofHubDescriptor.ult (r.ret.signExtend 64)

/-- `wHubCharacteristics[0] & HUB_CHAR_PORTIND`. -/
def Reply.portind (r : Reply) : Bool := r.buf 3 &&& hubCharPortind != 0

/-- `wHubCharacteristics[0] & HUB_CHAR_LPSM`. -/
def Reply.lpsm (r : Reply) : UInt8 := r.buf 3 &&& hubCharLpsm

/-- The byte `bNbrPorts` of the descriptor. -/
def Reply.bNbrPorts (r : Reply) : UInt8 := r.buf 2

/-- `nport = buf[2]`; the elements of `buf` are signed. -/
def Reply.nport (r : Reply) : ℤ := (r.buf 2).toBitVec.toInt

/-- The entry that is written for a hub. -/
def hubInfo (bus : UsbBus) (dev : UsbDevice) (r : Reply) : HubInfo where
  busnum := atoi bus.dirname
  devnum := dev.devnum.toNat
  dev := dev
  nport := r.nport
  indicatorSupport := r.portind

/-- The value of `print` for a device. -/
def prints (a : Args) (bus : UsbBus) (dev : UsbDevice) (count : ℕ) : Bool :=
  a.listing || (a.verbose &&
    ((atoi bus.dirname == a.busnum && (dev.devnum.toNat : ℤ) == a.devnum) || a.hub == count))

/-- The body of the loop over the devices of a bus. -/
def visit (usb : Usb) (a : Args) (bus : UsbBus) (s : Found) (dev : UsbDevice) : Option Found :=
  if dev.bDeviceClass ≠ usbClassHub then some s
  else if usb.opens dev then
    let print := prints a bus dev s.hubs.entries.length
    let r := usb.descriptor dev
    let s := s.log [.opened dev]
    if r.isLong then
      -- `continue` without `usb_close`
      if !r.portind && 2 ≤ r.lpsm then some s
      else
        let s := s.log (if print then [.hubLine s.hubs.entries.length bus.dirname dev.devnum]
          else [])
        (s.addHub (hubInfo bus dev r)).map fun s =>
          s.log ((if a.verbose then [.portStatus dev r.nport] else []) ++ [.closed dev])
    else some (s.log [.closed dev])
  else some s

/-- The loop over the buses. -/
def visitBus (usb : Usb) (a : Args) (s : Found) (bus : UsbBus) : Option Found :=
  bus.devices.foldlM (visit usb a bus) s

/-- `usb_find_hubs`; no bus at all is a `NULL` pointer.  The result is the value returned and
the table, and `none` if an entry was written past the table. -/
def usbFindHubs (usb : Usb) (a : Args) (busses : List UsbBus) : Option (ℤ × Found) :=
  if busses = [] then some (-1, ⟨.empty, []⟩)
  else (busses.foldlM (visitBus usb a) ⟨.empty, []⟩).map fun s => (s.hubs.entries.length, s)

/-! ## What the loops add to the table -/

/-- Port indicators or power switching. -/
abbrev Reply.HasFeature (r : Reply) : Prop := r.portind ∨ r.lpsm < 2

/-- What a visit adds to the table. -/
def foundHub (usb : Usb) (bus : UsbBus) (dev : UsbDevice) : List HubInfo :=
  if dev.bDeviceClass = usbClassHub ∧ usb.opens dev ∧ (usb.descriptor dev).isLong ∧
      (usb.descriptor dev).HasFeature then
    [hubInfo bus dev (usb.descriptor dev)]
  else []

theorem foundHub_eq {usb : Usb} {bus : UsbBus} {dev : UsbDevice}
    (h : dev.bDeviceClass = usbClassHub ∧ usb.opens dev ∧ (usb.descriptor dev).isLong ∧
      (usb.descriptor dev).HasFeature) :
    foundHub usb bus dev = [hubInfo bus dev (usb.descriptor dev)] := if_pos h

theorem foundHub_eq_nil {usb : Usb} {bus : UsbBus} {dev : UsbDevice}
    (h : ¬ (dev.bDeviceClass = usbClassHub ∧ usb.opens dev ∧ (usb.descriptor dev).isLong ∧
      (usb.descriptor dev).HasFeature)) :
    foundHub usb bus dev = [] := if_neg h

/-- **A visit adds `foundHub` to the table**, if there is room. -/
theorem map_entries_visit (usb : Usb) (a : Args) (bus : UsbBus) (s : Found) (dev : UsbDevice) :
    (visit usb a bus s dev).map (fun s => s.hubs.entries)
      = Table.room maxHubs s.hubs.entries (foundHub usb bus dev) := by
  rw [visit]
  by_cases hclass : dev.bDeviceClass = usbClassHub
  · rw [if_neg (not_not_intro hclass)]
    by_cases hopen : usb.opens dev
    · rw [if_pos hopen]
      by_cases hlong : (usb.descriptor dev).isLong
      · rw [if_pos hlong]
        by_cases hfilter : (usb.descriptor dev).HasFeature
        · rw [if_neg, foundHub_eq ⟨hclass, hopen, hlong, hfilter⟩, Option.map_map]
          · exact Found.map_entries_addHub _ _
          · rcases hfilter with h | h <;> simp [h]
        · rw [if_pos, foundHub_eq_nil (fun h => hfilter h.2.2.2), Table.room_nil]
          · rfl
          · simpa using hfilter
      · rw [if_neg hlong, foundHub_eq_nil (fun h => hlong h.2.2.1), Table.room_nil]
        rfl
    · rw [if_neg hopen, foundHub_eq_nil (fun h => hopen h.2.1), Table.room_nil]
      rfl
  · rw [if_pos hclass, foundHub_eq_nil (fun h => hclass h.1), Table.room_nil]
    rfl

theorem map_entries_visitBus (usb : Usb) (a : Args) (s : Found) (bus : UsbBus) :
    (visitBus usb a s bus).map (fun s => s.hubs.entries)
      = Table.room maxHubs s.hubs.entries (bus.devices.flatMap (foundHub usb bus)) :=
  Table.foldlM_entries (map_entries_visit usb a bus) bus.devices s

/-- What all visits add, in the order of the buses and their devices. -/
def foundHubs (usb : Usb) (busses : List UsbBus) : List HubInfo :=
  busses.flatMap fun bus => bus.devices.flatMap (foundHub usb bus)

/-- **The table after `usb_find_hubs`.** -/
theorem map_entries_usbFindHubs (usb : Usb) (a : Args) (busses : List UsbBus) :
    (usbFindHubs usb a busses).map (fun r => r.2.hubs.entries)
      = Table.room maxHubs [] (foundHubs usb busses) := by
  rw [usbFindHubs]
  by_cases h : busses = []
  · rw [if_pos h, h]
    rfl
  · rw [if_neg h, Option.map_map]
    exact Table.foldlM_entries (map_entries_visitBus usb a) busses ⟨.empty, []⟩

end UsbHub
