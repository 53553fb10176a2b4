/-
# The index of the request

The request that `main` of `src/c/usb_hub/hub-ctrl.c` sends names a port of the selected hub,
and for `-l` a colour of its indicator, in one `int`: the value is shifted to the high byte and
the port is put below it.  The library sends the low 16 bits.  Neither number is checked, though
the hub is: the index is what was asked for exactly if both fit (`addresses_iff`).
-/
import LeakimMisc.HubCtrlSelection

open PyStr

namespace UsbHub

/-! ## Ports and values -/

/-- The 16 bits of the index that are sent. -/
def Request.wIndex (req : Request) : BitVec 16 := req.index.setWidth 16

/-- The value of `-l`, and 0 for `-p`. -/
def Options.ledValue (o : Options) : ℤ := if o.cmd = .power then 0 else o.value

/-- **The request addresses what was asked for**: a port of the hub, in the low byte of the
index, and the value for its indicator, in the high byte. -/
structure Addresses (o : Options) (info : HubInfo) (req : Request) : Prop where
  one_le_port : 1 ≤ o.port
  port_le : o.port ≤ info.nport
  low : ((req.wIndex.toNat % 256 : ℕ) : ℤ) = o.port
  high : ((req.wIndex.toNat / 256 : ℕ) : ℤ) = o.ledValue

/-- The port is one of the hub's, and the value is a byte. -/
structure InRange (o : Options) (info : HubInfo) : Prop where
  one_le_port : 1 ≤ o.port
  port_le : o.port ≤ info.nport
  zero_le_ledValue : 0 ≤ o.ledValue
  ledValue_lt : o.ledValue < 256

/-- A run that gets as far as its request, with its options and the entry that was selected. -/
structure Requests (usb : Usb) (target : Target) (busses : List UsbBus) (argv : List Str)
    (o : Options) (info : HubInfo) (req : Request) : Prop where
  accepted : options argv = some o
  found : ∃ n s, usbFindHubs usb o.args busses = some (n, s) ∧ selected s.hubs o = some info
  sends : Sends usb target busses argv req

theorem Requests.req_eq {usb : Usb} {target : Target} {busses : List UsbBus} {argv : List Str}
    {o : Options} {info : HubInfo} {req : Request}
    (h : Requests usb target busses argv o info req) : req = o.request info.dev := by
  obtain ⟨n, s, hs, hsel⟩ := h.found
  obtain ⟨o', n', s', info', hopt, hs', -, -, hsel', -, hreq⟩ := sends_iff.mp h.sends
  rw [h.accepted] at hopt
  obtain rfl := Option.some.inj hopt
  rw [hs] at hs'
  obtain ⟨-, rfl⟩ := Prod.mk.inj (Option.some.inj hs')
  rw [hsel] at hsel'
  rw [hreq, Option.some.inj hsel']

theorem Reply.nport_lt (r : Reply) : r.nport < 128 := BitVec.toInt_lt (x := (r.buf 2).toBitVec)

/-- The number of ports in an entry is a signed byte. -/
theorem Requests.nport_lt {usb : Usb} {target : Target} {busses : List UsbBus}
    {argv : List Str} {o : Options} {info : HubInfo} {req : Request}
    (h : Requests usb target busses argv o info req) : info.nport < 128 := by
  obtain ⟨n, s, hs, hsel⟩ := h.found
  have hmem := mem_of_selected hsel
  rw [(usbFindHubs_eq_some hs).1, foundHubs, List.mem_flatMap] at hmem
  obtain ⟨bus, -, hbus⟩ := hmem
  obtain ⟨dev, -, hinfo⟩ := List.mem_flatMap.mp hbus
  by_cases hq : Qualifies usb dev
  · rw [foundHub_of_qualifies hq] at hinfo
    rw [List.mem_singleton.mp hinfo]
    exact Reply.nport_lt _
  · rw [foundHub_of_not_qualifies hq] at hinfo
    exact absurd hinfo List.not_mem_nil

/-! ## The bytes of the index -/

/-- A small number in an `int`. -/
theorem toNat_ofInt {n : ℤ} (hn : 0 ≤ n) (hlt : n < 65536) :
    (BitVec.ofInt 32 n).toNat = n.toNat := by
  rw [BitVec.toNat_ofInt, Int.emod_eq_of_lt hn (by omega)]

/-- Two bytes in an `int`. -/
theorem toNat_shift_or {v p : ℤ} (hv : 0 ≤ v) (hv' : v < 256) (hp : 0 ≤ p) (hp' : p < 256) :
    (BitVec.ofInt 32 v <<< 8 ||| BitVec.ofInt 32 p).toNat = 256 * v.toNat + p.toNat := by
  have hor : v.toNat <<< 8 + p.toNat = v.toNat <<< 8 ||| p.toNat :=
    Nat.shiftLeft_add_eq_or_of_lt (by omega) v.toNat
  rw [BitVec.toNat_or, BitVec.toNat_shiftLeft, toNat_ofInt hv (by omega),
    toNat_ofInt hp (by omega), Nat.mod_eq_of_lt, ← hor, Nat.shiftLeft_eq]
  · omega
  · rw [Nat.shiftLeft_eq]
    omega

/-- **The index of numbers that fit** is the value and the port, a byte each. -/
theorem toNat_wIndex {o : Options} (dev : UsbDevice) (hp : 0 ≤ o.port) (hp' : o.port < 256)
    (hv : 0 ≤ o.ledValue) (hv' : o.ledValue < 256) :
    (o.request dev).wIndex.toNat = 256 * o.ledValue.toNat + o.port.toNat := by
  have hindex : (o.request dev).index.toNat = 256 * o.ledValue.toNat + o.port.toNat := by
    unfold Options.request
    unfold Options.ledValue at hv hv' ⊢
    by_cases hcmd : o.cmd = .power
    · rw [if_pos hcmd, if_pos hcmd]
      split_ifs
      all_goals
        show (BitVec.ofInt 32 o.port).toNat = _
        rw [toNat_ofInt hp (by omega)]
        omega
    · rw [if_neg hcmd] at hv hv' ⊢
      rw [if_neg hcmd]
      exact toNat_shift_or hv hv' hp hp'
  rw [Request.wIndex, BitVec.toNat_setWidth, hindex]
  omega

/-! ## When the request is right -/

/-- **When the request addresses what was asked for**: exactly if the port is one of the hub's
and the value is a byte; and two runs with such numbers have different indices if they have
different numbers. -/
theorem addresses_iff {usb : Usb} {target : Target} {busses : List UsbBus} {argv : List Str}
    {o : Options} {info : HubInfo} {req : Request}
    (h : Requests usb target busses argv o info req) :
    (Addresses o info req ↔ InRange o info) ∧
      ∀ usb' target' busses' argv' o' info' req',
        Requests usb' target' busses' argv' o' info' req' → InRange o info → InRange o' info' →
          (o.port, o.ledValue) ≠ (o'.port, o'.ledValue) → req.wIndex ≠ req'.wIndex := by
  have hnport := h.nport_lt
  constructor
  · constructor
    · intro haddr
      have hlow := haddr.low
      have hhigh := haddr.high
      have hlt := req.wIndex.isLt
      exact ⟨haddr.one_le_port, haddr.port_le, by omega, by omega⟩
    · intro hrange
      obtain ⟨hone, hle, hv, hv'⟩ := hrange
      have hindex := toNat_wIndex info.dev (by omega) (by omega) hv hv'
      rw [← h.req_eq] at hindex
      exact ⟨hone, hle, by omega, by omega⟩
  · intro usb' target' busses' argv' o' info' req' h' hrange hrange' hne heq
    have hnport' := h'.nport_lt
    obtain ⟨hone, hle, hv, hv'⟩ := hrange
    obtain ⟨hone', hle', hw, hw'⟩ := hrange'
    have hindex := toNat_wIndex info.dev (by omega) (by omega) hv hv'
    have hindex' := toNat_wIndex info'.dev (by omega) (by omega) hw hw'
    rw [← h.req_eq, heq] at hindex
    rw [← h'.req_eq] at hindex'
    apply hne
    rw [Prod.mk.injEq]
    omega

/-! ## One hub -/

theorem requests_oneHub {argv : List Str} {o : Options} (hopt : options argv = some o)
    (hlisting : o.listing = false) (hhub : o.hub = 0) :
    Requests answering accepting oneHub argv o oneInfo (o.request oneInfo.dev) := by
  obtain ⟨n, s, hs, hn, hsel⟩ := exists_found_selected (by decide) (selected_oneHub hhub)
  refine ⟨hopt, ⟨n, s, hs, hsel⟩, ?_⟩
  exact sends_iff.mpr ⟨o, n, s, oneInfo, hopt, hs, hn, hlisting, hsel, rfl, rfl⟩

/-- `-P 2 -p 1`: port 2 has its own index. -/
theorem addresses_two :
    ∃ o req, Requests answering accepting oneHub
        ["hub-ctrl".toList, "-P".toList, "2".toList, "-p".toList, "1".toList] o oneInfo req ∧
      o.port = 2 ∧ Addresses o oneInfo req := by
  have hopt : options ["hub-ctrl".toList, "-P".toList, "2".toList, "-p".toList, "1".toList]
      = some ⟨0, 0, .power, 2, 1, false, false, 0⟩ := by decide +kernel
  have hrun := requests_oneHub hopt rfl rfl
  refine ⟨_, _, hrun, rfl, (addresses_iff hrun).1.mpr ?_⟩
  exact ⟨by decide, by decide, by decide, by decide⟩

/-- `-P 257 -p 1` is accepted for a hub with four ports, and its request is for port 1. -/
theorem not_addresses :
    ∃ o req, Requests answering accepting oneHub
        ["hub-ctrl".toList, "-P".toList, "257".toList, "-p".toList, "1".toList] o oneInfo req ∧
      o.port = 257 ∧ req.wIndex.toNat % 256 = 1 ∧ ¬ Addresses o oneInfo req := by
  have hopt : options ["hub-ctrl".toList, "-P".toList, "257".toList, "-p".toList, "1".toList]
      = some ⟨0, 0, .power, 257, 1, false, false, 0⟩ := by decide +kernel
  refine ⟨_, _, requests_oneHub hopt rfl rfl, rfl, by decide, fun haddr => ?_⟩
  exact absurd haddr.port_le (by decide)

end UsbHub
