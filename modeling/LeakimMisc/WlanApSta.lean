/-
# Access points and their stations

`src/lua/wlan/wlan_list_ap_sta.lua`: three listeners on the frames of a capture.  One collects
the access points from their beacons; the two others count the data frames from and to each
station of an access point, in one table.  At the end both tables are printed.

A Lua error is `none`.
-/
import LeakimMisc.PyStr
import LeakimMisc.RowTable

open PyStr

namespace WlanApSta

/-! ## The data -/

/-- The fields of a frame that the script reads: strings are what `tostring` gives, and
`freq` is what `tonumber` makes of the channel frequency. -/
structure Frame where
  typeSubtype : ℕ
  ess : Bool
  ds : ℕ
  sa : Str
  da : Str
  bssid : Str
  rssi : Str
  ssid : Str
  freq : Option ℕ
  deriving DecidableEq, Repr

/-- A value of the field `rssi`: the number 0 or a string. -/
inductive Rssi
  | zero
  | text (s : Str)
  deriving DecidableEq, Repr

/-- An entry of `ap_sta_t[ap_mac]`. -/
structure Sta where
  rssi : Rssi
  apRssi : Option Str
  count : ℕ
  deriving DecidableEq, Repr

/-- An entry of `ap_t`. -/
structure Ap where
  count : ℕ
  rssi : Str
  ssid : Str
  channel : Str
  deriving DecidableEq, Repr

/-- `ap_t`. -/
abbrev ApT := Finmap fun _ : Str => Ap

/-- `ap_sta_t`. -/
abbrev ApStaT := RowTable Str Str Sta

/-- `ff:ff:ff:ff:ff:ff`. -/
def broadcast : Str := "ff:ff:ff:ff:ff:ff".toList

/-! ## The listeners -/

/-- The filter of the first listener. -/
def Frame.isBeacon (f : Frame) : Bool := f.typeSubtype == 0x08 && f.ess

/-- The filter of the second listener. -/
def Frame.isUplink (f : Frame) : Bool := f.ds == 0x01

/-- The filter of the third listener. -/
def Frame.isDownlink (f : Frame) : Bool := f.ds == 0x02

/-- `get_channel`; after the loop it concatenates the global `n`, which is nil. -/
def getChannel (c : Option ℕ) : Option Str :=
  ((List.range 13).find? fun i => some (2412 + i * 5) == c).map fun i => Nat.toDigits 10 (i + 1)

/-- `tap.packet` of `init_ap_listener`. -/
def apPacket (t : ApT) (f : Frame) : Option ApT :=
  match t.lookup f.sa with
  | none => (getChannel f.freq).map fun channel => t.insert f.sa ⟨1, f.rssi, f.ssid, channel⟩
  | some ap => some (t.insert f.sa { ap with count := ap.count + 1 })

/-- What an uplink frame does to the entry of its station. -/
def uplinkSta (f : Frame) (e : Option Sta) : Sta :=
  let e : Sta := match e with
    | none => ⟨.text f.rssi, none, 1⟩
    | some e => { e with count := e.count + 1 }
  if e.rssi = .zero then { e with rssi := .text f.rssi } else e

/-- `tap.packet` of `init_ap_sta_listener`. -/
def uplinkPacket (t : ApStaT) (f : Frame) : ApStaT := t.upsert f.bssid f.sa (uplinkSta f)

/-- What a downlink frame does to the entry of its station. -/
def downlinkSta (f : Frame) (e : Option Sta) : Sta :=
  match e with
  | none => ⟨.zero, some f.rssi, 1⟩
  | some e => { e with count := e.count + 1 }

/-- `tap.packet` of `init_ap_sta2_listener`. -/
def downlinkPacket (t : ApStaT) (f : Frame) : ApStaT :=
  if f.da = broadcast then t
  else if f.bssid = broadcast then t
  else t.upsert f.bssid f.da (downlinkSta f)

/-- The two listeners for data frames on one frame. -/
def staPacket (t : ApStaT) (f : Frame) : ApStaT :=
  let t := if f.isUplink then uplinkPacket t f else t
  if f.isDownlink then downlinkPacket t f else t

/-- `ap_sta_t` after a capture. -/
def staTable (frames : List Frame) : ApStaT := frames.foldl staPacket ∅

/-- The two tables. -/
structure Tables where
  apT : ApT
  apStaT : ApStaT

/-- All listeners on one frame. -/
def packet (s : Tables) (f : Frame) : Option Tables :=
  (if f.isBeacon then apPacket s.apT f else some s.apT).map fun apT =>
    ⟨apT, staPacket s.apStaT f⟩

/-- The tables after a capture. -/
def capture (frames : List Frame) : Option Tables := frames.foldlM packet ⟨∅, ∅⟩

/-! ## What is printed -/

/-- The lines of the two `tap.draw`. -/
inductive Line
  | apHeader
  | staHeader
  | empty
  | ap (mac : Str) (count : ℕ) (rssi channel ssid : Str)
  | apStas (mac channel rssi ssid : Str) (count : ℕ)
  | sta (mac : Str) (count : ℕ) (rssi : Rssi)
  deriving DecidableEq, Repr

/-- The order in which `pairs` goes through a table is not specified. -/
structure PairsOrder where
  pairs : ∀ {γ : Type}, (Finmap fun _ : Str => γ) → List (Σ _ : Str, γ)
  all : ∀ {γ : Type} (t : Finmap fun _ : Str => γ), (pairs t : Multiset _) = t.entries

/-- `tap.draw` of `init_ap_listener`. -/
def drawAps (o : PairsOrder) (apT : ApT) : List Line :=
  [.apHeader] ++ ((o.pairs apT).map fun ⟨mac, ap⟩ => .ap mac ap.count ap.rssi ap.channel ap.ssid)
    ++ [.empty]

/-- The lines of an access point of `ap_sta_t`; `ap_t` is indexed by its address. -/
def drawRow (o : PairsOrder) (apT : ApT) (row : Σ _ : Str, Finmap fun _ : Str => Sta) :
    Option (List Line) :=
  (apT.lookup row.1).map fun ap =>
    .apStas row.1 ap.channel ap.rssi ap.ssid ap.count ::
      (o.pairs row.2).map fun ⟨mac, sta⟩ => .sta mac sta.count sta.rssi

/-- `tap.draw` of `init_ap_sta_listener`. -/
def drawStas (o : PairsOrder) (s : Tables) : Option (List Line) :=
  ((o.pairs s.apStaT).mapM (drawRow o s.apT)).map fun rows =>
    [.staHeader] ++ rows.flatten ++ [.empty]

/-- The whole script on a capture. -/
def script (o : PairsOrder) (frames : List Frame) : Option (List Line) :=
  (capture frames).bind fun s => (drawStas o s).map fun lines => drawAps o s.apT ++ lines

end WlanApSta
