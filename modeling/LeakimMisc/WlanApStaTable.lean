/-
# The table of stations

What the two listeners for data frames have put into `ap_sta_t` at the end of a capture.  An
entry depends on its own frames only (`entry_staTable`), its count is their number, and its
`rssi` is the signal of the first uplink frame among them, also if downlink frames came
before it (`staTable_spec`).
-/
import LeakimMisc.ListPieces
import LeakimMisc.WlanApSta

open PyStr RowTable Pieces

namespace WlanApSta

/-! ## The frames of an entry -/

/-- An uplink frame of the pair. -/
def Frame.up (ap sta : Str) (f : Frame) : Bool := f.isUplink && f.bssid == ap && f.sa == sta

/-- A downlink frame of the pair that is not a broadcast. -/
def Frame.down (ap sta : Str) (f : Frame) : Bool :=
  f.isDownlink && f.bssid == ap && f.da == sta && ap != broadcast && sta != broadcast

/-- What a frame does to the entry of a pair. -/
def staStep (ap sta : Str) (e : Option Sta) (f : Frame) : Option Sta :=
  if f.up ap sta then some (uplinkSta f e)
  else if f.down ap sta then some (downlinkSta f e)
  else e

theorem Frame.up_iff {ap sta : Str} {f : Frame} :
    f.up ap sta ↔ f.isUplink ∧ f.bssid = ap ∧ f.sa = sta := by
  simp [Frame.up, and_assoc]

theorem Frame.down_iff {ap sta : Str} {f : Frame} :
    f.down ap sta ↔ f.isDownlink ∧ f.bssid = ap ∧ f.da = sta ∧ ap ≠ broadcast ∧
      sta ≠ broadcast := by
  simp [Frame.down, and_assoc]

theorem Frame.not_isDownlink {f : Frame} (h : f.isUplink) : f.isDownlink = false := by
  have hds : f.ds = 1 := by simpa [Frame.isUplink] using h
  simp [Frame.isDownlink, hds]

theorem entry_uplinkPacket (t : ApStaT) {f : Frame} (hf : f.isUplink) (ap sta : Str) :
    entry (uplinkPacket t f) ap sta = staStep ap sta (entry t ap sta) f := by
  have hdown : f.down ap sta = false := by simp [Frame.down, Frame.not_isDownlink hf]
  rw [staStep, hdown, uplinkPacket]
  by_cases h : ap = f.bssid ∧ sta = f.sa
  · obtain ⟨rfl, rfl⟩ := h
    rw [entry_upsert_self, if_pos (Frame.up_iff.mpr ⟨hf, rfl, rfl⟩)]
  · rw [entry_upsert_of_ne _ _ h, if_neg]
    · rfl
    · exact fun hup => h ⟨(Frame.up_iff.mp hup).2.1.symm, (Frame.up_iff.mp hup).2.2.symm⟩

theorem entry_downlinkPacket (t : ApStaT) {f : Frame} (hf : f.isDownlink) (ap sta : Str) :
    entry (downlinkPacket t f) ap sta = staStep ap sta (entry t ap sta) f := by
  have hup : f.up ap sta = false := by
    by_contra hup
    have := Frame.not_isDownlink (Frame.up_iff.mp (by simpa using hup)).1
    rw [hf] at this
    exact absurd this (by decide)
  rw [staStep, hup, if_neg (by decide)]
  have hother : (f.da = broadcast ∨ f.bssid = broadcast ∨ ¬ (ap = f.bssid ∧ sta = f.da)) →
      ¬ f.down ap sta := by
    intro h hdown
    obtain ⟨_, hap, hsta, hap', hsta'⟩ := Frame.down_iff.mp hdown
    rcases h with h | h | h
    · exact hsta' (hsta.symm.trans h)
    · exact hap' (hap.symm.trans h)
    · exact h ⟨hap.symm, hsta.symm⟩
  rw [downlinkPacket]
  by_cases hda : f.da = broadcast
  · rw [if_pos hda, if_neg (hother (.inl hda))]
  · by_cases hbssid : f.bssid = broadcast
    · rw [if_neg hda, if_pos hbssid, if_neg (hother (.inr (.inl hbssid)))]
    · rw [if_neg hda, if_neg hbssid]
      by_cases h : ap = f.bssid ∧ sta = f.da
      · obtain ⟨rfl, rfl⟩ := h
        rw [entry_upsert_self, if_pos (Frame.down_iff.mpr ⟨hf, rfl, rfl, hbssid, hda⟩)]
      · rw [entry_upsert_of_ne _ _ h, if_neg (hother (.inr (.inr h)))]

/-- **A frame does to each entry what `staStep` says.** -/
theorem entry_staPacket (t : ApStaT) (f : Frame) (ap sta : Str) :
    entry (staPacket t f) ap sta = staStep ap sta (entry t ap sta) f := by
  rw [staPacket]
  by_cases hup : f.isUplink
  · rw [if_pos hup, if_neg (by simp [Frame.not_isDownlink hup]), entry_uplinkPacket t hup]
  · rw [if_neg hup]
    by_cases hdown : f.isDownlink
    · rw [if_pos hdown, entry_downlinkPacket t hdown]
    · rw [if_neg hdown, staStep, if_neg fun h => hup (Frame.up_iff.mp h).1,
        if_neg fun h => hdown (Frame.down_iff.mp h).1]

/-- **An entry depends on its own frames only.** -/
theorem entry_staTable (frames : List Frame) (ap sta : Str) :
    entry (staTable frames) ap sta = frames.foldl (staStep ap sta) none := by
  rw [staTable, ← entry_empty (α := Str) (β := Str) (γ := Sta) ap sta]
  exact (List.foldl_hom (fun t => entry t ap sta) fun t f => (entry_staPacket t f ap sta).symm).symm

/-! ## Count and signal -/

/-- The number of frames of the pair. -/
def frameCount (frames : List Frame) (ap sta : Str) : ℕ :=
  frames.countP (Frame.up ap sta) + frames.countP (Frame.down ap sta)

/-- The signal of the first uplink frame of the pair, if there is one. -/
def firstSignal (frames : List Frame) (ap sta : Str) : Rssi :=
  match frames.find? (Frame.up ap sta) with
  | some f => .text f.rssi
  | none => .zero

/-- **An entry as it should be** for `n` frames and the signal `r`: none for no frame. -/
inductive Describes : Option Sta → ℕ → Rssi → Prop
  | absent : Describes none 0 .zero
  | present (e : Sta) (h : 0 < e.count) : Describes (some e) e.count e.rssi

/-- An uplink frame sets the signal if it was not known. -/
theorem Describes.uplinkSta {e : Option Sta} {n : ℕ} {r : Rssi} (h : Describes e n r)
    (f : Frame) :
    Describes (some (uplinkSta f e)) (n + 1) (if r = .zero then .text f.rssi else r) := by
  cases h with
  | absent => exact .present ⟨.text f.rssi, none, 1⟩ Nat.one_pos
  | present e hpos =>
    rw [WlanApSta.uplinkSta]
    by_cases hr : e.rssi = .zero
    · rw [if_pos hr, if_pos hr]
      exact .present ⟨.text f.rssi, e.apRssi, e.count + 1⟩ (Nat.succ_pos _)
    · rw [if_neg hr, if_neg hr]
      exact .present ⟨e.rssi, e.apRssi, e.count + 1⟩ (Nat.succ_pos _)

/-- A downlink frame leaves the signal alone. -/
theorem Describes.downlinkSta {e : Option Sta} {n : ℕ} {r : Rssi} (h : Describes e n r)
    (f : Frame) : Describes (some (downlinkSta f e)) (n + 1) r := by
  cases h with
  | absent => exact .present ⟨.zero, some f.rssi, 1⟩ Nat.one_pos
  | present e hpos => exact .present ⟨e.rssi, e.apRssi, e.count + 1⟩ (Nat.succ_pos _)

theorem Frame.not_down_of_up {ap sta : Str} {f : Frame} (h : f.up ap sta) :
    ¬ f.down ap sta := by
  simp [Frame.down, Frame.not_isDownlink (Frame.up_iff.mp h).1]

theorem firstSignal_concat (frames : List Frame) (f : Frame) (ap sta : Str) :
    firstSignal (frames ++ [f]) ap sta
      = if f.up ap sta then
          (if firstSignal frames ap sta = .zero then .text f.rssi
            else firstSignal frames ap sta)
        else firstSignal frames ap sta := by
  rw [firstSignal, firstSignal, List.find?_append, List.find?_singleton]
  cases frames.find? (Frame.up ap sta) with
  | some g => simp
  | none =>
    by_cases hup : f.up ap sta
    · simp [hup]
    · simp [hup]

/-- **The entry of a pair, from its frames.** -/
theorem describes_entry (frames : List Frame) (ap sta : Str) :
    Describes (entry (staTable frames) ap sta) (frameCount frames ap sta)
      (firstSignal frames ap sta) := by
  rw [entry_staTable]
  induction frames using List.reverseRecOn with
  | nil => exact .absent
  | append_singleton frames f ih =>
    rw [List.foldl_concat, firstSignal_concat, frameCount, List.countP_append,
      List.countP_append, List.countP_singleton, List.countP_singleton, staStep]
    by_cases hup : f.up ap sta
    · rw [if_pos hup, if_pos hup, if_pos hup, if_neg (Frame.not_down_of_up hup)]
      convert ih.uplinkSta f using 1
      rw [frameCount]
      omega
    · rw [if_neg hup, if_neg hup, if_neg hup]
      by_cases hdown : f.down ap sta
      · rw [if_pos hdown, if_pos hdown]
        exact ih.downlinkSta f
      · rw [if_neg hdown, if_neg hdown]
        exact ih

/-! ## The whole table -/

/-- The fields of an entry that its frames determine in whatever order they were mixed. -/
def Sta.view (e : Sta) : ℕ × Rssi := (e.count, e.rssi)

theorem Describes.isSome_iff {e : Option Sta} {n : ℕ} {r : Rssi} (h : Describes e n r) :
    e.isSome ↔ 0 < n := by
  cases h with
  | absent => simp
  | present e hpos => simp [hpos]

theorem Describes.view_eq {e : Sta} {n : ℕ} {r : Rssi} (h : Describes (some e) n r) :
    e.view = (n, r) := by
  cases h with
  | present e hpos => rfl

theorem Describes.map_view_eq {e e' : Option Sta} {n : ℕ} {r : Rssi} (h : Describes e n r)
    (h' : Describes e' n r) : e.map Sta.view = e'.map Sta.view := by
  cases e with
  | none =>
    have hn : ¬ 0 < n := by simpa using h.isSome_iff.not
    have hnone : e' = none := by simpa using h'.isSome_iff.not.mpr hn
    rw [hnone]
  | some e =>
    obtain ⟨e', rfl⟩ := Option.isSome_iff_exists.mp (h'.isSome_iff.mpr (h.isSome_iff.mp rfl))
    rw [Option.map_some, Option.map_some, h.view_eq, h'.view_eq]

theorem frameCount_pos_iff {frames : List Frame} {ap sta : Str} :
    0 < frameCount frames ap sta ↔ ∃ f ∈ frames, f.up ap sta ∨ f.down ap sta := by
  rw [frameCount, Nat.add_pos_iff_pos_or_pos, List.countP_pos_iff, List.countP_pos_iff]
  constructor
  · rintro (⟨f, hf, h⟩ | ⟨f, hf, h⟩)
    · exact ⟨f, hf, .inl h⟩
    · exact ⟨f, hf, .inr h⟩
  · rintro ⟨f, hf, h | h⟩
    · exact .inl ⟨f, hf, h⟩
    · exact .inr ⟨f, hf, h⟩

/-- Count and signal do not depend on the order of uplink frames against downlink frames. -/
theorem describes_entry_of_filter_eq {frames frames' : List Frame}
    (hup : frames'.filter Frame.isUplink = frames.filter Frame.isUplink)
    (hdown : frames'.filter Frame.isDownlink = frames.filter Frame.isDownlink) (ap sta : Str) :
    Describes (entry (staTable frames') ap sta) (frameCount frames ap sta)
      (firstSignal frames ap sta) := by
  have hisUp : ∀ f : Frame, f.up ap sta → f.isUplink := fun _ h => (Frame.up_iff.mp h).1
  have hisDown : ∀ f : Frame, f.down ap sta → f.isDownlink := fun _ h => (Frame.down_iff.mp h).1
  have h := describes_entry frames' ap sta
  rwa [frameCount, firstSignal, ← countP_filter_of_imp hisUp, ← countP_filter_of_imp hisDown,
    ← find?_filter_of_imp hisUp, hup, hdown, countP_filter_of_imp hisUp,
    countP_filter_of_imp hisDown, find?_filter_of_imp hisUp] at h

/-- **The table of stations**: which entries there are, their count and signal, and that these
do not change when uplink frames are reordered against downlink frames. -/
theorem staTable_spec (frames : List Frame) :
    (∀ ap sta, (entry (staTable frames) ap sta).isSome ↔
      ∃ f ∈ frames, f.up ap sta ∨ f.down ap sta) ∧
    (∀ ap sta e, entry (staTable frames) ap sta = some e →
      e.count = frames.countP (Frame.up ap sta) + frames.countP (Frame.down ap sta) ∧
        e.rssi = firstSignal frames ap sta) ∧
    ∀ frames' : List Frame, frames'.filter Frame.isUplink = frames.filter Frame.isUplink →
      frames'.filter Frame.isDownlink = frames.filter Frame.isDownlink →
      ∀ ap sta, (entry (staTable frames') ap sta).map Sta.view
        = (entry (staTable frames) ap sta).map Sta.view := by
  refine ⟨?_, ?_, ?_⟩
  · intro ap sta
    rw [(describes_entry frames ap sta).isSome_iff, frameCount_pos_iff]
  · intro ap sta e he
    have h := describes_entry frames ap sta
    rw [he] at h
    exact Prod.mk.inj h.view_eq
  · intro frames' hup hdown ap sta
    exact (describes_entry_of_filter_eq hup hdown ap sta).map_view_eq
      (describes_entry frames ap sta)

/-! ## The signal of the access point -/

/-- An uplink frame of one station. -/
def fromSta : Frame := ⟨0x28, false, 0x01, "sta".toList, "dst".toList, "ap".toList,
  "-40".toList, [], some 2412⟩

/-- A downlink frame to it. -/
def toSta : Frame := ⟨0x28, false, 0x02, "src".toList, "sta".toList, "ap".toList,
  "-60".toList, [], some 2412⟩

theorem map_view_reordered :
    (entry (staTable [toSta, fromSta]) "ap".toList "sta".toList).map Sta.view
      = (entry (staTable [fromSta, toSta]) "ap".toList "sta".toList).map Sta.view :=
  (staTable_spec [fromSta, toSta]).2.2 [toSta, fromSta] (by decide) (by decide) _ _

/-- The order is not forgotten altogether: `ap_rssi` is set by a downlink frame only if it
comes first. -/
theorem staTable_reordered :
    [fromSta, toSta].filter Frame.isUplink = [toSta, fromSta].filter Frame.isUplink ∧
    [fromSta, toSta].filter Frame.isDownlink = [toSta, fromSta].filter Frame.isDownlink ∧
    staTable [fromSta, toSta] ≠ staTable [toSta, fromSta] := by
  refine ⟨by decide, by decide, fun h => ?_⟩
  have hentry := congrArg (fun t => entry t "ap".toList "sta".toList) h
  simp only [entry_staTable] at hentry
  exact absurd hentry (by decide)

end WlanApSta
