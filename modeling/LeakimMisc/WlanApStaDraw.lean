/-
# When the list of stations is printed

The script ends with a Lua error in two cases: the first beacon of an access point is on a
frequency that `get_channel` does not know, or a data frame belongs to an access point whose
beacon was not captured.  In all other captures every access point is printed with all its
stations (`runsToEnd_iff`).
-/
import LeakimMisc.WlanApStaTable

open PyStr RowTable Pieces

namespace WlanApSta

/-- A frequency of the channels 1 to 13 as `get_channel` computes them. -/
def Listed (freq : Option ℕ) : Prop := ∃ i < 13, freq = some (2412 + i * 5)

/-- The first beacon of each access point is on a listed frequency. -/
def FirstBeaconsListed (frames : List Frame) : Prop :=
  ∀ pre f post, frames = pre ++ f :: post → f.isBeacon →
    (∀ g ∈ pre, g.isBeacon → g.sa ≠ f.sa) → Listed f.freq

/-- The access point sent a beacon. -/
def HasBeacon (frames : List Frame) (ap : Str) : Prop := ∃ g ∈ frames, g.isBeacon ∧ g.sa = ap

/-- The pair has a data frame that is counted. -/
def Counted (frames : List Frame) (ap sta : Str) : Prop :=
  ∃ f ∈ frames, f.up ap sta ∨ f.down ap sta

/-- The script runs to its end, and prints each access point that has a counted data frame,
followed by its stations with their numbers of frames and their signals. -/
def RunsToEnd (o : PairsOrder) (frames : List Frame) : Prop :=
  ∃ lines, script o frames = some lines ∧ ∀ ap sta, Counted frames ap sta →
    ∃ channel rssi ssid count, ∃ stas : List (Str × ℕ × Rssi),
      Line.apStas ap channel rssi ssid count ::
        stas.map (fun s => .sta s.1 s.2.1 s.2.2) <:+: lines ∧
      ∀ sta, Counted frames ap sta →
        (sta, frameCount frames ap sta, firstSignal frames ap sta) ∈ stas

/-! ## The listener for beacons -/

theorem isSome_getChannel_iff (freq : Option ℕ) : (getChannel freq).isSome ↔ Listed freq := by
  rw [getChannel, Option.isSome_map, List.find?_isSome]
  constructor
  · rintro ⟨i, hi, h⟩
    exact ⟨i, List.mem_range.mp hi, (beq_iff_eq.mp h).symm⟩
  · rintro ⟨i, hi, h⟩
    exact ⟨i, List.mem_range.mpr hi, beq_iff_eq.mpr h.symm⟩

/-- A beacon is taken unless it is the first of its access point and not on a listed
frequency. -/
theorem isSome_apPacket_iff (t : ApT) (f : Frame) :
    (apPacket t f).isSome ↔ (f.sa ∉ t → Listed f.freq) := by
  rw [apPacket]
  cases h : t.lookup f.sa with
  | none =>
    have hmem : f.sa ∉ t := Finmap.lookup_eq_none.mp h
    simp [isSome_getChannel_iff, hmem]
  | some ap =>
    have hmem : f.sa ∈ t := Finmap.mem_of_lookup_eq_some h
    simp [hmem]

theorem mem_apPacket_iff {t t' : ApT} {f : Frame} (h : apPacket t f = some t') (k : Str) :
    k ∈ t' ↔ k = f.sa ∨ k ∈ t := by
  rw [apPacket] at h
  cases hl : t.lookup f.sa with
  | none =>
    rw [hl] at h
    obtain ⟨channel, _, rfl⟩ := Option.map_eq_some_iff.mp h
    exact Finmap.mem_insert
  | some ap =>
    rw [hl] at h
    obtain rfl := Option.some.inj h
    exact Finmap.mem_insert

/-! ## The tables of a capture -/

theorem capture_concat (frames : List Frame) (f : Frame) :
    capture (frames ++ [f]) = (capture frames).bind fun s => packet s f := by
  rw [capture, List.foldlM_append]
  apply congrArg (Option.bind (capture frames))
  funext s
  rw [List.foldlM_cons]
  exact bind_pure (packet s f)

theorem packet_eq_some_iff {s s' : Tables} {f : Frame} : packet s f = some s' ↔
    (if f.isBeacon then apPacket s.apT f else some s.apT) = some s'.apT ∧
      s'.apStaT = staPacket s.apStaT f := by
  rw [packet, Option.map_eq_some_iff]
  constructor
  · rintro ⟨apT, h, rfl⟩
    exact ⟨h, rfl⟩
  · rintro ⟨h, hsta⟩
    refine ⟨s'.apT, h, ?_⟩
    rw [← hsta]

/-- **What the tables hold**: the access points with a beacon, and the table of stations. -/
theorem capture_eq_some {frames : List Frame} {s : Tables} (h : capture frames = some s) :
    s.apStaT = staTable frames ∧ ∀ k, k ∈ s.apT ↔ HasBeacon frames k := by
  induction frames using List.reverseRecOn generalizing s with
  | nil =>
    obtain rfl := Option.some.inj h
    refine ⟨rfl, fun k => ?_⟩
    simp [HasBeacon, Finmap.notMem_empty]
  | append_singleton frames f ih =>
    rw [capture_concat] at h
    obtain ⟨s₀, hs₀, hpacket⟩ := Option.bind_eq_some_iff.mp h
    obtain ⟨hsta, hap⟩ := ih hs₀
    obtain ⟨hapT, hstaT⟩ := packet_eq_some_iff.mp hpacket
    refine ⟨?_, fun k => ?_⟩
    · rw [hstaT, hsta, staTable, staTable, List.foldl_concat]
    · have hbeacon : HasBeacon (frames ++ [f]) k ↔
          HasBeacon frames k ∨ (f.isBeacon ∧ f.sa = k) := by
        simp [HasBeacon, or_and_right, exists_or]
      rw [hbeacon, ← hap k]
      by_cases hf : f.isBeacon
      · rw [if_pos hf] at hapT
        rw [mem_apPacket_iff hapT]
        simp [hf, eq_comm, or_comm]
      · rw [if_neg hf, Option.some.injEq] at hapT
        rw [hapT]
        simp [hf]

theorem firstBeaconsListed_concat {frames : List Frame} {f : Frame} :
    FirstBeaconsListed (frames ++ [f]) ↔ FirstBeaconsListed frames ∧
      (f.isBeacon → ¬ HasBeacon frames f.sa → Listed f.freq) := by
  have hnone : ∀ {l : List Frame} {k : Str},
      ¬ HasBeacon l k ↔ ∀ g ∈ l, g.isBeacon → g.sa ≠ k := by
    intro l k
    simp [HasBeacon]
  rw [hnone]
  constructor
  · intro h
    refine ⟨fun pre g post hsplit hg hpre => ?_, fun hf hpre => h frames f [] rfl hf hpre⟩
    apply h pre g (post ++ [f]) _ hg hpre
    rw [hsplit]
    simp
  · rintro ⟨hframes, hf⟩ pre g post hsplit hg hpre
    rcases List.eq_nil_or_concat post with rfl | ⟨post', b, rfl⟩
    · obtain ⟨rfl, hfg⟩ := List.append_inj' hsplit rfl
      obtain rfl := List.singleton_inj.mp hfg
      exact hf hg hpre
    · have hshow : frames ++ [f] = (pre ++ g :: post') ++ [b] := by
        rw [hsplit]
        simp
      obtain ⟨hpost, _⟩ := List.append_inj' hshow rfl
      exact hframes pre g post' hpost hg hpre

/-- **No packet callback fails** if and only if the first beacons are on listed channels. -/
theorem isSome_capture_iff (frames : List Frame) :
    (capture frames).isSome ↔ FirstBeaconsListed frames := by
  induction frames using List.reverseRecOn with
  | nil =>
    refine ⟨fun _ pre f post h => ?_, fun _ => rfl⟩
    exact absurd h (by simp)
  | append_singleton frames f ih =>
    rw [firstBeaconsListed_concat, ← ih, capture_concat]
    cases hs : capture frames with
    | none => simp
    | some s =>
      have hap := (capture_eq_some hs).2 f.sa
      rw [Option.bind_some, packet, Option.isSome_map, ← hap]
      by_cases hf : f.isBeacon
      · rw [if_pos hf, isSome_apPacket_iff]
        simp [hf]
      · rw [if_neg hf]
        simp [hf]

/-! ## The rows of the table of stations -/

theorem entry_isSome_iff (frames : List Frame) (ap sta : Str) :
    (entry (staTable frames) ap sta).isSome ↔ Counted frames ap sta := by
  rw [(describes_entry frames ap sta).isSome_iff, frameCount_pos_iff, Counted]

theorem filled_downlinkPacket {t : ApStaT} (h : Filled t) (f : Frame) :
    Filled (downlinkPacket t f) := by
  rw [downlinkPacket]
  split_ifs
  · exact h
  · exact h
  · exact h.upsert f.bssid f.da (downlinkSta f)

theorem filled_staPacket {t : ApStaT} (h : Filled t) (f : Frame) : Filled (staPacket t f) := by
  have hup : Filled (if f.isUplink then uplinkPacket t f else t) := by
    split
    · exact h.upsert f.bssid f.sa (uplinkSta f)
    · exact h
  rw [staPacket]
  by_cases hdown : f.isDownlink
  · rw [if_pos hdown]
    exact filled_downlinkPacket hup f
  · rw [if_neg hdown]
    exact hup

theorem filled_staTable (frames : List Frame) : Filled (staTable frames) := by
  induction frames using List.reverseRecOn with
  | nil => exact filled_empty
  | append_singleton frames f ih =>
    rw [staTable, List.foldl_concat]
    exact filled_staPacket ih f

/-- The rows are those of the access points with a counted data frame. -/
theorem mem_staTable_iff (frames : List Frame) (ap : Str) :
    ap ∈ staTable frames ↔ ∃ sta, Counted frames ap sta := by
  simp only [← entry_isSome_iff]
  constructor
  · exact filled_staTable frames ap
  · rintro ⟨sta, hentry⟩
    exact mem_of_isSome_entry hentry

/-! ## The draw functions -/

theorem PairsOrder.mem_pairs_iff (o : PairsOrder) {γ : Type} (t : Finmap fun _ : Str => γ)
    (k : Str) (v : γ) : (⟨k, v⟩ : Σ _ : Str, γ) ∈ o.pairs t ↔ t.lookup k = some v := by
  rw [← Multiset.mem_coe, o.all, ← Finmap.mem_lookup_iff]
  rfl

/-- **The second draw function fails** exactly if `ap_t` has no entry for an access point. -/
theorem isSome_drawStas_iff (o : PairsOrder) (s : Tables) :
    (drawStas o s).isSome ↔ ∀ k ∈ s.apStaT, k ∈ s.apT := by
  rw [drawStas, Option.isSome_map, isSome_mapM_iff]
  simp only [drawRow, Option.isSome_map, Finmap.lookup_isSome]
  constructor
  · intro h k hk
    obtain ⟨row, hrow⟩ := Finmap.mem_iff.mp hk
    exact h ⟨k, row⟩ ((o.mem_pairs_iff _ _ _).mpr hrow)
  · rintro h ⟨k, row⟩ hrow
    exact h k (Finmap.mem_of_lookup_eq_some ((o.mem_pairs_iff _ _ _).mp hrow))

theorem isSome_script_iff (o : PairsOrder) (frames : List Frame) :
    (script o frames).isSome ↔ FirstBeaconsListed frames ∧
      ∀ ap sta, Counted frames ap sta → HasBeacon frames ap := by
  rw [script, ← isSome_capture_iff]
  cases hs : capture frames with
  | none => simp
  | some s =>
    obtain ⟨hsta, hap⟩ := capture_eq_some hs
    rw [Option.bind_some, Option.isSome_map, isSome_drawStas_iff, hsta]
    simp only [hap, mem_staTable_iff, forall_exists_index, Option.isSome_some, true_and]

/-- What is printed for an access point. -/
theorem row_infix_script {o : PairsOrder} {frames : List Frame} {lines : List Line}
    (h : script o frames = some lines) {ap sta : Str} (hcounted : Counted frames ap sta) :
    ∃ channel rssi ssid count, ∃ stas : List (Str × ℕ × Rssi),
      Line.apStas ap channel rssi ssid count ::
        stas.map (fun s => .sta s.1 s.2.1 s.2.2) <:+: lines ∧
      ∀ sta, Counted frames ap sta →
        (sta, frameCount frames ap sta, firstSignal frames ap sta) ∈ stas := by
  obtain ⟨s, hs, h⟩ := Option.bind_eq_some_iff.mp h
  obtain ⟨lines', hdraw, rfl⟩ := Option.map_eq_some_iff.mp h
  obtain ⟨rows, hrows, rfl⟩ := Option.map_eq_some_iff.mp hdraw
  obtain ⟨hsta, _⟩ := capture_eq_some hs
  obtain ⟨row, hrow⟩ := Finmap.mem_iff.mp ((mem_staTable_iff frames ap).mpr ⟨sta, hcounted⟩)
  have hpair : (⟨ap, row⟩ : Σ _ : Str, _) ∈ o.pairs s.apStaT := by
    rw [o.mem_pairs_iff, hsta, hrow]
  obtain ⟨block, hblock, hdrawn⟩ := mem_of_mapM hrows hpair
  obtain ⟨info, _, rfl⟩ := Option.map_eq_some_iff.mp hdrawn
  refine ⟨info.channel, info.rssi, info.ssid, info.count,
    (o.pairs row).map fun p => (p.1, p.2.count, p.2.rssi), ?_, ?_⟩
  · rw [List.map_map]
    apply (List.infix_of_mem_flatten hblock).trans
    exact ⟨drawAps o s.apT ++ [.staHeader], [.empty], by simp⟩
  · intro sta hsta
    have hentry := (entry_isSome_iff frames ap sta).mpr hsta
    obtain ⟨e, he⟩ := Option.isSome_iff_exists.mp hentry
    have hview := describes_entry frames ap sta
    rw [he] at hview
    rw [entry, hrow, Option.bind_some] at he
    refine List.mem_map.mpr ⟨⟨sta, e⟩, (o.mem_pairs_iff _ _ _).mpr he, ?_⟩
    exact congrArg (Prod.mk sta) hview.view_eq

/-- **The script runs to its end** if and only if the first beacon of each access point is on
a listed frequency and each access point with a counted data frame sent a beacon. -/
theorem runsToEnd_iff (o : PairsOrder) (frames : List Frame) :
    RunsToEnd o frames ↔ FirstBeaconsListed frames ∧
      ∀ ap sta, Counted frames ap sta → HasBeacon frames ap := by
  rw [← isSome_script_iff o]
  constructor
  · rintro ⟨lines, hlines, _⟩
    rw [hlines]
    rfl
  · intro h
    obtain ⟨lines, hlines⟩ := Option.isSome_iff_exists.mp h
    exact ⟨lines, hlines, fun _ _ => row_infix_script hlines⟩

/-! ## A capture that ends with an error -/

/-- An order for `pairs`. -/
noncomputable def anyOrder : PairsOrder where
  pairs := fun t => t.entries.toList
  all := fun t => Multiset.coe_toList t.entries

/-- A beacon on channel 14. -/
def beacon : Frame :=
  ⟨0x08, true, 0x00, "ap".toList, broadcast, "ap".toList, "-60".toList, "net".toList, some 2484⟩

theorem not_listed : ¬ Listed (some 2484) := by
  rintro ⟨i, hi, h⟩
  have := Option.some.inj h
  omega

/-- `get_channel` fails on the beacon, and without it `ap_t` is indexed with an unknown
address. -/
theorem not_runsToEnd :
    ¬ RunsToEnd anyOrder [beacon] ∧ ¬ RunsToEnd anyOrder [fromSta] := by
  constructor
  · rintro ⟨lines, hlines, _⟩
    have h := (isSome_script_iff anyOrder [beacon]).mp (by rw [hlines]; rfl)
    exact not_listed (h.1 [] beacon [] rfl rfl fun g hg => absurd hg List.not_mem_nil)
  · rintro ⟨lines, hlines, _⟩
    have h := (isSome_script_iff anyOrder [fromSta]).mp (by rw [hlines]; rfl)
    obtain ⟨g, hg, hbeacon, _⟩ := h.2 fromSta.bssid fromSta.sa
      ⟨fromSta, List.mem_singleton_self _, .inl (Frame.up_iff.mpr ⟨rfl, rfl, rfl⟩)⟩
    rw [List.mem_singleton.mp hg] at hbeacon
    exact absurd hbeacon (by decide)

end WlanApSta
