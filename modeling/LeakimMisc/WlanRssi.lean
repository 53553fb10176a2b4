/-
# Signal strength statistics

`src/lua/wlan/wlan_rssi.lua` and `wlan_list_sta.lua`: a listener collects the largest and the
smallest sample of the signal strength and the sum of all, and prints at the end the extremes
and the mean.  The extremes start at -100 and 100.  The two scripts differ in the filter of the
listener and in what they print for a packet.
-/
import Mathlib.Algebra.Order.BigOperators.Group.List
import Mathlib.Data.Rat.Cast.Order
import Mathlib.Tactic

/-! ## Running extremes -/

namespace RunningExtremes

variable {α : Type*} [LinearOrder α]

/-- A maximum that starts at `a` is that of `a` and the elements. -/
theorem foldl_max_spec (a : α) (l : List α) :
    l.foldl max a ∈ a :: l ∧ ∀ s ∈ a :: l, s ≤ l.foldl max a :=
  List.max?_eq_some_iff.mp List.max?_cons'

/-- It is one of the elements if and only if one of them is not smaller than `a`. -/
theorem isGreatest_foldl_max_iff {a : α} {l : List α} :
    IsGreatest {s | s ∈ l} (l.foldl max a) ↔ ∃ s ∈ l, a ≤ s := by
  obtain ⟨hmem, hle⟩ := foldl_max_spec a l
  constructor
  · intro h
    exact ⟨l.foldl max a, h.1, hle a List.mem_cons_self⟩
  · rintro ⟨s, hs, has⟩
    refine ⟨?_, fun t ht => hle t (List.mem_cons_of_mem a ht)⟩
    rcases List.mem_cons.mp hmem with h | h
    · have hsa : s ≤ a := h ▸ hle s (List.mem_cons_of_mem a hs)
      have heq : l.foldl max a = s := h.trans (le_antisymm has hsa)
      exact heq ▸ hs
    · exact h

theorem isLeast_foldl_min_iff {a : α} {l : List α} :
    IsLeast {s | s ∈ l} (l.foldl min a) ↔ ∃ s ∈ l, s ≤ a :=
  isGreatest_foldl_max_iff (α := αᵒᵈ)

end RunningExtremes

open RunningExtremes

namespace WlanRssi

/-! ## The listener -/

/-- The variables of `init_rssi`. -/
structure Stats where
  max : ℤ
  min : ℤ
  sum : ℤ
  count : ℕ
  deriving DecidableEq, Repr

/-- The variables before the first packet. -/
def Stats.init : Stats := ⟨-100, 100, 0, 0⟩

/-- `tap.packet`, for the sample `s`. -/
def packet (t : Stats) (s : ℤ) : Stats where
  max := if s > t.max then s else t.max
  min := if s < t.min then s else t.min
  sum := t.sum + s
  count := t.count + 1

/-- The variables after the packets with these samples. -/
def stats (samples : List ℤ) : Stats := samples.foldl packet Stats.init

/-- `stats_sum/stats_count`, as `tap.draw` computes it. -/
def Stats.mean (t : Stats) : ℚ := t.sum / t.count

/-! ## What is collected -/

theorem packet_max (t : Stats) (s : ℤ) : (packet t s).max = Max.max t.max s := by
  show (if s > t.max then s else t.max) = _
  split_ifs <;> omega

theorem packet_min (t : Stats) (s : ℤ) : (packet t s).min = Min.min t.min s := by
  show (if s < t.min then s else t.min) = _
  split_ifs <;> omega

theorem foldl_packet (samples : List ℤ) (t : Stats) :
    samples.foldl packet t = ⟨samples.foldl Max.max t.max, samples.foldl Min.min t.min,
      t.sum + samples.sum, t.count + samples.length⟩ := by
  induction samples generalizing t with
  | nil => simp
  | cons s rest ih =>
    rw [List.foldl_cons, ih, packet_max, packet_min, List.sum_cons, List.length_cons,
      ← add_assoc, Nat.add_comm rest.length, ← add_assoc]
    rfl

theorem stats_eq (samples : List ℤ) :
    stats samples = ⟨samples.foldl Max.max (-100), samples.foldl Min.min 100, samples.sum,
      samples.length⟩ := by
  rw [stats, foldl_packet]
  simp [Stats.init]

/-- The variables hold what is to be printed about the samples. -/
structure Correct (samples : List ℤ) (t : Stats) : Prop where
  max : IsGreatest {s | s ∈ samples} t.max
  min : IsLeast {s | s ∈ samples} t.min
  mean : t.mean = (samples.sum : ℚ) / samples.length
  min_le_mean : t.min ≤ t.mean
  mean_le_max : t.mean ≤ t.max

/-- The mean is between the extremes if these are extremes. -/
theorem mean_between {samples : List ℤ} {lo hi : ℤ} (hlo : IsLeast {s | s ∈ samples} lo)
    (hhi : IsGreatest {s | s ∈ samples} hi) :
    (lo : ℚ) ≤ (samples.sum : ℚ) / samples.length ∧
      (samples.sum : ℚ) / samples.length ≤ hi := by
  have hpos : (0 : ℚ) < samples.length := by
    exact_mod_cast List.length_pos_of_mem hlo.1
  have hleft : samples.length • lo ≤ samples.sum :=
    List.card_nsmul_le_sum samples lo fun s hs => hlo.2 hs
  have hright : samples.sum ≤ samples.length • hi :=
    List.sum_le_card_nsmul samples hi fun s hs => hhi.2 hs
  rw [nsmul_eq_mul] at hleft hright
  rw [le_div_iff₀ hpos, div_le_iff₀ hpos, mul_comm (lo : ℚ), mul_comm (hi : ℚ)]
  exact ⟨by exact_mod_cast hleft, by exact_mod_cast hright⟩

/-- **The statistics are those of the samples** if and only if one of them is at least -100 and
one is at most 100. -/
theorem correct_stats_iff (samples : List ℤ) :
    Correct samples (stats samples) ↔ (∃ s ∈ samples, -100 ≤ s) ∧ ∃ s ∈ samples, s ≤ 100 := by
  rw [stats_eq, ← isGreatest_foldl_max_iff, ← isLeast_foldl_min_iff]
  constructor
  · intro h
    exact ⟨h.max, h.min⟩
  · rintro ⟨hmax, hmin⟩
    obtain ⟨hlo, hhi⟩ := mean_between hmin hmax
    exact ⟨hmax, hmin, rfl, hlo, hhi⟩

/-- One weak signal: -100 is printed as the largest sample. -/
theorem not_correct_stats :
    ¬ ∀ samples : List ℤ, samples ≠ [] → (∀ s ∈ samples, -128 ≤ s ∧ s ≤ 127) →
      Correct samples (stats samples) := by
  intro h
  have hmax := (h [-110] (by decide) (by decide)).max.1
  exact absurd hmax (by decide)

end WlanRssi
