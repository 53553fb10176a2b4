/-
# Waiting for frames of a tap device

`main_loop` of `src/c/tap/test.c`: `select` waits for the descriptor of the device, and a frame
that has arrived is read and written back.  The set of descriptors and the timeout are filled
in before the loop.  `select` overwrites both, so that what one call leaves is what the next
one is given.
-/
import LeakimMisc.LabelledRuns
import Mathlib.Data.Finset.Card
import Mathlib.Data.Finset.Lattice.Basic

open LabelledRuns

namespace TapLoop

/-! ## The loop -/

/-- The variables of `main_loop`; the timeout is in microseconds. -/
structure State where
  readset : Finset ℕ
  timeout : ℕ
  rxCount : ℕ
  txCount : ℕ
  loop : Bool
  deriving DecidableEq

/-- `{ 5, 100*1000 }`. -/
def initialTimeout : ℕ := 5 * 1000000 + 100 * 1000

/-- What is set up before the loop. -/
def State.init (fd : ℕ) : State := ⟨{fd}, initialTimeout, 0, 0, true⟩

/-- What happens in a turn: `select` fails, interrupted or not, or it returns when some
descriptors have become readable or its time is over; `left` is the time that it leaves, and
`s` is what `read` returns if it is called. -/
inductive Answer
  | interrupted (left : ℕ)
  | returns (readable : Finset ℕ) (left : ℕ) (s : ℤ)
  deriving DecidableEq

def Answer.left : Answer → ℕ
  | .interrupted left => left
  | .returns _ left _ => left

/-- The result of `select` and what it leaves in its arguments. -/
structure Selected where
  result : ℤ
  readset : Finset ℕ
  timeout : ℕ

/-- `select(FD_SETSIZE, &readset, NULL, NULL, &timeout)`: it sees the readable descriptors of
its set, and if there are none, it has timed out. -/
def select (readset : Finset ℕ) : Answer → Selected
  | .interrupted left => ⟨-1, readset, left⟩
  | .returns readable left _ =>
    if readset ∩ readable = ∅ then ⟨0, ∅, 0⟩
    else ⟨(readset ∩ readable).card, readset ∩ readable, left⟩

/-- What is done after `read` has returned `s`. -/
def State.receive (st : State) (s : ℤ) : State :=
  if 0 < s then
    { st with
      rxCount := st.rxCount + 1
      txCount := st.txCount + 1
      loop := if 10 < st.rxCount + 1 then false else st.loop }
  else st

/-- Whether the turn comes to `read`. -/
def reads (st : State) (a : Answer) : Prop := 0 < (select st.readset a).result

/-- A turn of the loop.  Only a positive result does something: the failures that are not
interruptions are reported, and a result below -1 does not occur. -/
def turn (st : State) (a : Answer) : State :=
  let r := select st.readset a
  let st' := { st with readset := r.readset, timeout := r.timeout }
  match a with
  | .interrupted _ => st'
  | .returns _ _ s => if 0 < r.result then st'.receive s else st'

/-- A turn as a step; no more time is left than there was. -/
def Step (st : State) (a : Answer) (st' : State) : Prop :=
  st.loop = true ∧ a.left ≤ st.timeout ∧ st' = turn st a

/-! ## The arguments of a call -/

/-- The state before a call that waits for the device, and for the full time. -/
def Armed (fd : ℕ) (st : State) : Prop := fd ∈ st.readset ∧ st.timeout = initialTimeout

/-- A frame can be read when the call returns. -/
def Answer.Arrived (fd : ℕ) : Answer → Prop
  | .interrupted _ => False
  | .returns readable _ _ => fd ∈ readable

/-- The call used no time: it was interrupted, or it found a frame, at once. -/
def Answer.AtOnce (fd : ℕ) : Answer → Prop
  | .interrupted left => left = initialTimeout
  | .returns readable left _ => fd ∈ readable ∧ left = initialTimeout

@[simp] theorem receive_readset (st : State) (s : ℤ) : (st.receive s).readset = st.readset := by
  rw [State.receive]
  split_ifs <;> rfl

@[simp] theorem receive_timeout (st : State) (s : ℤ) : (st.receive s).timeout = st.timeout := by
  rw [State.receive]
  split_ifs <;> rfl

/-- The next call is given what this one has left. -/
theorem turn_args (st : State) (a : Answer) :
    (turn st a).readset = (select st.readset a).readset ∧
      (turn st a).timeout = (select st.readset a).timeout := by
  cases a with
  | interrupted left => exact ⟨rfl, rfl⟩
  | returns readable left s =>
    rw [turn]
    split_ifs <;> simp

/-- A call that waits for the device sees a frame. -/
theorem reads_of_arrived {fd : ℕ} {st : State} {a : Answer} (hfd : fd ∈ st.readset)
    (ha : a.Arrived fd) : reads st a := by
  cases a with
  | interrupted left => exact absurd ha id
  | returns readable left s =>
    have hmem : fd ∈ st.readset ∩ readable := Finset.mem_inter.mpr ⟨hfd, ha⟩
    have hne : st.readset ∩ readable ≠ ∅ := Finset.ne_empty_of_mem hmem
    rw [reads, select, if_neg hne]
    show (0 : ℤ) < ((st.readset ∩ readable).card : ℤ)
    exact_mod_cast Finset.card_pos.mpr ⟨fd, hmem⟩

/-- One turn leaves the arguments as they have to be if and only if it used no time. -/
theorem armed_turn_iff {fd : ℕ} {st : State} {a : Answer} (h : Armed fd st) :
    Armed fd (turn st a) ↔ a.AtOnce fd := by
  obtain ⟨hset, htime⟩ := turn_args st a
  rw [Armed, hset, htime]
  cases a with
  | interrupted left => exact and_iff_right h.1
  | returns readable left s =>
    rw [select]
    by_cases hempty : st.readset ∩ readable = ∅
    · have hfd : fd ∉ readable := by
        intro hfd
        exact Finset.ne_empty_of_mem (Finset.mem_inter.mpr ⟨h.1, hfd⟩) hempty
      rw [if_pos hempty]
      simp [Answer.AtOnce, hfd]
    · rw [if_neg hempty]
      simp [Answer.AtOnce, h.1]

/-! ## Runs -/

/-- All calls so far and the next one are made as they have to be if and only if those so far
used no time. -/
theorem run_armed_iff {fd : ℕ} {hist : List (State × Answer)} {st : State}
    (h : Run Step (State.init fd) hist st) :
    ((∀ p ∈ hist, Armed fd p.1) ∧ Armed fd st) ↔ ∀ p ∈ hist, p.2.AtOnce fd := by
  induction h with
  | start => simp [Armed, State.init]
  | @next hist st st' a h hstep ih =>
    obtain ⟨-, -, rfl⟩ := hstep
    simp only [List.forall_mem_append, List.forall_mem_singleton]
    rw [ih]
    constructor
    · rintro ⟨hall, hst'⟩
      exact ⟨hall, (armed_turn_iff (ih.mpr hall).2).mp hst'⟩
    · rintro ⟨hall, ha⟩
      exact ⟨hall, (armed_turn_iff (ih.mpr hall).2).mpr ha⟩

/-- With an empty set nothing is seen. -/
theorem not_reads_of_empty {st : State} (h : st.readset = ∅) (a : Answer) : ¬ reads st a := by
  cases a with
  | interrupted left => simp [reads, select]
  | returns readable left s => simp [reads, select, h]

theorem turn_of_empty {st : State} (h : st.readset = ∅) (a : Answer) :
    (turn st a).readset = ∅ ∧ (turn st a).rxCount = st.rxCount := by
  cases a with
  | interrupted left => exact ⟨h, rfl⟩
  | returns readable left s => simp [turn, select, h]

/-- **After a timeout no frame is read any more.** -/
theorem run_of_timeout {st st' : State} {readable : Finset ℕ} {left : ℕ} {s : ℤ}
    (htimeout : st.readset ∩ readable = ∅) {hist : List (State × Answer)}
    (h : Run Step (turn st (.returns readable left s)) hist st') :
    st'.rxCount = st.rxCount ∧ ∀ p ∈ hist, ¬ reads p.1 p.2 := by
  have hempty : (turn st (.returns readable left s)).readset = ∅ := by
    rw [(turn_args st _).1, select, if_pos htimeout]
  have hcount : (turn st (.returns readable left s)).rxCount = st.rxCount := by
    simp [turn, select, htimeout]
  have hinv := h.invariant (I := fun st'' => st''.readset = ∅ ∧ st''.rxCount = st.rxCount)
    (G := fun _ _ => True) ⟨hempty, hcount⟩ (by
      rintro st₁ a st₂ ⟨hset, hrx⟩ - ⟨-, -, rfl⟩
      have hturn := turn_of_empty hset a
      exact ⟨hturn.1, hturn.2.trans hrx⟩) (fun _ _ => trivial)
  exact ⟨hinv.1.2, fun p hp => not_reads_of_empty (hinv.2 p hp).1 p.2⟩

/-- **Every call is made with the device in its set and with the full time**, and reads a frame
that has arrived, if and only if no call but the last has used any time. -/
theorem calls_armed_iff {fd : ℕ} {hist : List (State × Answer)} {st : State}
    (h : Run Step (State.init fd) hist st) :
    (∀ p ∈ hist, Armed fd p.1 ∧ (p.2.Arrived fd → reads p.1 p.2)) ↔
      ∀ p ∈ hist.dropLast, p.2.AtOnce fd := by
  have hreads : (∀ p ∈ hist, Armed fd p.1 ∧ (p.2.Arrived fd → reads p.1 p.2)) ↔
      ∀ p ∈ hist, Armed fd p.1 := by
    constructor
    · exact fun h p hp => (h p hp).1
    · exact fun h p hp => ⟨h p hp, reads_of_arrived (h p hp).1⟩
  rw [hreads]
  cases h with
  | start => simp
  | @next hist st st' a h hstep =>
    rw [List.dropLast_concat, ← run_armed_iff h, List.forall_mem_append,
      List.forall_mem_singleton]

/-- The second of two frames that are there at once. -/
theorem calls_armed_two :
    Armed 3 (turn (State.init 3) (.returns {3} 5100000 60)) ∧
      reads (turn (State.init 3) (.returns {3} 5100000 60)) (.returns {3} 4000000 60) := by
  have hrun : Run Step (State.init 3)
      ([(State.init 3, Answer.returns {3} 5100000 60)] ++
        [(turn (State.init 3) (.returns {3} 5100000 60), Answer.returns {3} 4000000 60)])
      (turn (turn (State.init 3) (.returns {3} 5100000 60)) (.returns {3} 4000000 60)) :=
    .next (.next .start ⟨rfl, by decide, rfl⟩) ⟨by decide, by decide, rfl⟩
  have hcalls := (calls_armed_iff hrun).mpr (by
    intro p hp
    rw [List.mem_singleton.mp hp]
    exact ⟨by decide, rfl⟩)
  have hsecond := hcalls _ (List.mem_append_right _ List.mem_cons_self)
  exact ⟨hsecond.1, hsecond.2 (Finset.mem_singleton_self 3)⟩

/-- A frame that comes after the first timeout is not read. -/
theorem not_calls_armed :
    ¬ ∀ (fd : ℕ) (hist : List (State × Answer)) (st : State), Run Step (State.init fd) hist st →
      ∀ p ∈ hist, Armed fd p.1 ∧ (p.2.Arrived fd → reads p.1 p.2) := by
  intro h
  have hrun : Run Step (State.init 3)
      ([(State.init 3, Answer.returns ∅ 0 0)] ++
        [(turn (State.init 3) (.returns ∅ 0 0), Answer.returns {3} 0 60)])
      (turn (turn (State.init 3) (.returns ∅ 0 0)) (.returns {3} 0 60)) :=
    .next (.next .start ⟨rfl, by decide, rfl⟩) ⟨by decide, by decide, rfl⟩
  have hlast := (h 3 _ _ hrun _ (List.mem_append_right _ List.mem_cons_self)).1.1
  exact absurd hlast (by decide)

end TapLoop
