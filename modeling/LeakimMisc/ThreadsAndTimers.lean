/-
# Two threads and a spin lock

`src/c/pthread/threads_and_timers.c`: `main` holds the lock while it creates a thread, gives it
free, and some time later expects that `pthread_spin_trylock` fails, since the thread has it by
then.  Only calls of `sleep` see to that.  In some schedules `main` gets the lock: then it waits
for the thread, and the thread for the lock, for ever (`stuck_iff`); in all others the program
can still come to its end (`canEnd_iff`).
-/
import LeakimMisc.LabelledRuns
import Mathlib.Tactic

open LabelledRuns

namespace ThreadsAndTimers

/-! ## The threads -/

inductive Thread
  | main
  | timer
  deriving DecidableEq, Repr

/-- The calls that the threads make. -/
inductive Call
  | printf (line : String)
  | sleep
  | spinInit
  | spinLock
  | spinUnlock
  /-- `pthread_spin_trylock`, and what is printed if it fails. -/
  | spinTrylock (line : String)
  | create
  | join
  deriving DecidableEq, Repr

/-- `6 failed to get trylock, as expected`. -/
def expected : String := "6 failed to get trylock, as expected"

/-- `main`. -/
def mainCalls : List Call :=
  [.printf "will init", .spinInit, .printf "1", .spinLock, .sleep, .printf "2", .create,
    .printf "4", .spinUnlock, .sleep, .spinTrylock expected, .join,
    .printf "=== End of Program - all threads in ==="]

/-- `g_start_timer`, with `timeout_cb`. -/
def gStartTimer : List Call :=
  [.printf "3", .sleep, .spinLock, .printf "5", .sleep, .printf "go to sleep for 3", .sleep,
    .printf "=== your time is up ==="]

/-- Who has the lock, how many calls `main` has made, and the thread, once it is created, and what
has been printed. -/
structure State where
  lock : Option Thread
  main : ℕ
  timer : Option ℕ
  out : List String
  deriving DecidableEq, Repr

/-- The state at the start. -/
def init : State := ⟨none, 0, none, []⟩

/-- What a call does, unless the thread has to wait. -/
def Call.perform (s : State) (t : Thread) : Call → Option State
  | .printf line => some { s with out := s.out ++ [line] }
  | .sleep => some s
  | .spinInit => some { s with lock := none }
  | .spinLock => if s.lock = none then some { s with lock := some t } else none
  | .spinUnlock => some { s with lock := none }
  | .spinTrylock line =>
    if s.lock = none then some { s with lock := some t }
    else some { s with out := s.out ++ [line] }
  | .create => some { s with timer := some 0 }
  | .join => if s.timer = some gStartTimer.length then some s else none

/-- The next call of a thread. -/
def next (s : State) : Thread → Option State
  | .main => mainCalls[s.main]?.bind fun call =>
    (call.perform s .main).map fun s' => { s' with main := s.main + 1 }
  | .timer => s.timer.bind fun m => gStartTimer[m]?.bind fun call =>
    (call.perform s .timer).map fun s' => { s' with timer := some (m + 1) }

/-- One of the threads makes its next call. -/
def Step (s : State) (t : Thread) (s' : State) : Prop := next s t = some s'

/-! ## The invariant -/

/-- **Where the threads can be.**  The lock is free only before `main` takes it for the first time
and between its unlocking and the next call that asks for it. -/
inductive Inv : State → Prop
  | starting {n : ℕ} {out : List String} (hn : n ≤ 3) (h6 : expected ∉ out) :
      Inv ⟨none, n, none, out⟩
  | holding {n : ℕ} {out : List String} (hn : 4 ≤ n) (hn' : n ≤ 6) (h6 : expected ∉ out) :
      Inv ⟨some .main, n, none, out⟩
  | created {n m : ℕ} {out : List String} (hn : 7 ≤ n) (hn' : n ≤ 8) (hm : m ≤ 2)
      (h6 : expected ∉ out) : Inv ⟨some .main, n, some m, out⟩
  | free {n m : ℕ} {out : List String} (hn : 9 ≤ n) (hn' : n ≤ 10) (hm : m ≤ 2)
      (h6 : expected ∉ out) : Inv ⟨none, n, some m, out⟩
  /-- The thread has got the lock in time. -/
  | taken {n m : ℕ} {out : List String} (hn : 9 ≤ n) (hn' : n ≤ 10) (hm : 3 ≤ m) (hm' : m ≤ 8)
      (h6 : expected ∉ out) : Inv ⟨some .timer, n, some m, out⟩
  | refused {n m : ℕ} {out : List String} (hn : 11 ≤ n) (hn' : n ≤ 13) (hm : 3 ≤ m) (hm' : m ≤ 8)
      (hjoin : 12 ≤ n → m = 8) (h6 : expected ∈ out) : Inv ⟨some .timer, n, some m, out⟩
  /-- `main` has got the lock again. -/
  | blocked {m : ℕ} {out : List String} (hm : m ≤ 2) (h6 : expected ∉ out) :
      Inv ⟨some .main, 11, some m, out⟩

theorem inv_init : Inv init := .starting (by decide) List.not_mem_nil

/-- What a call prints is not the line of `pthread_spin_trylock`. -/
theorem not_mem_concat {out : List String} {line : String} (h : expected ∉ out)
    (hline : expected ≠ line) : expected ∉ out ++ [line] := by
  rw [List.mem_append, List.mem_singleton, not_or]
  exact ⟨h, hline⟩

/-- `main` makes a call. -/
theorem Inv.main {s s' : State} (h : Inv s) (hstep : Step s .main s') : Inv s' := by
  cases h with
  | @starting n out hn h6 =>
    interval_cases n <;> obtain rfl := Option.some.inj hstep
    · exact .starting (by simp) (not_mem_concat h6 (by decide))
    · exact .starting (by simp) h6
    · exact .starting le_rfl (not_mem_concat h6 (by decide))
    · exact .holding le_rfl (by simp) h6
  | @holding n out hn hn' h6 =>
    interval_cases n <;> obtain rfl := Option.some.inj hstep
    · exact .holding (by simp) (by simp) h6
    · exact .holding (by simp) le_rfl (not_mem_concat h6 (by decide))
    · exact .created le_rfl (by simp) (by simp) h6
  | @created n m out hn hn' hm h6 =>
    interval_cases n <;> obtain rfl := Option.some.inj hstep
    · exact .created (by simp) le_rfl hm (not_mem_concat h6 (by decide))
    · exact .free le_rfl (by simp) hm h6
  | @free n m out hn hn' hm h6 =>
    interval_cases n <;> obtain rfl := Option.some.inj hstep
    · exact .free (by simp) le_rfl hm h6
    · exact .blocked hm h6
  | @taken n m out hn hn' hm hm' h6 =>
    interval_cases n <;> obtain rfl := Option.some.inj hstep
    · exact .taken (by simp) le_rfl hm hm' h6
    · exact .refused le_rfl (by simp) hm hm' (by simp) (List.mem_append_right _ (by simp))
  | @refused n m out hn hn' hm hm' hjoin h6 =>
    interval_cases n
    · -- the join returns when the thread has ended
      by_cases hend : m = 8
      · subst hend
        obtain rfl := Option.some.inj hstep
        exact .refused (by simp) (by simp) hm le_rfl (fun _ => rfl) h6
      · simp [Step, next, mainCalls, Call.perform, gStartTimer, hend] at hstep
    · obtain rfl := Option.some.inj hstep
      exact .refused (by simp) le_rfl hm hm' (fun _ => hjoin le_rfl)
        (List.mem_append_left _ h6)
    · exact absurd hstep (by simp [Step, next, mainCalls])
  | @blocked m out hm h6 =>
    have hne : m ≠ 8 := by omega
    simp [Step, next, mainCalls, Call.perform, gStartTimer, hne] at hstep

/-- The thread makes a call. -/
theorem Inv.timer {s s' : State} (h : Inv s) (hstep : Step s .timer s') : Inv s' := by
  cases h with
  | starting hn h6 => exact absurd hstep (by simp [Step, next])
  | holding hn hn' h6 => exact absurd hstep (by simp [Step, next])
  | @created n m out hn hn' hm h6 =>
    interval_cases m
    · obtain rfl := Option.some.inj hstep
      exact .created hn hn' (by decide) (not_mem_concat h6 (by decide))
    · obtain rfl := Option.some.inj hstep
      exact .created hn hn' le_rfl h6
    · exact absurd hstep (by simp [Step, next, gStartTimer, Call.perform])
  | @free n m out hn hn' hm h6 =>
    interval_cases m <;> obtain rfl := Option.some.inj hstep
    · exact .free hn hn' (by decide) (not_mem_concat h6 (by decide))
    · exact .free hn hn' le_rfl h6
    · exact .taken hn hn' le_rfl (by decide) h6
  | @taken n m out hn hn' hm hm' h6 =>
    interval_cases m
    · obtain rfl := Option.some.inj hstep
      exact .taken hn hn' (by decide) (by decide) (not_mem_concat h6 (by decide))
    · obtain rfl := Option.some.inj hstep
      exact .taken hn hn' (by decide) (by decide) h6
    · obtain rfl := Option.some.inj hstep
      exact .taken hn hn' (by decide) (by decide) (not_mem_concat h6 (by decide))
    · obtain rfl := Option.some.inj hstep
      exact .taken hn hn' (by decide) (by decide) h6
    · obtain rfl := Option.some.inj hstep
      exact .taken hn hn' (by decide) le_rfl (not_mem_concat h6 (by decide))
    · exact absurd hstep (by simp [Step, next, gStartTimer])
  | @refused n m out hn hn' hm hm' hjoin h6 =>
    have hlt : m < 8 := by
      by_contra hend
      obtain rfl : m = 8 := by omega
      exact absurd hstep (by simp [Step, next, gStartTimer])
    have hjoin' : 12 ≤ n → m + 1 = 8 := fun h => absurd (hjoin h) hlt.ne
    have hout : ∃ out', s' = ⟨some .timer, n, some (m + 1), out'⟩ ∧ expected ∈ out' := by
      interval_cases m <;> obtain rfl := Option.some.inj hstep
      · exact ⟨_, rfl, List.mem_append_left _ h6⟩
      · exact ⟨_, rfl, h6⟩
      · exact ⟨_, rfl, List.mem_append_left _ h6⟩
      · exact ⟨_, rfl, h6⟩
      · exact ⟨_, rfl, List.mem_append_left _ h6⟩
    obtain ⟨out', rfl, h6'⟩ := hout
    exact .refused hn hn' (by omega) hlt hjoin' h6'
  | @blocked m out hm h6 =>
    interval_cases m
    · obtain rfl := Option.some.inj hstep
      exact .blocked (by decide) (not_mem_concat h6 (by decide))
    · obtain rfl := Option.some.inj hstep
      exact .blocked le_rfl h6
    · exact absurd hstep (by simp [Step, next, gStartTimer, Call.perform])

/-- A call keeps the invariant. -/
theorem Inv.step {s s' : State} {t : Thread} (h : Inv s) (hstep : Step s t s') : Inv s' := by
  cases t with
  | main => exact h.main hstep
  | timer => exact h.timer hstep

/-- **The invariant holds in every schedule.** -/
theorem inv_of_run {hist : List (State × Thread)} {s : State} (h : Run Step init hist s) :
    Inv s :=
  (h.invariant (I := Inv) (G := fun _ _ => True) inv_init (fun hs _ => hs.step)
    fun _ _ => trivial).1

/-! ## How the program ends -/

/-- Both threads have made all their calls. -/
def Ended (s : State) : Prop := s.main = mainCalls.length ∧ s.timer = some gStartTimer.length

/-- `main` has the lock and waits for the thread, which waits for the lock. -/
def Deadlocked (s : State) : Prop :=
  s.lock = some .main ∧ mainCalls[s.main]? = some .join ∧
    ∃ m, s.timer = some m ∧ gStartTimer[m]? = some .spinLock

/-- Where the threads can get stuck. -/
theorem Inv.next_eq_none_iff {s : State} (hI : Inv s) :
    (∀ t, next s t = none) ↔ Ended s ∧ expected ∈ s.out ∨ Deadlocked s ∧ expected ∉ s.out := by
  constructor
  · intro hstuck
    have hmain := hstuck .main
    have htimer := hstuck .timer
    clear hstuck
    cases hI with
    | @starting n out hn h6 => interval_cases n <;> exact absurd hmain (Option.some_ne_none _)
    | @holding n out hn hn' h6 => interval_cases n <;> exact absurd hmain (Option.some_ne_none _)
    | @created n m out hn hn' hm h6 =>
      interval_cases n <;> exact absurd hmain (Option.some_ne_none _)
    | @free n m out hn hn' hm h6 => interval_cases n <;> exact absurd hmain (Option.some_ne_none _)
    | @taken n m out hn hn' hm hm' h6 =>
      interval_cases n <;> exact absurd hmain (Option.some_ne_none _)
    | @refused n m out hn hn' hm hm' hjoin h6 =>
      -- the thread has ended, and so has `main`
      obtain rfl : m = 8 := by
        by_contra hne
        interval_cases m <;> first | exact hne rfl | exact absurd htimer (Option.some_ne_none _)
      obtain rfl : n = 13 := by
        by_contra hne
        interval_cases n <;> first | exact hne rfl | exact absurd hmain (Option.some_ne_none _)
      exact Or.inl ⟨⟨rfl, rfl⟩, h6⟩
    | @blocked m out hm h6 =>
      obtain rfl : m = 2 := by
        by_contra hne
        interval_cases m <;> first | exact hne rfl | exact absurd htimer (Option.some_ne_none _)
      exact Or.inr ⟨⟨rfl, rfl, 2, rfl, rfl⟩, h6⟩
  · rintro (⟨⟨hmain, htimer⟩, -⟩ | ⟨⟨hlock, hjoin, m, htimer, hlockCall⟩, -⟩) t
    · cases t <;> simp [next, hmain, htimer]
    · cases t with
      | main =>
        have hne : m ≠ gStartTimer.length := by
          rintro rfl
          simp at hlockCall
        simp [next, hjoin, Call.perform, htimer, hne]
      | timer => simp [next, htimer, hlockCall, Call.perform, hlock]

/-- At the end `pthread_spin_trylock` has failed. -/
theorem Inv.expected_of_ended {s : State} (hI : Inv s) (h : Ended s) : expected ∈ s.out := by
  have hnever : ∀ t, next s t = none := by
    obtain ⟨hmain, htimer⟩ := h
    intro t
    cases t <;> simp [next, hmain, htimer]
  rcases hI.next_eq_none_iff.mp hnever with ⟨-, h6⟩ | ⟨⟨-, hjoin, -⟩, -⟩
  · exact h6
  · rw [h.1] at hjoin
    exact absurd hjoin (by decide)

/-- How many calls the threads have made. -/
def made (s : State) : ℕ := s.main + s.timer.getD 0

/-- What a call leaves to the threads. -/
theorem Call.perform_timer {s s' : State} {t : Thread} {call : Call}
    (h : call.perform s t = some s') : s'.timer = s.timer ∨ call = .create ∧ s'.timer = some 0 := by
  cases call with
  | create => exact Or.inr ⟨rfl, (Option.some.inj h) ▸ rfl⟩
  | spinLock =>
    rw [perform] at h
    split_ifs at h
    exact Or.inl ((Option.some.inj h) ▸ rfl)
  | spinTrylock line =>
    rw [perform] at h
    split_ifs at h <;> exact Or.inl ((Option.some.inj h) ▸ rfl)
  | join =>
    rw [perform] at h
    split_ifs at h
    exact Or.inl ((Option.some.inj h) ▸ rfl)
  | _ => exact Or.inl ((Option.some.inj h) ▸ rfl)

theorem Call.perform_main {s s' : State} {t : Thread} {call : Call}
    (h : call.perform s t = some s') : s'.main = s.main := by
  cases call with
  | spinLock =>
    rw [perform] at h
    split_ifs at h
    exact (Option.some.inj h) ▸ rfl
  | spinTrylock line =>
    rw [perform] at h
    split_ifs at h <;> exact (Option.some.inj h) ▸ rfl
  | join =>
    rw [perform] at h
    split_ifs at h
    exact (Option.some.inj h) ▸ rfl
  | _ => exact (Option.some.inj h) ▸ rfl

theorem eq_of_create {n : ℕ} (h : mainCalls[n]? = some .create) : n = 6 := by
  have hall : ∀ n < 13, mainCalls[n]? = some .create → n = 6 := by decide
  exact hall n (List.getElem?_eq_some_iff.mp h).1 h

theorem eq_of_join {n : ℕ} (h : mainCalls[n]? = some .join) : n = 11 := by
  have hall : ∀ n < 13, mainCalls[n]? = some .join → n = 11 := by decide
  exact hall n (List.getElem?_eq_some_iff.mp h).1 h

/-- The thread is created once. -/
theorem Inv.timer_of_create {s : State} (h : Inv s) (hcreate : mainCalls[s.main]? = some .create) :
    s.timer = none := by
  have hmain := eq_of_create hcreate
  cases h <;> first | rfl | (dsimp only at hmain; omega)

/-- A step is one more call. -/
theorem made_step {s s' : State} {t : Thread} (h : Inv s) (hstep : Step s t s') :
    made s' = made s + 1 := by
  cases t with
  | main =>
    obtain ⟨call, hcall, hsome⟩ := Option.bind_eq_some_iff.mp hstep
    obtain ⟨s₁, hperform, rfl⟩ := Option.map_eq_some_iff.mp hsome
    have htimer : s₁.timer.getD 0 = s.timer.getD 0 := by
      rcases Call.perform_timer hperform with hsame | ⟨rfl, hzero⟩
      · rw [hsame]
      · rw [hzero, h.timer_of_create hcall]
        rfl
    show s.main + 1 + s₁.timer.getD 0 = _
    rw [htimer, made]
    omega
  | timer =>
    obtain ⟨m, hm, hsome⟩ := Option.bind_eq_some_iff.mp hstep
    obtain ⟨call, hcall, hsome⟩ := Option.bind_eq_some_iff.mp hsome
    obtain ⟨s₁, hperform, rfl⟩ := Option.map_eq_some_iff.mp hsome
    show s₁.main + (m + 1) = _
    rw [Call.perform_main hperform, made, hm]
    rfl

theorem Inv.made_le {s : State} (h : Inv s) :
    made s ≤ mainCalls.length + gStartTimer.length := by
  cases h <;> simp [made, mainCalls, gStartTimer] <;> omega

/-- **No schedule goes on for ever**: it makes at most the calls of both threads. -/
theorem length_le {hist : List (State × Thread)} {s : State} (h : Run Step init hist s) :
    hist.length ≤ mainCalls.length + gStartTimer.length := by
  have hmade : hist.length = made s := by
    induction h with
    | start => rfl
    | next hrun hstep ih =>
      rw [List.length_append, List.length_singleton, ih, made_step (inv_of_run hrun) hstep]
  rw [hmade]
  exact (inv_of_run h).made_le

/-- `main` has got the lock with `pthread_spin_trylock`, and waits for the thread. -/
def Blocked (s : State) : Prop := s.lock = some .main ∧ mainCalls[s.main]? = some .join

/-- From there it does not go on. -/
theorem Blocked.step {s s' : State} {t : Thread} (h : Inv s) (hb : Blocked s)
    (hstep : Step s t s') : Blocked s' := by
  obtain ⟨hlock, hjoin⟩ := hb
  have hmain := eq_of_join hjoin
  cases h with
  | starting hn h6 => exact absurd hlock (by simp)
  | @holding n out hn hn' h6 =>
    dsimp only at hmain
    omega
  | @created n m out hn hn' hm h6 =>
    dsimp only at hmain
    omega
  | free hn hn' hm h6 => exact absurd hlock (by simp)
  | taken hn hn' hm hm' h6 => exact absurd hlock (by simp)
  | refused hn hn' hm hm' hjoin' h6 => exact absurd hlock (by simp)
  | @blocked m out hm h6 =>
    cases t with
    | main =>
      have hne : m ≠ 8 := by omega
      simp [Step, next, mainCalls, Call.perform, gStartTimer, hne] at hstep
    | timer =>
      interval_cases m
      · obtain rfl := Option.some.inj hstep
        exact ⟨rfl, rfl⟩
      · obtain rfl := Option.some.inj hstep
        exact ⟨rfl, rfl⟩
      · exact absurd hstep (by simp [Step, next, gStartTimer, Call.perform])

/-- Everywhere else one of the threads can make a call after which `main` is not blocked. -/
theorem exists_step {s : State} (h : Inv s) (hb : ¬ Blocked s) (hend : ¬ Ended s) :
    ∃ t s', Step s t s' ∧ ¬ Blocked s' := by
  cases h with
  | @starting n out hn h6 =>
    refine ⟨.main, ?_⟩
    interval_cases n <;> exact ⟨_, rfl, fun h => absurd h.2 (by simp [mainCalls])⟩
  | @holding n out hn hn' h6 =>
    refine ⟨.main, ?_⟩
    interval_cases n <;> exact ⟨_, rfl, fun h => absurd h.2 (by simp [mainCalls])⟩
  | @created n m out hn hn' hm h6 =>
    refine ⟨.main, ?_⟩
    interval_cases n <;> exact ⟨_, rfl, fun h => absurd h.2 (by simp [mainCalls])⟩
  | @free n m out hn hn' hm h6 =>
    -- the thread goes first
    refine ⟨.timer, ?_⟩
    interval_cases m <;> exact ⟨_, rfl, fun h => absurd h.1 (by simp)⟩
  | @taken n m out hn hn' hm hm' h6 =>
    refine ⟨.main, ?_⟩
    interval_cases n <;> exact ⟨_, rfl, fun h => absurd h.1 (by simp)⟩
  | @refused n m out hn hn' hm hm' hjoin h6 =>
    by_cases hm8 : m = 8
    · subst hm8
      refine ⟨.main, ?_⟩
      interval_cases n
      · exact ⟨_, rfl, fun h => absurd h.1 (by simp)⟩
      · exact ⟨_, rfl, fun h => absurd h.1 (by simp)⟩
      · exact absurd ⟨rfl, rfl⟩ hend
    · refine ⟨.timer, ?_⟩
      interval_cases m
      all_goals first | exact ⟨_, rfl, fun h => absurd h.1 (by simp)⟩ | exact absurd rfl hm8
  | blocked hm h6 => exact absurd ⟨rfl, rfl⟩ hb

/-- As long as `main` has not got the lock again, some schedule leads to the end. -/
theorem exists_end {s : State} (hI : Inv s) (hb : ¬ Blocked s) :
    ∃ hist' s', Run Step s hist' s' ∧ Ended s' := by
  -- by induction on the calls that are left
  induction hk : mainCalls.length + gStartTimer.length - made s generalizing s with
  | zero =>
    by_cases hend : Ended s
    · exact ⟨[], s, .start, hend⟩
    · obtain ⟨t, s', hstep, -⟩ := exists_step hI hb hend
      have hle := (hI.step hstep).made_le
      have hmade := made_step hI hstep
      omega
  | succ k ih =>
    by_cases hend : Ended s
    · exact ⟨[], s, .start, hend⟩
    · obtain ⟨t, s', hstep, hb'⟩ := exists_step hI hb hend
      have hmade := made_step hI hstep
      obtain ⟨hist', s'', hrun, hend'⟩ := ih (hI.step hstep) hb' (by omega)
      exact ⟨(s, t) :: hist', s'', hrun.cons hstep, hend'⟩

/-- **When the end can still be reached**: by some schedule from each state, except from those in
which `main` has got the lock again. -/
theorem canEnd_iff {hist : List (State × Thread)} {s : State} (h : Run Step init hist s) :
    (∃ hist' s', Run Step s hist' s' ∧ Ended s') ↔ ¬ Blocked s := by
  have hI := inv_of_run h
  constructor
  · rintro ⟨hist', s', hrun, hend, -⟩ hb
    have hlater : Inv s' ∧ Blocked s' := by
      refine (hrun.invariant (I := fun s => Inv s ∧ Blocked s) (G := fun _ _ => True) ⟨hI, hb⟩
        ?_ fun _ _ => trivial).1
      rintro s t s' ⟨hs, hbs⟩ - hstep
      exact ⟨hs.step hstep, hbs.step hs hstep⟩
    have hnone := hlater.2.2
    rw [hend] at hnone
    exact absurd hnone (by decide)
  · exact exists_end hI

/-- A schedule that can be followed is a run. -/
theorem exists_run {ts : List Thread} {s s' : State} (h : ts.foldlM next s = some s') :
    ∃ hist, Run Step s hist s' := by
  induction ts generalizing s with
  | nil =>
    obtain rfl := Option.some.inj h
    exact ⟨[], .start⟩
  | cons t ts ih =>
    obtain ⟨s₁, hstep, hlater⟩ := Option.bind_eq_some_iff.mp h
    obtain ⟨hist, hrun⟩ := ih hlater
    exact ⟨(s, t) :: hist, hrun.cons hstep⟩

/-- `main` goes on as long as it can, and then the thread. -/
def mainFirst : List Thread := List.replicate 11 .main ++ List.replicate 2 .timer

/-- Where that leads. -/
def sampleDeadlock : State := ⟨some .main, 11, some 2, ["will init", "1", "2", "4", "3"]⟩

theorem exists_run_mainFirst : ∃ hist, Run Step init hist sampleDeadlock := by
  have hfollow : mainFirst.foldlM next init = some sampleDeadlock := by decide +kernel
  exact exists_run hfollow

/-- **Where a schedule can get stuck**: at the end of the program, if `pthread_spin_trylock` has
failed as expected, or in the deadlock, if it has not; and there are schedules that lead to the
one and to the other. -/
theorem stuck_iff :
    (∀ hist s, Run Step init hist s → ((∀ t, next s t = none) ↔
      Ended s ∧ expected ∈ s.out ∨ Deadlocked s ∧ expected ∉ s.out)) ∧
    (∃ hist s, Run Step init hist s ∧ Ended s ∧ expected ∈ s.out) ∧
    ∃ hist s, Run Step init hist s ∧ Deadlocked s ∧ expected ∉ s.out := by
  refine ⟨fun hist s h => (inv_of_run h).next_eq_none_iff, ?_, ?_⟩
  · have hfree : ¬ Blocked init := fun h => absurd h.1 (by decide)
    obtain ⟨hist, s, hrun, hend⟩ := exists_end inv_init hfree
    exact ⟨hist, s, hrun, hend, (inv_of_run hrun).expected_of_ended hend⟩
  · obtain ⟨hist, hrun⟩ := exists_run_mainFirst
    exact ⟨hist, _, hrun, ⟨rfl, rfl, 2, rfl, rfl⟩, by decide⟩

theorem stuck_mainFirst : next sampleDeadlock .main = none ∧ next sampleDeadlock .timer = none := by
  obtain ⟨hist, hrun⟩ := exists_run_mainFirst
  have hstuck := (stuck_iff.1 hist _ hrun).mpr (Or.inr ⟨⟨rfl, rfl, 2, rfl, rfl⟩, by decide⟩)
  exact ⟨hstuck .main, hstuck .timer⟩

theorem canEnd_mainFirst :
    ¬ ∃ hist' s', Run Step sampleDeadlock hist' s' ∧ Ended s' := by
  obtain ⟨hist, hrun⟩ := exists_run_mainFirst
  rw [canEnd_iff hrun, not_not]
  exact ⟨rfl, rfl⟩

end ThreadsAndTimers
