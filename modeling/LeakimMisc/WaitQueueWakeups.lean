/-
# Wake-ups

`src/c/pthread_waitq/main.c`: what a signal is worth.  As long as every waiter that goes on has
found a job, a thread waits only if all jobs in the queue are spoken for by threads that have been
woken (`jobs_le_woken`), so that no thread sleeps beside a job.  The other way round, the woken
threads find their jobs if nobody takes one that is spoken for (`safe_of_reserved`), for example
if only one thread calls `pop` (`safe_of_one_consumer`), and no wake-up comes without a signal.
-/
import LeakimMisc.WaitQueue
import Mathlib.Data.Fintype.Card
import Mathlib.Algebra.BigOperators.Ring.Finset

open LabelledRuns

namespace PthreadWaitq

/-! ## Counting threads -/

/-- What changing one value of a function does to the number of times that it has the value
`c`. -/
theorem card_filter_update {T P : Type*} [Fintype T] [DecidableEq T] [DecidableEq P] (f : T → P)
    (t : T) (p c : P) :
    (Finset.univ.filter fun x => Function.update f t p x = c).card + (if f t = c then 1 else 0) =
      (Finset.univ.filter fun x => f x = c).card + if p = c then 1 else 0 := by
  have hrest : ∑ x ∈ Finset.univ.erase t, (if Function.update f t p x = c then 1 else 0) =
      ∑ x ∈ Finset.univ.erase t, if f x = c then 1 else 0 := by
    apply Finset.sum_congr rfl
    intro x hx
    rw [Function.update_of_ne (Finset.ne_of_mem_erase hx)]
  rw [Finset.card_filter, Finset.card_filter, ← Finset.add_sum_erase _ _ (Finset.mem_univ t),
    ← Finset.add_sum_erase Finset.univ (fun x => if f x = c then 1 else 0) (Finset.mem_univ t),
    hrest, Function.update_self]
  omega

variable {T Job Q : Type*} {q : JobQueue Job Q} {s s' : State T Job Q}

/-- The number of jobs in the queue. -/
def jobCount (q : JobQueue Job Q) (s : State T Job Q) : ℕ := (q.jobs s.queue).card

theorem phase_setPhase [DecidableEq T] (s : State T Job Q) (t : T) (p : Phase) :
    (s.setPhase t p).phase = Function.update s.phase t p := rfl

@[simp] theorem jobCount_setPhase [DecidableEq T] (s : State T Job Q) (t : T) (p : Phase) :
    jobCount q (s.setPhase t p) = jobCount q s := rfl

@[simp] theorem jobCount_insertJob (s : State T Job Q) (job : Job) :
    jobCount q (s.insertJob q job) = jobCount q s + 1 := by
  show (q.jobs (q.insert s.queue job)).card = _
  rw [q.jobs_insert, Multiset.card_add, Multiset.card_singleton]
  rfl

theorem jobCount_removeJob (h : q.empty s.queue = false) :
    jobCount q (s.removeJob q) + 1 = jobCount q s := by
  show (q.jobs (q.pop s.queue).2).card + 1 = (q.jobs s.queue).card
  rw [q.jobs_pop s.queue h, Multiset.card_add, Multiset.card_singleton, Nat.add_comm]

theorem jobCount_eq_zero_iff : jobCount q s = 0 ↔ q.empty s.queue := by
  rw [jobCount, Multiset.card_eq_zero, q.empty_iff]

variable [Fintype T]

/-- The number of threads that have been woken and are about to lock again. -/
def woken (s : State T Job Q) : ℕ := (Finset.univ.filter fun t => s.phase t = .woken).card

@[simp] theorem woken_insertJob (s : State T Job Q) (job : Job) :
    woken (s.insertJob q job) = woken s := rfl

@[simp] theorem woken_removeJob (s : State T Job Q) : woken (s.removeJob q) = woken s := rfl

theorem woken_eq_zero_iff : woken s = 0 ↔ ∀ t, s.phase t ≠ .woken := by
  rw [woken, Finset.card_eq_zero, Finset.filter_eq_empty_iff]
  exact ⟨fun h t => h (Finset.mem_univ t), fun h t _ => h t⟩

/-- There is a job for every thread that has been woken. -/
def Reserved (q : JobQueue Job Q) (s : State T Job Q) : Prop := woken s ≤ jobCount q s

theorem reserved_start : Reserved q (start q : State T Job Q) := by
  rw [Reserved, woken_eq_zero_iff.mpr fun t => by simp [start]]
  exact Nat.zero_le _

variable [DecidableEq T]

theorem woken_setPhase (s : State T Job Q) (t : T) (p : Phase) :
    woken (s.setPhase t p) + (if s.phase t = .woken then 1 else 0) =
      woken s + if p = .woken then 1 else 0 :=
  card_filter_update s.phase t p .woken

/-! ## No thread sleeps beside a job -/

/-- If a thread waits, every job in the queue is spoken for by a thread that has been woken. -/
def SpokenFor (q : JobQueue Job Q) (s : State T Job Q) : Prop :=
  (∃ t, s.phase t = .waiting) → jobCount q s ≤ woken s

/-- **What a step does to the jobs that are spoken for.** -/
theorem SpokenFor.step {a : Action T Job} (h : SpokenFor q s) (hjob : FindsJob q s a)
    (hstep : Step q s a s') : SpokenFor q s' := by
  cases hstep with
  | push t job _ hsignal =>
    cases hsignal with
    | lost hnone =>
      rintro ⟨t', ht'⟩
      exact absurd ht' (hnone t')
    | wakes t' ht' =>
      intro _
      have hbefore := h ⟨t', ht'⟩
      have hwoken := woken_setPhase (s.insertJob q job) t' .woken
      rw [if_neg (by rw [ht']; decide), if_pos rfl, woken_insertJob] at hwoken
      rw [jobCount_setPhase, jobCount_insertJob]
      omega
  | pop t ht =>
    rw [State.popSection]
    by_cases hempty : q.empty s.queue
    · rw [if_pos hempty]
      intro _
      rw [jobCount_setPhase, jobCount_eq_zero_iff.mpr hempty]
      exact Nat.zero_le _
    · rw [if_neg hempty]
      intro hwaits
      have hbefore := h hwaits
      have hjobs := jobCount_removeJob (s := s) (by simpa using hempty)
      rw [woken_removeJob]
      omega
  | spurious t ht =>
    intro _
    have hbefore := h ⟨t, ht⟩
    have hwoken := woken_setPhase s t .woken
    rw [if_neg (by rw [ht]; decide), if_pos rfl] at hwoken
    rw [jobCount_setPhase]
    omega
  | resume t ht =>
    rintro ⟨t', ht'⟩
    have hne : t' ≠ t := by
      rintro rfl
      exact absurd ((Function.update_self _ _ _).symm.trans ht') (by decide)
    have hbefore := h ⟨t', (Function.update_of_ne hne _ _).symm.trans ht'⟩
    have hwoken := woken_setPhase (s.removeJob q) t .outside
    have hphase : (s.removeJob q).phase t = .woken := ht
    rw [if_pos hphase, if_neg (by decide), woken_removeJob] at hwoken
    have hjobs := jobCount_removeJob (hjob t rfl)
    rw [State.resumeSection, jobCount_setPhase]
    omega

/-- **No wake-up is lost**: as long as every waiter that has gone on has found a job, there are
no more jobs in the queue than woken threads on their way to them, if any thread still waits. -/
theorem jobs_le_woken {hist : List (State T Job Q × Action T Job)}
    (h : Run (Step q) (start q) hist s) (hsafe : Safe q hist s) (t : T)
    (ht : s.phase t = .waiting) : jobCount q s ≤ woken s := by
  have hinit : SpokenFor q (start q : State T Job Q) := by
    rintro ⟨t, ht⟩
    exact absurd ht (by simp [start])
  exact (h.invariant hinit SpokenFor.step ((safe_iff h).mp hsafe)).1 ⟨t, ht⟩

/-! ## No woken thread finds the queue empty -/

/-- The step is no wake-up without a signal, and takes no job that is spoken for. -/
def Respects (q : JobQueue Job Q) (s : State T Job Q) : Action T Job → Prop
  | .spurious _ => False
  | .pop _ => jobCount q s ≠ 0 → woken s < jobCount q s
  | _ => True

theorem Reserved.step {a : Action T Job} (h : Reserved q s) (hrespects : Respects q s a)
    (hstep : Step q s a s') : Reserved q s' := by
  rw [Reserved] at h ⊢
  cases hstep with
  | push t job _ hsignal =>
    cases hsignal with
    | lost =>
      rw [woken_insertJob, jobCount_insertJob]
      omega
    | wakes t' ht' =>
      have hwoken := woken_setPhase (s.insertJob q job) t' .woken
      rw [if_neg (by rw [ht']; decide), if_pos rfl, woken_insertJob] at hwoken
      rw [jobCount_setPhase, jobCount_insertJob]
      omega
  | pop t ht =>
    rw [State.popSection]
    by_cases hempty : q.empty s.queue
    · have hwoken := woken_setPhase s t .waiting
      rw [if_neg (by rw [ht]; decide), if_neg (by decide)] at hwoken
      rw [if_pos hempty, jobCount_setPhase]
      omega
    · have hjobs := jobCount_removeJob (s := s) (by simpa using hempty)
      have hmore := hrespects (by omega)
      rw [if_neg hempty, woken_removeJob]
      omega
  | spurious t _ => exact hrespects.elim
  | resume t ht =>
    have hwoken := woken_setPhase (s.removeJob q) t .outside
    have hphase : (s.removeJob q).phase t = .woken := ht
    rw [if_pos hphase, if_neg (by decide), woken_removeJob] at hwoken
    have hjobs : jobCount q (s.removeJob q) + 1 = jobCount q s := by
      apply jobCount_removeJob
      rw [← Bool.not_eq_true, ← jobCount_eq_zero_iff]
      omega
    rw [State.resumeSection, jobCount_setPhase]
    omega

/-- A woken thread finds a job that is there for it. -/
theorem Reserved.findsJob {a : Action T Job} (h : Reserved q s) (hstep : Step q s a s') :
    FindsJob q s a := by
  rintro t rfl
  cases hstep with
  | resume _ ht =>
    have hwoken : woken s ≠ 0 := fun hzero => woken_eq_zero_iff.mp hzero t ht
    rw [Reserved] at h
    rw [← Bool.not_eq_true, ← jobCount_eq_zero_iff]
    omega

/-- **A run is safe if its steps take no job that is spoken for**, and none is a wake-up without
a signal. -/
theorem safe_of_reserved {hist : List (State T Job Q × Action T Job)}
    (h : Run (Step q) (start q) hist s) (hrespects : ∀ p ∈ hist, Respects q p.1 p.2) :
    Safe q hist s := by
  rw [safe_iff h]
  intro p hp
  obtain ⟨s', hstep⟩ := h.enabled p hp
  exact ((h.invariant reserved_start Reserved.step hrespects).2 p hp).findsJob hstep

/-! ## One consumer -/

/-- Only `c` is inside `pop`. -/
def OnlyInside (c : T) (s : State T Job Q) : Prop := ∀ t, s.phase t ≠ .outside → t = c

/-- The step is no wake-up without a signal, and no other thread than `c` calls `pop`. -/
def OneConsumer (c : T) : Action T Job → Prop
  | .spurious _ => False
  | .pop t => t = c
  | _ => True

omit [Fintype T] in
theorem OnlyInside.setPhase {c : T} (h : OnlyInside c s) {t : T} {p : Phase}
    (ht : p ≠ .outside → t = c) : OnlyInside c (s.setPhase t p) := by
  intro t' ht'
  by_cases heq : t' = t
  · subst heq
    rw [phase_setPhase, Function.update_self] at ht'
    exact ht ht'
  · rw [phase_setPhase, Function.update_of_ne heq] at ht'
    exact h t' ht'

omit [Fintype T] in
theorem OnlyInside.step {c : T} {a : Action T Job} (h : OnlyInside c s) (hone : OneConsumer c a)
    (hstep : Step q s a s') : OnlyInside c s' := by
  cases hstep with
  | push t job _ hsignal =>
    cases hsignal with
    | lost => exact h
    | wakes t' ht' =>
      have hinside : t' = c := h t' (by rw [show s.phase t' = .waiting from ht']; decide)
      exact OnlyInside.setPhase (s := s.insertJob q job) h fun _ => hinside
  | pop t ht =>
    rw [State.popSection]
    split_ifs
    · exact h.setPhase fun _ => hone
    · exact h
  | spurious t _ => exact hone.elim
  | resume t _ =>
    exact OnlyInside.setPhase (s := s.removeJob q) h fun hne => absurd rfl hne

/-- **With one consumer, every run without wake-ups from nowhere is safe**: whatever the
producers do, each `pop` returns a job that was pushed, and none is lost. -/
theorem safe_of_one_consumer {hist : List (State T Job Q × Action T Job)} (c : T)
    (h : Run (Step q) (start q) hist s) (hone : ∀ p ∈ hist, OneConsumer c p.2) :
    Safe q hist s := by
  have hinit : OnlyInside c (start q : State T Job Q) := fun t ht => absurd rfl ht
  have hinside := (h.invariant hinit (G := fun _ a => OneConsumer c a) OnlyInside.step hone).2
  apply safe_of_reserved h
  intro p hp
  obtain ⟨s', hstep⟩ := h.enabled p hp
  have hp1 := hone p hp
  have hp2 := hinside p hp
  obtain ⟨s₀, a⟩ := p
  cases hstep with
  | push => trivial
  | spurious => exact hp1
  | resume => trivial
  | pop t ht =>
    -- the consumer is outside, and so nobody has been woken
    have hnone : woken s₀ = 0 := by
      rw [woken_eq_zero_iff]
      intro t' ht'
      have heq : t' = t := (hp2 t' (by rw [ht']; decide)).trans hp1.symm
      rw [heq, ht] at ht'
      exact absurd ht' (by decide)
    show jobCount q s₀ ≠ 0 → woken s₀ < jobCount q s₀
    intro hjobs
    rw [hnone]
    exact Nat.pos_of_ne_zero hjobs

/-! ## Three threads -/

/-- Thread 0 waits for a job. -/
def firstWaits : State (Fin 3) ℕ (List ℕ) :=
  (start (listQueue ℕ)).popSection (listQueue ℕ) 0

/-- Thread 1 waits too. -/
def bothWait : State (Fin 3) ℕ (List ℕ) := firstWaits.popSection (listQueue ℕ) 1

theorem run_bothWait : Run (Step (listQueue ℕ)) (start (listQueue ℕ))
    [(start (listQueue ℕ), .pop 0), (firstWaits, .pop 1)] bothWait :=
  (Run.start.next (.pop 0 rfl)).next (.pop 1 rfl)

/-- A job has been pushed for thread 0, and thread 1 still waits. -/
theorem jobs_le_woken_bothWait :
    jobCount (listQueue ℕ) ((bothWait.insertJob (listQueue ℕ) 7).setPhase 0 .woken) ≤
      woken ((bothWait.insertJob (listQueue ℕ) 7).setPhase 0 .woken) := by
  have hrun := run_bothWait.next (.push 2 7 rfl (.wakes 0 rfl))
  refine jobs_le_woken hrun ((safe_iff hrun).mpr ?_) 1 rfl
  intro p hp t ht
  simp only [List.cons_append, List.nil_append, List.mem_cons, List.not_mem_nil, or_false] at hp
  rcases hp with rfl | rfl | rfl <;> exact absurd ht (by simp)

/-- Thread 0 gets the job that it was woken for. -/
theorem safe_of_one_consumer_woken :
    Safe (listQueue ℕ) [(start (listQueue ℕ), .pop 0), (firstWaits, .push 2 7),
        ((firstWaits.insertJob (listQueue ℕ) 7).setPhase 0 .woken, .resume 0)]
      (((firstWaits.insertJob (listQueue ℕ) 7).setPhase 0 .woken).resumeSection
        (listQueue ℕ) 0) := by
  apply safe_of_one_consumer (0 : Fin 3)
    (((Run.start.next (.pop 0 rfl)).next (.push 2 7 rfl (.wakes 0 rfl))).next (.resume 0 rfl))
  intro p hp
  simp only [List.cons_append, List.nil_append, List.mem_cons, List.not_mem_nil, or_false] at hp
  rcases hp with rfl | rfl | rfl <;> trivial

end PthreadWaitq
