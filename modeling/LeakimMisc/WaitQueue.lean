/-
# A queue of jobs with a condition variable

`src/c/pthread_waitq/main.c`: any number of threads call `push` and `pop`.  Only one thread
at a time is between locking and unlocking `queue_lock`, so what a thread does there is one
step; a `pop` on an empty queue is two of them, with the wait between.

The test for an empty queue is not made again after the wait.  Whether a waiter that goes on
finds a job is up to the schedule: another `pop` can have taken the job it was woken for, and
it can have been woken for no job at all.  No job is lost or made up exactly in the runs in
which every waiter that goes on finds a job (`safe_iff`).
-/
import LeakimMisc.LabelledRuns
import Mathlib.Algebra.Order.Group.Multiset
import Mathlib.Logic.Function.Basic

open LabelledRuns

namespace PthreadWaitq

/-! ## The queue -/

/-- **What `push` and `pop` rely on**: `queue_t` is not part of the source.  Nothing is known
about `pop` on an empty queue. -/
structure JobQueue (Job Q : Type*) where
  new : Q
  empty : Q → Bool
  insert : Q → Job → Q
  pop : Q → Job × Q
  /-- The jobs in a queue. -/
  jobs : Q → Multiset Job
  jobs_new : jobs new = 0
  empty_iff : ∀ q, empty q ↔ jobs q = 0
  jobs_insert : ∀ q job, jobs (insert q job) = jobs q + {job}
  jobs_pop : ∀ q, empty q = false → jobs q = {(pop q).1} + jobs (pop q).2

/-- A queue as a list, first in, first out. -/
def listQueue (Job : Type*) [Inhabited Job] : JobQueue Job (List Job) where
  new := []
  empty := List.isEmpty
  insert := fun q job => q ++ [job]
  pop := fun q => (q.headD default, q.tail)
  jobs := fun q => q
  jobs_new := rfl
  empty_iff := by simp
  jobs_insert := fun _ _ => rfl
  jobs_pop := by
    intro q h
    cases q with
    | nil => exact absurd h Bool.true_eq_false.mp
    | cons job q => rfl

/-! ## The threads -/

/-- Where a thread is: not inside `pop`, waiting on `not_empty`, or woken and about to lock
again. -/
inductive Phase
  | outside
  | waiting
  | woken
  deriving DecidableEq, Repr

variable {T Job Q : Type*}

/-- The queue, the threads, and all jobs that were pushed and returned so far. -/
structure State (T Job Q : Type*) where
  queue : Q
  phase : T → Phase
  pushed : List Job
  returned : List Job

namespace State

def setPhase [DecidableEq T] (s : State T Job Q) (t : T) (p : Phase) : State T Job Q :=
  { s with phase := Function.update s.phase t p }

/-- `queue.insert(new_job)`. -/
def insertJob (q : JobQueue Job Q) (s : State T Job Q) (job : Job) : State T Job Q :=
  { s with queue := q.insert s.queue job, pushed := s.pushed ++ [job] }

/-- `job=queue.pop()`, the job is returned. -/
def removeJob (q : JobQueue Job Q) (s : State T Job Q) : State T Job Q :=
  { s with queue := (q.pop s.queue).2, returned := s.returned ++ [(q.pop s.queue).1] }

/-- `pop` from its start, up to the wait or to its end. -/
def popSection [DecidableEq T] (q : JobQueue Job Q) (s : State T Job Q) (t : T) :
    State T Job Q :=
  if q.empty s.queue then s.setPhase t .waiting else s.removeJob q

/-- `pop` after the wait. -/
def resumeSection [DecidableEq T] (q : JobQueue Job Q) (s : State T Job Q) (t : T) :
    State T Job Q :=
  (s.removeJob q).setPhase t .outside

end State

/-- `pthread_cond_signal`: a waiter is woken, if there is one. -/
inductive Signal [DecidableEq T] (s : State T Job Q) : State T Job Q → Prop
  | lost (h : ∀ t, s.phase t ≠ .waiting) : Signal s s
  | wakes (t : T) (h : s.phase t = .waiting) : Signal s (s.setPhase t .woken)

/-- What happens in a step. -/
inductive Action (T Job : Type*)
  | push (t : T) (job : Job)
  | pop (t : T)
  | spurious (t : T)
  | resume (t : T)
  deriving DecidableEq, Repr

/-- **The steps**: the sections under `queue_lock`, and a wake-up without a signal. -/
inductive Step [DecidableEq T] (q : JobQueue Job Q) (s : State T Job Q) :
    Action T Job → State T Job Q → Prop
  | push {s' : State T Job Q} (t : T) (job : Job) (h : s.phase t = .outside)
      (hsignal : Signal (s.insertJob q job) s') : Step q s (.push t job) s'
  | pop (t : T) (h : s.phase t = .outside) : Step q s (.pop t) (s.popSection q t)
  | spurious (t : T) (h : s.phase t = .waiting) :
      Step q s (.spurious t) (s.setPhase t .woken)
  | resume (t : T) (h : s.phase t = .woken) : Step q s (.resume t) (s.resumeSection q t)

/-- No thread has called anything. -/
def start (q : JobQueue Job Q) : State T Job Q := ⟨q.new, fun _ => .outside, [], []⟩

/-! ## Jobs are neither lost nor made up -/

/-- **The pushed jobs are the returned ones and those in the queue**, as multisets. -/
def Conserves (q : JobQueue Job Q) (s : State T Job Q) : Prop :=
  (s.pushed : Multiset Job) = s.returned + q.jobs s.queue

/-- The step calls `queue.pop()`. -/
def Removes (q : JobQueue Job Q) (s : State T Job Q) : Action T Job → Prop
  | .pop _ => q.empty s.queue = false
  | .resume _ => True
  | _ => False

/-- The step is no waiter that goes on with an empty queue. -/
def FindsJob (q : JobQueue Job Q) (s : State T Job Q) (a : Action T Job) : Prop :=
  ∀ t, a = .resume t → q.empty s.queue = false

/-- All along a run, jobs are removed from a queue that has one only, and none is lost or made
up. -/
def Safe (q : JobQueue Job Q) (hist : List (State T Job Q × Action T Job))
    (s : State T Job Q) : Prop :=
  (∀ p ∈ hist, Removes q p.1 p.2 → q.jobs p.1.queue ≠ 0) ∧
    Conserves q s ∧ ∀ p ∈ hist, Conserves q p.1

theorem conserves_start (q : JobQueue Job Q) : Conserves q (start q : State T Job Q) := by
  show ((0 : Multiset Job)) = 0 + q.jobs q.new
  rw [q.jobs_new, add_zero]

variable {q : JobQueue Job Q} {s s' : State T Job Q}

theorem Conserves.insertJob (h : Conserves q s) (job : Job) :
    Conserves q (s.insertJob q job) := by
  show ((s.pushed ++ [job] : List Job) : Multiset Job)
    = s.returned + q.jobs (q.insert s.queue job)
  rw [q.jobs_insert, ← add_assoc, ← Multiset.coe_add, h]
  rfl

theorem Conserves.removeJob (h : Conserves q s) (hjob : q.empty s.queue = false) :
    Conserves q (s.removeJob q) := by
  show (s.pushed : Multiset Job)
    = ((s.returned ++ [(q.pop s.queue).1] : List Job) : Multiset Job)
      + q.jobs (q.pop s.queue).2
  rw [← Multiset.coe_add, add_assoc, h, q.jobs_pop s.queue hjob]
  rfl

variable [DecidableEq T]

theorem Conserves.setPhase (h : Conserves q s) (t : T) (p : Phase) :
    Conserves q (s.setPhase t p) := h

theorem Conserves.signal (h : Conserves q s) (hsignal : Signal s s') : Conserves q s' := by
  cases hsignal with
  | lost => exact h
  | wakes t => exact h.setPhase t .woken

/-- **What a step does to the jobs**, if a waiter that goes on finds one. -/
theorem Conserves.step {a : Action T Job} (h : Conserves q s) (hjob : FindsJob q s a)
    (hstep : Step q s a s') : Conserves q s' := by
  cases hstep with
  | push t job _ hsignal => exact (h.insertJob job).signal hsignal
  | pop t _ =>
    rw [State.popSection]
    by_cases hempty : q.empty s.queue
    · rw [if_pos hempty]
      exact h.setPhase t .waiting
    · rw [if_neg hempty]
      exact h.removeJob (by simpa using hempty)
  | spurious t _ => exact h.setPhase t .woken
  | resume t _ => exact (h.removeJob (hjob t rfl)).setPhase t .outside

theorem jobs_ne_zero_iff (q : JobQueue Job Q) (x : Q) : q.jobs x ≠ 0 ↔ q.empty x = false := by
  rw [Ne, ← q.empty_iff, Bool.not_eq_true]

/-- **A run is safe** if and only if every waiter that goes on in it finds a job. -/
theorem safe_iff {hist : List (State T Job Q × Action T Job)}
    (h : Run (Step q) (start q) hist s) :
    Safe q hist s ↔ ∀ p ∈ hist, FindsJob q p.1 p.2 := by
  constructor
  · rintro ⟨hremoves, _⟩ p hp t ht
    rw [← jobs_ne_zero_iff]
    apply hremoves p hp
    rw [ht]
    trivial
  · intro hfinds
    refine ⟨?_, h.invariant (conserves_start q) Conserves.step hfinds⟩
    intro p hp hremoves
    rw [jobs_ne_zero_iff]
    cases ha : p.2 with
    | push t job =>
      rw [ha] at hremoves
      exact hremoves.elim
    | pop t =>
      rw [ha] at hremoves
      exact hremoves
    | spurious t =>
      rw [ha] at hremoves
      exact hremoves.elim
    | resume t => exact hfinds p hp t ha

/-! ## Two schedules -/

/-- Nobody has called anything, with jobs that are numbers. -/
def idle : State ℕ ℕ (List ℕ) := start (listQueue ℕ)

/-- Thread 0 waits for a job. -/
def waiting : State ℕ ℕ (List ℕ) := idle.popSection (listQueue ℕ) 0

/-- Thread 1 has pushed job 7 and woken thread 0. -/
def signalled : State ℕ ℕ (List ℕ) := (waiting.insertJob (listQueue ℕ) 7).setPhase 0 .woken

def signalledHist : List (State ℕ ℕ (List ℕ) × Action ℕ ℕ) :=
  [(idle, .pop 0), (waiting, .push 1 7)]

theorem run_signalled :
    Run (Step (listQueue ℕ)) (start (listQueue ℕ)) signalledHist signalled :=
  (Run.start.next (.pop 0 rfl)).next (.push 1 7 rfl (.wakes 0 rfl))

/-- The waiter gets the job that it was woken for. -/
theorem safe_signalled :
    Safe (listQueue ℕ) (signalledHist ++ [(signalled, .resume 0)])
      (signalled.resumeSection (listQueue ℕ) 0) := by
  apply (safe_iff (run_signalled.next (.resume 0 rfl))).mpr
  intro p hp t ht
  simp only [signalledHist, List.cons_append, List.nil_append, List.mem_cons,
    List.not_mem_nil, or_false] at hp
  rcases hp with rfl | rfl | rfl
  · exact absurd ht (by simp)
  · exact absurd ht (by simp)
  · rfl

/-- **The waiter was overtaken**: it returns a job that nobody pushed. -/
theorem not_safe_overtaken : ∃ (hist : List (State ℕ ℕ (List ℕ) × Action ℕ ℕ)) (s : _),
    Run (Step (listQueue ℕ)) (start (listQueue ℕ)) hist s ∧ ¬ Safe (listQueue ℕ) hist s := by
  refine ⟨_, _, (run_signalled.next (.pop 2 rfl)).next (.resume 0 rfl), fun h => ?_⟩
  have hjobs : (([7] : List ℕ) : Multiset ℕ) = ([7, 0] : List ℕ) + (0 : Multiset ℕ) := h.2.1
  exact absurd hjobs (by decide)

end PthreadWaitq
