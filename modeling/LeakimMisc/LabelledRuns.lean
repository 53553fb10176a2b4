/-
# Runs with their history

Steps one after the other, of any step relation with labels, together with the states they
were taken from.  What a step keeps when it meets a condition holds of all states of a run
whose steps all meet it (`Run.invariant`).

For a step function a run is a fold over the labels.  What is seen of the state after a run goes
back to its last step that writes it (`exists_last_write`), and a property of states that a step
keeps exactly under a condition holds all along exactly if all steps meet it
(`forall_inits_iff`).
-/
import Mathlib.Data.List.Infix

namespace LabelledRuns

variable {σ α : Type*} {step : σ → α → σ → Prop} {init s : σ}

/-- A run from `init`: the steps taken so far, each with the state before it, and the state
reached. -/
inductive Run (step : σ → α → σ → Prop) (init : σ) : List (σ × α) → σ → Prop
  | start : Run step init [] init
  | next {hist : List (σ × α)} {s s' : σ} {a : α} (h : Run step init hist s)
      (hstep : step s a s') : Run step init (hist ++ [(s, a)]) s'

/-- **An invariant of the steps that meet the condition `G`** holds all along a run of such
steps. -/
theorem Run.invariant {I : σ → Prop} {G : σ → α → Prop} (hinit : I init)
    (hkeeps : ∀ {s a s'}, I s → G s a → step s a s' → I s')
    {hist : List (σ × α)} (h : Run step init hist s) (hG : ∀ p ∈ hist, G p.1 p.2) :
    I s ∧ ∀ p ∈ hist, I p.1 := by
  induction h with
  | start => exact ⟨hinit, fun p hp => absurd hp List.not_mem_nil⟩
  | next h hstep ih =>
    obtain ⟨hI, hall⟩ := ih fun p hp => hG p (List.mem_append_left _ hp)
    refine ⟨hkeeps hI (hG (_, _) (List.mem_append_right _ List.mem_cons_self)) hstep, ?_⟩
    intro p hp
    rcases List.mem_append.mp hp with hp | hp
    · exact hall p hp
    · rw [List.mem_singleton.mp hp]
      exact hI

/-- Every step of a run could be taken in the state it was taken from. -/
theorem Run.enabled {hist : List (σ × α)} (h : Run step init hist s) :
    ∀ p ∈ hist, ∃ s', step p.1 p.2 s' := by
  induction h with
  | start => exact fun p hp => absurd hp List.not_mem_nil
  | next _ hstep ih =>
    intro p hp
    rcases List.mem_append.mp hp with hp | hp
    · exact ih p hp
    · rw [List.mem_singleton.mp hp]
      exact ⟨_, hstep⟩

/-- A step in front of a run. -/
theorem Run.cons {s' s'' : σ} {a : α} {hist : List (σ × α)} (hstep : step s a s')
    (h : Run step s' hist s'') : Run step s ((s, a) :: hist) s'' := by
  induction h with
  | start => exact .next .start hstep
  | next _ hlast ih => exact .next ih hlast

/-! ## Runs of a function -/

section Function

variable {τ : Type*} (f : σ → α → σ)

/-- All steps of a run meet a condition, in the states they are taken from. -/
def Throughout (P : σ → α → Prop) : σ → List α → Prop
  | _, [] => True
  | s, a :: as => P s a ∧ Throughout P (f s a) as

variable {f}

/-- **What only some steps write** is left alone by the others. -/
theorem foldl_of_throughout {writes : σ → α → Prop} {view : σ → τ}
    (hview : ∀ s a, ¬ writes s a → view (f s a) = view s) {s : σ} {as : List α}
    (h : Throughout f (fun s a => ¬ writes s a) s as) : view (as.foldl f s) = view s := by
  induction as generalizing s with
  | nil => rfl
  | cons a as ih =>
    obtain ⟨hfirst, hlater⟩ := h
    rw [List.foldl_cons, ih hlater]
    exact hview s a hfirst

/-- A run has no step that writes, or a last one. -/
theorem exists_last_write (writes : σ → α → Prop) (s : σ) (as : List α) :
    Throughout f (fun s a => ¬ writes s a) s as ∨
      ∃ pre a post, as = pre ++ a :: post ∧ writes (pre.foldl f s) a ∧
        Throughout f (fun s a => ¬ writes s a) ((pre ++ [a]).foldl f s) post := by
  induction as generalizing s with
  | nil => exact Or.inl trivial
  | cons a as ih =>
    rcases ih (f s a) with hnone | ⟨pre, a', post, rfl, hwrites, hlater⟩
    · by_cases hfirst : writes s a
      · exact Or.inr ⟨[], a, as, rfl, hfirst, hnone⟩
      · exact Or.inl ⟨hfirst, hnone⟩
    · exact Or.inr ⟨a :: pre, a', post, rfl, hwrites, hlater⟩

/-- **A property that each step keeps exactly if it meets a condition** holds after every part of
a run exactly if all its steps meet it. -/
theorem forall_inits_iff {I : σ → Prop} {P : σ → α → Prop}
    (hstep : ∀ s a, I s → (I (f s a) ↔ P s a)) {s : σ} (hs : I s) (as : List α) :
    (∀ pre ∈ as.inits, I (pre.foldl f s)) ↔ Throughout f P s as := by
  induction as generalizing s with
  | nil => simpa [Throughout] using hs
  | cons a as ih =>
    rw [List.inits_cons, List.forall_mem_cons, List.forall_mem_map, Throughout, ← hstep s a hs]
    constructor
    · rintro ⟨-, hall⟩
      have hnext : I (f s a) := hall [] ((List.mem_inits _ _).mpr List.nil_prefix)
      exact ⟨hnext, (ih hnext).mp hall⟩
    · rintro ⟨hnext, hall⟩
      exact ⟨hs, (ih hnext).mpr hall⟩

end Function

end LabelledRuns
