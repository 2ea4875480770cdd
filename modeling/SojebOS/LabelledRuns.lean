import Mathlib.Data.List.Basic

/-!
# Runs of labelled steps

A run lists the labels of its steps. What every step keeps a run keeps, and a relation
between the states of two systems that every step keeps relates their runs.
-/
namespace LabelledRuns

variable {σ τ κ μ : Type*}

inductive Run (step : σ → κ → σ → Prop) : σ → List κ → σ → Prop where
  | nil (s) : Run step s [] s
  | cons {s t u l ls} : step s l t → Run step t ls u → Run step s (l :: ls) u

/-- Some of the steps of a system do nothing in the other. -/
inductive Lazy (step : σ → κ → σ → Prop) : σ → Option κ → σ → Prop where
  | skip (s) : Lazy step s none s
  | act {s l t} : step s l t → Lazy step s (some l) t

section Rules

variable {step : σ → κ → σ → Prop} {step' : τ → μ → τ → Prop} {s t : σ} {l : κ} {ls : List κ}

theorem Run.single (h : step s l t) : Run step s [l] t := .cons h (.nil t)

theorem Run.invariant (Inv : σ → Prop) (hstep : ∀ s l t, Inv s → step s l t → Inv t)
    (hs : Inv s) (h : Run step s ls t) : Inv t := by
  induction h with
  | nil => exact hs
  | cons hl _ ih => exact ih (hstep _ _ _ hs hl)

/-- Every step of the one system is a step of the other. -/
theorem Run.simulation (R : σ → τ → Prop) (label : κ → μ)
    (hstep : ∀ s l t s', R s s' → step s l t → ∃ t', step' s' (label l) t' ∧ R t t')
    {s' : τ} (hs : R s s') (h : Run step s ls t) :
    ∃ t', Run step' s' (ls.map label) t' ∧ R t t' := by
  induction h generalizing s' with
  | nil => exact ⟨s', .nil s', hs⟩
  | cons hl _ ih =>
    obtain ⟨t', hl', ht⟩ := hstep _ _ _ _ hs hl
    obtain ⟨u', hr, hu⟩ := ih ht
    exact ⟨u', .cons hl' hr, hu⟩

theorem Run.busy {ls : List (Option κ)} (h : Run (Lazy step) s ls t) :
    Run step s ls.reduceOption t := by
  induction h with
  | nil => exact .nil _
  | cons hl _ ih =>
    cases hl with
    | skip => exact ih
    | act hl => exact .cons hl ih

end Rules

end LabelledRuns
