import Mathlib.Logic.Function.Basic
import Mathlib.Data.List.Induction

/-!
# Runs of a labelled transition system

A system is a step relation `step s a s'`: action `a` takes state `s` to `s'`.
A run is a finite sequence of steps. Everything proved about whole runs in this
development goes through one rule: an invariant that holds at the start and that
every step preserves holds in every state a run reaches.

`Guarded` restricts a system to the steps whose action meets a condition in the
state it starts from, so that a conditional result is still about runs.
-/

namespace Lts

variable {σ α : Type*} {as : List α} {s₀ s : σ} {step : σ → α → σ → Prop} {ε β : Type*} {b : β}

/-- `Run step s₀ as s`: the actions `as`, taken in order, lead from `s₀` to `s`. -/
inductive Run (step : σ → α → σ → Prop) (s₀ : σ) : List α → σ → Prop where
  | nil : Run step s₀ [] s₀
  | snoc {as : List α} {s s' : σ} {a : α} :
      Run step s₀ as s → step s a s' → Run step s₀ (as ++ [a]) s'

/-- The steps of a system whose action meets `ok` in the state it starts from. -/
def Guarded (ok : σ → α → Prop) (step : σ → α → σ → Prop) (s : σ) (a : α) (s' : σ) : Prop :=
  ok s a ∧ step s a s'

/-- **The invariant rule.** -/
theorem Run.invariant {I : σ → Prop}
    (hr : Run step s₀ as s) (h0 : I s₀)
    (hstep : ∀ s a s', I s → step s a s' → I s') : I s := by
  induction hr with
  | nil => exact h0
  | snoc _ hs ih => exact hstep _ _ _ ih hs

/-- **The simulation rule.** A run of one system is a run of the other with the same actions. -/
theorem Run.simulates {τ : Type*} {step' : τ → α → τ → Prop}
    {R : σ → τ → Prop} {t₀ : τ} (hr : Run step s₀ as s) (h0 : R s₀ t₀)
    (hstep : ∀ s a s' t, R s t → step s a s' → ∃ t', step' t a t' ∧ R s' t') :
    ∃ t, Run step' t₀ as t ∧ R s t := by
  induction hr with
  | nil => exact ⟨t₀, .nil, h0⟩
  | snoc _ hs ih =>
    obtain ⟨t, hrun, hR⟩ := ih
    obtain ⟨t', ht, hR'⟩ := hstep _ _ _ _ hR hs
    exact ⟨t', hrun.snoc ht, hR'⟩

/-- A run of a system whose steps are computed. -/
theorem Run.of_foldlM {step : σ → α → Except ε σ} :
    ∀ {as : List α} {s : σ}, as.foldlM step s₀ = .ok s → Run (fun s a s' => step s a = .ok s') s₀ as s := by
  intro as
  induction as using List.reverseRecOn with
  | nil =>
    intro s h
    cases h
    exact .nil
  | append_singleton as a ih =>
    intro s h
    rw [List.foldlM_append] at h
    cases hs : as.foldlM step s₀ with
    | error e =>
      rw [hs] at h
      exact absurd h (by simp [bind, Except.bind])
    | ok s₁ =>
      rw [hs] at h
      refine (ih hs).snoc ?_
      cases h1 : step s₁ a with
      | error e =>
        have h : (step s₁ a >>= fun s => pure s) = .ok s := h
        rw [h1] at h
        exact absurd h (by simp [bind, Except.bind])
      | ok s' =>
        have h : (step s₁ a >>= fun s => pure s) = .ok s := h
        rw [h1] at h
        exact h

theorem Run.mono {step' : σ → α → σ → Prop}
    (hr : Run step s₀ as s) (h : ∀ {s a s'}, step s a s' → step' s a s') : Run step' s₀ as s := by
  induction hr with
  | nil => exact .nil
  | snoc _ hs ih => exact ih.snoc (h hs)

/-- A run of a guarded system, with the guards checked along the way. -/
theorem Run.of_checked {ok : σ → α → Prop} [∀ s a, Decidable (ok s a)]
    {step : σ → α → Except ε σ} {e : ε}
    (h : as.foldlM (fun s a => if ok s a then step s a else .error e) s₀ = .ok s) :
    Run (Guarded ok fun s a s' => step s a = .ok s') s₀ as s := by
  refine (Run.of_foldlM h).mono fun {s a s'} hs => ?_
  split at hs
  · exact ⟨‹_›, hs⟩
  · cases hs

/-- What was found out about a result that was computed. -/
theorem eq_ok_of_probe {x : Except ε σ} {probe : σ → β} (h : x.toOption.map probe = some b) :
    ∃ s, x = .ok s ∧ probe s = b := by
  cases x with
  | error e => cases h
  | ok s => exact ⟨s, rfl, Option.some.inj h⟩

/-- A run that is computed, with what was found out about its last state. -/
theorem Run.of_probe (step : σ → α → Except ε σ) (s₀ : σ) (as : List α) (probe : σ → β)
    (h : (as.foldlM step s₀).toOption.map probe = some b) :
    ∃ s, Run (fun s a s' => step s a = .ok s') s₀ as s ∧ probe s = b := by
  obtain ⟨s, hs, hb⟩ := eq_ok_of_probe h
  exact ⟨s, .of_foldlM hs, hb⟩

/-- The same for a guarded run. -/
theorem Run.of_checked_probe (ok : σ → α → Prop) [∀ s a, Decidable (ok s a)]
    (step : σ → α → Except ε σ) (e : ε) (s₀ : σ) (as : List α) (probe : σ → β)
    (h : (as.foldlM (fun s a => if ok s a then step s a else .error e) s₀).toOption.map probe = some b) :
    ∃ s, Run (Guarded ok fun s a s' => step s a = .ok s') s₀ as s ∧ probe s = b := by
  obtain ⟨s, hs, hb⟩ := eq_ok_of_probe h
  exact ⟨s, .of_checked hs, hb⟩

end Lts
