import Mathlib.Logic.Relation

-- Executions of a guarded step function: `step s l` is `none` when the label `l` is not enabled
-- in `s`. Conditions on an execution are stated per step, as a relation between the state before
-- the step and its label.

namespace Execution

variable {σ : Type*} {ℓ : Type*} {step : σ → ℓ → Option σ} {ok ok' : σ → ℓ → Prop} {s s₁ s₂ : σ}

def run (step : σ → ℓ → Option σ) : σ → List ℓ → Option σ
  | s, []      => some s
  | s, l :: ls => step s l >>= (run step · ls)

inductive Steps (step : σ → ℓ → Option σ) (ok : σ → ℓ → Prop) (s : σ) : σ → Prop
  | refl : Steps step ok s s
  | tail {s₁ s₂ l} : Steps step ok s s₁ → ok s₁ l → step s₁ l = some s₂ → Steps step ok s s₂

-- An unconditioned execution.
abbrev Reaches (step : σ → ℓ → Option σ) : σ → σ → Prop :=
  Steps step fun _ _ => True

namespace Steps

theorem invariant {I : σ → Prop} (e : Steps step ok s₁ s₂) (h : I s₁)
    (hi : ∀ {s l s'}, I s → ok s l → step s l = some s' → I s') : I s₂ := by
  induction e
  case refl         => exact h
  case tail ho hs ih => exact hi ih ho hs

theorem mono (e : Steps step ok s₁ s₂) (h : ∀ s l, ok s l → ok' s l) : Steps step ok' s₁ s₂ := by
  induction e
  case refl          => exact .refl
  case tail ho hs ih => exact .tail ih (h _ _ ho) hs

theorem trans {s₃ : σ} (e₁ : Steps step ok s₁ s₂) (e₂ : Steps step ok s₂ s₃) :
    Steps step ok s₁ s₃ := by
  induction e₂
  case refl          => exact e₁
  case tail ho hs ih => exact .tail ih ho hs

theorem head {l : ℓ} (ho : ok s l) (hs : step s l = some s₁) (e : Steps step ok s₁ s₂) :
    Steps step ok s s₂ :=
  Steps.trans (.tail .refl ho hs) e

end Steps

theorem reaches_of_run {ls : List ℓ} (h : run step s₁ ls = some s₂) : Reaches step s₁ s₂ := by
  induction ls generalizing s₁
  case nil => cases h; exact .refl
  case cons l ls ih =>
    simp only [run, Option.bind_eq_bind, Option.bind_eq_some_iff] at h
    obtain ⟨s, hs, h⟩ := h
    exact .head trivial hs (ih h)

-- An execution whose steps have all passed a check.
theorem steps_of_run {check : σ → ℓ → Bool} {ls : List ℓ} (hc : ∀ s l, check s l = true → ok s l)
    (h : run (fun s l => if check s l then step s l else none) s₁ ls = some s₂) :
    Steps step ok s₁ s₂ := by
  induction ls generalizing s₁
  case nil => cases h; exact .refl
  case cons l ls ih =>
    simp only [run, Option.bind_eq_bind, Option.bind_eq_some_iff] at h
    obtain ⟨s, hs, h⟩ := h
    split at hs
    case isTrue hl  => exact .head (hc _ _ hl) hs (ih h)
    case isFalse    => contradiction

end Execution
