import Mathlib.Data.List.Basic

-- Inversion of computations that may fail.

namespace Except

variable {ε α β : Type}

theorem bind_eq_ok_iff {x : Except ε α} {f : α → Except ε β} {b : β} :
    (x >>= f) = .ok b ↔ ∃ a, x = .ok a ∧ f a = .ok b := by
  cases x <;> simp [bind, Except.bind]

theorem ok_bind {a : α} {f : α → Except ε β} : (Except.ok a >>= f) = f a :=
  rfl

theorem throw_bind {e : ε} {f : α → Except ε β} : (throw e >>= f) = .error e :=
  rfl

theorem bind_ne_error {x : Except ε α} {f : α → Except ε β} {e : ε} (hx : x ≠ .error e) (hf : ∀ a, f a ≠ .error e) :
    x >>= f ≠ .error e := by
  cases x
  case error d =>
    intro h
    cases h
    exact hx rfl
  case ok a => exact hf a

theorem map_eq_ok_iff {x : Except ε α} {f : α → β} {b : β} :
    x.map f = .ok b ↔ ∃ a, x = .ok a ∧ f a = b := by
  cases x <;> simp [Except.map]

theorem ite_throw_eq_ok_iff {c : Prop} [Decidable c] {e : ε} {f : α → Except ε β}
    {x : Except ε β} {b : β} : (if c then throw e >>= f else x) = .ok b ↔ ¬c ∧ x = .ok b := by
  split <;> simp_all [throw, throwThe, MonadExceptOf.throw, bind, Except.bind]

theorem foldlM_invariant {P : β → Prop} {f : β → α → Except ε β} {xs : List α} {b b' : β}
    (h : xs.foldlM f b = .ok b') (hb : P b)
    (hf : ∀ b x b', x ∈ xs → P b → f b x = .ok b' → P b') : P b' := by
  induction xs generalizing b
  case nil => cases h; exact hb
  case cons x xs ih =>
    rw [List.foldlM_cons] at h
    obtain ⟨c, hc, h⟩ := bind_eq_ok_iff.mp h
    exact ih h (hf b x c List.mem_cons_self hb hc) fun b x b' hx => hf b x b' (.tail _ hx)

theorem foldlM_each {f : β → α → Except ε β} {xs : List α} {x : α} {b b' : β}
    (h : xs.foldlM f b = .ok b') (hx : x ∈ xs) : ∃ c c', f c x = .ok c' := by
  induction xs generalizing b
  case nil => contradiction
  case cons y xs ih =>
    rw [List.foldlM_cons] at h
    obtain ⟨c, hc, h⟩ := bind_eq_ok_iff.mp h
    rcases List.mem_cons.mp hx with rfl | hx
    case inl => exact ⟨b, c, hc⟩
    case inr => exact ih h hx

end Except
