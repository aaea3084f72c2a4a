import Mathlib.Data.List.Basic

-- Lists of guarded answers, of which the first one counts whose guard holds.

namespace Rules

variable {α : Type*}

def firstMatch : List (Bool × α) → Option α
  | []              => none
  | (g, a) :: rules => if g then some a else firstMatch rules

variable {a b : α} {g : Bool} {xs ys : List (Bool × α)}

@[simp]
theorem firstMatch_nil : firstMatch ([] : List (Bool × α)) = none :=
  rfl

@[simp]
theorem firstMatch_true : firstMatch ((true, a) :: xs) = some a :=
  rfl

@[simp]
theorem firstMatch_false : firstMatch ((false, a) :: xs) = firstMatch xs :=
  rfl

theorem mem_of_firstMatch (h : firstMatch xs = some a) : (true, a) ∈ xs := by
  induction xs
  case nil => cases h
  case cons x xs ih =>
    obtain ⟨g, b⟩ := x
    cases g
    case false => exact .tail _ <| ih h
    case true =>
      cases h
      exact .head _

theorem firstMatch_eq_none_iff : firstMatch xs = none ↔ ∀ x ∈ xs, x.1 = false := by
  induction xs
  case nil => simp [firstMatch]
  case cons x xs ih =>
    obtain ⟨g, b⟩ := x
    cases g <;> simp [ih]

theorem firstMatch_append : firstMatch (xs ++ ys) = (firstMatch xs).or (firstMatch ys) := by
  induction xs
  case nil => rfl
  case cons x xs ih =>
    obtain ⟨g, b⟩ := x
    cases g
    case false => simpa using ih
    case true  => rfl

-- The rules under one more guard.
def guarded (p : Bool) (rules : List (Bool × α)) : List (Bool × α) :=
  rules.map fun r => (p && r.1, r.2)

@[simp]
theorem guarded_true : guarded true xs = xs := by
  simp [guarded]

theorem firstMatch_guarded {p : Bool} : firstMatch (guarded p xs) = if p then firstMatch xs else none := by
  cases p
  case true => simp
  case false =>
    refine firstMatch_eq_none_iff.mpr fun x hx => ?_
    obtain ⟨r, -, rfl⟩ := List.mem_map.mp hx
    rfl

-- Where the first list has an answer, the second one gives the same.
def Agree (xs ys : List (Bool × α)) : Prop :=
  ∀ a, firstMatch xs = some a → firstMatch ys = some a

theorem agree_append {zs : List (Bool × α)} :
    Agree (zs ++ xs) (zs ++ ys) ↔ (firstMatch zs = none → Agree xs ys) := by
  unfold Agree
  simp only [firstMatch_append]
  cases firstMatch zs
  case none   => simp
  case some a => simp

@[simp]
theorem agree_false_left : Agree ((false, a) :: xs) ys ↔ Agree xs ys := by
  simp [Agree]

@[simp]
theorem agree_false_right : Agree xs ((false, a) :: ys) ↔ Agree xs ys := by
  simp [Agree]

-- A guard of the second list alone may hold only where the first list has no other answer.
@[simp]
theorem agree_true_right : Agree xs ((true, a) :: ys) ↔ ∀ b, firstMatch xs = some b → b = a := by
  simp [Agree, eq_comm]

theorem agree_true_right_of_absent (ha : ∀ x ∈ xs, x.2 ≠ a) :
    Agree xs ((true, a) :: ys) ↔ firstMatch xs = none := by
  rw [agree_true_right]
  constructor
  case mp =>
    intro h
    by_contra hn
    obtain ⟨b, hb⟩ := Option.ne_none_iff_exists'.mp hn
    exact ha _ (mem_of_firstMatch hb) (h b hb)
  case mpr =>
    intro h b hb
    rw [h] at hb
    cases hb

@[simp]
theorem agree_nil : Agree [] ys := by
  simp [Agree]

end Rules
