import Mathlib.Data.List.Basic

-- A stream that arrives in fragments. A read returns as much of the next fragment as fits; nothing at the end.

namespace Fragments

variable {α : Type}

-- Reads until the buffer of `n` elements is full. An empty read is the end of the stream.
def readExact : Nat → List (List α) → Option (List α × List (List α))
  | 0,     stream      => some ([], stream)
  | _ + 1, []          => none
  | n + 1, c :: stream =>
    if c = [] then none
    else if c.length ≤ n + 1 then (readExact (n + 1 - c.length) stream).map fun r => (c ++ r.1, r.2)
    else some (c.take (n + 1), c.drop (n + 1) :: stream)

variable {stream : List (List α)} {a b : List α} {n : Nat}

-- No read is empty before the end.
def Flowing (stream : List (List α)) : Prop :=
  [] ∉ stream

theorem Flowing.tail {c : List α} (h : Flowing (c :: stream)) : Flowing stream :=
  fun hm => h (List.mem_cons_of_mem c hm)

theorem readExact_eq (hf : Flowing stream) (h : stream.flatten = a ++ b) :
    ∃ rest, readExact a.length stream = some (a, rest) ∧ rest.flatten = b ∧ Flowing rest := by
  induction stream generalizing a
  case nil =>
    obtain ⟨rfl, rfl⟩ := List.append_eq_nil_iff.mp h.symm
    exact ⟨[], rfl, rfl, hf⟩
  case cons c stream hi =>
    cases a
    case nil => exact ⟨c :: stream, rfl, h, hf⟩
    case cons x a =>
      have filled : c ≠ [] := fun hc => hf (hc ▸ List.mem_cons_self)
      rw [List.flatten_cons] at h
      by_cases fits : c.length ≤ a.length + 1
      case pos =>
        obtain ⟨d, split⟩ : ∃ d, x :: a = c ++ d := List.prefix_of_prefix_length_le
          ⟨stream.flatten, h⟩ ⟨b, rfl⟩ (by simpa using fits) |>.imp fun _ hd => hd.symm
        have flat : stream.flatten = d ++ b := by
          rw [split, List.append_assoc] at h
          exact List.append_cancel_left h
        obtain ⟨rest, read, left, flowing⟩ := hi hf.tail flat
        have length : a.length + 1 - c.length = d.length := by
          have := congrArg List.length split
          simp at this
          omega
        refine ⟨rest, ?_, left, flowing⟩
        rw [List.length_cons, readExact, if_neg filled, if_pos fits, length, read, Option.map_some, split]
      case neg =>
        obtain ⟨d, split⟩ : ∃ d, c = (x :: a) ++ d := List.prefix_of_prefix_length_le
          ⟨b, rfl⟩ ⟨stream.flatten, h⟩ (by simp; omega) |>.imp fun _ hd => hd.symm
        have more : d ≠ [] := by
          rintro rfl
          simp [split] at fits
        refine ⟨d :: stream, ?_, ?_, ?_⟩
        case refine_1 =>
          rw [List.length_cons, readExact, if_neg filled, if_neg fits]
          simp [split]
        case refine_2 =>
          rw [split, List.append_assoc] at h
          exact List.append_cancel_left h
        case refine_3 =>
          intro hm
          cases hm
          case head    => exact more rfl
          case tail hm => exact hf.tail hm

theorem readExact_short (hf : Flowing stream) (h : stream.flatten.length < n) : readExact n stream = none := by
  induction stream generalizing n
  case nil =>
    cases n
    case zero   => cases h
    case succ n => rfl
  case cons c stream hi =>
    obtain ⟨n, rfl⟩ : ∃ m, n = m + 1 := ⟨n - 1, by omega⟩
    rw [List.flatten_cons, List.length_append] at h
    have filled : c ≠ [] := fun hc => hf (hc ▸ List.mem_cons_self)
    rw [readExact, if_neg filled, if_pos (by omega), hi hf.tail (by omega), Option.map_none]

end Fragments
