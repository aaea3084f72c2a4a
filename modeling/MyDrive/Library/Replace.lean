import Mathlib.Data.List.Basic

-- Replacing what a pattern finds in a text, from left to right and without overlaps.

namespace Replace

variable {α : Type} {find : Option α → List α → Option (List α × Nat)} {prev : Option α} {c x : α} {a b r s : List α}
  {skip k : Nat}

-- A pattern is given as what it finds at the head of a text, behind another element: the replacement, and the
-- count of the elements after the first one that it takes. The number of the loop is what is left of a match.
def scan (find : Option α → List α → Option (List α × Nat)) : Nat → Option α → List α → List α
  | _,        _,    []      => []
  | skip + 1, _,    c :: cs => scan find skip (some c) cs
  | 0,        prev, c :: cs =>
    match find prev (c :: cs) with
    | some (replacement, more) => replacement ++ scan find more (some c) cs
    | none                     => c :: scan find 0 (some c) cs

theorem scan_none (h : find prev (c :: s) = none) : scan find 0 prev (c :: s) = c :: scan find 0 (some c) s := by
  rw [scan, h]

theorem scan_skip (h : a.length = skip) : ∃ last, scan find skip prev (a ++ s) = scan find 0 last s := by
  induction a generalizing skip prev
  case nil =>
    cases h
    exact ⟨prev, rfl⟩
  case cons c a ih =>
    cases skip
    case zero => cases h
    case succ skip => exact ih (Nat.succ.inj h)

theorem scan_some (h : find prev (c :: (a ++ s)) = some (r, a.length)) :
    ∃ last, scan find 0 prev (c :: (a ++ s)) = r ++ scan find 0 last s := by
  obtain ⟨last, hl⟩ := @scan_skip _ find (some c) a s _ rfl
  refine ⟨last, ?_⟩
  rw [scan, h]
  exact congrArg (r ++ ·) hl

-- A match that takes the whole text.
theorem scan_end (h : find prev (c :: a) = some (r, a.length)) : scan find 0 prev (c :: a) = r := by
  have whole : find prev (c :: (a ++ [])) = some (r, a.length) := by rwa [List.append_nil]
  obtain ⟨last, hl⟩ := scan_some whole
  rw [List.append_nil] at hl
  exact hl.trans (List.append_nil r)

theorem scan_copy (h : ∀ c ∈ a, ∀ prev s, find prev (c :: s) = none) :
    scan find 0 prev (a ++ s) = a ++ scan find 0 (a.getLast?.or prev) s := by
  induction a generalizing prev
  case nil => rfl
  case cons c a ih =>
    obtain ⟨head, tail⟩ := List.forall_mem_cons.mp h
    have last : (c :: a).getLast?.or prev = a.getLast?.or (some c) := by
      cases a <;> simp [List.getLast?_cons]
    rw [List.cons_append, scan_none (head _ _), ih tail, last, List.cons_append]

-- What a text holds after the replacements is its own or from a replacement.
theorem mem_scan {P : α → Prop} (hr : ∀ prev s r k, find prev s = some (r, k) → ∀ c ∈ r, P c) (hs : ∀ c ∈ s, P c) :
    ∀ c ∈ scan find skip prev s, P c := by
  induction s generalizing skip prev
  case nil =>
    intro c hc
    rw [scan] at hc
    cases hc
  case cons d s ih =>
    obtain ⟨head, tail⟩ := List.forall_mem_cons.mp hs
    cases skip
    case succ skip => exact ih tail
    case zero =>
      rw [scan]
      split
      case h_1 r k hf =>
        intro c hc
        rcases List.mem_append.mp hc with hc | hc
        case inl => exact hr _ _ _ _ hf c hc
        case inr => exact ih tail c hc
      case h_2 => exact List.forall_mem_cons.mpr ⟨head, ih tail⟩

-- No match goes over an element that the pattern never takes.
theorem scan_break (hx : ∀ prev a b, a ≠ [] → find prev (a ++ x :: b) = find prev a)
    (hk : ∀ prev a r k, find prev a = some (r, k) → k < a.length) (hs : skip ≤ a.length) :
    scan find skip prev (a ++ x :: b) = scan find skip prev a ++ scan find 0 (a.getLast?.or prev) (x :: b) := by
  induction a generalizing skip prev
  case nil =>
    cases Nat.le_zero.mp hs
    rfl
  case cons c a ih =>
    have last : (c :: a).getLast?.or prev = a.getLast?.or (some c) := by
      cases a <;> simp [List.getLast?_cons]
    rw [last]
    cases skip
    case succ skip => exact ih (Nat.le_of_succ_le_succ hs)
    case zero =>
      have same : find prev (c :: (a ++ x :: b)) = find prev (c :: a) := hx prev (c :: a) b (by simp)
      rw [List.cons_append, scan, scan, same]
      split
      case h_1 r k hf =>
        have inside : k < (c :: a).length := hk _ _ _ _ hf
        rw [ih (Nat.le_of_lt_succ inside), List.append_assoc]
      case h_2 => rw [ih (Nat.zero_le _), List.cons_append]

end Replace
