import MyDrive.Library.Table

-- A table under several open transactions. `writes i` are the rows that the transaction `i` has
-- written, as far as `i` is open.

namespace Table

variable {κ α ι : Type} [DecidableEq κ]

-- The table once exactly the transactions of `S` have committed.
structure Merges (base : Table κ α) (writes : ι → Option (Table κ (Option α))) (S : ι → Prop)
    (t : Table κ α) : Prop where
  written {i w k a} : S i → writes i = some w → w.lookup k = some a → t.lookup k = a
  untouched {k} : (∀ i w, S i → writes i = some w → w.lookup k = none) →
    t.lookup k = base.lookup k

namespace Merges

variable {base t t' : Table κ α} {writes writes' : ι → Option (Table κ (Option α))}
variable {S : ι → Prop} {i : ι} {w w' : Table κ (Option α)}

theorem none_committed : Merges base writes (fun _ => False) base where
  written h   := h.elim
  untouched _ := rfl

theorem congr (m : Merges base writes' S t) (h : ∀ j, S j → writes' j = writes j) :
    Merges base writes S t where
  written hj hw := m.written hj ((h _ hj).trans hw)
  untouched hu  := m.untouched fun j w hj hw => hu j w hj (h j hj ▸ hw)

-- What the transaction `i` itself sees.
theorem own (h : writes i = some w) : Merges base writes (· = i) (base.overlay w) where
  written hj hw hk := by
    cases hj
    cases h.symm.trans hw
    simp [hk]
  untouched hn     := by simp [hn i w rfl h]

-- `i` has written nothing, or it is not open any more.
theorem forget (m : Merges base writes' S t) (he : ∀ j, j ≠ i → writes' j = writes j)
    (hn : ∀ w k, writes' i = some w → w.lookup k = none) :
    Merges base writes (fun j => S j ∧ j ≠ i) t where
  written hj hw hk := m.written hj.left ((he _ hj.right).trans hw) hk
  untouched {k} hu := by
    refine m.untouched fun j w hj hw => ?_
    by_cases h : j = i
    case pos => exact hn w k (h ▸ hw)
    case neg => exact hu j w ⟨hj, h⟩ (he j h ▸ hw)

-- `i` has committed.
theorem commit (m : Merges (base.overlay w) writes' S t) (hi : writes i = some w)
    (he : ∀ j, j ≠ i → writes' j = writes j) (hn : writes' i = none)
    (hd : ∀ j w' k, j ≠ i → writes j = some w' → w'.lookup k ≠ none → w.lookup k = none) :
    Merges base writes (fun j => S j ∨ j = i) t where
  written {j w' k a} hj hw hk := by
    by_cases h : j = i
    case neg => exact m.written (hj.resolve_right h) ((he j h).trans hw) hk
    case pos =>
      subst h
      cases hi.symm.trans hw
      have hu : t.lookup k = (base.overlay w).lookup k := m.untouched fun l v hl hv => by
        have hl : l ≠ j := fun h => by simp [h, hn] at hv
        have := hd l v k hl (he l hl ▸ hv)
        grind
      simp [hu, hk]
  untouched {k} hu := by
    have hw := hu i w (.inr rfl) hi
    have : t.lookup k = (base.overlay w).lookup k := m.untouched fun l v hl hv => by
      have hl' : l ≠ i := fun h => by simp [h, hn] at hv
      exact hu l v (.inl hl) (he l hl' ▸ hv)
    simp [this, hw]

-- `i` has written the rows of `w'` that are not in `w`. Taking these writes back gives a table
-- that the transactions could have led to before, and there `i` would have seen its rows.
theorem unwrite (m : Merges base writes' S t') (hS : S i) (hi : writes i = some w)
    (hi' : writes' i = some w') (he : ∀ j, j ≠ i → writes' j = writes j)
    (hk : ∀ k, w'.lookup k = none → w.lookup k = none)
    (hd : ∀ j v k, j ≠ i → writes j = some v → w'.lookup k ≠ none → v.lookup k = none) :
    ∃ t, Merges base writes S t ∧
      (∀ k, t'.lookup k = (w'.lookup k).getD (t.lookup k)) ∧
      (∀ k, w'.lookup k ≠ none → t.lookup k = (base.overlay w).lookup k) := by
  have lookup (k) : (t'.overlay (w'.filterMap fun k _ => some ((base.overlay w).lookup k))).lookup k =
      if w'.lookup k = none then t'.lookup k else (base.overlay w).lookup k := by
    rw [lookup_overlay, lookup_filterMap]
    cases w'.lookup k <;> simp
  refine ⟨_, ?_, fun k => ?_, fun k h => (lookup k).trans (if_neg h)⟩
  case refine_1 =>
    constructor
    case written =>
      intro j v k a hj hv ha
      rw [lookup]
      split
      case isTrue h =>
        have hji : j ≠ i := fun hc => by
          subst hc
          cases hi.symm.trans hv
          simp [hk k h] at ha
        exact m.written hj ((he j hji).trans hv) ha
      case isFalse h =>
        have hji : j = i := by
          by_contra hc
          simp [hd j v k hc hv h] at ha
        subst hji
        cases hi.symm.trans hv
        simp [ha]
    case untouched =>
      intro k hu
      rw [lookup]
      split
      case isFalse h => simp [hu i w hS hi]
      case isTrue h =>
        refine m.untouched fun j v hj hv => ?_
        by_cases hji : j = i
        case pos => subst hji; cases hi'.symm.trans hv; exact h
        case neg => exact hu j v hj (he j hji ▸ hv)
  case refine_2 =>
    cases h : w'.lookup k
    case none   => simp [h]
    case some a => simpa using m.written hS hi' h

end Merges
end Table
