import Mathlib.Algebra.BigOperators.Group.Finset.Basic
import Mathlib.Algebra.Order.BigOperators.Group.Finset
import Mathlib.Algebra.Ring.Nat
import MyDrive.Library.Table

-- `SELECT COALESCE(SUM(..), 0)` over a table.

namespace Table

variable {κ α β : Type} [DecidableEq κ]

def sum (t : Table κ α) (f : κ → α → Nat) : Nat :=
  (t.rows.map fun r => f r.1 r.2).sum

-- What the row with the key `k` adds to the sum.
def weight (t : Table κ α) (f : κ → α → Nat) (k : κ) : Nat :=
  (t.lookup k).elim 0 (f k)

omit [DecidableEq κ] in
theorem sum_add {t : Table κ α} {f g : κ → α → Nat} :
    t.sum (fun k a => f k a + g k a) = t.sum f + t.sum g :=
  List.sum_map_add

variable {t : Table κ α} {t' : Table κ β} {f : κ → α → Nat} {f' : κ → β → Nat}

theorem weight_of_lookup {k : κ} {a : α} (h : t.lookup k = some a) : t.weight f k = f k a := by
  simp [weight, h]

theorem weight_of_none {k : κ} (h : t.lookup k = none) : t.weight f k = 0 := by
  simp [weight, h]

-- The sum runs over any set of keys that has those of the table.
theorem sum_eq_weights {S : Finset κ} (h : ∀ k ∈ t.keys, k ∈ S) : t.sum f = ∑ k ∈ S, t.weight f k := by
  have own : t.sum f = ∑ k ∈ t.keys.toFinset, t.weight f k := by
    rw [List.sum_toFinset _ (by exact t.nodup), sum, keys, List.map_map]
    congr 1
    apply List.map_congr_left
    rintro ⟨k, a⟩ hm
    exact (weight_of_lookup (lookup_eq_some_iff.mpr hm)).symm
  rw [own]
  apply Finset.sum_subset
  case h  => intro k hk; exact h k (List.mem_toFinset.mp hk)
  case hf =>
    intro k _ hk
    apply weight_of_none
    rw [lookup_eq_none_iff]
    intro a ha
    exact hk (List.mem_toFinset.mpr (List.mem_map.mpr ⟨_, ha, rfl⟩))

theorem sum_le_sum (h : ∀ k, t'.weight f' k ≤ t.weight f k) : t'.sum f' ≤ t.sum f := by
  let S : Finset κ := t.keys.toFinset ∪ t'.keys.toFinset
  rw [sum_eq_weights (S := S) (by simp +contextual [S]), sum_eq_weights (S := S) (by simp +contextual [S])]
  exact Finset.sum_le_sum fun k _ => h k

-- The sums of two tables, of which one has no more than the other at all keys but `i`.
theorem sum_le_of_ne (i : κ) (h : ∀ k ≠ i, t'.weight f' k ≤ t.weight f k) :
    t'.sum f' + t.weight f i ≤ t.sum f + t'.weight f' i := by
  let S : Finset κ := insert i (t.keys.toFinset ∪ t'.keys.toFinset)
  have hi : i ∈ S := Finset.mem_insert_self ..
  rw [sum_eq_weights (S := S) (by simp +contextual [S]), sum_eq_weights (S := S) (by simp +contextual [S]),
    ← Finset.sum_erase_add _ _ hi, ← Finset.sum_erase_add S (t.weight f) hi]
  have : ∑ k ∈ S.erase i, t'.weight f' k ≤ ∑ k ∈ S.erase i, t.weight f k :=
    Finset.sum_le_sum fun k hk => h k (Finset.ne_of_mem_erase hk)
  omega

theorem sum_le_weight (i : κ) (h : ∀ k ≠ i, t.weight f k = 0) : t.sum f ≤ t.weight f i := by
  have := sum_le_of_ne (t := (empty : Table κ α)) (f := f) i fun k hk => (h k hk).le
  simpa [sum, weight, lookup, empty] using this

theorem sum_eq_of_ne (i : κ) (h : ∀ k ≠ i, t'.weight f' k = t.weight f k) :
    t'.sum f' + t.weight f i = t.sum f + t'.weight f' i :=
  Nat.le_antisymm (sum_le_of_ne i fun k hk => (h k hk).le) (by
    have := sum_le_of_ne i fun k hk => (h k hk).ge
    omega)

theorem sum_congr (h : ∀ k, t'.weight f' k = t.weight f k) : t'.sum f' = t.sum f :=
  Nat.le_antisymm (sum_le_sum fun k => (h k).le) (sum_le_sum fun k => (h k).ge)

-- What is deleted is missing from the sum.
omit [DecidableEq κ] in
theorem sum_delete {p : κ → α → Bool} :
    (t.filterMap fun k a => if p k a then none else some a).sum f +
      ((t.rows.filter fun r => p r.1 r.2).map fun r => f r.1 r.2).sum = t.sum f := by
  simp only [sum, filterMap]
  induction t.rows
  case nil => rfl
  case cons r rs ih =>
    by_cases h : p r.1 r.2
    case pos => simp [h, ← ih]; omega
    case neg => simp [h, ← ih]; omega

end Table
