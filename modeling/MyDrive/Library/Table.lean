import Mathlib.Data.List.Nodup

-- A table with a primary key: a list of rows in which no key occurs twice.

structure Table (κ α : Type) where
  rows  : List (κ × α)
  nodup : (rows.map Prod.fst).Nodup

namespace Table

variable {κ α β : Type}

def empty : Table κ α where
  rows  := []
  nodup := List.nodup_nil

-- Maps or deletes every row. `UPDATE` and `DELETE` statements are both of this form.
def filterMap (t : Table κ α) (f : κ → α → Option α) : Table κ α where
  rows  := t.rows.filterMap fun r => (f r.1 r.2).map (r.1, ·)
  nodup := by
    refine List.Nodup.sublist ?_ t.nodup
    induction t.rows
    case nil => simp
    case cons r rs ih =>
      cases h : f r.1 r.2 <;> simp only [List.filterMap_cons, h, Option.map_none, Option.map_some]
      case none => exact ih.trans (List.sublist_cons_self _ _)
      case some => exact ih.cons_cons _

-- A table of other rows with the same keys.
def map (t : Table κ α) (f : κ → α → β) : Table κ β where
  rows  := t.rows.map fun r => (r.1, f r.1 r.2)
  nodup := by simpa [Function.comp_def] using t.nodup

def any (t : Table κ α) (p : κ → α → Bool) : Bool :=
  t.rows.any fun r => p r.1 r.2

def keys (t : Table κ α) : List κ :=
  t.rows.map Prod.fst

variable [DecidableEq κ]

def lookup (t : Table κ α) (k : κ) : Option α :=
  t.rows.lookup k

def erase (t : Table κ α) (k : κ) : Table κ α :=
  t.filterMap fun k' a => if k' = k then none else some a

theorem mem_rows_erase {t : Table κ α} {k k' : κ} {a : α} :
    (k', a) ∈ (t.erase k).rows ↔ k' ≠ k ∧ (k', a) ∈ t.rows := by
  simp only [erase, filterMap, List.mem_filterMap, Option.map_eq_some_iff]
  constructor
  case mp =>
    rintro ⟨⟨k₁, a₁⟩, hm, a₂, ha, he⟩
    split at ha <;> simp_all
  case mpr =>
    rintro ⟨hn, hm⟩
    exact ⟨_, hm, a, by simp [hn], rfl⟩

-- Inserts the row, replacing the one with the same key.
def set (t : Table κ α) (k : κ) (a : α) : Table κ α where
  rows  := (k, a) :: (t.erase k).rows
  nodup := by
    refine List.nodup_cons.mpr ⟨?_, (t.erase k).nodup⟩
    simp only [List.mem_map, Prod.exists, not_exists, not_and]
    rintro k' a' hm rfl
    exact (mem_rows_erase.mp hm).left rfl

theorem lookup_eq_some_iff {t : Table κ α} {k : κ} {a : α} :
    t.lookup k = some a ↔ (k, a) ∈ t.rows := by
  obtain ⟨rows, nodup⟩ := t
  simp only [lookup]
  induction rows
  case nil => simp
  case cons r rs ih =>
    obtain ⟨k', a'⟩ := r
    simp only [List.map_cons, List.nodup_cons, List.mem_map, not_exists, not_and] at nodup
    by_cases h : k = k'
    case neg => simp [List.lookup_cons, beq_false_of_ne h, h, ih nodup.right]
    case pos =>
      subst h
      simp only [List.lookup_cons_self, Option.some.injEq, List.mem_cons, Prod.mk.injEq, true_and]
      exact ⟨(Or.inl ·.symm), (·.elim Eq.symm fun hm => absurd rfl (nodup.left _ hm))⟩

theorem lookup_eq_none_iff {t : Table κ α} {k : κ} : t.lookup k = none ↔ ∀ a, (k, a) ∉ t.rows := by
  rw [Option.eq_none_iff_forall_ne_some]
  exact forall_congr' fun _ => not_congr lookup_eq_some_iff

@[simp]
theorem lookup_empty {k : κ} : (empty : Table κ α).lookup k = none :=
  rfl

@[simp]
theorem lookup_filterMap {t : Table κ α} {f : κ → α → Option α} {k : κ} :
    (t.filterMap f).lookup k = (t.lookup k).bind (f k) := by
  ext a
  rw [lookup_eq_some_iff, Option.bind_eq_some_iff]
  simp only [lookup_eq_some_iff, filterMap, List.mem_filterMap, Option.map_eq_some_iff]
  constructor
  case mp =>
    rintro ⟨⟨k', a'⟩, hm, a₂, hf, he⟩
    cases he
    exact ⟨_, hm, hf⟩
  case mpr =>
    rintro ⟨a', hm, hf⟩
    exact ⟨_, hm, _, hf, rfl⟩

@[simp]
theorem lookup_map {t : Table κ α} {f : κ → α → β} {k : κ} :
    (t.map f).lookup k = (t.lookup k).map (f k) := by
  ext b
  rw [lookup_eq_some_iff, Option.map_eq_some_iff]
  simp only [lookup_eq_some_iff, map, List.mem_map, Prod.mk.injEq, Prod.exists]
  constructor
  case mp =>
    rintro ⟨k', a, hm, rfl, rfl⟩
    exact ⟨a, hm, rfl⟩
  case mpr =>
    rintro ⟨a, hm, rfl⟩
    exact ⟨k, a, hm, rfl, rfl⟩

theorem filter_lookup {t : Table κ α} {p : κ → α → Bool} {k : κ} :
    (t.lookup k).filter (p k) = (t.rows.filter fun r => p r.1 r.2).lookup k := by
  have rows : (t.filterMap fun k a => if p k a then some a else none).rows =
      t.rows.filter fun r => p r.1 r.2 := by
    rw [← List.filterMap_eq_filter]
    apply List.filterMap_congr
    intro r _
    by_cases h : p r.1 r.2 <;> simp [Option.guard, h]
  have found := lookup_filterMap (t := t) (f := fun k a => if p k a then some a else none) (k := k)
  rw [lookup, rows] at found
  rw [found]
  cases t.lookup k <;> rfl

@[simp, grind =]
theorem lookup_erase {t : Table κ α} {k k' : κ} :
    (t.erase k).lookup k' = if k' = k then none else t.lookup k' := by
  rw [erase, lookup_filterMap]
  split
  case isTrue h  => cases t.lookup k' <;> simp
  case isFalse h => cases t.lookup k' <;> simp

@[simp, grind =]
theorem lookup_set {t : Table κ α} {k k' : κ} {a : α} :
    (t.set k a).lookup k' = if k' = k then some a else t.lookup k' := by
  split
  case isTrue h => subst h; simp [lookup, set]
  case isFalse h =>
    have : (t.set k a).lookup k' = (t.erase k).lookup k' := by
      simp [lookup, set, List.lookup_cons, beq_false_of_ne h]
    simp [this, h]

theorem rows_erase {t : Table κ α} {k : κ} : (t.erase k).rows = t.rows.filter (·.1 ≠ k) := by
  rw [erase, filterMap, ← List.filterMap_eq_filter]
  refine List.filterMap_congr fun r _ => ?_
  by_cases h : r.1 = k <;> simp [Option.guard, h]

theorem length_erase_lt {t : Table κ α} {k : κ} {a : α} (h : t.lookup k = some a) :
    (t.erase k).rows.length < t.rows.length := by
  rw [rows_erase, List.length_filter_lt_length_iff_exists]
  exact ⟨_, lookup_eq_some_iff.mp h, by simp⟩

omit [DecidableEq κ] in
theorem length_filterMap_le {t : Table κ α} {f : κ → α → Option α} :
    (t.filterMap f).rows.length ≤ t.rows.length :=
  List.length_filterMap_le _ _

theorem length_set_le {t : Table κ α} {k : κ} {a : α} : (t.set k a).rows.length ≤ t.rows.length + 1 :=
  Nat.succ_le_succ length_filterMap_le

theorem length_set_of_lookup {t : Table κ α} {k : κ} {a b : α} (h : t.lookup k = some b) :
    (t.set k a).rows.length ≤ t.rows.length :=
  length_erase_lt h

theorem any_iff {t : Table κ α} {p : κ → α → Bool} :
    t.any p = true ↔ ∃ k a, t.lookup k = some a ∧ p k a = true := by
  simp [any, lookup_eq_some_iff]

theorem mem_keys_iff {t : Table κ α} {k : κ} : k ∈ t.keys ↔ ∃ a, t.lookup k = some a := by
  simp [keys, lookup_eq_some_iff]

-- The table seen through uncommitted writes: `none` stands for a deleted row.
def overlay (t : Table κ α) (w : Table κ (Option α)) : Table κ α :=
  go w.rows
where
  go : List (κ × Option α) → Table κ α
    | []                => t
    | (k, none) :: ws   => (go ws).erase k
    | (k, some a) :: ws => (go ws).set k a

theorem overlay.lookup_go {t : Table κ α} {ws : List (κ × Option α)} {k : κ} :
    (overlay.go t ws).lookup k = (ws.lookup k).getD (t.lookup k) := by
  induction ws
  case nil => rfl
  case cons w ws ih =>
    obtain ⟨k', a⟩ := w
    by_cases h : k = k'
    case pos => subst h; cases a <;> simp [overlay.go]
    case neg => cases a <;> simp [overlay.go, h, beq_false_of_ne h, List.lookup_cons, ih]

@[simp]
theorem lookup_overlay {t : Table κ α} {w : Table κ (Option α)} {k : κ} :
    (t.overlay w).lookup k = (w.lookup k).getD (t.lookup k) :=
  overlay.lookup_go

end Table
