import Mathlib.Data.Finset.Card
import Mathlib.Order.Basic

-- Pages of rows in the descending order of a key. The next page starts below the last key of a page, and
-- the rows may change from one page to the next.

namespace Keyset

variable {α κ : Type} [LinearOrder κ]

structure Page (α κ : Type) where
  items : List α
  next  : Option κ

def below (key : α → κ) (rows : List α) (cursor : Option κ) : List α :=
  (rows.filter fun a => cursor.all (key a < ·)).mergeSort fun a b => key b ≤ key a

-- One row more than the limit is looked up, which tells whether a next page is left.
def page (key : α → κ) (rows : List α) (cursor : Option κ) (limit : Nat) : Page α κ :=
  let found := (below key rows cursor).take (limit + 1)
  let items := found.take limit
  { items, next := if limit < found.length then items.getLast?.map key else none }

-- The page `n`, unless the traversal has ended before.
def traverse (key : α → κ) (rows : Nat → List α) (limit : Nat → Nat) : Nat → Option (Page α κ)
  | 0     => some (page key (rows 0) none (limit 0))
  | n + 1 => (traverse key rows limit n).bind fun p =>
    p.next.map fun c => page key (rows (n + 1)) (some c) (limit (n + 1))

-- What has been shown up to the page `n`.
def shown (key : α → κ) (rows : Nat → List α) (limit : Nat → Nat) : Nat → List α
  | 0     => (traverse key rows limit 0).elim [] (·.items)
  | n + 1 => shown key rows limit n ++ (traverse key rows limit (n + 1)).elim [] (·.items)

variable {key : α → κ} {as : List α} {cursor : Option κ} {a : α} {k c : κ} {l n : Nat}

theorem mem_below : a ∈ below key as cursor ↔ a ∈ as ∧ ∀ c ∈ cursor, key a < c := by
  simp only [below, List.mem_mergeSort, List.mem_filter, Option.all_eq_true, decide_eq_true_eq, Option.mem_def]

theorem sorted_below (cursor : Option κ) (h : as.Pairwise (key · ≠ key ·)) : (below key as cursor).Pairwise (key · > key ·) := by
  have sorted : (below key as cursor).Pairwise (fun a b => decide (key b ≤ key a)) :=
    List.pairwise_mergeSort (by grind) (by grind) _
  have perm := List.mergeSort_perm (as.filter fun a => cursor.all (key a < ·)) fun a b => key b ≤ key a
  have distinct : (below key as cursor).Pairwise (key · ≠ key ·) :=
    (perm.pairwise_iff fun h => h.symm).mpr (h.filter _)
  refine (sorted.and distinct).imp fun h => ?_
  exact lt_of_le_of_ne (of_decide_eq_true h.left) h.right.symm

theorem page_items : (page key as cursor l).items = (below key as cursor).take l := by
  simp [page, List.take_take]

theorem page_next : (page key as cursor l).next =
    if l < (below key as cursor).length then ((below key as cursor).take l).getLast?.map key else none := by
  have : l < ((below key as cursor).take (l + 1)).length ↔ l < (below key as cursor).length := by
    rw [List.length_take]
    omega
  simp only [page, List.take_take, this, Nat.min_eq_left (Nat.le_succ l)]

-- A page shows the rows below its cursor that are not below the next one.
structure Shows (key : α → κ) (as : List α) (cursor : Option κ) (p : Page α κ) : Prop where
  sorted : p.items.Pairwise (key · > key ·)
  sound  : ∀ a ∈ p.items, a ∈ as ∧ ∀ c ∈ cursor, key a < c
  above  : ∀ a ∈ p.items, ∀ c ∈ p.next, c ≤ key a
  last   : ∀ c ∈ p.next, ∃ a ∈ p.items, key a = c
  rest   : ∀ a ∈ as, (∀ c ∈ cursor, key a < c) → a ∈ p.items ∨ ∃ c ∈ p.next, key a < c

theorem page_next_eq_some_iff : (page key as cursor l).next = some c ↔ l < (below key as cursor).length ∧
    ∃ before a, (below key as cursor).take l = before ++ [a] ∧ key a = c := by
  rw [page_next]
  split
  case isFalse small => simp [small]
  case isTrue large =>
    simp only [large, true_and, Option.map_eq_some_iff, List.getLast?_eq_some_iff]
    grind

theorem page_shows (cursor : Option κ) (h : as.Pairwise (key · ≠ key ·)) (hl : 0 < l) :
    Shows key as cursor (page key as cursor l) := by
  have sorted := sorted_below cursor h
  constructor
  case sorted =>
    rw [page_items]
    exact sorted.sublist (List.take_sublist ..)
  case sound =>
    intro a ha
    rw [page_items] at ha
    exact mem_below.mp (List.mem_of_mem_take ha)
  case above =>
    intro a ha c hc
    obtain ⟨-, before, b, taken, rfl⟩ := page_next_eq_some_iff.mp hc
    rw [page_items, taken] at ha
    have sorted := taken ▸ sorted.sublist (List.take_sublist l _)
    rcases List.mem_append.mp ha with ha | ha
    case inl => exact ((List.pairwise_append.mp sorted).right.right a ha b (by simp)).le
    case inr => exact (List.mem_singleton.mp ha ▸ le_rfl)
  case last =>
    intro c hc
    obtain ⟨-, before, b, taken, rfl⟩ := page_next_eq_some_iff.mp hc
    exact ⟨b, by simp [page_items, taken], rfl⟩
  case rest =>
    intro a ha below'
    rw [page_items]
    have found := mem_below.mpr ⟨ha, below'⟩
    rw [← List.take_append_drop l (below key as cursor)] at found sorted
    rcases List.mem_append.mp found with found | found
    case inl => exact .inl found
    case inr =>
      have large : l < (below key as cursor).length := by
        have := List.length_pos_of_mem found
        rw [List.length_drop] at this
        omega
      have nonempty : (below key as cursor).take l ≠ [] := by
        intro empty
        have := congrArg List.length empty
        rw [List.length_take, List.length_nil] at this
        omega
      have taken := List.dropLast_append_getLast nonempty
      refine .inr ⟨_, page_next_eq_some_iff.mpr ⟨large, _, _, taken.symm, rfl⟩, ?_⟩
      exact (List.pairwise_append.mp sorted).right.right _ (List.getLast_mem nonempty) a found

-- The pages of a traversal.
section

variable {rows : Nat → List α} {limit : Nat → Nat} {p : Page α κ}
  (hr : ∀ n, (rows n).Pairwise (key · ≠ key ·)) (hl : ∀ n, 0 < limit n)

-- What has been shown is all that was there throughout, down to the next cursor.
structure Covers (key : α → κ) (rows : Nat → List α) (n : Nat) (shown : List α) (next : Option κ) : Prop where
  sorted : shown.Pairwise (key · > key ·)
  sound  : ∀ a ∈ shown, ∃ m ≤ n, a ∈ rows m
  above  : ∀ a ∈ shown, ∀ c ∈ next, c ≤ key a
  rest   : ∀ k, (∀ m ≤ n, ∃ a ∈ rows m, key a = k) → (∃ a ∈ shown, key a = k) ∨ ∃ c ∈ next, k < c

theorem traverse_succ (h : traverse key rows limit (n + 1) = some p) : ∃ before c,
    traverse key rows limit n = some before ∧ before.next = some c ∧
      p = page key (rows (n + 1)) (some c) (limit (n + 1)) := by
  obtain ⟨before, hb, h⟩ := Option.bind_eq_some_iff.mp h
  obtain ⟨c, hc, rfl⟩ := Option.map_eq_some_iff.mp h
  exact ⟨before, c, hb, hc, rfl⟩

-- Nothing more is shown after the last page.
theorem exists_shown_eq : ∃ m p, traverse key rows limit m = some p ∧ shown key rows limit n = shown key rows limit m := by
  induction n
  case zero => exact ⟨0, _, rfl, rfl⟩
  case succ n ih =>
    cases ht : traverse key rows limit (n + 1)
    case some p => exact ⟨n + 1, p, ht, rfl⟩
    case none =>
      obtain ⟨m, p, hp, same⟩ := ih
      exact ⟨m, p, hp, by simp [shown, ht, same]⟩

include hr hl

theorem traverse_shows (h : traverse key rows limit n = some p) : ∃ cursor, Shows key (rows n) cursor p := by
  cases n
  case zero =>
    cases h
    exact ⟨none, page_shows none (hr 0) (hl 0)⟩
  case succ n =>
    obtain ⟨before, c, -, -, rfl⟩ := traverse_succ h
    exact ⟨some c, page_shows (some c) (hr (n + 1)) (hl (n + 1))⟩

theorem traverse_covers (h : traverse key rows limit n = some p) :
    Covers key rows n (shown key rows limit n) p.next := by
  induction n generalizing p
  case zero =>
    cases h
    have shows := page_shows none (hr 0) (hl 0)
    constructor
    case sorted => exact shows.sorted
    case sound  => exact fun a ha => ⟨0, Nat.le_refl 0, (shows.sound a ha).left⟩
    case above  => exact shows.above
    case rest =>
      intro k hk
      obtain ⟨a, ha, rfl⟩ := hk 0 (Nat.le_refl 0)
      exact (shows.rest a ha (by simp)).imp_left fun ha => ⟨a, ha, rfl⟩
  case succ n ih =>
    obtain ⟨before, c, hb, hc, rfl⟩ := traverse_succ h
    have covers := ih hb
    have shows := page_shows (some c) (hr (n + 1)) (hl (n + 1))
    rw [shown, h]
    constructor
    case sorted =>
      refine List.pairwise_append.mpr ⟨covers.sorted, shows.sorted, fun a ha b hb => ?_⟩
      exact ((shows.sound b hb).right c rfl).trans_le (covers.above a ha c hc)
    case sound =>
      intro a ha
      rcases List.mem_append.mp ha with ha | ha
      case inl =>
        obtain ⟨m, hm, ha⟩ := covers.sound a ha
        exact ⟨m, Nat.le_succ_of_le hm, ha⟩
      case inr => exact ⟨n + 1, Nat.le_refl _, (shows.sound a ha).left⟩
    case above =>
      intro a ha c' hc'
      rcases List.mem_append.mp ha with ha | ha
      case inr => exact shows.above a ha c' hc'
      case inl =>
        obtain ⟨b, hb, rfl⟩ := shows.last c' hc'
        exact ((shows.sound b hb).right c rfl).le.trans (covers.above a ha c hc)
    case rest =>
      intro k hk
      rcases covers.rest k fun m hm => hk m (Nat.le_succ_of_le hm) with ⟨a, ha, same⟩ | ⟨c', hc', lower⟩
      case inl => exact .inl ⟨a, List.mem_append_left _ ha, same⟩
      case inr =>
        cases hc.symm.trans hc'
        obtain ⟨a, ha, rfl⟩ := hk (n + 1) (Nat.le_refl _)
        rcases shows.rest a ha (by simpa using lower) with ha | next
        case inl => exact .inl ⟨a, List.mem_append_right _ ha, rfl⟩
        case inr => exact .inr next

-- A traversal of rows with finitely many keys ends.
theorem exists_last_page {keys : Finset κ} (hk : ∀ n, ∀ a ∈ rows n, key a ∈ keys) :
    ∃ n p, traverse key rows limit n = some p ∧ p.next = none := by
  by_contra unending
  simp only [not_exists, not_and] at unending
  have more (n : Nat) : ∃ p c, traverse key rows limit n = some p ∧ p.next = some c ∧ c ∈ keys ∧
      n < (keys.filter (c ≤ ·)).card := by
    induction n
    case zero =>
      obtain ⟨c, hc⟩ := Option.ne_none_iff_exists'.mp (unending 0 _ rfl)
      have shows := page_shows none (hr 0) (hl 0)
      obtain ⟨a, ha, rfl⟩ := shows.last c hc
      have mem := hk 0 a (shows.sound a ha).left
      exact ⟨_, _, rfl, hc, mem, Finset.card_pos.mpr ⟨_, Finset.mem_filter.mpr ⟨mem, le_rfl⟩⟩⟩
    case succ n ih =>
      obtain ⟨p, c, hp, hc, mem, count⟩ := ih
      have next : traverse key rows limit (n + 1) = some (page key (rows (n + 1)) (some c) (limit (n + 1))) := by
        simp [traverse, hp, hc]
      obtain ⟨c', hc'⟩ := Option.ne_none_iff_exists'.mp (unending (n + 1) _ next)
      have shows := page_shows (some c) (hr (n + 1)) (hl (n + 1))
      obtain ⟨a, ha, rfl⟩ := shows.last c' hc'
      have mem' := hk (n + 1) a (shows.sound a ha).left
      have lower := (shows.sound a ha).right c rfl
      refine ⟨_, _, next, hc', mem', Nat.lt_of_le_of_lt count (Finset.card_lt_card ?_)⟩
      refine Finset.ssubset_iff_subset_ne.mpr ⟨fun k hk => ?_, fun same => ?_⟩
      case refine_1 =>
        have hk := Finset.mem_filter.mp hk
        exact Finset.mem_filter.mpr ⟨hk.left, lower.le.trans hk.right⟩
      case refine_2 =>
        have : key a ∈ keys.filter (c ≤ ·) := same ▸ Finset.mem_filter.mpr ⟨mem', le_rfl⟩
        exact absurd (Finset.mem_filter.mp this).right lower.not_ge
  obtain ⟨-, c, -, -, -, count⟩ := more keys.card
  exact absurd (Finset.card_filter_le keys (c ≤ ·)) (Nat.not_le_of_lt count)

end

end Keyset
