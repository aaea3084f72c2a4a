import Mathlib.Data.List.Nodup
import Mathlib.Logic.Relation

-- Recursive queries (`WITH RECURSIVE .. UNION ALL ..`): the rows of the last iteration are
-- replaced by the rows that the recursive term joins to them, until no row is left. `n` bounds the
-- number of iterations.

namespace Recursive

variable {α : Type*} {next : α → List α}

def rows (next : α → List α) : Nat → List α → List α
  | 0,     _ => []
  | n + 1, w => w ++ rows next n (w.flatMap next)

-- The row `b` is joined to the row `a` by `n` iterations of the recursive term.
inductive Joins (next : α → List α) : Nat → α → α → Prop
  | zero {a} : Joins next 0 a a
  | succ {n a b c} : b ∈ next a → Joins next n b c → Joins next (n + 1) a c

theorem mem_rows_iff {n : Nat} {w : List α} {b : α} :
    b ∈ rows next n w ↔ ∃ k < n, ∃ a ∈ w, Joins next k a b := by
  induction n generalizing w
  case zero => simp [rows]
  case succ n ih =>
    simp only [rows, List.mem_append, ih, List.mem_flatMap]
    constructor
    case mp =>
      rintro (hm | ⟨k, hk, a, ⟨c, hc, ha⟩, hj⟩)
      case inl => exact ⟨0, by omega, b, hm, .zero⟩
      case inr => exact ⟨k + 1, by omega, c, hc, .succ ha hj⟩
    case mpr =>
      rintro ⟨k, hk, a, ha, hj⟩
      cases hj
      case zero          => exact .inl ha
      case succ k c hc hj => exact .inr ⟨k, by omega, c, ⟨a, ha, hc⟩, hj⟩

theorem Joins.snoc {n : Nat} {a b c : α} (h : Joins next n a b) (hc : c ∈ next b) : Joins next (n + 1) a c := by
  induction h
  case zero         => exact .succ hc .zero
  case succ hb _ ih => exact .succ hb (ih hc)

theorem Joins.invariant {P : α → Prop} {n : Nat} {a b : α} (h : Joins next n a b) (ha : P a)
    (hn : ∀ a b, P a → b ∈ next a → P b) : P b := by
  induction h
  case zero         => exact ha
  case succ hb _ ih => exact ih (hn _ _ ha hb)

-- A row is joined to the first rows through rows of the result.
theorem path_of_mem_rows {n : Nat} {w : List α} {b : α} (h : b ∈ rows next n w) :
    ∃ a ∈ w, Relation.ReflTransGen (fun b c => b ∈ next c ∧ c ∈ rows next n w) b a := by
  induction n generalizing w
  case zero => cases h
  case succ n ih =>
    obtain h | h := List.mem_append.mp h
    case inl => exact ⟨b, h, .refl⟩
    case inr =>
      obtain ⟨c, hc, path⟩ := ih h
      obtain ⟨a, ha, hc⟩ := List.mem_flatMap.mp hc
      have path : Relation.ReflTransGen (fun b c => b ∈ next c ∧ c ∈ rows next (n + 1) w) b c :=
        path.lift id fun _ _ h => ⟨h.left, List.mem_append_right w h.right⟩
      exact ⟨a, ha, path.tail ⟨hc, List.mem_append_left _ ha⟩⟩

-- No key occurs twice if a key tells the iteration in which its row is joined, and the key of the row
-- that it is joined to.
theorem nodup_rows {β : Type*} {key : α → β} {P : α → Prop} {depth : α → Nat} {n d : Nat} {w : List α}
    (deeper : ∀ a b, P a → b ∈ next a → P b ∧ depth b = depth a + 1)
    (level : ∀ a b, P a → P b → key a = key b → depth a = depth b)
    (parent : ∀ a b c d, P a → P b → c ∈ next a → d ∈ next b → key c = key d → key a = key b)
    (children : ∀ a, P a → ((next a).map key).Nodup) (hw : (w.map key).Nodup)
    (first : ∀ a ∈ w, P a ∧ depth a = d) : ((rows next n w).map key).Nodup := by
  induction n generalizing w d
  case zero => exact List.nodup_nil
  case succ n ih =>
    have second (b : α) (hb : b ∈ w.flatMap next) : P b ∧ depth b = d + 1 := by
      obtain ⟨a, ha, hb⟩ := List.mem_flatMap.mp hb
      have := deeper a b (first a ha).left hb
      exact ⟨this.left, by rw [this.right, (first a ha).right]⟩
    have distinct : ((w.flatMap next).map key).Nodup := by
      rw [List.map_flatMap]
      refine List.nodup_flatMap.mpr ⟨fun a ha => children a (first a ha).left, ?_⟩
      refine (List.pairwise_map.mp hw).imp_of_mem fun ha hb apart => ?_
      rintro k hk hk'
      obtain ⟨c, hc, rfl⟩ := List.mem_map.mp hk
      obtain ⟨c', hc', same⟩ := List.mem_map.mp hk'
      exact apart (parent _ _ _ _ (first _ ha).left (first _ hb).left hc hc' same.symm)
    rw [rows, List.map_append]
    refine List.Nodup.append hw (ih distinct second) ?_
    rintro k hk hk'
    obtain ⟨a, ha, rfl⟩ := List.mem_map.mp hk
    obtain ⟨b, hb, same⟩ := List.mem_map.mp hk'
    obtain ⟨_, _, c, hc, joins⟩ := mem_rows_iff.mp hb
    have later : P b ∧ d + 1 ≤ depth b := by
      refine joins.invariant (P := fun b => P b ∧ d + 1 ≤ depth b) ?_ fun a b ha hb => ?_
      case refine_1 => exact ⟨(second c hc).left, Nat.le_of_eq (second c hc).right.symm⟩
      case refine_2 =>
        have := deeper a b ha.left hb
        exact ⟨this.left, by omega⟩
    have := level a b (first a ha).left later.left same.symm
    have := (first a ha).right
    omega

theorem mem_rows_of_mem {n : Nat} {w : List α} {a : α} (h : a ∈ w) : a ∈ rows next (n + 1) w :=
  List.mem_append_left _ h

end Recursive
