import Mathlib.Order.Defs.LinearOrder
import MyDrive.Library.UnionFind

-- Clusters that are merged pair by pair when some of their elements are near. A pinned element stays the
-- root of its cluster.

open UnionFind Classical

noncomputable section

namespace Clustering

variable {ι : Type}

structure Sound (pinned : ι → Prop) (root : ι → ι) : Prop where
  idem   : ∀ i, root (root i) = root i
  pinned : ∀ i, pinned i → root i = i

theorem sound_id {pinned : ι → Prop} : Sound pinned id :=
  ⟨fun _ => rfl, fun _ _ => rfl⟩

variable [LinearOrder ι]

structure Joins (pinned : ι → Prop) (near : ι → ι → Prop) (root : ι → ι) (a b : ι) : Prop where
  apart : a ≠ b
  free  : ¬(pinned a ∧ pinned b)
  near  : ∃ i j, root i = a ∧ root j = b ∧ near i j

def KeepsFirst (pinned : ι → Prop) (a b : ι) : Prop :=
  (pinned a ∧ ¬pinned b) ∨ ((pinned a ↔ pinned b) ∧ a ≤ b)

def step (pinned : ι → Prop) (near : ι → ι → Prop) (root : ι → ι) (pair : ι × ι) : ι → ι :=
  if Joins pinned near root (root pair.1) (root pair.2) then
    if KeepsFirst pinned (root pair.1) (root pair.2) then link root (root pair.1) (root pair.2)
    else link root (root pair.2) (root pair.1)
  else root

-- Near elements of two clusters are merged, unless both clusters are pinned.
def Done (pinned : ι → Prop) (near : ι → ι → Prop) (root : ι → ι) (pair : ι × ι) : Prop :=
  root pair.1 ≠ root pair.2 → near pair.1 pair.2 → pinned (root pair.1) ∧ pinned (root pair.2)

variable {pinned : ι → Prop} {near : ι → ι → Prop} {root : ι → ι} {a b i : ι} {pair pair' : ι × ι}
  {pairs : List (ι × ι)}

theorem Sound.link (h : Sound pinned root) (ha : root a = a) (hab : a ≠ b) (hb : ¬pinned b) :
    Sound pinned (link root a b) := by
  constructor
  case idem =>
    intro i
    unfold UnionFind.link
    grind [h.idem i]
  case pinned =>
    intro i hi
    have := h.pinned i hi
    unfold UnionFind.link
    grind

theorem link_of_pinned (hb : ¬pinned b) (hi : pinned (root i)) : link root a b i = root i :=
  if_neg fun (same : root i = b) => hb (same ▸ hi)

-- A step leaves the roots or hangs a root that is not pinned below another.
theorem step_cases (h : Sound pinned root) : step pinned near root pair = root ∨
    ∃ a b, root a = a ∧ root b = b ∧ a ≠ b ∧ ¬pinned b ∧ step pinned near root pair = link root a b := by
  unfold step
  split
  case isFalse => exact .inl rfl
  case isTrue joins =>
    have first  := h.idem pair.1
    have second := h.idem pair.2
    have free   := joins.free
    split
    case isTrue keeps =>
      refine .inr ⟨_, _, first, second, joins.apart, fun pinned => ?_, rfl⟩
      rcases keeps with keeps | keeps
      case inl => exact keeps.right pinned
      case inr => exact free ⟨keeps.left.mpr pinned, pinned⟩
    case isFalse keeps =>
      refine .inr ⟨_, _, second, first, joins.apart.symm, fun pinned => keeps (.inl ⟨pinned, fun other => ?_⟩), rfl⟩
      exact free ⟨pinned, other⟩

theorem Sound.step (h : Sound pinned root) : Sound pinned (step pinned near root pair) := by
  rcases @step_cases _ _ _ near root pair h with same | ⟨a, b, ha, hb, hab, free, linked⟩
  case inl => rwa [same]
  case inr =>
    rw [linked]
    exact h.link ha hab free

theorem Done.step (h : Sound pinned root) (hd : Done pinned near root pair') :
    Done pinned near (step pinned near root pair) pair' := by
  rcases @step_cases _ _ _ near root pair h with same | ⟨a, b, ha, hb, hab, free, linked⟩
  case inl => rwa [same]
  case inr =>
    rw [linked]
    intro apart close
    have before : root pair'.1 ≠ root pair'.2 := by
      intro same
      unfold UnionFind.link at apart
      rw [same] at apart
      exact apart rfl
    have pinned := hd before close
    rw [link_of_pinned free pinned.left, link_of_pinned free pinned.right]
    exact pinned

theorem done_step (h : Sound pinned root) : Done pinned near (step pinned near root pair) pair := by
  unfold step
  split
  case isFalse stays =>
    intro apart close
    by_contra free
    exact stays ⟨apart, free, _, _, rfl, rfl, close⟩
  case isTrue joins =>
    have first  := h.idem pair.1
    have second := h.idem pair.2
    split
    case isTrue =>
      intro apart
      refine (apart ?_).elim
      unfold link
      grind
    case isFalse =>
      intro apart
      refine (apart ?_).elim
      unfold link
      grind

def run (pinned : ι → Prop) (near : ι → ι → Prop) (root : ι → ι) (pairs : List (ι × ι)) : ι → ι :=
  pairs.foldl (step pinned near) root

theorem Sound.run (h : Sound pinned root) : Sound pinned (run pinned near root pairs) := by
  induction pairs generalizing root
  case nil                => exact h
  case cons pair pairs ih => exact ih h.step

theorem Done.run (h : Sound pinned root) (hd : Done pinned near root pair) :
    Done pinned near (run pinned near root pairs) pair := by
  induction pairs generalizing root
  case nil             => exact hd
  case cons _ pairs ih => exact ih h.step (hd.step h)

theorem done_run (h : Sound pinned root) (hp : pair ∈ pairs) :
    Done pinned near (run pinned near root pairs) pair := by
  induction pairs generalizing root
  case nil => contradiction
  case cons first pairs ih =>
    rcases List.mem_cons.mp hp with rfl | later
    case inl =>
      have done : Done pinned near (run pinned near (step pinned near root pair) pairs) pair :=
        Done.run h.step (done_step h)
      exact done
    case inr => exact ih h.step later

end Clustering

end
