import Mathlib.Data.List.Nodup
import Mathlib.Data.List.Perm.Subperm
import Mathlib.Data.Nat.Find
import Mathlib.Logic.Relation
import Mathlib.Order.WellFounded

-- Forests given by parent pointers: `p a` is the parent of `a`, and `none` for a root.

namespace Forest

variable {ι : Type*} {p q : ι → Option ι} {a b c : ι}

def Parent (p : ι → Option ι) (b a : ι) : Prop :=
  p a = some b

-- `b` is `a` itself or lies above it.
def Ancestor (p : ι → Option ι) : ι → ι → Prop :=
  Relation.ReflTransGen fun a b => p a = some b

-- `b` lies strictly above `a`.
def Above (p : ι → Option ι) (a b : ι) : Prop :=
  ∃ c, p a = some c ∧ Ancestor p c b

-- Follows `n` parent pointers.
def climb (p : ι → Option ι) : Nat → ι → Option ι
  | 0,     a => some a
  | n + 1, a => p a >>= climb p n

theorem climb_succ (n : Nat) : climb p (n + 1) a = climb p n a >>= p := by
  induction n generalizing a
  case zero => simp [climb]
  case succ n ih =>
    cases h : p a
    case none   => simp [climb, h]
    case some b => rw [climb, h, Option.bind_eq_bind, Option.bind_some, ih]; simp [climb, h]

theorem climb_add (m n : Nat) : climb p (m + n) a = climb p m a >>= climb p n := by
  induction m generalizing a
  case zero => simp [climb]
  case succ m ih =>
    rw [Nat.succ_add]
    cases h : p a
    case none   => simp [climb, h]
    case some b => simp [climb, h, ih]

namespace Ancestor

theorem refl (a : ι) : Ancestor p a a :=
  Relation.ReflTransGen.refl

theorem trans (h₁ : Ancestor p a b) (h₂ : Ancestor p b c) : Ancestor p a c :=
  Relation.ReflTransGen.trans h₁ h₂

theorem head (h : p a = some b) (h' : Ancestor p b c) : Ancestor p a c :=
  Relation.ReflTransGen.head h h'

theorem tail (h : Ancestor p a b) (h' : p b = some c) : Ancestor p a c :=
  Relation.ReflTransGen.tail h h'

theorem cases_head (h : Ancestor p a c) : a = c ∨ ∃ b, p a = some b ∧ Ancestor p b c :=
  Relation.ReflTransGen.cases_head h

theorem eq_of_root (h : Ancestor p a b) (hr : p a = none) : a = b := by
  obtain h | ⟨_, h, _⟩ := h.cases_head
  case inl => exact h
  case inr => simp [hr] at h

-- Two ancestors of one node are comparable, because a node has only one parent.
theorem total (h₁ : Ancestor p a b) (h₂ : Ancestor p a c) : Ancestor p b c ∨ Ancestor p c b :=
  Relation.ReflTransGen.total_of_right_unique (fun _ _ _ h h' => by simp_all) h₁ h₂

-- The pointers along the path are the only ones that matter.
theorem congr (h : Ancestor p a b) (he : ∀ x, Ancestor p a x → x ≠ b → q x = p x) :
    Ancestor q a b := by
  induction h using Relation.ReflTransGen.head_induction_on
  case refl => exact .refl _
  case head x y hp hs ih =>
    by_cases hx : x = b
    case pos => exact hx ▸ .refl _
    case neg => exact .head (he x (.refl _) hx ▸ hp) (ih fun z hz => he z (.head hp hz))

theorem mono (h : Ancestor p a b) (hm : ∀ x y, p x = some y → q x = some y) : Ancestor q a b :=
  Relation.ReflTransGen.mono hm _ _ h

end Ancestor

theorem ancestor_iff_climb : Ancestor p a b ↔ ∃ n, climb p n a = some b := by
  constructor
  case mp =>
    intro h
    induction h
    case refl => exact ⟨0, rfl⟩
    case tail _ hp ih =>
      obtain ⟨n, hn⟩ := ih
      exact ⟨n + 1, by simp [climb_succ, hn, hp]⟩
  case mpr =>
    rintro ⟨n, hn⟩
    induction n generalizing a
    case zero => cases hn; exact .refl _
    case succ n ih =>
      simp only [climb, Option.bind_eq_bind, Option.bind_eq_some_iff] at hn
      obtain ⟨_, hp, hn⟩ := hn
      exact .head hp (ih hn)

-- In a well-founded forest every node reaches a root in finitely many steps.
theorem exists_root (wf : WellFounded (Parent p)) (a : ι) :
    ∃ n r, climb p n a = some r ∧ p r = none := by
  induction a using wf.induction
  case _ a ih =>
    cases h : p a
    case none => exact ⟨0, a, rfl, h⟩
    case some b =>
      obtain ⟨n, r, hn, hr⟩ := ih b h
      exact ⟨n + 1, r, by simp [climb, h, hn], hr⟩

theorem not_ancestor_of_parent (wf : WellFounded (Parent p)) (h : p a = some b) :
    ¬Ancestor p b a := by
  intro hc
  have ht : Relation.TransGen (fun a b => p a = some b) a a := .head' h hc
  have wf' := wf.transGen
  refine wf'.irrefl.irrefl a ?_
  exact Relation.transGen_swap.mp ht

theorem Ancestor.antisymm (wf : WellFounded (Parent p)) (h₁ : Ancestor p a b)
    (h₂ : Ancestor p b a) : a = b := by
  obtain h | ⟨c, hp, hc⟩ := h₁.cases_head
  case inl => exact h
  case inr => exact absurd (hc.trans h₂) (not_ancestor_of_parent wf hp)

theorem Above.ancestor (h : Above p a b) : Ancestor p a b := by
  obtain ⟨_, hp, hc⟩ := h
  exact .head hp hc

theorem above_iff_tail : Above p a b ↔ ∃ c, Ancestor p a c ∧ p c = some b := by
  constructor
  case mp =>
    rintro ⟨c, hp, hc⟩
    cases Relation.ReflTransGen.cases_tail hc
    case inl h => exact ⟨a, .refl _, h ▸ hp⟩
    case inr h =>
      obtain ⟨d, hd, hb⟩ := h
      exact ⟨d, .head hp hd, hb⟩
  case mpr =>
    rintro ⟨c, hc, hb⟩
    obtain h | ⟨d, hd, hc⟩ := hc.cases_head
    · exact ⟨b, h ▸ hb, .refl _⟩
    · exact ⟨d, hd, hc.tail hb⟩

theorem above_iff (wf : WellFounded (Parent p)) : Above p a b ↔ Ancestor p a b ∧ b ≠ a := by
  constructor
  case mp =>
    intro h
    refine ⟨h.ancestor, ?_⟩
    obtain ⟨_, hp, hc⟩ := h
    intro he
    exact not_ancestor_of_parent wf hp (he ▸ hc)
  case mpr =>
    rintro ⟨h, hn⟩
    cases h.cases_head
    case inl h => exact absurd h.symm hn
    case inr h => exact h

theorem ancestor_iff_eq_or_above : Ancestor p a b ↔ b = a ∨ Above p a b where
  mp h  := h.cases_head.imp Eq.symm id
  mpr h := h.elim (fun he => he ▸ .refl _) Above.ancestor

-- Two forests that differ in the pointer of `a` only: the nodes below `a` are the same, and
-- nothing changes above the other ones.
section

variable (he : ∀ x, x ≠ a → q x = p x) {x z : ι}
include he

theorem ancestor_self_of_eq (h : Ancestor p x a) : Ancestor q x a := by
  induction h using Relation.ReflTransGen.head_induction_on
  case refl => exact .refl _
  case head x y hp _ ih =>
    by_cases hx : x = a
    case pos => exact hx ▸ .refl _
    case neg => exact .head (he x hx ▸ hp) ih

theorem ancestor_self_iff : Ancestor q x a ↔ Ancestor p x a where
  mp  := ancestor_self_of_eq fun x hx => (he x hx).symm
  mpr := ancestor_self_of_eq he

theorem ancestor_of_not_ancestor (h : ¬Ancestor p a z) (hz : Ancestor p x z) : Ancestor q x z := by
  induction hz using Relation.ReflTransGen.head_induction_on
  case refl => exact .refl _
  case head x y hp hs ih =>
    have hx : x ≠ a := fun hc => h (hc ▸ .head hp hs)
    exact .head ((he x hx).trans hp) ih

theorem ancestor_iff_of_not (h : ¬Ancestor p x a) : Ancestor q x z ↔ Ancestor p x z where
  mp hz  := hz.congr fun y hy _ => Eq.symm <| he y fun hc =>
    h <| ancestor_self_iff he |>.mp (hc ▸ hy)
  mpr hz := hz.congr fun y hy _ => he y fun hc => h (hc ▸ hy)

theorem above_iff_of_not (h : ¬Ancestor p x a) : Above q x z ↔ Above p x z := by
  have hx : x ≠ a := fun hc => h (hc ▸ .refl _)
  simp only [Above, he x hx]
  refine exists_congr fun c => and_congr_right fun hp => ?_
  exact ancestor_iff_of_not he fun hc => h (.head hp hc)

theorem above_self_iff (h : x ≠ a) : Above q x a ↔ Above p x a := by
  simp only [Above, he x h]
  exact exists_congr fun c => and_congr_right fun _ => ancestor_self_iff he

end

theorem wellFounded_of_subset (wf : WellFounded (Parent p))
    (h : ∀ a b, q a = some b → p a = some b) : WellFounded (Parent q) :=
  Subrelation.wf (fun {b a} hp => h a b hp) wf

-- Redirecting the pointer of one node keeps a forest well-founded, unless the new parent lies
-- below that node.
theorem wellFounded_of_redirect (wf : WellFounded (Parent p)) (a : ι)
    (hq : ∀ x, x ≠ a → ∀ y, q x = some y → p x = some y)
    (ha : ∀ b, q a = some b → ¬Ancestor p b a) : WellFounded (Parent q) := by
  have outside : ∀ x, ¬Ancestor p x a → Acc (Parent q) x := by
    intro x
    induction x using wf.induction
    case _ x ih =>
      refine fun hx => .intro _ fun y hy => ?_
      have hp := hq x (fun he => hx <| he ▸ .refl _) y hy
      exact ih y hp fun hc => hx <| .head hp hc
  have self : Acc (Parent q) a := .intro _ fun b hb => outside b (ha b hb)
  refine ⟨fun x => ?_⟩
  induction x using wf.induction
  case _ x ih =>
    by_cases hx : x = a
    case pos => exact hx ▸ self
    case neg => exact .intro _ fun y hy => ih y (hq x hx y hy)

-- A path that comes to no node twice is not longer than the number of nodes that have a parent.
theorem climb_le_length_of_ne {dom : List ι} (hd : ∀ x y, p x = some y → x ∈ dom) {n : Nat}
    (h : climb p n a = some b)
    (hn : ∀ i j c, i < j → j < n → climb p i a = some c → climb p j a ≠ some c) :
    n ≤ dom.length := by
  have defined : ∀ i, i ≤ n → ∃ c, climb p i a = some c := by
    intro i hi
    obtain ⟨k, rfl⟩ := Nat.exists_eq_add_of_le hi
    rw [climb_add, Option.bind_eq_bind, Option.bind_eq_some_iff] at h
    exact ⟨_, h.choose_spec.left⟩
  let path := (List.range n).map fun i => (climb p i a).getD a
  have nodup : path.Nodup := by
    refine List.nodup_range.map_on ?_
    have lt : ∀ i j, i < j → j < n → (climb p i a).getD a ≠ (climb p j a).getD a := by
      intro i j hij hj he
      obtain ⟨c, hc⟩ := defined i (by omega)
      obtain ⟨d, hd⟩ := defined j (by omega)
      simp only [hc, hd, Option.getD_some] at he
      exact hn i j c hij hj hc (he ▸ hd)
    intro i hi j hj he
    simp only [List.mem_range] at hi hj
    obtain h | h | h := Nat.lt_trichotomy i j
    · exact absurd he (lt i j h hj)
    · exact h
    · exact absurd he.symm (lt j i h hi)
  have subset : path ⊆ dom := by
    intro x hx
    simp only [path, List.mem_map, List.mem_range] at hx
    obtain ⟨i, hi, rfl⟩ := hx
    obtain ⟨c, hc⟩ := defined i (by omega)
    obtain ⟨d, hd'⟩ := defined (i + 1) (by omega)
    rw [climb_succ, hc, Option.bind_eq_bind, Option.bind_some] at hd'
    simpa [hc] using hd c d hd'
  simpa [path] using (List.subperm_of_subset nodup subset).length_le

-- The depth of a finite forest is bounded by the number of nodes that have a parent.
theorem climb_le_length (wf : WellFounded (Parent p)) {dom : List ι}
    (hd : ∀ x y, p x = some y → x ∈ dom) {n : Nat} (h : climb p n a = some b) :
    n ≤ dom.length := by
  refine climb_le_length_of_ne hd h fun i j c hij _ hi hj => ?_
  obtain ⟨k, rfl⟩ := Nat.exists_eq_add_of_lt hij
  rw [Nat.add_assoc, climb_add, hi, Option.bind_eq_bind, Option.bind_some, climb,
    Option.bind_eq_bind, Option.bind_eq_some_iff] at hj
  obtain ⟨e, he, hk⟩ := hj
  exact not_ancestor_of_parent wf he (ancestor_iff_climb.mpr ⟨_, hk⟩)

-- Even if the pointers form a cycle, an ancestor is not further away than that.
theorem Ancestor.exists_climb_le {dom : List ι} (hd : ∀ x y, p x = some y → x ∈ dom)
    (h : Ancestor p a b) : ∃ n ≤ dom.length, climb p n a = some b := by
  classical
  have found := ancestor_iff_climb.mp h
  refine ⟨Nat.find found, climb_le_length_of_ne hd (Nat.find_spec found) ?_, Nat.find_spec found⟩
  intro i j c hij hj hi hc
  -- The path with the round between `i` and `j` left out is shorter.
  obtain ⟨k, hk⟩ := Nat.exists_eq_add_of_lt hj
  have rest : climb p (k + 1) c = some b := by
    have := Nat.find_spec found
    rwa [hk, Nat.add_assoc, climb_add, hc, Option.bind_eq_bind, Option.bind_some] at this
  refine Nat.find_min found (m := i + (k + 1)) (by omega) ?_
  rw [climb_add, hi, Option.bind_eq_bind, Option.bind_some, rest]

end Forest
