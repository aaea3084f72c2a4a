import Mathlib.Algebra.Ring.Nat
import Mathlib.Data.Finset.Card

-- A forest of parents whose paths are halved as they are followed.

namespace UnionFind

def find : Nat → List Nat → Nat → Option (List Nat × Nat)
  | 0,        _, _ => none
  | fuel + 1, p, i => do
    let parent ← p[i]?
    if parent = i then return (p, i)
    let grandparent ← p[parent]?
    find fuel (p.set i grandparent) grandparent

def up (p : List Nat) (i : Nat) : Nat :=
  p.getD i i

def roots (p : List Nat) : Finset Nat :=
  (Finset.range p.length).filter fun i => up p i = i

def link {ι : Type} [DecidableEq ι] (root : ι → ι) (a b i : ι) : ι :=
  if root i = b then a else root i

-- The parents lead to the roots, and the paths are short enough for the fuel.
structure Represents (p : List Nat) (root depth : Nat → Nat) : Prop where
  inside  : ∀ i < p.length, up p i < p.length
  toward  : ∀ i < p.length, root (up p i) = root i
  rooted  : ∀ i < p.length, root i < p.length ∧ up p (root i) = root i
  fixed   : ∀ i < p.length, up p i = i → root i = i
  descend : ∀ i < p.length, up p i ≠ i → depth (up p i) < depth i
  level   : ∀ i < p.length, up p i = i → depth i = 0
  short   : ∀ i < p.length, depth i + (roots p).card ≤ p.length

variable {p : List Nat} {root depth : Nat → Nat} {a b i j fuel : Nat}

theorem getElem?_eq_up (h : i < p.length) : p[i]? = some (up p i) := by
  simp [up, h]

theorem up_set (h : i < p.length) : up (p.set i a) j = if j = i then a else up p j := by
  unfold up
  grind

theorem represents_range {n : Nat} : Represents (List.range n) id (fun _ => 0) := by
  have own (i : Nat) : up (List.range n) i = i := by
    unfold up
    grind
  constructor
  case inside  => grind
  case toward  => grind
  case rooted  => grind
  case fixed   => grind
  case descend => grind
  case level   => grind
  case short =>
    intro i _
    rw [Nat.zero_add]
    exact (Finset.card_filter_le ..).trans_eq (Finset.card_range _)

namespace Represents

theorem root_root (h : Represents p root depth) (hi : i < p.length) : root (root i) = root i :=
  h.fixed _ (h.rooted i hi).left (h.rooted i hi).right

theorem up_of_root (h : Represents p root depth) (hi : i < p.length) (hr : root i = i) : up p i = i := by
  have := (h.rooted i hi).right
  rwa [hr] at this

theorem depth_lt (h : Represents p root depth) (hi : i < p.length) : depth i < p.length := by
  have rooted := h.rooted i hi
  have : root i ∈ roots p := Finset.mem_filter.mpr ⟨Finset.mem_range.mpr rooted.left, rooted.right⟩
  have := Finset.card_pos.mpr ⟨_, this⟩
  have := h.short i hi
  omega

-- A node is moved to its parent's parent.
theorem halve (h : Represents p root depth) (hi : i < p.length) (hn : up p i ≠ i) :
    Represents (p.set i (up p (up p i))) root depth := by
  have parent := h.inside i hi
  have lower := h.descend i hi hn
  have grandparent : depth (up p (up p i)) < depth i := by
    by_cases atRoot : up p (up p i) = up p i
    case pos => rwa [atRoot]
    case neg => exact (h.descend _ parent atRoot).trans lower
  have moved : up p (up p i) ≠ i := by
    intro cycle
    rw [cycle] at grandparent
    exact Nat.lt_irrefl _ grandparent
  have same : roots (p.set i (up p (up p i))) = roots p := by
    ext j
    simp only [roots, List.length_set, Finset.mem_filter, up_set hi]
    grind
  constructor
  case inside =>
    intro j hj
    rw [List.length_set] at hj ⊢
    rw [up_set hi]
    split
    case isTrue  => exact h.inside _ parent
    case isFalse => exact h.inside j hj
  case toward =>
    intro j hj
    rw [List.length_set] at hj
    rw [up_set hi]
    split
    case isTrue hij => rw [h.toward _ parent, h.toward i hi, hij]
    case isFalse    => exact h.toward j hj
  case rooted =>
    intro j hj
    rw [List.length_set] at hj ⊢
    have rooted := h.rooted j hj
    refine ⟨rooted.left, ?_⟩
    rw [up_set hi, if_neg fun (hij : root j = i) => hn (hij ▸ rooted.right)]
    exact rooted.right
  case fixed =>
    intro j hj
    rw [List.length_set] at hj
    rw [up_set hi]
    grind [h.fixed j hj]
  case descend =>
    intro j hj
    have := h.descend j (List.length_set ▸ hj)
    rw [up_set hi]
    grind
  case level =>
    intro j hj
    rw [List.length_set] at hj
    rw [up_set hi]
    grind [h.level j hj]
  case short =>
    rw [same, List.length_set]
    exact h.short

theorem find_of_depth (h : Represents p root depth) (hi : i < p.length) (hf : depth i < fuel) :
    ∃ p', find fuel p i = some (p', root i) ∧ Represents p' root depth ∧ p'.length = p.length := by
  induction fuel generalizing p i
  case zero => contradiction
  case succ fuel ih =>
    have parent := h.inside i hi
    by_cases atRoot : up p i = i
    case pos =>
      refine ⟨p, ?_, h, rfl⟩
      simp [find, getElem?_eq_up hi, atRoot, h.fixed i hi atRoot]
    case neg =>
      have halved := h.halve hi atRoot
      have inside : up p (up p i) < p.length := h.inside _ parent
      have lower : depth (up p (up p i)) < fuel := by
        have := h.descend i hi atRoot
        by_cases atRoot : up p (up p i) = up p i
        case pos => grind
        case neg => grind [h.descend _ parent atRoot]
      obtain ⟨p', found, represents, length⟩ := ih halved (by rwa [List.length_set]) lower
      refine ⟨p', ?_, represents, length.trans List.length_set⟩
      rw [h.toward _ parent, h.toward i hi] at found
      simp [find, getElem?_eq_up hi, getElem?_eq_up parent, atRoot, found]

theorem find (h : Represents p root depth) (hi : i < p.length) :
    ∃ p', UnionFind.find p.length p i = some (p', root i) ∧ Represents p' root depth ∧ p'.length = p.length :=
  h.find_of_depth hi (h.depth_lt hi)

-- The root `b` is hung below the root `a`.
theorem link (h : Represents p root depth) (ha : a < p.length) (hb : b < p.length) (hra : root a = a)
    (hrb : root b = b) (hab : a ≠ b) :
    Represents (p.set b a) (UnionFind.link root a b) fun i => if root i = b then depth i + 1 else depth i := by
  have upA := h.up_of_root ha hra
  have upB := h.up_of_root hb hrb
  have fewer : roots (p.set b a) = (roots p).erase b := by
    ext j
    simp only [roots, List.length_set, Finset.mem_filter, Finset.mem_erase, up_set hb]
    grind
  have card : (roots (p.set b a)).card + 1 = (roots p).card := by
    rw [fewer]
    exact Finset.card_erase_add_one (Finset.mem_filter.mpr ⟨Finset.mem_range.mpr hb, upB⟩)
  constructor
  case inside =>
    intro j hj
    rw [List.length_set] at hj ⊢
    rw [up_set hb]
    split
    case isTrue  => exact ha
    case isFalse => exact h.inside j hj
  case toward =>
    intro j hj
    rw [List.length_set] at hj
    rw [up_set hb]
    unfold UnionFind.link
    grind [h.toward j hj]
  case rooted =>
    intro j hj
    rw [List.length_set] at hj ⊢
    have := h.rooted j hj
    rw [up_set hb]
    unfold UnionFind.link
    grind
  case fixed =>
    intro j hj
    rw [List.length_set] at hj
    rw [up_set hb]
    unfold UnionFind.link
    grind [h.fixed j hj]
  case descend =>
    intro j hj
    rw [List.length_set] at hj
    rw [up_set hb]
    have := h.toward j hj
    have := h.level a ha upA
    have := h.descend j hj
    grind
  case level =>
    intro j hj
    rw [List.length_set] at hj
    rw [up_set hb]
    grind [h.level j hj, h.fixed j hj]
  case short =>
    intro j hj
    rw [List.length_set] at hj ⊢
    have := h.short j hj
    split <;> omega

end Represents

end UnionFind
