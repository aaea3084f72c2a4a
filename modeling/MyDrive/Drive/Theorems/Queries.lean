import MyDrive.Drive.Triggers
import MyDrive.Library.Forest

open Forest

namespace MyDrive.Drive

-- What the foreign key and the parent guard promise about the owners in `drive_entries`.
structure Linked (entries : Table Id Entry) : Prop where
  parent {x p : Id} {e : Entry} : entries.lookup x = some e → e.parentId = some p →
    ∃ f, entries.lookup p = some f ∧ f.ownerId = e.ownerId

-- What the foreign key, the parent guard and the absence of cycles promise about `drive_entries`.
structure Tree (entries : Table Id Entry) : Prop where
  parent {x p : Id} {e : Entry} : entries.lookup x = some e → e.parentId = some p →
    ∃ f, entries.lookup p = some f ∧ f.kind = .folder ∧ f.ownerId = e.ownerId
  wf : WellFounded (Parent (parentOf entries))

variable {entries : Table Id Entry} {x y z : Id} {e f : Entry} {owner : Id}

def Trashed (entries : Table Id Entry) (x : Id) : Prop :=
  ∃ e, entries.lookup x = some e ∧ e.deletedAt.isSome

theorem parentOf_eq (h : entries.lookup x = some e) : parentOf entries x = e.parentId := by
  simp [parentOf, h]

theorem lookup_of_parentOf (h : parentOf entries x = some y) :
    ∃ e, entries.lookup x = some e ∧ e.parentId = some y :=
  Option.bind_eq_some_iff.mp h

theorem mem_rowAt_iff {keep : Entry → Bool} :
    (y, f) ∈ rowAt entries keep x ↔ y = x ∧ entries.lookup x = some f ∧ keep f := by
  simp only [rowAt, List.mem_map, Option.mem_toList, Option.filter_eq_some_iff,
    Prod.mk.injEq]
  constructor
  case mp  => rintro ⟨g, ⟨h, hk⟩, he, hg⟩; exact ⟨he.symm, hg ▸ h, hg ▸ hk⟩
  case mpr => rintro ⟨he, h, hk⟩; exact ⟨f, ⟨h, hk⟩, he.symm, rfl⟩

theorem mem_childrenOf_iff {keep : Entry → Bool} :
    (y, f) ∈ childrenOf entries keep x ↔
      entries.lookup y = some f ∧ f.parentId = some x ∧ keep f := by
  simp [childrenOf, Table.lookup_eq_some_iff]

theorem lookup_of_mem_chain {keep : Entry → Bool} (h : (y, f) ∈ chain entries keep x) :
    entries.lookup y = some f ∧ keep f := by
  have row {r : Id × Entry} {z} (h : r ∈ rowAt entries keep z) :
      entries.lookup r.1 = some r.2 ∧ keep r.2 := by
    obtain ⟨hz, hl⟩ := mem_rowAt_iff.mp h
    exact hz ▸ hl
  obtain ⟨n, _, a, hm, hj⟩ := Recursive.mem_rows_iff.mp h
  refine hj.invariant (P := fun r => entries.lookup r.1 = some r.2 ∧ keep r.2) (row hm) ?_
  intro a b _ hb
  obtain ⟨_, _, hb⟩ := List.mem_flatMap.mp hb
  exact row hb

theorem mem_keys_of_parentOf (h : parentOf entries x = some y) : x ∈ entries.keys := by
  obtain ⟨e, he, _⟩ := lookup_of_parentOf h
  exact Table.mem_keys_iff.mpr ⟨e, he⟩

theorem exists_climb_lt (h : Ancestor (parentOf entries) x y) :
    ∃ n < entries.rows.length + 1, climb (parentOf entries) n x = some y := by
  obtain ⟨n, hn, hc⟩ := h.exists_climb_le fun _ _ => mem_keys_of_parentOf
  simp only [Table.keys, List.length_map] at hn
  exact ⟨n, by omega, hc⟩

theorem linked_of_all (h : entries.rows.all (fun r => r.2.parentId.all fun p =>
    (entries.lookup p).any (·.ownerId = r.2.ownerId)) = true) : Linked entries where
  parent {x p e} hx hp := by
    have := List.all_eq_true.mp h _ (Table.lookup_eq_some_iff.mp hx)
    simpa [hp, Option.any_eq_true] using this

namespace Linked

variable (linked : Linked entries)
include linked

theorem ancestor_lookup (h : Ancestor (parentOf entries) x y) (hx : entries.lookup x = some e) :
    ∃ f, entries.lookup y = some f ∧ f.ownerId = e.ownerId := by
  induction h
  case refl => exact ⟨e, hx, rfl⟩
  case tail hp ih =>
    obtain ⟨f, hf, ho⟩ := ih
    obtain ⟨g, hg, ho'⟩ := linked.parent hf (parentOf_eq hf ▸ hp)
    exact ⟨g, hg, ho'.trans ho⟩

theorem ancestor_owner (h : Ancestor (parentOf entries) x y) (hx : entries.lookup x = some e)
    (hy : entries.lookup y = some f) : f.ownerId = e.ownerId := by
  obtain ⟨g, hg, ho⟩ := linked.ancestor_lookup h hx
  cases hy.symm.trans hg
  exact ho

-- Walking upwards follows the parent pointers as far as the rows are kept.
theorem joins_chain_iff {keep : Entry → Bool} {n : Nat} (hx : entries.lookup x = some e)
    (hk : ∀ y f, Ancestor (parentOf entries) x y → entries.lookup y = some f → keep f = true) :
    Recursive.Joins (fun r => r.2.parentId.toList.flatMap (rowAt entries keep)) n (x, e) (y, f) ↔
      climb (parentOf entries) n x = some y ∧ entries.lookup y = some f := by
  induction n generalizing x e
  case zero =>
    constructor
    case mp  => intro h; cases h; exact ⟨rfl, hx⟩
    case mpr =>
      rintro ⟨hc, hy⟩
      cases hc
      cases hx.symm.trans hy
      exact .zero
  case succ n ih =>
    simp only [climb, parentOf_eq hx, Option.bind_eq_bind, Option.bind_eq_some_iff]
    have next {p g} (hp : e.parentId = some p) (hg : entries.lookup p = some g) :=
      ih hg fun y f hy => hk y f (.head (parentOf_eq hx ▸ hp) hy)
    constructor
    case mp =>
      intro h
      cases h
      case succ b hb hj =>
        simp only [List.mem_flatMap, Option.mem_toList] at hb
        obtain ⟨p, hp, hb⟩ := hb
        obtain ⟨he, hg, _⟩ := mem_rowAt_iff.mp hb
        obtain ⟨hc, hy⟩ := next hp hg |>.mp (he ▸ hj)
        exact ⟨⟨p, hp, hc⟩, hy⟩
    case mpr =>
      rintro ⟨⟨p, hp, hc⟩, hy⟩
      obtain ⟨g, hg, _⟩ := linked.parent hx hp
      have hk := hk p g (.head (parentOf_eq hx ▸ hp) (.refl _)) hg
      have hm : (p, g) ∈ e.parentId.toList.flatMap (rowAt entries keep) := by
        simp [hp, mem_rowAt_iff, hg, hk]
      exact .succ hm (next hp hg |>.mpr ⟨hc, hy⟩)

theorem mem_chain_iff {keep : Entry → Bool} (hx : entries.lookup x = some e)
    (hk : ∀ y f, Ancestor (parentOf entries) x y → entries.lookup y = some f → keep f = true) :
    (y, f) ∈ chain entries keep x ↔
      Ancestor (parentOf entries) x y ∧ entries.lookup y = some f := by
  rw [chain, Recursive.mem_rows_iff, ancestor_iff_climb]
  constructor
  case mp =>
    rintro ⟨n, _, ⟨x', e'⟩, hm, hj⟩
    obtain ⟨he, hx', _⟩ := mem_rowAt_iff.mp hm
    cases he
    cases hx.symm.trans hx'
    obtain ⟨hc, hy⟩ := linked.joins_chain_iff hx hk |>.mp hj
    exact ⟨⟨n, hc⟩, hy⟩
  case mpr =>
    rintro ⟨hn, hy⟩
    have hm := mem_rowAt_iff.mpr ⟨rfl, hx, hk x e (.refl _) hx⟩
    obtain ⟨n, hn, hc⟩ := exists_climb_lt (ancestor_iff_climb.mpr hn)
    exact ⟨n, hn, _, hm, linked.joins_chain_iff hx hk |>.mpr ⟨hc, hy⟩⟩

theorem mem_parentChain_iff (hx : entries.lookup x = some e) (ho : e.ownerId = owner) :
    (y, f) ∈ parentChain entries owner x ↔
      Ancestor (parentOf entries) x y ∧ entries.lookup y = some f :=
  linked.mem_chain_iff hx fun _ _ ha hy => by simp [linked.ancestor_owner ha hx hy, ho]

-- Walking downwards finds the entries from which the parent pointers lead back up.
theorem joins_childrenOf_iff {n : Nat} (hx : entries.lookup x = some e) (ho : e.ownerId = owner) :
    Recursive.Joins (fun r => childrenOf entries (·.ownerId = owner) r.1) n (x, e) (y, f) ↔
      climb (parentOf entries) n y = some x ∧ entries.lookup y = some f := by
  induction n generalizing x e
  case zero =>
    constructor
    case mp  => intro h; cases h; exact ⟨rfl, hx⟩
    case mpr =>
      rintro ⟨hc, hy⟩
      cases hc
      cases hx.symm.trans hy
      exact .zero
  case succ n ih =>
    simp only [climb_succ, Option.bind_eq_bind, Option.bind_eq_some_iff]
    constructor
    case mp =>
      intro h
      cases h
      case succ b hb hj =>
        obtain ⟨hb, hp, ho'⟩ := mem_childrenOf_iff.mp hb
        obtain ⟨hc, hy⟩ := ih hb (by simpa using ho') |>.mp hj
        exact ⟨⟨b.1, hc, parentOf_eq hb ▸ hp⟩, hy⟩
    case mpr =>
      rintro ⟨⟨c, hc, hp⟩, hy⟩
      obtain ⟨g, hg, hp⟩ := lookup_of_parentOf hp
      obtain ⟨e', he', ho'⟩ := linked.parent hg hp
      cases hx.symm.trans he'
      have hm : (c, g) ∈ childrenOf entries (·.ownerId = owner) x :=
        mem_childrenOf_iff.mpr ⟨hg, hp, by simp [← ho', ho]⟩
      exact .succ hm (ih hg (ho'.symm.trans ho) |>.mpr ⟨hc, hy⟩)

theorem mem_subtree_of_ancestor (hx : entries.lookup x = some e) (ho : e.ownerId = owner)
    (h : Ancestor (parentOf entries) y x) (hy : entries.lookup y = some f) :
    (y, f) ∈ subtree entries owner x := by
  obtain ⟨n, hn, hc⟩ := exists_climb_lt h
  have hm : (x, e) ∈ rowAt entries (·.ownerId = owner) x :=
    mem_rowAt_iff.mpr ⟨rfl, hx, by simp [ho]⟩
  exact Recursive.mem_rows_iff.mpr
    ⟨n, hn, _, hm, linked.joins_childrenOf_iff hx ho |>.mpr ⟨hc, hy⟩⟩

end Linked

namespace Tree

theorem empty : Tree .empty where
  parent h := by simp at h
  wf       := ⟨fun _ => ⟨_, fun _ h => by simp [Parent, parentOf] at h⟩⟩

variable (tree : Tree entries)
include tree

theorem linked : Linked entries where
  parent hx hp := by
    obtain ⟨f, hf, -, ho⟩ := tree.parent hx hp
    exact ⟨f, hf, ho⟩

theorem congr {entries' : Table Id Entry} (h : ∀ x, entries'.lookup x = entries.lookup x) :
    Tree entries' where
  parent hx hp := by
    simp only [h] at hx ⊢
    exact tree.parent hx hp
  wf           := by
    have : parentOf entries' = parentOf entries := funext fun x => by simp [parentOf, h]
    exact this ▸ tree.wf

theorem climb_lt {n : Nat} (h : climb (parentOf entries) n x = some y) :
    n < entries.rows.length + 1 := by
  have := climb_le_length tree.wf (fun _ _ => mem_keys_of_parentOf) h
  simp only [Table.keys, List.length_map] at this
  omega

theorem mem_subtree_iff (hx : entries.lookup x = some e) (ho : e.ownerId = owner) :
    (y, f) ∈ subtree entries owner x ↔
      Ancestor (parentOf entries) y x ∧ entries.lookup y = some f := by
  rw [subtree, descend, Recursive.mem_rows_iff, ancestor_iff_climb]
  constructor
  case mp =>
    rintro ⟨n, _, ⟨x', e'⟩, hm, hj⟩
    obtain ⟨he, hx', _⟩ := mem_rowAt_iff.mp hm
    cases he
    cases hx.symm.trans hx'
    obtain ⟨hc, hy⟩ := tree.linked.joins_childrenOf_iff hx ho |>.mp hj
    exact ⟨⟨n, hc⟩, hy⟩
  case mpr =>
    rintro ⟨⟨n, hc⟩, hy⟩
    have hm : (x, e) ∈ rowAt entries (·.ownerId = owner) x :=
      mem_rowAt_iff.mpr ⟨rfl, hx, by simp [ho]⟩
    exact ⟨n, tree.climb_lt hc, _, hm, tree.linked.joins_childrenOf_iff hx ho |>.mpr ⟨hc, hy⟩⟩

theorem mem_descend_childrenOf_iff (hx : entries.lookup x = some e) (ho : e.ownerId = owner) :
    (y, f) ∈ descend entries (·.ownerId = owner) (childrenOf entries (·.ownerId = owner) x) ↔
      Above (parentOf entries) y x ∧ entries.lookup y = some f := by
  rw [descend, Recursive.mem_rows_iff, above_iff_tail]
  constructor
  case mp =>
    rintro ⟨n, _, ⟨c, g⟩, hm, hj⟩
    obtain ⟨hg, hp, ho'⟩ := mem_childrenOf_iff.mp hm
    obtain ⟨hc, hy⟩ := tree.linked.joins_childrenOf_iff hg (by simpa using ho') |>.mp hj
    exact ⟨⟨c, ancestor_iff_climb.mpr ⟨n, hc⟩, parentOf_eq hg ▸ hp⟩, hy⟩
  case mpr =>
    rintro ⟨⟨c, ha, hp⟩, hy⟩
    obtain ⟨n, hc⟩ := ancestor_iff_climb.mp ha
    obtain ⟨g, hg, hp⟩ := lookup_of_parentOf hp
    obtain ⟨e', he', _, ho'⟩ := tree.parent hg hp
    cases hx.symm.trans he'
    have hm : (c, g) ∈ childrenOf entries (·.ownerId = owner) x :=
        mem_childrenOf_iff.mpr ⟨hg, hp, by simp [← ho', ho]⟩
    have hj := tree.linked.joins_childrenOf_iff hg (ho'.symm.trans ho) |>.mpr ⟨hc, hy⟩
    exact ⟨n, tree.climb_lt hc, _, hm, hj⟩

theorem mem_map_descend_iff (hx : entries.lookup x = some e) (ho : e.ownerId = owner) :
    y ∈ (descend entries (·.ownerId = owner)
      (childrenOf entries (·.ownerId = owner) x)).map Prod.fst ↔
      Above (parentOf entries) y x := by
  simp only [List.mem_map, Prod.exists, exists_and_right, exists_eq_right]
  simp only [tree.mem_descend_childrenOf_iff hx ho]
  refine ⟨fun h => h.choose_spec.left, fun ha => ?_⟩
  obtain ⟨c, hc, hcx⟩ := ha
  obtain ⟨f, hf, _⟩ := lookup_of_parentOf hc
  exact ⟨f, ⟨c, hc, hcx⟩, hf⟩

-- What lies strictly above `y` and not above `x`, for a child `c` of `x` that is above `y`.
theorem trashed_between_iff {c : Id} (hc : Ancestor (parentOf entries) y c)
    (hp : parentOf entries c = some x) :
    (∃ z, Above (parentOf entries) y z ∧ Ancestor (parentOf entries) z x ∧ Trashed entries z) ↔
      Trashed entries x ∨
      ∃ z, Above (parentOf entries) y z ∧ Ancestor (parentOf entries) z c ∧ Trashed entries z := by
  constructor
  case mp =>
    rintro ⟨z, hyz, hzx, hz⟩
    cases hc.total hyz.ancestor
    case inr h => exact .inr ⟨z, hyz, h, hz⟩
    case inl h =>
      cases h.cases_head
      case inl h => exact .inr ⟨z, hyz, h ▸ .refl _, hz⟩
      case inr h =>
        obtain ⟨x', hp', hxz⟩ := h
        cases hp.symm.trans hp'
        exact .inl (hxz.antisymm tree.wf hzx ▸ hz)
  case mpr =>
    intro h
    cases h
    case inl h => exact ⟨x, above_iff_tail.mpr ⟨c, hc, hp⟩, .refl _, h⟩
    case inr h =>
      obtain ⟨z, hyz, hzc, hz⟩ := h
      exact ⟨z, hyz, hzc.tail hp, hz⟩

theorem joins_rebaseNext_iff {n : Nat} {w : WalkRow} {d : Bool} (hx : entries.lookup x = some e)
    (ho : e.ownerId = owner) :
    Recursive.Joins (rebaseNext entries owner) n ⟨x, e.deletedAt, d⟩ w ↔
      climb (parentOf entries) n w.id = some x ∧
      (∃ f, entries.lookup w.id = some f ∧ w.deletedAt = f.deletedAt) ∧
      (w.ancestorDeleted = true ↔ d = true ∨
        ∃ z, Above (parentOf entries) w.id z ∧ Ancestor (parentOf entries) z x ∧
          Trashed entries z) := by
  induction n generalizing x e d
  case zero =>
    have none_between (z) (ha : Above (parentOf entries) x z) : ¬Ancestor (parentOf entries) z x :=
      fun hc => by
        obtain ⟨_, hp, hz⟩ := ha
        exact not_ancestor_of_parent tree.wf hp (hz.trans hc)
    constructor
    case mp =>
      intro h
      cases h
      refine ⟨rfl, ⟨e, hx, rfl⟩, (Or.inl ·), (·.elim id ?_)⟩
      rintro ⟨z, ha, hz, _⟩
      exact absurd hz (none_between z ha)
    case mpr =>
      obtain ⟨y, dy, a⟩ := w
      rintro ⟨hc, ⟨f, hf, hd⟩, hi⟩
      cases hc
      cases hx.symm.trans hf
      have : a = d := by
        rw [Bool.eq_iff_iff, hi]
        refine ⟨(·.elim id ?_), Or.inl⟩
        rintro ⟨z, ha, hz, _⟩
        exact absurd hz (none_between z ha)
      cases hd
      exact this ▸ .zero
  case succ n ih =>
    have trashed : Trashed entries x ↔ e.deletedAt.isSome = true := by simp [Trashed, hx]
    simp only [climb_succ, Option.bind_eq_bind, Option.bind_eq_some_iff]
    constructor
    case mp =>
      intro h
      cases h
      case succ b hb hj =>
        simp only [rebaseNext, List.mem_map, Prod.exists] at hb
        obtain ⟨c, g, hm, hb⟩ := hb
        obtain ⟨hg, hp, ho'⟩ := mem_childrenOf_iff.mp hm
        obtain ⟨hc, hf, hi⟩ := ih hg (by simpa using ho') |>.mp (hb ▸ hj)
        have hp : parentOf entries c = some x := parentOf_eq hg ▸ hp
        refine ⟨⟨c, hc, hp⟩, hf, ?_⟩
        rw [hi, tree.trashed_between_iff (ancestor_iff_climb.mpr ⟨n, hc⟩) hp, trashed]
        simp [or_assoc]
    case mpr =>
      rintro ⟨⟨c, hc, hp⟩, hf, hi⟩
      obtain ⟨g, hg, hp'⟩ := lookup_of_parentOf hp
      obtain ⟨e', he', _, ho'⟩ := tree.parent hg hp'
      cases hx.symm.trans he'
      have hm : (c, g) ∈ childrenOf entries (·.ownerId = owner) x :=
        mem_childrenOf_iff.mpr ⟨hg, hp', by simp [← ho', ho]⟩
      refine .succ (List.mem_map.mpr ⟨_, hm, rfl⟩) <| ih hg (ho'.symm.trans ho) |>.mpr ⟨hc, hf, ?_⟩
      rw [hi, tree.trashed_between_iff (ancestor_iff_climb.mpr ⟨n, hc⟩) hp, trashed]
      simp [or_assoc]

theorem mem_rebaseWalk_iff {w : WalkRow} (hx : entries.lookup x = some e)
    (ho : e.ownerId = owner) :
    w ∈ rebaseWalk entries x owner ↔
      Ancestor (parentOf entries) w.id x ∧
      (∃ f, entries.lookup w.id = some f ∧ w.deletedAt = f.deletedAt) ∧
      (w.ancestorDeleted = true ↔
        ∃ z, Above (parentOf entries) w.id z ∧ Ancestor (parentOf entries) z x ∧
          Trashed entries z) := by
  rw [rebaseWalk, Recursive.mem_rows_iff, ancestor_iff_climb]
  constructor
  case mp =>
    rintro ⟨n, _, a, hm, hj⟩
    obtain ⟨⟨x', e'⟩, hm, ha⟩ := List.mem_map.mp hm
    obtain ⟨he, hx', _⟩ := mem_rowAt_iff.mp hm
    cases he
    cases hx.symm.trans hx'
    obtain ⟨hc, hf, hi⟩ := tree.joins_rebaseNext_iff hx ho |>.mp (ha ▸ hj)
    exact ⟨⟨n, hc⟩, hf, by simpa using hi⟩
  case mpr =>
    rintro ⟨⟨n, hc⟩, hf, hi⟩
    have hm : (x, e) ∈ rowAt entries (·.ownerId = owner) x :=
      mem_rowAt_iff.mpr ⟨rfl, hx, by simp [ho]⟩
    refine ⟨n, tree.climb_lt hc, _, List.mem_map.mpr ⟨_, hm, rfl⟩, ?_⟩
    exact tree.joins_rebaseNext_iff hx ho |>.mpr ⟨hc, hf, by simpa using hi⟩

-- Writing one row keeps the tree, if the row has a suitable parent that is not below it.
theorem set {entries' : Table Id Entry} {new : Entry}
    (he : ∀ y, entries'.lookup y = if y = x then some new else entries.lookup y)
    (hs : ∀ old, entries.lookup x = some old → old.kind = new.kind ∧ old.ownerId = new.ownerId)
    (hp : ∀ p, new.parentId = some p → ¬Ancestor (parentOf entries) p x ∧
      ∃ f, entries.lookup p = some f ∧ f.kind = .folder ∧ f.ownerId = new.ownerId) :
    Tree entries' where
  parent := by
    intro y p e hy hpe
    have found {f : Entry} (h : entries.lookup p = some f) (hk : f.kind = .folder)
        (ho : f.ownerId = e.ownerId) :
        ∃ f, entries'.lookup p = some f ∧ f.kind = .folder ∧ f.ownerId = e.ownerId := by
      by_cases hpx : p = x
      case neg => exact ⟨f, by simp [he, hpx, h], hk, ho⟩
      case pos =>
        obtain ⟨hk', ho'⟩ := hs f (hpx ▸ h)
        exact ⟨new, by simp [he, hpx], hk' ▸ hk, ho' ▸ ho⟩
    rw [he] at hy
    split at hy
    case isTrue =>
      cases hy
      obtain ⟨_, f, hf, hk, ho⟩ := hp p hpe
      exact found hf hk ho
    case isFalse =>
      obtain ⟨f, hf, hk, ho⟩ := tree.parent hy hpe
      exact found hf hk ho
  wf := by
    refine wellFounded_of_redirect tree.wf x (fun y hy p => ?_) (fun p h => ?_)
    case refine_1 => simp [parentOf, he, hy]
    case refine_2 => exact hp p (by simpa [parentOf, he] using h) |>.left

theorem erase {entries' : Table Id Entry}
    (he : ∀ y, entries'.lookup y = if y = x then none else entries.lookup y)
    (hc : ∀ y e, entries.lookup y = some e → e.parentId ≠ some x) : Tree entries' where
  parent := by
    intro y p e hy hpe
    rw [he] at hy
    split at hy
    case isTrue => contradiction
    case isFalse =>
      obtain ⟨f, hf, h⟩ := tree.parent hy hpe
      have hpx : p ≠ x := fun h => hc y e hy (h ▸ hpe)
      exact ⟨f, by simp [he, hpx, hf], h⟩
  wf := by
    refine wellFounded_of_subset tree.wf fun y p h => ?_
    by_cases hy : y = x <;> simp_all [parentOf]

end Tree
end MyDrive.Drive
