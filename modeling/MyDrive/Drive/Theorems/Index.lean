import MyDrive.Drive.Theorems.Triggers

open Forest

namespace MyDrive.Drive

-- The index says of every entry whether it is trashed, and of every other entry whether a trashed
-- entry lies above it.
def Agrees (entries : Table Id Entry) (index : Table Id IndexRow) : Prop :=
  ∀ x e, entries.lookup x = some e → ∃ r, index.lookup x = some r ∧ r.deletedAt = e.deletedAt ∧
    (e.deletedAt = none → (r.buried = true ↔ Buried entries x))

variable {entries entries' : Table Id Entry} {index index' : Table Id IndexRow}
variable {id x : Id} {new : Entry} {b : Bool} {flag : Id → Bool}

theorem trashed_iff {e : Entry} (h : entries.lookup x = some e) :
    Trashed entries x ↔ e.deletedAt.isSome := by
  simp [Trashed, h]

-- The rows of `entries'` are those of `entries`, except for the row of `id`.
section

variable (he : ∀ y, y ≠ id → entries'.lookup y = entries.lookup y)
include he

theorem parentOf_congr (y : Id) (h : y ≠ id) : parentOf entries' y = parentOf entries y := by
  simp [parentOf, he y h]

theorem trashed_congr {y : Id} (h : y ≠ id) : Trashed entries' y ↔ Trashed entries y := by
  simp [Trashed, he y h]

theorem buried_congr (h : ¬Ancestor (parentOf entries) x id) :
    Buried entries' x ↔ Buried entries x := by
  refine exists_congr fun z => ?_
  rw [above_iff_of_not (parentOf_congr he) h]
  refine and_congr_right fun hz => trashed_congr he ?_
  intro hc
  exact h (hc ▸ hz.ancestor)

theorem not_ancestor_congr (h : ¬Ancestor (parentOf entries') x id) :
    ¬Ancestor (parentOf entries) x id :=
  mt (ancestor_self_iff (parentOf_congr he)).mpr h

end

namespace Agrees

theorem congr (ag : Agrees entries index) (he : ∀ x, entries'.lookup x = entries.lookup x)
    (hi : ∀ x, index'.lookup x = index.lookup x) : Agrees entries' index' := by
  have parent : parentOf entries' = parentOf entries := funext fun x => by simp [parentOf, he]
  intro x e hx
  simpa only [hi, Buried, Trashed, parent, he] using ag x e (he x ▸ hx)

variable (ag : Agrees entries index)
  (he : ∀ y, entries'.lookup y = if y = id then some new else entries.lookup y)
include ag he

theorem rename {old : Entry} (ho : entries.lookup id = some old)
    (hp : new.parentId = old.parentId) (hd : new.deletedAt = old.deletedAt)
    (rs : Resynced index index' id new ((index.lookup id).elim false (·.buried))
      (fun _ => False) flag) : Agrees entries' index' := by
  have parent : parentOf entries' = parentOf entries := by
    funext y
    by_cases h : y = id <;> simp [parentOf, he, h, ho, hp]
  have trashed (y) : Trashed entries' y ↔ Trashed entries y := by
    by_cases h : y = id <;> simp [Trashed, he, h, ho, hd]
  have buried (y) : Buried entries' y ↔ Buried entries y := by
    simp only [Buried, parent, trashed]
  intro x e hx
  simp only [buried]
  by_cases h : x = id
  case neg =>
    rw [he, if_neg h] at hx
    exact rs.other h not_false ▸ ag x e hx
  case pos =>
    subst h
    obtain ⟨r, hr, hrd, hb⟩ := ag _ _ ho
    cases (he x).symm.trans hx |>.symm.trans (if_pos rfl)
    refine ⟨_, rs.self, rfl, fun h => ?_⟩
    rw [hr]
    exact hb (hd ▸ h)

theorem set (rs : Resynced index index' id new b (fun x => Above (parentOf entries') x id) flag)
    (hb : new.deletedAt = none → (b = true ↔ Buried entries' id))
    (hf : ∀ x, Above (parentOf entries') x id → ¬Trashed entries' x →
      (flag x = true ↔ Buried entries' x)) : Agrees entries' index' := by
  intro x e hx
  by_cases h : x = id
  case pos =>
    subst h
    cases (he x).symm.trans hx |>.symm.trans (if_pos rfl)
    exact ⟨_, rs.self, rfl, hb⟩
  case neg =>
    rw [he, if_neg h] at hx
    obtain ⟨r, hr, hd, hb⟩ := ag _ _ hx
    by_cases ha : Above (parentOf entries') x id
    case pos =>
      refine ⟨{ r with buried := flag x }, by simp [rs.below h ha, hr], hd, fun hn => hf x ha ?_⟩
      simp [Trashed, he, h, hx, hn]
    case neg =>
      have hn : ¬Ancestor (parentOf entries') x id := fun hc =>
        ha <| (ancestor_iff_eq_or_above.mp hc).resolve_left (h ·.symm)
      have he (y) (h : y ≠ id) := if_neg h ▸ he y
      refine ⟨r, rs.other h ha ▸ hr, hd, fun hd => ?_⟩
      rw [buried_congr he (not_ancestor_congr he hn)]
      exact hb hd

theorem trash (hd : new.deletedAt.isSome)
    (rs : Resynced index index' id new b (fun x => Above (parentOf entries') x id)
      (fun _ => true)) : Agrees entries' index' := by
  refine ag.set he rs (fun h => by simp [h] at hd) fun x hx _ => ?_
  exact iff_of_true rfl ⟨id, hx, new, by simp [he], hd⟩

-- The walk that computes the flags below `id` assumes that nothing above `id` is trashed. If this
-- is wrong, then the flags of the untrashed children are.
theorem live (hb : b = true ↔ Buried entries' id)
    (hf : ∀ x, Above (parentOf entries') x id → (flag x = true ↔
      ∃ z, Above (parentOf entries') x z ∧ Ancestor (parentOf entries') z id ∧
        Trashed entries' z))
    (hc : ¬Buried entries' id ∨ ∀ c, parentOf entries' c = some id → Trashed entries' c)
    (rs : Resynced index index' id new b (fun x => Above (parentOf entries') x id) flag) :
    Agrees entries' index' := by
  refine ag.set he rs (fun _ => hb) fun x hx hn => (hf x hx).trans ?_
  refine ⟨Exists.imp fun z h => ⟨h.left, h.right.right⟩, ?_⟩
  rintro ⟨z, hz, ht⟩
  cases hc
  case inl hc =>
    cases hz.ancestor.total hx.ancestor
    case inl hzi => exact ⟨z, hz, hzi, ht⟩
    case inr hiz =>
      cases ancestor_iff_eq_or_above.mp hiz
      case inl hzi => exact ⟨z, hz, hzi ▸ .refl _, ht⟩
      case inr hiz => exact absurd ⟨z, hiz, ht⟩ hc
  case inr hc =>
    obtain ⟨c, hxc, hp⟩ := above_iff_tail.mp hx
    cases ancestor_iff_eq_or_above.mp hxc
    case inl h => exact absurd (h ▸ hc c hp) hn
    case inr h => exact ⟨c, h, .tail (.refl _) hp, hc c hp⟩

-- The flag that the trigger takes over from the parent.
omit he in
theorem parentHidden_iff {v : View} (tree : Tree v.entries) (hid : v.entries.lookup id = some new)
    (he : ∀ y, y ≠ id → v.entries.lookup y = entries.lookup y)
    (hi : ∀ p, new.parentId = some p → v.index.lookup p = index.lookup p) :
    parentHidden v new.parentId = true ↔ Buried v.entries id := by
  cases hp : new.parentId
  case none =>
    refine iff_of_false Bool.false_ne_true ?_
    rintro ⟨_, ⟨_, hc, _⟩, _⟩
    simp [parentOf_eq hid, hp] at hc
  case some p =>
    have hpid := parentOf_eq hid |>.trans hp
    have hn := not_ancestor_of_parent tree.wf hpid
    obtain ⟨f, hf, _⟩ := tree.parent hid hp
    have hne : p ≠ id := fun h => hn (h ▸ .refl _)
    obtain ⟨r, hr, _, hb⟩ := ag _ _ (he p hne ▸ hf)
    have above : Buried v.entries id ↔ f.deletedAt.isSome ∨ Buried v.entries p := by
      rw [← trashed_iff hf]
      constructor
      case mp =>
        rintro ⟨z, ⟨q, hq, hz⟩, ht⟩
        cases hpid.symm.trans hq
        cases ancestor_iff_eq_or_above.mp hz
        case inl h => exact .inl (h ▸ ht)
        case inr h => exact .inr ⟨z, h, ht⟩
      case mpr =>
        intro h
        cases h
        case inl h => exact ⟨p, ⟨p, hpid, .refl _⟩, h⟩
        case inr h => obtain ⟨z, hz, ht⟩ := h; exact ⟨z, ⟨p, hpid, hz.ancestor⟩, ht⟩
    rw [above, buried_congr he (not_ancestor_congr he hn)]
    cases hd : f.deletedAt
    case some => simp [parentHidden, hf, hd]
    case none => simp [parentHidden, hf, hd, hi p hp, hr, hb hd]

end Agrees

theorem lookup_foldl_refreshEntryIndex {ids : List Id} {v : View} :
    (ids.foldl refreshEntryIndex v).entries = v.entries ∧
    ((ids.foldl refreshEntryIndex v).index.lookup x = if x ∈ ids
      then (v.entries.lookup x).map (·.indexRow ((v.index.lookup x).elim false (·.buried)))
      else v.index.lookup x) := by
  induction ids generalizing v
  case nil => simp
  case cons y ys ih =>
    have he : (refreshEntryIndex v y).entries = v.entries := by
      simp only [refreshEntryIndex]
      split <;> rfl
    have hi : (refreshEntryIndex v y).index.lookup x = if x = y
        then (v.entries.lookup x).map (·.indexRow ((v.index.lookup x).elim false (·.buried)))
        else v.index.lookup x := by
      simp only [refreshEntryIndex]
      split <;> split <;> simp_all
    simp only [List.foldl_cons, ih, he, hi, true_and, List.mem_cons]
    by_cases hx : x = y
    case neg => simp [hx]
    case pos => subst hx; cases v.entries.lookup x <;> simp [Entry.indexRow]

theorem lookup_foldl_buryDescendants {rs : List (Id × Entry)} {v : View} (tree : Tree v.entries)
    (hr : ∀ r ∈ rs, v.entries.lookup r.1 = some r.2) {row : IndexRow}
    (hx : v.index.lookup x = some row) :
    ∃ b, (rs.foldl (fun v r => buryDescendants v r.1 r.2.ownerId) v).index.lookup x =
      some { row with buried := b } ∧
      (b = true ↔ row.buried = true ∨ ∃ r ∈ rs, Above (parentOf v.entries) x r.1) := by
  induction rs generalizing v row
  case nil => exact ⟨row.buried, hx, by simp⟩
  case cons r rs ih =>
    have he : (buryDescendants v r.1 r.2.ownerId).entries = v.entries := by simp [buryDescendants]
    have hm := tree.mem_map_descend_iff (y := x) (hr r (.head _)) rfl
    have ih (row') := @ih (buryDescendants v r.1 r.2.ownerId) (he.symm ▸ tree)
      (fun q hq => he.symm ▸ hr q (.tail _ hq)) row'
    rw [he] at ih
    by_cases ha : Above (parentOf v.entries) x r.1
    case pos =>
      obtain ⟨b, hl, hb⟩ := ih { row with buried := true } (by
        rw [buryDescendants, View.lookup_updateIndex (by simp), if_pos (hm.mpr ha), hx]
        rfl)
      exact ⟨b, hl, by simp [hb, ha]⟩
    case neg =>
      obtain ⟨b, hl, hb⟩ := ih row (by
        rw [buryDescendants, View.lookup_updateIndex (by simp), if_neg (mt hm.mp ha), hx])
      exact ⟨b, hl, by simp [hb, ha]⟩

theorem backfillIndex_entries : (backfillIndex entries).entries = entries := by
  have bury {rs : List (Id × Entry)} {v : View} :
      (rs.foldl (fun v r => buryDescendants v r.1 r.2.ownerId) v).entries = v.entries := by
    induction rs generalizing v
    case nil          => rfl
    case cons r rs ih => exact ih.trans (by simp [buryDescendants])
  rw [backfillIndex, bury, (lookup_foldl_refreshEntryIndex (x := 0)).left]
  rfl

theorem backfillIndex_agrees (tree : Tree entries) :
    Agrees entries (backfillIndex entries).index := by
  intro x e hx
  let v : View := { base := { entries, index := .empty } }
  obtain ⟨he, hi⟩ := @lookup_foldl_refreshEntryIndex x entries.keys v
  rw [if_pos (Table.mem_keys_iff.mpr ⟨e, hx⟩)] at hi
  have hi : (entries.keys.foldl refreshEntryIndex v).index.lookup x = some (e.indexRow false) := by
    rw [hi, show v.entries.lookup x = some e from hx]
    rfl
  have he : (entries.keys.foldl refreshEntryIndex v).entries = entries := he
  have hr : ∀ r ∈ entries.rows.filter (·.2.deletedAt.isSome),
      (entries.keys.foldl refreshEntryIndex v).entries.lookup r.1 = some r.2 := fun r hr => by
    simpa [he, Table.lookup_eq_some_iff] using (List.mem_filter.mp hr).left
  obtain ⟨b, hl, hb⟩ := lookup_foldl_buryDescendants (he.symm ▸ tree) hr hi
  refine ⟨_, hl, rfl, fun _ => hb.trans ?_⟩
  simp only [he, Entry.indexRow, Bool.false_eq_true, false_or, List.mem_filter, Buried, Trashed,
    Table.lookup_eq_some_iff]
  constructor
  case mp  => rintro ⟨r, ⟨hm, hd⟩, ha⟩; exact ⟨r.1, ha, r.2, hm, hd⟩
  case mpr => rintro ⟨z, ha, f, hm, hd⟩; exact ⟨(z, f), ⟨hm, hd⟩, ha⟩

end MyDrive.Drive
