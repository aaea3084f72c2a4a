import MyDrive.Drive.Theorems.Concurrent
import MyDrive.Drive.Theorems.Requests

open Forest

-- What a purge takes away while other requests of its owner are in progress.

namespace MyDrive.Drive.System

variable {s s' : System} {l : Label}

theorem lookup_viewOf {c : Call} {x : Id} : (s.viewOf c).entries.lookup x =
    (c.changes.entries.lookup x).getD (s.db.entries.lookup x) := by
  simp [View.entries, viewOf]

-- The foreign key `parent_id`.
def Closed (entries : Table Id Entry) : Prop :=
  ∀ ⦃x p e⦄, entries.lookup x = some e → e.parentId = some p → entries.lookup p ≠ none

-- The foreign key in the committed rows and in the rows that each open transaction sees.
structure Referenced (s : System) : Prop where
  compatible {i j c d} : i ≠ j → s.calls.lookup i = some c → s.calls.lookup j = some d →
    c.compatible d
  db : Closed s.db.entries
  view {i c} : s.calls.lookup i = some c → Closed (s.viewOf c).entries
  own {i c x e p} : s.calls.lookup i = some c → c.changes.entries.lookup x = some (some e) →
    e.parentId = some p → p ∈ c.shared ∨ ∃ f, s.db.entries.lookup x = some f ∧ f.parentId = some p

variable {i x y r : Id} {c c' : Call}

namespace Referenced

variable (ref : s.Referenced)
include ref

theorem set (compatible : ∀ j d, j ≠ i → s.calls.lookup j = some d → c'.compatible d)
    (view : Closed (s.viewOf c').entries)
    (own : ∀ x e p, c'.changes.entries.lookup x = some (some e) → e.parentId = some p →
      p ∈ c'.shared ∨ ∃ f, s.db.entries.lookup x = some f ∧ f.parentId = some p) :
    ({ s with calls := s.calls.set i c' } : System).Referenced where
  db := ref.db
  compatible {j k d e} hjk hj hk := by
    simp only [Table.lookup_set] at hj hk
    split at hj <;> split at hk
    case isTrue.isTrue h h'   => exact absurd (h.trans h'.symm) hjk
    case isTrue.isFalse hk'   => cases hj; exact compatible k e hk' hk
    case isFalse.isTrue hj' _ => cases hk; exact Call.compatible.symm (compatible j d hj' hj)
    case isFalse.isFalse      => exact ref.compatible hjk hj hk
  view {j d} hj := by
    rw [Table.lookup_set] at hj
    split at hj
    case isTrue  => cases hj; exact view
    case isFalse => exact ref.view hj
  own {j d x e p} hj he hp := by
    rw [Table.lookup_set] at hj
    split at hj
    case isTrue  => cases hj; exact own x e p he hp
    case isFalse => exact ref.own hj he hp

theorem erase : ({ s with calls := s.calls.erase i } : System).Referenced where
  db := ref.db
  compatible {j k d e} hjk hj hk := by
    simp only [Table.lookup_erase] at hj hk
    split at hj <;> split at hk <;> try contradiction
    exact ref.compatible hjk hj hk
  view {j d} hj := by
    rw [Table.lookup_erase] at hj
    split at hj <;> try contradiction
    exact ref.view hj
  own {j d x e p} hj := by
    rw [Table.lookup_erase] at hj
    split at hj <;> try contradiction
    exact ref.own hj

-- The parent of a row that the call `d` has written is a row that no other call has deleted.
theorem parent_kept {j : Id} {e : Entry} {p : Id} (hij : i ≠ j) (hc : s.calls.lookup i = some c)
    (hd : s.calls.lookup j = some d) (he : d.changes.entries.lookup x = some (some e))
    (hp : e.parentId = some p) : c.changes.entries.lookup p ≠ some none := by
  intro hn
  obtain hs | ⟨f, hf, hfp⟩ := ref.own hd he hp
  case inl => exact Call.compatible_shared (ref.compatible hij.symm hd hc) hs hn
  case inr =>
    have hx : c.changes.entries.lookup x = none :=
      Call.compatible_entries (ref.compatible hij.symm hd hc) (by simp [he])
    have hv : (s.viewOf c).entries.lookup x = some f := by simp [lookup_viewOf, hx, hf]
    exact ref.view hc hv hfp (by simp [lookup_viewOf, hn])

theorem committed (hc : s.calls.lookup i = some c) :
    ({ db := (s.viewOf c).commit, calls := s.calls.erase i } : System).Referenced where
  compatible := ref.erase.compatible
  db := ref.view hc
  view {j d} hd := by
    rw [Table.lookup_erase] at hd
    split at hd <;> try contradiction
    case _ hji =>
      intro x p e hx hp hn
      rw [lookup_viewOf] at hx hn
      simp only [View.commit] at hx hn
      cases hdx : d.changes.entries.lookup x
      case some a =>
        rw [hdx, Option.getD_some] at hx
        subst hx
        have hv : (s.viewOf d).entries.lookup p ≠ none :=
          ref.view hd (by rw [lookup_viewOf, hdx]; rfl) hp
        have kept := ref.parent_kept (Ne.symm hji) hc hd hdx hp
        rw [lookup_viewOf] at hv hn
        cases hdp : d.changes.entries.lookup p <;> cases hcp : c.changes.entries.lookup p <;> simp_all
      case none =>
        rw [hdx, Option.getD_none] at hx
        have hv := ref.view hc hx hp
        cases hdp : d.changes.entries.lookup p
        case none => rw [hdp, Option.getD_none] at hn; exact hv hn
        case some a =>
          rw [hdp, Option.getD_some] at hn
          subst hn
          rw [lookup_viewOf] at hx
          cases hcx : c.changes.entries.lookup x
          case some b =>
            rw [hcx, Option.getD_some] at hx
            subst hx
            exact ref.parent_kept hji hd hc hcx hp hdp
          case none =>
            rw [hcx, Option.getD_none] at hx
            have hdv : (s.viewOf d).entries.lookup x = some e := by simp [lookup_viewOf, hdx, hx]
            exact ref.view hd hdv hp (by simp [lookup_viewOf, hdp])
  own {j d x e p} hd he hp := by
    rw [Table.lookup_erase] at hd
    split at hd <;> try contradiction
    case _ hji =>
      obtain hs | ⟨f, hf, hfp⟩ := ref.own hd he hp
      case inl => exact .inl hs
      case inr =>
        have hx : c.changes.entries.lookup x = none :=
          Call.compatible_entries (ref.compatible hji hd hc) (by simp [he])
        exact .inr ⟨f, by simp [View.commit, lookup_viewOf, hx, hf], hfp⟩

theorem put {id : Id} {new : Entry} {w : Write} (hc : s.calls.lookup i = some c)
    (hd : ∀ j d, j ≠ i → s.calls.lookup j = some d → c'.compatible d)
    (hs : c'.shared = w.shares (s.viewOf c) ++ c.shared) (put : Put (s.viewOf c) id new w)
    (he : ∀ x, c'.changes.entries.lookup x =
      if x = id then some (some new) else c.changes.entries.lookup x) :
    ({ s with calls := s.calls.set i c' } : System).Referenced := by
  have seen y : (s.viewOf c').entries.lookup y =
      if y = id then some new else (s.viewOf c).entries.lookup y := by
    rw [lookup_viewOf, lookup_viewOf, he]
    split <;> rfl
  refine ref.set hd (fun x p e hx hp => ?view) fun x e p hx hp => ?own
  case view =>
    have old : (s.viewOf c).entries.lookup p ≠ none := by
      rw [seen] at hx
      split at hx
      case isFalse => exact ref.view hc hx hp
      case isTrue  =>
        cases hx
        obtain ⟨f, hf, hfp⟩ | ⟨-, f, hf, -⟩ := put.parent hp
        case inl => exact ref.view hc hf hfp
        case inr => simp [hf]
    rw [seen]
    split
    case isTrue  => exact Option.some_ne_none new
    case isFalse => exact old
  case own =>
    have kept : p ∈ c.shared → p ∈ c'.shared := fun h => hs ▸ List.mem_append_right _ h
    rw [he] at hx
    split at hx
    case isFalse => exact (ref.own hc hx hp).imp_left kept
    case isTrue h =>
      cases hx
      obtain ⟨f, hf, hfp⟩ | ⟨hsh, -⟩ := put.parent hp
      case inr => exact .inl (hs ▸ List.mem_append_left _ hsh)
      case inl =>
        rw [lookup_viewOf] at hf
        cases hcx : c.changes.entries.lookup id
        case none   => rw [hcx, Option.getD_none] at hf; exact .inr ⟨f, h ▸ hf, hfp⟩
        case some a =>
          rw [hcx, Option.getD_some] at hf
          subst hf
          exact h ▸ (ref.own hc hcx hfp).imp_left kept

theorem delete {id : Id} (hc : s.calls.lookup i = some c)
    (hd : ∀ j d, j ≠ i → s.calls.lookup j = some d → c'.compatible d)
    (leaf : ∀ y e, (s.viewOf c).entries.lookup y = some e → e.parentId ≠ some id)
    (hs : ∀ p ∈ c.shared, p ∈ c'.shared)
    (he : ∀ x, c'.changes.entries.lookup x =
      if x = id then some none else c.changes.entries.lookup x) :
    ({ s with calls := s.calls.set i c' } : System).Referenced := by
  have seen y : (s.viewOf c').entries.lookup y =
      if y = id then none else (s.viewOf c).entries.lookup y := by
    rw [lookup_viewOf, lookup_viewOf, he]
    split <;> rfl
  refine ref.set hd (fun x p e hx hp => ?view) fun x e p hx hp => ?own
  case view =>
    rw [seen] at hx
    split at hx <;> try contradiction
    have hpid : p ≠ id := fun h => leaf x e hx (h ▸ hp)
    rw [seen, if_neg hpid]
    exact ref.view hc hx hp
  case own =>
    rw [he] at hx
    split at hx
    case isTrue  => cases hx
    case isFalse => exact (ref.own hc hx hp).imp_left (hs p)

theorem queried (hc : s.calls.lookup i = some c)
    (hd : ∀ j d, j ≠ i → s.calls.lookup j = some d → c'.compatible d)
    (changes : c'.changes = c.changes) (shared : c'.shared = c.shared) :
    ({ s with calls := s.calls.set i c' } : System).Referenced := by
  have seen : s.viewOf c' = s.viewOf c := by simp [viewOf, changes]
  refine ref.set hd (seen ▸ ref.view hc) fun x e p hx hp => ?_
  rw [changes] at hx
  rw [shared]
  exact ref.own hc hx hp

theorem opened (hc : c.changes = {}) (hs : c.shared = []) (hl : c.locked = []) :
    ({ s with calls := s.calls.set i c } : System).Referenced := by
  have seen y : (s.viewOf c).entries.lookup y = s.db.entries.lookup y := by
    simp [lookup_viewOf, hc]
  refine ref.set (fun _ _ _ _ => Call.compatible.of_idle hc hs hl) (fun x p e hx hp => ?_) (by simp [hc])
  rw [seen] at hx ⊢
  exact ref.db hx hp

variable [Collation]

theorem step (h : s.step l = some s') : s'.Referenced := by
  cases stepped h
  case refused              => exact ref
  case opened               => exact ref.opened rfl rfl rfl
  case dropped              => exact ref.erase
  case committed hc         => exact ref.committed hc
  case executed hc ho he hd =>
    obtain ⟨w, v', -, hv, rfl⟩ | ⟨changes, shared⟩ := Op.exec_ok he
    case inr => exact ref.queried hc hd changes shared
    case inl =>
      cases Write.exec_effect hv
      case put put entries     => exact ref.put hc hd rfl put entries
      case delete leaf entries =>
        exact ref.delete hc hd leaf (fun _ h => List.mem_append_right _ h) entries

end Referenced

-- The operations of the requests other than a purge.
def plain : Op → Bool
  | .lockTrashed _ | .selectSubtree _ | .write (.delete _) => false
  | _                                                      => true

-- The entries that a purge has read and still has to delete, or has deleted.
def Listed (c : Call) (x : Id) : Prop :=
  .write (.delete x) ∈ c.todo ∨ c.changes.entries.lookup x = some none

-- From `x` up to `r` along entries that the purge `c` has read.
def Path (entries : Table Id Entry) (c : Call) (r x : Id) : Prop :=
  Relation.ReflTransGen (fun a b => parentOf entries a = some b ∧ Listed c b) x r

-- How far a call has come with the purge of the tree below `r`.
inductive Stage (entries : Table Id Entry) (c : Call) : Prop
  | plain (todo : ∀ op ∈ c.todo, plain op) (kept : ∀ x, c.changes.entries.lookup x ≠ some none)
  | locking {r : Id} (todo : c.todo = [.lockTrashed r]) (changes : c.changes = {})
    (locked : c.locked = [])
  | reading {r : Id} (todo : c.todo = [.selectSubtree r]) (changes : c.changes = {})
    (locked : c.locked = [r])
    (root : ∃ e, entries.lookup r = some e ∧ e.ownerId = c.owner ∧ e.deletedAt.isSome)
  | deleting {r : Id} (todo : ∀ op ∈ c.todo, ∃ x, op = .write (.delete x))
    (changes : ∀ x a, c.changes.entries.lookup x = some a → a = none) (locked : c.locked = [r])
    (root : ∃ e, entries.lookup r = some e ∧ e.ownerId = c.owner ∧ e.deletedAt.isSome)
    (top : Listed c r) (path : ∀ x e, Listed c x → entries.lookup x = some e → Path entries c r x)

section

variable {todo : List Op} {ids : List Id} {ops : Id → List Op}

theorem plain_ensureParentOps {p : Option Id} : ∀ op ∈ ensureParentOps p, plain op := by
  cases p <;> simp [ensureParentOps, plain]

theorem plain_moveOps {id : Id} {p : Option Id} : ∀ op ∈ moveOps id p, plain op := by
  cases p <;> simp [moveOps, plain]

theorem plain_createOps {id : Id} {kind : Kind} {name : String} {p : Option Id}
    (h : createOps id kind name p = .ok todo) : ∀ op ∈ todo, plain op := by
  obtain ⟨name', -, rfl⟩ := Except.map_eq_ok_iff.mp h
  exact List.forall_mem_append.mpr ⟨plain_ensureParentOps, by simp [plain]⟩

theorem plain_batchOps (h : batchOps ids ops = .ok todo) (ho : ∀ id, ∀ op ∈ ops id, plain op) :
    ∀ op ∈ todo, plain op := by
  unfold batchOps at h
  split at h <;> cases h
  intro op hm
  obtain ⟨id, -, hm⟩ := List.mem_flatMap.mp hm
  exact ho id op hm

theorem plain_batchIntoOps {p : Option Id} (h : batchIntoOps ids p ops = .ok todo)
    (ho : ∀ id, ∀ op ∈ ops id, plain op) : ∀ op ∈ todo, plain op := by
  unfold batchIntoOps at h
  split at h <;> try contradiction
  obtain ⟨todo', hb, rfl⟩ := Except.map_eq_ok_iff.mp h
  exact List.forall_mem_append.mpr ⟨plain_ensureParentOps, plain_batchOps hb ho⟩

theorem plain_or_purge {req : Request} (h : req.ops = .ok todo) :
    (∀ op ∈ todo, plain op) ∨ ∃ r, todo = [.lockTrashed r] := by
  cases req <;> simp only [Request.ops] at h
  case purge root   => cases h; exact .inr ⟨root, rfl⟩
  case createFolder => exact .inl (plain_createOps h)
  case createFile   => exact .inl (plain_createOps h)
  case restore      => cases h; exact .inl (by simp [plain])
  case trash        => cases h; exact .inl (by simp [plain])
  case rename       =>
    obtain ⟨name, -, rfl⟩ := Except.map_eq_ok_iff.mp h
    exact .inl (by simp [plain])
  case move id p    =>
    cases h
    refine .inl (List.forall_mem_cons.mpr ⟨rfl, List.forall_mem_cons.mpr ⟨rfl, ?_⟩⟩)
    exact List.forall_mem_append.mpr ⟨plain_ensureParentOps, plain_moveOps⟩
  case batchMove    =>
    exact .inl (plain_batchIntoOps h fun id => List.forall_mem_cons.mpr ⟨rfl, plain_moveOps⟩)
  case batchTrash   => exact .inl (plain_batchOps h fun id => by simp [plain])
  case batchCopy    => exact .inl (plain_batchIntoOps h fun id => by simp [plain])

end

section

variable [Collation] {v : View} {op : Op} {todo : List Op}

-- The other requests do not come to delete a row.
theorem plain_exec_todo (ho : plain op) (ht : ∀ o ∈ todo, plain o)
    (h : op.exec v { c with todo } = .ok c') : ∀ o ∈ c'.todo, plain o := by
  cases op <;> simp only [Op.exec] at h
  case write              => obtain ⟨v', -, rfl⟩ := Except.map_eq_ok_iff.mp h; exact ht
  case ensureActive       => exact Call.check_ok h ▸ ht
  case ensureMutable      => exact Call.check_ok h ▸ ht
  case ensureNotContained => split at h <;> cases h; exact ht
  case lockTrashed        => cases ho
  case selectSubtree      => cases ho
  case selectTrashed      =>
    split at h <;> cases h
    refine List.forall_mem_append.mpr ⟨List.forall_mem_append.mpr ⟨plain_ensureParentOps, ?_⟩, ht⟩
    simp [plain]
  case copySource         =>
    split at h <;> try contradiction
    obtain ⟨e, -, rfl⟩ := Except.map_eq_ok_iff.mp h
    exact List.forall_mem_cons.mpr ⟨rfl, ht⟩
  case copyName           =>
    split at h <;> try contradiction
    obtain ⟨name, -, rfl⟩ := Except.map_eq_ok_iff.mp h
    exact List.forall_mem_cons.mpr ⟨rfl, List.forall_mem_cons.mpr ⟨rfl, ht⟩⟩
  case copyChildren       =>
    cases h
    refine List.forall_mem_append.mpr ⟨fun o hm => ?_, ht⟩
    obtain ⟨_, -, rfl⟩ := List.mem_map.mp hm
    rfl

theorem plain_exec_kept (ho : plain op) (hv : v.changes = c.changes)
    (hk : ∀ x, c.changes.entries.lookup x ≠ some none) (h : op.exec v { c with todo } = .ok c') :
    ∀ x, c'.changes.entries.lookup x ≠ some none := by
  intro x hx
  obtain ⟨w, v', rfl, hw, rfl⟩ | ⟨changes, -⟩ := Op.exec_ok h
  case inr => exact hk x (changes ▸ hx)
  case inl =>
    have other : ∀ id, w ≠ .delete id := by
      rintro id rfl
      cases ho
    obtain ⟨id, new, -, entries⟩ := Write.exec_put other hw
    have hx : v'.changes.entries.lookup x = some none := hx
    rw [entries] at hx
    split at hx
    case isTrue  => cases hx
    case isFalse => exact hk x (hv ▸ hx)

omit [Collation] in
-- The list of a purge: a trashed root and the entries below it.
theorem path_of_mem_subtree {entries : Table Id Entry} {e : Entry}
    (hl : ∀ y f, (y, f) ∈ subtree entries c.owner r → Listed c' y)
    (hx : (x, e) ∈ subtree entries c.owner r) : Path entries c' r x := by
  obtain ⟨⟨z, f⟩, ha, path⟩ := Recursive.path_of_mem_rows hx
  obtain ⟨rfl, -⟩ := mem_rowAt_iff.mp ha
  refine path.lift Prod.fst fun a b h => ⟨?_, hl b.1 b.2 h.right⟩
  obtain ⟨ha, hp, -⟩ := mem_childrenOf_iff.mp h.left
  exact (parentOf_eq ha).trans hp

omit [Collation] in
theorem viewOf_unchanged (h : c.changes = {}) : (s.viewOf c).entries = s.db.entries := by
  simp only [View.entries, viewOf, h]
  rfl

theorem Stage.exec (st : Stage s.db.entries c) (ho : c.todo = op :: todo)
    (h : op.exec (s.viewOf c) { c with todo } = .ok c') : Stage s.db.entries c' := by
  cases st
  case plain ht hk =>
    rw [ho, List.forall_mem_cons] at ht
    exact .plain (plain_exec_todo ht.left ht.right h) (plain_exec_kept ht.left rfl hk h)
  case locking r ht hc hl =>
    cases ho.symm.trans ht
    simp only [Op.exec] at h
    split at h <;> cases h
    case h_1       => exact .plain (by simp) (by simp [hc])
    case h_2 e he =>
      obtain ⟨found, owned, trashed⟩ := trashedRow_eq_some he
      rw [viewOf_unchanged hc] at found
      exact .reading rfl hc (by simp [hl]) ⟨e, found, owned, trashed⟩
  case reading r ht hc hl root =>
    cases ho.symm.trans ht
    simp only [Op.exec, viewOf_unchanged hc] at h
    cases h
    have listed y f (hy : (y, f) ∈ subtree s.db.entries c.owner r) :
        Op.write (.delete y) ∈
          ((subtree s.db.entries c.owner r).reverse.map fun r => Op.write (.delete r.1)) ++ [] := by
      simp only [List.append_nil, List.mem_map, List.mem_reverse]
      exact ⟨(y, f), hy, rfl⟩
    refine .deleting (r := r) ?todo (by simp [hc]) hl root ?top ?path
    case todo =>
      intro op hm
      simp only [List.append_nil, List.mem_map] at hm
      obtain ⟨q, -, rfl⟩ := hm
      exact ⟨q.1, rfl⟩
    case top =>
      obtain ⟨e, he, hw, -⟩ := root
      exact .inl (listed r e (Recursive.mem_rows_of_mem (mem_rowAt_iff.mpr ⟨rfl, he, by simp [hw]⟩)))
    case path =>
      intro x e hx _
      obtain hx | hx := hx
      case inr => simp [hc] at hx
      case inl =>
        simp only [List.append_nil, List.mem_map, List.mem_reverse] at hx
        obtain ⟨⟨y, f⟩, hy, he⟩ := hx
        cases he
        exact path_of_mem_subtree (fun y f hy => .inl (listed y f hy)) hy
  case deleting r ht hk hl root top path =>
    rw [ho, List.forall_mem_cons] at ht
    obtain ⟨⟨x, rfl⟩, ht⟩ := ht
    obtain ⟨v', hw, rfl⟩ := Except.map_eq_ok_iff.mp h
    obtain ⟨-, entries⟩ := delete_ok hw
    have listed y : Listed { c with todo, changes := v'.changes, shared := c.shared } y ↔
        Listed c y := by
      simp only [Listed, ho, List.mem_cons, entries, viewOf]
      by_cases hy : y = x <;> simp [hy]
    have entries y : v'.changes.entries.lookup y =
        if y = x then some none else c.changes.entries.lookup y := entries y
    refine .deleting (r := r) ht (fun y a hy => ?changes) hl root ((listed r).mpr top) ?path
    case changes =>
      have hy : v'.changes.entries.lookup y = some a := hy
      rw [entries] at hy
      split at hy
      case isTrue  => cases hy; rfl
      case isFalse => exact hk y a hy
    case path =>
      intro y e hy he
      exact (path y e ((listed y).mp hy) he).lift id fun a b h => ⟨h.left, (listed b).mpr h.right⟩

end

-- No transaction that gives an entry another parent commits while a purge that has read the entry
-- has still to delete it.
def Undisturbed (s : System) (l : Label) : Prop :=
  ∀ i c x e, l = .commit i → s.calls.lookup i = some c →
    c.changes.entries.lookup x = some (some e) →
    ∀ j d, s.calls.lookup j = some d → .write (.delete x) ∈ d.todo →
      ∃ f, s.db.entries.lookup x = some f ∧ f.parentId = e.parentId

theorem unwritten_of_locked {d : Call} (h : c.compatible d) (hr : r ∈ c.locked) :
    d.changes.entries.lookup r = none := by
  simp only [Call.compatible, Call.compatible.apart, Bool.and_eq_true, List.all_eq_true] at h
  by_contra hn
  obtain ⟨a, ha⟩ := Option.ne_none_iff_exists'.mp hn
  have := (h.right.left.left.left r (Table.mem_keys_iff.mpr ⟨a, ha⟩))
  simp_all

-- What the purge `d` has read keeps its place when the transaction `c` commits.
theorem Path.committed {d : Call} {j : Id} (ok : s.Undisturbed (.commit i))
    (hc : s.calls.lookup i = some c) (hd : s.calls.lookup j = some d) (apart : d.compatible c)
    (closed : Closed (s.viewOf c).entries) (hx : Listed d x)
    (hv : (s.viewOf c).entries.lookup x ≠ none) (path : Path s.db.entries d r x) :
    Path (s.viewOf c).entries d r x := by
  induction path using Relation.ReflTransGen.head_induction_on
  case refl => exact .refl
  case head a b hab _ ih =>
    obtain ⟨hp, hb⟩ := hab
    obtain ⟨e, he⟩ := Option.ne_none_iff_exists'.mp hv
    obtain ⟨f, hf, hfb⟩ := lookup_of_parentOf hp
    have parent : e.parentId = some b := by
      rw [lookup_viewOf] at he
      cases hca : c.changes.entries.lookup a
      case none =>
        rw [hca, Option.getD_none] at he
        cases he.symm.trans hf
        exact hfb
      case some o =>
        rw [hca, Option.getD_some] at he
        subst he
        have todo : .write (.delete a) ∈ d.todo := by
          obtain h | h := hx
          case inl => exact h
          case inr => cases (Call.compatible_entries apart (by simp [h])).symm.trans hca
        obtain ⟨g, hg, hge⟩ := ok i c a e rfl hc hca j d hd todo
        cases hg.symm.trans hf
        exact hge.symm.trans hfb
    exact .head ⟨(parentOf_eq he).trans parent, hb⟩ (ih hb (closed he parent))

theorem Stage.committed {d : Call} {j : Id} (ok : s.Undisturbed (.commit i))
    (hc : s.calls.lookup i = some c) (hd : s.calls.lookup j = some d) (apart : d.compatible c)
    (closed : Closed (s.viewOf c).entries) (st : Stage s.db.entries d) :
    Stage (s.viewOf c).entries d := by
  have root {r} (hl : d.locked = [r])
      (h : ∃ e, s.db.entries.lookup r = some e ∧ e.ownerId = d.owner ∧ e.deletedAt.isSome) :
      ∃ e, (s.viewOf c).entries.lookup r = some e ∧ e.ownerId = d.owner ∧ e.deletedAt.isSome := by
    have : c.changes.entries.lookup r = none := unwritten_of_locked apart (by simp [hl])
    simpa [lookup_viewOf, this] using h
  cases st
  case plain ht hk                   => exact .plain ht hk
  case locking ht hk hl              => exact .locking ht hk hl
  case reading ht hk hl hr           => exact .reading ht hk hl (root hl hr)
  case deleting ht hk hl hr top path =>
    refine .deleting ht hk hl (root hl hr) top fun x e hx he => ?_
    have found : ∃ f, s.db.entries.lookup x = some f := by
      rw [lookup_viewOf] at he
      cases hcx : c.changes.entries.lookup x
      case none   => rw [hcx, Option.getD_none] at he; exact ⟨e, he⟩
      case some a =>
        rw [hcx, Option.getD_some] at he
        subst he
        obtain h | h := hx
        case inl =>
          obtain ⟨f, hf, -⟩ := ok i c x e rfl hc hcx j d hd h
          exact ⟨f, hf⟩
        case inr => cases (Call.compatible_entries apart (by simp [h])).symm.trans hcx
    obtain ⟨f, hf⟩ := found
    exact (path x f hx hf).committed ok hc hd apart closed hx (by simp [he])

structure Purges (s : System) : Prop where
  referenced : s.Referenced
  stage {i : Id} {c : Call} : s.calls.lookup i = some c → Stage s.db.entries c

theorem Purges.init {db : Db} (linked : Linked db.entries) : Purges { db } where
  stage h    := by simp at h
  referenced := by
    refine ⟨fun _ h => by simp at h, fun x p e hx hp => ?_, fun h => by simp at h,
      fun h => by simp at h⟩
    obtain ⟨f, hf, -⟩ := linked.parent hx hp
    simp [hf]

variable [Collation]

theorem Purges.step (p : s.Purges) (ok : s.Undisturbed l) (h : s.step l = some s') :
    s'.Purges where
  referenced := p.referenced.step h
  stage {j d} hd := by
    cases stepped h
    case refused => exact p.stage hd
    case opened i owner req todo hi ops =>
      rw [Table.lookup_set] at hd
      split at hd
      case isFalse => exact p.stage hd
      case isTrue  =>
        cases hd
        obtain ht | ⟨r, rfl⟩ := plain_or_purge ops
        case inl => exact .plain ht (by simp)
        case inr => exact .locking rfl rfl rfl
    case dropped =>
      rw [Table.lookup_erase] at hd
      split at hd <;> try contradiction
      exact p.stage hd
    case executed hc ho he _ =>
      rw [Table.lookup_set] at hd
      split at hd
      case isTrue  => cases hd; exact (p.stage hc).exec ho he
      case isFalse => exact p.stage hd
    case committed i c hc =>
      rw [Table.lookup_erase] at hd
      split at hd <;> try contradiction
      case _ hji =>
        exact (p.stage hd).committed ok hc hd (p.referenced.compatible hji hd hc)
          (p.referenced.view hc)

omit [Collation] in
theorem path_ancestor {entries : Table Id Entry} (path : Path entries c r x) :
    Ancestor (parentOf entries) x r :=
  path.lift id fun _ _ h => h.left

omit [Collation] in
-- The rows that are in the table still when its foreign key holds are below no row that is not.
theorem Closed.ancestor {entries : Table Id Entry} (closed : Closed entries)
    (h : Ancestor (parentOf entries) x r) (hx : entries.lookup x ≠ none) :
    entries.lookup r ≠ none := by
  induction h
  case refl => exact hx
  case tail hp ih =>
    obtain ⟨e, he, hp⟩ := lookup_of_parentOf hp
    exact closed he hp

theorem step_commit (h : s.step (.commit i) = some s') :
    ∃ c, s.calls.lookup i = some c ∧ c.todo = [] ∧ s'.db = (s.viewOf c).commit := by
  simp only [System.step] at h
  split at h <;> try contradiction
  case _ c hc =>
    split at h <;> cases h
    case _ ht => exact ⟨c, hc, by simpa using ht, rfl⟩

theorem step_db (h : s.step l = some s') (hl : ∀ i, l ≠ .commit i) : s'.db = s.db := by
  cases stepped h
  case committed i _ _ => exact absurd rfl (hl i)
  all_goals rfl

omit [Collation] in
-- A purge that commits has deleted the tree below its root, and nothing else.
theorem Purges.commit (p : s.Purges) {e : Entry} (hc : s.calls.lookup i = some c)
    (ht : c.todo = []) (hx : s.db.entries.lookup x = some e)
    (hn : (s.viewOf c).entries.lookup x = none) :
    ∃ r, c.locked = [r] ∧ Trashed s.db.entries r ∧ Ancestor (parentOf s.db.entries) x r ∧
      ∀ y, Ancestor (parentOf s.db.entries) y r → (s.viewOf c).entries.lookup y = none := by
  have gone : c.changes.entries.lookup x = some none := by
    rw [lookup_viewOf] at hn
    cases hcx : c.changes.entries.lookup x <;> simp_all
  cases p.stage hc
  case plain _ kept                     => exact absurd gone (kept x)
  case locking _ changes _              => simp [changes] at gone
  case reading _ changes _ _            => simp [changes] at gone
  case deleting r _ written hl root top path =>
    obtain ⟨f, hf, -, hd⟩ := root
    refine ⟨r, hl, ⟨f, hf, hd⟩, path_ancestor (path x e (.inr gone) hx), fun y hy => ?_⟩
    have top : (s.viewOf c).entries.lookup r = none := by
      obtain h | h := top
      case inl => simp [ht] at h
      case inr => simp [lookup_viewOf, h]
    by_contra hv
    refine (p.referenced.view hc).ancestor (x := y) ?_ hv top
    -- The rows on the way up are the same before and after the deletions.
    clear hx
    induction hy using Relation.ReflTransGen.head_induction_on
    case refl => exact absurd top hv
    case head a b hab _ ih =>
      obtain ⟨g, hg, hgb⟩ := lookup_of_parentOf hab
      have same : (s.viewOf c).entries.lookup a = some g := by
        rw [lookup_viewOf] at hv ⊢
        cases hca : c.changes.entries.lookup a
        case none   => exact hg
        case some o =>
          cases written a o hca
          simp [hca] at hv
      exact .head ((parentOf_eq same).trans hgb) (ih (p.referenced.view hc same hgb))

theorem purge_deletes_tree {db : Db} (linked : Linked db.entries)
    (run : Execution.Steps System.step Undisturbed { db } s) (h : s.step l = some s') :
    (∀ x e, s.db.entries.lookup x = some e → s'.db.entries.lookup x = none →
      ∃ i c r, l = .commit i ∧ s.calls.lookup i = some c ∧ c.locked = [r] ∧
        Trashed s.db.entries r ∧ Ancestor (parentOf s.db.entries) x r ∧
        ∀ y, Ancestor (parentOf s.db.entries) y r → s'.db.entries.lookup y = none) ∧
    (∀ i c x e todo, l = .exec i → s.calls.lookup i = some c →
      c.todo = .write (.delete x) :: todo → s.db.entries.lookup x = some e →
      ∃ r, c.locked = [r] ∧ Trashed s.db.entries r ∧ Ancestor (parentOf s.db.entries) x r) ∧
    ((∀ i, l ≠ .commit i) → s'.db = s.db) := by
  have purges : s.Purges := run.invariant (.init linked) Purges.step
  refine ⟨fun x e hx hn => ?commit, fun i c x e todo hl hc ht hx => ?exec, step_db h⟩
  case commit =>
    by_cases hl : ∃ i, l = .commit i
    case pos =>
      obtain ⟨i, rfl⟩ := hl
      obtain ⟨c, hc, ht, hdb⟩ := step_commit h
      rw [hdb] at hn
      obtain ⟨r, hr, trashed, above, all⟩ := purges.commit hc ht hx hn
      exact ⟨i, c, r, rfl, hc, hr, trashed, above, fun y hy => hdb ▸ all y hy⟩
    case neg =>
      rw [step_db h (not_exists.mp hl)] at hn
      cases hx.symm.trans hn
  case exec =>
    cases purges.stage hc
    case plain todo _       =>
      have := todo (.write (.delete x)) (by simp [ht])
      cases this
    case locking todo _ _   => cases ht.symm.trans todo
    case reading todo _ _ _ => cases ht.symm.trans todo
    case deleting r _ _ hl root _ path =>
      obtain ⟨f, hf, -, hd⟩ := root
      exact ⟨r, hl, ⟨f, hf, hd⟩, path_ancestor (path x e (.inl (by simp [ht])) hx)⟩

end MyDrive.Drive.System

namespace MyDrive.Drive

section

attribute [local instance] Collation.binary

-- The folder `b` is in `a`, which is trashed. A purge of `a` has read both.
def purgeOfA : List Drive.Label :=
  [.start 0 7 (.createFolder 1 "a" none), .exec 0, .commit 0,
   .start 0 7 (.createFolder 2 "b" (some 1)), .exec 0, .exec 0, .commit 0,
   .start 0 7 (.trash 1 3), .exec 0, .exec 0, .exec 0, .commit 0,
   .start 1 7 (.purge 1), .exec 1, .exec 1]

-- A batch move takes `b` out before the purge deletes it.
def moveDuringPurge : List Drive.Label :=
  purgeOfA ++ [.start 2 7 (.batchMove [2] none), .exec 2, .exec 2, .commit 2, .exec 1, .exec 1]

theorem purge_deletes_moved :
    ∃ s s' e, Execution.Reaches Drive.System.step { db := ⟨.empty, .empty⟩ } s ∧
      s.step (.commit 1) = some s' ∧ s.db.entries.lookup 2 = some e ∧ Active s.db.entries 2 ∧
      s'.db.entries.lookup 2 = none := by
  have run : (Execution.run Drive.System.step { db := ⟨.empty, .empty⟩ } moveDuringPurge).bind
      (fun s => (s.step (.commit 1)).map fun s' =>
        (s.db.entries.lookup 2, s'.db.entries.lookup 2)) =
      some (some { ownerId := 7, parentId := none, kind := .folder, name := "b" }, none) := by
    decide +kernel
  obtain ⟨s, hs, h⟩ := Option.bind_eq_some_iff.mp run
  obtain ⟨s', hs', he⟩ := Option.map_eq_some_iff.mp h
  obtain ⟨h₂, hn⟩ := Prod.mk.inj he
  refine ⟨s, s', _, Execution.reaches_of_run hs, hs', h₂, fun y hy => ?_, hn⟩
  cases hy.eq_of_root (parentOf_eq h₂)
  rintro ⟨e, he, hd⟩
  cases h₂.symm.trans he
  cases hd

def listsNone (s : Drive.System) : Drive.Label → Bool
  | .commit _ => s.calls.rows.all fun r => r.2.todo.all Drive.System.plain
  | _         => true

theorem undisturbed_of_listsNone {s : Drive.System} {l : Drive.Label} (h : listsNone s l) :
    s.Undisturbed l := by
  rintro i c x e rfl - - j d hd hm
  have all := List.all_eq_true.mp h _ (Table.lookup_eq_some_iff.mp hd)
  cases List.all_eq_true.mp all _ hm

theorem purge_deletes_tree_of_a :
    ∃ (s s' : Drive.System) (e : Entry) (r : Id), s.db.entries.lookup 2 = some e ∧
      s'.db.entries.lookup 2 = none ∧ s.step (.commit 1) = some s' ∧ Trashed s.db.entries r ∧
      Ancestor (parentOf s.db.entries) 2 r := by
  have run : (Execution.run (fun s l => if listsNone s l then Drive.System.step s l else none)
      { db := ⟨.empty, .empty⟩ } (purgeOfA ++ [.exec 1, .exec 1])).bind
      (fun s => (s.step (.commit 1)).map fun s' =>
        (s.db.entries.lookup 2, s'.db.entries.lookup 2)) =
      some (some { ownerId := 7, parentId := some 1, kind := .folder, name := "b" }, none) := by
    decide +kernel
  obtain ⟨s, hs, h⟩ := Option.bind_eq_some_iff.mp run
  obtain ⟨s', hs', he⟩ := Option.map_eq_some_iff.mp h
  obtain ⟨h₂, hn⟩ := Prod.mk.inj he
  have steps := Execution.steps_of_run (fun _ _ => undisturbed_of_listsNone) hs
  obtain ⟨removed, -, -⟩ := Drive.System.purge_deletes_tree Tree.empty.linked steps hs'
  obtain ⟨i, c, r, -, -, -, trashed, above, -⟩ := removed 2 _ h₂ hn
  exact ⟨s, s', _, r, h₂, hn, hs', trashed, above⟩

end

end MyDrive.Drive
