import MyDrive.Drive.Concurrent
import MyDrive.Drive.Theorems.Statements
import MyDrive.Library.Merge
import MyDrive.Library.Except

open Forest

namespace MyDrive.Drive

theorem Call.compatible_entries {c d : Call} {x : Id} (h : c.compatible d)
    (hx : c.changes.entries.lookup x ≠ none) : d.changes.entries.lookup x = none := by
  simp only [Call.compatible, Call.compatible.apart, Bool.and_eq_true, List.all_eq_true] at h
  obtain ⟨a, ha⟩ := Option.ne_none_iff_exists'.mp hx
  have := h.left.left.left.left x (Table.mem_keys_iff.mpr ⟨a, ha⟩)
  simp_all

theorem Call.compatible_index {c d : Call} {x : Id} (h : c.compatible d)
    (hx : c.changes.index.lookup x ≠ none) : d.changes.index.lookup x = none := by
  simp only [Call.compatible, Call.compatible.apart, Bool.and_eq_true, List.all_eq_true] at h
  obtain ⟨a, ha⟩ := Option.ne_none_iff_exists'.mp hx
  have := h.left.left.left.right x (Table.mem_keys_iff.mpr ⟨a, ha⟩)
  simp_all

theorem Call.compatible_shared {c d : Call} {x : Id} (h : c.compatible d) (hx : x ∈ c.shared) :
    d.changes.entries.lookup x ≠ some none := by
  simp only [Call.compatible, Call.compatible.apart, Bool.and_eq_true, List.all_eq_true] at h
  have := h.left.left.right x hx
  simp_all

theorem Call.compatible.of_idle {c d : Call} (hc : c.changes = {}) (hs : c.shared = [])
    (hl : c.locked = []) : c.compatible d := by
  have keys {α : Type} : (Table.empty : Table Id α).keys = [] := rfl
  simp [Call.compatible, Call.compatible.apart, hc, hs, hl, keys]

theorem Call.compatible.symm {c d : Call} (h : c.compatible d) : d.compatible c := by
  simp only [Call.compatible, Bool.and_eq_true] at h ⊢
  exact h.symm

namespace System

def entryWrites (s : System) (i : Id) : Option (Table Id (Option Entry)) :=
  (s.calls.lookup i).map (·.changes.entries)

-- `entries` is the table once exactly the open transactions of `S` have committed.
def Outcome (s : System) (S : Id → Prop) (entries : Table Id Entry) : Prop :=
  s.db.entries.Merges s.entryWrites S entries

variable {s s' : System} {i : Id} {c c' : Call}

theorem entryWrites_eq_some {w : Table Id (Option Entry)} :
    s.entryWrites i = some w ↔ ∃ c, s.calls.lookup i = some c ∧ c.changes.entries = w := by
  simp [entryWrites]

theorem othersCompatible_iff : s.othersCompatible i c ↔
    ∀ j d, j ≠ i → s.calls.lookup j = some d → c.compatible d := by
  simp only [othersCompatible, List.all_eq_true, Prod.forall, Table.mem_rows_erase,
    Table.lookup_eq_some_iff]
  exact ⟨fun h j d hj hd => h j d ⟨hj, hd⟩, fun h j d hd => h j d hd.left hd.right⟩

end System

-- What the write of a row relies on besides the rows that the statement sees.
structure Put (v : View) (id : Id) (new : Entry) (w : Write) : Prop where
  same {old} : v.entries.lookup id = some old →
    old.kind = new.kind ∧ old.ownerId = new.ownerId
  fresh : v.entries.lookup id = none → v.base.entries.lookup id = none
  parent {p} : new.parentId = some p →
    (∃ old, v.entries.lookup id = some old ∧ old.parentId = some p) ∨
    p ∈ w.shares v ∧ ∃ f, v.entries.lookup p = some f ∧ f.kind = .folder ∧ f.ownerId = new.ownerId
  moved {old p} : v.entries.lookup id = some old → new.parentId = some p →
    old.parentId = some p ∨ w = .updateParent id (some p)

theorem Put.of_same {v : View} {id : Id} {old : Entry} {w : Write} (new : Entry)
    (ho : v.entries.lookup id = some old) (hk : old.kind = new.kind)
    (hw : old.ownerId = new.ownerId) (hp : old.parentId = new.parentId) : Put v id new w where
  same h     := by cases ho.symm.trans h; exact ⟨hk, hw⟩
  fresh h    := by simp [ho] at h
  parent h   := .inl ⟨old, ho, hp.trans h⟩
  moved h hn := by cases ho.symm.trans h; exact .inl (hp.trans hn)

-- The effect of a write on `drive_entries`.
inductive Effect (v v' : View) (w : Write) : Prop
  | put {id new} (put : Put v id new w)
    (entries : ∀ x, v'.changes.entries.lookup x =
      if x = id then some (some new) else v.changes.entries.lookup x)
  | delete {id} (leaf : ∀ y e, v.entries.lookup y = some e → e.parentId ≠ some id)
    (entries : ∀ x, v'.changes.entries.lookup x =
      if x = id then some none else v.changes.entries.lookup x)

section

variable {v v' : View} {id owner : Id} {c c' : Call} {op : Op} {w : Write} {new : Entry}

theorem Call.check_ok {r : Except DriveError Unit} (h : c.check r = .ok c') : c' = c := by
  obtain ⟨_, _, he⟩ := Except.map_eq_ok_iff.mp h
  exact he.symm

theorem Synced.put {b : Bool} {touched : Id → Prop} {flag : Id → Bool}
    (s : Synced (v.setEntry id (some new)) v' id new b touched flag) (x : Id) :
    v'.changes.entries.lookup x =
      if x = id then some (some new) else v.changes.entries.lookup x := by
  simp [s.entries]

theorem Rebased.put (r : Rebased v v' id new) (x : Id) :
    v'.changes.entries.lookup x =
      if x = id then some (some new) else v.changes.entries.lookup x := by
  obtain ⟨_, _, s⟩ := r.synced
  exact s.put x

variable [Collation]

theorem Write.exec_put (hw : ∀ id, w ≠ .delete id) (h : w.exec v owner = .ok v') :
    ∃ id new, Put v id new w ∧ ∀ x, v'.changes.entries.lookup x =
      if x = id then some (some new) else v.changes.entries.lookup x := by
  have entries {old : Option Entry} {id : Id} {new : Entry} (x : Id) :
      (syncDriveEntryIndex (v.setEntry id new) old id new).changes.entries.lookup x =
        if x = id then some (some new) else v.changes.entries.lookup x := by
    simp
  cases w <;> simp only [Write.exec] at h
  case insert id parent kind name =>
    split at h <;> try contradiction
    case _ hn =>
      obtain ⟨hid, hv, rfl⟩ := insertEntry_ok h
      refine ⟨id, _, ⟨by simp [hid], fun _ => by simpa using hn, fun {p} hp => .inr ?_,
        by simp [hid]⟩, entries⟩
      obtain ⟨f, hf, hk, ho, _⟩ := validateDriveEntryParent_ok hv hp
      have hp : parent = some p := hp
      exact ⟨by simp [Write.shares, hp], f, hf, hk, ho⟩
  case updateName id name =>
    unfold Drive.updateName at h
    split at h <;> try contradiction
    case _ old hr =>
      obtain ⟨ho, -, -⟩ := activeRow_eq_some hr
      obtain ⟨-, rfl⟩ := updateEntry_ok h
      exact ⟨id, _, .of_same { old with name } ho rfl rfl rfl, entries⟩
  case setDeletedAt id now =>
    unfold Drive.setDeletedAt at h
    split at h <;> try contradiction
    case _ old hr =>
      obtain ⟨ho, -, -⟩ := activeRow_eq_some hr
      obtain ⟨-, rfl⟩ := updateEntry_ok h
      exact ⟨id, _, .of_same { old with deletedAt := some now } ho rfl rfl rfl, entries⟩
  case clearDeletedAt id =>
    unfold Drive.clearDeletedAt at h
    split at h <;> try contradiction
    case _ old hr =>
      obtain ⟨ho, -, -⟩ := trashedRow_eq_some hr
      obtain ⟨-, rfl⟩ := updateEntry_ok h
      exact ⟨id, _, .of_same { old with deletedAt := none } ho rfl rfl rfl, entries⟩
  case updateParent id parent =>
    unfold Drive.updateParent at h
    split at h <;> try contradiction
    case _ old hr =>
      obtain ⟨ho, -, -⟩ := activeRow_eq_some hr
      obtain ⟨hv, rfl⟩ := updateEntry_ok h
      refine ⟨id, _, ⟨?same, by simp [ho], fun {p} hp => ?parent, fun _ hp => .inr ?moved⟩, entries⟩
      case same   => intro _ h; cases ho.symm.trans h; exact ⟨rfl, rfl⟩
      case moved  => have hp : parent = some _ := hp; rw [hp]
      case parent =>
        by_cases hop : old.parentId = some p
        case pos => exact .inl ⟨old, ho, hop⟩
        case neg =>
          obtain ⟨f, hf, hk, hw, _⟩ := validateDriveEntryParent_ok (hv rfl) hp
          have hp : parent = some p := hp
          exact .inr ⟨by simp [Write.shares, ho, hp, hop], f, hf, hk, hw⟩
  case delete id => exact absurd rfl (hw id)

omit [Collation] in
theorem delete_ok {id : Id} (h : deleteEntry v id = .ok v') :
    (∀ y e, v.entries.lookup y = some e → e.parentId ≠ some id) ∧
      ∀ x, v'.changes.entries.lookup x =
        if x = id then some none else v.changes.entries.lookup x := by
  obtain ⟨leaf, rfl⟩ := deleteEntry_ok h
  exact ⟨leaf, fun x => by simp [View.setIndex, View.setEntry]⟩

theorem Write.exec_effect (h : w.exec v owner = .ok v') : Effect v v' w := by
  by_cases hw : ∃ id, w = .delete id
  case pos =>
    obtain ⟨id, rfl⟩ := hw
    obtain ⟨leaf, entries⟩ := delete_ok h
    exact .delete leaf entries
  case neg =>
    obtain ⟨id, new, put, entries⟩ := exec_put (not_exists.mp hw) h
    exact .put put entries

-- An operation writes or only queries.
theorem Op.exec_ok (h : op.exec v c = .ok c') :
    (∃ w v', op = .write w ∧ w.exec v c.owner = .ok v' ∧
      c' = { c with changes := v'.changes, shared := w.shares v ++ c.shared }) ∨
    c'.changes = c.changes ∧ c'.shared = c.shared := by
  cases op <;> simp only [Op.exec] at h
  case write w =>
    obtain ⟨v', hw, he⟩ := Except.map_eq_ok_iff.mp h
    exact .inl ⟨w, v', rfl, hw, he.symm⟩
  all_goals right
  case ensureActive       => exact Call.check_ok h ▸ ⟨rfl, rfl⟩
  case ensureMutable      => exact Call.check_ok h ▸ ⟨rfl, rfl⟩
  case ensureNotContained => split at h <;> cases h; exact ⟨rfl, rfl⟩
  case selectTrashed      => split at h <;> cases h; exact ⟨rfl, rfl⟩
  case lockTrashed        => split at h <;> cases h <;> exact ⟨rfl, rfl⟩
  case selectSubtree      => cases h; exact ⟨rfl, rfl⟩
  case copyChildren       => cases h; exact ⟨rfl, rfl⟩
  case copySource job     =>
    split at h <;> try contradiction
    obtain ⟨_, _, h⟩ := Except.map_eq_ok_iff.mp h
    cases h
    exact ⟨rfl, rfl⟩
  case copyName job source =>
    split at h <;> try contradiction
    obtain ⟨_, _, h⟩ := Except.map_eq_ok_iff.mp h
    cases h
    exact ⟨rfl, rfl⟩

end

namespace System

variable {s s' : System} {l : Label}

-- The rows in which the outcomes of the open transactions differ from what the call `i` sees.
theorem outcome_lookup {i : Id} {c : Call} {S : Id → Prop} {t : Table Id Entry}
    (hc : s.calls.lookup i = some c) (m : s.Outcome S t) (x : Id) :
    t.lookup x = (s.viewOf c).entries.lookup x ∨ c.changes.entries.lookup x ≠ none ∨
    ∃ j d a, j ≠ i ∧ s.calls.lookup j = some d ∧ d.changes.entries.lookup x = some a ∧
      t.lookup x = a := by
  by_cases hx : c.changes.entries.lookup x = none
  case neg => exact .inr (.inl hx)
  case pos =>
    by_cases h : ∃ j d a, S j ∧ s.calls.lookup j = some d ∧ d.changes.entries.lookup x = some a
    case pos =>
      obtain ⟨j, d, a, hj, hd, ha⟩ := h
      refine .inr <| .inr ⟨j, d, a, fun hji => ?_, hd, ha, ?_⟩
      case refine_1 => subst hji; cases hc.symm.trans hd; simp [hx] at ha
      case refine_2 => exact m.written hj (entryWrites_eq_some.mpr ⟨d, hd, rfl⟩) ha
    case neg =>
      refine .inl <| (m.untouched fun j w hj hw => ?_).trans ?_
      case refine_1 =>
        obtain ⟨d, hd, hw⟩ := entryWrites_eq_some.mp hw
        cases ha : w.lookup x
        case none   => rfl
        case some a => exact absurd ⟨j, d, a, hj, hd, hw ▸ ha⟩ h
      case refine_2 => simp [View.entries, viewOf, hx]

-- An outcome after the call `i` has written the row `id`, seen as a write to an outcome before.
theorem outcome_unwrite {i id : Id} {c c' : Call} {a : Option Entry} {S : Id → Prop}
    {t' : Table Id Entry} (hc : s.calls.lookup i = some c)
    (he : ∀ x, c'.changes.entries.lookup x =
      if x = id then some a else c.changes.entries.lookup x)
    (hd : ∀ j d, j ≠ i → s.calls.lookup j = some d → c'.compatible d) (hS : S i)
    (m : ({ s with calls := s.calls.set i c' } : System).Outcome S t') :
    ∃ t, s.Outcome S t ∧ (∀ x, t'.lookup x = if x = id then a else t.lookup x) ∧
      (∀ x, x = id ∨ c.changes.entries.lookup x ≠ none →
        t.lookup x = (s.viewOf c).entries.lookup x) := by
  have hi : s.entryWrites i = some c.changes.entries := entryWrites_eq_some.mpr ⟨c, hc, rfl⟩
  have hi' : System.entryWrites { s with calls := s.calls.set i c' } i = some c'.changes.entries := by
    simp [entryWrites]
  obtain ⟨t, m, ht, hv⟩ := m.unwrite hS hi hi'
    (fun j hj => by simp [entryWrites, hj]) (fun k hk => by grind)
    (fun j v k hj hv hk => by
      obtain ⟨d, hdj, he⟩ := entryWrites_eq_some.mp hv
      exact he ▸ Call.compatible_entries (hd j d hj hdj) hk)
  refine ⟨t, m, fun x => ?_, fun x hx => hv x ?_⟩
  case refine_1 =>
    rw [ht, he]
    split
    case isTrue  => rfl
    case isFalse h =>
      cases hx : c.changes.entries.lookup x
      case none   => rfl
      case some b =>
        rw [hv x (by simp [he, h, hx])]
        simp [hx]
  case refine_2 => rw [he]; split <;> simp_all

-- What the overlap of requests must not break: the locks, what an open transaction may say about
-- rows that others see in their committed version, and every table that the open transactions can
-- lead to.
structure Consistent (s : System) : Prop where
  compatible {i j c d} : i ≠ j → s.calls.lookup i = some c → s.calls.lookup j = some d →
    c.compatible d
  kind {i c x e f} : s.calls.lookup i = some c → c.changes.entries.lookup x = some (some e) →
    s.db.entries.lookup x = some f → e.kind = f.kind ∧ e.ownerId = f.ownerId
  parent {i c x e p} : s.calls.lookup i = some c → c.changes.entries.lookup x = some (some e) →
    e.parentId = some p → p ∈ c.shared ∨ ∃ f, s.db.entries.lookup x = some f ∧ f.parentId = some p
  tree {S t} : s.Outcome S t → Tree t

-- However the other open transactions end, a moved entry does not become its own ancestor.
def NoOverlappingCycle (s : System) (l : Label) : Prop :=
  ∀ i c id p todo, l = .exec i → s.calls.lookup i = some c →
    c.todo = .write (.updateParent id (some p)) :: todo →
    ∀ S t, S i → s.Outcome S t → ¬Ancestor (parentOf t) p id

namespace Consistent

variable (con : s.Consistent)
include con

theorem view_tree {i : Id} {c : Call} (h : s.calls.lookup i = some c) :
    Tree (s.viewOf c).entries :=
  con.tree (S := (· = i)) <| .own <| entryWrites_eq_some.mpr ⟨c, h, rfl⟩

theorem of_call {i : Id} {c' : Call}
    (hd : ∀ j d, j ≠ i → s.calls.lookup j = some d → c'.compatible d)
    (hk : ∀ x e f, c'.changes.entries.lookup x = some (some e) → s.db.entries.lookup x = some f →
      e.kind = f.kind ∧ e.ownerId = f.ownerId)
    (hp : ∀ x e p, c'.changes.entries.lookup x = some (some e) → e.parentId = some p →
      p ∈ c'.shared ∨ ∃ f, s.db.entries.lookup x = some f ∧ f.parentId = some p)
    (ht : ∀ S t, S i → ({ s with calls := s.calls.set i c' } : System).Outcome S t → Tree t) :
    ({ s with calls := s.calls.set i c' } : System).Consistent where
  compatible {j k d e} hjk hj hk := by
    simp only [Table.lookup_set] at hj hk
    split at hj <;> split at hk
    case isTrue.isTrue h h'      => exact absurd (h.trans h'.symm) hjk
    case isTrue.isFalse hk'      => cases hj; exact hd k e hk' hk
    case isFalse.isTrue hj' _    => cases hk; exact Call.compatible.symm (hd j d hj' hj)
    case isFalse.isFalse         => exact con.compatible hjk hj hk
  kind {j d x e f} hj he hf := by
    rw [Table.lookup_set] at hj
    split at hj
    case isTrue  => cases hj; exact hk x e f he hf
    case isFalse => exact con.kind hj he hf
  parent {j d x e p} hj he hpe := by
    rw [Table.lookup_set] at hj
    split at hj
    case isTrue  => cases hj; exact hp x e p he hpe
    case isFalse => exact con.parent hj he hpe
  tree {S t} m := by
    by_cases hi : S i
    case pos => exact ht S t hi m
    case neg =>
      refine con.tree <| m.congr fun j hj => ?_
      have hji : j ≠ i := fun h => hi (h ▸ hj)
      simp [entryWrites, hji]

theorem opened {i : Id} {c : Call} (hc : c.changes = {}) (hs : c.shared = [])
    (hl : c.locked = []) : ({ s with calls := s.calls.set i c } : System).Consistent := by
  refine con.of_call (fun _ _ _ _ => Call.compatible.of_idle hc hs hl) (by simp [hc]) (by simp [hc])
    fun S t _ m => ?_
  refine con.tree <| m.forget (i := i) (fun j hj => by simp [entryWrites, hj]) fun w k hw => ?_
  obtain ⟨d, hd, he⟩ := entryWrites_eq_some.mp hw
  simp only [Table.lookup_set, if_true, Option.some.injEq] at hd
  subst hd he
  simp [hc]

theorem dropped {i : Id} : ({ s with calls := s.calls.erase i } : System).Consistent where
  compatible {j k d e} hjk hj hk := by
    simp only [Table.lookup_erase] at hj hk
    split at hj <;> split at hk <;> try contradiction
    exact con.compatible hjk hj hk
  kind {j d x e f} hj := by
    rw [Table.lookup_erase] at hj
    split at hj <;> try contradiction
    exact con.kind hj
  parent {j d x e p} hj := by
    rw [Table.lookup_erase] at hj
    split at hj <;> try contradiction
    exact con.parent hj
  tree m := by
    refine con.tree <| m.forget (i := i) (fun j hj => by simp [entryWrites, hj]) fun w k hw => ?_
    simp [entryWrites] at hw

theorem committed {i : Id} {c : Call} (hc : s.calls.lookup i = some c) :
    ({ db := (s.viewOf c).commit, calls := s.calls.erase i } : System).Consistent := by
  -- A row of another open transaction is not among the committed ones.
  have apart {j d x} (hj : j ≠ i) (hd : s.calls.lookup j = some d)
      (hx : d.changes.entries.lookup x ≠ none) :
      (s.viewOf c).entries.lookup x = s.db.entries.lookup x := by
    have := Call.compatible_entries (con.compatible hj hd hc) hx
    simp [View.entries, viewOf, this]
  have other {j d} (h : (s.calls.erase i).lookup j = some d) : j ≠ i ∧ s.calls.lookup j = some d := by
    rw [Table.lookup_erase] at h
    split at h <;> try contradiction
    case _ hj => exact ⟨hj, h⟩
  constructor
  case compatible =>
    intro j k d e hjk hj hk
    exact con.compatible hjk (other hj).right (other hk).right
  case kind =>
    intro j d x e f hj he hf
    obtain ⟨hji, hj⟩ := other hj
    exact con.kind hj he (apart hji hj (x := x) (by simp [he]) ▸ hf)
  case parent =>
    intro j d x e p hj he hp
    obtain ⟨hji, hj⟩ := other hj
    have hx := apart hji hj (x := x) (by simp [he])
    exact (con.parent hj he hp).imp_right <| Exists.imp fun f h => ⟨hx.trans h.left, h.right⟩
  case tree =>
    intro S t m
    refine con.tree <| m.commit (i := i) (entryWrites_eq_some.mpr ⟨c, hc, rfl⟩)
      (fun j hj => by simp [entryWrites, hj]) (by simp [entryWrites]) fun j w k hj hw hk => ?_
    obtain ⟨d, hd, he⟩ := entryWrites_eq_some.mp hw
    exact Call.compatible_entries (con.compatible hj hd hc) (he ▸ hk)

theorem put {i id : Id} {c c' : Call} {w : Write} {new : Entry} (hc : s.calls.lookup i = some c)
    (hd : ∀ j d, j ≠ i → s.calls.lookup j = some d → c'.compatible d)
    (ok : ∀ p S t, w = .updateParent id (some p) → S i → s.Outcome S t →
      ¬Ancestor (parentOf t) p id) (put : Put (s.viewOf c) id new w)
    (hs : c'.shared = w.shares (s.viewOf c) ++ c.shared)
    (he : ∀ x, c'.changes.entries.lookup x =
      if x = id then some (some new) else c.changes.entries.lookup x) :
    ({ s with calls := s.calls.set i c' } : System).Consistent := by
  refine con.of_call hd (fun x e f hx hf => ?_) (fun x e p hx hp => ?_) fun S t' hS m => ?_
  case refine_1 =>
    rw [he] at hx
    split at hx
    case isFalse => exact con.kind hc hx hf
    case isTrue h =>
      cases hx
      subst h
      cases hx : c.changes.entries.lookup x
      case none =>
        have hold : (s.viewOf c).entries.lookup x = some f := by simp [View.entries, viewOf, hx, hf]
        obtain ⟨hk, ho⟩ := put.same hold
        exact ⟨hk.symm, ho.symm⟩
      case some a =>
        cases a
        case none =>
          have := put.fresh (by simp [View.entries, viewOf, hx])
          cases hf.symm.trans this
        case some g =>
          have hold : (s.viewOf c).entries.lookup x = some g := by simp [View.entries, viewOf, hx]
          obtain ⟨hk, ho⟩ := put.same hold
          obtain ⟨hk', ho'⟩ := con.kind hc hx hf
          exact ⟨hk.symm.trans hk', ho.symm.trans ho'⟩
  case refine_2 =>
    rw [he] at hx
    split at hx
    case isFalse => exact (con.parent hc hx hp).imp_left fun h => hs ▸ List.mem_append_right _ h
    case isTrue h =>
      cases hx
      subst h
      cases put.parent hp
      case inr h => exact .inl (hs ▸ List.mem_append_left _ h.left)
      case inl h =>
        obtain ⟨old, ho, hop⟩ := h
        cases hx : c.changes.entries.lookup x
        case none =>
          simp only [View.entries, viewOf, Table.lookup_overlay, hx, Option.getD_none] at ho
          exact .inr ⟨old, ho, hop⟩
        case some a =>
          simp only [View.entries, viewOf, Table.lookup_overlay, hx, Option.getD_some] at ho
          exact (con.parent hc (ho ▸ hx) hop).imp_left fun h => hs ▸ List.mem_append_right _ h
  case refine_3 =>
    obtain ⟨t, m, ht, hv⟩ := outcome_unwrite hc he hd hS m
    have tree := con.tree m
    have hid := hv id (.inl rfl)
    refine tree.set ht (fun old h => put.same (hid ▸ h)) fun p hp => ?_
    cases put.parent hp
    case inl h =>
      obtain ⟨old, ho, hop⟩ := h
      have ho := hid.trans ho
      obtain ⟨f, hf, hk, hw⟩ := tree.parent ho hop
      exact ⟨not_ancestor_of_parent tree.wf (parentOf_eq ho |>.trans hop), f, hf, hk,
        hw.trans (put.same (hid ▸ ho)).right⟩
    case inr h =>
      obtain ⟨hsh, f, hf, hk, hw⟩ := h
      have hsh : p ∈ c'.shared := hs ▸ List.mem_append_left _ hsh
      have found : ∃ g, t.lookup p = some g ∧ g.kind = f.kind ∧ g.ownerId = f.ownerId := by
        cases outcome_lookup hc m p
        case inl h => exact ⟨f, h.trans hf, rfl, rfl⟩
        case inr h =>
          cases h
          case inl h => exact ⟨f, (hv p (.inr h)).trans hf, rfl, rfl⟩
          case inr h =>
            obtain ⟨j, d, a, hj, hdj, ha, hta⟩ := h
            have hn := Call.compatible_shared (hd j d hj hdj) hsh
            cases a
            case none => exact absurd ha hn
            case some g =>
              have hcp := Call.compatible_entries (con.compatible hj hdj hc) (x := p) (by simp [ha])
              have hdb : s.db.entries.lookup p = some f := by
                simpa [View.entries, viewOf, hcp] using hf
              exact ⟨g, hta, con.kind hdj ha hdb⟩
      obtain ⟨g, hg, hgk, hgw⟩ := found
      refine ⟨fun ha => ?_, g, hg, hgk.trans hk, hgw.trans hw⟩
      obtain ⟨old, ho', _⟩ := tree.linked.ancestor_lookup ha hg
      cases put.moved (hid ▸ ho') hp
      case inl h => exact not_ancestor_of_parent tree.wf (parentOf_eq ho' |>.trans h) ha
      case inr h => exact ok p S t h hS m ha

theorem delete {i id : Id} {c c' : Call} (hc : s.calls.lookup i = some c)
    (hd : ∀ j d, j ≠ i → s.calls.lookup j = some d → c'.compatible d)
    (leaf : ∀ y e, (s.viewOf c).entries.lookup y = some e → e.parentId ≠ some id)
    (hs : ∀ p ∈ c.shared, p ∈ c'.shared)
    (he : ∀ x, c'.changes.entries.lookup x =
      if x = id then some none else c.changes.entries.lookup x) :
    ({ s with calls := s.calls.set i c' } : System).Consistent := by
  refine con.of_call hd (fun x e f hx hf => ?_) (fun x e p hx hp => ?_) fun S t' hS m => ?_
  case refine_1 =>
    rw [he] at hx
    split at hx
    case isTrue  => cases hx
    case isFalse => exact con.kind hc hx hf
  case refine_2 =>
    rw [he] at hx
    split at hx
    case isTrue  => cases hx
    case isFalse => exact (con.parent hc hx hp).imp_left (hs p)
  case refine_3 =>
    obtain ⟨t, m, ht, hv⟩ := outcome_unwrite hc he hd hS m
    refine (con.tree m).erase ht fun y e hy hp => ?_
    cases outcome_lookup hc m y
    case inl h => exact leaf y e (h ▸ hy) hp
    case inr h =>
      cases h
      case inl h => exact leaf y e (hv y (.inr h) ▸ hy) hp
      case inr h =>
        obtain ⟨j, d, a, hj, hdj, ha, hta⟩ := h
        cases hta.symm.trans hy
        cases con.parent hdj ha hp
        case inl h =>
          exact Call.compatible_shared (Call.compatible.symm (hd j d hj hdj)) h (by simp [he])
        case inr h =>
          obtain ⟨f, hf, hfp⟩ := h
          have hcy := Call.compatible_entries (con.compatible hj hdj hc) (x := y) (by simp [ha])
          exact leaf y f (by simp [View.entries, viewOf, hcy, hf]) hfp

end Consistent

variable [Collation]

inductive Stepped (s : System) : Label → System → Prop
  | refused {i owner r} : Stepped s (.start i owner r) s
  | opened {i owner r todo} (fresh : s.calls.lookup i = none) (ops : r.ops = .ok todo) :
    Stepped s (.start i owner r)
      { s with calls := s.calls.set i { owner, todo, fresh := r.fresh } }
  | dropped {l i} : Stepped s l { s with calls := s.calls.erase i }
  | executed {i c c' op todo} (call : s.calls.lookup i = some c) (next : c.todo = op :: todo)
    (exec : op.exec (s.viewOf c) { c with todo } = .ok c')
    (compatible : ∀ j d, j ≠ i → s.calls.lookup j = some d → c'.compatible d) :
    Stepped s (.exec i) { s with calls := s.calls.set i c' }
  | committed {i c} (call : s.calls.lookup i = some c) :
    Stepped s (.commit i) { db := (s.viewOf c).commit, calls := s.calls.erase i }

theorem stepped (h : s.step l = some s') : s.Stepped l s' := by
  cases l <;> simp only [step] at h
  case start i owner r =>
    split at h <;> try contradiction
    case _ hn =>
      split at h <;> cases h
      case _     => exact .refused
      case _ ops => exact .opened (by simpa using hn) ops
  case exec i =>
    split at h <;> try contradiction
    case _ c hc =>
      split at h <;> try contradiction
      case _ op todo ho =>
        split at h
        case _       => cases h; exact .dropped
        case _ c' he =>
          split at h <;> cases h
          case _ hd => exact .executed hc ho he (othersCompatible_iff.mp hd)
  case commit i =>
    split at h <;> try contradiction
    case _ c hc =>
      split at h <;> cases h
      exact .committed hc
  case abort i =>
    split at h <;> cases h
    exact .dropped

namespace Consistent

variable (con : s.Consistent)
include con

theorem executed {i : Id} {c c' : Call} {op : Op} {todo : List Op}
    (hc : s.calls.lookup i = some c) (he : op.exec (s.viewOf c) { c with todo } = .ok c')
    (hd : ∀ j d, j ≠ i → s.calls.lookup j = some d → c'.compatible d)
    (ok : ∀ id p S t, op = .write (.updateParent id (some p)) → S i → s.Outcome S t →
      ¬Ancestor (parentOf t) p id) : ({ s with calls := s.calls.set i c' } : System).Consistent := by
  cases Op.exec_ok he
  case inl h =>
    obtain ⟨w, v', hw, hv, hc'⟩ := h
    have hs : c'.shared = w.shares (s.viewOf c) ++ c.shared := by rw [hc']
    have hv' : c'.changes = v'.changes := by rw [hc']
    cases Write.exec_effect hv
    case put put entries     =>
      exact con.put hc hd (fun p S t h => ok _ p S t (h ▸ hw)) put hs (hv' ▸ entries)
    case delete leaf entries =>
      exact con.delete hc hd leaf (fun _ h => hs ▸ List.mem_append_right _ h) (hv' ▸ entries)
  case inr h =>
    obtain ⟨changes, shared⟩ := h
    have changes : c'.changes = c.changes := changes
    have shared : c'.shared = c.shared := shared
    refine con.of_call hd (fun x e f hx => ?_) (fun x e p hx hp => ?_) fun S t _ m => ?_
    case refine_1 => exact con.kind hc (changes ▸ hx)
    case refine_2 => exact shared ▸ con.parent hc (changes ▸ hx) hp
    case refine_3 =>
      refine con.tree <| m.congr fun j _ => ?_
      by_cases hj : j = i <;> simp [entryWrites, hj, hc, changes]

theorem step (ok : s.NoOverlappingCycle l) (h : s.step l = some s') : s'.Consistent := by
  cases stepped h
  case refused                 => exact con
  case opened                  => exact con.opened rfl rfl rfl
  case dropped                 => exact con.dropped
  case executed hc ho he hd    =>
    exact con.executed hc he hd fun id p S t h => ok _ _ id p _ rfl hc (h ▸ ho) S t
  case committed hc            => exact con.committed hc

end Consistent

omit [Collation] in
theorem consistent_init {db : Db} (tree : Tree db.entries) : Consistent { db } where
  compatible _ hi := by simp at hi
  kind hi         := by simp at hi
  parent hi       := by simp at hi
  tree m          := tree.congr fun _ => m.untouched fun _ _ _ hw => by simp [entryWrites] at hw

-- In a run in which no move closes a cycle together with other open transactions, every entry is
-- below a root, and no walk along the parent pointers is longer than the table.
theorem parent_reaches_root {db : Db} (tree : Tree db.entries)
    (run : Execution.Steps step NoOverlappingCycle { db } s) {x : Id} {e : Entry}
    (h : s.db.entries.lookup x = some e) :
    (∃ n r f, climb (parentOf s.db.entries) n x = some r ∧ s.db.entries.lookup r = some f ∧
      f.parentId = none) ∧
    ∀ n y, climb (parentOf s.db.entries) n x = some y → n ≤ s.db.entries.rows.length := by
  have con := run.invariant (consistent_init tree) Consistent.step
  have tree := con.tree .none_committed
  obtain ⟨n, r, hr, hp⟩ := exists_root tree.wf x
  obtain ⟨f, hf, _⟩ := tree.linked.ancestor_lookup (ancestor_iff_climb.mpr ⟨n, hr⟩) h
  exact ⟨⟨n, r, f, hr, hf, parentOf_eq hf ▸ hp⟩, fun n y hy => Nat.le_of_lt_succ (tree.climb_lt hy)⟩

end System

section

attribute [local instance] Collation.binary

-- No call is about to move an entry into a folder.
def notMoving (s : System) : Label → Bool
  | .exec i => (s.calls.lookup i).all fun c =>
    match c.todo with
    | .write (.updateParent _ (some _)) :: _ => false
    | _                                      => true
  | _       => true

theorem noOverlappingCycle_of_notMoving {s : System} {l : Label} (h : notMoving s l) :
    s.NoOverlappingCycle l := by
  intro i c id p todo hl hc ht
  simp [notMoving, hl, hc, ht] at h

theorem parent_reaches_root_moved_out :
    ∃ s e, Execution.Steps System.step System.NoOverlappingCycle { db := ⟨.empty, .empty⟩ } s ∧
      s.db.entries.lookup 2 = some e ∧
      (∃ n r f, climb (parentOf s.db.entries) n 2 = some r ∧ s.db.entries.lookup r = some f ∧
        f.parentId = none) ∧
      ∀ n y, climb (parentOf s.db.entries) n 2 = some y → n ≤ s.db.entries.rows.length := by
  have run : (Execution.run (fun s l => if notMoving s l then System.step s l else none)
      { db := ⟨.empty, .empty⟩ }
      [.start 0 7 (.createFolder 1 "a" none), .exec 0, .commit 0,
       .start 1 7 (.createFolder 2 "b" (some 1)), .exec 1, .exec 1, .commit 1,
       .start 2 7 (.move 2 none), .exec 2, .exec 2, .exec 2, .commit 2]).map
      (·.db.entries.lookup 2) =
      some (some { ownerId := 7, parentId := none, kind := .folder, name := "b" }) := by
    decide +kernel
  obtain ⟨s, hs, h⟩ := Option.map_eq_some_iff.mp run
  have steps := Execution.steps_of_run (fun _ _ => noOverlappingCycle_of_notMoving) hs
  exact ⟨s, _, steps, h, System.parent_reaches_root .empty steps h⟩

-- Two folders `a` and `b`.
def twoFolders : List Label :=
  [.start 0 7 (.createFolder 1 "a" none), .exec 0, .commit 0,
   .start 0 7 (.createFolder 2 "b" none), .exec 0, .commit 0]

-- `a` is moved into `b` and `b` into `a`, and both moves reach their `UPDATE` before one commits.
def oppositeMoves : List Label :=
  twoFolders ++
  [.start 1 7 (.move 1 (some 2)), .start 2 7 (.move 2 (some 1)),
   .exec 1, .exec 1, .exec 1, .exec 1, .exec 2, .exec 2, .exec 2, .exec 2,
   .exec 1, .exec 2, .commit 1, .commit 2]

theorem oppositeMoves_cycle :
    ∃ s e, Execution.Reaches System.step { db := ⟨.empty, .empty⟩ } s ∧
      s.db.entries.lookup 1 = some e ∧
      ∀ n r f, climb (parentOf s.db.entries) n 1 = some r → s.db.entries.lookup r = some f →
        f.parentId ≠ none := by
  have run : (Execution.run System.step { db := ⟨.empty, .empty⟩ } oppositeMoves).map
      (fun s => (s.db.entries.lookup 1, s.db.entries.lookup 2)) =
      some (some { ownerId := 7, parentId := some 2, kind := .folder, name := "a" },
        some { ownerId := 7, parentId := some 1, kind := .folder, name := "b" }) := by
    decide +kernel
  obtain ⟨s, hs, he⟩ := Option.map_eq_some_iff.mp run
  obtain ⟨h₁, h₂⟩ := Prod.mk.inj he
  refine ⟨s, _, Execution.reaches_of_run hs, h₁, fun n => ?_⟩
  have climb_mem (n) : climb (parentOf s.db.entries) n 1 = some 1 ∨
      climb (parentOf s.db.entries) n 1 = some 2 := by
    induction n
    case zero => exact .inl rfl
    case succ n ih =>
      rw [climb_succ]
      cases ih
      case inl h => simp [h, parentOf_eq h₁]
      case inr h => simp [h, parentOf_eq h₂]
  intro r f hr hf
  cases climb_mem n
  case inl h => cases h.symm.trans hr; cases h₁.symm.trans hf; simp
  case inr h => cases h.symm.trans hr; cases h₂.symm.trans hf; simp

end
end MyDrive.Drive
