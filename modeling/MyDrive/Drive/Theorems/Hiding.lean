import MyDrive.Drive.Theorems.Concurrent
import MyDrive.Drive.Theorems.Requests

-- One request that shows an entry at a place (a move, a restore or a new folder) among requests
-- that trash entries.

open Forest

namespace MyDrive.Drive

def Request.places : Request → Bool
  | .move ..         => true
  | .restore ..      => true
  | .createFolder .. => true
  | _                => false

def Request.trashes : Request → Bool
  | .trash ..      => true
  | .batchTrash .. => true
  | _              => false

def Write.places : Write → Bool
  | .insert ..         => true
  | .updateParent ..   => true
  | .clearDeletedAt .. => true
  | _                  => false

def Op.checks : Op → Bool
  | .ensureActive ..       => true
  | .ensureMutable ..      => true
  | .ensureNotContained .. => true
  | _                      => false

def Op.trashes : Op → Bool
  | .write (.setDeletedAt ..) => true
  | op                        => op.checks

-- The call `main` is the request that places an entry, and the other calls trash entries.
def Label.among (main : Id) : Label → Bool
  | .start i _ r => if i = main then r.places else r.trashes
  | _            => true

-- The remaining steps of a request that places an entry: its only write comes last.
inductive PlaceOps : List Op → Prop
  | nil : PlaceOps []
  | check {op ops} : op.checks → PlaceOps ops → PlaceOps (op :: ops)
  | write {w} : w.places → PlaceOps [.write w]
  | select {id} : PlaceOps [.selectTrashed id]

theorem PlaceOps.append {ops₁ ops₂ : List Op} (h₁ : ∀ op ∈ ops₁, op.checks) (h₂ : PlaceOps ops₂) :
    PlaceOps (ops₁ ++ ops₂) := by
  induction ops₁
  case nil => exact h₂
  case cons op ops ih =>
    refine .check (h₁ op (.head _)) (ih fun o ho => h₁ o (.tail _ ho))

theorem ensureParentOps_checks {parent : Option Id} : ∀ op ∈ ensureParentOps parent, op.checks := by
  cases parent <;> simp [ensureParentOps, Op.checks]

theorem Request.ops_places {r : Request} {ops : List Op} (h : r.places) (ho : r.ops = .ok ops) :
    PlaceOps ops := by
  cases r <;> simp only [Request.places, Bool.false_eq_true] at h <;> simp only [Request.ops] at ho
  case createFolder id name parent =>
    obtain ⟨_, _, he⟩ := Except.map_eq_ok_iff.mp ho
    exact he ▸ .append ensureParentOps_checks (.write rfl)
  case restore id =>
    cases ho
    exact .select
  case move id parent =>
    cases ho
    refine .check rfl <| .check rfl <| .append ensureParentOps_checks ?_
    refine .append (fun op h => ?_) (.write rfl)
    obtain ⟨_, _, he⟩ := List.mem_map.mp h
    exact he ▸ rfl

theorem Request.ops_trashes {r : Request} {ops : List Op} (h : r.trashes) (ho : r.ops = .ok ops) :
    ∀ op ∈ ops, op.trashes := by
  cases r <;> simp only [Request.trashes, Bool.false_eq_true] at h <;> simp only [Request.ops] at ho
  case trash id now =>
    cases ho
    simp [Op.trashes, Op.checks]
  case batchTrash ids now =>
    simp only [batchOps] at ho
    split at ho <;> cases ho
    intro op hm
    obtain ⟨_, _, hm⟩ := List.mem_flatMap.mp hm
    cases hm
    case head      => rfl
    case tail hm   => cases List.mem_singleton.mp hm; rfl

section

variable [Collation] {v : View} {c c' : Call} {op : Op} {todo : List Op}

theorem Op.exec_checks (h : op.checks) (he : op.exec v c = .ok c') : c' = c := by
  cases op <;> simp only [Op.checks, Bool.false_eq_true] at h <;> simp only [Op.exec] at he
  case ensureActive       => exact Call.check_ok he
  case ensureMutable      => exact Call.check_ok he
  case ensureNotContained => split at he <;> cases he; rfl

theorem PlaceOps.exec (h : PlaceOps (op :: todo)) (he : op.exec v { c with todo } = .ok c') :
    PlaceOps c'.todo := by
  cases h
  case check hc ht => exact Op.exec_checks hc he ▸ ht
  case write =>
    obtain ⟨_, _, he⟩ := Except.map_eq_ok_iff.mp he
    exact he ▸ .nil
  case select =>
    simp only [Op.exec] at he
    split at he <;> cases he
    simpa using PlaceOps.append ensureParentOps_checks (.write rfl)

theorem Op.exec_trashes (h : ∀ o ∈ op :: todo, o.trashes)
    (he : op.exec v { c with todo } = .ok c') : ∀ o ∈ c'.todo, o.trashes := by
  have rest := fun o ho => h o (List.mem_cons_of_mem _ ho)
  have head := h op (.head _)
  cases op <;> simp only [Op.trashes, Op.checks, Bool.false_eq_true] at head
  case write w =>
    obtain ⟨_, _, he⟩ := Except.map_eq_ok_iff.mp he
    exact he ▸ rest
  all_goals exact Op.exec_checks rfl he ▸ rest

end

namespace System

def indexWrites (s : System) (i : Id) : Option (Table Id (Option IndexRow)) :=
  (s.calls.lookup i).map (·.changes.index)

def IndexOutcome (s : System) (S : Id → Prop) (index : Table Id IndexRow) : Prop :=
  s.db.index.Merges s.indexWrites S index

-- The entry `id` is put into the folder `p`, or shown there again. No other open transaction
-- trashes the folder or something above it. And nothing of this is trashed already, unless the
-- flags of the entries below `id` do not matter: `id` stays where it was, or all its children are
-- trashed themselves.
def SafePlacement (s : System) (i : Id) (c : Call) (id p : Id) : Prop :=
  (∀ j d z e, j ≠ i → s.calls.lookup j = some d → d.changes.entries.lookup z = some (some e) →
    e.deletedAt.isSome → ¬Ancestor (parentOf (s.viewOf c).entries) p z) ∧
  (Active (s.viewOf c).entries p ∨
    parentOf (s.viewOf c).entries id = some p ∧ ¬Trashed (s.viewOf c).entries id ∨
    ∀ x, parentOf (s.viewOf c).entries x = some id → Trashed (s.viewOf c).entries x)

-- No other open transaction has put an untrashed entry into the trashed subtree.
def SafeTrash (s : System) (i : Id) (c : Call) (z : Id) : Prop :=
  ∀ j d x e p, j ≠ i → s.calls.lookup j = some d → d.changes.entries.lookup x = some (some e) →
    e.deletedAt = none → e.parentId = some p → ¬Ancestor (parentOf (s.viewOf c).entries) p z

-- The entry that a write places, with its folder.
def placed (v : View) : Write → Option (Id × Option Id)
  | .insert id parent _ _   => some (id, parent)
  | .updateParent id parent => some (id, parent)
  | .clearDeletedAt id      => (v.entries.lookup id).map fun e => (id, e.parentId)
  | _                       => none

def SafeWrite (s : System) (i : Id) (c : Call) (w : Write) : Prop :=
  (∀ id p, placed (s.viewOf c) w = some (id, some p) → s.SafePlacement i c id p) ∧
  (∀ z now, w = .setDeletedAt z now → s.SafeTrash i c z)

-- The writes of the requests do not get in each other's way.
def SafeStep (s : System) (l : Label) : Prop :=
  ∀ i c w todo, l = .exec i → s.calls.lookup i = some c → c.todo = .write w :: todo →
    s.SafeWrite i c w

structure Hiding (main : Id) (s : System) : Prop where
  con : s.Consistent
  indexed {i c x} : s.calls.lookup i = some c → c.changes.entries.lookup x ≠ none →
    c.changes.index.lookup x ≠ none
  trashing {i c x a} : i ≠ main → s.calls.lookup i = some c →
    c.changes.entries.lookup x = some a →
    ∃ e f, a = some e ∧ s.db.entries.lookup x = some f ∧ e.parentId = f.parentId ∧
      e.deletedAt.isSome
  trashOps {i c} : i ≠ main → s.calls.lookup i = some c → ∀ op ∈ c.todo, op.trashes
  placing {c x a} : s.calls.lookup main = some c → c.changes.entries.lookup x = some a →
    c.todo = [] ∧ (∃ e, a = some e ∧ e.deletedAt = none) ∧
      ∀ y, c.changes.entries.lookup y ≠ none → y = x
  placeOps {c} : s.calls.lookup main = some c → PlaceOps c.todo
  agrees {S t index} : s.Outcome S t → s.IndexOutcome S index → Agrees t index

variable {s s' : System} {i main : Id} {c c' : Call} {S : Id → Prop}

theorem indexWrites_eq_some {w : Table Id (Option IndexRow)} :
    s.indexWrites i = some w ↔ ∃ c, s.calls.lookup i = some c ∧ c.changes.index = w := by
  simp [indexWrites]

-- An outcome after the call `i` has written the row `id`, seen as a write to an outcome before.
theorem outcomes_unwrite {v' : View} {id : Id} {new : Entry} {b : Bool} {touched : Id → Prop}
    {flag : Id → Bool} {t' : Table Id Entry} {index' : Table Id IndexRow}
    (hc : s.calls.lookup i = some c)
    (sync : Synced ((s.viewOf c).setEntry id (some new)) v' id new b touched flag)
    (hi : ∀ x, x ≠ id → touched x → (s.viewOf c).index.lookup x ≠ none)
    (hv : c'.changes = v'.changes)
    (hd : ∀ j d, j ≠ i → s.calls.lookup j = some d → c'.compatible d) (hS : S i)
    (m : ({ s with calls := s.calls.set i c' } : System).Outcome S t')
    (mi : ({ s with calls := s.calls.set i c' } : System).IndexOutcome S index') :
    ∃ t index, s.Outcome S t ∧ s.IndexOutcome S index ∧
      (∀ x, t'.lookup x = if x = id then some new else t.lookup x) ∧
      (∀ x, x = id ∨ c.changes.entries.lookup x ≠ none →
        t.lookup x = (s.viewOf c).entries.lookup x) ∧
      Resynced index index' id new b touched flag ∧
      index.lookup id = (s.viewOf c).index.lookup id := by
  obtain ⟨t, m, ht, htv⟩ := outcome_unwrite hc (hv ▸ sync.put) hd hS m
  have self : c'.changes.index.lookup id = some (some (new.indexRow b)) := hv ▸ sync.self
  have below {x} (hx : x ≠ id) (hxt : touched x) {r} (hr : (s.viewOf c).index.lookup x = some r) :
      c'.changes.index.lookup x = some (some { r with buried := flag x }) :=
    hv ▸ sync.below hx hxt hr
  have other {x} (hx : x ≠ id) (hxt : ¬touched x) :
      c'.changes.index.lookup x = c.changes.index.lookup x :=
    hv ▸ sync.other hx hxt
  have hix : s.indexWrites i = some c.changes.index := indexWrites_eq_some.mpr ⟨c, hc, rfl⟩
  have hix' : System.indexWrites { s with calls := s.calls.set i c' } i = some c'.changes.index := by
    simp [indexWrites]
  obtain ⟨index, mi, hin, hiv⟩ := mi.unwrite hS hix hix'
    (fun j hj => by simp [indexWrites, hj])
    (fun x hx => by
      by_cases hxi : x = id
      case pos => simp [hxi, self] at hx
      case neg =>
        by_cases hxt : touched x
        case neg => exact other hxi hxt ▸ hx
        case pos =>
          obtain ⟨r, hr⟩ := Option.ne_none_iff_exists'.mp (hi x hxi hxt)
          simp [below hxi hxt hr] at hx)
    (fun j w x hj hw hx => by
      obtain ⟨d, hdj, he⟩ := indexWrites_eq_some.mp hw
      exact he ▸ Call.compatible_index (hd j d hj hdj) hx)
  refine ⟨t, index, m, mi, ht, htv, ⟨?_, ?_, ?_⟩, hiv id (by simp [self])⟩
  case refine_1 => simp [hin, self]
  case refine_2 =>
    intro x hx hxt
    obtain ⟨r, hr⟩ := Option.ne_none_iff_exists'.mp (hi x hx hxt)
    have hw := below hx hxt hr
    have hxv : index.lookup x = some r := (hiv x (by simp [hw])).trans hr
    simp [hin, hw, hxv]
  case refine_3 =>
    intro x hx hxt
    have hw := other hx hxt
    rw [hin, hw]
    cases ha : c.changes.index.lookup x
    case none   => rfl
    case some a =>
      rw [hiv x (by simp [hw, ha])]
      simp [ha]

namespace Hiding

variable (hid : s.Hiding main)
include hid

theorem view_agrees (hc : s.calls.lookup i = some c) :
    Agrees (s.viewOf c).entries (s.viewOf c).index :=
  hid.agrees (S := (· = i)) (.own <| entryWrites_eq_some.mpr ⟨c, hc, rfl⟩)
    (.own <| indexWrites_eq_some.mpr ⟨c, hc, rfl⟩)

-- The entries below a written row have an index row.
theorem touched_index {id x : Id} {new : Entry} (hc : s.calls.lookup i = some c) (hx : x ≠ id)
    (ha : Above (parentOf ((s.viewOf c).setEntry id (some new)).entries) x id) :
    (s.viewOf c).index.lookup x ≠ none := by
  obtain ⟨_, hp, _⟩ := ha
  obtain ⟨e, he, _⟩ := lookup_of_parentOf hp
  rw [View.lookup_setEntry, if_neg hx] at he
  obtain ⟨r, hr, _⟩ := hid.view_agrees hc x e he
  simp [hr]

section

variable {t t' : Table Id Entry} {index' : Table Id IndexRow} {id : Id} {new : Entry} {v' : View}
variable (hc : s.calls.lookup main = some c) (hn : ∀ y, c.changes.entries.lookup y = none)
include hc hn

-- Before the request that places an entry has written anything, it sees every entry as it will be,
-- but for those that are being trashed.
theorem outcome_cases (m : s.Outcome S t) (y : Id) :
    t.lookup y = (s.viewOf c).entries.lookup y ∨
    ∃ j d e f, j ≠ main ∧ s.calls.lookup j = some d ∧
      d.changes.entries.lookup y = some (some e) ∧ e.deletedAt.isSome ∧
      t.lookup y = some e ∧ (s.viewOf c).entries.lookup y = some f ∧ e.parentId = f.parentId := by
  cases outcome_lookup hc m y
  case inl h => exact .inl h
  case inr h =>
    obtain ⟨j, d, a, hj, hd, ha, hta⟩ := h.resolve_left (· (hn y))
    obtain ⟨e, f, he, hf, hp, ht⟩ := hid.trashing hj hd ha
    refine .inr ⟨j, d, e, f, hj, hd, he ▸ ha, ht, he ▸ hta, ?_, hp⟩
    simp [View.entries, viewOf, hn, hf]

theorem parentOf_outcome (m : s.Outcome S t) (y : Id) :
    parentOf t y = parentOf (s.viewOf c).entries y := by
  cases hid.outcome_cases hc hn m y
  case inl h => simp [parentOf, h]
  case inr h =>
    obtain ⟨_, _, e, f, _, _, _, _, ht, hv, hp⟩ := h
    rw [parentOf_eq ht, parentOf_eq hv, hp]

theorem trashed_outcome (m : s.Outcome S t) {y : Id} (h : Trashed (s.viewOf c).entries y) :
    Trashed t y := by
  cases hid.outcome_cases hc hn m y
  case inl he => simpa [Trashed, he] using h
  case inr h  => obtain ⟨_, _, e, _, _, _, _, hd, ht, _⟩ := h; exact ⟨e, ht, hd⟩

theorem agrees_rebased (r : Rebased (s.viewOf c) v' id new) (hv : c'.changes = v'.changes)
    (hd : ∀ j d, j ≠ main → s.calls.lookup j = some d → c'.compatible d)
    (safe : ∀ p, new.parentId = some p →
      (∀ j d z e, j ≠ main → s.calls.lookup j = some d →
        d.changes.entries.lookup z = some (some e) → e.deletedAt.isSome →
        ¬Ancestor (parentOf (s.viewOf c).entries) p z) ∧
      (Active (s.viewOf c).entries p ∨
        ∀ x, parentOf (s.viewOf c).entries x = some id → Trashed (s.viewOf c).entries x))
    (hS : S main) (m : ({ s with calls := s.calls.set main c' } : System).Outcome S t')
    (mi : ({ s with calls := s.calls.set main c' } : System).IndexOutcome S index') :
    Agrees t' index' := by
  obtain ⟨flag, hf, sync⟩ := r.synced
  have touched {x} (hx : x ≠ id)
      (ha : Above (parentOf ((s.viewOf c).setEntry id (some new)).entries) x id) :=
    hid.touched_index hc hx ha
  obtain ⟨t, index, m, mi, ht, htv, rs, _⟩ :=
    outcomes_unwrite hc sync (fun x => touched) hv hd hS m mi
  have parent : parentOf t' = parentOf ((s.viewOf c).setEntry id (some new)).entries := by
    funext y
    have := hid.parentOf_outcome hc hn m y
    by_cases hy : y = id <;> simp_all [parentOf]
  have view (y) (hy : y ≠ id) : ((s.viewOf c).setEntry id (some new)).entries.lookup y =
      (s.viewOf c).entries.lookup y := by simp [hy]
  -- Other requests can trash entries neither below `id`, whose index rows are locked, ..
  have between {z} (hz : Ancestor (parentOf t') z id) : Trashed t' z ↔
      Trashed ((s.viewOf c).setEntry id (some new)).entries z := by
    by_cases hzi : z = id
    case pos => simp [Trashed, hzi, ht]
    case neg =>
      cases hid.outcome_cases hc hn m z
      case inl h => simp [Trashed, hzi, ht, h]
      case inr h =>
        obtain ⟨j, d, e, _, hj, hdj, he, _⟩ := h
        have ha := ancestor_iff_eq_or_above.mp (parent ▸ hz) |>.resolve_left (hzi ·.symm)
        obtain ⟨q, hq⟩ := Option.ne_none_iff_exists'.mp (touched hzi ha)
        have hcz : c'.changes.index.lookup z ≠ none := by simp [hv, sync.below hzi ha hq]
        exact absurd (Call.compatible_index (hd j d hj hdj) hcz) (hid.indexed hdj (by simp [he]))
  -- .. nor above it.
  have above {z} (hz : Above (parentOf t') id z) : Trashed t' z ↔
      Trashed ((s.viewOf c).setEntry id (some new)).entries z := by
    rw [parent] at hz
    obtain ⟨p, hp, hpz⟩ := hz
    have hpi := not_ancestor_of_parent r.tree.wf hp
    have hzi : z ≠ id := fun h => hpi (h ▸ hpz)
    have hp : new.parentId = some p := by simpa [parentOf] using hp
    cases hid.outcome_cases hc hn m z
    case inl h => simp [Trashed, hzi, ht, h]
    case inr h =>
      obtain ⟨j, d, e, _, hj, hdj, he, hed, _⟩ := h
      have hvz := ancestor_iff_of_not (fun y hy => (parentOf_congr view y hy).symm) hpi |>.mpr hpz
      exact absurd hvz ((safe p hp).left j d z e hj hdj he hed)
  have buried : Buried t' id ↔ Buried ((s.viewOf c).setEntry id (some new)).entries id := by
    refine exists_congr fun z => ?_
    rw [← parent]
    exact and_congr_right above
  refine (hid.agrees m mi).live ht ?_ (fun x hx => (hf x (parent ▸ hx)).trans ?_) ?_ (parent ▸ rs)
  case refine_1 =>
    rw [buried]
    exact (hid.view_agrees hc).parentHidden_iff r.tree (by simp) (by simp +contextual) (by simp)
  case refine_2 =>
    rw [← parent]
    exact exists_congr fun z => and_congr_right fun _ => and_congr_right fun hz => (between hz).symm
  case refine_3 =>
    cases hp : new.parentId
    case none =>
      refine .inl ?_
      rintro ⟨_, ⟨_, hc, _⟩, _⟩
      simp [parentOf, ht, hp] at hc
    case some p =>
      cases (safe p hp).right
      case inl ha =>
        refine .inl fun hb => Active.not_buried_setEntry r.tree (fun q hq => ?_) (buried.mp hb)
        cases hp.symm.trans hq
        exact ha
      case inr ha =>
        refine .inr fun x hx => ?_
        have hxi : x ≠ id := fun h =>
          not_ancestor_of_parent r.tree.wf (parent ▸ hx) (h ▸ .refl _)
        rw [parent, parentOf_congr view x hxi] at hx
        have := hid.trashed_outcome hc hn m (ha x hx)
        simpa [Trashed, ht, hxi] using this

end

section

variable {t t' : Table Id Entry} {index' : Table Id IndexRow} {id : Id} {old new : Entry}
variable {v' : View} {flag : Id → Bool}
variable (hc : s.calls.lookup i = some c) (hv : c'.changes = v'.changes)
variable (hd : ∀ j d, j ≠ i → s.calls.lookup j = some d → c'.compatible d)
variable (hS : S i) (m : ({ s with calls := s.calls.set i c' } : System).Outcome S t')
variable (mi : ({ s with calls := s.calls.set i c' } : System).IndexOutcome S index')
include hc hv hd hS m mi

omit hv hd hS m mi in
-- Only the request that places an entry can change where an entry will be found.
theorem parentOf_outcome_cases (m : s.Outcome S t)
    (htv : ∀ x, c.changes.entries.lookup x ≠ none →
      t.lookup x = (s.viewOf c).entries.lookup x) (y : Id) :
    parentOf t y = parentOf (s.viewOf c).entries y ∨
    ∃ d e, main ≠ i ∧ s.calls.lookup main = some d ∧
      d.changes.entries.lookup y = some (some e) ∧ e.deletedAt = none ∧ t.lookup y = some e := by
  cases outcome_lookup hc m y
  case inl h => exact .inl (by simp [parentOf, h])
  case inr h =>
    cases h
    case inl h => exact .inl (by simp [parentOf, htv y h])
    case inr h =>
      obtain ⟨j, d, a, hj, hd, ha, hta⟩ := h
      by_cases hjm : j = main
      case pos =>
        subst hjm
        obtain ⟨_, ⟨e, he, hn⟩, _⟩ := hid.placing hd ha
        exact .inr ⟨d, e, hj, hd, he ▸ ha, hn, he ▸ hta⟩
      case neg =>
        obtain ⟨e, f, he, hf, hp, _⟩ := hid.trashing hjm hd ha
        have hcy := Call.compatible_entries (hid.con.compatible hj hd hc) (x := y) (by simp [ha])
        have hvy : (s.viewOf c).entries.lookup y = some f := by simp [View.entries, viewOf, hcy, hf]
        exact .inl (by rw [parentOf_eq (hta.trans he), parentOf_eq hvy, hp])

theorem agrees_same (ho : (s.viewOf c).entries.lookup id = some old)
    (hp : new.parentId = old.parentId) (hdel : new.deletedAt = old.deletedAt)
    (sync : Synced ((s.viewOf c).setEntry id (some new)) v' id new
      (((s.viewOf c).index.lookup id).elim false (·.buried)) (fun _ => False) flag) :
    Agrees t' index' := by
  obtain ⟨t, index, m, mi, ht, htv, rs, hii⟩ :=
    outcomes_unwrite hc sync (fun _ _ h => h.elim) hv hd hS m mi
  exact (hid.agrees m mi).rename ht (htv id (.inl rfl) |>.trans ho) hp hdel (hii ▸ rs)

theorem agrees_trash (ho : (s.viewOf c).entries.lookup id = some old)
    (hp : new.parentId = old.parentId) (hdel : new.deletedAt.isSome)
    (tree : Tree ((s.viewOf c).setEntry id (some new)).entries)
    (con : ({ s with calls := s.calls.set i c' } : System).Consistent)
    (sync : Synced ((s.viewOf c).setEntry id (some new)) v' id new false
      (fun x => Above (parentOf ((s.viewOf c).setEntry id (some new)).entries) x id)
      (fun _ => true))
    (safe : s.SafeTrash i c id) : Agrees t' index' := by
  have tree' := con.tree m
  have touched {x} (hx : x ≠ id)
      (ha : Above (parentOf ((s.viewOf c).setEntry id (some new)).entries) x id) :=
    hid.touched_index hc hx ha
  obtain ⟨t, index, m, mi, ht, htv, rs, _⟩ :=
    outcomes_unwrite hc sync (fun x => touched) hv hd hS m mi
  have view : parentOf ((s.viewOf c).setEntry id (some new)).entries =
      parentOf (s.viewOf c).entries := by
    funext y
    by_cases hy : y = id <;> simp [parentOf, hy, ho, hp]
  have parent (y) : parentOf t' y = parentOf t y := by
    by_cases hy : y = id <;> simp [parentOf, hy, ht, htv, ho, hp]
  have cases_parent := hid.parentOf_outcome_cases hc m fun x h => htv x (.inr h)
  have above (y) : Above (parentOf t') y id ↔ Above (parentOf (s.viewOf c).entries) y id := by
    by_cases hm : ∃ x, parentOf t x ≠ parentOf (s.viewOf c).entries x
    case neg =>
      have : parentOf t' = parentOf (s.viewOf c).entries := funext fun y =>
        (parent y).trans <| by_contra fun h => hm ⟨y, h⟩
      rw [this]
    case pos =>
      obtain ⟨x, hx⟩ := hm
      obtain ⟨d, e, hmi, hdm, he, hen, hte⟩ := (cases_parent x).resolve_left hx
      obtain ⟨_, _, only⟩ := hid.placing hdm he
      have apart (y) (hy : y ≠ x) : parentOf t' y = parentOf (s.viewOf c).entries y := by
        refine (parent y).trans <| (cases_parent y).resolve_right ?_
        rintro ⟨d', _, _, hdm', he', _⟩
        refine hy ?_
        cases hdm.symm.trans hdm'
        exact only y (by simp [he'])
      have hci : c'.changes.entries.lookup id = some (some new) := by
        simp [hv, sync.put]
      have hxi : x ≠ id := by
        intro h
        have := Call.compatible_entries (hd main d hmi hdm) (x := id) (by simp [hci])
        simp [← h, he] at this
      -- The placed entry is not below the trashed one, neither where it was ..
      have before : ¬Ancestor (parentOf (s.viewOf c).entries) x id := by
        intro ha
        have ha := ancestor_iff_eq_or_above.mp ha |>.resolve_left (hxi ·.symm)
        rw [← view] at ha
        obtain ⟨r, hr⟩ := Option.ne_none_iff_exists'.mp (touched hxi ha)
        have hcx : c'.changes.index.lookup x ≠ none := by simp [hv, sync.below hxi ha hr]
        exact hid.indexed hdm (by simp [he]) (Call.compatible_index (hd main d hmi hdm) hcx)
      -- .. nor where it will be.
      have after : ¬Ancestor (parentOf t') x id := by
        intro ha
        obtain ⟨p, hp, ha⟩ := ancestor_iff_eq_or_above.mp ha |>.resolve_left (hxi ·.symm)
        have hpx := not_ancestor_of_parent tree'.wf hp
        rw [ancestor_iff_of_not apart (mt (ancestor_self_iff apart).mpr hpx)] at ha
        rw [parent, parentOf_eq hte] at hp
        exact safe main d x e p hmi hdm he hen hp ha
      rw [above_iff tree'.wf, above_iff (view ▸ tree.wf)]
      refine and_congr_left fun _ => ⟨fun h => ?_, fun h => ?_⟩
      case refine_1 => exact ancestor_of_not_ancestor (fun y hy => (apart y hy).symm) after h
      case refine_2 => exact ancestor_of_not_ancestor apart before h
  refine (hid.agrees m mi).trash (b := false) ht hdel ?_
  simpa only [above, view] using rs

end

theorem of_call (con : ({ s with calls := s.calls.set i c' } : System).Consistent)
    (hix : ∀ x, c'.changes.entries.lookup x ≠ none → c'.changes.index.lookup x ≠ none)
    (htr : i ≠ main → (∀ op ∈ c'.todo, op.trashes) ∧
      ∀ x a, c'.changes.entries.lookup x = some a → ∃ e f, a = some e ∧
        s.db.entries.lookup x = some f ∧ e.parentId = f.parentId ∧ e.deletedAt.isSome)
    (hpl : i = main → PlaceOps c'.todo ∧ ∀ x a, c'.changes.entries.lookup x = some a →
      c'.todo = [] ∧ (∃ e, a = some e ∧ e.deletedAt = none) ∧
        ∀ y, c'.changes.entries.lookup y ≠ none → y = x)
    (hag : ∀ S t index, S i → ({ s with calls := s.calls.set i c' } : System).Outcome S t →
      ({ s with calls := s.calls.set i c' } : System).IndexOutcome S index → Agrees t index) :
    ({ s with calls := s.calls.set i c' } : System).Hiding main where
  con := con
  indexed {j d x} hj := by
    rw [Table.lookup_set] at hj
    split at hj
    case isTrue  => cases hj; exact hix x
    case isFalse => exact hid.indexed hj
  trashing {j d x a} hjm hj ha := by
    rw [Table.lookup_set] at hj
    split at hj
    case isTrue h => cases hj; exact (htr (h ▸ hjm)).right x a ha
    case isFalse  => exact hid.trashing hjm hj ha
  trashOps {j d} hjm hj := by
    rw [Table.lookup_set] at hj
    split at hj
    case isTrue h => cases hj; exact (htr (h ▸ hjm)).left
    case isFalse  => exact hid.trashOps hjm hj
  placing {d x a} hj ha := by
    rw [Table.lookup_set] at hj
    split at hj
    case isTrue h => cases hj; exact (hpl h.symm).right x a ha
    case isFalse  => exact hid.placing hj ha
  placeOps {d} hj := by
    rw [Table.lookup_set] at hj
    split at hj
    case isTrue h => cases hj; exact (hpl h.symm).left
    case isFalse  => exact hid.placeOps hj
  agrees {S t index} m mi := by
    by_cases hi : S i
    case pos => exact hag S t index hi m mi
    case neg =>
      have hji (j) (hj : S j) : j ≠ i := fun h => hi (h ▸ hj)
      refine hid.agrees (m.congr fun j hj => ?_) (mi.congr fun j hj => ?_)
      case refine_1 => simp [entryWrites, hji j hj]
      case refine_2 => simp [indexWrites, hji j hj]

theorem opened (hc : c.changes = {}) (hs : c.shared = []) (hl : c.locked = [])
    (htr : i ≠ main → ∀ op ∈ c.todo, op.trashes) (hpl : i = main → PlaceOps c.todo) :
    ({ s with calls := s.calls.set i c } : System).Hiding main := by
  refine hid.of_call (hid.con.opened hc hs hl) (by simp [hc]) (fun h => ⟨htr h, by simp [hc]⟩)
    (fun h => ⟨hpl h, by simp [hc]⟩) fun S t index _ m mi => ?_
  refine hid.agrees
    (m.forget (i := i) (fun j hj => by simp [entryWrites, hj]) fun w k hw => ?_)
    (mi.forget (i := i) (fun j hj => by simp [indexWrites, hj]) fun w k hw => ?_)
  case refine_1 =>
    obtain ⟨d, hd, he⟩ := entryWrites_eq_some.mp hw
    simp only [Table.lookup_set, if_true, Option.some.injEq] at hd
    subst hd he
    simp [hc]
  case refine_2 =>
    obtain ⟨d, hd, he⟩ := indexWrites_eq_some.mp hw
    simp only [Table.lookup_set, if_true, Option.some.injEq] at hd
    subst hd he
    simp [hc]

theorem dropped : ({ s with calls := s.calls.erase i } : System).Hiding main := by
  have other {j d} (h : (s.calls.erase i).lookup j = some d) : s.calls.lookup j = some d := by
    rw [Table.lookup_erase] at h
    split at h <;> try contradiction
    exact h
  constructor
  case con      => exact hid.con.dropped
  case indexed  => exact fun hj => hid.indexed (other hj)
  case trashing => exact fun hm hj => hid.trashing hm (other hj)
  case trashOps => exact fun hm hj => hid.trashOps hm (other hj)
  case placing  => exact fun hj => hid.placing (other hj)
  case placeOps => exact fun hj => hid.placeOps (other hj)
  case agrees   =>
    intro S t index m mi
    exact hid.agrees
      (m.forget (i := i) (fun j hj => by simp [entryWrites, hj]) (by simp [entryWrites]))
      (mi.forget (i := i) (fun j hj => by simp [indexWrites, hj]) (by simp [indexWrites]))

theorem committed (hc : s.calls.lookup i = some c) :
    ({ db := (s.viewOf c).commit, calls := s.calls.erase i } : System).Hiding main := by
  have other {j d} (h : (s.calls.erase i).lookup j = some d) : j ≠ i ∧ s.calls.lookup j = some d := by
    rw [Table.lookup_erase] at h
    split at h <;> try contradiction
    case _ hj => exact ⟨hj, h⟩
  constructor
  case con      => exact hid.con.committed hc
  case indexed  => exact fun hj => hid.indexed (other hj).right
  case trashOps => exact fun hm hj => hid.trashOps hm (other hj).right
  case placing  => exact fun hj => hid.placing (other hj).right
  case placeOps => exact fun hj => hid.placeOps (other hj).right
  case trashing =>
    intro j d x a hm hj ha
    obtain ⟨hji, hj⟩ := other hj
    obtain ⟨e, f, he, hf, h⟩ := hid.trashing hm hj ha
    have hcx := Call.compatible_entries (hid.con.compatible hji hj hc) (x := x) (by simp [ha])
    exact ⟨e, f, he, by simp [View.commit, View.entries, viewOf, hcx, hf], h⟩
  case agrees =>
    intro S t index m mi
    refine hid.agrees
      (m.commit (i := i) (entryWrites_eq_some.mpr ⟨c, hc, rfl⟩)
        (fun j hj => by simp [entryWrites, hj]) (by simp [entryWrites]) fun j w k hj hw hk => ?_)
      (mi.commit (i := i) (indexWrites_eq_some.mpr ⟨c, hc, rfl⟩)
        (fun j hj => by simp [indexWrites, hj]) (by simp [indexWrites]) fun j w k hj hw hk => ?_)
    case refine_1 =>
      obtain ⟨d, hd, he⟩ := entryWrites_eq_some.mp hw
      exact Call.compatible_entries (hid.con.compatible hj hd hc) (he ▸ hk)
    case refine_2 =>
      obtain ⟨d, hd, he⟩ := indexWrites_eq_some.mp hw
      exact Call.compatible_index (hid.con.compatible hj hd hc) (he ▸ hk)

-- A write is indexed, and it leaves the other rows of its transaction alone.
theorem synced_indexed {v' : View} {id x : Id} {new : Entry} {b : Bool} {touched : Id → Prop}
    {flag : Id → Bool} (hc : s.calls.lookup i = some c)
    (sync : Synced ((s.viewOf c).setEntry id (some new)) v' id new b touched flag)
    (hx : v'.changes.entries.lookup x ≠ none) : v'.changes.index.lookup x ≠ none := by
  by_cases hxi : x = id
  case pos => simp [hxi, sync.self]
  case neg =>
    rw [sync.put, if_neg hxi] at hx
    have hix : (s.viewOf c).changes.index.lookup x ≠ none := hid.indexed hc hx
    by_cases hxt : touched x
    case neg => rw [sync.other hxi hxt]; exact hix
    case pos =>
      cases hr : (s.viewOf c).index.lookup x
      case none   => rw [sync.missing hxi hxt hr]; exact hix
      case some r => simp [sync.below hxi hxt hr]

variable {w : Write} {v' : View} {op : Op} {todo : List Op}

theorem unwritten (hc : s.calls.lookup main = some c) (ho : c.todo = op :: todo) (y : Id) :
    c.changes.entries.lookup y = none := by
  by_contra h
  obtain ⟨a, ha⟩ := Option.ne_none_iff_exists'.mp h
  simp [(hid.placing hc ha).left] at ho

variable [Collation]

theorem trashed (him : i ≠ main) (hc : s.calls.lookup i = some c)
    (ho : c.todo = .write w :: todo) (hw : w.exec (s.viewOf c) c.owner = .ok v')
    (con : ({ s with calls := s.calls.set i c' } : System).Consistent)
    (ht : c'.todo = todo) (hv : c'.changes = v'.changes)
    (hd : ∀ j d, j ≠ i → s.calls.lookup j = some d → c'.compatible d)
    (safe : s.SafeWrite i c w) : ({ s with calls := s.calls.set i c' } : System).Hiding main := by
  have ops := hid.trashOps him hc
  rw [ho] at ops
  have head := ops _ (.head _)
  cases w <;> simp only [Op.trashes, Op.checks, Bool.false_eq_true] at head
  case setDeletedAt z now =>
    obtain ⟨old, new, hz, _, hold, hn, tree, sync⟩ := setDeletedAt_ok (hid.con.view_tree hc) hw
    refine hid.of_call con ?_ (fun _ => ⟨?_, fun x a ha => ?_⟩) (absurd · him) ?_
    case refine_1 => exact fun x hx => hv ▸ hid.synced_indexed hc sync (hv ▸ hx)
    case refine_2 => exact fun o ho => ops o (.tail _ (ht ▸ ho))
    case refine_3 =>
      rw [hv, sync.put] at ha
      split at ha
      case isFalse => exact hid.trashing him hc ha
      case isTrue hx =>
        cases ha
        subst hx
        cases hcx : c.changes.entries.lookup x
        case none =>
          have hf : s.db.entries.lookup x = some old := by
            simpa [View.entries, viewOf, hcx] using hz
          exact ⟨new, old, rfl, hf, by simp [hn], by simp [hn]⟩
        case some b =>
          obtain ⟨e, f, he, _, _, hed⟩ := hid.trashing him hc hcx
          have : e = old := by simpa [View.entries, viewOf, hcx, he] using hz
          simp [this, hold] at hed
    case refine_4 =>
      intro S t index hS m mi
      exact hid.agrees_trash hc hv hd hS m mi hz (by simp [hn]) (by simp [hn]) tree con sync
        (safe.right z now rfl)

theorem placed (hc : s.calls.lookup main = some c) (ho : c.todo = .write w :: todo)
    (hw : w.exec (s.viewOf c) c.owner = .ok v')
    (con : ({ s with calls := s.calls.set main c' } : System).Consistent)
    (ht : c'.todo = todo) (hv : c'.changes = v'.changes)
    (hd : ∀ j d, j ≠ main → s.calls.lookup j = some d → c'.compatible d)
    (safe : s.SafeWrite main c w) :
    ({ s with calls := s.calls.set main c' } : System).Hiding main := by
  have hn := hid.unwritten hc ho
  have ops := hid.placeOps hc
  rw [ho] at ops
  -- What follows from the write of an untrashed row.
  have call {id new b touched flag} (hnew : new.deletedAt = none)
      (sync : Synced ((s.viewOf c).setEntry id (some new)) v' id new b touched flag)
      (htodo : todo = []) (hag : ∀ S t index, S main →
        ({ s with calls := s.calls.set main c' } : System).Outcome S t →
        ({ s with calls := s.calls.set main c' } : System).IndexOutcome S index → Agrees t index) :
      ({ s with calls := s.calls.set main c' } : System).Hiding main := by
    refine hid.of_call con ?_ (absurd rfl) (fun _ => ⟨?_, fun x a ha => ⟨?_, ?_, ?_⟩⟩) hag
    case refine_1 => exact fun x hx => hv ▸ hid.synced_indexed hc sync (hv ▸ hx)
    case refine_2 => rw [ht, htodo]; exact .nil
    case refine_3 => rw [ht, htodo]
    case refine_4 =>
      rw [hv, sync.put] at ha
      split at ha
      case isTrue  => cases ha; exact ⟨new, rfl, hnew⟩
      case isFalse => cases (hn x).symm.trans ha
    case refine_5 =>
      have only {y} (hy : c'.changes.entries.lookup y ≠ none) : y = id := by
        rw [hv, sync.put] at hy
        split at hy
        case isTrue h => exact h
        case isFalse  => exact absurd (hn y) hy
      exact fun y hy => (only hy).trans (only (by simp [ha])).symm
  cases ops
  case check h _ => cases h
  case write hp =>
    have rebased {id new} (r : Rebased (s.viewOf c) v' id new)
        (hpl : System.placed (s.viewOf c) w = some (id, new.parentId))
        (hmv : ∀ p, new.parentId = some p → parentOf (s.viewOf c).entries id = some p →
          Trashed (s.viewOf c).entries id) :
        ({ s with calls := s.calls.set main c' } : System).Hiding main := by
      obtain ⟨_, _, sync⟩ := r.synced
      refine call r.active sync rfl fun S t index => hid.agrees_rebased hc hn r hv hd fun p hp => ?_
      obtain ⟨others, here⟩ := safe.left id p (hpl.trans (by rw [hp]))
      refine ⟨others, here.imp_right (·.resolve_left fun h => h.right (hmv p hp h.left))⟩
    cases w <;> simp only [Write.places, Bool.false_eq_true] at hp <;> simp only [Write.exec] at hw
    case insert id parent kind name =>
      split at hw <;> try contradiction
      obtain ⟨hnone, _, r⟩ := insertEntry_rebased (hid.con.view_tree hc) rfl hw
      exact rebased r rfl fun p _ h => by simp [parentOf, hnone] at h
    case clearDeletedAt id =>
      obtain ⟨old, new, hold, _, htr, hnew, r⟩ := clearDeletedAt_ok (hid.con.view_tree hc) hw
      refine rebased r (by simp [System.placed, hold, hnew]) fun _ _ _ => ⟨old, hold, htr⟩
    case updateParent id parent =>
      obtain ⟨old, new, hold, _, hact, hnew, _, _, hs⟩ := updateParent_ok (hid.con.view_tree hc) hw
      have hnp : new.parentId = parent := by simp [hnew]
      cases hs
      case inl hs =>
        refine call (by simp [hnew, hact]) hs.right rfl fun S t index hS m mi => ?_
        exact hid.agrees_same hc hv hd hS m mi hold (by simp [hnp, hs.left]) (by simp [hnew]) hs.right
      case inr hs =>
        refine rebased hs.right (by simp [System.placed, hnp]) fun p hp h => ?_
        rw [parentOf_eq hold] at h
        exact absurd (h.trans (hnp ▸ hp).symm) hs.left

theorem no_cycle {id p : Id} {t : Table Id Entry} (hc : s.calls.lookup i = some c)
    (ho : c.todo = .write (.updateParent id (some p)) :: todo)
    (hw : updateParent (s.viewOf c) c.owner id (some p) = .ok v') (m : s.Outcome S t) :
    ¬Ancestor (parentOf t) p id := by
  by_cases him : i = main
  case neg =>
    have ops := hid.trashOps him hc
    rw [ho] at ops
    exact absurd (ops _ (.head _)) Bool.false_ne_true
  case pos =>
    subst him
    have tree := hid.con.view_tree hc
    obtain ⟨old, new, hold, _, _, hnew, hv, _⟩ := updateParent_ok tree hw
    have parent := funext (hid.parentOf_outcome hc (hid.unwritten hc ho) m)
    rw [parent]
    exact not_ancestor_of_validate tree hv (by simp [hold, hnew]) (by simp [hnew])

theorem executed (hc : s.calls.lookup i = some c) (ho : c.todo = op :: todo)
    (he : op.exec (s.viewOf c) { c with todo } = .ok c')
    (hd : ∀ j d, j ≠ i → s.calls.lookup j = some d → c'.compatible d)
    (safe : s.SafeStep (.exec i)) :
    ({ s with calls := s.calls.set i c' } : System).Hiding main := by
  have con : ({ s with calls := s.calls.set i c' } : System).Consistent := by
    refine hid.con.executed hc he hd fun id p S t hop hS m => ?_
    subst hop
    obtain ⟨_, hw, _⟩ := Except.map_eq_ok_iff.mp he
    exact hid.no_cycle hc ho hw m
  cases Op.exec_ok he
  case inl h =>
    obtain ⟨w, v', hw, hv, hc'⟩ := h
    have ho := hw ▸ ho
    have ht : c'.todo = todo := by rw [hc']
    have hch : c'.changes = v'.changes := by rw [hc']
    by_cases him : i = main
    case pos => subst him; exact hid.placed hc ho hv con ht hch hd (safe i c w todo rfl hc ho)
    case neg => exact hid.trashed him hc ho hv con ht hch hd (safe i c w todo rfl hc ho)
  case inr h =>
    obtain ⟨changes, _⟩ := h
    have changes : c'.changes = c.changes := changes
    refine hid.of_call con ?_ (fun him => ⟨?_, ?_⟩) (fun him => ⟨?_, ?_⟩) fun S t index _ m mi => ?_
    case refine_1 => exact changes ▸ fun x => hid.indexed hc
    case refine_2 => exact Op.exec_trashes (ho ▸ hid.trashOps him hc) he
    case refine_3 => exact changes ▸ fun x a => hid.trashing him hc
    case refine_4 => subst him; exact PlaceOps.exec (ho ▸ hid.placeOps hc) he
    case refine_5 =>
      subst him
      intro x a ha
      rw [changes] at ha
      cases (hid.unwritten hc ho x).symm.trans ha
    case refine_6 =>
      refine hid.agrees (m.congr fun j _ => ?_) (mi.congr fun j _ => ?_)
      case refine_1 => by_cases hj : j = i <;> simp [entryWrites, hj, hc, changes]
      case refine_2 => by_cases hj : j = i <;> simp [indexWrites, hj, hc, changes]

theorem step {l : Label} (among : l.among main) (safe : s.SafeStep l) (h : s.step l = some s') :
    s'.Hiding main := by
  cases stepped h
  case refused              => exact hid
  case dropped              => exact hid.dropped
  case committed hc         => exact hid.committed hc
  case executed hc ho he hd => exact hid.executed hc ho he hd safe
  case opened i owner r todo _ ops =>
    refine hid.opened rfl rfl rfl (fun him => ?_) fun him => ?_
    case refine_1 => exact r.ops_trashes (by simpa [Label.among, him] using among) ops
    case refine_2 => exact r.ops_places (by simpa [Label.among, him] using among) ops

end Hiding

theorem hiding_init {db : Db} (sound : Sound { base := db }) : Hiding main { db } where
  con            := consistent_init sound.tree
  indexed hi     := by simp at hi
  trashing _ hi  := by simp at hi
  trashOps _ hi  := by simp at hi
  placing hi     := by simp at hi
  placeOps hi    := by simp at hi
  agrees m mi    := sound.agrees.congr
    (fun _ => m.untouched fun _ _ _ hw => by simp [entryWrites] at hw)
    (fun _ => mi.untouched fun _ _ _ hw => by simp [indexWrites] at hw)

-- While a request that places an entry overlaps with requests that trash entries, without getting
-- in their way, the index never shows an entry below a trashed one.
theorem shown_entry_active [Collation] {db : Db} (sound : Sound { base := db })
    (run : Execution.Steps step (fun s l => l.among main ∧ s.SafeStep l) { db } s) {x : Id} {e : Entry} {r : IndexRow}
    (he : s.db.entries.lookup x = some e) (hr : s.db.index.lookup x = some r)
    (shown : r.deletedAt = none ∧ r.buried = false) : Active s.db.entries x := by
  have hid := run.invariant (hiding_init sound) fun h ok hs => h.step ok.left ok.right hs
  have sound : Sound { base := s.db } :=
    ⟨hid.con.tree .none_committed, hid.agrees .none_committed .none_committed⟩
  obtain ⟨r', hr', active⟩ := sound.index_row he
  cases hr.symm.trans hr'
  exact active.mp shown

end System

section

attribute [local instance] Collation.binary

-- The folder `p` lies in `g`, and the folder `c` in `x`.
def nested : Db :=
  Db.serveAll ⟨.empty, .empty⟩
    [(7, .createFolder 1 "g" none), (7, .createFolder 2 "p" (some 1)),
     (7, .createFolder 3 "x" none), (7, .createFolder 4 "c" (some 3))]

theorem nested_sound : Sound { base := nested } :=
  Sound.serveAll ⟨.empty, fun x e h => by simp [View.entries] at h⟩

-- `x` is moved into `p`, and `g` is trashed between the checks of the move and its `UPDATE`. The
-- walk from `x` then unhides `c`.
theorem moved_child_shown :
    ∃ s e r, Sound { base := nested } ∧
      Execution.Steps System.step (fun _ l => l.among 1) { db := nested } s ∧
      s.calls.rows = [] ∧ s.db.entries.lookup 4 = some e ∧ s.db.index.lookup 4 = some r ∧
      (r.deletedAt = none ∧ r.buried = false) ∧
      ∃ z, Above (parentOf s.db.entries) 4 z ∧ Trashed s.db.entries z := by
  have run : (Execution.run (fun s l => if Label.among 1 l then System.step s l else none)
      { db := nested }
      [.start 1 7 (.move 3 (some 2)), .exec 1, .exec 1, .exec 1, .exec 1,
       .start 2 7 (.trash 1 5), .exec 2, .exec 2, .exec 2, .commit 2, .exec 1, .commit 1]).map
      (fun s => (s.calls.rows.length, s.db.index.lookup 4, [4, 3, 2, 1].map s.db.entries.lookup)) =
      some (0, some ⟨7, some 3, .folder, "c", none, false⟩,
        [some ⟨7, some 3, .folder, "c", none, none⟩, some ⟨7, some 2, .folder, "x", none, none⟩,
         some ⟨7, some 1, .folder, "p", none, none⟩, some ⟨7, none, .folder, "g", some 5, none⟩]) := by
    decide +kernel
  obtain ⟨s, hs, he⟩ := Option.map_eq_some_iff.mp run
  simp only [Prod.mk.injEq, List.map_cons, List.map_nil, List.cons.injEq, and_true] at he
  obtain ⟨h₀, hi, h₄, h₃, h₂, h₁⟩ := he
  refine ⟨s, _, _, nested_sound, Execution.steps_of_run (fun _ _ h => h) hs,
    List.eq_nil_of_length_eq_zero h₀, h₄, hi, ⟨rfl, rfl⟩, 1, ?_, ⟨_, h₁, rfl⟩⟩
  refine ⟨3, parentOf_eq h₄, ?_⟩
  exact .head (parentOf_eq h₃) (.head (parentOf_eq h₂) (.refl _))

-- A write that is due does not write into a folder, and the other calls have not written yet.
def apart (s : System) : Label → Bool
  | .exec i => (s.calls.lookup i).all fun c =>
    match c.todo with
    | .write w :: _ => (System.placed (s.viewOf c) w).all (·.2.isNone) &&
      (s.calls.erase i).rows.all (·.2.changes.entries.rows.isEmpty)
    | _             => true
  | _       => true

theorem safeStep_of_apart {s : System} {l : Label} (h : apart s l) : s.SafeStep l := by
  intro i c w todo hl hc ht
  simp only [apart, hl, hc, ht, Option.all_some, Bool.and_eq_true, List.all_eq_true,
    List.isEmpty_iff] at h
  refine ⟨fun id p hp => by simp [hp] at h, fun z now _ j d x e p hj hd he => ?_⟩
  have hd := Table.mem_rows_erase.mpr ⟨hj, Table.lookup_eq_some_iff.mp hd⟩
  have hr : d.changes.entries.rows = [] := h.right _ hd
  simp [Table.lookup_eq_some_iff, hr] at he

theorem shown_entry_active_new_folder :
    ∃ s e r, Execution.Steps System.step (fun s l => l.among 1 ∧ s.SafeStep l) { db := nested } s ∧
      s.db.entries.lookup 5 = some e ∧ s.db.index.lookup 5 = some r ∧
      (r.deletedAt = none ∧ r.buried = false) ∧ Active s.db.entries 5 := by
  have run : (Execution.run
      (fun s l => if Label.among 1 l && apart s l then System.step s l else none) { db := nested }
      [.start 2 7 (.trash 1 5), .exec 2, .start 1 7 (.createFolder 5 "n" none), .exec 2, .exec 2,
       .commit 2, .exec 1, .commit 1]).map
      (fun s => (s.db.entries.lookup 5, s.db.index.lookup 5)) =
      some (some ⟨7, none, .folder, "n", none, none⟩,
        some ⟨7, none, .folder, "n", none, false⟩) := by
    decide +kernel
  obtain ⟨s, hs, he⟩ := Option.map_eq_some_iff.mp run
  obtain ⟨h, hi⟩ := Prod.mk.inj he
  have steps : Execution.Steps System.step (fun s l => l.among 1 ∧ s.SafeStep l)
      { db := nested } s :=
    Execution.steps_of_run (fun s l h => (Bool.and_eq_true _ _ ▸ h).imp_right safeStep_of_apart) hs
  exact ⟨s, _, _, steps, h, hi, ⟨rfl, rfl⟩,
    System.shown_entry_active nested_sound steps h hi ⟨rfl, rfl⟩⟩

end
end MyDrive.Drive
