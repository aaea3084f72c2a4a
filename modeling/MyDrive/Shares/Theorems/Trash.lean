import MyDrive.Drive.Theorems.Concurrent
import MyDrive.Shares.Trash

open Forest

namespace MyDrive.Shares.Trash

open Drive

-- The operations of the requests that trash, and of those that move and restore.
def trashOp : Op → Bool
  | .ensureActive _ _ | .ensureMutable _ | .write (.setDeletedAt _ _) => true
  | _                                                                => false

def placeOp : Op → Bool
  | .ensureActive _ _ | .ensureMutable _ | .ensureNotContained _ _ | .selectTrashed _ => true
  | .write (.updateParent _ _) | .write (.clearDeletedAt _)                         => true
  | _                                                                               => false

def createStep : Statement → Bool
  | .op (.ensureActive _ _) | .checkKind _ | .insertShare _ _ => true
  | _                                                         => false

section

variable {todo : List Op} {parent : Option Id} {ids : List Id}

theorem placeOp_ensureParentOps : ∀ op ∈ ensureParentOps parent, placeOp op := by
  cases parent <;> simp [ensureParentOps, placeOp]

theorem placeOp_moveOps {id : Id} : ∀ op ∈ moveOps id parent, placeOp op := by
  cases parent <;> simp [moveOps, placeOp]

theorem forall_batchOps {p : Op → Bool} {ops : Id → List Op} (h : batchOps ids ops = .ok todo)
    (ho : ∀ id, ∀ op ∈ ops id, p op) : ∀ op ∈ todo, p op := by
  unfold batchOps at h
  split at h <;> cases h
  intro op hm
  obtain ⟨id, -, hm⟩ := List.mem_flatMap.mp hm
  exact ho id op hm

theorem placeOp_batchMove (h : (Drive.Request.batchMove ids parent).ops = .ok todo) :
    ∀ op ∈ todo, placeOp op := by
  simp only [Drive.Request.ops, batchIntoOps] at h
  split at h <;> try contradiction
  obtain ⟨ops, hb, rfl⟩ := Except.map_eq_ok_iff.mp h
  refine List.forall_mem_append.mpr ⟨placeOp_ensureParentOps, forall_batchOps hb fun id => ?_⟩
  exact List.forall_mem_cons.mpr ⟨rfl, placeOp_moveOps⟩

theorem placeOp_move {id : Id} (h : (Drive.Request.move id parent).ops = .ok todo) :
    ∀ op ∈ todo, placeOp op := by
  cases h
  refine List.forall_mem_cons.mpr ⟨rfl, List.forall_mem_cons.mpr ⟨rfl, ?_⟩⟩
  exact List.forall_mem_append.mpr ⟨placeOp_ensureParentOps, placeOp_moveOps⟩

theorem steps_cases {r : Request} {steps : List Statement} (h : r.steps = .ok steps) :
    (∃ todo, steps = statements todo ∧ ∀ op ∈ todo, trashOp op) ∨
    (∃ todo, steps = statements todo ∧ ∀ op ∈ todo, placeOp op) ∨ ∀ st ∈ steps, createStep st := by
  cases r <;> simp only [Request.steps] at h
  case trash id now         =>
    cases h
    exact .inl ⟨_, rfl, by simp [trashOp]⟩
  case batchTrash ids now   =>
    obtain ⟨todo, ht, rfl⟩ := Except.map_eq_ok_iff.mp h
    exact .inl ⟨todo, rfl, forall_batchOps ht fun id => by simp [trashOp]⟩
  case move id parent       =>
    obtain ⟨todo, ht, rfl⟩ := Except.map_eq_ok_iff.mp h
    exact .inr (.inl ⟨todo, rfl, placeOp_move ht⟩)
  case batchMove ids parent =>
    obtain ⟨todo, ht, rfl⟩ := Except.map_eq_ok_iff.mp h
    exact .inr (.inl ⟨todo, rfl, placeOp_batchMove ht⟩)
  case restore id           =>
    cases h
    exact .inr (.inl ⟨_, rfl, by simp [placeOp]⟩)
  case createShare id share =>
    split at h <;> cases h
    exact .inr (.inr (by simp [createStep]))

end

-- A sweep has found the shares that are in its tree still.
structure Covered (t : Tables) (owner : Id) (m : Sweep) : Prop where
  root : ∃ f, t.db.entries.lookup m.root = some f ∧ f.ownerId = owner
  shares {id s} : t.shares.lookup id = some s → s.ownerId = owner → s.revokedAt = none →
    s.resource.type ≠ .album → Ancestor (parentOf t.db.entries) s.resource.id m.root → id ∈ m.shares

-- What a session knows about the committed rows between two of its statements.
inductive Knows (t : Tables) (a : Session) : Prop
  | trashing {todo : List Op} (ops : ∀ op ∈ todo, trashOp op)
    (steps : a.steps = statements todo ∨ ∃ id now, a.steps = .sweep id now :: statements todo ∧
      ∃ e, a.call.changes.entries.lookup id = some (some e))
    (rows : ∀ x o, a.call.changes.entries.lookup x = some o → ∃ e f, o = some e ∧
      t.db.entries.lookup x = some f ∧ f.ownerId = a.call.owner ∧ e.ownerId = f.ownerId ∧
      e.parentId = f.parentId)
    (swept : ∀ x o, a.call.changes.entries.lookup x = some o →
      (∃ m ∈ a.sweeps, m.root = x) ∨ ∃ now, .sweep x now ∈ a.steps)
    (covered : ∀ m ∈ a.sweeps, Covered t a.call.owner m) (created : a.created = none)
  | placing {todo : List Op} (ops : ∀ op ∈ todo, placeOp op) (steps : a.steps = statements todo)
    (rows : ∀ x o, a.call.changes.entries.lookup x = some o → ∃ e f, o = some e ∧
      t.db.entries.lookup x = some f ∧ e.ownerId = f.ownerId ∧ e.deletedAt = none ∧
      ∀ p, e.parentId = some p → ∃ g, t.db.entries.lookup p = some g ∧ g.ownerId = e.ownerId)
    (sweeps : a.sweeps = []) (created : a.created = none)
  | creating (steps : ∀ st ∈ a.steps, createStep st) (changes : a.call.changes = {})
    (sweeps : a.sweeps = [])
    (fresh : ∀ id s, a.created = some (id, s) → t.shares.lookup id = none)

section

variable [Collation] {t : Tables} {a a' : Session} {v : View} {next : Statement}
  {steps : List Statement} {owner id : Id}

-- What a session sees of the committed rows.
structure Sees (t : Tables) (a : Session) (v : View) : Prop where
  changes : v.changes = a.call.changes
  lookup x : v.entries.lookup x =
    (a.call.changes.entries.lookup x).getD (t.db.entries.lookup x)

theorem setDeletedAt_row {v' : View} {now : Time} (h : setDeletedAt v owner id now = .ok v') :
    ∃ old, v.entries.lookup id = some old ∧ old.ownerId = owner ∧
      ∀ y, v'.changes.entries.lookup y =
        if y = id then some (some { old with deletedAt := some now })
        else v.changes.entries.lookup y := by
  unfold setDeletedAt at h
  split at h <;> try contradiction
  case _ old ho =>
    obtain ⟨ho, hw, -⟩ := activeRow_eq_some ho
    obtain ⟨-, rfl⟩ := updateEntry_ok h
    exact ⟨old, ho, hw, fun y => by rw [sync_changes_entries, View.lookup_setEntry_changes]⟩

section

variable (sees : Sees t a v)
include sees

omit [Collation] in
-- A trash request leaves every entry in its folder.
theorem Sees.parentOf (rows : ∀ x o, a.call.changes.entries.lookup x = some o → ∃ e f, o = some e ∧
      t.db.entries.lookup x = some f ∧ f.ownerId = a.call.owner ∧ e.ownerId = f.ownerId ∧
      e.parentId = f.parentId) : parentOf v.entries = parentOf t.db.entries := by
  funext x
  unfold Drive.parentOf
  rw [sees.lookup]
  cases hx : a.call.changes.entries.lookup x
  case none   => rfl
  case some o =>
    obtain ⟨e, f, rfl, hf, -, -, hp⟩ := rows x o hx
    simp [hf, hp]

omit [Collation] in
theorem Sees.linked (linked : Linked t.db.entries)
    (rows : ∀ x o, a.call.changes.entries.lookup x = some o → ∃ e f, o = some e ∧
      t.db.entries.lookup x = some f ∧ e.ownerId = f.ownerId ∧
      ∀ p, e.parentId = some p → ∃ g, t.db.entries.lookup p = some g ∧ g.ownerId = e.ownerId) :
    Linked v.entries where
  parent {x p e} hx hp := by
    have owned {p g} (hg : t.db.entries.lookup p = some g) :
        ∃ g', v.entries.lookup p = some g' ∧ g'.ownerId = g.ownerId := by
      rw [sees.lookup]
      cases hp : a.call.changes.entries.lookup p
      case none   => exact ⟨g, hg, rfl⟩
      case some o =>
        obtain ⟨e, f, rfl, hf, ho, -⟩ := rows p o hp
        cases hf.symm.trans hg
        exact ⟨e, rfl, ho⟩
    have found : ∃ g, t.db.entries.lookup p = some g ∧ g.ownerId = e.ownerId := by
      rw [sees.lookup] at hx
      cases hax : a.call.changes.entries.lookup x
      case none   => rw [hax] at hx; exact linked.parent hx hp
      case some o =>
        obtain ⟨e', f, rfl, -, -, parent⟩ := rows x o hax
        rw [hax] at hx
        cases hx
        exact parent p hp
    obtain ⟨g, hg, ho⟩ := found
    obtain ⟨g', hg', ho'⟩ := owned hg
    exact ⟨g', hg', ho'.trans ho⟩

omit [Collation] in
-- The `UPDATE` of the shares finds all shares in the tree.
theorem covered_inTree {now : Time} (linked : Linked t.db.entries)
    (rows : ∀ x o, a.call.changes.entries.lookup x = some o → ∃ e f, o = some e ∧
      t.db.entries.lookup x = some f ∧ f.ownerId = a.call.owner ∧ e.ownerId = f.ownerId ∧
      e.parentId = f.parentId)
    (written : ∃ e, a.call.changes.entries.lookup id = some (some e)) :
    Covered t a.call.owner { root := id, now, shares := t.inTree v a.call.owner id } := by
  obtain ⟨e, he⟩ := written
  obtain ⟨e', f, hee, hf, howner, he', -⟩ := rows id _ he
  cases hee
  refine ⟨⟨f, hf, howner⟩, fun {sid s} hs ho hr hk below => ?_⟩
  have linked : Linked v.entries := by
    refine sees.linked linked fun x o hx => ?_
    obtain ⟨e, f, rfl, hf, -, ho, hp⟩ := rows x o hx
    refine ⟨e, f, rfl, hf, ho, fun p hep => ?_⟩
    obtain ⟨g, hg, hgo⟩ := linked.parent hf (hp ▸ hep)
    exact ⟨g, hg, hgo.trans ho.symm⟩
  have root : v.entries.lookup id = some e := by rw [sees.lookup, he]; rfl
  rw [← sees.parentOf rows] at below
  have found : ∃ g, v.entries.lookup s.resource.id = some g := by
    obtain h | ⟨c, hc, -⟩ := below.cases_head
    case inl => exact ⟨e, h ▸ root⟩
    case inr =>
      obtain ⟨g, hg, -⟩ := lookup_of_parentOf hc
      exact ⟨g, hg⟩
  obtain ⟨g, hg⟩ := found
  have mem := linked.mem_subtree_of_ancestor root (he'.trans howner) below hg
  simp only [Tables.inTree, List.mem_map, List.mem_filter, Bool.and_eq_true, decide_eq_true_eq,
    List.any_eq_true]
  exact ⟨(sid, s), ⟨Table.lookup_eq_some_iff.mp hs, ⟨ho, hk⟩, _, mem, rfl⟩, rfl⟩

theorem Knows.exec_trashing {todo : List Op} (linked : Linked t.db.entries)
    (ops : ∀ op ∈ todo, trashOp op)
    (ha : a.steps = statements todo ∨ ∃ id now, a.steps = .sweep id now :: statements todo ∧
      ∃ e, a.call.changes.entries.lookup id = some (some e))
    (rows : ∀ x o, a.call.changes.entries.lookup x = some o → ∃ e f, o = some e ∧
      t.db.entries.lookup x = some f ∧ f.ownerId = a.call.owner ∧ e.ownerId = f.ownerId ∧
      e.parentId = f.parentId)
    (swept : ∀ x o, a.call.changes.entries.lookup x = some o →
      (∃ m ∈ a.sweeps, m.root = x) ∨ ∃ now, .sweep x now ∈ a.steps)
    (covered : ∀ m ∈ a.sweeps, Covered t a.call.owner m) (created : a.created = none)
    (hs : a.steps = next :: steps) (h : t.exec v a steps next = .ok a') : Knows t a' := by
  obtain ha | ⟨id, now, ha, written⟩ := ha
  case inr =>
    cases ha.symm.trans hs
    simp only [Tables.exec] at h
    cases h
    refine .trashing ops (.inl rfl) rows (fun x o hx => ?swept) ?covered created
    case swept =>
      obtain ⟨m, hm, hr⟩ | ⟨now', hm⟩ := swept x o hx
      case inl => exact .inl ⟨m, .tail _ hm, hr⟩
      case inr =>
        rw [ha, List.mem_cons] at hm
        obtain hm | hm := hm
        case inl => cases hm; exact .inl ⟨_, .head _, rfl⟩
        case inr => exact .inr ⟨now', hm⟩
    case covered =>
      exact List.forall_mem_cons.mpr ⟨covered_inTree sees linked rows written, covered⟩
  case inl =>
    cases todo
    case nil => cases ha.symm.trans hs
    case cons o todo =>
      -- What is written is swept already, or a sweep comes later.
      have later {x o} (hx : a.call.changes.entries.lookup x = some o)
          (hne : ∀ now, next ≠ .sweep x now) :
          (∃ m ∈ a.sweeps, m.root = x) ∨ ∃ now, .sweep x now ∈ steps := by
        refine (swept x o hx).imp_right ?_
        rintro ⟨now, hm⟩
        rw [hs, List.mem_cons] at hm
        exact ⟨now, hm.resolve_left fun h => hne now h.symm⟩
      obtain ⟨head, rest⟩ := List.forall_mem_cons.mp ops
      cases o <;> simp only [trashOp, Bool.false_eq_true] at head
      case ensureActive x folder =>
        cases ha.symm.trans hs
        obtain ⟨c, hc, rfl⟩ := Except.map_eq_ok_iff.mp h
        cases Call.check_ok hc
        exact .trashing rest (.inl rfl) rows (fun x o hx => later hx (by simp)) covered created
      case ensureMutable x =>
        cases ha.symm.trans hs
        obtain ⟨c, hc, rfl⟩ := Except.map_eq_ok_iff.mp h
        cases Call.check_ok hc
        exact .trashing rest (.inl rfl) rows (fun x o hx => later hx (by simp)) covered created
      case write w =>
        cases w <;> simp only [Bool.false_eq_true] at head
        case setDeletedAt x now =>
          cases ha.symm.trans hs
          obtain ⟨c, hc, rfl⟩ := Except.map_eq_ok_iff.mp h
          obtain ⟨v', hw, rfl⟩ := Except.map_eq_ok_iff.mp hc
          obtain ⟨old, ho, howner, wrote⟩ := setDeletedAt_row hw
          rw [sees.changes] at wrote
          refine .trashing rest (.inr ⟨x, now, rfl, _, (wrote x).trans (if_pos rfl)⟩) (fun y o hy => ?rows)
            (fun y o hy => ?swept) covered created
          case rows =>
            have hy := (wrote y).symm.trans hy
            split at hy
            case isFalse => exact rows y o hy
            case isTrue h =>
              cases hy
              subst h
              rw [sees.lookup] at ho
              cases hax : a.call.changes.entries.lookup y
              case none =>
                rw [hax] at ho
                exact ⟨_, old, rfl, ho, howner, rfl, rfl⟩
              case some o =>
                obtain ⟨e, f, rfl, hf, hfo, hef, hp⟩ := rows y o hax
                rw [hax] at ho
                cases ho
                exact ⟨_, f, rfl, hf, hfo, hef, hp⟩
          case swept =>
            have hy := (wrote y).symm.trans hy
            split at hy
            case isTrue h  => exact .inr ⟨now, by simp [h, statements]⟩
            case isFalse h =>
              obtain hm | ⟨now', hm⟩ := later hy (by simp)
              case inl => exact .inl hm
              case inr => exact .inr ⟨now', by simpa [statements] using hm⟩

omit [Collation] in
theorem Sees.row {x : Id} {g : Entry}
    (rows : ∀ x o, a.call.changes.entries.lookup x = some o → ∃ e f, o = some e ∧
      t.db.entries.lookup x = some f ∧ e.ownerId = f.ownerId ∧ e.deletedAt = none ∧
      ∀ p, e.parentId = some p → ∃ g, t.db.entries.lookup p = some g ∧ g.ownerId = e.ownerId)
    (h : v.entries.lookup x = some g) :
    ∃ f, t.db.entries.lookup x = some f ∧ f.ownerId = g.ownerId := by
  rw [sees.lookup] at h
  cases hx : a.call.changes.entries.lookup x
  case none   => rw [hx] at h; exact ⟨g, h, rfl⟩
  case some o =>
    obtain ⟨e, f, rfl, hf, ho, -⟩ := rows x o hx
    rw [hx] at h
    cases h
    exact ⟨f, hf, ho.symm⟩

omit [Collation] in
theorem Sees.parent {x p : Id} {g : Entry} (linked : Linked t.db.entries)
    (rows : ∀ x o, a.call.changes.entries.lookup x = some o → ∃ e f, o = some e ∧
      t.db.entries.lookup x = some f ∧ e.ownerId = f.ownerId ∧ e.deletedAt = none ∧
      ∀ p, e.parentId = some p → ∃ g, t.db.entries.lookup p = some g ∧ g.ownerId = e.ownerId)
    (h : v.entries.lookup x = some g) (hp : g.parentId = some p) :
    ∃ f, t.db.entries.lookup p = some f ∧ f.ownerId = g.ownerId := by
  rw [sees.lookup] at h
  cases hx : a.call.changes.entries.lookup x
  case none   => rw [hx] at h; exact linked.parent h hp
  case some o =>
    obtain ⟨e, f, rfl, -, -, -, parent⟩ := rows x o hx
    rw [hx] at h
    cases h
    exact parent p hp

-- An `UPDATE` of a move or of a restore.
theorem placeOp_row {w : Write} {v' : View} (linked : Linked t.db.entries)
    (rows : ∀ x o, a.call.changes.entries.lookup x = some o → ∃ e f, o = some e ∧
      t.db.entries.lookup x = some f ∧ e.ownerId = f.ownerId ∧ e.deletedAt = none ∧
      ∀ p, e.parentId = some p → ∃ g, t.db.entries.lookup p = some g ∧ g.ownerId = e.ownerId)
    (hw : placeOp (.write w)) (h : w.exec v owner = .ok v') :
    ∃ x f new, t.db.entries.lookup x = some f ∧ new.ownerId = f.ownerId ∧ new.deletedAt = none ∧
      (∀ p, new.parentId = some p →
        ∃ g, t.db.entries.lookup p = some g ∧ g.ownerId = new.ownerId) ∧
      ∀ y, v'.changes.entries.lookup y =
        if y = x then some (some new) else v.changes.entries.lookup y := by
  cases w <;> simp only [placeOp, Bool.false_eq_true] at hw
  case updateParent x parent =>
    simp only [Write.exec, updateParent] at h
    split at h <;> try contradiction
    case _ old ho =>
      obtain ⟨ho, -, hd⟩ := activeRow_eq_some ho
      obtain ⟨hv, rfl⟩ := updateEntry_ok h
      obtain ⟨f, hf, hfo⟩ := sees.row rows ho
      refine ⟨x, f, { old with parentId := parent }, hf, hfo.symm, hd, fun p hp => ?_, fun y => ?_⟩
      case refine_1 =>
        obtain ⟨g, hg, -, hgo, -⟩ := validateDriveEntryParent_ok (hv rfl) hp
        obtain ⟨g', hg', hgo'⟩ := sees.row rows hg
        exact ⟨g', hg', hgo'.trans hgo⟩
      case refine_2 => rw [sync_changes_entries, View.lookup_setEntry_changes]
  case clearDeletedAt x =>
    simp only [Write.exec, clearDeletedAt] at h
    split at h <;> try contradiction
    case _ old ho =>
      obtain ⟨ho, -, -⟩ := trashedRow_eq_some ho
      obtain ⟨-, rfl⟩ := updateEntry_ok h
      obtain ⟨f, hf, hfo⟩ := sees.row rows ho
      refine ⟨x, f, { old with deletedAt := none }, hf, hfo.symm, rfl, fun p hp => ?_, fun y => ?_⟩
      case refine_1 =>
        obtain ⟨g, hg, hgo⟩ := sees.parent linked rows ho hp
        exact ⟨g, hg, hgo⟩
      case refine_2 => rw [sync_changes_entries, View.lookup_setEntry_changes]

omit [Collation] sees in
theorem statements_append {todo todo' : List Op} :
    statements (todo ++ todo') = statements todo ++ statements todo' :=
  List.flatMap_append

theorem Knows.exec_placing {todo : List Op} (linked : Linked t.db.entries)
    (ops : ∀ op ∈ todo, placeOp op) (ha : a.steps = statements todo)
    (rows : ∀ x o, a.call.changes.entries.lookup x = some o → ∃ e f, o = some e ∧
      t.db.entries.lookup x = some f ∧ e.ownerId = f.ownerId ∧ e.deletedAt = none ∧
      ∀ p, e.parentId = some p → ∃ g, t.db.entries.lookup p = some g ∧ g.ownerId = e.ownerId)
    (sweeps : a.sweeps = []) (created : a.created = none)
    (hs : a.steps = next :: steps) (h : t.exec v a steps next = .ok a') : Knows t a' := by
  cases todo
  case nil => cases ha.symm.trans hs
  case cons o todo =>
    obtain ⟨head, rest⟩ := List.forall_mem_cons.mp ops
    have check {c : Drive.Call} (hc : c = { a.call with todo := [] }) :
        Knows t { a with call := { c with todo := [] }, steps := statements todo } := by
      subst hc
      exact .placing rest rfl rows sweeps created
    cases o <;> simp only [placeOp, Bool.false_eq_true] at head
    case ensureActive       =>
      cases ha.symm.trans hs
      obtain ⟨c, hc, rfl⟩ := Except.map_eq_ok_iff.mp h
      cases Call.check_ok hc
      exact check rfl
    case ensureMutable      =>
      cases ha.symm.trans hs
      obtain ⟨c, hc, rfl⟩ := Except.map_eq_ok_iff.mp h
      cases Call.check_ok hc
      exact check rfl
    case ensureNotContained =>
      cases ha.symm.trans hs
      obtain ⟨c, hc, rfl⟩ := Except.map_eq_ok_iff.mp h
      simp only [Op.exec] at hc
      split at hc <;> cases hc
      exact check rfl
    case selectTrashed      =>
      cases ha.symm.trans hs
      obtain ⟨c, hc, rfl⟩ := Except.map_eq_ok_iff.mp h
      simp only [Op.exec] at hc
      split at hc <;> cases hc
      refine .placing (List.forall_mem_append.mpr ⟨?ops, rest⟩) statements_append.symm rows sweeps
        created
      simp only [List.append_nil]
      exact List.forall_mem_append.mpr ⟨placeOp_ensureParentOps, by simp [placeOp]⟩
    case write w =>
      have one : statements (.write w :: todo) = .op (.write w) :: statements todo := by
        cases w <;> simp only [Bool.false_eq_true] at head <;> rfl
      cases (ha.trans one).symm.trans hs
      obtain ⟨c, hc, rfl⟩ := Except.map_eq_ok_iff.mp h
      obtain ⟨v', hw, rfl⟩ := Except.map_eq_ok_iff.mp hc
      obtain ⟨x, f, new, hf, hn, hd, hp, wrote⟩ := placeOp_row sees linked rows (by exact head) hw
      rw [sees.changes] at wrote
      refine .placing rest rfl (fun y o hy => ?_) sweeps created
      have hy := (wrote y).symm.trans hy
      split at hy
      case isFalse  => exact rows y o hy
      case isTrue h => cases hy; exact ⟨new, f, rfl, h ▸ hf, hn, hd, hp⟩

theorem Knows.exec (linked : Linked t.db.entries) (k : Knows t a) (hs : a.steps = next :: steps)
    (h : t.exec v a steps next = .ok a') : Knows t a' := by
  cases k
  case trashing todo ops ha rows swept covered created =>
    exact exec_trashing sees linked ops ha rows swept covered created hs h
  case placing todo ops ha rows sweeps created =>
    exact exec_placing sees linked ops ha rows sweeps created hs h
  case creating ha changes sweeps fresh =>
    rw [hs] at ha
    obtain ⟨head, rest⟩ := List.forall_mem_cons.mp ha
    cases next <;> simp only [createStep, Bool.false_eq_true] at head
    case op o =>
      cases o <;> simp only [Bool.false_eq_true] at head
      case ensureActive =>
        obtain ⟨c, hc, rfl⟩ := Except.map_eq_ok_iff.mp h
        cases Call.check_ok hc
        exact .creating rest changes sweeps fresh
    case checkKind =>
      simp only [Tables.exec] at h
      split at h <;> try contradiction
      split at h <;> cases h
      exact .creating rest changes sweeps fresh
    case insertShare id share =>
      simp only [Tables.exec] at h
      split at h <;> cases h
      case isFalse hn =>
        refine .creating rest changes sweeps fun i s hc => ?_
        cases hc
        cases hi : t.shares.lookup id
        case none   => rfl
        case some s => exact absurd (Table.any_iff.mpr ⟨id, s, hi, by simp⟩) hn

end

end

section

variable {s s' : System} {l : Label}

-- While a trash request has swept the shares of its tree and has not committed, no share of an entry
-- in the tree and no move of an entry into the tree commits.
structure CalmAt (s : System) (a : Session) (m : Sweep) : Prop where
  created {id share} : a.created = some (id, share) →
    ¬Ancestor (parentOf s.tables.db.entries) share.resource.id m.root
  moved {x e f} : a.call.changes.entries.lookup x = some (some e) →
    s.tables.db.entries.lookup x = some f → e.parentId ≠ f.parentId →
    ¬Ancestor (parentOf (s.viewOf a).entries) x m.root

def Calm (s : System) (l : Label) : Prop :=
  ∀ i a, l = .commit i → s.sessions.lookup i = some a →
    ∀ j b m, s.sessions.lookup j = some b → m ∈ b.sweeps → CalmAt s a m

theorem lookup_viewOf {a : Session} {x : Id} : (s.viewOf a).entries.lookup x =
    (a.call.changes.entries.lookup x).getD (s.tables.db.entries.lookup x) := by
  simp [View.entries, System.viewOf]

theorem sees {a : Session} : Sees s.tables a (s.viewOf a) where
  changes  := rfl
  lookup _ := lookup_viewOf

-- Entries stay, and stay with their owner.
theorem Knows.row {a : Session} {x : Id} {f : Entry} (k : Knows s.tables a)
    (hf : s.tables.db.entries.lookup x = some f) :
    ∃ e, (s.viewOf a).entries.lookup x = some e ∧ e.ownerId = f.ownerId := by
  rw [lookup_viewOf]
  cases hx : a.call.changes.entries.lookup x
  case none   => exact ⟨f, hf, rfl⟩
  case some o =>
    cases k
    case trashing rows _ _ _ =>
      obtain ⟨e, g, rfl, hg, -, ho, -⟩ := rows x o hx
      cases hg.symm.trans hf
      exact ⟨e, rfl, ho⟩
    case placing rows _ _    =>
      obtain ⟨e, g, rfl, hg, ho, -⟩ := rows x o hx
      cases hg.symm.trans hf
      exact ⟨e, rfl, ho⟩
    case creating changes _ _ => simp [changes] at hx

theorem Knows.linked {a : Session} (k : Knows s.tables a) (linked : Linked s.tables.db.entries) :
    Linked (s.viewOf a).entries := by
  cases k
  case creating changes _ _ =>
    refine sees.linked linked fun x o hx => ?_
    simp [changes] at hx
  case placing rows _ _    =>
    refine sees.linked linked fun x o hx => ?_
    obtain ⟨e, f, rfl, hf, ho, -, parent⟩ := rows x o hx
    exact ⟨e, f, rfl, hf, ho, parent⟩
  case trashing rows _ _ _ =>
    refine sees.linked linked fun x o hx => ?_
    obtain ⟨e, f, rfl, hf, -, ho, hp⟩ := rows x o hx
    refine ⟨e, f, rfl, hf, ho, fun p hep => ?_⟩
    obtain ⟨g, hg, hgo⟩ := linked.parent hf (hp ▸ hep)
    exact ⟨g, hg, hgo.trans ho.symm⟩

-- A share that is not revoked after a commit has come with it, or was not revoked before.
theorem share_cases {a : Session} {id : Id} {share : Share} {v : View}
    (h : (a.commit s.tables v).shares.lookup id = some share) :
    a.created = some (id, share) ∨
    ∃ old, s.tables.shares.lookup id = some old ∧ share = a.revoke id old := by
  have swept {id share} (h : (s.tables.shares.filterMap fun id s => some (a.revoke id s)).lookup id =
      some share) : ∃ old, s.tables.shares.lookup id = some old ∧ share = a.revoke id old := by
    rw [Table.lookup_filterMap] at h
    obtain ⟨old, ho, h⟩ := Option.bind_eq_some_iff.mp h
    cases h
    exact ⟨old, ho, rfl⟩
  simp only [Session.commit] at h
  split at h
  case h_2       => exact .inr (swept h)
  case h_1 sid new hc =>
    rw [Table.lookup_set] at h
    split at h
    case isTrue he => cases h; subst he; exact .inl hc
    case isFalse   => exact .inr (swept h)

theorem revoke_eq (a : Session) (id : Id) (share : Share) :
    (a.revoke id share).ownerId = share.ownerId ∧ (a.revoke id share).resource = share.resource ∧
      ((a.revoke id share).revokedAt = none → share.revokedAt = none) ∧
      (share.revokedAt.isSome → (a.revoke id share).revokedAt.isSome) := by
  unfold Session.revoke
  split
  case h_1 => cases share.revokedAt <;> simp
  case h_2 => exact ⟨rfl, rfl, fun h => h, fun h => h⟩

theorem revoked_of_mem {a : Session} {id : Id} {share : Share} {m : Sweep} (hm : m ∈ a.sweeps)
    (h : id ∈ m.shares) : (a.revoke id share).revokedAt.isSome := by
  unfold Session.revoke
  split
  case h_1    => cases share.revokedAt <;> rfl
  case h_2 hn =>
    have := List.find?_eq_none.mp hn m hm
    simp [h] at this

theorem Covered.committed {a b : Session} {m : Sweep} (calm : CalmAt s a m)
    (k : Knows s.tables a) (c : Covered s.tables b.call.owner m) :
    Covered (a.commit s.tables (s.viewOf a)) b.call.owner m where
  root := by
    obtain ⟨f, hf, ho⟩ := c.root
    obtain ⟨e, he, heo⟩ := k.row hf
    exact ⟨e, he, heo.trans ho⟩
  shares {id share} hs ho hr hk below := by
    have below : Ancestor (parentOf (s.viewOf a).entries) share.resource.id m.root := below
    -- Every entry on the way up was there before.
    have before : Ancestor (parentOf s.tables.db.entries) share.resource.id m.root := by
      clear hs ho hr hk
      generalize share.resource.id = x at below
      induction below using Relation.ReflTransGen.head_induction_on
      case refl => exact .refl _
      case head y z hyz below ih =>
        refine .head ?_ ih
        obtain ⟨e, he, hep⟩ := lookup_of_parentOf hyz
        have here : Ancestor (parentOf (s.viewOf a).entries) y m.root := .head hyz below
        rw [lookup_viewOf] at he
        cases hay : a.call.changes.entries.lookup y
        case none   => rw [hay] at he; exact (parentOf_eq he).trans hep
        case some o =>
          rw [hay, Option.getD_some] at he
          subst he
          have found : ∃ f, s.tables.db.entries.lookup y = some f := by
            cases k
            case trashing rows _ _ _ =>
              obtain ⟨e, g, -, hg, -⟩ := rows y _ hay
              exact ⟨g, hg⟩
            case placing rows _ _    =>
              obtain ⟨e, g, -, hg, -⟩ := rows y _ hay
              exact ⟨g, hg⟩
            case creating changes _ _ => simp [changes] at hay
          obtain ⟨f, hf⟩ := found
          by_cases hp : e.parentId = f.parentId
          case pos => exact (parentOf_eq hf).trans (hp ▸ hep)
          case neg => exact absurd here (calm.moved hay hf hp)
    obtain hc | ⟨old, hold, rfl⟩ := share_cases hs
    case inl => exact absurd before (calm.created hc)
    case inr =>
      obtain ⟨howner, hres, hrev, -⟩ := revoke_eq a id old
      rw [hres] at hk before
      exact c.shares hold (howner.symm.trans ho) (hrev hr) hk before

theorem unwritten_of_compatible {a b : Session} {x : Id} (h : a.compatible b)
    (hx : b.call.changes.entries.lookup x ≠ none) : a.call.changes.entries.lookup x = none := by
  simp only [Session.compatible, Bool.and_eq_true] at h
  exact Call.compatible_entries (Call.compatible.symm h.left.left) hx

-- What a session knows is still so when another one commits.
theorem Knows.committed {a b : Session} (apart : a.compatible b) (ka : Knows s.tables a)
    (calm : ∀ m ∈ b.sweeps, CalmAt s a m) (kb : Knows s.tables b) :
    Knows (a.commit s.tables (s.viewOf a)) b := by
  have same {x o f} (hx : b.call.changes.entries.lookup x = some o)
      (hf : s.tables.db.entries.lookup x = some f) :
      (s.viewOf a).entries.lookup x = some f := by
    rw [lookup_viewOf, unwritten_of_compatible apart (by simp [hx])]
    exact hf
  cases kb
  case trashing todo ops steps rows swept covered created =>
    refine .trashing ops steps (fun x o hx => ?_) swept
      (fun m hm => (covered m hm).committed (calm m hm) ka) created
    obtain ⟨e, f, rfl, hf, h⟩ := rows x o hx
    exact ⟨e, f, rfl, same hx hf, h⟩
  case placing todo ops steps rows sweeps created =>
    refine .placing ops steps (fun x o hx => ?_) sweeps created
    obtain ⟨e, f, rfl, hf, ho, hd, parent⟩ := rows x o hx
    refine ⟨e, f, rfl, same hx hf, ho, hd, fun p hp => ?_⟩
    obtain ⟨g, hg, hgo⟩ := parent p hp
    obtain ⟨g', hg', hgo'⟩ := ka.row hg
    exact ⟨g', hg', hgo'.trans hgo⟩
  case creating steps changes sweeps fresh =>
    refine .creating steps changes sweeps fun id share hc => ?_
    cases h : (a.commit s.tables (s.viewOf a)).shares.lookup id
    case none       => rfl
    case some found =>
      obtain hac | ⟨old, hold, -⟩ := share_cases h
      case inr => cases (fresh id share hc).symm.trans hold
      case inl =>
        simp [Session.compatible, hac, hc] at apart

structure Kept (s : System) : Prop where
  compatible {i j a b} : i ≠ j → s.sessions.lookup i = some a → s.sessions.lookup j = some b →
    a.compatible b
  linked : Linked s.tables.db.entries
  knows {i a} : s.sessions.lookup i = some a → Knows s.tables a

theorem othersCompatible_iff {i : Id} {a : Session} : s.othersCompatible i a ↔
    ∀ j b, j ≠ i → s.sessions.lookup j = some b → a.compatible b := by
  simp only [System.othersCompatible, List.all_eq_true, Prod.forall, Table.mem_rows_erase,
    Table.lookup_eq_some_iff]
  exact ⟨fun h j b hj hb => h j b ⟨hj, hb⟩, fun h j b hb => h j b hb.left hb.right⟩

theorem Session.compatible.symm {a b : Session} (h : a.compatible b) : b.compatible a := by
  simp only [Session.compatible, Bool.and_eq_true, List.all_eq_true, decide_eq_true_eq] at h ⊢
  obtain ⟨⟨calls, sweeps⟩, created⟩ := h
  refine ⟨⟨Call.compatible.symm calls, fun m hm n hn x hx hx' => sweeps n hn m hm x hx' hx⟩, ?_⟩
  cases ha : a.created
  case none   => cases b.created <;> rfl
  case some c =>
    cases hb : b.created
    case none   => rfl
    case some d =>
      simp only [ha, hb, Option.all_some, Bool.and_eq_true, decide_eq_true_eq] at created ⊢
      exact ⟨created.left.symm, created.right.symm⟩

theorem compatible_of_idle {a b : Session} (hc : a.call.changes = {}) (hs : a.call.shared = [])
    (hl : a.call.locked = []) (hw : a.sweeps = []) (hn : a.created = none) : a.compatible b := by
  simp [Session.compatible, hw, hn, Call.compatible.of_idle hc hs hl]

namespace Kept

variable (k : Kept s)
include k

theorem set {i : Id} {a : Session}
    (compatible : ∀ j b, j ≠ i → s.sessions.lookup j = some b → a.compatible b)
    (knows : Knows s.tables a) : Kept { s with sessions := s.sessions.set i a } where
  linked := k.linked
  compatible {j m b c} hjm hj hm := by
    simp only [Table.lookup_set] at hj hm
    split at hj <;> split at hm
    case isTrue.isTrue h h'   => exact absurd (h.trans h'.symm) hjm
    case isTrue.isFalse hm'   => cases hj; exact compatible m c hm' hm
    case isFalse.isTrue hj' _ => cases hm; exact Session.compatible.symm (compatible j b hj' hj)
    case isFalse.isFalse      => exact k.compatible hjm hj hm
  knows {j b} hj := by
    rw [Table.lookup_set] at hj
    split at hj
    case isTrue  => cases hj; exact knows
    case isFalse => exact k.knows hj

end Kept

variable [Collation]

inductive Stepped (s : System) : Label → System → Prop
  | refused {i owner r} : Stepped s (.start i owner r) s
  | opened {i owner r steps} (ok : r.steps = .ok steps) :
    Stepped s (.start i owner r)
      { s with sessions := s.sessions.set i { call := { owner, todo := [] }, steps } }
  | dropped {l i} : Stepped s l { s with sessions := s.sessions.erase i }
  | executed {i a a' next steps} (session : s.sessions.lookup i = some a)
    (todo : a.steps = next :: steps)
    (exec : s.tables.exec (s.viewOf a) a steps next = .ok a')
    (compatible : ∀ j b, j ≠ i → s.sessions.lookup j = some b → a'.compatible b) :
    Stepped s (.exec i) { s with sessions := s.sessions.set i a' }
  | committed {i a} (session : s.sessions.lookup i = some a) (done : a.steps = []) :
    Stepped s (.commit i)
      { tables := a.commit s.tables (s.viewOf a), sessions := s.sessions.erase i }

theorem stepped (h : s.step l = some s') : Stepped s l s' := by
  cases l <;> simp only [System.step] at h
  case start i owner r =>
    split at h <;> try contradiction
    split at h <;> cases h
    case h_1    => exact .refused
    case h_2 hr => exact .opened hr
  case exec i =>
    split at h <;> try contradiction
    case h_2 a ha =>
      split at h <;> try contradiction
      case h_2 next steps hn =>
        split at h
        case h_1       => cases h; exact .dropped
        case h_2 a' he =>
          split at h <;> cases h
          case isTrue hc => exact .executed ha hn he (othersCompatible_iff.mp hc)
  case commit i =>
    split at h <;> try contradiction
    case h_2 a ha =>
      split at h <;> cases h
      case isTrue hd => exact .committed ha (List.isEmpty_iff.mp hd)
  case abort i =>
    split at h <;> cases h
    exact .dropped

theorem Kept.step (k : Kept s) (calm : Calm s l) (h : s.step l = some s') : Kept s' := by
  cases stepped h
  case refused => exact k
  case opened i owner r steps ok =>
    refine k.set (fun _ _ _ _ => compatible_of_idle rfl rfl rfl rfl rfl) ?_
    obtain ⟨todo, rfl, ops⟩ | ⟨todo, rfl, ops⟩ | create := steps_cases ok
    case inl       => exact .trashing ops (.inl rfl) (by simp) (by simp) (by simp) rfl
    case inr.inl   => exact .placing ops rfl (by simp) rfl rfl
    case inr.inr   => exact .creating create rfl rfl (by simp)
  case dropped i =>
    refine ⟨fun {j m b c} hjm hj hm => ?_, k.linked, fun {j b} hj => ?_⟩
    case refine_1 =>
      simp only [Table.lookup_erase] at hj hm
      split at hj <;> split at hm <;> try contradiction
      exact k.compatible hjm hj hm
    case refine_2 =>
      rw [Table.lookup_erase] at hj
      split at hj <;> try contradiction
      exact k.knows hj
  case executed i a a' next steps ha hs he hc =>
    exact k.set hc ((k.knows ha).exec sees k.linked hs he)
  case committed i a ha _ =>
    refine ⟨fun {j m b c} hjm hj hm => ?_, (k.knows ha).linked k.linked, fun {j b} hj => ?_⟩
    case refine_1 =>
      simp only [Table.lookup_erase] at hj hm
      split at hj <;> split at hm <;> try contradiction
      exact k.compatible hjm hj hm
    case refine_2 =>
      rw [Table.lookup_erase] at hj
      split at hj <;> try contradiction
      case _ hji =>
        refine Knows.committed (k.compatible (Ne.symm hji) ha hj) (k.knows ha) ?_ (k.knows hj)
        exact fun m hm => calm i a rfl ha j b m hj hm

omit [Collation] in
theorem commit_share {a : Session} {id : Id} {share : Share} {v : View} (k : Knows s.tables a)
    (h : s.tables.shares.lookup id = some share) :
    (a.commit s.tables v).shares.lookup id = some (a.revoke id share) := by
  have swept : (s.tables.shares.filterMap fun id s => some (a.revoke id s)).lookup id =
      some (a.revoke id share) := by
    rw [Table.lookup_filterMap, h]
    rfl
  simp only [Session.commit]
  split
  case h_2           => exact swept
  case h_1 sid new hc =>
    have hne : id ≠ sid := by
      rintro rfl
      cases k
      case trashing created => cases created.symm.trans hc
      case placing created  => cases created.symm.trans hc
      case creating fresh   => cases (fresh id new hc).symm.trans h
    rw [Table.lookup_set, if_neg hne]
    exact swept

theorem Kept.revoked {id : Id} {share : Share} (k : Kept s) (h : s.step l = some s')
    (hs : s.tables.shares.lookup id = some share) (hr : share.revokedAt.isSome) :
    ∃ share', s'.tables.shares.lookup id = some share' ∧ share'.revokedAt.isSome := by
  cases stepped h
  case committed i a ha _ =>
    exact ⟨_, commit_share (k.knows ha) hs, (revoke_eq a _ _).2.2.2 hr⟩
  all_goals exact ⟨share, hs, hr⟩

-- The commit of a trash request revokes the shares of what it trashes, and of what is below that.
theorem Kept.trashed {z id : Id} {f e : Entry} {share : Share} (k : Kept s)
    (h : s.step l = some s') (hz : s.tables.db.entries.lookup z = some f)
    (active : f.deletedAt = none) (hz' : s'.tables.db.entries.lookup z = some e)
    (trashed : e.deletedAt.isSome) (hs : s.tables.shares.lookup id = some share)
    (owner : share.ownerId = f.ownerId) (kind : share.resource.type ≠ .album)
    (below : Ancestor (parentOf s'.tables.db.entries) share.resource.id z) :
    ∃ share', s'.tables.shares.lookup id = some share' ∧ share'.revokedAt.isSome := by
  have same (h : s.tables.db.entries.lookup z = some e) : False := by
    cases hz.symm.trans h
    simp [active] at trashed
  cases stepped h
  case refused   => exact (same hz').elim
  case opened    => exact (same hz').elim
  case dropped   => exact (same hz').elim
  case executed  => exact (same hz').elim
  case committed i a ha done =>
    refine ⟨_, commit_share (k.knows ha) hs, ?_⟩
    have hz' : (s.viewOf a).entries.lookup z = some e := hz'
    have below : Ancestor (parentOf (s.viewOf a).entries) share.resource.id z := below
    rw [lookup_viewOf] at hz'
    cases hw : a.call.changes.entries.lookup z
    case none   => rw [hw] at hz'; exact (same hz').elim
    case some o =>
      rw [hw, Option.getD_some] at hz'
      subst hz'
      cases k.knows ha
      case creating changes _ _ => simp [changes] at hw
      case placing rows _ _     =>
        obtain ⟨e', g, he, -, -, hd, -⟩ := rows z _ hw
        cases he
        simp [hd] at trashed
      case trashing todo ops steps rows swept covered _ =>
        obtain ⟨e', g, he, hg, hgo, -, -⟩ := rows z _ hw
        cases he
        cases hg.symm.trans hz
        obtain ⟨m, hm, rfl⟩ | ⟨now, hm⟩ := swept z _ hw
        case inr => simp [done] at hm
        case inl =>
          rw [sees.parentOf rows] at below
          by_cases hr : share.revokedAt = none
          case neg => exact (revoke_eq a _ _).2.2.2 (Option.isSome_iff_ne_none.mpr hr)
          case pos =>
            exact revoked_of_mem hm
              ((covered m hm).shares hs (owner.trans hgo) hr kind below)

theorem trash_revokes {tables : Tables} {s'' : System} {z id : Id} {f e : Entry} {share : Share}
    (linked : Linked tables.db.entries)
    (run : Execution.Steps System.step Calm { tables } s) (calm : Calm s l)
    (h : s.step l = some s') (later : Execution.Steps System.step Calm s' s'')
    (hz : s.tables.db.entries.lookup z = some f) (active : f.deletedAt = none)
    (hz' : s'.tables.db.entries.lookup z = some e) (trashed : e.deletedAt.isSome)
    (hs : s.tables.shares.lookup id = some share) (owner : share.ownerId = f.ownerId)
    (kind : share.resource.type ≠ .album)
    (below : Ancestor (parentOf s'.tables.db.entries) share.resource.id z) :
    ∃ share', s''.tables.shares.lookup id = some share' ∧ share'.revokedAt.isSome := by
  have start : Kept { tables } := ⟨fun _ h => by simp at h, linked, fun h => by simp at h⟩
  have kept : Kept s := run.invariant start Kept.step
  have revoked := kept.trashed h hz active hz' trashed hs owner kind below
  have still := later.invariant (I := fun t => Kept t ∧
      ∃ share', t.tables.shares.lookup id = some share' ∧ share'.revokedAt.isSome)
    ⟨kept.step calm h, revoked⟩ fun {t l t'} ht calm hstep => by
      obtain ⟨kt, share', hs', hr'⟩ := ht
      exact ⟨kt.step calm hstep, kt.revoked hstep hs' hr'⟩
  exact still.right

end

end MyDrive.Shares.Trash

namespace MyDrive.Shares.Trash

section

open Drive

attribute [local instance] Collation.binary

def folderA : Entry :=
  { ownerId := 7, parentId := none, kind := .folder, name := "a" }

def shareOfFile : Share :=
  { ownerId := 7, resource := ⟨.file, 2⟩, token := 5 }

-- The file 2 is in the folder 1.
def fileInA : Tables where
  db := {
    entries := (Table.empty.set 1 folderA).set 2
      { ownerId := 7, parentId := some 1, kind := .file, name := "b.png" }
    index   := .empty }

theorem fileInA_linked : Linked fileInA.db.entries :=
  linked_of_all (by decide)

-- The trash request has swept the shares of the folder when the file is shared.
def sharedAfterSweep : List Label :=
  [.start 0 7 (.trash 1 3), .exec 0, .exec 0, .exec 0, .exec 0,
   .start 1 7 (.createShare 9 shareOfFile), .exec 1, .exec 1, .exec 1, .commit 1]

def restoreA : List Label :=
  [.start 2 7 (.restore 1), .exec 2, .exec 2, .commit 2]

theorem trash_misses_share :
    ∃ s s' s'' e, Execution.Reaches System.step { tables := fileInA } s ∧
      s.step (.commit 0) = some s' ∧ Execution.Reaches System.step s' s'' ∧
      s.tables.shares.lookup 9 = some shareOfFile ∧
      s.tables.db.entries.lookup 1 = some folderA ∧
      s'.tables.db.entries.lookup 1 = some e ∧ e.deletedAt = some 3 ∧
      parentOf s'.tables.db.entries 2 = some 1 ∧
      s''.tables.db.entries.lookup 1 = some folderA ∧
      s''.tables.shares.lookup 9 = some shareOfFile ∧ shareOfFile.revokedAt = none := by
  have run : ((Execution.run System.step { tables := fileInA } sharedAfterSweep).bind fun s =>
      (s.step (.commit 0)).bind fun s' => (Execution.run System.step s' restoreA).map fun s'' =>
        ((s.tables.shares.lookup 9, s.tables.db.entries.lookup 1),
          (s'.tables.db.entries.lookup 1, parentOf s'.tables.db.entries 2),
          (s''.tables.db.entries.lookup 1, s''.tables.shares.lookup 9))) =
      some ((some shareOfFile, some folderA), (some { folderA with deletedAt := some 3 }, some 1),
        (some folderA, some shareOfFile)) := by
    decide +kernel
  obtain ⟨s, hs, h⟩ := Option.bind_eq_some_iff.mp run
  obtain ⟨s', hs', h⟩ := Option.bind_eq_some_iff.mp h
  obtain ⟨s'', hs'', he⟩ := Option.map_eq_some_iff.mp h
  simp only [Prod.mk.injEq] at he
  obtain ⟨⟨h₁, h₂⟩, ⟨h₃, h₄⟩, h₅, h₆⟩ := he
  exact ⟨s, s', s'', _, Execution.reaches_of_run hs, hs', Execution.reaches_of_run hs'', h₁, h₂, h₃,
    rfl, h₄, h₅, h₆, rfl⟩

-- Neither creates a share nor moves an entry.
def stays (s : System) : Label → Bool
  | .commit i => (s.sessions.lookup i).all fun a => a.created.isNone &&
    a.call.changes.entries.rows.all fun r => r.2.all fun e =>
      (s.tables.db.entries.lookup r.1).all fun f => e.parentId = f.parentId
  | _         => true

theorem calm_of_stays {s : System} {l : Label} (h : stays s l) : Calm s l := by
  rintro i a rfl ha j b m - -
  simp only [stays, ha, Option.all_some, Bool.and_eq_true, Option.isNone_iff_eq_none,
    List.all_eq_true] at h
  refine ⟨fun hc => ?_, fun {x e f} hx hf hne => ?_⟩
  case refine_1 => cases h.left.symm.trans hc
  case refine_2 =>
    have := h.right _ (Table.lookup_eq_some_iff.mp hx)
    simp [hf, hne] at this

def sharedFileInA : Tables :=
  { fileInA with shares := Table.empty.set 9 shareOfFile }

theorem sharedFileInA_linked : Linked sharedFileInA.db.entries :=
  fileInA_linked

theorem trash_revokes_file :
    ∃ s'' share, Execution.Reaches System.step { tables := sharedFileInA } s'' ∧
      s''.tables.shares.lookup 9 = some share ∧ share.revokedAt.isSome := by
  have run : ((Execution.run (fun s l => if stays s l then System.step s l else none)
      { tables := sharedFileInA }
      [.start 0 7 (.trash 1 3), .exec 0, .exec 0, .exec 0, .exec 0]).bind fun s =>
      (if stays s (.commit 0) then s.step (.commit 0) else none).bind fun s' =>
      (Execution.run (fun s l => if stays s l then System.step s l else none) s' restoreA).map
        fun _ => ((s.tables.shares.lookup 9, s.tables.db.entries.lookup 1),
          (s'.tables.db.entries.lookup 1, parentOf s'.tables.db.entries 2))) =
      some ((some shareOfFile, some folderA),
        (some { folderA with deletedAt := some 3 }, some 1)) := by
    decide +kernel
  obtain ⟨s, hs, h⟩ := Option.bind_eq_some_iff.mp run
  obtain ⟨s', hs', h⟩ := Option.bind_eq_some_iff.mp h
  obtain ⟨s'', hs'', he⟩ := Option.map_eq_some_iff.mp h
  simp only [Prod.mk.injEq] at he
  obtain ⟨⟨h₁, h₂⟩, h₃, h₄⟩ := he
  split at hs'
  case isFalse     => cases hs'
  case isTrue calm =>
    have first : Execution.Steps System.step Calm { tables := sharedFileInA } s :=
      Execution.steps_of_run (fun _ _ => calm_of_stays) hs
    have later : Execution.Steps System.step Calm s' s'' :=
      Execution.steps_of_run (fun _ _ => calm_of_stays) hs''
    have below : Ancestor (parentOf s'.tables.db.entries) shareOfFile.resource.id 1 :=
      .head h₄ (.refl 1)
    have kind : shareOfFile.resource.type ≠ .album := by decide
    obtain ⟨share, hshare, revoked⟩ := trash_revokes sharedFileInA_linked first (calm_of_stays calm)
      hs' later h₂ rfl h₃ rfl h₁ rfl kind below
    refine ⟨s'', share, ?_, hshare, revoked⟩
    have all {t t' : System} (h : Execution.Steps System.step Calm t t') :
        Execution.Reaches System.step t t' := h.mono fun _ _ _ => trivial
    exact (Execution.Steps.tail (all first) trivial hs').trans (all later)

end

end MyDrive.Shares.Trash
