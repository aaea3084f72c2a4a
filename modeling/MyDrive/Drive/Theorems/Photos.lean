import MyDrive.Drive.Photos
import MyDrive.Drive.Theorems.Concurrent

namespace MyDrive.Drive.Photos

-- The active system folder of an account.
def Role (e : Entry) : Prop :=
  e.systemRole = some .photos ∧ e.deletedAt = none

def target : Write → Id
  | .insert id _ _ _    => id
  | .updateName id _    => id
  | .updateParent id _  => id
  | .setDeletedAt id _  => id
  | .clearDeletedAt id  => id
  | .delete id          => id

-- The entries whose `ensure_mutable_entry` lies behind and whose `UPDATE` still lies ahead.
def passed : List Op → List Id
  | []                      => []
  | .ensureMutable id :: ops => (passed ops).filter (· ≠ id)
  | .write w :: ops          => target w :: passed ops
  | _ :: ops                 => passed ops

-- The operations of the requests that rename, move and trash.
def simple : Op → Bool
  | .ensureActive _ _ | .ensureMutable _ | .ensureNotContained _ _ => true
  | .write (.updateName _ _) | .write (.updateParent _ _) | .write (.setDeletedAt _ _) => true
  | _ => false

section

variable {todo : List Op} {ids : List Id} {parent : Option Id} {owner : Id}

theorem passed_append_of_nil {ops : List Op} (h : passed ops = []) :
    passed (todo ++ ops) = passed todo := by
  induction todo
  case nil => exact h
  case cons op todo ih =>
    cases op <;> simp only [List.cons_append, passed, ih]

theorem passed_ensureParentOps : passed (ensureParentOps parent) = [] := by
  cases parent <;> rfl

theorem passed_moveOps {id : Id} :
    passed (Op.ensureMutable id :: moveOps id parent) = [] := by
  cases parent <;> simp [moveOps, passed, target]

theorem passed_append {ops : List Op} (h : passed todo = []) : passed ops = [] →
    passed (todo ++ ops) = [] := fun h' => (passed_append_of_nil h').trans h

theorem passed_flatMap {ops : Id → List Op} (h : ∀ id, passed (ops id) = []) :
    passed (ids.flatMap ops) = [] := by
  induction ids
  case nil => rfl
  case cons id ids ih => exact passed_append (h id) ih

-- At the start every `UPDATE` of an entry is preceded by its check.
structure Guarded (todo : List Op) : Prop where
  passed : passed todo = []
  simple : ∀ op ∈ todo, simple op

theorem Guarded.append {ops : List Op} (h : Guarded todo) (h' : Guarded ops) :
    Guarded (todo ++ ops) where
  passed := passed_append h.passed h'.passed
  simple := List.forall_mem_append.mpr ⟨h.simple, h'.simple⟩

theorem guarded_ensureParentOps : Guarded (ensureParentOps parent) where
  passed := passed_ensureParentOps
  simple := by cases parent <;> simp [ensureParentOps, Photos.simple]

theorem guarded_moveOps {id : Id} : Guarded (.ensureMutable id :: moveOps id parent) where
  passed := passed_moveOps
  simple := by cases parent <;> simp [moveOps, Photos.simple]

theorem guarded_batchOps {ops : Id → List Op} (h : batchOps ids ops = .ok todo)
    (ho : ∀ id, Guarded (ops id)) : Guarded todo := by
  unfold batchOps at h
  split at h <;> cases h
  refine ⟨passed_flatMap fun id => (ho id).passed, fun op hm => ?_⟩
  obtain ⟨id, -, hm⟩ := List.mem_flatMap.mp hm
  exact (ho id).simple op hm

theorem guarded_batchIntoOps {ops : Id → List Op} (h : batchIntoOps ids parent ops = .ok todo)
    (ho : ∀ id, Guarded (ops id)) : Guarded todo := by
  unfold batchIntoOps at h
  split at h <;> try contradiction
  obtain ⟨todo', hb, rfl⟩ := Except.map_eq_ok_iff.mp h
  exact guarded_ensureParentOps.append (guarded_batchOps hb ho)

theorem session_cases {r : Request} {a : Session} (h : r.session owner = .ok a) :
    a.call.changes = {} ∧ a.call.shared = [] ∧ a.call.locked = [] ∧
      (a.task = some .find ∧ a.call.todo = [] ∨ a.task = none ∧ Guarded a.call.todo) := by
  have ops {r : Drive.Request} (h : Request.session.ops owner r = .ok a)
      (hg : ∀ todo, r.ops = .ok todo → Guarded todo) :
      a.call.changes = {} ∧ a.call.shared = [] ∧ a.call.locked = [] ∧
        (a.task = some .find ∧ a.call.todo = [] ∨ a.task = none ∧ Guarded a.call.todo) := by
    obtain ⟨todo, ht, rfl⟩ := Except.map_eq_ok_iff.mp h
    exact ⟨rfl, rfl, rfl, .inr ⟨rfl, hg todo ht⟩⟩
  cases r
  case ensurePhotosFolder => cases h; exact ⟨rfl, rfl, rfl, .inl ⟨rfl, rfl⟩⟩
  case rename id name     =>
    refine ops h fun todo ht => ?_
    obtain ⟨name', -, rfl⟩ := Except.map_eq_ok_iff.mp ht
    exact ⟨by simp [passed, target], by simp [simple]⟩
  case trash id now       =>
    refine ops h fun todo ht => ?_
    cases ht
    exact ⟨by simp [passed, target], by simp [simple]⟩
  case move id parent     =>
    refine ops h fun todo ht => ?_
    cases ht
    have checks : Guarded [.ensureActive id false] := ⟨rfl, by simp [simple]⟩
    have move : Guarded (.ensureMutable id :: (ensureParentOps parent ++ moveOps id parent)) := by
      cases parent <;>
        exact ⟨by simp [ensureParentOps, moveOps, passed, target],
          by simp [ensureParentOps, moveOps, simple]⟩
    exact checks.append move
  case batchMove ids parent => exact ops h fun todo ht => guarded_batchIntoOps ht fun _ => guarded_moveOps
  case batchTrash ids now   =>
    refine ops h fun todo ht => guarded_batchOps ht fun id => ?_
    exact ⟨by simp [passed, target], by simp [simple]⟩

end

-- What a session may write: rows without a role, or one new system folder.
structure Placed (entries : Table Id Entry) (a : Session) (x : Id) (e : Entry) : Prop where
  task  : a.task.isSome
  role  : Role e
  place : e.kind = .folder ∧ e.parentId = none
  alone : ∀ z f, z ≠ x → entries.lookup z = some f → Role f → f.ownerId ≠ e.ownerId
  only  : ∀ z, z ≠ x → a.call.changes.entries.lookup z = none

structure Writes (entries : Table Id Entry) (a : Session) : Prop where
  row {x o} : a.call.changes.entries.lookup x = some o →
    (∀ f, entries.lookup x = some f → f.systemRole = none) ∧
    ∃ e, o = some e ∧ (e.systemRole = none ∨ Placed entries a x e)

-- What a session knows about the committed rows between two of its statements.
inductive Knows (entries : Table Id Entry) (a : Session) : Prop
  | request (task : a.task = none) (ops : ∀ op ∈ a.call.todo, simple op)
    (checked : ∀ x ∈ passed a.call.todo, ∀ e, entries.lookup x = some e → e.systemRole = none)
    (written : ∀ x o, a.call.changes.entries.lookup x = some o →
      (∀ f, entries.lookup x = some f → f.systemRole = none) ∧ ∃ e, o = some e ∧ e.systemRole = none)
  | idle (task : a.task.isSome) (unmarked : ∀ id, a.task ≠ some (.mark id))
    (todo : a.call.todo = []) (changes : a.call.changes = {})
  | marking {id e} (task : a.task = some (.mark id)) (todo : a.call.todo = [])
    (changes : a.call.changes = {}) (locked : id ∈ a.call.locked)
    (row : entries.lookup id = some e) (place : e.kind = .folder ∧ e.parentId = none)
  | placed {x e} (task : a.task = some .done) (todo : a.call.todo = [])
    (row : a.call.changes.entries.lookup x = some (some e))
    (before : ∀ f, entries.lookup x = some f → f.systemRole = none) (placed : Placed entries a x e)

section

variable {entries entries' : Table Id Entry} {a a' b : Session} {x y : Id} {e f : Entry}

theorem Knows.writes (k : Knows entries a) : Writes entries a where
  row {x o} h := by
    cases k
    case request written =>
      obtain ⟨before, e, rfl, he⟩ := written x o h
      exact ⟨before, e, rfl, .inl he⟩
    case idle changes          => simp [changes] at h
    case marking changes _ _ _ => simp [changes] at h
    case placed z e task todo row before placed =>
      have hx : x = z := by
        by_contra hn
        cases (placed.only x hn).symm.trans h
      subst hx
      cases row.symm.trans h
      exact ⟨before, e, rfl, .inr placed⟩

theorem unwritten_of_compatible [Collation] (h : a.compatible b)
    (hx : b.call.changes.entries.lookup x ≠ none) : a.call.changes.entries.lookup x = none := by
  simp only [Session.compatible, Bool.and_eq_true] at h
  exact Call.compatible_entries (Call.compatible.symm h.left.left) hx

theorem unwritten_of_locked [Collation] (h : a.compatible b) (hx : x ∈ b.call.locked) :
    a.call.changes.entries.lookup x = none := by
  simp only [Session.compatible, Call.compatible, Call.compatible.apart, Bool.and_eq_true,
    List.all_eq_true] at h
  by_contra hn
  obtain ⟨o, ho⟩ := Option.ne_none_iff_exists'.mp hn
  have := h.left.left.left.left.left.left x (Table.mem_keys_iff.mpr ⟨o, ho⟩)
  simp_all

-- The unique index `drive_entries_one_system_role`.
theorem violatesUnique_of_role [Collation] (hx : x ≠ y) (hy : entries.lookup y = some f)
    (he : Role e) (hf : Role f) (ho : f.ownerId = e.ownerId) : violatesUnique entries x e = true := by
  simp only [violatesUnique, he.right, Option.isNone_none, Bool.true_and, Table.any_iff]
  exact ⟨y, f, hy, by simp [hx.symm, hf.left, hf.right, he.left, ho]⟩

theorem not_both_role [Collation] (h : a.compatible b)
    (hx : a.call.changes.entries.lookup x = some (some e))
    (hy : b.call.changes.entries.lookup y = some (some f)) (he : Role e) (hf : Role f) :
    f.ownerId ≠ e.ownerId := by
  intro ho
  have hxy : x ≠ y := by
    rintro rfl
    cases (unwritten_of_compatible h (by simp [hy])).symm.trans hx
  simp only [Session.compatible, Session.compatible.distinct, Bool.and_eq_true,
    List.all_eq_true] at h
  have := h.left.right _ (Table.lookup_eq_some_iff.mp hx)
  have clash : violatesUnique (Table.empty.overlay b.call.changes.entries) x e = true :=
    violatesUnique_of_role hxy (by simp [hy]) he hf ho
  simp [clash] at this

-- What a session knows is still so when another one commits.
theorem Knows.committed [Collation] (k : Knows entries b) (w : Writes entries a)
    (apart : a.compatible b)
    (fenced : a.task.isSome → ∀ x, a.call.changes.entries.lookup x ≠ none → x ∉ passed b.call.todo)
    (new : ∀ x, entries'.lookup x =
      (a.call.changes.entries.lookup x).getD (entries.lookup x)) : Knows entries' b := by
  have own {x} (hx : b.call.changes.entries.lookup x ≠ none) :
      entries'.lookup x = entries.lookup x := by
    rw [new, unwritten_of_compatible apart hx]
    rfl
  cases k
  case idle task unmarked todo changes => exact .idle task unmarked todo changes
  case marking id e task todo changes locked row place =>
    refine .marking task todo changes locked ?_ place
    rw [new, unwritten_of_locked apart locked]
    exact row
  case request task ops checked written =>
    refine .request task ops (fun x hx e he => ?_) fun x o hx => ?_
    case refine_1 =>
      rw [new] at he
      cases hax : a.call.changes.entries.lookup x
      case none => rw [hax] at he; exact checked x hx e he
      case some o =>
        obtain ⟨-, f, rfl, hf | hf⟩ := w.row hax
        case inl => rw [hax] at he; cases he; exact hf
        case inr => exact absurd hx (fenced hf.task x (by simp [hax]))
    case refine_2 =>
      rw [own (by simp [hx])]
      exact written x o hx
  case placed x e task todo row before placed =>
    refine .placed task todo row (fun f hf => ?_) ⟨placed.task, placed.role, placed.place,
      fun z f hz hf hr => ?_, placed.only⟩
    case refine_1 =>
      rw [own (by simp [row])] at hf
      exact before f hf
    case refine_2 =>
      rw [new] at hf
      cases haz : a.call.changes.entries.lookup z
      case none => rw [haz] at hf; exact placed.alone z f hz hf hr
      case some o =>
        rw [haz, Option.getD_some] at hf
        subst hf
        exact (not_both_role apart haz row hr placed.role).symm

end

section

variable [Collation] {v v' : View} {entries : Table Id Entry} {a a' : Session} {op : Op}
  {todo : List Op} {owner id : Id}

-- What an `UPDATE` of one of these requests leaves of the row's role.
theorem simple_write {w : Write} (hs : simple (.write w)) (h : w.exec v owner = .ok v') :
    ∃ old new, v.entries.lookup (target w) = some old ∧ new.systemRole = old.systemRole ∧
      ∀ y, v'.changes.entries.lookup y =
        if y = target w then some (some new) else v.changes.entries.lookup y := by
  have wrote {old : Option Entry} {id : Id} {new : Entry} (y : Id) :
      (syncDriveEntryIndex (v.setEntry id new) old id new).changes.entries.lookup y =
        if y = id then some (some new) else v.changes.entries.lookup y := by
    simp
  cases w <;> simp only [simple, Bool.false_eq_true] at hs <;> simp only [Write.exec] at h
  case updateName id name   =>
    unfold updateName at h
    split at h <;> try contradiction
    case _ old ho =>
      obtain ⟨ho, -, -⟩ := activeRow_eq_some ho
      obtain ⟨-, rfl⟩ := updateEntry_ok h
      exact ⟨old, { old with name }, ho, rfl, wrote⟩
  case updateParent id p    =>
    unfold updateParent at h
    split at h <;> try contradiction
    case _ old ho =>
      obtain ⟨ho, -, -⟩ := activeRow_eq_some ho
      obtain ⟨-, rfl⟩ := updateEntry_ok h
      exact ⟨old, { old with parentId := p }, ho, rfl, wrote⟩
  case setDeletedAt id now  =>
    unfold setDeletedAt at h
    split at h <;> try contradiction
    case _ old ho =>
      obtain ⟨ho, -, -⟩ := activeRow_eq_some ho
      obtain ⟨-, rfl⟩ := updateEntry_ok h
      exact ⟨old, { old with deletedAt := some now }, ho, rfl, wrote⟩

omit [Collation] in
theorem ensureMutable_role (h : ensureMutableEntry v.entries owner id = .ok ()) :
    ∃ e, v.entries.lookup id = some e ∧ e.systemRole = none := by
  unfold ensureMutableEntry at h
  split at h <;> try contradiction
  case _ e he =>
    split at h <;> try contradiction
    case _ hr => exact ⟨e, (Option.filter_eq_some_iff.mp he).left, by simpa using hr⟩

omit [Collation] in
-- The row that a statement sees has no role if the committed one has none.
theorem seen_role {x : Id} {e : Entry}
    (written : ∀ x o, a.call.changes.entries.lookup x = some o →
      (∀ f, entries.lookup x = some f → f.systemRole = none) ∧ ∃ e, o = some e ∧ e.systemRole = none)
    (hv : ∀ x, v.entries.lookup x = (a.call.changes.entries.lookup x).getD (entries.lookup x))
    (h : ∀ f, entries.lookup x = some f → f.systemRole = none)
    (he : v.entries.lookup x = some e) : e.systemRole = none := by
  rw [hv] at he
  cases hax : a.call.changes.entries.lookup x
  case none   => rw [hax] at he; exact h e he
  case some o =>
    obtain ⟨-, f, rfl, hf⟩ := written x o hax
    rw [hax] at he
    cases he
    exact hf

theorem Knows.exec_request {c : Call} (task : a.task = none)
    (ops : ∀ o ∈ op :: todo, simple o)
    (checked : ∀ x ∈ passed (op :: todo), ∀ e, entries.lookup x = some e → e.systemRole = none)
    (written : ∀ x o, a.call.changes.entries.lookup x = some o →
      (∀ f, entries.lookup x = some f → f.systemRole = none) ∧ ∃ e, o = some e ∧ e.systemRole = none)
    (hc : v.changes = a.call.changes)
    (hv : ∀ x, v.entries.lookup x = (a.call.changes.entries.lookup x).getD (entries.lookup x))
    (h : op.exec v { a.call with todo } = .ok c) : Knows entries { a with call := c } := by
  obtain ⟨head, rest⟩ := List.forall_mem_cons.mp ops
  cases op <;> simp only [simple, Bool.false_eq_true] at head
  case ensureActive       => cases Call.check_ok h; exact .request task rest checked written
  case ensureNotContained =>
    simp only [Op.exec] at h
    split at h <;> cases h
    exact .request task rest checked written
  case ensureMutable id   =>
    simp only [Op.exec, Call.check] at h
    obtain ⟨u, hm, rfl⟩ := Except.map_eq_ok_iff.mp h
    refine .request task rest (fun x hx e he => ?_) written
    by_cases hxi : x = id
    case neg => exact checked x (by simp [passed, hx, hxi]) e he
    case pos =>
      subst hxi
      obtain ⟨g, hg, hr⟩ := ensureMutable_role hm
      rw [hv] at hg
      cases hax : a.call.changes.entries.lookup x
      case some o => exact (written x o hax).left e he
      case none   =>
        rw [hax] at hg
        cases he.symm.trans hg
        exact hr
  case write w =>
    simp only [Op.exec] at h
    obtain ⟨v', hw, rfl⟩ := Except.map_eq_ok_iff.mp h
    obtain ⟨old, new, ho, hn, he⟩ := simple_write head hw
    have before := checked (target w) (by simp [passed])
    refine .request task rest (fun x hx => checked x (by simp [passed, hx])) fun x o hx => ?_
    have hx : v'.changes.entries.lookup x = some o := hx
    rw [he] at hx
    split at hx
    case isFalse  => exact written x o (hc ▸ hx)
    case isTrue h =>
      cases hx
      exact ⟨h ▸ before, new, rfl, hn.trans (seen_role written hv before ho)⟩

theorem adoptable_eq_some (h : adoptable v owner = some id) :
    ∃ e, v.entries.lookup id = some e ∧ e.kind = .folder ∧ e.parentId = none := by
  obtain ⟨l₁, name, l₂, -, hn, -⟩ := List.findSome?_eq_some_iff.mp h
  have mem := List.min?_mem hn
  simp only [List.mem_map, List.mem_filter, Bool.and_eq_true, decide_eq_true_eq,
    Option.isNone_iff_eq_none] at mem
  obtain ⟨⟨x, e⟩, ⟨he, ⟨⟨⟨⟨-, hp⟩, hk⟩, -⟩, -⟩, -⟩, rfl⟩ := mem
  exact ⟨e, Table.lookup_eq_some_iff.mpr he, hk, hp⟩

omit [Collation] in
theorem Knows.retry (todo : a.call.todo = []) (h : a.retry = some a') :
    Knows entries a' := by
  unfold Session.retry at h
  split at h <;> cases h
  exact .idle rfl (by simp) todo rfl

theorem setSystemRole_ok (h : setSystemRole v owner id = .ok (some v')) :
    ∃ e, v.entries.lookup id = some e ∧ e.systemRole = none ∧ e.deletedAt = none ∧
      violatesUnique v.entries id { e with systemRole := some .photos } = false ∧
      ∀ y, v'.changes.entries.lookup y =
        if y = id then some (some { e with systemRole := some .photos })
        else v.changes.entries.lookup y := by
  unfold setSystemRole at h
  split at h
  case h_1      => cases h
  case h_2 e he =>
    obtain ⟨hr, hn⟩ := Option.filter_eq_some_iff.mp he
    obtain ⟨found, -, hd⟩ := activeRow_eq_some hr
    obtain ⟨w, hw, hv⟩ := Except.map_eq_ok_iff.mp h
    cases hv
    have unique := updateEntry_unique hw
    obtain ⟨-, rfl⟩ := updateEntry_ok hw
    refine ⟨e, found, by simpa using hn, hd, unique, fun y => ?_⟩
    rw [sync_changes_entries, View.lookup_setEntry_changes]

-- The first row that a transaction of `ensure_photos_folder` writes.
theorem Knows.place {x : Id} {e : Entry} (task : a.task = some .done) (todo : a.call.todo = [])
    (role : Role e) (place : e.kind = .folder ∧ e.parentId = none)
    (before : ∀ f, entries.lookup x = some f → f.systemRole = none)
    (unique : violatesUnique entries x e = false)
    (row : ∀ y, a.call.changes.entries.lookup y = if y = x then some (some e) else none) :
    Knows entries a := by
  refine .placed task todo (by simp [row]) before ⟨by simp [task], role, place, ?_, ?_⟩
  case refine_1 =>
    intro z f hz hf hr ho
    simp [violatesUnique_of_role (Ne.symm hz) hf role hr ho] at unique
  case refine_2 => intro z hz; simp [row, hz]

theorem Knows.run {t : Task} (k : Knows entries a) (task : a.task = some t)
    (hc : v.changes = a.call.changes)
    (hv : a.call.changes = {} → v.entries = entries)
    (h : a.run v t = some a') : Knows entries a' := by
  cases k
  case request no _ _ _ => cases no.symm.trans task
  case placed done _ _ _ _ =>
    cases done.symm.trans task
    cases h
  case marking id e mark todo changes locked row place =>
    cases mark.symm.trans task
    have hv := hv changes
    subst hv
    simp only [Session.run] at h
    split at h
    case h_1 => cases h
    case h_2 => exact .retry todo h
    case h_3 v' hm =>
      cases h
      obtain ⟨f, hf, hr, hd, unique, wrote⟩ := setSystemRole_ok hm
      cases hf.symm.trans row
      refine .place (e := { e with systemRole := some .photos }) rfl todo ⟨rfl, hd⟩ place
        (fun g hg => ?_) unique fun y => ?_
      case refine_1 => cases hg.symm.trans row; exact hr
      case refine_2 => rw [wrote, hc, changes]; rfl
  case idle some unmarked todo changes =>
    have hv := hv changes
    subst hv
    cases t <;> simp only [Session.run] at h
    case mark id    => exact absurd task (unmarked id)
    case done       => cases h
    case find       =>
      split at h <;> cases h
      exact .idle rfl (by simp) todo changes
    case findTx     =>
      split at h <;> cases h
      exact .idle rfl (by simp) todo changes
    case chooseName =>
      obtain ⟨name, -, rfl⟩ := Option.map_eq_some_iff.mp h
      exact .idle rfl (by simp) todo changes
    case adopt      =>
      split at h <;> cases h
      case h_1 id ha =>
        obtain ⟨e, he, place⟩ := adoptable_eq_some ha
        exact .marking rfl todo changes (by simp) he place
      case h_2 => exact .idle rfl (by simp) todo changes
    case insert name =>
      split at h
      case h_1            => cases h
      case h_2 id fresh _ =>
        split at h
        case h_1 => exact .retry (by exact todo) h
        case h_2 v' hi =>
          cases h
          have unique := insertEntry_unique hi
          obtain ⟨hid, -, rfl⟩ := insertEntry_ok hi
          refine .place rfl todo ⟨rfl, rfl⟩ ⟨rfl, rfl⟩ (fun g hg => ?_) unique fun y => ?_
          case refine_1 => cases hid.symm.trans hg
          case refine_2 =>
            rw [sync_changes_entries, View.lookup_setEntry_changes, hc, changes]
            rfl

theorem Knows.exec (k : Knows entries a) (hc : v.changes = a.call.changes)
    (hv : ∀ x, v.entries.lookup x = (a.call.changes.entries.lookup x).getD (entries.lookup x))
    (same : a.call.changes = {} → v.entries = entries) (h : a.exec v = some a') :
    Knows entries a' := by
  unfold Session.exec at h
  split at h
  case h_1 t task => exact k.run task hc same h
  case h_2 task   =>
    cases k
    case idle some _ _ _         => simp [task] at some
    case marking mark _ _ _ _ _  => cases mark.symm.trans task
    case placed done _ _ _ _     => cases done.symm.trans task
    case request ops checked written =>
      split at h
      case h_1 => cases h
      case h_2 op todo ht =>
        split at h <;> cases h
        case h_2 c hc' =>
          rw [ht] at ops checked
          exact exec_request task ops checked written hc hv hc'

end

section

variable {s s' : System} {l : Label}

-- No `ensure_photos_folder` commits its folder while another request is between its
-- `ensure_mutable_entry` for that folder and its `UPDATE`.
def Fenced (s : System) (l : Label) : Prop :=
  ∀ i a x, l = .commit i → s.sessions.lookup i = some a → a.task.isSome →
    a.call.changes.entries.lookup x ≠ none →
    ∀ j b, s.sessions.lookup j = some b → x ∉ passed b.call.todo

-- What the claim is about: the one system folder of an account, at its root.
structure OneFolder (entries : Table Id Entry) : Prop where
  one {x y e f} : entries.lookup x = some e → entries.lookup y = some f → Role e → Role f →
    e.ownerId = f.ownerId → x = y
  root {x e} : entries.lookup x = some e → Role e → e.kind = .folder ∧ e.parentId = none

structure Kept [Collation] (s : System) : Prop where
  compatible {i j a b} : i ≠ j → s.sessions.lookup i = some a → s.sessions.lookup j = some b →
    a.compatible b
  folder : OneFolder s.db.entries
  knows {i a} : s.sessions.lookup i = some a → Knows s.db.entries a

theorem lookup_viewOf {a : Session} {x : Id} : (s.viewOf a).entries.lookup x =
    (a.call.changes.entries.lookup x).getD (s.db.entries.lookup x) := by
  simp [View.entries, System.viewOf]

theorem viewOf_unchanged {a : Session} (h : a.call.changes = {}) :
    (s.viewOf a).entries = s.db.entries := by
  simp only [View.entries, System.viewOf, h]
  rfl

theorem Writes.kept {a : Session} {x : Id} {e : Entry} (w : Writes s.db.entries a)
    (he : s.db.entries.lookup x = some e) (hr : Role e) :
    (s.viewOf a).entries.lookup x = some e := by
  rw [lookup_viewOf]
  cases hx : a.call.changes.entries.lookup x
  case none   => exact he
  case some o =>
    obtain ⟨before, -⟩ := w.row hx
    cases (before e he).symm.trans hr.left

theorem Writes.cases {a : Session} {x : Id} {e : Entry} (w : Writes s.db.entries a)
    (he : (s.viewOf a).entries.lookup x = some e) (hr : Role e) :
    s.db.entries.lookup x = some e ∨ Placed s.db.entries a x e := by
  rw [lookup_viewOf] at he
  cases hx : a.call.changes.entries.lookup x
  case none   => rw [hx] at he; exact .inl he
  case some o =>
    obtain ⟨-, f, rfl, hf | hf⟩ := w.row hx
    case inl => rw [hx] at he; cases he; cases hf.symm.trans hr.left
    case inr => rw [hx] at he; cases he; exact .inr hf

theorem OneFolder.committed {a : Session} (o : OneFolder s.db.entries) (w : Writes s.db.entries a) :
    OneFolder (s.viewOf a).entries where
  one {x y e f} he hf hre hrf ho := by
    obtain hx | hx := w.cases he hre
    case inl =>
      obtain hy | hy := w.cases hf hrf
      case inl => exact o.one hx hy hre hrf ho
      case inr =>
        by_contra hn
        exact hy.alone x e hn hx hre ho
    case inr =>
      by_contra hn
      obtain hy | hy := w.cases hf hrf
      case inl => exact hx.alone y f (Ne.symm hn) hy hrf ho.symm
      case inr =>
        have unwritten := hx.only y (Ne.symm hn)
        rw [lookup_viewOf, unwritten] at hf
        exact hx.alone y f (Ne.symm hn) hf hrf ho.symm
  root {x e} he hr := by
    obtain hx | hx := w.cases he hr
    case inl => exact o.root hx hr
    case inr => exact hx.place

variable [Collation]

inductive Stepped (s : System) : Label → System → Prop
  | refused {i owner r} : Stepped s (.start i owner r) s
  | opened {i owner r a} (session : r.session owner = .ok a) :
    Stepped s (.start i owner r) { s with sessions := s.sessions.set i a }
  | dropped {l i} : Stepped s l { s with sessions := s.sessions.erase i }
  | executed {i a a'} (session : s.sessions.lookup i = some a)
    (exec : a.exec (s.viewOf a) = some a')
    (compatible : ∀ j b, j ≠ i → s.sessions.lookup j = some b → a'.compatible b) :
    Stepped s (.exec i) { s with sessions := s.sessions.set i a' }
  | missed {i a} (session : s.sessions.lookup i = some a) (task : a.task = some .adopt) :
    Stepped s (.miss i) { s with sessions := s.sessions.set i { a with task := some .chooseName } }
  | committed {i a} (session : s.sessions.lookup i = some a) :
    Stepped s (.commit i) { db := (s.viewOf a).commit, sessions := s.sessions.erase i }

theorem othersCompatible_iff {i : Id} {a : Session} : s.othersCompatible i a ↔
    ∀ j b, j ≠ i → s.sessions.lookup j = some b → a.compatible b := by
  simp only [System.othersCompatible, List.all_eq_true, Prod.forall, Table.mem_rows_erase,
    Table.lookup_eq_some_iff]
  exact ⟨fun h j b hj hb => h j b ⟨hj, hb⟩, fun h j b hb => h j b hb.left hb.right⟩

theorem stepped (h : s.step l = some s') : Stepped s l s' := by
  cases l <;> simp only [System.step] at h
  case start i owner r =>
    split at h <;> try contradiction
    split at h <;> cases h
    case h_1      => exact .refused
    case h_2 ha   => exact .opened ha
  case exec i =>
    split at h <;> try contradiction
    case h_2 a ha =>
      split at h <;> try contradiction
      split at h
      case h_1       => cases h; exact .dropped
      case h_2 a' he =>
        split at h <;> cases h
        case isTrue hc => exact .executed ha he (othersCompatible_iff.mp hc)
  case miss i =>
    split at h <;> try contradiction
    case h_2 a ha =>
      split at h <;> cases h
      case isTrue ht => exact .missed ha ht
  case commit i =>
    split at h <;> try contradiction
    case h_2 a ha =>
      split at h <;> cases h
      exact .committed ha
  case abort i =>
    split at h <;> cases h
    exact .dropped

theorem Session.compatible.symm {a b : Session} (h : a.compatible b) : b.compatible a := by
  simp only [Session.compatible, Bool.and_eq_true] at h ⊢
  exact ⟨⟨Call.compatible.symm h.left.left, h.right⟩, h.left.right⟩

theorem compatible_of_idle {a b : Session} (hc : a.call.changes = {}) (hs : a.call.shared = [])
    (hl : a.call.locked = []) : a.compatible b := by
  have free (e : Entry) (x : Id) :
      violatesUnique (Table.empty.overlay (Table.empty : Table Id (Option Entry))) x e = false := by
    simp only [violatesUnique, Bool.and_eq_false_imp]
    exact fun _ => rfl
  have rows : (Table.empty : Table Id (Option Entry)).rows = [] := rfl
  have calls : a.call.compatible b.call := Call.compatible.of_idle hc hs hl
  simp only [Session.compatible, Session.compatible.distinct, Bool.and_eq_true, calls, hc, rows,
    List.all_nil, List.all_eq_true, true_and]
  intro r _
  cases r.2 <;> simp [free]

namespace Kept

variable (k : Kept s)
include k

theorem set {i : Id} {a : Session}
    (compatible : ∀ j b, j ≠ i → s.sessions.lookup j = some b → a.compatible b)
    (knows : Knows s.db.entries a) : Kept { s with sessions := s.sessions.set i a } where
  folder := k.folder
  compatible {j m b c} hjm hj hm := by
    simp only [Table.lookup_set] at hj hm
    split at hj <;> split at hm
    case isTrue.isTrue h h'   => exact absurd (h.trans h'.symm) hjm
    case isTrue.isFalse hm'   => cases hj; exact compatible m c hm' hm
    case isFalse.isTrue hj' _ => cases hm; exact Session.compatible.symm (compatible j b hj' hj)
    case isFalse.isFalse      => exact k.compatible hjm hj hm
  knows {j b} hj := by
    rw [Table.lookup_set] at hj
    split at hj
    case isTrue  => cases hj; exact knows
    case isFalse => exact k.knows hj

theorem step (ok : Fenced s l) (h : s.step l = some s') : Kept s' := by
  cases stepped h
  case refused => exact k
  case opened i owner r a ha =>
    obtain ⟨hc, hs, hl, ⟨task, todo⟩ | ⟨task, guarded⟩⟩ := session_cases ha
    case inl =>
      refine k.set (fun _ _ _ _ => compatible_of_idle hc hs hl) ?_
      exact .idle (by simp [task]) (by simp [task]) todo hc
    case inr =>
      refine k.set (fun _ _ _ _ => compatible_of_idle hc hs hl) ?_
      exact .request task guarded.simple (by simp [guarded.passed]) (by simp [hc])
  case dropped i =>
    refine ⟨fun {j m b c} hjm hj hm => ?_, k.folder, fun {j b} hj => ?_⟩
    case refine_1 =>
      simp only [Table.lookup_erase] at hj hm
      split at hj <;> split at hm <;> try contradiction
      exact k.compatible hjm hj hm
    case refine_2 =>
      rw [Table.lookup_erase] at hj
      split at hj <;> try contradiction
      exact k.knows hj
  case executed i a a' ha he hc =>
    exact k.set hc ((k.knows ha).exec rfl (fun _ => lookup_viewOf) viewOf_unchanged he)
  case missed i a ha task =>
    have apart {j b} (hj : j ≠ i) (hb : s.sessions.lookup j = some b) : a.compatible b :=
      k.compatible hj.symm ha hb
    refine k.set (fun j b hj hb => apart hj hb) ?_
    cases k.knows ha
    case request no _ _ _       => cases no.symm.trans task
    case marking mark _ _ _ _ _ => cases mark.symm.trans task
    case placed done _ _ _ _    => cases done.symm.trans task
    case idle todo changes      => exact .idle rfl (by simp) todo changes
  case committed i a ha =>
    have writes := (k.knows ha).writes
    refine ⟨fun {j m b c} hjm hj hm => ?_, k.folder.committed writes, fun {j b} hj => ?_⟩
    case refine_1 =>
      simp only [Table.lookup_erase] at hj hm
      split at hj <;> split at hm <;> try contradiction
      exact k.compatible hjm hj hm
    case refine_2 =>
      rw [Table.lookup_erase] at hj
      split at hj <;> try contradiction
      case _ hji =>
        refine (k.knows hj).committed writes (k.compatible (Ne.symm hji) ha hj) ?_
          fun _ => lookup_viewOf
        exact fun task x hx => ok i a x rfl ha task hx j b hj

end Kept

theorem photos_folder_kept {db : Db} (init : OneFolder db.entries)
    (run : Execution.Steps System.step Fenced { db } s) :
    OneFolder s.db.entries ∧
    ∀ l s', s.step l = some s' → ∀ x e, s.db.entries.lookup x = some e → Role e →
      s'.db.entries.lookup x = some e := by
  have start : Kept { db } := ⟨fun _ h => by simp at h, init, fun h => by simp at h⟩
  have kept : Kept s := run.invariant start Kept.step
  refine ⟨kept.folder, fun l s' h x e he hr => ?_⟩
  cases stepped h
  case committed i a ha => exact (kept.knows ha).writes.kept he hr
  all_goals exact he

end

end MyDrive.Drive.Photos

namespace MyDrive.Drive.Photos

section

attribute [local instance] Collation.binary

-- An ordinary folder that `ensure_photos_folder` adopts, and another one beside it.
def ordinaryFolders : Db where
  entries := (Table.empty.set 1
    { ownerId := 7, parentId := none, kind := .folder, name := "photos" }).set 2
    { ownerId := 7, parentId := none, kind := .folder, name := "trip" }
  index := .empty

theorem ordinaryFolders_init : OneFolder ordinaryFolders.entries := by
  have none {x e} (h : ordinaryFolders.entries.lookup x = some e) : ¬Role e := by
    simp only [ordinaryFolders, Table.lookup_set] at h
    split at h
    case isTrue  => cases h; intro hr; cases hr.left
    case isFalse =>
      split at h
      case isTrue  => cases h; intro hr; cases hr.left
      case isFalse => cases h
  exact ⟨fun he _ hr => absurd hr (none he), fun he hr => absurd hr (none he)⟩

-- The move of the folder has passed its checks when the folder is adopted.
def adoptedDuringMove : List Label :=
  [.start 0 7 (.move 1 (some 2)), .exec 0, .exec 0, .exec 0,
   .start 1 7 (.ensurePhotosFolder []), .exec 1, .exec 1, .exec 1, .exec 1, .commit 1,
   .exec 0, .exec 0]

theorem photos_folder_moved :
    ∃ s s' e f, Execution.Reaches System.step { db := ordinaryFolders } s ∧
      s.step (.commit 0) = some s' ∧ s.db.entries.lookup 1 = some e ∧ Role e ∧
      s'.db.entries.lookup 1 = some f ∧ Role f ∧ f.parentId = some 2 := by
  have run : (Execution.run System.step { db := ordinaryFolders } adoptedDuringMove).bind
      (fun s => (s.step (.commit 0)).map fun s' =>
        (s.db.entries.lookup 1, s'.db.entries.lookup 1)) =
      some (some { ownerId := 7, parentId := none, kind := .folder, name := "photos",
                   systemRole := some .photos },
            some { ownerId := 7, parentId := some 2, kind := .folder, name := "photos",
                   systemRole := some .photos }) := by
    decide +kernel
  obtain ⟨s, hs, h⟩ := Option.bind_eq_some_iff.mp run
  obtain ⟨s', hs', he⟩ := Option.map_eq_some_iff.mp h
  obtain ⟨h₁, h₂⟩ := Prod.mk.inj he
  exact ⟨s, s', _, _, Execution.reaches_of_run hs, hs', h₁, ⟨rfl, rfl⟩, h₂, ⟨rfl, rfl⟩, rfl⟩

-- Commits only while no request is between a check and its `UPDATE`.
def alone (s : System) : Label → Bool
  | .commit _ => s.sessions.rows.all fun r => (passed r.2.call.todo).isEmpty
  | _         => true

theorem fenced_of_alone {s : System} {l : Label} (h : alone s l) : Fenced s l := by
  rintro i a x rfl - - - j b hb hx
  have := List.all_eq_true.mp h _ (Table.lookup_eq_some_iff.mp hb)
  simp [List.isEmpty_iff.mp this] at hx

theorem photos_folder_kept_adopted :
    ∃ s e, Execution.Steps System.step Fenced { db := ordinaryFolders } s ∧
      s.db.entries.lookup 1 = some e ∧ Role e ∧ OneFolder s.db.entries := by
  have run : (Execution.run (fun s l => if alone s l then System.step s l else none)
      { db := ordinaryFolders }
      [.start 1 7 (.ensurePhotosFolder []), .exec 1, .exec 1, .exec 1, .exec 1, .commit 1]).map
      (·.db.entries.lookup 1) =
      some (some { ownerId := 7, parentId := none, kind := .folder, name := "photos",
                   systemRole := some .photos }) := by
    decide +kernel
  obtain ⟨s, hs, h⟩ := Option.map_eq_some_iff.mp run
  have steps := Execution.steps_of_run (fun _ _ => fenced_of_alone) hs
  exact ⟨s, _, steps, h, ⟨rfl, rfl⟩, (photos_folder_kept ordinaryFolders_init steps).left⟩

end

end MyDrive.Drive.Photos
