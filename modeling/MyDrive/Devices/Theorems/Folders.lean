import MyDrive.Devices.Folders
import MyDrive.Drive.Theorems.Names
import MyDrive.Drive.Theorems.Statements

-- Calls of `ensure_folder` agree on the folders of a path, and create each of them once.

namespace MyDrive.Devices.Folders

open Drive Execution

-- The segments of a path are names that the table accepts.
section

variable {path : String} {names : List String} {segments : List (List Char)}

theorem btrim_eq_self {cs : List Char} (h : Normal cs) : btrim cs = cs := by
  have kept {cs : List Char} (h : ∀ c ∈ cs.head?, isWhitespace c = false) : cs.dropWhile (· = ' ') = cs := by
    cases cs
    case nil => rfl
    case cons c cs =>
      refine List.dropWhile_cons_of_neg (a := c) fun space => ?_
      cases of_decide_eq_true space
      exact absurd (h ' ' rfl) (by decide)
  rw [btrim, kept h.head, kept, List.reverse_reverse]
  rw [List.head?_reverse]
  exact h.last

theorem checkName_of_normal {name : String} (h : Normal name.toList) : checkName name := by
  have some := List.length_pos_iff.mpr h.ne_nil
  have dots : name ≠ "." ∧ name ≠ ".." := by
    constructor
    case left =>
      rintro rfl
      exact h.ne_dots.left rfl
    case right =>
      rintro rfl
      exact h.ne_dots.right rfl
  have allowed {c : Char} (hc : forbidden c = true) : c ∉ name.toList := fun mem =>
    Bool.false_ne_true ((h.allowed c mem).symm.trans hc)
  have slash : '/' ∉ name.toList := allowed rfl
  have backslash : '\\' ∉ name.toList := allowed rfl
  simp [checkName, btrim_eq_self h, Nat.succ_le_of_lt some, h.length, dots, slash, backslash]

theorem normal_pushSegments {pushed : List String} (h : pushSegments segments pushed = .ok names)
    (hp : ∀ name ∈ pushed, Normal name.toList) : ∀ name ∈ names, Normal name.toList := by
  induction segments generalizing pushed
  case nil =>
    cases h
    exact hp
  case cons segment rest ih =>
    rw [pushSegments] at h
    split at h
    case h_1 => contradiction
    case h_2 name hn =>
      split at h
      case isTrue => contradiction
      case isFalse =>
        refine ih h fun other mem => ?_
        rcases List.mem_append.mp mem with mem | mem
        case inl => exact hp other mem
        case inr =>
          cases List.mem_singleton.mp mem
          exact normal_of_normalizeName hn

theorem splitFolderPath_ok (h : splitFolderPath path = .ok names) :
    names ≠ [] ∧ ∀ name ∈ names, Normal name.toList := by
  simp only [splitFolderPath, Except.ite_throw_eq_ok_iff, Except.bind_eq_ok_iff] at h
  obtain ⟨-, pushed, hp, ne, he⟩ := h
  cases he
  exact ⟨by simpa using ne, normal_pushSegments hp (by simp)⟩

end

-- The row that a call has inserted and not committed.
def Call.Holds (c : Call) (id : Id) (new : Entry) : Prop :=
  c.task = .commit id ∧ c.changes.entries = Table.empty.set id (some new)

theorem Call.Holds.inj {c : Call} {id id' : Id} {e f : Entry} (h : c.Holds id e)
    (h' : c.Holds id' f) : id = id' ∧ e = f := by
  cases h.left.symm.trans h'.left
  have := congrArg (Table.lookup · id) (h.right.symm.trans h'.right)
  simpa using this

section

variable [Collation]

variable {entries entries' : Table Id Entry} {owner id id' x : Id} {parent target target' : Option Id}
  {name : String} {names names' : List String} {e e' f new : Entry}

-- Walks down the folders.
section

theorem Named.congr (h : Named entries owner parent name id e) {name' : String}
    (hn : Collation.lower name = Collation.lower name') : Named entries owner parent name' id e :=
  { h with name := h.name.trans hn }

theorem Named.unique (hu : UniqueNames entries) (h : Named entries owner parent name id e)
    (h' : Named entries owner parent name id' e') : id = id' :=
  hu _ _ _ _ h.found h'.found h.active h'.active
    ⟨h.owner.trans h'.owner.symm, h.parent.trans h'.parent.symm, h.name.trans h'.name.symm⟩

theorem walk_append : Walk entries owner parent (names ++ names') target ↔
    ∃ folder, Walk entries owner parent names folder ∧ Walk entries owner folder names' target := by
  induction names generalizing parent
  case nil => simp [Walk]
  case cons name names ih =>
    simp only [List.cons_append, Walk, ih]
    constructor
    case mp =>
      rintro ⟨id, e, named, folder, between, first, rest⟩
      exact ⟨between, ⟨id, e, named, folder, first⟩, rest⟩
    case mpr =>
      rintro ⟨between, ⟨id, e, named, folder, first⟩, rest⟩
      exact ⟨id, e, named, folder, between, first, rest⟩

theorem Walk.unique (hu : UniqueNames entries) (h : Walk entries owner parent names target)
    (h' : Walk entries owner parent names' target')
    (hn : names.map Collation.lower = names'.map Collation.lower) : target = target' := by
  induction names generalizing parent names'
  case nil =>
    cases names'
    case nil  => exact h.symm.trans h'
    case cons => cases hn
  case cons name names ih =>
    cases names'
    case nil => cases hn
    case cons name' names' =>
      obtain ⟨id, e, named, -, rest⟩ := h
      obtain ⟨id', e', named', -, rest'⟩ := h'
      obtain ⟨first, hn⟩ := List.cons.inj hn
      cases named.unique hu (named'.congr first.symm)
      exact ih rest rest' hn

theorem Walk.folder (h : Walk entries owner none names (some id)) :
    ∃ e, entries.lookup id = some e ∧ e.kind = .folder ∧ e.ownerId = owner ∧ e.deletedAt = none := by
  rcases List.eq_nil_or_concat names with rfl | ⟨names, name, rfl⟩
  case inl => cases h
  case inr =>
    rw [List.concat_eq_append, walk_append] at h
    obtain ⟨parent, -, id', e, named, folder, last⟩ := h
    cases (last : some id' = some id)
    exact ⟨e, named.found, folder, named.owner, named.active⟩

end

-- What a query or an insertion finds.
section

theorem findChildFolder_eq_some (h : findChildFolder entries owner parent name = some id) :
    ∃ e, Named entries owner parent name id e ∧ e.kind = .folder := by
  obtain ⟨r, hr, rfl⟩ := Option.map_eq_some_iff.mp h
  have checked := List.find?_some hr
  simp only [Bool.and_eq_true, decide_eq_true_eq, Option.isNone_iff_eq_none] at checked
  obtain ⟨⟨⟨⟨owner, active⟩, folder⟩, parent⟩, same⟩ := checked
  exact ⟨r.2, ⟨Table.lookup_eq_some_iff.mpr (List.mem_of_find?_eq_some hr), owner, parent, active, same⟩, folder⟩

theorem findChildFolder_eq_none (h : findChildFolder entries owner parent name = none)
    (named : Named entries owner parent name id e) : e.kind = .file := by
  cases hk : e.kind
  case file => rfl
  case folder =>
    have := List.find?_eq_none.mp (Option.map_eq_none_iff.mp h) (id, e) (Table.lookup_eq_some_iff.mp named.found)
    simp [named.owner, named.active, named.parent, named.name, hk] at this

theorem violatesUnique_eq_false_iff (hn : new.deletedAt = none) (hr : new.systemRole = none) :
    violatesUnique entries id new = false ↔
      ∀ x f, entries.lookup x = some f → x ≠ id → f.deletedAt = none → ¬Clash f new := by
  rw [← Bool.not_eq_true, violatesUnique]
  simp only [hn, hr, Option.isNone_none, Option.isSome_none, Bool.true_and, Bool.false_and, Bool.or_false,
    Table.any_iff, Bool.and_eq_true, decide_eq_true_eq, Option.isNone_iff_eq_none, not_exists, not_and, Clash]
  grind

theorem insertRow_eq_ok {v v' : View} (h : insertRow v id new = .ok v') :
    v.entries.lookup id = none ∧ violatesUnique v.entries id new = false ∧
      v' = syncDriveEntryIndex (v.setEntry id new) none id new := by
  rw [insertRow] at h
  split at h
  case h_1 => contradiction
  case h_2 =>
    split at h
    case isTrue => contradiction
    case isFalse =>
      split at h
      case isTrue => contradiction
      case isFalse free =>
        simp only [Bool.or_eq_true, not_or, Bool.not_eq_true, Option.isSome_eq_false_iff,
          Option.isNone_iff_eq_none] at free
        exact ⟨free.left, free.right, (Except.ok.inj h).symm⟩

theorem named_of_unique {db : Db}
    (h : insertRow { base := db } id (newEntry owner parent .folder name) = .error .unique)
    (hf : db.entries.lookup id = none) : ∃ x e, Named db.entries owner parent name x e := by
  have clash : violatesUnique db.entries id (newEntry owner parent .folder name) ≠ false := by
    intro free
    have own : (View.entries { base := db }) = db.entries := rfl
    rw [insertRow, own, hf, free] at h
    split at h
    case h_1 => cases h
    case h_2 => split at h <;> cases h
  rw [ne_eq, violatesUnique_eq_false_iff rfl rfl] at clash
  push Not at clash
  obtain ⟨x, f, hx, -, active, owned, below, same⟩ := clash
  exact ⟨x, f, hx, owned, below, active, same⟩

-- The guard of the parents and the checks have nothing against a folder of a walk.
theorem insertRow_ne_check {db : Db} (hw : Walk db.entries owner none names parent) (hn : Normal name.toList)
    (hf : db.entries.lookup id = none) :
    insertRow { base := db } id (newEntry owner parent .folder name) ≠ .error .check := by
  have guarded : validateDriveEntryParent { base := db } id (newEntry owner parent .folder name) = .ok () := by
    rw [validateDriveEntryParent, newEntry]
    cases parent
    case none => rfl
    case some folder =>
      obtain ⟨e, he, kind, owned, active⟩ := hw.folder
      have found : (View.entries { base := db }).lookup folder = some e := by
        simp [View.entries, he]
      have apart :
          ((chain (View.entries { base := db }) (fun _ => true) folder).any fun r => r.1 = id) = false := by
        rw [List.any_eq_false]
        intro r hr same
        have := lookup_of_mem_chain hr
        simp [View.entries, of_decide_eq_true same, hf] at this
      simp [found, kind, owned, active, apart]
  rw [insertRow, guarded]
  have named : checkName (newEntry owner parent .folder name).name := checkName_of_normal hn
  simp only [named, Bool.not_true, Bool.false_eq_true, if_false]
  split <;> simp

end

theorem Clash.symm (h : Clash e f) : Clash f e :=
  ⟨h.left.symm, h.right.left.symm, h.right.right.symm⟩

-- A row that has been added to a table.
structure Adds (entries entries' : Table Id Entry) (id : Id) (new : Entry) : Prop where
  lookup : ∀ x, entries'.lookup x = if x = id then some new else entries.lookup x
  fresh  : entries.lookup id = none
  free   : ∀ x f, entries.lookup x = some f → f.deletedAt = none → ¬Clash f new

namespace Adds

variable (h : Adds entries entries' id new)
include h

theorem mono {x : Id} (hx : entries.lookup x = some f) : entries'.lookup x = some f := by
  rw [h.lookup, if_neg, hx]
  rintro rfl
  cases h.fresh.symm.trans hx

theorem unique (hu : UniqueNames entries) : UniqueNames entries' := by
  intro x e y f hx hy he hf clash
  rw [h.lookup] at hx hy
  split at hx <;> split at hy
  case isTrue.isTrue hx' hy' => exact hx'.trans hy'.symm
  case isTrue.isFalse =>
    cases hx
    exact absurd clash.symm (h.free y f hy hf)
  case isFalse.isTrue =>
    cases hy
    exact absurd clash (h.free x e hx he)
  case isFalse.isFalse => exact hu x e y f hx hy he hf clash

theorem named (hn : Named entries owner parent name x e) : Named entries' owner parent name x e :=
  { hn with found := h.mono hn.found }

theorem walk (hw : Walk entries owner parent names target) : Walk entries' owner parent names target := by
  induction names generalizing parent
  case nil => exact hw
  case cons name names ih =>
    obtain ⟨x, e, named, folder, rest⟩ := hw
    exact ⟨x, e, h.named named, folder, ih rest⟩

end Adds

theorem adds_sync {db : Db} {v : View} (hb : v.base = db)
    (hc : v.changes.entries = Table.empty.set id (some new)) (hf : db.entries.lookup id = none)
    (free : ∀ x f, db.entries.lookup x = some f → f.deletedAt = none → ¬Clash f new) :
    Adds db.entries v.commit.entries id new where
  lookup x := by
    rw [View.commit, View.entries, Table.lookup_overlay, hb, hc, Table.lookup_set]
    split <;> simp
  fresh := hf
  free  := free

-- What holds of calls and of answers in every state that is reached.

structure Call.Valid (entries : Table Id Entry) (c : Call) : Prop where
  walked  : ∃ done, splitFolderPath c.path = .ok (done ++ c.todo) ∧ Walk entries c.owner none done c.parent
  pending : ∀ id, c.task = .commit id → ∃ name rest, c.todo = name :: rest ∧
    c.Holds id (newEntry c.owner c.parent .folder name) ∧ entries.lookup id = none ∧
    ∀ x f, entries.lookup x = some f → f.deletedAt = none → ¬Clash f (newEntry c.owner c.parent .folder name)
  taken   : c.task = .findAgain → ∃ name rest x e, c.todo = name :: rest ∧
    Named entries c.owner c.parent name x e

structure Answer.Valid (entries : Table Id Entry) (a : Answer) : Prop where
  ok    : ∀ p x, splitFolderPath a.path = .ok p → a.result = .ok x → Walk entries a.owner none p (some x.1)
  error : ∀ p e, splitFolderPath a.path = .ok p → a.result = .error e → Blocked entries a.owner p

-- The invariant, as to the calls in `among`.
structure System.Valid (s : System) (among : Id → Prop) : Prop where
  unique  : UniqueNames s.db.entries
  calls   : ∀ i c, among i → s.calls.lookup i = some c → c.Valid s.db.entries
  apart   : ∀ i j c d x y e f, among i → among j → i ≠ j → s.calls.lookup i = some c →
    s.calls.lookup j = some d → c.Holds x e → d.Holds y f → x ≠ y ∧ ¬Clash e f
  answers : ∀ a ∈ s.answers, a.Valid s.db.entries
  once    : s.answers.Pairwise Answer.Once

def Outcome.Valid (s : System) (i owner : Id) (path : String) : Outcome → Prop
  | .go c         => c.Valid s.db.entries ∧ ∀ x e, c.Holds x e → ∀ j d y f, j ≠ i → s.calls.lookup j = some d →
    d.Holds y f → x ≠ y ∧ ¬Clash e f
  | .reply result =>
    Answer.Valid s.db.entries { owner, path, result } ∧ ∀ b ∈ s.answers, Answer.Once { owner, path, result } b

namespace System.Valid

variable {s : System} {i : Id} {path : String} {outcome : Outcome} {among : Id → Prop}

theorem mono (v : s.Valid fun _ => True) : s.Valid among :=
  { v with
    calls := fun i c _ => v.calls i c trivial
    apart := fun i j c d x y e f _ _ => v.apart i j c d x y e f trivial trivial }

theorem settle (v : s.Valid (· ≠ i)) (h : outcome.Valid s i owner path) :
    (s.settle i owner path outcome).Valid fun _ => True := by
  cases outcome
  case reply result =>
    obtain ⟨valid, once⟩ := h
    have others {j : Id} {c : Call} (hj : (s.calls.erase i).lookup j = some c) :
        j ≠ i ∧ s.calls.lookup j = some c := by
      rw [Table.lookup_erase] at hj
      split at hj
      case isTrue => cases hj
      case isFalse ne => exact ⟨ne, hj⟩
    exact {
      unique  := v.unique
      calls   := fun j c _ hj => v.calls j c (others hj).left (others hj).right
      apart   := fun j k c d x y e f _ _ ne hj hk => v.apart j k c d x y e f (others hj).left
        (others hk).left ne (others hj).right (others hk).right
      answers := List.forall_mem_cons.mpr ⟨valid, v.answers⟩
      once    := List.pairwise_cons.mpr ⟨once, v.once⟩ }
  case go c =>
    obtain ⟨valid, apart⟩ := h
    have others {j : Id} {d : Call} (ne : j ≠ i) (hj : (s.calls.set i c).lookup j = some d) :
        s.calls.lookup j = some d := by
      rwa [Table.lookup_set, if_neg ne] at hj
    have self {d : Call} (hi : (s.calls.set i c).lookup i = some d) : c = d := by
      rw [Table.lookup_set, if_pos rfl] at hi
      exact Option.some.inj hi
    refine { v with
      calls := fun j d _ hj => ?calls
      apart := fun j k d d' x y e f _ _ ne hj hk hd hd' => ?apart }
    case calls =>
      by_cases same : j = i
      case pos =>
        subst same
        exact self hj ▸ valid
      case neg => exact v.calls j d same (others same hj)
    case apart =>
      by_cases same : j = i
      case pos =>
        subst same
        cases self hj
        exact apart x e hd k d' y f ne.symm (others ne.symm hk) hd'
      case neg =>
        by_cases same' : k = i
        case pos =>
          subst same'
          cases self hk
          obtain ⟨ne, free⟩ := apart y f hd' j d x e same (others same hj) hd
          exact ⟨ne.symm, fun clash => free clash.symm⟩
        case neg => exact v.apart j k d d' x y e f same same' ne (others same hj) (others same' hk) hd hd'

end System.Valid

-- What an added row does to them.
section

variable {s : System} {among : Id → Prop} (h : Adds entries entries' id new)
include h

theorem Call.Valid.adds {c : Call} (v : c.Valid entries) (free : ∀ y f, c.Holds y f → y ≠ id ∧ ¬Clash new f) :
    c.Valid entries' where
  walked := by
    obtain ⟨done, split, walk⟩ := v.walked
    exact ⟨done, split, h.walk walk⟩
  pending y hy := by
    obtain ⟨name, rest, todo, holds, fresh, none⟩ := v.pending y hy
    obtain ⟨ne, apart⟩ := free y _ holds
    refine ⟨name, rest, todo, holds, ?_, fun x f hx hf => ?_⟩
    case refine_1 => rw [h.lookup, if_neg ne, fresh]
    case refine_2 =>
      rw [h.lookup] at hx
      split at hx
      case isTrue =>
        cases hx
        exact apart
      case isFalse => exact none x f hx hf
  taken ha := by
    obtain ⟨name, rest, x, e, todo, named⟩ := v.taken ha
    exact ⟨name, rest, x, e, todo, h.named named⟩

theorem Answer.Valid.adds {a : Answer} (v : a.Valid entries) : a.Valid entries' where
  ok p x hp hx := h.walk (v.ok p x hp hx)
  error p e hp he := by
    obtain ⟨before, name, after, parent, x, f, split, walk, named, file⟩ := v.error p e hp he
    exact ⟨before, name, after, parent, x, f, split, h.walk walk, h.named named, file⟩

end

theorem System.Valid.adds {s : System} {among : Id → Prop} {db : Db} (v : s.Valid among)
    (h : Adds s.db.entries db.entries id new)
    (free : ∀ j d y f, among j → s.calls.lookup j = some d → d.Holds y f → y ≠ id ∧ ¬Clash new f) :
    ({ s with db } : System).Valid among where
  unique        := h.unique v.unique
  calls i c a hc := (v.calls i c a hc).adds h (free i c · · a hc)
  apart         := v.apart
  answers a ha  := (v.answers a ha).adds h
  once          := v.once

-- What the outcomes of a query do.
section

variable {s : System} {i : Id} {c : Call}

theorem Walk.ne_nil (h : Walk entries owner none names target) (hn : names ≠ []) : ∃ id, target = some id := by
  rcases List.eq_nil_or_concat names with rfl | ⟨names, name, rfl⟩
  case inl => contradiction
  case inr =>
    rw [List.concat_eq_append, walk_append] at h
    obtain ⟨parent, -, id', e, -, -, last⟩ := h
    exact ⟨id', last.symm⟩

theorem valid_turn {done : List String} (split : splitFolderPath c.path = .ok (done ++ c.todo))
    (walk : Walk s.db.entries c.owner none done c.parent) (task : c.task = .find)
    (once : c.created → ∀ b ∈ s.answers, c.owner = b.owner → ∀ p, HasSegments c.path p → HasSegments b.path p →
      c.todo = [] → b.created = false) :
    c.turn.Valid s i c.owner c.path := by
  rw [Call.turn]
  split
  case h_1 =>
    refine ⟨⟨⟨done, split, walk⟩, ?_, ?_⟩, ?_⟩
    case refine_1 => simp [task]
    case refine_2 => simp [task]
    case refine_3 =>
      rintro x e ⟨commit, -⟩
      simp [task] at commit
  case h_2 id todo parent =>
    rw [todo, List.append_nil] at split
    refine ⟨⟨fun p x hp hx => ?_, fun p e _ he => by cases he⟩, fun b hb ho p hp hp' both => ?_⟩
    case refine_1 =>
      cases split.symm.trans hp
      cases hx
      rwa [parent] at walk
    case refine_2 =>
      have := once both.left b hb ho p hp hp' todo
      exact Bool.false_ne_true (this.symm.trans both.right)
  case h_3 todo parent =>
    rw [todo, List.append_nil] at split
    obtain ⟨id, some⟩ := walk.ne_nil (splitFolderPath_ok split).left
    cases parent.symm.trans some

theorem valid_returns {done rest : List String} {created : Bool} (todo : c.todo = name :: rest)
    (split : splitFolderPath c.path = .ok (done ++ c.todo))
    (walk : Walk s.db.entries c.owner none done c.parent)
    (named : Named s.db.entries c.owner c.parent name id e) (folder : e.kind = .folder)
    (once : created → ∀ b ∈ s.answers, c.owner = b.owner → ∀ p, HasSegments c.path p → HasSegments b.path p →
      rest = [] → b.created = false) :
    (c.returns id created).Valid s i c.owner c.path := by
  rw [Call.returns, todo, List.tail_cons]
  refine valid_turn (c := { c with parent := some id, created, todo := rest, task := .find, changes := {} })
    (?_ : splitFolderPath c.path = .ok ((done ++ [name]) ++ rest)) ?_ rfl once
  case refine_1 => simpa [todo] using split
  case refine_2 => exact walk_append.mpr ⟨c.parent, walk, id, e, named, folder, rfl⟩

-- An answer on the path has been given when there was a folder at it.
theorem not_created_of_free {done rest : List String} {b : Answer} (hb : b.Valid s.db.entries)
    (unique : UniqueNames s.db.entries)
    (split : splitFolderPath c.path = .ok (done ++ name :: rest)) (last : rest = [])
    (walk : Walk s.db.entries c.owner none done c.parent)
    (free : ∀ x f, s.db.entries.lookup x = some f → f.deletedAt = none →
      ¬Clash f (newEntry c.owner c.parent .folder name))
    (ho : c.owner = b.owner) {p : List String} (hp : HasSegments c.path p) (hp' : HasSegments b.path p) :
    b.created = false := by
  subst last
  obtain ⟨segments, hs, lowered⟩ := hp
  obtain ⟨segments', hs', lowered'⟩ := hp'
  cases split.symm.trans hs
  rw [← lowered', List.map_append] at lowered
  obtain ⟨before, after, rfl, hb', ha⟩ := List.map_eq_append_iff.mp lowered.symm
  obtain ⟨name', rfl, same⟩ := List.map_eq_singleton_iff.mp ha
  rw [← Bool.not_eq_true]
  intro created
  obtain ⟨x, hx, -⟩ := (Option.any_eq_true _ _).mp created
  have answer : b.result = .ok x := by
    cases hr : b.result
    case ok y    => rw [hr] at hx; cases hx; rfl
    case error y => rw [hr] at hx; cases hx
  obtain ⟨folder, walk', y, e, named, -, -⟩ := walk_append.mp (hb.ok _ x hs' answer)
  cases (ho ▸ walk).unique unique walk' hb'.symm
  exact free y e named.found named.active ⟨named.owner.trans ho.symm, named.parent, named.name.trans same⟩

end

namespace System.Valid

variable {s s' : System} {i fresh : Id} {c : Call}

theorem start (v : s.Valid fun _ => True) {path : String} (h : s.step (.start i owner path) = some s') :
    s'.Valid fun _ => True := by
  rw [step] at h
  split at h
  case isTrue => cases h
  case isFalse =>
    split at h
    case h_1 error split =>
      cases h
      refine v.mono.settle ⟨⟨fun p x hp => ?_, fun p e hp => ?_⟩, fun b _ _ _ _ _ both => ?_⟩
      case refine_1 => cases split.symm.trans hp
      case refine_2 => cases split.symm.trans hp
      case refine_3 => exact Bool.false_ne_true both.left
    case h_2 todo split =>
      cases h
      let c : Call := { owner, path, todo }
      have split : splitFolderPath c.path = .ok ([] ++ c.todo) := split
      have walk : Walk s.db.entries c.owner none [] c.parent := rfl
      exact v.mono.settle (valid_turn split walk rfl fun created => absurd created Bool.false_ne_true)

theorem abort (v : s.Valid fun _ => True) (h : s.step (.abort i) = some s') : s'.Valid fun _ => True := by
  rw [step] at h
  split at h
  case isFalse => cases h
  case isTrue =>
    cases h
    have others {j : Id} {c : Call} (hj : (s.calls.erase i).lookup j = some c) : s.calls.lookup j = some c := by
      rw [Table.lookup_erase] at hj
      split at hj
      case isTrue => cases hj
      case isFalse => exact hj
    exact { v with
      calls := fun j c _ hj => v.calls j c trivial (others hj)
      apart := fun j k c d x y e f _ _ ne hj hk =>
        v.apart j k c d x y e f trivial trivial ne (others hj) (others hk) }

theorem not_blocks_of_any {calls : Table Id Call} (h : (calls.any fun _ c => c.blocks id new) = false)
    (hc : calls.lookup i = some c) : c.blocks id new = false := by
  rw [← Bool.not_eq_true]
  exact fun blocks => Bool.false_ne_true (h.symm.trans (Table.any_iff.mpr ⟨i, c, hc, blocks⟩))

theorem apart_of_not_blocks (hn : new.deletedAt = none) (hr : new.systemRole = none)
    (free : c.blocks id new = false) (valid : c.Valid s.db.entries) (hc : c.Holds x f) :
    x ≠ id ∧ ¬Clash new f := by
  obtain ⟨name, rest, -, holds, -⟩ := valid.pending x hc.left
  have active : f.deletedAt = none := by
    rw [← (holds.inj hc).right]
    rfl
  rw [Call.blocks, Bool.or_eq_false_iff, hc.right, Table.lookup_set, violatesUnique_eq_false_iff hn hr] at free
  have ne : x ≠ id := by
    rintro rfl
    simp at free
  refine ⟨ne, fun clash => free.right x f ?_ ne active clash.symm⟩
  simp

theorem create (v : s.Valid fun _ => True) (h : s.step (.create id new) = some s') : s'.Valid fun _ => True := by
  rw [step] at h
  split at h
  case isTrue => cases h
  case isFalse free =>
    simp only [Bool.or_eq_true, not_or, Bool.not_eq_true, Option.isSome_eq_false_iff,
      Option.isNone_iff_eq_none] at free
    obtain ⟨⟨⟨fresh, active⟩, role⟩, apart⟩ := free
    split at h
    case h_1 => exact Option.some.inj h ▸ v
    case h_2 view inserted =>
      cases h
      obtain ⟨-, unique, rfl⟩ := insertRow_eq_ok inserted
      refine v.adds (adds_sync sync_base (by rw [sync_changes_entries]; rfl) fresh fun x f hx hf => ?_) ?_
      case refine_1 =>
        refine (violatesUnique_eq_false_iff active role).mp unique x f hx ?_ hf
        rintro rfl
        cases fresh.symm.trans hx
      case refine_2 =>
        rintro j d y f - hj hd
        refine apart_of_not_blocks active role ?_ (v.calls j d trivial hj) hd
        exact not_blocks_of_any apart hj

-- Each query of a call.
section

variable (v : s.Valid fun _ => True) (hc : s.calls.lookup i = some c) {rest : List String}
  (todo : c.todo = name :: rest)
include v hc todo

theorem run_find (task : c.task = .find) :
    (c.run s.db name fresh).1 = s.db ∧ (c.run s.db name fresh).2.Valid s i c.owner c.path := by
  rw [Call.run, task]
  have valid := v.calls i c trivial hc
  obtain ⟨done, split, walk⟩ := valid.walked
  dsimp only
  split
  case h_1 id found =>
    obtain ⟨e, named, folder⟩ := findChildFolder_eq_some found
    exact ⟨rfl, valid_returns todo split walk named folder fun created => absurd created Bool.false_ne_true⟩
  case h_2 =>
    refine ⟨rfl, ⟨valid.walked, ?_, ?_⟩, ?_⟩
    case refine_1 => simp
    case refine_2 => simp
    case refine_3 =>
      rintro x e ⟨commit, -⟩
      simp at commit

theorem run_findAgain (task : c.task = .findAgain) :
    (c.run s.db name fresh).1 = s.db ∧ (c.run s.db name fresh).2.Valid s i c.owner c.path := by
  rw [Call.run, task]
  have valid := v.calls i c trivial hc
  obtain ⟨done, split, walk⟩ := valid.walked
  dsimp only
  split
  case h_1 id found =>
    obtain ⟨e, named, folder⟩ := findChildFolder_eq_some found
    exact ⟨rfl, valid_returns todo split walk named folder fun created => absurd created Bool.false_ne_true⟩
  case h_2 none =>
    obtain ⟨name', rest', x, e, todo', named⟩ := valid.taken task
    cases todo.symm.trans todo'
    refine ⟨rfl, ⟨fun p x _ hx => (by cases hx), fun p e hp _ => ?_⟩, fun b _ _ _ _ _ both => ?_⟩
    case refine_1 =>
      cases split.symm.trans hp
      rw [todo]
      exact ⟨done, name, rest, c.parent, x, _, rfl, walk, named, findChildFolder_eq_none none named⟩
    case refine_2 => exact Bool.false_ne_true both.left

theorem run_insert (task : c.task = .insert) (hf : s.db.entries.lookup fresh = none)
    (free : s.waits i fresh (newEntry c.owner c.parent .folder name) = false) :
    (c.run s.db name fresh).1 = s.db ∧ (c.run s.db name fresh).2.Valid s i c.owner c.path := by
  rw [Call.run, task]
  have valid := v.calls i c trivial hc
  obtain ⟨done, split, walk⟩ := valid.walked
  dsimp only
  split
  case h_1 view inserted =>
    obtain ⟨-, unique, he⟩ := insertRow_eq_ok inserted
    have changes : view.changes.entries =
        Table.empty.set fresh (some (newEntry c.owner c.parent .folder name)) := by
      rw [he, sync_changes_entries]
      rfl
    have holds : Call.Holds { c with changes := view.changes, task := .commit fresh } fresh
        (newEntry c.owner c.parent .folder name) :=
      ⟨rfl, changes⟩
    refine ⟨rfl, ⟨⟨done, split, walk⟩, fun id hid => ?_, fun ha => by cases ha⟩,
      fun x e own j d y f ne hj hd => ?_⟩
    case refine_1 =>
      cases hid
      refine ⟨name, rest, todo, holds, hf, fun x f hx => ?_⟩
      refine (violatesUnique_eq_false_iff rfl rfl).mp unique x f hx ?_
      rintro rfl
      cases hf.symm.trans hx
    case refine_2 =>
      obtain ⟨rfl, rfl⟩ := holds.inj own
      have other : (s.calls.erase i).lookup j = some d := by
        rw [Table.lookup_erase, if_neg ne, hj]
      have clear := not_blocks_of_any free other
      obtain ⟨ne, free⟩ := apart_of_not_blocks rfl rfl clear (v.calls j d trivial hj) hd
      exact ⟨ne.symm, free⟩
  case h_2 unique =>
    obtain ⟨x, e, named⟩ := named_of_unique unique hf
    refine ⟨rfl, ⟨⟨done, split, walk⟩, ?_, ?_⟩, ?_⟩
    case refine_1 => simp
    case refine_2 => exact fun _ => ⟨name, rest, x, e, todo, named⟩
    case refine_3 =>
      rintro x e ⟨commit, -⟩
      simp at commit
  case h_3 check =>
    have normal := (splitFolderPath_ok split).right name (by simp [todo])
    exact absurd check (insertRow_ne_check walk normal hf)

theorem run_commit (task : c.task = .commit id) :
    ({ s with db := (c.run s.db name fresh).1 } : System).Valid (· ≠ i) ∧
      (c.run s.db name fresh).2.Valid { s with db := (c.run s.db name fresh).1 } i c.owner c.path := by
  rw [Call.run, task]
  have valid := v.calls i c trivial hc
  obtain ⟨done, split, walk⟩ := valid.walked
  obtain ⟨name', rest', todo', holds, hf, free⟩ := valid.pending id task
  cases todo.symm.trans todo'
  dsimp only
  have adds : Adds s.db.entries (({ base := s.db, changes := c.changes } : View).commit).entries id
      (newEntry c.owner c.parent .folder name) :=
    adds_sync rfl holds.right hf free
  have named : Named (({ base := s.db, changes := c.changes } : View).commit).entries c.owner c.parent name id
      (newEntry c.owner c.parent .folder name) := {
    found  := by rw [adds.lookup, if_pos rfl]
    owner  := rfl
    parent := rfl
    active := rfl
    name   := rfl }
  constructor
  case left =>
    refine v.mono.adds adds fun j d y f ne hj hd => ?_
    obtain ⟨ne, apart⟩ := v.apart i j c d id y _ f trivial trivial (Ne.symm ne) hc hj holds hd
    exact ⟨ne.symm, apart⟩
  case right =>
    rw [todo] at split
    refine valid_returns todo (todo ▸ split) (adds.walk walk) named rfl fun _ b hb ho p hp hp' last => ?_
    exact not_created_of_free (v.answers b hb) v.unique split last walk free ho hp hp'

end

theorem exec (v : s.Valid fun _ => True) (h : s.step (.exec i fresh) = some s') : s'.Valid fun _ => True := by
  rw [step] at h
  split at h
  case h_1 => cases h
  case h_2 c hc =>
    split at h
    case h_1 => cases h
    case h_2 name rest todo =>
      split at h
      case isTrue => cases h
      case isFalse ready =>
        rw [← Option.some.inj h]
        have stays {outcome : Db × Outcome} (h : outcome.1 = s.db ∧ outcome.2.Valid s i c.owner c.path) :
            (({ s with db := outcome.1 } : System).settle i c.owner c.path outcome.2).Valid fun _ => True := by
          rw [h.left]
          exact v.mono.settle h.right
        cases task : c.task
        case find => exact stays (v.run_find hc todo task)
        case findAgain => exact stays (v.run_findAgain hc todo task)
        case insert =>
          simp only [task, true_and, not_or, Bool.not_eq_true, Option.isSome_eq_false_iff,
            Option.isNone_iff_eq_none] at ready
          exact stays (v.run_insert hc todo task ready.left ready.right)
        case commit id =>
          obtain ⟨rest, outcome⟩ := @run_commit _ _ _ _ _ fresh _ v hc _ todo task
          exact rest.settle outcome

theorem step (v : s.Valid fun _ => True) {l : Label} (h : s.step l = some s') : s'.Valid fun _ => True := by
  cases l
  case start i owner path => exact v.start h
  case exec i fresh       => exact v.exec h
  case create id e        => exact v.create h
  case abort i            => exact v.abort h

end System.Valid

theorem ensureFolder_agrees {s₀ s : System} (hu : UniqueNames s₀.db.entries) (hc : s₀.calls = .empty)
    (ha : s₀.answers = []) (e : Reaches System.step s₀ s) :
    (∀ a ∈ s.answers, ∀ b ∈ s.answers, a.owner = b.owner → ∀ p, HasSegments a.path p → HasSegments b.path p →
      ∀ x y, a.result = .ok x → b.result = .ok y → x.1 = y.1) ∧
    (∀ a ∈ s.answers, ∀ p, splitFolderPath a.path = .ok p → ∀ x, a.result = .ok x →
      ∀ n, 0 < n → n ≤ p.length → ∃! id, Walk s.db.entries a.owner none (p.take n) (some id)) ∧
    s.answers.Pairwise Answer.Once ∧
    (∀ a ∈ s.answers, ∀ p, splitFolderPath a.path = .ok p → ∀ e, a.result = .error e →
      Blocked s.db.entries a.owner p) := by
  have initial : s₀.Valid fun _ => True := {
    unique  := hu
    calls   := by simp [hc]
    apart   := by simp [hc]
    answers := by simp [ha]
    once    := by simp [ha] }
  have v : s.Valid fun _ => True :=
    e.invariant (I := fun s => s.Valid fun _ => True) initial fun v _ h => v.step h
  refine ⟨?agree, ?prefixes, v.once, fun a ha p hp e he => (v.answers a ha).error p e hp he⟩
  case agree =>
    rintro a ha b hb ho p ⟨q, hq, rfl⟩ ⟨q', hq', same⟩ x y hx hy
    have first := (v.answers a ha).ok q x hq hx
    have second := (v.answers b hb).ok q' y hq' hy
    exact Option.some.inj (first.unique v.unique (ho ▸ second) same.symm)
  case prefixes =>
    intro a ha p hp x hx n some short
    have walk := (v.answers a ha).ok p x hp hx
    rw [← List.take_append_drop n p, walk_append] at walk
    obtain ⟨folder, walk, -⟩ := walk
    have nonempty : p.take n ≠ [] := by
      rw [ne_eq, ← List.length_eq_zero_iff, List.length_take]
      omega
    obtain ⟨id, rfl⟩ := walk.ne_nil nonempty
    exact ⟨id, walk, fun other walk' => Option.some.inj (walk'.unique v.unique walk rfl)⟩

end

abbrev asciiCollation : Collation where
  lower s := .ofList (s.toList.map Char.toLower)

-- The second call finds that the first has created the folder since it looked.
def race : List Label :=
  [.start 1 7 "Docs", .start 2 7 "docs/Work", .exec 1 0, .exec 2 0, .exec 1 10, .exec 1 0, .exec 2 11, .exec 2 0,
    .exec 2 0, .exec 2 12, .exec 2 0]

theorem ensureFolder_agrees_race : ∃ s,
    Reaches (@System.step asciiCollation) { db := { entries := .empty, index := .empty } } s ∧
      s.answers.map (fun a => (a.path, a.result.toOption)) =
        [("docs/Work", some (12, true)), ("Docs", some (10, true))] ∧
      s.answers.Pairwise (@Answer.Once asciiCollation) := by
  have answers : (run (@System.step asciiCollation) { db := { entries := .empty, index := .empty } } race).map
      (·.answers.map fun a => (a.path, a.result.toOption)) =
        some [("docs/Work", some (12, true)), ("Docs", some (10, true))] := by
    decide +kernel
  obtain ⟨s, ran, answers⟩ := Option.map_eq_some_iff.mp answers
  have reached := reaches_of_run ran
  have agrees := @ensureFolder_agrees asciiCollation _ s (by simp [UniqueNames]) rfl rfl reached
  exact ⟨s, reached, answers, agrees.right.right.left⟩

end MyDrive.Devices.Folders
