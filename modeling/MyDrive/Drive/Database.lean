import MyDrive.Library.Table

namespace MyDrive

abbrev Id := Nat

abbrev Time := Nat

-- The database's `lower`, which depends on the collation of the cluster.
class Collation where
  lower : String → String

-- A collation without case.
abbrev Collation.binary : Collation where
  lower s := s

namespace Drive

inductive Kind
  | file
  | folder
  deriving DecidableEq

inductive SystemRole
  | photos
  deriving DecidableEq

-- A row of `drive_entries`.
structure Entry where
  ownerId    : Id
  parentId   : Option Id
  kind       : Kind
  name       : String
  deletedAt  : Option Time := none
  systemRole : Option SystemRole := none
  deriving DecidableEq

-- The columns of `entry_index` that are derived from `drive_entries`.
structure IndexRow where
  ownerId   : Id
  parentId  : Option Id
  kind      : Kind
  name      : String
  deletedAt : Option Time
  buried    : Bool
  deriving DecidableEq

def Entry.indexRow (e : Entry) (buried : Bool) : IndexRow where
  ownerId   := e.ownerId
  parentId  := e.parentId
  kind      := e.kind
  name      := e.name
  deletedAt := e.deletedAt
  buried    := buried

structure Db where
  entries : Table Id Entry
  index   : Table Id IndexRow

inductive DriveError
  | badRequest
  | notFound
  | conflict
  | protectedEntry
  | database
  deriving DecidableEq

-- The rows written by an open transaction; `none` is a deleted row.
structure Changes where
  entries : Table Id (Option Entry) := .empty
  index   : Table Id (Option IndexRow) := .empty

-- What a statement of a transaction sees under READ COMMITTED: the committed rows, and on top of
-- them the rows that its own transaction has written.
structure View where
  base    : Db
  changes : Changes := {}

namespace View

def entries (v : View) : Table Id Entry :=
  v.base.entries.overlay v.changes.entries

def index (v : View) : Table Id IndexRow :=
  v.base.index.overlay v.changes.index

def setEntry (v : View) (id : Id) (e : Option Entry) : View :=
  { v with changes := { v.changes with entries := v.changes.entries.set id e } }

def setIndex (v : View) (id : Id) (r : Option IndexRow) : View :=
  { v with changes := { v.changes with index := v.changes.index.set id r } }

-- The database once the transaction has committed.
def commit (v : View) : Db where
  entries := v.entries
  index   := v.index

variable {v : View} {id x : Id} {e : Option Entry} {r : Option IndexRow}

@[simp]
theorem lookup_setEntry_changes :
    (v.setEntry id e).changes.entries.lookup x =
      if x = id then some e else v.changes.entries.lookup x := by
  simp [setEntry]

@[simp]
theorem lookup_setIndex_changes :
    (v.setIndex id r).changes.index.lookup x =
      if x = id then some r else v.changes.index.lookup x := by
  simp [setIndex]

@[simp]
theorem lookup_setEntry :
    (v.setEntry id e).entries.lookup x = if x = id then e else v.entries.lookup x := by
  simp only [entries, setEntry, Table.lookup_overlay, Table.lookup_set]
  split <;> simp

@[simp]
theorem lookup_setIndex :
    (v.setIndex id r).index.lookup x = if x = id then r else v.index.lookup x := by
  simp only [index, setIndex, Table.lookup_overlay, Table.lookup_set]
  split <;> simp

@[simp]
theorem setEntry_index : (v.setEntry id e).index = v.index :=
  rfl

@[simp]
theorem setIndex_entries : (v.setIndex id r).entries = v.entries :=
  rfl

-- `UPDATE entry_index` for the listed entries that have an index row.
def updateIndex (v : View) (f : Id → IndexRow → IndexRow) : List Id → View
  | []      => v
  | x :: xs =>
    match v.index.lookup x with
    | none   => v.updateIndex f xs
    | some r => (v.setIndex x (some (f x r))).updateIndex f xs

section

variable {f : Id → IndexRow → IndexRow} {xs : List Id}

@[simp]
theorem updateIndex_base : (v.updateIndex f xs).base = v.base := by
  induction xs generalizing v
  case nil => rfl
  case cons x xs ih =>
    simp only [updateIndex]
    split
    · exact ih
    · exact ih.trans rfl

@[simp]
theorem updateIndex_changes_entries :
    (v.updateIndex f xs).changes.entries = v.changes.entries := by
  induction xs generalizing v
  case nil => rfl
  case cons x xs ih =>
    simp only [updateIndex]
    split
    · exact ih
    · exact ih.trans rfl

@[simp]
theorem updateIndex_entries : (v.updateIndex f xs).entries = v.entries := by
  simp [entries]

theorem lookup_updateIndex_changes (hf : ∀ x r, f x (f x r) = f x r) :
    (v.updateIndex f xs).changes.index.lookup x =
      if x ∈ xs then (v.index.lookup x).elim (v.changes.index.lookup x) (some <| some <| f x ·)
      else v.changes.index.lookup x := by
  induction xs generalizing v
  case nil => simp [updateIndex]
  case cons y ys ih =>
    simp only [updateIndex]
    split
    case h_1 hy =>
      rw [ih]
      by_cases h : x = y
      case pos => subst h; simp [hy]
      case neg => simp [h]
    case h_2 r hy =>
      rw [ih]
      by_cases h : x = y
      case pos => subst h; simp [hy, hf]
      case neg => simp [h]

theorem lookup_updateIndex (hf : ∀ x r, f x (f x r) = f x r) :
    (v.updateIndex f xs).index.lookup x =
      if x ∈ xs then (v.index.lookup x).map (f x) else v.index.lookup x := by
  rw [index, Table.lookup_overlay, lookup_updateIndex_changes hf, updateIndex_base]
  split
  case isFalse => simp [index]
  case isTrue =>
    cases h : v.index.lookup x
    case some => rfl
    case none => simpa [index] using h

end
end View
end MyDrive.Drive
