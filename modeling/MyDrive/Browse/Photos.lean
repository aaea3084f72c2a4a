import Mathlib.Order.Lattice
import MyDrive.Drive.Names
import MyDrive.Index.Refresh

-- `list_photos` and its cursors.

namespace MyDrive.Browse

open Drive (rsplitOnce)
open Index (Category)

-- The texts of timestamps and of UUIDs, which other libraries write and parse.
class Rfc3339 (T : Type) where
  year             : T → Int
  toRfc3339        : T → List Char
  parseFromRfc3339 : List Char → Option T

class UuidText (I : Type) where
  display  : I → List Char
  parseStr : List Char → Option I

open Rfc3339

-- RFC 3339 has the years from 0 to 9999.
def Rfc3339.Documented (T : Type) [Rfc3339 T] : Prop :=
  ∀ t : T, 0 ≤ year t → year t ≤ 9999 → parseFromRfc3339 (toRfc3339 t) = some t

-- A UUID is written in hexadecimal digits and hyphens.
structure UuidText.Documented (I : Type) [UuidText I] : Prop where
  parse  : ∀ id : I, parseStr (display id) = some id
  digits : ∀ id : I, '|' ∉ display id

inductive LibraryError
  | badRequest
  | notFound
  | database
  deriving DecidableEq

def defaultPageSize : Nat := 60

def maxPageSize : Nat := 120

def pageLimit (limit : Option Nat) : Except LibraryError Nat := do
  let limit := limit.getD defaultPageSize
  if limit = 0 || maxPageSize < limit then throw .badRequest
  return limit

structure IndexRow (I T : Type) where
  ownerId   : I
  category  : Category
  createdAt : T
  deletedAt : Option T
  buried    : Bool

structure PhotoQuery where
  limit  : Option Nat
  cursor : Option (List Char)

structure PhotoPage (I T : Type) where
  items      : List (I × IndexRow I T)
  limit      : Nat
  nextCursor : Option (List Char)

variable {I T : Type}

section

variable [UuidText I] [Rfc3339 T]

def encodeCursor (createdAt : T) (id : I) : List Char :=
  toRfc3339 createdAt ++ '|' :: UuidText.display id

def parseCursor (value : List Char) : Except LibraryError (T × I) := do
  let some (stamp, id) := rsplitOnce '|' value | throw .badRequest
  let some createdAt := parseFromRfc3339 stamp | throw .badRequest
  let some id := UuidText.parseStr id | throw .badRequest
  return (createdAt, id)

end

variable [LinearOrder I] [LinearOrder T]

def isPhoto (user : I) (r : IndexRow I T) : Bool :=
  r.ownerId = user && r.deletedAt.isNone && !r.buried && (r.category = .image || r.category = .video)

-- `$2 IS NULL OR created_at < $2 OR (created_at = $2 AND entry_id < $3)`
def isBefore (cursor : Option (T × I)) (r : I × IndexRow I T) : Bool :=
  cursor.all fun c => r.2.createdAt < c.1 || (r.2.createdAt = c.1 && r.1 < c.2)

-- `ORDER BY created_at DESC, entry_id DESC`
def newestFirst (r r' : I × IndexRow I T) : Bool :=
  r'.2.createdAt < r.2.createdAt || (r'.2.createdAt = r.2.createdAt && r'.1 ≤ r.1)

variable [UuidText I] [Rfc3339 T]

def listPhotos (index : Table I (IndexRow I T)) (user : I) (query : PhotoQuery) :
    Except LibraryError (PhotoPage I T) := do
  let limit ← pageLimit query.limit
  let cursor ← query.cursor.mapM parseCursor
  let found := ((index.rows.filter fun r => isPhoto user r.2 && isBefore cursor r).mergeSort newestFirst).take
    (limit + 1)
  let items := found.take limit
  return {
    items
    limit
    nextCursor :=
      if limit < found.length then items.getLast?.map fun r => encodeCursor r.2.createdAt r.1 else none }

-- A client follows the cursors, while the index and the limits may be others for every page.
def photoPages (index : Nat → Table I (IndexRow I T)) (user : I) (limit : Nat → Option Nat) :
    Nat → Option (Except LibraryError (PhotoPage I T))
  | 0     => some (listPhotos (index 0) user ⟨limit 0, none⟩)
  | n + 1 =>
    match photoPages index user limit n with
    | some (.ok p) => p.nextCursor.map fun c => listPhotos (index (n + 1)) user ⟨limit (n + 1), some c⟩
    | _            => none

def pageItems : Option (Except LibraryError (PhotoPage I T)) → List (I × IndexRow I T)
  | some (.ok p) => p.items
  | _            => []

def shownPhotos (index : Nat → Table I (IndexRow I T)) (user : I) (limit : Nat → Option Nat) (n : Nat) :
    List (I × IndexRow I T) :=
  (List.range (n + 1)).flatMap fun m => pageItems (photoPages index user limit m)

def PhotoVisible (index : Table I (IndexRow I T)) (user id : I) : Prop :=
  ∃ r, index.lookup id = some r ∧ isPhoto user r

-- Nothing changes when an entry was created.
def Lasting (index : Nat → Table I (IndexRow I T)) (created : I → T) : Prop :=
  ∀ n id r, (index n).lookup id = some r → r.createdAt = created id

-- The pages show every photo that is there throughout, once, from the newest to the oldest.
structure Paged (index : Nat → Table I (IndexRow I T)) (user : I) (limit : Nat → Option Nat) (created : I → T) :
    Prop where
  served   : ∀ n r, photoPages index user limit n = some r → ∃ p, r = .ok p
  once     : ∀ n, ((shownPhotos index user limit n).map (·.1)).Nodup
  ordered  : ∀ n, (shownPhotos index user limit n).Pairwise fun r r' =>
    created r'.1 < created r.1 ∨ created r'.1 = created r.1 ∧ r'.1 < r.1
  complete : ∀ n p, photoPages index user limit n = some (.ok p) → p.nextCursor = none →
    ∀ id, (∀ m ≤ n, PhotoVisible (index m) user id) → id ∈ (shownPhotos index user limit n).map (·.1)
  ends     : (∃ ids : List I, ∀ n id r, (index n).lookup id = some r → id ∈ ids) →
    ∃ n p, photoPages index user limit n = some (.ok p) ∧ p.nextCursor = none

end MyDrive.Browse
