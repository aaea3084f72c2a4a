import MyDrive.Browse.Photos
import MyDrive.Library.Calendar
import MyDrive.Library.Like

-- `search_drive`. Instants are microseconds since the epoch, as the database keeps them.

namespace MyDrive.Browse

open Drive (trim)
open Index (Category)

-- The parsers of `chrono`, and Rust's `to_lowercase`.
class SearchTexts where
  parseFromRfc3339 : List Char → Option Int
  parseFromStr     : List Char → Option Int
  toLowercase      : List Char → List Char

structure SearchQuery (I : Type) where
  q            : Option (List Char) := none
  category     : Option String := none
  mime         : Option (List Char) := none
  minSize      : Option Int := none
  maxSize      : Option Int := none
  createdFrom  : Option (List Char) := none
  createdTo    : Option (List Char) := none
  modifiedFrom : Option (List Char) := none
  modifiedTo   : Option (List Char) := none
  folderId     : Option I := none
  limit        : Option Nat := none
  offset       : Option Nat := none
  sortBy       : Option String := none
  order        : Option String := none

inductive SortColumn
  | nameNormalized
  | createdAt
  | updatedAt
  | sizeBytes
  deriving DecidableEq

structure SearchBounds (I : Type) where
  term         : List Char
  category     : Option Category
  mimePrefix   : Option (List Char)
  minSize      : Option Int
  maxSize      : Option Int
  createdFrom  : Option Int
  createdTo    : Option Int
  modifiedFrom : Option Int
  modifiedTo   : Option Int
  folderId     : Option I
  sortColumn   : SortColumn
  descending   : Bool
  limit        : Nat
  offset       : Nat

def maxOffset : Nat := 1000000

def pageOffset (offset : Option Nat) : Except LibraryError Nat :=
  if maxOffset < offset.getD 0 then .error .badRequest else .ok (offset.getD 0)

def normalizeCategory : String → Except LibraryError Category
  | "folder"   => .ok .folder
  | "image"    => .ok .image
  | "video"    => .ok .video
  | "audio"    => .ok .audio
  | "document" => .ok .document
  | "archive"  => .ok .archive
  | "other"    => .ok .other
  | _          => .error .badRequest

def trimEndMatches (c : Char) (text : List Char) : List Char :=
  (text.reverse.dropWhile (· = c)).reverse

def normalizeMimePrefix (value : List Char) : Except LibraryError (List Char) :=
  let value := (trim value).map Char.toLower
  if 128 < Drive.byteSize value ∨ value.count '/' ≠ 1 ∨
      !value.all (fun c => c.isAlphanum || "/.+-*".toList.contains c) then
    .error .badRequest
  else
    let pre := trimEndMatches '/' (trimEndMatches '*' value)
    if pre = [] ∨ '/' ∉ pre ∧ value.head? = some '/' then .error .badRequest else .ok pre

def dayLength : Int := 86400 * 1000000

-- The last second of a day.
def endOfDay : Int := 86399 * 1000000

def parseInstant [SearchTexts] (value : List Char) (atEnd : Bool) : Except LibraryError Int :=
  match SearchTexts.parseFromRfc3339 value with
  | some parsed => .ok parsed
  | none        =>
    match SearchTexts.parseFromStr value with
    | some date => .ok (date * dayLength + if atEnd then endOfDay else 0)
    | none      => .error .badRequest

def optionalInstant [SearchTexts] (value : Option (List Char)) (atEnd : Bool) :
    Except LibraryError (Option Int) :=
  match (value.map trim).filter (· ≠ []) with
  | some value => (parseInstant value atEnd).map some
  | none       => .ok none

def searchSort (sortBy order : Option String) : Except LibraryError (SortColumn × Bool) := do
  let column ← match sortBy.getD "name" with
    | "name"       => pure .nameNormalized
    | "created_at" => pure .createdAt
    | "updated_at" => pure .updatedAt
    | "size"       => pure .sizeBytes
    | _            => throw .badRequest
  let descending ← match order.getD "asc" with
    | "asc"  => pure false
    | "desc" => pure true
    | _      => throw .badRequest
  return (column, descending)

variable {I : Type}

def compileSearch [SearchTexts] (query : SearchQuery I) : Except LibraryError (SearchBounds I) := do
  let term := trim (query.q.getD [])
  if 255 < term.length then throw .badRequest
  let category ← query.category.mapM normalizeCategory
  let mimePrefix ← query.mime.mapM normalizeMimePrefix
  if query.minSize.any (· < 0) || query.maxSize.any (· < 0) then throw .badRequest
  if query.minSize.any (fun least => query.maxSize.any (· < least)) then throw .badRequest
  let createdFrom ← optionalInstant query.createdFrom false
  let createdTo ← optionalInstant query.createdTo true
  let modifiedFrom ← optionalInstant query.modifiedFrom false
  let modifiedTo ← optionalInstant query.modifiedTo true
  if term.isEmpty && category.isNone && mimePrefix.isNone && query.minSize.isNone && query.maxSize.isNone &&
      createdFrom.isNone && createdTo.isNone && modifiedFrom.isNone && modifiedTo.isNone &&
      query.folderId.isNone then
    throw .badRequest
  let (sortColumn, descending) ← searchSort query.sortBy query.order
  let limit ← pageLimit query.limit
  let offset ← pageOffset query.offset
  return {
    term := SearchTexts.toLowercase term, category, mimePrefix, minSize := query.minSize
    maxSize := query.maxSize, createdFrom, createdTo, modifiedFrom, modifiedTo, folderId := query.folderId
    sortColumn, descending, limit, offset }

structure SearchRow (I : Type) extends IndexRow I Int where
  nameNormalized : List Char
  mimeType       : Option (List Char)
  sizeBytes      : Int
  updatedAt      : Int

-- What the search reads: `entry_index`, the ids in `drive_entries`, the subtrees of active entries, and the
-- order of names in the collation.
structure SearchDb (I : Type) where
  index        : List (I × SearchRow I)
  entries      : I → Bool
  subtree      : I → I → Bool
  activeFolder : I → I → Bool
  nameLe       : List Char → List Char → Bool

def mimeMatches (pre : List Char) (mime : List Char) : Bool :=
  mime = pre || Like.like (pre ++ ['/', '%']) mime || Like.like (pre ++ ['%']) mime

namespace SearchDb

section

variable [DecidableEq I] (db : SearchDb I)

-- The `WHERE` of the query.
def selects (user : I) (bounds : SearchBounds I) (r : I × SearchRow I) : Bool :=
  db.entries r.1 && r.2.ownerId = user && r.2.deletedAt.isNone && !r.2.buried &&
    (bounds.term = [] || bounds.term <:+: r.2.nameNormalized) &&
    bounds.category.all (r.2.category = ·) &&
    bounds.mimePrefix.all (fun pre => r.2.mimeType.any (mimeMatches pre)) &&
    bounds.minSize.all (· ≤ r.2.sizeBytes) &&
    bounds.maxSize.all (r.2.sizeBytes ≤ ·) &&
    bounds.createdFrom.all (· ≤ r.2.createdAt) &&
    bounds.createdTo.all (r.2.createdAt ≤ ·) &&
    bounds.modifiedFrom.all (· ≤ r.2.updatedAt) &&
    bounds.modifiedTo.all (r.2.updatedAt ≤ ·) &&
    bounds.folderId.all (db.subtree · r.1)

def columnLe : SortColumn → SearchRow I → SearchRow I → Bool
  | .nameNormalized, r, r' => db.nameLe r.nameNormalized r'.nameNormalized
  | .createdAt,      r, r' => r.createdAt ≤ r'.createdAt
  | .updatedAt,      r, r' => r.updatedAt ≤ r'.updatedAt
  | .sizeBytes,      r, r' => r.sizeBytes ≤ r'.sizeBytes

end

end SearchDb

structure EntryPage (I : Type) where
  entries    : List (I × SearchRow I)
  limit      : Nat
  nextOffset : Option Nat

namespace SearchDb

variable [LinearOrder I] (db : SearchDb I)

-- `ORDER BY {sort} {direction}, idx.entry_id ASC`
def precedes (bounds : SearchBounds I) (r r' : I × SearchRow I) : Bool :=
  let le := db.columnLe bounds.sortColumn
  let (first, second) := if bounds.descending then (r'.2, r.2) else (r.2, r'.2)
  le first second && (!le second first || r.1 ≤ r'.1)

-- All rows that the query is about, before the page is cut out.
def searchRows (user : I) (bounds : SearchBounds I) : List (I × SearchRow I) :=
  (db.index.filter (db.selects user bounds)).mergeSort (db.precedes bounds)

def searchDrive [SearchTexts] (user : I) (query : SearchQuery I) : Except LibraryError (EntryPage I) := do
  let bounds ← compileSearch query
  if bounds.folderId.any (!db.activeFolder user ·) then throw .notFound
  let entries := ((db.searchRows user bounds).drop bounds.offset).take (bounds.limit + 1)
  return {
    entries    := entries.take bounds.limit
    limit      := bounds.limit
    nextOffset := if bounds.limit < entries.length then some (bounds.offset + bounds.limit) else none }

end SearchDb

end MyDrive.Browse
