import Mathlib.Data.List.Basic

-- The keys of the stored objects: `storage_key` and `object_path` of the server, and what the backup
-- tools make of a key. Texts are lists of characters.

namespace MyDrive.Archive

abbrev Text := List Char

scoped instance : LawfulBEq Text := inferInstance

-- A path, by its components.
abbrev Path := List Text

def hexDigits : List Char :=
  ['0', '1', '2', '3', '4', '5', '6', '7', '8', '9', 'a', 'b', 'c', 'd', 'e', 'f']

def hexDigit (d : Fin 16) : Char :=
  hexDigits.get d

structure Uuid where
  digits : List (Fin 16)
  size   : digits.length = 32
  deriving DecidableEq

-- The canonical form, in lower case and with hyphens.
def Uuid.print (id : Uuid) : Text :=
  let t := id.digits.map hexDigit
  t.take 8 ++ '-' :: ((t.drop 8).take 4 ++ '-' :: ((t.drop 12).take 4 ++
    '-' :: ((t.drop 16).take 4 ++ '-' :: t.drop 20)))

-- `Uuid::parse_str`, or the constructor of `uuid.UUID`. They take other forms of a UUID too.
structure UuidParser where
  parse       : Text → Option Uuid
  parse_print : ∀ id, parse id.print = some id

def byteLength (t : Text) : Nat :=
  t.foldr (fun c n => c.utf8Size + n) 0

def isAsciiHexdigit (c : Char) : Bool :=
  c.isDigit || ('a' ≤ c && c ≤ 'f') || ('A' ≤ c && c ≤ 'F')

inductive StorageError
  | unsafeKey
  deriving DecidableEq

def objectsRoot : Text := ['o', 'b', 'j', 'e', 'c', 't', 's']

def storageKey (id : Uuid) : Text :=
  id.print.take 2 ++ '/' :: ((id.print.drop 2).take 2 ++ '/' :: id.print)

def objectPath (uuid : UuidParser) (root : Path) (key : Text) : Except StorageError Path :=
  match key.splitOn '/' with
  | [first, second, filename] =>
    if byteLength first ≠ 2 ∨ byteLength second ≠ 2 ∨
        !(first.all fun c => isAsciiHexdigit c && !c.isUpper) ∨
        !(second.all fun c => isAsciiHexdigit c && !c.isUpper) then
      .error .unsafeKey
    else match uuid.parse filename with
      | none          => .error .unsafeKey
      | some objectId =>
        let canonical := objectId.print
        if canonical ≠ filename ∨ canonical.take 2 ≠ first ∨ (canonical.drop 2).take 2 ≠ second then
          .error .unsafeKey
        else
          .ok (root ++ [objectsRoot, first, second, canonical])
  | _                         => .error .unsafeKey

-- `fullmatch` of a regular expression that is a sequence of character classes.
def fullmatch : List (Char → Bool) → Text → Bool
  | [],      []      => true
  | p :: ps, c :: cs => p c && fullmatch ps cs
  | _,       _       => false

-- `[0-9a-f]`.
def isHex (c : Char) : Bool :=
  c.isDigit || ('a' ≤ c && c ≤ 'f')

def objectKey : List (Char → Bool) :=
  List.replicate 2 isHex ++ (· == '/') :: (List.replicate 2 isHex ++ (· == '/') ::
    List.replicate 36 fun c => isHex c || c = '-')

def stagingKey : List (Char → Bool) :=
  List.replicate 8 isHex ++ (· == '-') :: (List.replicate 4 isHex ++ (· == '-') ::
    (List.replicate 4 isHex ++ (· == '-') :: (List.replicate 4 isHex ++ (· == '-') ::
      (List.replicate 12 isHex ++ [(· == '.'), (· == 'p'), (· == 'a'), (· == 'r'), (· == 't')]))))

end MyDrive.Archive
