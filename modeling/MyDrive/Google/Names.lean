import MyDrive.Drive.Names

-- The names that the importer gives to entries. They are made of what Google Drive calls a file, with a
-- number when a sibling has the name already.

namespace MyDrive.Google

open Drive

def maxNameAttempts : Nat := 40

def validExtension (extension : List Char) : Bool :=
  1 ≤ extension.length && extension.length ≤ 8 && extension.all Char.isAlphanum

def trimMatches (p : Char → Bool) (cs : List Char) : List Char :=
  ((cs.dropWhile p).reverse.dropWhile p).reverse

def isSeparator (c : Char) : Bool :=
  c = '/' || c = '\\'

def lastSegment (raw : List Char) : List Char :=
  (raw.reverse.takeWhile (!isSeparator ·)).reverse

def cleanedName (raw : List Char) : List Char :=
  let cleaned := (lastSegment raw).map fun c => if isControl c || isSeparator c then '-' else c
  let name := trim (trimMatches (· = '.') (trim cleaned))
  if name = [] ∨ name = ['.'] ∨ name = ['.', '.'] then "untitled".toList else name

-- `eq_ignore_ascii_case` of an end of the name.
def endsWith (name suffix : List Char) : Bool :=
  (suffix.map Char.toLower).isSuffixOf (name.map Char.toLower)

-- The name before the number of an attempt is put into it, and before it is cut.
def baseName (raw : String) (extraExtension : Option String) : List Char :=
  let name := cleanedName raw.toList
  match (extraExtension.map String.toList).filter validExtension with
  | some extension => if endsWith name ('.' :: extension) then name else name ++ '.' :: extension
  | none           => name

def marker (number : Nat) : List Char :=
  " (".toList ++ (toString number).toList ++ [')']

def insertAttempt (name : List Char) (number : Nat) : List Char :=
  match rsplitOnce '.' name with
  | some (stem, extension) =>
    if stem ≠ [] ∧ validExtension extension then stem ++ marker number ++ '.' :: extension
    else name ++ marker number
  | none                   => name ++ marker number

def limitEntryName (name : List Char) : List Char :=
  if name.length ≤ 255 then name
  else
    match rsplitOnce '.' name with
    | some (stem, extension) =>
      if validExtension extension then stem.take (max (255 - extension.length - 1) 1) ++ '.' :: extension
      else name.take 255
    | none                   => name.take 255

def storageEntryName (raw : String) (attempt : Nat) (extraExtension : Option String) : String :=
  let name := baseName raw extraExtension
  .ofList (limitEntryName (if 0 < attempt then insertAttempt name (attempt + 1) else name))

inductive NameError
  | nameConflict
  | database
  deriving DecidableEq

variable [Collation]

-- The statement fails in its trigger before it is checked for duplicates.
def insertAttempts (v : View) (owner id : Id) (kind : Kind) (parent : Option Id) (base : String) :
    List Nat → Except NameError View
  | []              => .error .nameConflict
  | attempt :: rest =>
    match normalizeName (storageEntryName base attempt none) with
    | .error _ => insertAttempts v owner id kind parent base rest
    | .ok _    =>
      let new := newEntry owner parent kind (storageEntryName base attempt none)
      match validateDriveEntryParent v id new with
      | .error _ => .error .database
      | .ok _    =>
        if (v.entries.lookup id).isSome || violatesUnique v.entries id new then
          insertAttempts v owner id kind parent base rest
        else
          match insertEntry v id new with
          | .ok v    => .ok v
          | .error _ => .error .database

def insertNamedEntry (v : View) (owner id : Id) (kind : Kind) (parent : Option Id) (base : String) :
    Except NameError View :=
  insertAttempts v owner id kind parent base (List.range maxNameAttempts)

-- Every attempt has a name of its own that is normal, and only as many siblings exhaust them.
structure Named (raw : String) (extraExtension : Option String) : Prop where
  normal    : ∀ a < maxNameAttempts, normalizeName (storageEntryName raw a extraExtension) =
    .ok (storageEntryName raw a extraExtension)
  different : ∀ a < maxNameAttempts, ∀ b < maxNameAttempts,
    Collation.lower (storageEntryName raw a extraExtension) =
      Collation.lower (storageEntryName raw b extraExtension) → a = b
  conflict  : ∀ v owner id kind parent, v.entries.lookup id = none →
    insertNamedEntry v owner id kind parent raw = .error .nameConflict →
      Crowded v owner parent maxNameAttempts

end MyDrive.Google
