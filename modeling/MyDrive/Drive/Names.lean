import Mathlib.Algebra.Ring.Nat
import MyDrive.Drive.Requests

-- Names of entries as `normalize_name` leaves them, and `copy_display_name` with the byte offsets that
-- it slices at.

namespace MyDrive

-- A collation that takes the characters one by one, and changes none of ASCII but the capitals.
class Collation.Charwise [Collation] where
  fold                 : Char → List Char
  lower_eq s           : Collation.lower s = .ofList (s.toList.flatMap fold)
  fold_plain {c}       : c.toNat < 128 → c.isUpper = false → fold c = [c]

abbrev Collation.Charwise.binary : @Collation.Charwise Collation.binary :=
  @Charwise.mk Collation.binary (fun c => [c]) (by simp [Collation.lower]) (by simp)

namespace Drive

def forbidden (c : Char) : Bool :=
  isControl c || c = '/' || c = '\\'

structure Normal (name : List Char) : Prop where
  ne_nil  : name ≠ []
  length  : name.length ≤ 255
  ne_dots : name ≠ ['.'] ∧ name ≠ ['.', '.']
  allowed : ∀ c ∈ name, forbidden c = false
  head    : ∀ c ∈ name.head?, isWhitespace c = false
  last    : ∀ c ∈ name.getLast?, isWhitespace c = false

-- `rsplit_once`.
def rsplitOnce (separator : Char) : List Char → Option (List Char × List Char)
  | []      => none
  | c :: cs =>
    match rsplitOnce separator cs with
    | some (before, after) => some (c :: before, after)
    | none                 => if c = separator then some ([], cs) else none

def byteSize (cs : List Char) : Nat :=
  (cs.map Char.utf8Size).sum

-- `rfind('.')`, which is a byte offset.
def rfindDot : List Char → Option Nat
  | []      => none
  | c :: cs =>
    match rfindDot cs with
    | some i => some (c.utf8Size + i)
    | none   => if c = '.' then some 0 else none

-- Slices before and after a byte offset. There are none inside a character.
def splitAtByte (offset : Nat) : List Char → Option (List Char × List Char)
  | []      => if offset = 0 then some ([], []) else none
  | c :: cs =>
    if offset = 0 then some ([], c :: cs)
    else if c.utf8Size ≤ offset then (splitAtByte (offset - c.utf8Size) cs).map fun p => (c :: p.1, p.2)
    else none

def sliceExtension (original : List Char) : Option (List Char × List Char) :=
  match rfindDot original with
  | some index =>
    if 0 < index && byteSize original - index ≤ 12 then splitAtByte index original
    else some (original, [])
  | none       => some (original, [])

def copySuffix (attempt : Nat) : List Char :=
  (if attempt ≤ 1 then " copy" else " copy " ++ toString attempt).toList

-- `copy_display_name` on byte offsets. It has no name if a slice is inside a character.
def sliceCopyName (original : String) (attempt : Nat) (isFile : Bool) : Option String :=
  (if isFile then sliceExtension original.toList else some (original.toList, [])).map fun p =>
    let suffix := copySuffix attempt
    let name := p.1 ++ suffix ++ p.2
    if name.length > 255 then
      .ofList (p.1.take (max (255 - (suffix.length + p.2.length)) 1) ++ suffix ++ p.2)
    else
      .ofList name

-- An active sibling has the name, but for its case.
def Taken [Collation] (v : View) (owner : Id) (parent : Option Id) (name : String) : Prop :=
  ∃ id e, v.entries.lookup id = some e ∧ e.ownerId = owner ∧ e.deletedAt = none ∧ e.parentId = parent ∧
    Collation.lower e.name = Collation.lower name

-- As many siblings as `count` have names that are all different.
def Crowded [Collation] (v : View) (owner : Id) (parent : Option Id) (count : Nat) : Prop :=
  ∃ names : List String, names.length = count ∧ (names.map Collation.lower).Nodup ∧
    ∀ name ∈ names, Taken v owner parent name

end Drive
end MyDrive
