import MyDrive.Library.Percent
import MyDrive.Library.Split

-- `verify_mount` and the parser of the table of mounts. A sum that does not fit into a byte is `none` in a
-- build that checks for overflow, and wraps around in one that does not.

namespace MyDrive.Storage

abbrev Text := List Char

-- The property `White_Space` of Unicode.
def isWhitespace (c : Char) : Bool :=
  let n := c.toNat
  (9 ≤ n && n ≤ 13) || n = 0x20 || n = 0x85 || n = 0xa0 || n = 0x1680 || (0x2000 ≤ n && n ≤ 0x200a) ||
    n = 0x2028 || n = 0x2029 || n = 0x202f || n = 0x205f || n = 0x3000

namespace Mount

-- How many bytes may follow the first byte of a character, and which the first of them may be.
def continuation (b : UInt8) : Option (Nat × UInt8 × UInt8) :=
  if 0xc2 ≤ b ∧ b ≤ 0xdf then some (1, 0x80, 0xbf)
  else if b = 0xe0 then some (2, 0xa0, 0xbf)
  else if b = 0xed then some (2, 0x80, 0x9f)
  else if 0xe1 ≤ b ∧ b ≤ 0xef then some (2, 0x80, 0xbf)
  else if b = 0xf0 then some (3, 0x90, 0xbf)
  else if 0xf1 ≤ b ∧ b ≤ 0xf3 then some (3, 0x80, 0xbf)
  else if b = 0xf4 then some (3, 0x80, 0x8f)
  else none

-- How many bytes behind the first one belong to the same character, as far as there is one.
def following (b : UInt8) (bs : List UInt8) : Nat :=
  match continuation b, bs with
  | some (n, least, greatest), c :: cs =>
    if least ≤ c ∧ c ≤ greatest then 1 + ((cs.take (n - 1)).takeWhile fun d => 0x80 ≤ d ∧ d ≤ 0xbf).length else 0
  | _, _ => 0

-- Bytes that are no character are read as a replacement character. The first bytes are skipped.
def replaceInvalid : Nat → List UInt8 → Text
  | _,        []      => []
  | skip + 1, _ :: bs => replaceInvalid skip bs
  | 0,        b :: bs =>
    (Percent.ofUtf8 (b :: bs.take (following b bs))).getD [Char.ofNat 0xfffd] ++ replaceInvalid (following b bs) bs

def fromUtf8Lossy (bytes : List UInt8) : Text :=
  (Percent.ofUtf8 bytes).getD (replaceInvalid 0 bytes)

def isOctal (b : UInt8) : Bool :=
  48 ≤ b && b ≤ 55

def octal (a b c : UInt8) : Nat :=
  (a.toNat - 48) * 64 + (b.toNat - 48) * 8 + (c.toNat - 48)

def octalByte (checks : Bool) (a b c : UInt8) : Option UInt8 :=
  if checks && 256 ≤ octal a b c then none else some (.ofNat (octal a b c))

def decodeOctal (checks : Bool) : List UInt8 → Option (List UInt8)
  | []                       => some []
  | 0x5c :: a :: b :: c :: bs =>
    if isOctal a && isOctal b && isOctal c then
      (octalByte checks a b c).bind fun value => (decodeOctal checks bs).map (value :: ·)
    else
      (decodeOctal checks (a :: b :: c :: bs)).map (0x5c :: ·)
  | b :: bs                  => (decodeOctal checks bs).map (b :: ·)

def decodeMountField (checks : Bool) (field : Text) : Option Text :=
  (decodeOctal checks (Percent.utf8 field)).map fromUtf8Lossy

structure MountEntry where
  device     : Text
  mountPoint : Text
  deriving DecidableEq

def separator : Text :=
  [' ', '-', ' ']

-- A line that is no entry is left out.
def parseLine (checks : Bool) (line : Text) : Option (Option MountEntry) :=
  match Split.once separator line with
  | none                  => some none
  | some (mountFields, _) =>
    let fields := Split.words isWhitespace mountFields
    match fields[2]?, fields[4]? with
    | some device, some mountPoint => (decodeMountField checks mountPoint).map fun path => some ⟨device, path⟩
    | _,           _               => some none

def parseLines (checks : Bool) : List Text → Option (List MountEntry)
  | []      => some []
  | l :: ls => (parseLine checks l).bind fun entry => (parseLines checks ls).map (entry.toList ++ ·)

def parseMountinfo (checks : Bool) (contents : Text) : Option (List MountEntry) :=
  parseLines checks (Split.lines '\r' '\n' contents)

inductive StorageError
  | mountInfoUnavailable
  | mountMissing
  | deviceMismatch
  deriving DecidableEq

-- Paths are compared by their components: slashes more than one count once, and single dots only in front.
def components (path : Text) : Bool × List Text :=
  let parts := path.splitOn '/'
  (path.head? = some '/', (parts.take 1).filter (!·.isEmpty) ++ (parts.drop 1).filter fun p => !p.isEmpty && p ≠ ['.'])

def samePath (a b : Text) : Bool :=
  components a = components b

def verifyMount (checks : Bool) (contents : Option Text) (expectedMount : Text) (requireDeviceMatch : Bool)
    (expectedDevice : Option Text) : Option (Except StorageError Unit) :=
  match contents with
  | none          => some (.error .mountInfoUnavailable)
  | some contents =>
    (parseMountinfo checks contents).map fun entries =>
      match entries.find? fun entry => samePath entry.mountPoint expectedMount with
      | none       => .error .mountMissing
      | some entry =>
        if requireDeviceMatch && expectedDevice ≠ some entry.device then .error .deviceMismatch else .ok ()

-- How the kernel prints a mount.
def escape (c : Char) : Text :=
  match c with
  | ' '  => ['\\', '0', '4', '0']
  | '\t' => ['\\', '0', '1', '1']
  | '\n' => ['\\', '0', '1', '2']
  | '\\' => ['\\', '1', '3', '4']
  | c    => [c]

def mangle (path : Text) : Text :=
  path.flatMap escape

def dash : Text :=
  ['-']

-- A field that the kernel makes up by itself: a number, a device, options or a tag.
structure Word where
  text     : Text
  ne_nil   : text ≠ []
  black    : ∀ c ∈ text, ¬isWhitespace c ∧ c ≠ '\\'
  not_dash : text ≠ dash

end Mount

open Mount

structure Mount where
  id         : Word
  parent     : Word
  device     : Word
  root       : Text
  mountPoint : Text
  options    : Word
  optional   : List Word
  source     : Text
  line       : '\n' ∉ source

namespace Mount

variable (m : Mount)

def fields : List Text :=
  m.parent.text :: m.device.text :: mangle m.root :: mangle m.mountPoint :: m.options.text :: m.optional.map (·.text)

def print : Text :=
  m.id.text ++ m.fields.flatMap (' ' :: ·) ++ separator ++ m.source

def entry : MountEntry :=
  ⟨m.device.text, m.mountPoint⟩

def printAll (ms : List Mount) : Text :=
  (ms.map print).flatMap (· ++ ['\n'])

end Mount

end MyDrive.Storage
