import MyDrive.Drive.Names
import MyDrive.Library.Percent

-- The codes that a user types to approve a device. Texts are lists of characters, and the code looks at
-- their bytes in UTF-8.

namespace MyDrive.Devices

open Drive (byteSize splitAtByte trim)

namespace UserCodes

inductive Failure
  | invalidRequest
  -- A slice between the bytes of one character.
  | panic
  deriving DecidableEq

def userCodeAlphabet : List Char :=
  "ABCDEFGHJKLMNPQRSTUVWXYZ23456789".toList

def hyphen : UInt8 := 45

def validateUserCode (value : List Char) : Except Failure (List Char) :=
  let bytes := Percent.utf8 value
  if bytes.length = 9 ∧ bytes[4]? = some hyphen ∧
      (bytes.filter (· ≠ hyphen)).all fun byte => byte ∈ Percent.utf8 userCodeAlphabet then
    .ok value
  else
    .error .invalidRequest

def normalizeUserCode (value : List Char) : Except Failure (List Char) :=
  let value := (trim value).map Char.toUpper
  if byteSize value = 8 ∧ '-' ∉ value then
    match splitAtByte 4 value with
    | none              => .error .panic
    | some (head, tail) => validateUserCode (head ++ '-' :: tail)
  else
    validateUserCode value

-- What is made of eight random bytes.
def newUserCode (raw : List UInt8) : List Char :=
  let chars := raw.map fun byte => userCodeAlphabet.getD (byte.toNat % userCodeAlphabet.length) 'A'
  chars.take 4 ++ '-' :: chars.drop 4

end UserCodes

end MyDrive.Devices
