import MyDrive.Drive.Names
import MyDrive.Library.Percent

-- Percent-encoding of names, and the hexadecimal digits of keys.

namespace MyDrive

-- The letters, digits and marks that `encode_filename` and `percent_encode` leave.
def isPlainByte (byte : UInt8) : Bool :=
  48 ≤ byte.toNat && byte.toNat ≤ 57 || 65 ≤ byte.toNat && byte.toNat ≤ 90 || 97 ≤ byte.toNat && byte.toNat ≤ 122 ||
    byte ∈ "-_.~".toList.map fun c => UInt8.ofNat c.toNat

namespace Transfers

def encodeFilename (filename : String) : List Char :=
  (Percent.utf8 filename.toList).flatMap fun byte =>
    if isPlainByte byte then
      [.ofNat byte.toNat]
    else
      ['%', "0123456789ABCDEF".toList.getD (byte >>> 4).toNat '0', "0123456789ABCDEF".toList.getD (byte &&& 0x0f).toNat '0']

end Transfers

namespace Google

def upperHex : List Char :=
  "0123456789ABCDEF".toList

def percentEncode (value : String) : List Char :=
  (Percent.utf8 value.toList).flatMap fun byte =>
    if isPlainByte byte then
      [.ofNat byte.toNat]
    else
      ['%', upperHex.getD (byte >>> 4).toNat '0', upperHex.getD (byte &&& 0x0f).toNat '0']

def lowerHex : List Char :=
  "0123456789abcdef".toList

def hexEncode (bytes : List UInt8) : List Char :=
  bytes.flatMap fun (byte : UInt8) =>
    [lowerHex.getD (byte >>> 4).toNat '0', lowerHex.getD (byte &&& 0x0f).toNat '0']

end Google

namespace Config

open Drive

inductive Failure
  | panic
  deriving DecidableEq

-- The digits of `u8::from_str_radix`, as long as the number is below 256.
def readDigits (digits : List Char) : Option UInt8 :=
  (digits.foldlM (fun n c => (Percent.hexValue c).bind fun d => if 16 * n + d < 256 then some (16 * n + d) else none) 0).map
    UInt8.ofNat

-- `u8::from_str_radix(src, 16)`
def fromStrRadix : List Char → Option UInt8
  | []            => none
  | ['+']         => none
  | ['-']         => none
  | '+' :: digits => readDigits digits
  | digits        => readDigits digits

-- `&value[start..stop]`, which panics inside a character.
def slice (value : List Char) (start stop : Nat) : Except Failure (List Char) :=
  match (splitAtByte start value).bind fun p => splitAtByte (stop - start) p.2 with
  | some (text, _) => .ok text
  | none           => .error .panic

-- The loop over the bytes of the key from an index on.
def decodeFrom (value : List Char) : Nat → Nat → Except Failure (Option (List UInt8))
  | _,     0        => .ok (some [])
  | index, left + 1 => do
    match fromStrRadix (← slice value (index * 2) (index * 2 + 2)) with
    | some byte => return (← decodeFrom value (index + 1) left).map (byte :: ·)
    | none      => return none

def decodeTokenKey (value : List Char) : Except Failure (Option (List UInt8)) :=
  if byteSize value ≠ 64 then .ok none else decodeFrom value 0 32

end Config

end MyDrive
