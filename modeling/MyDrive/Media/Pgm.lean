import MyDrive.Media.Webp

-- `parse_pgm` and what it calls, with indices and slices that are checked as those of the source are. A
-- loop takes at most the given number of turns. A `usize` holds every sum and product of the offsets.

namespace MyDrive.Media.Pgm

open Webp (Checked byteAt slice)

def maxFrameSide : Nat := 1280

def maxFrameBytes : Nat := maxFrameSide * maxFrameSide

structure GrayFrame where
  width  : Nat
  height : Nat
  pixels : List UInt8
  deriving DecidableEq

def space : UInt8 := 0x20

def tab : UInt8 := 0x09

def lineFeed : UInt8 := 0x0a

def formFeed : UInt8 := 0x0c

def carriageReturn : UInt8 := 0x0d

def hash : UInt8 := 0x23

def isAsciiWhitespace (b : UInt8) : Bool :=
  b = space || b = tab || b = lineFeed || b = formFeed || b = carriageReturn

def isDigit (b : UInt8) : Bool :=
  48 ≤ b.toNat && b.toNat ≤ 57

def decimal (digits : List UInt8) : Nat :=
  digits.foldl (fun n b => 10 * n + (b.toNat - 48)) 0

-- `u32::from_str`, which takes a leading plus. Bytes that are no text have one that is no digit.
def parseU32 (token : List UInt8) : Option Nat :=
  let digits : List UInt8 := match token with
    | 0x2b :: ds => ds
    | _          => token
  if digits = [] || !digits.all isDigit || decimal digits ≥ 4294967296 then none else some (decimal digits)

-- The loop to the next byte that ends a comment or a token.
def advance (bytes : List UInt8) (stop : UInt8 → Bool) : Nat → Nat → Checked Nat
  | 0,        _      => .error .outOfFuel
  | fuel + 1, cursor => do
    if bytes.length ≤ cursor then
      return cursor
    if stop (← byteAt bytes cursor) then
      return cursor
    advance bytes stop fuel (cursor + 1)

def skip (bytes : List UInt8) : Nat → Nat → Checked Nat
  | 0,        _      => .error .outOfFuel
  | fuel + 1, cursor => do
    if bytes.length ≤ cursor then
      return cursor
    let byte ← byteAt bytes cursor
    if byte = hash then
      let cursor ← advance bytes (· = lineFeed) (fuel + 1) cursor
      skip bytes fuel cursor
    else if isAsciiWhitespace byte then
      skip bytes fuel (cursor + 1)
    else
      return cursor

def nextToken (bytes : List UInt8) (fuel cursor : Nat) : Checked (Option (List UInt8) × Nat) := do
  let start ← skip bytes fuel cursor
  let stop ← advance bytes isAsciiWhitespace fuel start
  let token ← slice bytes start stop
  return (if start < stop then some token else none, stop)

def parseDimension (token : Option (List UInt8)) : Checked Nat :=
  match token.bind parseU32 with
  | none       => .error .rejected
  | some value => if value = 0 then .error .rejected else .ok value

def p5 : List UInt8 := [0x50, 0x35]

def maxValue : List UInt8 := [0x32, 0x35, 0x35]

-- The bytes behind the one delimiter of the header.
def parsePixels (bytes : List UInt8) (width height cursor : Nat) : Checked GrayFrame := do
  let pixelCount := width * height
  if bytes[cursor]?.all (!isAsciiWhitespace ·) then throw .rejected
  let cursor := if (← byteAt bytes cursor) = carriageReturn ∧ bytes[cursor + 1]? = some lineFeed then cursor + 2
    else cursor + 1
  let stop := cursor + pixelCount
  if bytes.length < stop then throw .rejected
  if pixelCount = 0 || maxFrameBytes < pixelCount then throw .rejected
  return { width, height, pixels := ← slice bytes cursor stop }

def parsePgm (bytes : List UInt8) (fuel : Nat) : Checked GrayFrame := do
  let (magic, cursor) ← nextToken bytes fuel 0
  if magic ≠ some p5 then throw .rejected
  let (token, cursor) ← nextToken bytes fuel cursor
  let width ← parseDimension token
  let (token, cursor) ← nextToken bytes fuel cursor
  let height ← parseDimension token
  let (token, cursor) ← nextToken bytes fuel cursor
  if token ≠ some maxValue || maxFrameSide < width || maxFrameSide < height then throw .rejected
  parsePixels bytes width height cursor

example : parsePgm [0x50, 0x35, 0x0a, 0x32, 0x20, 0x31, 0x0d, 0x0a, 0x32, 0x35, 0x35, 0x0d, 0x0a, 0x20, 0xff] 16 =
    .ok ⟨2, 1, [0x20, 0xff]⟩ := by
  decide

-- What stands between two tokens of a header.
inductive Filler
  | blank (b : UInt8) (white : isAsciiWhitespace b)
  | comment (text : List UInt8) (line : lineFeed ∉ text)

namespace Filler

def bytes : Filler → List UInt8
  | blank b _      => [b]
  | comment text _ => hash :: (text ++ [lineFeed])

def isBlank : Filler → Bool
  | blank ..   => true
  | comment .. => false

end Filler

inductive Ending
  | space
  | tab
  | lineFeed
  | crLf

def Ending.bytes : Ending → List UInt8
  | space    => [Pgm.space]
  | tab      => [Pgm.tab]
  | lineFeed => [Pgm.lineFeed]
  | crLf     => [carriageReturn, Pgm.lineFeed]

-- Decimal digits of any length.
structure Numeral (n : Nat) where
  digits : List UInt8
  ne_nil : digits ≠ []
  digit  : ∀ b ∈ digits, isDigit b
  value  : decimal digits = n

-- What separates two tokens, in front of the filler that follows.
structure Separator where
  first : Filler
  rest  : List Filler

def Separator.bytes (s : Separator) : List UInt8 :=
  s.first.bytes ++ s.rest.flatMap Filler.bytes

structure Picture extends GrayFrame where
  width_range  : 1 ≤ width ∧ width ≤ maxFrameSide
  height_range : 1 ≤ height ∧ height ≤ maxFrameSide
  complete     : pixels.length = width * height

-- The ways to write a picture down.
structure Rendering (p : Picture) where
  width  : Numeral p.width
  height : Numeral p.height
  gap₁   : Separator
  gap₂   : Separator
  gap₃   : Separator
  ending : Ending

def Rendering.bytes {p : Picture} (r : Rendering p) : List UInt8 :=
  p5 ++ (r.gap₁.bytes ++ (r.width.digits ++ (r.gap₂.bytes ++ (r.height.digits ++ (r.gap₃.bytes ++
    (maxValue ++ (r.ending.bytes ++ p.pixels)))))))

end MyDrive.Media.Pgm
