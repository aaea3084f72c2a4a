import MyDrive.Library.Bytes

-- `validate_metadata_free_webp`, with slices and indices that are checked as those of the source are. A
-- `usize` holds every sum of the offsets.

namespace MyDrive.Media.Webp

open Bytes

inductive Failure
  | rejected
  | outOfRange
  | outOfFuel
  deriving DecidableEq

abbrev Checked := Except Failure

def byteAt (bytes : List UInt8) (i : Nat) : Checked UInt8 :=
  match bytes[i]? with
  | some b => .ok b
  | none   => .error .outOfRange

def slice (bytes : List UInt8) (start stop : Nat) : Checked (List UInt8) :=
  if start ≤ stop ∧ stop ≤ bytes.length then .ok ((bytes.take stop).drop start) else .error .outOfRange

inductive Kind
  | vp8x
  | alph
  | vp8
  | vp8l
  deriving DecidableEq

def riff : List UInt8 := [0x52, 0x49, 0x46, 0x46]

def webp : List UInt8 := [0x57, 0x45, 0x42, 0x50]

def Kind.code : Kind → List UInt8
  | .vp8x => [0x56, 0x50, 0x38, 0x58]
  | .alph => [0x41, 0x4c, 0x50, 0x48]
  | .vp8  => [0x56, 0x50, 0x38, 0x20]
  | .vp8l => [0x56, 0x50, 0x38, 0x4c]

def startCode : List UInt8 := [0x9d, 0x01, 0x2a]

def alphaFlag (flags : UInt8) : Bool :=
  flags &&& 0x10 != 0

abbrev Dimensions := Nat × Nat

structure Scan where
  vp8Dimensions      : Option Dimensions := none
  extendedDimensions : Option Dimensions := none
  sawVp8             : Bool := false
  sawVp8l            : Bool := false
  sawAlpha           : Bool := false
  vp8lHasAlpha       : Bool := false
  deriving DecidableEq

namespace Scan

variable (s : Scan) (data : List UInt8)

def vp8x : Checked Scan := do
  if s.extendedDimensions.isSome || data.length < 10 then throw .rejected
  if (← byteAt data 0) &&& 0x2e != 0 then throw .rejected
  let width := 1 + (← byteAt data 4).toNat + (← byteAt data 5).toNat <<< 8 + (← byteAt data 6).toNat <<< 16
  let height := 1 + (← byteAt data 7).toNat + (← byteAt data 8).toNat <<< 8 + (← byteAt data 9).toNat <<< 16
  return { s with extendedDimensions := some (width, height) }

def alph : Checked Scan := do
  if s.sawAlpha then throw .rejected
  return { s with sawAlpha := true }

def vp8 : Checked Scan := do
  if s.sawVp8 || data.length < 10 then throw .rejected
  if (← slice data 3 6) != startCode then throw .rejected
  let width := fromLe [← byteAt data 6, ← byteAt data 7] &&& 0x3fff
  let height := fromLe [← byteAt data 8, ← byteAt data 9] &&& 0x3fff
  return { s with sawVp8 := true, vp8Dimensions := some (width, height) }

def vp8l : Checked Scan := do
  if s.sawVp8l || data.length < 5 then throw .rejected
  if (← byteAt data 0) != 0x2f then throw .rejected
  let vp8lHasAlpha := alphaFlag (← byteAt data 4)
  let width := 1 + (← byteAt data 1).toNat + ((← byteAt data 2) &&& 0x3f).toNat <<< 8
  let height := 1 + ((← byteAt data 2) >>> 6).toNat + (← byteAt data 3).toNat <<< 2 +
    ((← byteAt data 4) &&& 0x0f).toNat <<< 10
  return { s with sawVp8l := true, vp8lHasAlpha, vp8Dimensions := some (width, height) }

def chunk (kind : List UInt8) : Checked Scan :=
  if kind = Kind.vp8x.code then s.vp8x data
  else if kind = Kind.alph.code then s.alph
  else if kind = Kind.vp8.code then s.vp8 data
  else if kind = Kind.vp8l.code then s.vp8l data
  else .error .rejected

end Scan

-- The loop over the chunks. It ends at the end of the bytes.
def walk (bytes : List UInt8) : Nat → Nat → Scan → Checked (Nat × Scan)
  | 0,        _,      _ => .error .outOfFuel
  | fuel + 1, offset, s => do
    if bytes.length ≤ offset then
      return (offset, s)
    let headerEnd := offset + 8
    if bytes.length < headerEnd then throw .rejected
    let kind ← slice bytes offset (offset + 4)
    let chunkSize := fromLe (← slice bytes (offset + 4) headerEnd)
    let dataEnd := headerEnd + chunkSize
    if bytes.length < dataEnd then throw .rejected
    let s ← s.chunk (← slice bytes headerEnd dataEnd) kind
    if chunkSize % 2 = 1 then
      if bytes.length ≤ dataEnd then throw .rejected
      if (← byteAt bytes dataEnd) != 0 then throw .rejected
    walk bytes fuel (dataEnd + chunkSize % 2) s

def Scan.finish (s : Scan) (bytes : List UInt8) : Checked Dimensions :=
  match s.extendedDimensions.or s.vp8Dimensions with
  | none        => .error .rejected
  | some (w, h) =>
    if w = 0 ∨ h = 0 then .error .rejected
    else if s.extendedDimensions.any fun d => s.vp8Dimensions.any (· ≠ d) then .error .rejected
    else if s.extendedDimensions.isSome &&
        (bytes[20]?.any alphaFlag != (s.sawAlpha || s.vp8lHasAlpha)) then .error .rejected
    else .ok (w, h)

def validateMetadataFreeWebp (bytes : List UInt8) (maxBytes : Nat) : Checked Dimensions := do
  if bytes.length < 20 || maxBytes < bytes.length then throw .rejected
  if (← slice bytes 0 4) != riff then throw .rejected
  if (← slice bytes 8 12) != webp then throw .rejected
  if fromLe (← slice bytes 4 8) + 8 ≠ bytes.length then throw .rejected
  let (offset, s) ← walk bytes bytes.length 12 {}
  if offset ≠ bytes.length || (s.sawVp8 && s.sawVp8l) || (!s.sawVp8 && !s.sawVp8l) then throw .rejected
  s.finish bytes

-- The format that is accepted: a container of chunks, each padded to an even length.
structure Chunk where
  kind  : Kind
  data  : List UInt8
  short : data.length < 256 ^ 4
  deriving DecidableEq

namespace Chunk

variable (c : Chunk)

def encode : List UInt8 :=
  c.kind.code ++ toLe 4 c.data.length ++ c.data ++ List.replicate (c.data.length % 2) 0

def byte (i : Nat) : UInt8 :=
  c.data.getD i 0

def isImage : Bool :=
  c.kind = .vp8 || c.kind = .vp8l

-- The canvas of a `VP8X` chunk and the frame of an image chunk.
def dimensions : Dimensions :=
  match c.kind with
  | .vp8x => (1 + (c.byte 4).toNat + (c.byte 5).toNat <<< 8 + (c.byte 6).toNat <<< 16,
      1 + (c.byte 7).toNat + (c.byte 8).toNat <<< 8 + (c.byte 9).toNat <<< 16)
  | .alph => (0, 0)
  | .vp8  => (fromLe [c.byte 6, c.byte 7] &&& 0x3fff, fromLe [c.byte 8, c.byte 9] &&& 0x3fff)
  | .vp8l => (1 + (c.byte 1).toNat + ((c.byte 2) &&& 0x3f).toNat <<< 8,
      1 + ((c.byte 2) >>> 6).toNat + (c.byte 3).toNat <<< 2 + ((c.byte 4) &&& 0x0f).toNat <<< 10)

-- The chunk is alpha data, or an image whose header declares alpha.
def hasAlpha : Bool :=
  c.kind = .alph || (c.kind = .vp8l && alphaFlag (c.byte 4))

-- What the header of a chunk has to be.
def Sound : Prop :=
  match c.kind with
  | .vp8x => 10 ≤ c.data.length ∧ c.byte 0 &&& 0x2e = 0
  | .alph => True
  | .vp8  => 10 ≤ c.data.length ∧ (c.data.take 6).drop 3 = startCode
  | .vp8l => 5 ≤ c.data.length ∧ c.byte 0 = 0x2f

end Chunk

def container (chunks : List Chunk) : List UInt8 :=
  let payload := chunks.flatMap Chunk.encode
  riff ++ toLe 4 (payload.length + 4) ++ webp ++ payload

-- Everything that the bytes of an accepted container are, but for the alpha flag.
structure MetadataFree (bytes : List UInt8) (maxBytes : Nat) (chunks : List Chunk) (d : Dimensions) :
    Prop where
  container : bytes = container chunks
  declared  : fromLe ((bytes.take 8).drop 4) + 8 = bytes.length
  bounded   : bytes.length ≤ maxBytes
  sound     : ∀ c ∈ chunks, c.Sound
  extended  : (chunks.filter (·.kind = .vp8x)).length ≤ 1
  alpha     : (chunks.filter (·.kind = .alph)).length ≤ 1
  image     : (chunks.filter (·.isImage)).length = 1
  nonzero   : d.1 ≠ 0 ∧ d.2 ≠ 0
  agrees    : ∀ c ∈ chunks, c.kind ≠ .alph → c.dimensions = d

def AlphaDeclared (chunks : List Chunk) : Prop :=
  ∀ c ∈ chunks, c.kind = .vp8x → (alphaFlag (c.byte 0) ↔ ∃ a ∈ chunks, a.hasAlpha)

def Lawful (bytes : List UInt8) (maxBytes : Nat) (d : Dimensions) : Prop :=
  ∃ chunks, MetadataFree bytes maxBytes chunks d ∧ AlphaDeclared chunks

-- The alpha flag is looked up where that of a first chunk would be.
def AlphaInPlace (bytes : List UInt8) (chunks : List Chunk) : Prop :=
  ∀ c ∈ chunks, c.kind = .vp8x → (alphaFlag (bytes.getD 20 0) ↔ ∃ a ∈ chunks, a.hasAlpha)

def FlagsInPlace (bytes : List UInt8) (chunks : List Chunk) : Prop :=
  ∀ c ∈ chunks, c.kind = .vp8x → alphaFlag (c.byte 0) = alphaFlag (bytes.getD 20 0)

end MyDrive.Media.Webp
