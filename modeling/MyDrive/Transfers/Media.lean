import Mathlib.Data.List.Infix

-- The media types that the server tells apart by the first bytes of a payload, and the kinds of
-- documents that it previews.

namespace MyDrive.Transfers

-- The types that `safe_preview_mime` lets through.
inductive PreviewMime
  | pdf
  | jpeg
  | png
  | gif
  | webp
  | avif
  | bmp
  | xIcon
  | tiff
  | heic
  | heif
  | mp4
  | webm
  | quicktime
  | xMatroska
  | xMsvideo
  | ogg
  | mpeg
  | mp2t
  | xFlv
  | xMsWmv
  | threeGpp
  deriving DecidableEq

def safePreviewMime : String → Option PreviewMime
  | "application/pdf"  => some .pdf
  | "image/jpeg"       => some .jpeg
  | "image/png"        => some .png
  | "image/gif"        => some .gif
  | "image/webp"       => some .webp
  | "image/avif"       => some .avif
  | "image/bmp"        => some .bmp
  | "image/x-icon"     => some .xIcon
  | "image/tiff"       => some .tiff
  | "image/heic"       => some .heic
  | "image/heif"       => some .heif
  | "video/mp4"        => some .mp4
  | "video/webm"       => some .webm
  | "video/quicktime"  => some .quicktime
  | "video/x-matroska" => some .xMatroska
  | "video/x-msvideo"  => some .xMsvideo
  | "video/ogg"        => some .ogg
  | "video/mpeg"       => some .mpeg
  | "video/mp2t"       => some .mp2t
  | "video/x-flv"      => some .xFlv
  | "video/x-ms-wmv"   => some .xMsWmv
  | "video/3gpp"       => some .threeGpp
  | _                  => none

def isIndexableImageMime : PreviewMime → Bool
  | .jpeg  => true
  | .png   => true
  | .gif   => true
  | .webp  => true
  | .avif  => true
  | .bmp   => true
  | .xIcon => true
  | .tiff  => true
  | .heic  => true
  | .heif  => true
  | _      => false

def isIndexableVideoMime : PreviewMime → Bool
  | .mp4       => true
  | .webm      => true
  | .quicktime => true
  | .xMatroska => true
  | .xMsvideo  => true
  | .ogg       => true
  | .mpeg      => true
  | .mp2t      => true
  | .xFlv      => true
  | .xMsWmv    => true
  | .threeGpp  => true
  | _          => false

def ascii (s : String) : List UInt8 :=
  s.toList.map fun c => .ofNat c.toNat

def startsWith (header start : List UInt8) : Bool :=
  start.isPrefixOf header

-- `header.windows(w.len()).any(|window| window == w)`.
def hasWindow (header w : List UInt8) : Bool :=
  header.tails.any (w.isPrefixOf ·)

def hasBrand (header : List UInt8) (brands : List String) : Bool :=
  brands.any (hasWindow header <| ascii ·)

-- The brands of an ISO base media file.
def sniffFtyp (header : List UInt8) : Option PreviewMime :=
  if hasBrand header ["avif", "avis"] then
    some .avif
  else if hasBrand header ["heic", "heix", "hevc", "hevx", "mif1", "msf1"] then
    some (if hasBrand header ["heic", "heix", "hevc", "hevx"] then .heic else .heif)
  else if hasBrand header ["qt  "] then
    some .quicktime
  else if hasBrand header ["3gp4", "3gp5", "3gp6", "3gp7", "3gg6", "3gs6"] then
    some .threeGpp
  else if hasBrand header
      ["isom", "iso2", "iso5", "iso6", "mp41", "mp42", "avc1", "M4V ", "dash", "MSNV"] then
    some .mp4
  else
    none

def isRiff (header : List UInt8) (form : String) : Bool :=
  header.length ≥ 12 && header.take 4 = ascii "RIFF" && (header.drop 8).take 4 = ascii form

def sniffContainer (header : List UInt8) : Option PreviewMime :=
  if startsWith header [0x1a, 0x45, 0xdf, 0xa3] && hasWindow header (ascii "webm") then
    some .webm
  else if startsWith header [0x1a, 0x45, 0xdf, 0xa3] && hasWindow header (ascii "matroska") then
    some .xMatroska
  else if isRiff header "AVI " then
    some .xMsvideo
  else if startsWith header (ascii "OggS") && hasWindow header (ascii "theora") then
    some .ogg
  else if startsWith header (ascii "FLV") && header[3]? = some 1 then
    some .xFlv
  else if startsWith header [0x00, 0x00, 0x01, 0xba] || startsWith header [0x00, 0x00, 0x01, 0xb3] then
    some .mpeg
  else if header.length ≥ 16 && startsWith header
      [0x30, 0x26, 0xb2, 0x75, 0x8e, 0x66, 0xcf, 0x11, 0xa6, 0xd9, 0x00, 0xaa, 0x00, 0x62, 0xce, 0x6c]
      then
    some .xMsWmv
  else if header.length ≥ 377 && [0, 188, 376].all fun offset => header[offset]? = some 0x47 then
    some .mp2t
  else
    none

def sniffMediaType (header : List UInt8) : Option PreviewMime :=
  if startsWith header (ascii "%PDF-") then
    some .pdf
  else if startsWith header (0x89 :: ascii "PNG\r\n\x1a\n") then
    some .png
  else if startsWith header [0xff, 0xd8, 0xff] then
    some .jpeg
  else if startsWith header (ascii "GIF87a") || startsWith header (ascii "GIF89a") then
    some .gif
  else if isRiff header "WEBP" then
    some .webp
  else if startsWith header (ascii "BM") then
    some .bmp
  else if startsWith header [0x00, 0x00, 0x01, 0x00] then
    some .xIcon
  else if startsWith header (ascii "II" ++ [0x2a, 0x00]) ||
      startsWith header (ascii "MM" ++ [0x00, 0x2a]) then
    some .tiff
  else if header.length ≥ 8 && (header.drop 4).take 4 = ascii "ftyp" then
    (sniffFtyp header).or (sniffContainer header)
  else
    sniffContainer header

-- What `std::str::from_utf8` finds: `incomplete` is an error without an `error_len`, which is a
-- sequence that the end of the input cuts off.
inductive Utf8
  | valid
  | incomplete
  | invalid
  deriving DecidableEq

def isContinuation (b : UInt8) : Bool :=
  0x80 ≤ b && b ≤ 0xbf

-- The second bytes that may follow the first byte of a sequence of three or four.
def isSecond (b c : UInt8) : Bool :=
  if b = 0xe0 then 0xa0 ≤ c && c ≤ 0xbf
  else if b = 0xed then 0x80 ≤ c && c ≤ 0x9f
  else if b = 0xf0 then 0x90 ≤ c && c ≤ 0xbf
  else if b = 0xf4 then 0x80 ≤ c && c ≤ 0x8f
  else isContinuation c

def fromUtf8 : List UInt8 → Utf8
  | []        => .valid
  | b :: rest =>
    if b < 0x80 then
      fromUtf8 rest
    else if 0xc2 ≤ b && b ≤ 0xdf then
      match rest with
      | []        => .incomplete
      | c :: rest => if isContinuation c then fromUtf8 rest else .invalid
    else if 0xe0 ≤ b && b ≤ 0xef then
      match rest with
      | []             => .incomplete
      | [c]            => if isSecond b c then .incomplete else .invalid
      | c :: d :: rest => if isSecond b c && isContinuation d then fromUtf8 rest else .invalid
    else if 0xf0 ≤ b && b ≤ 0xf4 then
      match rest with
      | []                  => .incomplete
      | [c]                 => if isSecond b c then .incomplete else .invalid
      | [c, d]              => if isSecond b c && isContinuation d then .incomplete else .invalid
      | c :: d :: e :: rest =>
        if isSecond b c && isContinuation d && isContinuation e then fromUtf8 rest else .invalid
    else
      .invalid

def validUtf8Prefix (bytes : List UInt8) : Bool :=
  fromUtf8 bytes ≠ .invalid

inductive OfficeFormat
  | doc
  | ppt
  | xls
  | docx
  | pptx
  | xlsx
  | rtf
  | csv
  deriving DecidableEq

inductive DocumentPreviewKind
  | pdf
  | text
  | office (format : OfficeFormat)
  deriving DecidableEq

-- `Path::extension` of a name without slashes: what follows the last dot, unless that dot comes first.
def extension (name : String) : Option (List Char) :=
  let (tail, rest) := name.toList.reverse.span (· ≠ '.')
  match rest with
  | [] | [_] => none
  | _        => some tail.reverse

def isZipHeader (header : List UInt8) : Bool :=
  startsWith header (ascii "PK" ++ [0x03, 0x04]) || startsWith header (ascii "PK" ++ [0x05, 0x06]) ||
    startsWith header (ascii "PK" ++ [0x07, 0x08])

def isCompoundFileHeader (header : List UInt8) : Bool :=
  startsWith header [0xd0, 0xcf, 0x11, 0xe0, 0xa1, 0xb1, 0x1a, 0xe1]

def isOfficeContainerHeader (header : List UInt8) : Bool :=
  isZipHeader header || isCompoundFileHeader header

def isTextHeader (header : List UInt8) : Bool :=
  !header.contains 0 && !isOfficeContainerHeader header && validUtf8Prefix header

def documentPreviewKind (name : String) (header : List UInt8) : Option DocumentPreviewKind :=
  if startsWith header (ascii "%PDF-") then
    some .pdf
  else
    (extension name).bind fun extension =>
      match String.ofList (extension.map Char.toLower) with
      | "txt"      => if isTextHeader header then some .text else none
      | "md"       => if isTextHeader header then some .text else none
      | "markdown" => if isTextHeader header then some .text else none
      | "json"     => if isTextHeader header then some .text else none
      | "doc"      => if isCompoundFileHeader header then some (.office .doc) else none
      | "ppt"      => if isCompoundFileHeader header then some (.office .ppt) else none
      | "xls"      => if isCompoundFileHeader header then some (.office .xls) else none
      | "docx"     => if isZipHeader header then some (.office .docx) else none
      | "pptx"     => if isZipHeader header then some (.office .pptx) else none
      | "xlsx"     => if isZipHeader header then some (.office .xlsx) else none
      | "rtf"      => if startsWith header (0x7b :: ascii "\\rtf") then some (.office .rtf) else none
      | "csv"      => if isTextHeader header then some (.office .csv) else none
      | _          => none

end MyDrive.Transfers
