import MyDrive.Media.Jobs
import MyDrive.Transfers.Media

-- The two other readers of the first bytes of a payload: the importer of Google Drive, which names a
-- type, and the indexer, which checks the type that a job was created for.

namespace MyDrive.Media

open Transfers

def isFtyp (header : List UInt8) : Bool :=
  header.length ≥ 8 && (header.drop 4).take 4 = ascii "ftyp"

def isTiff (header : List UInt8) : Bool :=
  startsWith header (ascii "II" ++ [0x2a, 0x00]) || startsWith header (ascii "MM" ++ [0x00, 0x2a])

def isMatroska (header : List UInt8) : Bool :=
  startsWith header [0x1a, 0x45, 0xdf, 0xa3]

-- The importer's list of the brands of an ISO base media file.
def importedFtyp (header : List UInt8) : Option PreviewMime :=
  if hasBrand header ["avif", "avis"] then
    some .avif
  else if hasBrand header ["heic", "heix", "hevc", "hevx"] then
    some .heic
  else if hasBrand header ["qt  "] then
    some .quicktime
  else if hasBrand header ["isom", "iso2", "mp41", "mp42", "avc1", "M4V "] then
    some .mp4
  else
    none

def importedContainer (header : List UInt8) : Option PreviewMime :=
  if isMatroska header && hasWindow header (ascii "webm") then some .webm else none

-- `sniff_media_type` of the importer.
def importedMediaType (header : List UInt8) : Option PreviewMime :=
  if startsWith header (0x89 :: ascii "PNG\r\n\x1a\n") then
    some .png
  else if startsWith header [0xff, 0xd8, 0xff] then
    some .jpeg
  else if startsWith header (ascii "GIF87a") || startsWith header (ascii "GIF89a") then
    some .gif
  else if isRiff header "WEBP" then
    some .webp
  else if startsWith header (ascii "BM") then
    some .bmp
  else if isFtyp header then
    (importedFtyp header).or (importedContainer header)
  else
    importedContainer header

def matchesMagic : PreviewMime → List UInt8 → Bool
  | .pdf, _            => false
  | .jpeg, p           => startsWith p [0xff, 0xd8, 0xff]
  | .png, p            => startsWith p (0x89 :: ascii "PNG\r\n\x1a\n")
  | .gif, p            => startsWith p (ascii "GIF87a") || startsWith p (ascii "GIF89a")
  | .webp, p           => isRiff p "WEBP"
  | .avif, p           => isFtyp p && hasBrand p ["avif", "avis"]
  | .bmp, p            => startsWith p (ascii "BM")
  | .xIcon, p          => startsWith p [0x00, 0x00, 0x01, 0x00]
  | .tiff, p           => isTiff p
  | .heic, p | .heif, p => isFtyp p && hasBrand p ["heic", "heix", "hevc", "hevx", "mif1", "msf1"]
  | .mp4, p            => isFtyp p && p.length ≥ 12
  | .webm, p           => isMatroska p && hasWindow p (ascii "webm")
  | .quicktime, p      => isFtyp p && hasBrand p ["qt  "]
  | .xMatroska, p      => isMatroska p && hasWindow p (ascii "matroska")
  | .xMsvideo, p       => isRiff p "AVI "
  | .ogg, p            => startsWith p (ascii "OggS") && hasWindow p (ascii "theora")
  | .mpeg, p           =>
    startsWith p [0x00, 0x00, 0x01, 0xba] || startsWith p [0x00, 0x00, 0x01, 0xb3]
  | .mp2t, p           => p.length ≥ 377 && [0, 188, 376].all fun offset => p[offset]? = some 0x47
  | .xFlv, p           => startsWith p (ascii "FLV") && p[3]? = some 1
  | .xMsWmv, p         => startsWith p
      [0x30, 0x26, 0xb2, 0x75, 0x8e, 0x66, 0xcf, 0x11, 0xa6, 0xd9, 0x00, 0xaa, 0x00, 0x62, 0xce, 0x6c]
  | .threeGpp, p       => isFtyp p && hasBrand p ["3gp4", "3gp5", "3gp6", "3gp7", "3gg6", "3gs6"]

def mediaIndexTask (mime : PreviewMime) : Option (Task × Nat) :=
  if isIndexableImageMime mime then
    some (.imagePreview, 1)
  else if isIndexableVideoMime mime then
    some (.videoThumbnail, 1)
  else
    none

def isFaceIndexableMedia (mime : PreviewMime) : Bool :=
  isIndexableImageMime mime || isIndexableVideoMime mime

-- The task and the recipe version of each job that an upload of this type creates.
def enqueueMediaIndexJobs (mime : PreviewMime) : List (Task × Nat) :=
  (mediaIndexTask mime).toList ++
    (if isIndexableVideoMime mime then [(.videoPreview, 1)] else []) ++
    (if isFaceIndexableMedia mime then [(.faceIndex, 3)] else [])

end MyDrive.Media
