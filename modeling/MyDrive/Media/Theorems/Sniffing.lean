import MyDrive.Library.Rules
import MyDrive.Media.Sniffing

-- The readers of the first bytes against the type that an upload gets for them.

namespace MyDrive.Media

open Transfers Rules

variable {header start : List UInt8} {brands : List String} {form : String} {mime : PreviewMime}

theorem startsWith_iff : startsWith header start ↔ start <+: header :=
  List.isPrefixOf_iff_prefix

theorem hasBrand_append {more : List String} :
    hasBrand header (brands ++ more) = (hasBrand header brands || hasBrand header more) :=
  List.any_append

-- No header has two starts unless one continues the other.
theorem startsWith_apart {other : List UInt8} (h : startsWith header start)
    (hs : ¬ start <+: other) (ho : ¬ other <+: start) : startsWith header other = false := by
  refine Bool.eq_false_iff.mpr fun hn => ?_
  rcases List.prefix_or_prefix_of_prefix (startsWith_iff.mp h) (startsWith_iff.mp hn) with hp | hp
  case inl => exact hs hp
  case inr => exact ho hp

theorem startsWith_of_isRiff (h : isRiff header form) : startsWith header (ascii "RIFF") := by
  simp only [isRiff, Bool.and_eq_true, decide_eq_true_eq] at h
  rw [startsWith_iff, ← h.left.right]
  exact List.take_prefix 4 header

-- A start of more than four bytes has some of `ftyp` in it.
theorem isFtyp_apart (h : startsWith header start) (hs : ¬ (start.drop 4).take 4 <+: ascii "ftyp") :
    isFtyp header = false := by
  refine Bool.eq_false_iff.mpr fun hf => hs ?_
  simp only [isFtyp, Bool.and_eq_true, decide_eq_true_eq] at hf
  rw [← hf.right]
  exact ((startsWith_iff.mp h).drop 4).take 4

def isPng (header : List UInt8) : Bool :=
  startsWith header (0x89 :: ascii "PNG\r\n\x1a\n")

def isGif (header : List UInt8) : Bool :=
  startsWith header (ascii "GIF87a") || startsWith header (ascii "GIF89a")

def isIcon (header : List UInt8) : Bool :=
  startsWith header [0x00, 0x00, 0x01, 0x00]

def isWebm (header : List UInt8) : Bool :=
  isMatroska header && hasWindow header (ascii "webm")

def avifBrands : List String := ["avif", "avis"]

def heicBrands : List String := ["heic", "heix", "hevc", "hevx"]

def heifBrands : List String := ["mif1", "msf1"]

def quicktimeBrands : List String := ["qt  "]

def mobileBrands : List String := ["3gp4", "3gp5", "3gp6", "3gp7", "3gg6", "3gs6"]

-- The importer knows the first of these two lists.
def importedBrands : List String := ["isom", "iso2", "mp41", "mp42", "avc1", "M4V "]

def uploadedBrands : List String := ["iso5", "iso6", "dash", "MSNV"]

-- The image formats that both paths look for first, and in the same order.
def imageRules (header : List UInt8) : List (Bool × PreviewMime) :=
  [(isPng header, .png), (startsWith header [0xff, 0xd8, 0xff], .jpeg), (isGif header, .gif),
    (isRiff header "WEBP", .webp), (startsWith header (ascii "BM"), .bmp)]

def importedBrandRules (header : List UInt8) : List (Bool × PreviewMime) :=
  [(hasBrand header avifBrands, .avif), (hasBrand header heicBrands, .heic),
    (hasBrand header quicktimeBrands, .quicktime), (hasBrand header importedBrands, .mp4)]

def uploadedBrandRules (header : List UInt8) : List (Bool × PreviewMime) :=
  [(hasBrand header avifBrands, .avif), (hasBrand header heicBrands, .heic),
    (hasBrand header heifBrands, .heif), (hasBrand header quicktimeBrands, .quicktime),
    (hasBrand header mobileBrands, .threeGpp), (hasBrand header (importedBrands ++ uploadedBrands), .mp4)]

def containerRules (header : List UInt8) : List (Bool × PreviewMime) :=
  [(isMatroska header && hasWindow header (ascii "matroska"), .xMatroska),
    (isRiff header "AVI ", .xMsvideo),
    (startsWith header (ascii "OggS") && hasWindow header (ascii "theora"), .ogg),
    (startsWith header (ascii "FLV") && header[3]? = some 1, .xFlv),
    (startsWith header [0x00, 0x00, 0x01, 0xba] || startsWith header [0x00, 0x00, 0x01, 0xb3], .mpeg),
    (header.length ≥ 16 && startsWith header
      [0x30, 0x26, 0xb2, 0x75, 0x8e, 0x66, 0xcf, 0x11, 0xa6, 0xd9, 0x00, 0xaa, 0x00, 0x62, 0xce, 0x6c],
      .xMsWmv),
    (header.length ≥ 377 && [0, 188, 376].all fun offset => header[offset]? = some 0x47, .mp2t)]

def importedRules (header : List UInt8) : List (Bool × PreviewMime) :=
  imageRules header ++ (guarded (isFtyp header) (importedBrandRules header) ++ [(isWebm header, .webm)])

def uploadedRules (header : List UInt8) : List (Bool × PreviewMime) :=
  (startsWith header (ascii "%PDF-"), .pdf) :: imageRules header ++
    ((isIcon header, .xIcon) :: (isTiff header, .tiff) ::
      (guarded (isFtyp header) (uploadedBrandRules header) ++ (isWebm header, .webm) :: containerRules header))

theorem importedMediaType_eq : importedMediaType header = firstMatch (importedRules header) := by
  have brands : importedFtyp header = firstMatch (importedBrandRules header) := rfl
  have container : importedContainer header = firstMatch [(isWebm header, .webm)] := rfl
  rw [importedRules, firstMatch_append, firstMatch_append, firstMatch_guarded, ← brands, ← container]
  unfold importedMediaType imageRules isPng isGif
  split_ifs <;> simp [firstMatch, *]

theorem sniffFtyp_eq : sniffFtyp header = firstMatch (uploadedBrandRules header) := by
  have list : sniffFtyp header =
      if hasBrand header avifBrands then some .avif
      else if hasBrand header (heicBrands ++ heifBrands) then
        some (if hasBrand header heicBrands then .heic else .heif)
      else if hasBrand header quicktimeBrands then some .quicktime
      else if hasBrand header mobileBrands then some .threeGpp
      else if hasBrand header
        ["isom", "iso2", "iso5", "iso6", "mp41", "mp42", "avc1", "M4V ", "dash", "MSNV"] then some .mp4
      else none := rfl
  have mp4 : hasBrand header
      ["isom", "iso2", "iso5", "iso6", "mp41", "mp42", "avc1", "M4V ", "dash", "MSNV"] =
        hasBrand header (importedBrands ++ uploadedBrands) := by
    simp only [hasBrand, importedBrands, uploadedBrands, List.any_cons, List.any_nil, List.cons_append,
      List.nil_append]
    ac_rfl
  rw [list, mp4, hasBrand_append, uploadedBrandRules]
  cases hasBrand header avifBrands <;> cases hasBrand header heicBrands <;> simp [firstMatch]

theorem sniffMediaType_eq : sniffMediaType header = firstMatch (uploadedRules header) := by
  have container : sniffContainer header =
      if isWebm header then some .webm else firstMatch (containerRules header) := rfl
  have ftyp : (header.length ≥ 8 && (header.drop 4).take 4 = ascii "ftyp") = isFtyp header := rfl
  rw [uploadedRules, firstMatch_append]
  simp only [firstMatch, firstMatch_append, firstMatch_guarded, ← sniffFtyp_eq]
  rw [← container]
  unfold sniffMediaType imageRules isPng isGif isIcon isTiff
  rw [ftyp]
  split_ifs <;> simp [firstMatch, *]

theorem isRiff_apart {other : List UInt8} (h : startsWith header other)
    (hs : ¬ other <+: ascii "RIFF") (ho : ¬ ascii "RIFF" <+: other) : isRiff header form = false := by
  refine Bool.eq_false_iff.mpr fun hr => ?_
  have := startsWith_apart h hs ho
  rw [startsWith_of_isRiff hr] at this
  cases this

theorem isWebm_apart (h : startsWith header start) (hs : ¬ start <+: [0x1a, 0x45, 0xdf, 0xa3])
    (hm : ¬ [0x1a, 0x45, 0xdf, 0xa3] <+: start) : isWebm header = false := by
  rw [isWebm, isMatroska, startsWith_apart h hs hm, Bool.false_and]

-- What the importer knows is no PDF document.
theorem imported_of_pdf (h : startsWith header (ascii "%PDF-")) : firstMatch (importedRules header) = none := by
  have apart {other : List UInt8} (hs : ¬ ascii "%PDF-" <+: other) (ho : ¬ other <+: ascii "%PDF-") :
      startsWith header other = false :=
    startsWith_apart h hs ho
  have png : isPng header = false := apart (by decide) (by decide)
  have jpeg : startsWith header [0xff, 0xd8, 0xff] = false := apart (by decide) (by decide)
  have gif : isGif header = false := by
    rw [isGif, apart (by decide) (by decide), apart (by decide) (by decide), Bool.false_or]
  have webp : isRiff header "WEBP" = false := isRiff_apart h (by decide) (by decide)
  have bmp : startsWith header (ascii "BM") = false := apart (by decide) (by decide)
  have webm : isWebm header = false := isWebm_apart h (by decide) (by decide)
  have ftyp : isFtyp header = false := isFtyp_apart h (by decide)
  simp [importedRules, imageRules, firstMatch_append, firstMatch_guarded, firstMatch, png, jpeg, gif, webp, bmp,
    webm, ftyp]

theorem isWebm_of_still (h : isIcon header || isTiff header) : isWebm header = false := by
  simp only [isIcon, isTiff, Bool.or_eq_true] at h
  rcases h with hi | hi | hm
  case inl     => exact isWebm_apart hi (by decide) (by decide)
  case inr.inl => exact isWebm_apart hi (by decide) (by decide)
  case inr.inr => exact isWebm_apart hm (by decide) (by decide)

theorem image_of_ftyp (h : isFtyp header) : isPng header = false ∧ isGif header = false := by
  have apart {other : List UInt8} (hs : ¬ (other.drop 4).take 4 <+: ascii "ftyp") :
      startsWith header other = false := by
    refine Bool.eq_false_iff.mpr fun ho => ?_
    rw [isFtyp_apart ho hs] at h
    cases h
  refine ⟨apart (by decide), ?_⟩
  rw [isGif, apart (by decide), apart (by decide), Bool.false_or]

-- A brand that only an upload is asked for comes before what the importer finds.
def Shadowed (header : List UInt8) : Prop :=
  ¬ hasBrand header (avifBrands ++ heicBrands) ∧
    if hasBrand header heifBrands then
      hasBrand header (quicktimeBrands ++ importedBrands) ∨ isWebm header
    else ¬ hasBrand header quicktimeBrands ∧
      if hasBrand header mobileBrands then
        hasBrand header importedBrands ∨ isWebm header
      else
        ¬ hasBrand header importedBrands ∧ hasBrand header uploadedBrands ∧ isWebm header

-- The importer does not ask for icons and TIFF images.
def Clash (header : List UInt8) : Prop :=
  isFtyp header ∧ ¬ startsWith header [0xff, 0xd8, 0xff] ∧ ¬ isRiff header "WEBP" ∧
    ¬ startsWith header (ascii "BM") ∧
    if isIcon header || isTiff header then
      hasBrand header (avifBrands ++ heicBrands ++ quicktimeBrands ++ importedBrands) = true
    else Shadowed header

theorem agree_brands : Agree (importedBrandRules header ++ [(isWebm header, .webm)])
    (uploadedBrandRules header ++ (isWebm header, .webm) :: containerRules header) ↔ ¬ Shadowed header := by
  simp only [importedBrandRules, uploadedBrandRules, List.cons_append, List.nil_append, Shadowed,
    hasBrand_append]
  cases hasBrand header avifBrands
  case true => simp
  cases hasBrand header heicBrands
  case true => simp
  cases hasBrand header heifBrands
  case true =>
    cases hasBrand header quicktimeBrands <;> cases hasBrand header importedBrands <;>
      cases isWebm header <;> simp
  cases hasBrand header quicktimeBrands
  case true => simp
  cases hasBrand header mobileBrands
  case true => cases hasBrand header importedBrands <;> cases isWebm header <;> simp
  cases hasBrand header importedBrands
  case true => simp
  cases hasBrand header uploadedBrands <;> cases isWebm header <;> simp

-- No payload that looks like a still image is a WebM document, and so the importer goes by its brands.
theorem imported_of_still (h : isIcon header || isTiff header) :
    firstMatch (importedBrandRules header ++ [(isWebm header, .webm)]) = none ↔
      hasBrand header (avifBrands ++ heicBrands ++ quicktimeBrands ++ importedBrands) = false := by
  rw [firstMatch_eq_none_iff]
  simp [importedBrandRules, hasBrand_append, isWebm_of_still h]

theorem agree_tails : Agree (importedBrandRules header ++ [(isWebm header, .webm)])
    ((isIcon header, .xIcon) :: (isTiff header, .tiff) ::
      (uploadedBrandRules header ++ (isWebm header, .webm) :: containerRules header)) ↔
      ¬ if isIcon header || isTiff header then
          hasBrand header (avifBrands ++ heicBrands ++ quicktimeBrands ++ importedBrands) = true
        else Shadowed header := by
  cases hs : isIcon header || isTiff header
  case false =>
    obtain ⟨icon, tiff⟩ := Bool.or_eq_false_iff.mp hs
    rw [icon, tiff, agree_false_right, agree_false_right, agree_brands]
    simp
  case true =>
    rw [if_pos rfl, Bool.not_eq_true, ← imported_of_still hs]
    cases hi : isIcon header
    case true  => exact agree_true_right_of_absent (by simp [importedBrandRules])
    case false =>
      have tiff : isTiff header = true := by simpa [hi] using hs
      rw [agree_false_right, tiff]
      exact agree_true_right_of_absent (by simp [importedBrandRules])

theorem sniff_agree_iff (header : List UInt8) :
    (∀ mime, importedMediaType header = some mime → sniffMediaType header = some mime) ↔ ¬ Clash header := by
  rw [importedMediaType_eq, sniffMediaType_eq]
  change Agree _ _ ↔ _
  cases hp : startsWith header (ascii "%PDF-")
  case true =>
    have apart : isFtyp header = false := isFtyp_apart hp (by decide)
    simp [Agree, imported_of_pdf hp, Clash, apart]
  case false =>
    rw [uploadedRules, hp, List.cons_append, agree_false_right, importedRules, agree_append]
    cases hf : isFtyp header
    case false =>
      have webm : Agree [(isWebm header, .webm)]
          ((isIcon header, .xIcon) :: (isTiff header, .tiff) :: (isWebm header, .webm) :: containerRules header) := by
        cases hs : isIcon header || isTiff header
        case true => simp [isWebm_of_still hs]
        case false =>
          obtain ⟨icon, tiff⟩ := Bool.or_eq_false_iff.mp hs
          cases hw : isWebm header <;> simp [icon, tiff]
      simp only [Agree, firstMatch] at webm
      simpa [Clash, hf, Agree, firstMatch_append, firstMatch_guarded, firstMatch] using fun _ => webm
    case true =>
      obtain ⟨png, gif⟩ := image_of_ftyp hf
      rw [guarded_true, guarded_true, agree_tails, firstMatch_eq_none_iff]
      simp [imageRules, Clash, hf, png, gif]

def phoneMovie : List UInt8 :=
  [0x00, 0x00, 0x00, 0x18] ++ ascii "ftyp3gp5" ++ [0x00, 0x00, 0x00, 0x00] ++ ascii "3gp5isom"

theorem not_sniff_agree :
    ¬ ∀ mime, importedMediaType phoneMovie = some mime → sniffMediaType phoneMovie = some mime := by
  decide +kernel

theorem matches_of_sniff (h : sniffMediaType header = some mime) (hp : mime ≠ .pdf) (hm : mime ≠ .mp4) :
    matchesMagic mime header := by
  rw [sniffMediaType_eq] at h
  have rules : ∀ r ∈ uploadedRules header, r.1 = true → r.2 ≠ .pdf → r.2 ≠ .mp4 → matchesMagic r.2 header := by
    have still : hasBrand header ["heic", "heix", "hevc", "hevx", "mif1", "msf1"] =
        (hasBrand header heicBrands || hasBrand header heifBrands) :=
      @hasBrand_append header heicBrands heifBrands
    simp +contextual [uploadedRules, imageRules, uploadedBrandRules, containerRules, guarded, matchesMagic,
      isPng, isGif, isIcon, isWebm, still, avifBrands, quicktimeBrands, mobileBrands]
  exact rules _ (mem_of_firstMatch h) rfl hp hm

variable {p w : List UInt8}

theorem hasWindow_iff : hasWindow p w ↔ w <:+: p := by
  rw [hasWindow, List.any_eq_true, List.infix_iff_prefix_suffix]
  simp [List.isPrefixOf_iff_prefix, and_comm]

theorem getElem?_of_isFtyp (h : isFtyp p) :
    p[4]? = some 102 ∧ p[5]? = some 116 ∧ p[6]? = some 121 ∧ p[7]? = some 112 := by
  simp only [isFtyp, Bool.and_eq_true, decide_eq_true_eq] at h
  have byte (i : Nat) (hi : i < 4) : p[4 + i]? = (ascii "ftyp")[i]? := by
    rw [← h.right, List.getElem?_take_of_lt hi, List.getElem?_drop]
  exact ⟨byte 0 (by decide), byte 1 (by decide), byte 2 (by decide), byte 3 (by decide)⟩

-- A code of four bytes that has more than one byte in common with a box `ftyp` around which it stands, or
-- that begins within the box.
def touchesBox (w : List UInt8) : Bool :=
  w[2]? = some 102 && w[3]? = some 116 || w[1]? = some 102 || ([102, 116, 121, 112] : List UInt8).any fun c => w[0]? = some c

-- Where a code of four bytes can stand in a payload that ends before a brand follows its first box.
theorem window_short (hf : isFtyp p) (hl : p.length < 12) (hw : w.length = 4) (h : hasWindow p w) :
    w = p.take 4 ∨ w.take 3 = (p.take 4).drop 1 ∧ w[3]? = some 102 ∨ touchesBox w := by
  obtain ⟨s, t, rfl⟩ := hasWindow_iff.mp h
  have get (i : Nat) (hi : i < 4) : (s ++ w ++ t)[s.length + i]? = w[i]? := by
    rw [List.append_assoc, List.getElem?_append_right (Nat.le_add_right ..), Nat.add_sub_cancel_left,
      List.getElem?_append_left (by omega)]
  obtain ⟨four, five, six, seven⟩ := getElem?_of_isFtyp hf
  have short : s.length < 8 := by
    simp only [List.length_append] at hl
    omega
  generalize hk : s.length = k at short get
  obtain rfl | rfl | rfl | rfl | rfl | rfl | rfl | rfl :
    k = 0 ∨ k = 1 ∨ k = 2 ∨ k = 3 ∨ k = 4 ∨ k = 5 ∨ k = 6 ∨ k = 7 := by omega
  · obtain rfl := List.length_eq_zero_iff.mp hk
    left
    simp [← hw]
  · obtain ⟨b, rfl⟩ := List.length_eq_one_iff.mp hk
    right; left
    rw [← get 3 (by decide)]
    exact ⟨by simp [List.take_append, hw], four⟩
  all_goals right; right
  · simp [touchesBox, (get 2 (by decide)).symm.trans four, (get 3 (by decide)).symm.trans five]
  · simp [touchesBox, (get 1 (by decide)).symm.trans four]
  · simp [touchesBox, (get 0 (by decide)).symm.trans four]
  · simp [touchesBox, (get 0 (by decide)).symm.trans five]
  · simp [touchesBox, (get 0 (by decide)).symm.trans six]
  · simp [touchesBox, (get 0 (by decide)).symm.trans seven]

def movieCodes : List (List UInt8) :=
  (importedBrands ++ uploadedBrands).map ascii

theorem movie_of_sniff (h : sniffMediaType p = some .mp4) :
    isFtyp p ∧ hasBrand p (importedBrands ++ uploadedBrands) := by
  rw [sniffMediaType_eq] at h
  have rules : ∀ r ∈ uploadedRules p, r.1 = true → r.2 = .mp4 →
      isFtyp p ∧ hasBrand p (importedBrands ++ uploadedBrands) := by
    simp +contextual [uploadedRules, imageRules, uploadedBrandRules, containerRules, guarded]
  exact rules _ (mem_of_firstMatch h) rfl rfl

-- A movie that ends before a brand follows its first box has a brand in place of the box's size.
theorem sniff_short_movie (hl : p.length < 12) :
    sniffMediaType p = some .mp4 ↔ isFtyp p ∧ p.take 4 ∈ movieCodes := by
  constructor
  case mp =>
    intro h
    obtain ⟨ftyp, brand⟩ := movie_of_sniff h
    obtain ⟨b, hb, window⟩ := List.any_eq_true.mp brand
    have code : (ascii b).length = 4 ∧ (ascii b)[3]? ≠ some 102 ∧ touchesBox (ascii b) = false :=
      (by decide : ∀ b ∈ importedBrands ++ uploadedBrands,
        (ascii b).length = 4 ∧ (ascii b)[3]? ≠ some 102 ∧ touchesBox (ascii b) = false) b hb
    refine ⟨ftyp, ?_⟩
    rcases window_short ftyp hl code.left window with first | second | touches
    case inl     => exact List.mem_map.mpr ⟨b, hb, first⟩
    case inr.inl => exact absurd second.right code.right.left
    case inr.inr =>
      rw [code.right.right] at touches
      cases touches
  case mpr =>
    rintro ⟨ftyp, movie⟩
    have begins : startsWith p (p.take 4) := startsWith_iff.mpr (List.take_prefix 4 p)
    have apart : ∀ c ∈ movieCodes, ∀ start ∈ [ascii "%PDF-", 0x89 :: ascii "PNG\r\n\x1a\n", [0xff, 0xd8, 0xff],
        ascii "GIF87a", ascii "GIF89a", ascii "RIFF", ascii "BM", [0x00, 0x00, 0x01, 0x00],
        ascii "II" ++ [0x2a, 0x00], ascii "MM" ++ [0x00, 0x2a]], ¬ c <+: start ∧ ¬ start <+: c := by
      decide
    have start {start} (hs) : startsWith p start = false :=
      startsWith_apart begins (apart _ movie start hs).left (apart _ movie start hs).right
    have riff : isRiff p "WEBP" = false := by
      refine Bool.eq_false_iff.mpr fun hr => ?_
      have := startsWith_of_isRiff hr
      rw [start (by decide)] at this
      cases this
    have other : hasBrand p (avifBrands ++ heicBrands ++ heifBrands ++ quicktimeBrands ++ mobileBrands) = false := by
      refine List.any_eq_false.mpr fun b hb window => ?_
      have code : (ascii b).length = 4 ∧ ascii b ∉ movieCodes ∧
          (∀ c ∈ movieCodes, (ascii b).take 3 ≠ c.drop 1) ∧ touchesBox (ascii b) = false :=
        (by decide : ∀ b ∈ avifBrands ++ heicBrands ++ heifBrands ++ quicktimeBrands ++ mobileBrands,
          (ascii b).length = 4 ∧ ascii b ∉ movieCodes ∧ (∀ c ∈ movieCodes, (ascii b).take 3 ≠ c.drop 1) ∧
            touchesBox (ascii b) = false) b hb
      rcases window_short ftyp hl code.left window with first | second | touches
      case inl     => exact code.right.left (first ▸ movie)
      case inr.inl => exact code.right.right.left _ movie second.left
      case inr.inr =>
        rw [code.right.right.right] at touches
        cases touches
    have brand : hasBrand p (importedBrands ++ uploadedBrands) := by
      obtain ⟨b, hb, code⟩ := List.mem_map.mp movie
      refine List.any_eq_true.mpr ⟨b, hb, hasWindow_iff.mpr ?_⟩
      rw [code]
      exact (List.take_prefix 4 p).isInfix
    simp only [hasBrand_append, Bool.or_eq_false_iff] at other
    obtain ⟨⟨⟨⟨avif, heic⟩, heif⟩, quicktime⟩, mobile⟩ := other
    rw [sniffMediaType_eq]
    simp [uploadedRules, imageRules, uploadedBrandRules, isPng, isGif, isIcon, isTiff, ftyp, start, riff, avif, heic,
      heif, quicktime, mobile, brand]

theorem matches_magic_iff (p : List UInt8) :
    (∀ mime, sniffMediaType p = some mime → enqueueMediaIndexJobs mime ≠ [] → matchesMagic mime p) ↔
      ¬ (p.length < 12 ∧ isFtyp p ∧ p.take 4 ∈ movieCodes) := by
  have movie : matchesMagic .mp4 p = (isFtyp p && p.length ≥ 12) := rfl
  constructor
  case mp =>
    rintro h ⟨hl, short⟩
    have := h _ ((sniff_short_movie hl).mpr short) (by decide)
    rw [movie, Bool.and_eq_true, decide_eq_true_eq] at this
    omega
  case mpr =>
    intro h mime hm jobs
    have pdf : mime ≠ .pdf := by
      rintro rfl
      exact jobs (by decide)
    by_cases hv : mime = .mp4
    case neg => exact matches_of_sniff hm pdf hv
    case pos =>
      subst hv
      have long : ¬ p.length < 12 := fun hl => h ⟨hl, (sniff_short_movie hl).mp hm⟩
      rw [movie, (movie_of_sniff hm).left, Bool.true_and, decide_eq_true_eq]
      omega

def brandedSize : List UInt8 :=
  ascii "isomftyp"

theorem not_matches_magic : ¬ ∀ mime, sniffMediaType brandedSize = some mime →
    enqueueMediaIndexJobs mime ≠ [] → matchesMagic mime brandedSize := by
  decide +kernel

end MyDrive.Media
