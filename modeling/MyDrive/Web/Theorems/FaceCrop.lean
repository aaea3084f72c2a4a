import Mathlib.Tactic.Linarith
import Mathlib.Tactic.FieldSimp
import Mathlib.Tactic.NormNum
import Mathlib.Tactic.Ring
import MyDrive.Web.FaceCrop

namespace MyDrive.Web.FaceCrop

variable {box : FaceBox ℚ} {s : Style} {center side length low high : ℚ}

-- The part of a line that a window of a given length around a center shows, moved into the line.
section

theorem clamp_inside (h : side ≤ length) : 0 ≤ clamp (center - side / 2) 0 (max 0 (length - side)) ∧
    clamp (center - side / 2) 0 (max 0 (length - side)) + side ≤ length := by
  have room : max 0 (length - side) = length - side := max_eq_right (sub_nonneg.mpr h)
  rw [clamp, room]
  constructor
  · exact le_min (sub_nonneg.mpr h) (le_max_left ..)
  · linarith [min_le_left (length - side) (max 0 (center - side / 2))]

theorem clamp_covers (h : side ≤ length) (hc : low + high = 2 * center) (hs : high - low ≤ side) (hl : 0 ≤ low)
    (hh : high ≤ length) : clamp (center - side / 2) 0 (max 0 (length - side)) ≤ low ∧
    high ≤ clamp (center - side / 2) 0 (max 0 (length - side)) + side := by
  have room : max 0 (length - side) = length - side := max_eq_right (sub_nonneg.mpr h)
  rw [clamp, room]
  constructor
  · refine min_le_of_right_le (max_le hl ?_)
    linarith
  · rw [← sub_le_iff_le_add]
    refine le_min (by linarith) (le_max_of_le_right ?_)
    linarith

end

-- An image of a size in pixels.
structure Image where
  width      : ℚ
  height     : ℚ
  width_pos  : 0 < width
  height_pos : 0 < height

def Image.aspect (i : Image) : ℚ :=
  i.width / i.height

-- The point of an image, in pixels, is shown inside of the frame.
def Style.Shows (s : Style) (i : Image) (x y : ℚ) : Prop :=
  (0 ≤ s.left + x / i.width * s.width ∧ s.left + x / i.width * s.width ≤ 100) ∧
  (0 ≤ s.top + y / i.height * s.height ∧ s.top + y / i.height * s.height ≤ 100)

structure Square where
  left : ℚ
  top  : ℚ
  side : ℚ

structure Framed (s : Style) (i : Image) (box : FaceBox ℚ) (q : Square) : Prop where
  side_pos : 0 < q.side
  shown    : ∀ x y, s.Shows i x y ↔ (q.left ≤ x ∧ x ≤ q.left + q.side) ∧ (q.top ≤ y ∧ y ≤ q.top + q.side)
  inside   : (0 ≤ q.left ∧ q.left + q.side ≤ i.width) ∧ (0 ≤ q.top ∧ q.top + q.side ≤ i.height)
  face     : max (box.width * i.width) (box.height * i.height) ≤ min i.width i.height →
    (q.left ≤ box.left * i.width ∧ (box.left + box.width) * i.width ≤ q.left + q.side) ∧
    (q.top ≤ box.top * i.height ∧ (box.top + box.height) * i.height ≤ q.top + q.side)

-- How an accepted style is made, from the side of the window and its origin in units of the image's height.
structure Placed (box : FaceBox ℚ) (aspect : ℚ) (s : Style) (side x y : ℚ) : Prop where
  aspect_pos : 0 < aspect
  side_pos   : 0 < side
  side_eq    : side = min (min aspect 1) (max (box.width * aspect) box.height * padding)
  x_eq       : x = clamp ((box.left + box.width / 2) * aspect - side / 2) 0 (max 0 (aspect - side))
  y_eq       : y = clamp (box.top + box.height / 2 - side / 2) 0 (max 0 (1 - side))
  face_pos   : 0 < box.width ∧ 0 < box.height
  width      : s.width = 100 / (side / aspect)
  height     : s.height = 100 / (side / aspect) / aspect
  left       : s.left = -(x / aspect) * (100 / (side / aspect))
  top        : s.top = -y * (100 / (side / aspect) / aspect)

theorem exists_placed {aspect : ℚ} (h : exactStyle box aspect = some s) : ∃ side x y, Placed box aspect s side x y := by
  unfold exactStyle at h
  simp only at h
  split_ifs at h with accepted positive wide
  have limits : 0 < aspect ∧ 0 < box.width ∧ 0 < box.height := by
    simp [accepts] at accepted
    tauto
  cases h
  exact ⟨_, _, _, limits.left, not_le.mp positive, rfl, rfl, rfl, limits.right, rfl, rfl, rfl, rfl⟩

namespace Placed

variable {aspect x y z : ℚ}

theorem side_le (h : Placed box aspect s side x y) : side ≤ aspect ∧ side ≤ 1 := by
  have : side ≤ min aspect 1 := h.side_eq ▸ min_le_left ..
  exact le_min_iff.mp this

-- A face that is not longer than the shorter side of the image fits into the window.
theorem face_le (h : Placed box aspect s side x y) (hf : max (box.width * aspect) box.height ≤ min aspect 1) :
    box.width * aspect ≤ side ∧ box.height ≤ side := by
  have pos : 0 < max (box.width * aspect) box.height := lt_max_of_lt_right h.face_pos.right
  have padded : max (box.width * aspect) box.height ≤ max (box.width * aspect) box.height * padding := by
    rw [padding]
    linarith
  have : max (box.width * aspect) box.height ≤ side := h.side_eq ▸ le_min hf padded
  exact max_le_iff.mp this

theorem left_add (h : Placed box aspect s side x y) (unit : ℚ) :
    s.left + z / (aspect * unit) * s.width = 100 / side * (z / unit - x) := by
  have := h.aspect_pos.ne'
  have := h.side_pos.ne'
  by_cases hu : unit = 0
  case pos => simp [hu, h.left, h.width]; field_simp
  case neg =>
    rw [h.left, h.width]
    field_simp
    ring

theorem top_add (h : Placed box aspect s side x y) (unit : ℚ) :
    s.top + z / unit * s.height = 100 / side * (z / unit - y) := by
  have := h.aspect_pos.ne'
  have := h.side_pos.ne'
  rw [h.top, h.height]
  field_simp
  ring

end Placed

theorem shown_iff {unit origin z : ℚ} (hs : 0 < side) (hu : 0 < unit) :
    (0 ≤ 100 / side * (z / unit - origin) ∧ 100 / side * (z / unit - origin) ≤ 100) ↔
      origin * unit ≤ z ∧ z ≤ origin * unit + side * unit := by
  have scale : 0 < 100 / side := div_pos (by norm_num) hs
  have least : 0 ≤ 100 / side * (z / unit - origin) ↔ origin * unit ≤ z := by
    rw [mul_nonneg_iff_of_pos_left scale, sub_nonneg, le_div_iff₀ hu]
  have greatest : 100 / side * (z / unit - origin) ≤ 100 ↔ z ≤ origin * unit + side * unit := by
    rw [div_mul_eq_mul_div, div_le_iff₀ hs, mul_le_mul_iff_right₀ (by norm_num), sub_le_iff_le_add, div_le_iff₀ hu]
    constructor <;> intro <;> linarith
  rw [least, greatest]

-- The box lies inside of the unit square.
def Inside (box : FaceBox ℚ) : Prop :=
  (0 ≤ box.left ∧ box.left + box.width ≤ 1) ∧ (0 ≤ box.top ∧ box.top + box.height ≤ 1)

theorem framed {i : Image} {side x y : ℚ} (h : Placed box i.aspect s side x y) (hb : Inside box) :
    Framed s i box ⟨x * i.height, y * i.height, side * i.height⟩ := by
  have width : i.width = i.aspect * i.height := (div_mul_cancel₀ i.width i.height_pos.ne').symm
  have insideX : 0 ≤ x ∧ x + side ≤ i.aspect := h.x_eq ▸ clamp_inside h.side_le.left
  have insideY : 0 ≤ y ∧ y + side ≤ 1 := h.y_eq ▸ clamp_inside h.side_le.right
  have scaled {a b : ℚ} (hab : a ≤ b) : a * i.height ≤ b * i.height :=
    mul_le_mul_of_nonneg_right hab i.height_pos.le
  constructor
  case side_pos => exact mul_pos h.side_pos i.height_pos
  case shown =>
    intro a b
    rw [Style.Shows, width, h.left_add, h.top_add, shown_iff h.side_pos i.height_pos, shown_iff h.side_pos i.height_pos]
  case inside =>
    have right := scaled insideX.right
    have bottom := scaled insideY.right
    rw [add_mul] at right bottom
    rw [width]
    exact ⟨⟨mul_nonneg insideX.left i.height_pos.le, right⟩, mul_nonneg insideY.left i.height_pos.le, by linarith⟩
  case face =>
    intro fits
    have short : max (box.width * i.aspect) box.height ≤ min i.aspect 1 := by
      have : max (box.width * i.aspect) box.height * i.height ≤ min i.aspect 1 * i.height := by
        rw [max_mul_of_nonneg _ _ i.height_pos.le, min_mul_of_nonneg _ _ i.height_pos.le, mul_assoc, ← width, one_mul]
        exact fits
      exact le_of_mul_le_mul_right this i.height_pos
    have ⟨faceWidth, faceHeight⟩ := h.face_le short
    have coversX : x ≤ box.left * i.aspect ∧ (box.left + box.width) * i.aspect ≤ x + side := by
      rw [h.x_eq]
      apply clamp_covers h.side_le.left
      case hc => ring
      case hs => linarith
      case hl => exact mul_nonneg hb.left.left h.aspect_pos.le
      case hh => exact mul_le_of_le_one_left h.aspect_pos.le hb.left.right
    have coversY : y ≤ box.top ∧ box.top + box.height ≤ y + side := by
      rw [h.y_eq]
      apply clamp_covers h.side_le.right
      case hc => ring
      case hs => linarith
      case hl => exact hb.right.left
      case hh => exact hb.right.right
    have left := scaled coversX.left
    have right := scaled coversX.right
    have top := scaled coversY.left
    have bottom := scaled coversY.right
    rw [mul_assoc, ← width] at left right
    rw [add_mul x] at right
    rw [add_mul y] at bottom
    exact ⟨⟨left, right⟩, top, bottom⟩

-- What is shown of an image with an accepted box.
theorem faceCropStyle_framed {number : FaceBox Number} {i : Image} {shown : Style} (hn : number.finite = some box)
    (hb : Inside box) (h : faceCropStyle (some number) (some i.aspect) = some shown) :
    ∃ s q, exactStyle box i.aspect = some s ∧ shown = s.rounded ∧ Framed s i box q := by
  obtain ⟨s, exact, rfl⟩ : ∃ s, exactStyle box i.aspect = some s ∧ s.rounded = shown := by
    simpa [faceCropStyle, hn, Option.bind_eq_some_iff] using h
  obtain ⟨side, x, y, placed⟩ := exists_placed exact
  exact ⟨s, _, exact, rfl, framed placed hb⟩

-- A face in a landscape photo.
def landscape : Image where
  width      := 3
  height     := 1
  width_pos  := by norm_num
  height_pos := by norm_num

def portrait : FaceBox ℚ :=
  ⟨45 / 100, 40 / 100, 5 / 100, 20 / 100⟩

def portraitStyle : Style :=
  ⟨882353 / 1000, 294118 / 1000, -369118 / 1000, -97059 / 1000⟩

theorem faceCropStyle_portrait :
    ∃ s q, exactStyle portrait landscape.aspect = some s ∧ portraitStyle = s.rounded ∧ Framed s landscape portrait q :=
  @faceCropStyle_framed portrait (portrait.map some) landscape portraitStyle rfl (by norm_num [Inside, portrait])
    (by decide +kernel)

end MyDrive.Web.FaceCrop
