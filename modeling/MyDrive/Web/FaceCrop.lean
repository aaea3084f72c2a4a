import Mathlib.Algebra.Order.Field.Rat

-- `faceCropStyle`, in exact arithmetic.

namespace MyDrive.Web

-- A number of the browser, which may be infinite or not a number.
abbrev Number := Option ℚ

structure FaceBox (ν : Type) where
  left   : ν
  top    : ν
  width  : ν
  height : ν

namespace FaceBox

def map {ν μ : Type} (f : ν → μ) (box : FaceBox ν) : FaceBox μ where
  left   := f box.left
  top    := f box.top
  width  := f box.width
  height := f box.height

def finite (box : FaceBox Number) : Option (FaceBox ℚ) := do
  return { left := ← box.left, top := ← box.top, width := ← box.width, height := ← box.height }

end FaceBox

namespace FaceCrop

-- Percentages of the side of the frame.
structure Style where
  width  : ℚ
  height : ℚ
  left   : ℚ
  top    : ℚ
  deriving DecidableEq

def padding : ℚ := 17 / 10

def clamp (value least greatest : ℚ) : ℚ :=
  min greatest (max least value)

def round (value : ℚ) : ℤ :=
  (value + 1 / 2).floor

def percent (value : ℚ) : ℚ :=
  round (value * 1000) / 1000

def Style.rounded (s : Style) : Style where
  width  := percent s.width
  height := percent s.height
  left   := percent s.left
  top    := percent s.top

def accepts (box : FaceBox ℚ) (imageAspect : ℚ) : Bool :=
  !(imageAspect ≤ 0 ||
    box.width ≤ 0 || box.height ≤ 0 || box.width > 1 || box.height > 1 ||
    box.left < -1 / 1000 || box.top < -1 / 1000 ||
    box.left + box.width > 102 / 100 || box.top + box.height > 102 / 100)

-- The style before it is rounded.
def exactStyle (box : FaceBox ℚ) (imageAspect : ℚ) : Option Style :=
  let centerX   := (box.left + box.width / 2) * imageAspect
  let centerY   := box.top + box.height / 2
  let faceSide  := max (box.width * imageAspect) box.height
  let maxSide   := min imageAspect 1
  let side      := min maxSide (faceSide * padding)
  let originX   := clamp (centerX - side / 2) 0 (max 0 (imageAspect - side))
  let originY   := clamp (centerY - side / 2) 0 (max 0 (1 - side))
  let normLeft  := originX / imageAspect
  let normWidth := side / imageAspect
  let normTop   := originY
  let widthPercent  := 100 / normWidth
  let heightPercent := widthPercent / imageAspect
  if !accepts box imageAspect then none
  else if side ≤ 0 then none
  else if normWidth ≤ 1 / 10000 then none
  else some {
    width  := widthPercent
    height := heightPercent
    left   := -normLeft * widthPercent
    top    := -normTop * heightPercent }

end FaceCrop

def faceCropStyle (box : Option (FaceBox Number)) (imageAspect : Number) : Option FaceCrop.Style := do
  let box ← box
  let imageAspect ← imageAspect
  let box ← box.finite
  let style ← FaceCrop.exactStyle box imageAspect
  return style.rounded

end MyDrive.Web
