import Mathlib.Data.List.Sort
import Mathlib.Data.Prod.Lex
import Mathlib.Algebra.Order.Field.Basic
import MyDrive.Library.Greedy

-- `suppress_overlaps` of detected faces.

namespace MyDrive.Media

structure DetectedFace (κ : Type) where
  left       : κ
  top        : κ
  width      : κ
  height     : κ
  confidence : κ
  descriptor : List UInt8

namespace DetectedFace

variable {κ ρ : Type}

def ranking [LinearOrder κ] (left right : DetectedFace κ) : Ordering :=
  (compare right.confidence left.confidence).then <|
    (compare left.left right.left).then (compare left.top right.top)

def suppressOverlaps [LinearOrder κ] [LT ρ] [DecidableLT ρ] (iou : DetectedFace κ → DetectedFace κ → ρ) (half : ρ)
    (faces : List (DetectedFace κ)) : List (DetectedFace κ) :=
  Greedy.thin (fun existing face => half < iou existing face) (faces.mergeSort fun left right => (ranking left right).isLE)

-- The intersection over the union of two boxes.
def iou [Field κ] [LinearOrder κ] (left right : DetectedFace κ) : κ :=
  let overlapWidth  := min (left.left + left.width) (right.left + right.width) - max left.left right.left
  let overlapHeight := min (left.top + left.height) (right.top + right.height) - max left.top right.top
  let intersection  := overlapWidth * overlapHeight
  let union         := left.width * left.height + right.width * right.height - intersection
  if overlapWidth ≤ 0 ∨ overlapHeight ≤ 0 then 0 else if union ≤ 0 then 0 else intersection / union

theorem iou_comm [Field κ] [LinearOrder κ] (left right : DetectedFace κ) : iou left right = iou right left := by
  simp only [iou, min_comm (left.left + _), max_comm left.left, min_comm (left.top + _), max_comm left.top,
    add_comm (left.width * _)]

end DetectedFace

end MyDrive.Media
