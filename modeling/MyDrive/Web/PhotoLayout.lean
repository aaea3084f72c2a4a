import Mathlib.Algebra.Order.Field.Rat
import MyDrive.Web.FaceCrop

-- `layoutJustified`, in exact arithmetic.

namespace MyDrive.Web

structure JustifiedTile (ν : Type) where
  id     : String
  aspect : ν

structure PlacedTile where
  id     : String
  width  : ℚ
  height : ℚ
  deriving DecidableEq

namespace PhotoLayout

def minAspect : ℚ := 42 / 100

def maxAspect : ℚ := 275 / 100

def minHeight : ℚ := 72

def targetHeight : ℚ := 188

def gap : ℚ := 6

def clampAspect (aspect : Number) : ℚ :=
  match aspect with
  | none        => 1
  | some aspect => if aspect ≤ 0 then 1 else min maxAspect (max minAspect aspect)

-- The rows that are cut, and the row that is filled.
structure Layout where
  rows      : List (List PlacedTile)
  row       : List (JustifiedTile ℚ)
  aspectSum : ℚ

def gaps (count : Nat) : ℚ :=
  gap * max ((count : ℚ) - 1) 0

def place (height : ℚ) (tile : JustifiedTile ℚ) : PlacedTile where
  id     := tile.id
  width  := max 1 (height * tile.aspect)
  height := height

def Layout.commit (l : Layout) (width : ℚ) (last : Bool) : Layout :=
  if l.row.isEmpty then l
  else
    let fitted := (width - gaps l.row.length) / l.aspectSum
    let height := max minHeight (if last then min targetHeight fitted else fitted)
    { rows := l.rows ++ [l.row.map (place height)], row := [], aspectSum := 0 }

def Layout.add (l : Layout) (width : ℚ) (item : JustifiedTile Number) : Layout :=
  let aspect    := clampAspect item.aspect
  let nextSum   := l.aspectSum + aspect
  let nextCount := l.row.length + 1
  let height    := (width - gaps nextCount) / nextSum
  let next : Layout := { l with row := l.row ++ [⟨item.id, aspect⟩], aspectSum := nextSum }
  if 1 < nextCount ∧ height ≤ targetHeight then next.commit width false else next

def floorWidth (containerWidth : ℚ) : ℚ :=
  max 1 (containerWidth.floor : ℚ)

end PhotoLayout

open PhotoLayout in
def layoutJustified (items : List (JustifiedTile Number)) (containerWidth : ℚ) : List (List PlacedTile) :=
  let width := floorWidth containerWidth
  let filled := items.foldl (fun l item => l.add width item) (Layout.mk [] [] 0)
  (filled.commit width true).rows

end MyDrive.Web
