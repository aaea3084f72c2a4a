import Mathlib.Algebra.Order.Field.Rat
import MyDrive.Media.Faces

namespace MyDrive.Media.DetectedFace

variable {κ ρ : Type} [LinearOrder κ]

-- The key of the order in which detections are looked at.
def rank (face : DetectedFace κ) : κᵒᵈ ×ₗ (κ ×ₗ κ) :=
  toLex (OrderDual.toDual face.confidence, toLex (face.left, face.top))

theorem ranking_isLE {left right : DetectedFace κ} : (ranking left right).isLE ↔ rank left ≤ rank right := by
  have top : (compare left.top right.top).isLE ↔ left.top ≤ right.top := by
    rw [Ordering.isLE_iff_ne_gt]
    exact compare_le_iff_le
  simp only [ranking, rank, Ordering.isLE_then_iff_or, compare_lt_iff_lt, compare_eq_iff_eq, Prod.Lex.toLex_le_toLex,
    OrderDual.toDual_lt_toDual, OrderDual.toDual_inj, top, @eq_comm _ right.confidence]

theorem pairwise_mergeSort (faces : List (DetectedFace κ)) :
    (faces.mergeSort fun left right => (ranking left right).isLE).Pairwise fun left right => (ranking left right).isLE := by
  apply List.pairwise_mergeSort
  case trans =>
    intro a b c hab hbc
    exact ranking_isLE.mpr (le_trans (ranking_isLE.mp hab) (ranking_isLE.mp hbc))
  case total =>
    intro a b
    rw [Bool.or_eq_true, ranking_isLE, ranking_isLE]
    exact le_total (rank a) (rank b)

variable [LT ρ] [DecidableLT ρ] {iou : DetectedFace κ → DetectedFace κ → ρ} {half : ρ}

structure Suppressed (iou : DetectedFace κ → DetectedFace κ → ρ) (half : ρ) (faces kept : List (DetectedFace κ)) :
    Prop where
  sublist    : kept.Subperm faces
  sorted     : kept.Pairwise fun left right => (ranking left right).isLE
  apart      : kept.Pairwise fun left right => ¬half < iou left right ∧ ¬half < iou right left
  overlapped : ∀ dropped, (kept ++ dropped).Perm faces → ∀ face ∈ dropped,
    ∃ existing ∈ kept, half < iou existing face ∧ (ranking existing face).isLE
  idempotent : suppressOverlaps iou half kept = kept

theorem suppressed (symm : ∀ left right, iou left right = iou right left) (faces : List (DetectedFace κ)) :
    Suppressed iou half faces (suppressOverlaps iou half faces) := by
  have perm := List.mergeSort_perm faces fun left right => (ranking left right).isLE
  have order := pairwise_mergeSort faces
  have sublist : (suppressOverlaps iou half faces).Sublist (faces.mergeSort _) := Greedy.thin_sublist _ _
  have apart : (suppressOverlaps iou half faces).Pairwise fun left right => ¬decide (half < iou left right) :=
    Greedy.thin_apart _ _
  have sorted := order.sublist sublist
  constructor
  case sublist => exact sublist.subperm.trans perm.subperm
  case sorted => exact sorted
  case apart =>
    refine apart.imp fun {left right} h => ?_
    have clear : ¬half < iou left right := by simpa using h
    exact ⟨clear, symm left right ▸ clear⟩
  case overlapped =>
    intro dropped all face hf
    have ⟨existing, kept, overlap, earlier⟩ := Greedy.left_out (all.trans perm.symm) hf
    exact ⟨existing, kept, of_decide_eq_true overlap, List.pairwise_iff_forall_sublist.mp order earlier⟩
  case idempotent =>
    calc suppressOverlaps iou half (suppressOverlaps iou half faces)
      _ = Greedy.thin _ (suppressOverlaps iou half faces) := congrArg _ (List.mergeSort_of_pairwise sorted)
      _ = suppressOverlaps iou half faces                 := Greedy.thin_of_apart apart

-- The weaker of two detections of one face, a face apart from it, and the stronger detection.
def detections : List (DetectedFace ℚ) :=
  [⟨22 / 100, 21 / 100, 3 / 10, 3 / 10, 4, []⟩, ⟨7 / 10, 6 / 10, 2 / 10, 2 / 10, 5, []⟩,
   ⟨20 / 100, 20 / 100, 3 / 10, 3 / 10, 9, []⟩]

theorem suppressed_detections :
    Suppressed DetectedFace.iou (1 / 2 : ℚ) detections (suppressOverlaps DetectedFace.iou (1 / 2 : ℚ) detections) :=
  suppressed iou_comm detections

end MyDrive.Media.DetectedFace
