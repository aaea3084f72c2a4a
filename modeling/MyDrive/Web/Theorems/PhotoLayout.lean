import Mathlib.Tactic.Linarith
import Mathlib.Tactic.FieldSimp
import Mathlib.Tactic.NormNum
import Mathlib.Tactic.Ring
import Mathlib.Algebra.BigOperators.Ring.List
import Mathlib.Algebra.Order.BigOperators.Group.List
import MyDrive.Web.PhotoLayout

namespace MyDrive.Web.PhotoLayout

variable {items : List (JustifiedTile Number)} {item : JustifiedTile Number} {tiles : List (JustifiedTile ℚ)}
  {tile : JustifiedTile ℚ} {row : List PlacedTile} {width height : ℚ} {l : Layout} {aspect : Number}

def total (row : List PlacedTile) : ℚ :=
  (row.map (·.width)).sum + gaps row.length

-- Even at the least height the tiles do not fit.
def Overfull (width : ℚ) (row : List PlacedTile) : Prop :=
  width < minHeight * (row.map fun t => t.width / t.height).sum + gaps row.length

instance : Decidable (Overfull width row) := by
  unfold Overfull
  infer_instance

-- A row of tiles of one height, which is not wider than the container unless it is overfull.
structure Row (width : ℚ) (row : List PlacedTile) : Prop where
  nonempty : row ≠ []
  height   : ∃ h, 0 < h ∧ ∀ t ∈ row, t.height = h
  fits     : total row ≤ width ↔ ¬Overfull width row

-- A row that fills the container unless it is overfull.
structure Cut (width : ℚ) (row : List PlacedTile) : Prop extends Row width row where
  fills : total row = width ↔ ¬Overfull width row

theorem clampAspect_range : minAspect ≤ clampAspect aspect ∧ clampAspect aspect ≤ maxAspect := by
  have order : minAspect ≤ maxAspect := by norm_num [minAspect, maxAspect]
  cases aspect
  case none => norm_num [clampAspect, minAspect, maxAspect]
  case some a =>
    by_cases h : a ≤ 0
    case pos => norm_num [clampAspect, h, minAspect, maxAspect]
    case neg => simp only [clampAspect, if_neg h]; exact ⟨le_min order (le_max_left ..), min_le_left ..⟩

-- The tiles of a row.
section

def Bounded (tiles : List (JustifiedTile ℚ)) : Prop :=
  ∀ t ∈ tiles, minAspect ≤ t.aspect ∧ t.aspect ≤ maxAspect

def aspects (tiles : List (JustifiedTile ℚ)) : ℚ :=
  (tiles.map (·.aspect)).sum

theorem aspects_append (tiles : List (JustifiedTile ℚ)) (tile : JustifiedTile ℚ) :
    aspects (tiles ++ [tile]) = aspects tiles + tile.aspect := by
  simp [aspects]

theorem aspects_nonneg (h : Bounded tiles) : 0 ≤ aspects tiles := by
  refine List.sum_nonneg fun a ha => ?_
  obtain ⟨t, ht, rfl⟩ := List.mem_map.mp ha
  exact le_trans (by norm_num [minAspect]) (h t ht).left

theorem aspects_pos (h : Bounded tiles) (hn : tiles ≠ []) : 0 < aspects tiles := by
  cases tiles
  case nil => contradiction
  case cons t ts =>
    have first : 0 < t.aspect := lt_of_lt_of_le (by norm_num [minAspect]) (h t List.mem_cons_self).left
    have others : 0 ≤ aspects ts := aspects_nonneg fun t' ht' => h t' (List.mem_cons_of_mem t ht')
    simp only [aspects, List.map_cons, List.sum_cons] at others ⊢
    exact add_pos_of_pos_of_nonneg first others

theorem gaps_succ (n : Nat) : gaps (n + 1) = gap * n := by
  simp [gaps]

theorem width_place (hh : minHeight ≤ height) (ht : minAspect ≤ tile.aspect) :
    (place height tile).width = height * tile.aspect := by
  have area : minHeight * minAspect ≤ height * tile.aspect :=
    mul_le_mul hh ht (by norm_num [minAspect]) (le_trans (by norm_num [minHeight]) hh)
  refine max_eq_right (le_trans ?_ area)
  norm_num [minHeight, minAspect]

theorem aspect_place (hh : minHeight ≤ height) (ht : minAspect ≤ tile.aspect) :
    (place height tile).width / (place height tile).height = tile.aspect := by
  have : height ≠ 0 := (lt_of_lt_of_le (by norm_num [minHeight]) hh).ne'
  rw [width_place hh ht, place]
  field_simp

variable (hb : Bounded tiles) (hh : minHeight ≤ height)
include hb hh

theorem map_aspect_place : (tiles.map (place height)).map (fun t => t.width / t.height) = tiles.map (·.aspect) := by
  rw [List.map_map]
  exact List.map_congr_left fun t ht => aspect_place hh (hb t ht).left

theorem total_place : total (tiles.map (place height)) = height * aspects tiles + gaps tiles.length := by
  have widths : (tiles.map (place height)).map (·.width) = tiles.map (height * ·.aspect) := by
    rw [List.map_map]
    exact List.map_congr_left fun t ht => width_place hh (hb t ht).left
  rw [total, widths, List.length_map, List.sum_map_mul_left, aspects]

theorem overfull_place : Overfull width (tiles.map (place height)) ↔
    width < minHeight * aspects tiles + gaps tiles.length := by
  rw [Overfull, map_aspect_place hb hh, List.length_map, aspects]

omit hh

-- A row that is cut at the height at which it fills the width, or at the least height.
theorem cut_place (hn : tiles ≠ []) (he : height = max minHeight ((width - gaps tiles.length) / aspects tiles)) :
    Cut width (tiles.map (place height)) := by
  have pos := aspects_pos hb hn
  have least : minHeight ≤ height := he ▸ le_max_left ..
  have high : 0 < height := lt_of_lt_of_le (by norm_num [minHeight]) least
  have split : (total (tiles.map (place height)) = width ∧ ¬Overfull width (tiles.map (place height))) ∨
      (width < total (tiles.map (place height)) ∧ Overfull width (tiles.map (place height))) := by
    rw [total_place hb least, overfull_place hb least, he]
    by_cases fits : minHeight ≤ (width - gaps tiles.length) / aspects tiles
    case pos =>
      rw [max_eq_right fits, div_mul_cancel₀ _ pos.ne']
      rw [le_div_iff₀ pos] at fits
      exact .inl ⟨by ring, by linarith⟩
    case neg =>
      rw [max_eq_left (not_le.mp fits).le]
      rw [not_le, div_lt_iff₀ pos] at fits
      exact .inr ⟨by linarith, by linarith⟩
  constructor
  case toRow =>
    refine ⟨by simpa using hn, ⟨height, high, by simp [place]⟩, ?_⟩
    cases split
    case inl split => exact iff_of_true split.left.le split.right
    case inr split => exact iff_of_false (not_le.mpr split.left) (not_not.mpr split.right)
  case fills =>
    cases split
    case inl split => exact iff_of_true split.left split.right
    case inr split => exact iff_of_false split.left.ne' (not_not.mpr split.right)

-- The last row, when it has room at the least height.
theorem row_place (hn : tiles ≠ []) (fits : minHeight ≤ (width - gaps tiles.length) / aspects tiles)
    (he : height = max minHeight (min targetHeight ((width - gaps tiles.length) / aspects tiles))) :
    Row width (tiles.map (place height)) := by
  have pos := aspects_pos hb hn
  have target : minHeight ≤ min targetHeight ((width - gaps tiles.length) / aspects tiles) :=
    le_min (by norm_num [minHeight, targetHeight]) fits
  have least : minHeight ≤ height := he ▸ le_max_left ..
  have high : 0 < height := lt_of_lt_of_le (by norm_num [minHeight]) least
  have greatest : height ≤ (width - gaps tiles.length) / aspects tiles := by
    rw [he, max_eq_right target]
    exact min_le_right ..
  rw [le_div_iff₀ pos] at greatest fits
  have inside : total (tiles.map (place height)) ≤ width := by
    rw [total_place hb least]
    linarith
  have room : ¬Overfull width (tiles.map (place height)) := by
    rw [overfull_place hb least]
    linarith
  exact ⟨by simpa using hn, ⟨height, high, by simp [place]⟩, iff_of_true inside room⟩

end

-- The loop over the items.
section

structure Filling (width : ℚ) (done : List (JustifiedTile Number)) (l : Layout) : Prop where
  ids     : l.rows.flatten.map (·.id) ++ l.row.map (·.id) = done.map (·.id)
  aspects : l.rows.flatten.map (fun t => t.width / t.height) ++ l.row.map (·.aspect) =
    done.map fun item => clampAspect item.aspect
  bounded : Bounded l.row
  sum     : l.aspectSum = PhotoLayout.aspects l.row
  cut     : ∀ row ∈ l.rows, Cut width row

-- The row that is filled has room at the least height.
def Layout.Open (l : Layout) (width : ℚ) : Prop :=
  l.row ≠ [] → minHeight ≤ (width - gaps l.row.length) / l.aspectSum

variable {done : List (JustifiedTile Number)}

theorem Filling.push (h : Filling width done l) : Filling width (done ++ [item])
    { l with row := l.row ++ [⟨item.id, clampAspect item.aspect⟩], aspectSum := l.aspectSum + clampAspect item.aspect } where
  ids     := by simp [← h.ids]
  aspects := by simp [← h.aspects]
  bounded := by
    intro t ht
    cases List.mem_append.mp ht
    case inl ht => exact h.bounded t ht
    case inr ht =>
      rw [List.mem_singleton.mp ht]
      exact clampAspect_range
  sum     := by rw [aspects_append, h.sum]
  cut     := h.cut

theorem Filling.commit (h : Filling width done l) : Filling width done (l.commit width false) := by
  unfold Layout.commit
  split
  case isTrue => exact h
  case isFalse hn =>
    have nonempty : l.row ≠ [] := by simpa using hn
    have aspect := map_aspect_place h.bounded (le_max_left minHeight ((width - gaps l.row.length) / l.aspectSum))
    constructor
    case ids => simp [← h.ids, place]
    case aspects => rw [← h.aspects, ← aspect]; simp
    case bounded => simp [Bounded]
    case sum => rfl
    case cut =>
      intro row hr
      cases List.mem_append.mp hr
      case inl hr => exact h.cut row hr
      case inr hr =>
        rw [List.mem_singleton.mp hr]
        exact cut_place h.bounded nonempty (by rw [h.sum]; simp)

theorem row_commit (last : Bool) : (l.commit width last).row = [] := by
  unfold Layout.commit
  split
  case isTrue h  => simpa using h
  case isFalse h => rfl

theorem Filling.add (h : Filling width done l) : Filling width (done ++ [item]) (l.add width item) := by
  simp only [Layout.add]
  split
  case isTrue  => exact h.push.commit
  case isFalse => exact h.push

theorem open_add (h : Filling width done l) (hw : 320 ≤ width) : (l.add width item).Open width := by
  simp only [Layout.add]
  split
  case isTrue =>
    intro hn
    exact absurd (row_commit false) hn
  case isFalse hc =>
    intro _
    simp only [List.length_append, List.length_singleton]
    by_cases first : l.row = []
    case pos =>
      have sum : l.aspectSum = 0 := by simp [h.sum, first, PhotoLayout.aspects]
      have range := @clampAspect_range item.aspect
      have pos : 0 < clampAspect item.aspect := lt_of_lt_of_le (by norm_num [minAspect]) range.left
      rw [sum, first, zero_add, le_div_iff₀ pos]
      norm_num [minHeight, maxAspect, gaps] at range ⊢
      linarith
    case neg =>
      have several : 1 < l.row.length + 1 := Nat.succ_lt_succ (List.length_pos_iff.mpr first)
      have high := not_le.mp (not_and.mp hc several)
      exact le_trans (by norm_num [minHeight, targetHeight]) high.le

theorem filling_foldl (h : Filling width done l) (ho : l.Open width) (hw : 320 ≤ width) :
    Filling width (done ++ items) (items.foldl (fun l item => l.add width item) l) ∧
    (items.foldl (fun l item => l.add width item) l).Open width := by
  induction items generalizing l done
  case nil => simpa using And.intro h ho
  case cons item items hi =>
    have := hi (@Filling.add item width l done h) (open_add h hw)
    simpa using this

end

-- The rows of a photo wall.
structure Justified (items : List (JustifiedTile Number)) (width : ℚ) (rows : List (List PlacedTile)) : Prop where
  ids     : rows.flatten.map (·.id) = items.map (·.id)
  aspects : rows.flatten.map (fun t => t.width / t.height) = items.map fun item => clampAspect item.aspect
  every   : ∀ row ∈ rows, Row width row
  cut     : ∀ row ∈ rows.dropLast, Cut width row

theorem Filling.justified (h : Filling width items l) (ho : l.Open width) :
    Justified items width (l.commit width true).rows := by
  unfold Layout.commit
  split
  case isTrue he =>
    have empty : l.row = [] := by simpa using he
    constructor
    case ids => simpa [empty] using h.ids
    case aspects => simpa [empty] using h.aspects
    case every => exact fun row hr => (h.cut row hr).toRow
    case cut => exact fun row hr => h.cut row (List.dropLast_subset _ hr)
  case isFalse hn =>
    have nonempty : l.row ≠ [] := by simpa using hn
    have aspect := map_aspect_place h.bounded
      (le_max_left minHeight (min targetHeight ((width - gaps l.row.length) / l.aspectSum)))
    constructor
    case ids => simp [← h.ids, place]
    case aspects => rw [← h.aspects, ← aspect]; simp
    case every =>
      intro row hr
      cases List.mem_append.mp hr
      case inl hr => exact (h.cut row hr).toRow
      case inr hr =>
        rw [List.mem_singleton.mp hr]
        exact row_place h.bounded nonempty (h.sum ▸ ho nonempty) (by rw [h.sum]; simp)
    case cut =>
      intro row hr
      exact h.cut row (by simpa using hr)

theorem floorWidth_eq {containerWidth : ℚ} (h : 320 ≤ containerWidth) :
    floorWidth containerWidth = containerWidth.floor ∧ 320 ≤ (containerWidth.floor : ℚ) := by
  have whole : (320 : ℤ) ≤ containerWidth.floor := Rat.le_floor_iff.mpr h
  have wide : (320 : ℚ) ≤ containerWidth.floor := by exact_mod_cast whole
  exact ⟨max_eq_right (le_trans (by norm_num) wide), wide⟩

-- Two photos that are too wide for one row of a small screen.
def panoramas : List (JustifiedTile Number) :=
  [⟨"a", some 3⟩, ⟨"b", some 3⟩]

-- That no row is too wide, and all rows but the last are full.
structure Filled (items : List (JustifiedTile Number)) (width : ℚ) (rows : List (List PlacedTile)) : Prop where
  ids   : rows.flatten.map (·.id) = items.map (·.id)
  every : ∀ row ∈ rows, (∃ h, 0 < h ∧ ∀ t ∈ row, t.height = h) ∧ total row ≤ width
  full  : ∀ row ∈ rows.dropLast, total row = width

end MyDrive.Web.PhotoLayout
