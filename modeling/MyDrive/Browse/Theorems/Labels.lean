import MyDrive.Browse.Labels

-- What is typed to find a person is taken literally.

namespace MyDrive.Browse

open Drive (trim)

variable {value : List Char}

theorem containsPattern_eq : containsPattern value = '%' :: (Like.escape value ++ ['%']) :=
  rfl

-- The pattern of a search never ends in its escape character, which would be an error.
theorem complete_containsPattern : Like.Complete (containsPattern value) :=
  Like.complete_escape_append trivial

-- The collations that the database can have lower the characters one by one, and none of them becomes one
-- of the special characters of a pattern.
def Plain [Collation] [Collation.Charwise] : Prop :=
  ∀ c, Like.isSpecial c = false → ∀ d ∈ Collation.Charwise.fold c, Like.isSpecial d = false

section

variable [Collation] [Collation.Charwise]

theorem lower_ofList (text : List Char) :
    (Collation.lower (.ofList text)).toList = text.flatMap Collation.Charwise.fold := by
  rw [Collation.Charwise.lower_eq, String.toList_ofList, String.toList_ofList]

theorem fold_special {c : Char} (h : Like.isSpecial c) : Collation.Charwise.fold c = [c] := by
  simp only [Like.isSpecial, Bool.or_eq_true, decide_eq_true_eq] at h
  rcases h with (rfl | rfl) | rfl
  case inl.inl => exact Collation.Charwise.fold_plain (by decide) (by decide)
  case inl.inr => exact Collation.Charwise.fold_plain (by decide) (by decide)
  case inr     => exact Collation.Charwise.fold_plain (by decide) (by decide)

-- Lowering goes through the escapes.
theorem fold_escape (hp : Plain) :
    (Like.escape value).flatMap Collation.Charwise.fold = Like.escape (value.flatMap Collation.Charwise.fold) := by
  induction value
  case nil => rfl
  case cons c value ih =>
    have one : (if Like.isSpecial c then ['\\', c] else [c]).flatMap Collation.Charwise.fold =
        Like.escape (Collation.Charwise.fold c) := by
      cases hc : Like.isSpecial c
      case false =>
        rw [Like.escape_of_plain (hp c hc)]
        simp
      case true =>
        rw [fold_special hc, if_pos rfl, List.flatMap_cons, fold_special (c := '\\') rfl, List.flatMap_singleton,
          fold_special hc, Like.escape_cons, hc]
        rfl
    rw [Like.escape_cons, List.flatMap_append, one, ih, List.flatMap_cons, Like.escape_append]

theorem ilike_containsPattern (hp : Plain) (label : String) : ilike label (containsPattern value) ↔
    (Collation.lower (.ofList value)).toList <:+: (Collation.lower label).toList := by
  have pattern : (Collation.lower (.ofList (containsPattern value))).toList =
      '%' :: (Like.escape (Collation.lower (.ofList value)).toList ++ ['%']) := by
    rw [lower_ofList, lower_ofList, containsPattern_eq, List.flatMap_cons, List.flatMap_append, fold_escape hp,
      fold_special (c := '%') rfl, List.flatMap_singleton, fold_special (c := '%') rfl]
    rfl
  rw [ilike, pattern]
  exact Like.like_contains

theorem search_is_literal (hp : Plain) (query label : String) (pattern : Option (List Char))
    (h : searchPattern (some query) = some pattern) : labelMatches pattern (some label) ↔
      (Collation.lower (.ofList (trim query.toList))).toList <:+: (Collation.lower label).toList := by
  unfold searchPattern at h
  dsimp only at h
  split at h
  case isTrue blank =>
    cases h
    rw [List.isEmpty_iff.mp blank, lower_ofList]
    simp [labelMatches]
  case isFalse =>
    split at h
    case isTrue => cases h
    case isFalse =>
      cases h
      exact ilike_containsPattern hp label

end

-- A database that lowers the letters of ASCII.
abbrev lowered : Collation where
  lower s := .ofList (s.toList.map Char.toLower)

theorem toLower_of_not_isUpper {c : Char} (h : c.isUpper = false) : c.toLower = c := by
  unfold Char.toLower
  split
  case isFalse => rfl
  case isTrue hc =>
    have upper : c.isUpper := decide_eq_true hc
    rw [h] at upper
    cases upper

abbrev loweredCharwise : @Collation.Charwise lowered :=
  @Collation.Charwise.mk lowered (fun c => [c.toLower])
    (fun s => by simp [Collation.lower, List.map_eq_flatMap])
    (fun _ h => by rw [toLower_of_not_isUpper h])

theorem isSpecial_toLower {c : Char} (h : Like.isSpecial c = false) : Like.isSpecial c.toLower = false := by
  by_cases hu : c.isUpper
  case neg => rwa [toLower_of_not_isUpper (Bool.eq_false_iff.mpr hu)]
  case pos =>
    have letters : ∀ n < 128, (Char.ofNat n).isUpper → Like.isSpecial (Char.ofNat n).toLower = false := by
      decide
    have small : c.toNat < 128 := by
      have range : c.val ≥ 'A'.val ∧ c.val ≤ 'Z'.val := of_decide_eq_true hu
      exact Nat.lt_of_le_of_lt (UInt32.le_iff_toNat_le.mp range.right) (by decide)
    have := letters c.toNat small
    rw [Char.ofNat_toNat] at this
    exact this hu

theorem plain_lowered : @Plain lowered loweredCharwise := by
  intro c hc d hd
  cases List.mem_singleton.mp hd
  exact isSpecial_toLower hc

attribute [local instance] lowered loweredCharwise

theorem search_is_literal_wildcards :
    labelMatches (some (containsPattern "50%_\\".toList)) (some "UP TO 50%_\\ OFF") ∧
      labelMatches (some (containsPattern "50%_\\".toList)) (some "up to 50x_\\ off") = false := by
  have trimmed : searchPattern (some "  50%_\\ ") = some (some (containsPattern "50%_\\".toList)) := by
    decide +kernel
  refine ⟨(search_is_literal plain_lowered _ _ _ trimmed).mpr ?_, Bool.eq_false_iff.mpr fun h => ?_⟩
  case refine_1 => decide +kernel
  case refine_2 =>
    have := (search_is_literal plain_lowered _ _ _ trimmed).mp h
    revert this
    decide +kernel

end MyDrive.Browse
