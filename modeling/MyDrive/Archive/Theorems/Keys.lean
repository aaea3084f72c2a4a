import MyDrive.Archive.Tree

namespace MyDrive.Archive

theorem isHex_hexDigit (d : Fin 16) : isHex (hexDigit d) := by
  revert d
  decide

theorem hexDigit_strict (d : Fin 16) :
    (isAsciiHexdigit (hexDigit d) && !(hexDigit d).isUpper) ∧ (hexDigit d).utf8Size = 1 := by
  revert d
  decide

theorem hexDigit_plain (d : Fin 16) : hexDigit d ≠ '-' := by
  revert d
  decide

namespace Uuid

variable (id : Uuid)

theorem length_print : id.print.length = 36 := by
  have size := id.size
  simp only [print, List.length_append, List.length_cons, List.length_take, List.length_drop,
    List.length_map, size]
  decide

theorem mem_print {c : Char} (h : c ∈ id.print) : isHex c ∨ c = '-' := by
  have digit {cs : List Char} (hs : cs.Sublist (id.digits.map hexDigit)) (hc : c ∈ cs) : isHex c := by
    obtain ⟨d, _, rfl⟩ := List.mem_map.mp (hs.mem hc)
    exact isHex_hexDigit d
  have slice (m n : Nat) : (((id.digits.map hexDigit).drop m).take n).Sublist (id.digits.map hexDigit) :=
    (List.take_sublist _ _).trans (List.drop_sublist _ _)
  simp only [print, List.mem_append, List.mem_cons] at h
  rcases h with h | rfl | h | rfl | h | rfl | h | rfl | h
  case inl                             => exact .inl (digit (List.take_sublist _ _) h)
  case inr.inr.inl                     => exact .inl (digit (slice _ _) h)
  case inr.inr.inr.inr.inl             => exact .inl (digit (slice _ _) h)
  case inr.inr.inr.inr.inr.inr.inl     => exact .inl (digit (slice _ _) h)
  case inr.inr.inr.inr.inr.inr.inr.inr => exact .inl (digit (List.drop_sublist _ _) h)
  all_goals exact .inr rfl

theorem shards : ∃ a b c d, id.print.take 2 = [hexDigit a, hexDigit b] ∧
    (id.print.drop 2).take 2 = [hexDigit c, hexDigit d] := by
  obtain ⟨digits, size⟩ := id
  rcases digits with _ | ⟨a, _ | ⟨b, _ | ⟨c, _ | ⟨d, rest⟩⟩⟩⟩ <;> simp only [List.length_cons,
    List.length_nil] at size <;> try omega
  exact ⟨a, b, c, d, rfl, rfl⟩

end Uuid

-- A parser that takes the digits, wherever the hyphens are.
def digitOf (c : Char) : Option (Fin 16) :=
  (List.finRange 16).find? fun d => hexDigit d = c

theorem digitOf_hexDigit (d : Fin 16) : digitOf (hexDigit d) = some d := by
  revert d
  decide

theorem filter_print (id : Uuid) : id.print.filter (· ≠ '-') = id.digits.map hexDigit := by
  have digits {cs : Text} (hs : cs.Sublist (id.digits.map hexDigit)) : cs.filter (· ≠ '-') = cs := by
    refine List.filter_eq_self.mpr fun c hc => ?_
    obtain ⟨d, _, rfl⟩ := List.mem_map.mp (hs.mem hc)
    exact decide_eq_true (hexDigit_plain d)
  have slice (m n : Nat) : (((id.digits.map hexDigit).drop m).take n).Sublist (id.digits.map hexDigit) :=
    (List.take_sublist _ _).trans (List.drop_sublist _ _)
  have join (m n : Nat) (t : Text) : (t.drop m).take n ++ t.drop (m + n) = t.drop m := by
    rw [← List.drop_drop, List.take_append_drop]
  simp only [Uuid.print, List.filter_append, List.filter_cons, ne_eq, not_true_eq_false, decide_false,
    Bool.false_eq_true, if_false, digits (slice _ _), digits (List.take_sublist _ _),
    digits (List.drop_sublist _ _)]
  rw [join 16 4, join 12 4, join 8 4, List.take_append_drop]

def UuidParser.hyphenless : UuidParser where
  parse t     := ((t.filter (· ≠ '-')).mapM digitOf).bind fun digits =>
    if h : digits.length = 32 then some ⟨digits, h⟩ else none
  parse_print id := by
    have digits : (id.digits.map hexDigit).mapM digitOf = some id.digits := by
      induction id.digits
      case nil          => rfl
      case cons d ds ih => simp [digitOf_hexDigit, ih]
    rw [filter_print, digits, Option.bind_some, dif_pos id.size]

theorem slash_not_mem {t : Text} (h : ∀ c ∈ t, isHex c ∨ c = '-') : '/' ∉ t := by
  intro hs
  have := h _ hs
  revert this
  decide

-- The components of a storage key.
theorem splitOn_storageKey (id : Uuid) : (storageKey id).splitOn '/' =
    [id.print.take 2, (id.print.drop 2).take 2, id.print] := by
  have print : '/' ∉ id.print := slash_not_mem fun _ => id.mem_print
  have first : '/' ∉ id.print.take 2 := fun h => print (List.mem_of_mem_take h)
  have second : '/' ∉ (id.print.drop 2).take 2 := fun h =>
    print (List.mem_of_mem_drop (List.mem_of_mem_take h))
  rw [storageKey, List.splitOn_append_cons_self_of_not_mem first,
    List.splitOn_append_cons_self_of_not_mem second, List.splitOn_eq_singleton print]

theorem eq_of_splitOn {key a b c : Text} (h : key.splitOn '/' = [a, b, c]) :
    key = a ++ '/' :: (b ++ '/' :: c) := by
  rw [← key.intercalate_splitOn '/', h]
  simp [List.intercalate]

theorem objectPath_ok_iff {uuid : UuidParser} {root path : Path} {key : Text} :
    objectPath uuid root key = .ok path ↔ ∃ id, key = storageKey id ∧
      path = root ++ [objectsRoot, id.print.take 2, (id.print.drop 2).take 2, id.print] := by
  constructor
  case mp =>
    intro h
    unfold objectPath at h
    split at h
    case h_2 => contradiction
    case h_1 first second filename hs =>
      split at h
      case isTrue => contradiction
      case isFalse =>
        split at h
        case h_1 => contradiction
        case h_2 id _ =>
          dsimp only at h
          split at h <;> cases h
          case isFalse hn =>
            simp only [ne_eq, not_or, Decidable.not_not] at hn
            obtain ⟨rfl, rfl, rfl⟩ := hn
            exact ⟨id, eq_of_splitOn hs, rfl⟩
  case mpr =>
    rintro ⟨id, rfl, rfl⟩
    obtain ⟨a, b, c, d, first, second⟩ := id.shards
    simp [objectPath, splitOn_storageKey, uuid.parse_print, first, second, byteLength,
      hexDigit_strict]

theorem fullmatch_append {ps qs : List (Char → Bool)} {cs ds : Text} (h : fullmatch ps cs)
    (h' : fullmatch qs ds) : fullmatch (ps ++ qs) (cs ++ ds) := by
  induction ps generalizing cs
  case nil =>
    cases cs
    case nil  => exact h'
    case cons => cases h
  case cons p ps ih =>
    cases cs
    case nil => cases h
    case cons =>
      simp only [fullmatch, Bool.and_eq_true, List.cons_append] at h ⊢
      exact ⟨h.left, ih h.right⟩

theorem fullmatch_replicate_iff {n : Nat} {p : Char → Bool} {cs : Text} :
    fullmatch (List.replicate n p) cs ↔ cs.length = n ∧ ∀ c ∈ cs, p c := by
  induction n generalizing cs
  case zero      => cases cs <;> simp [fullmatch]
  case succ n ih =>
    cases cs
    case nil  => simp [List.replicate_succ, fullmatch]
    case cons => simp [List.replicate_succ, fullmatch, ih, and_left_comm]

theorem fullmatch_storageKey (id : Uuid) : fullmatch objectKey (storageKey id) := by
  obtain ⟨a, b, c, d, first, second⟩ := id.shards
  have shard (a b : Fin 16) : fullmatch (List.replicate 2 isHex) [hexDigit a, hexDigit b] :=
    fullmatch_replicate_iff.mpr ⟨rfl, by simp [isHex_hexDigit]⟩
  have slash {ps cs} (h : fullmatch ps cs) : fullmatch ((· == '/') :: ps) ('/' :: cs) := by
    simpa [fullmatch] using h
  rw [objectKey, storageKey, first, second]
  refine fullmatch_append (shard a b) (slash (fullmatch_append (shard c d) (slash ?_)))
  refine fullmatch_replicate_iff.mpr ⟨id.length_print, fun c hc => ?_⟩
  simpa using id.mem_print hc

theorem exists_of_fullmatch_append {ps qs : List (Char → Bool)} {cs : Text}
    (h : fullmatch (ps ++ qs) cs) : ∃ as bs, cs = as ++ bs ∧ fullmatch ps as ∧ fullmatch qs bs := by
  induction ps generalizing cs
  case nil => exact ⟨[], cs, rfl, rfl, h⟩
  case cons p ps ih =>
    cases cs
    case nil => cases h
    case cons c cs =>
      simp only [List.cons_append, fullmatch, Bool.and_eq_true] at h
      obtain ⟨as, bs, rfl, ha, hb⟩ := ih h.right
      exact ⟨c :: as, bs, rfl, by simp [fullmatch, h.left, ha], hb⟩

theorem exists_of_fullmatch_slash {ps : List (Char → Bool)} {cs : Text}
    (h : fullmatch ((· == '/') :: ps) cs) : ∃ ds, cs = '/' :: ds ∧ fullmatch ps ds := by
  cases cs
  case nil => cases h
  case cons c cs =>
    simp only [fullmatch, Bool.and_eq_true, beq_iff_eq] at h
    exact ⟨cs, by rw [h.left], h.right⟩

-- A key has as many separators as its expression.
theorem splitOn_of_fullmatch {key : Text} (h : fullmatch objectKey key) :
    ∃ a b c, key.splitOn '/' = [a, b, c] := by
  obtain ⟨a, _, rfl, ha, h⟩ := exists_of_fullmatch_append h
  obtain ⟨_, rfl, h⟩ := exists_of_fullmatch_slash h
  obtain ⟨b, _, rfl, hb, h⟩ := exists_of_fullmatch_append h
  obtain ⟨c, rfl, hc⟩ := exists_of_fullmatch_slash h
  have hex {t : Text} (ht : fullmatch (List.replicate 2 isHex) t) : '/' ∉ t :=
    slash_not_mem fun c hc => .inl ((fullmatch_replicate_iff.mp ht).right c hc)
  have rest : '/' ∉ c := slash_not_mem fun d hd => by
    simpa using (fullmatch_replicate_iff.mp hc).right d hd
  refine ⟨a, b, c, ?_⟩
  rw [List.splitOn_append_cons_self_of_not_mem (hex ha),
    List.splitOn_append_cons_self_of_not_mem (hex hb), List.splitOn_eq_singleton rest]

theorem intercalate_storageKey (id : Uuid) :
    ['/'].intercalate [id.print.take 2, (id.print.drop 2).take 2, id.print] = storageKey id := by
  rw [← splitOn_storageKey, List.intercalate_splitOn]

theorem checkObjectName_ok_iff {uuid : UuidParser} {name : Text} {rel : Path} :
    checkObjectName uuid name rel = .ok () ↔
      ∃ id : Uuid, rel = [id.print.take 2, (id.print.drop 2).take 2, id.print] := by
  constructor
  case mp =>
    intro h
    unfold checkObjectName at h
    split at h
    case h_2 => contradiction
    case h_1 first second filename =>
      split at h
      case isTrue => contradiction
      case isFalse =>
        split at h
        case h_1 => contradiction
        case h_2 id _ =>
          dsimp only at h
          split at h
          case isTrue => contradiction
          case isFalse hn =>
            simp only [ne_eq, not_or, Decidable.not_not] at hn
            obtain ⟨rfl, rfl, rfl⟩ := hn
            exact ⟨id, rfl⟩
  case mpr =>
    rintro ⟨id, rfl⟩
    simp only [checkObjectName, intercalate_storageKey, fullmatch_storageKey, uuid.parse_print]
    simp

theorem checkReadyRow_ok_iff {uuid : UuidParser} {seen : List Text} {r : ReadyRow} :
    checkReadyRow uuid seen r = .ok (r.key :: seen) ↔ r.key ∉ seen ∧
      (∃ id, r.key = storageKey id) ∧ (∃ size, r.size = some size ∧ 0 ≤ size) ∧
      fullmatch (List.replicate 64 isHex) r.checksum := by
  constructor
  case mp =>
    intro h
    unfold checkReadyRow at h
    split at h
    case isTrue => contradiction
    case isFalse hn =>
      simp only [not_or, Bool.not_eq_true, Bool.not_eq_false'] at hn
      split at h
      case h_2 => contradiction
      case h_1 first second filename rest size hs hz =>
        split at h
        case h_1 => contradiction
        case h_2 id _ =>
          dsimp only at h
          split at h
          case isTrue => contradiction
          case isFalse hm =>
            simp only [ne_eq, not_or, Decidable.not_not, Int.not_lt, Bool.not_eq_true,
              Bool.not_eq_false'] at hm
            obtain ⟨rfl, rfl, rfl, nonneg, sum⟩ := hm
            obtain ⟨_, _, _, parts⟩ := splitOn_of_fullmatch hn.right
            cases hs.symm.trans parts
            exact ⟨hn.left, ⟨id, eq_of_splitOn hs⟩, ⟨size, hz, nonneg⟩, sum⟩
  case mpr =>
    rintro ⟨fresh, ⟨id, hk⟩, ⟨size, hz, nonneg⟩, sum⟩
    unfold checkReadyRow
    rw [hk] at fresh ⊢
    rw [if_neg (by simp [fresh, fullmatch_storageKey]), splitOn_storageKey, hz]
    simp only [uuid.parse_print]
    rw [if_neg]
    simp only [ne_eq, not_true_eq_false, false_or, not_or, Int.not_lt, sum]
    exact ⟨nonneg, by simp⟩

end MyDrive.Archive
