import MyDrive.Drive.Theorems.Names
import MyDrive.Google.Names

-- The names of the attempts are normal and differ, unless the name is so long that the numbers are cut.

namespace MyDrive.Google

open Drive

variable {name stem extension : List Char} {raw : String} {extra : Option String} {number : Nat}

theorem not_mem_of_valid (h : validExtension extension) {c : Char} (hc : c.isAlphanum = false) :
    c ∉ extension := by
  intro hm
  simp only [validExtension, Bool.and_eq_true, List.all_eq_true] at h
  simp [h.right c hm] at hc

theorem plain_of_alphanum {c : Char} (h : c.isAlphanum) :
    forbidden c = false ∧ isWhitespace c = false := by
  have range : 48 ≤ c.toNat ∧ c.toNat ≤ 122 ∧ c.toNat ≠ 92 := by
    delta Char.isAlphanum Char.isAlpha Char.isUpper Char.isLower Char.isDigit at h
    simp only [Bool.or_eq_true, Bool.and_eq_true, decide_eq_true_eq, UInt32.le_iff_toNat_le, ge_iff_le] at h
    simp only [Char.toNat]
    grind
  have apart (d : Char) (hd : d.toNat < 48 ∨ d.toNat = 92) : c ≠ d := by
    rintro rfl
    omega
  have slash := apart '/' (by decide)
  have backslash := apart '\\' (by decide)
  constructor
  case left  => simp [forbidden, isControl, slash, backslash]; omega
  case right => simp [isWhitespace]; omega

-- A name without its length.
structure Clean (name : List Char) : Prop where
  ne_nil  : name ≠ []
  ne_dots : name ≠ ['.'] ∧ name ≠ ['.', '.']
  allowed : ∀ c ∈ name, forbidden c = false
  head    : ∀ c ∈ name.head?, isWhitespace c = false
  last    : ∀ c ∈ name.getLast?, isWhitespace c = false

theorem mem_of_mem_trim {c : Char} (h : c ∈ trim name) : c ∈ name := by
  rw [trim_eq_rdropWhile] at h
  exact (List.dropWhile_sublist _).subset ((List.rdropWhile_prefix isWhitespace _).subset h)

theorem mem_of_mem_trimMatches {p : Char → Bool} {c : Char} (h : c ∈ trimMatches p name) : c ∈ name :=
  (List.dropWhile_sublist _).subset ((List.rdropWhile_prefix p _).subset h)

theorem clean_cleanedName : Clean (cleanedName name) := by
  unfold cleanedName
  dsimp only
  split
  case isTrue =>
    have plain : "untitled".toList.all (!forbidden ·) := by decide
    refine ⟨by decide, by decide, fun c hc => ?_, fun c hc => ?_, fun c hc => ?_⟩
    case refine_1 => simpa using List.all_eq_true.mp plain c hc
    case refine_2 =>
      obtain rfl : 'u' = c := Option.some.inj hc
      decide
    case refine_3 =>
      obtain rfl : 'd' = c := Option.some.inj hc
      decide
  case isFalse h =>
    simp only [not_or] at h
    refine ⟨h.left, h.right, fun c hc => ?_, trim_head, trim_last⟩
    have hc := mem_of_mem_trim (mem_of_mem_trimMatches (mem_of_mem_trim hc))
    obtain ⟨d, -, rfl⟩ := List.mem_map.mp hc
    split
    case isTrue => decide
    case isFalse hd =>
      simp only [isSeparator, Bool.or_eq_true, not_or, Bool.not_eq_true] at hd
      simp [forbidden, hd.left, hd.right.left, hd.right.right]

-- Letters and digits stay.
theorem cleanedName_of_alphanum (hn : name ≠ []) (h : ∀ c ∈ name, c.isAlphanum) : cleanedName name = name := by
  have kept {p : Char → Bool} (hp : ∀ c, c.isAlphanum → p c = false) : trimMatches p name = name := by
    have all {cs : List Char} (hc : ∀ c ∈ cs, c.isAlphanum) : cs.dropWhile p = cs := by
      cases cs
      case nil       => rfl
      case cons c cs => simp [hp c (hc c List.mem_cons_self)]
    rw [trimMatches, all h, all (by simpa using h), List.reverse_reverse]
  have segment : lastSegment name = name := by
    rw [lastSegment, List.takeWhile_eq_self_iff.mpr, List.reverse_reverse]
    intro c hc
    have := (plain_of_alphanum (h c (List.mem_reverse.mp hc))).left
    simp only [forbidden, Bool.or_eq_false_iff] at this
    simp [isSeparator, this.left.right, this.right]
  have mapped : (name.map fun c => if isControl c || isSeparator c then '-' else c) = name := by
    conv => rhs; rw [← List.map_id name]
    refine List.map_congr_left fun c hc => ?_
    have := (plain_of_alphanum (h c hc)).left
    simp only [forbidden, Bool.or_eq_false_iff] at this
    simp [isSeparator, this.left.left, this.left.right, this.right]
  have dots : trimMatches (· = '.') name = name := by
    refine kept fun c hc => ?_
    rw [decide_eq_false_iff_not]
    rintro rfl
    contradiction
  have blanks : trim name = name := kept fun c hc => (plain_of_alphanum hc).right
  have letter {cs : List Char} (hd : '.' ∈ cs) : name ≠ cs := by
    rintro rfl
    have := h '.' hd
    contradiction
  unfold cleanedName
  rw [segment]
  dsimp only
  rw [mapped, blanks, dots, blanks, if_neg]
  simp [hn, letter]

theorem clean_baseName : Clean (baseName raw extra) := by
  have clean : Clean (cleanedName raw.toList) := clean_cleanedName
  unfold baseName
  dsimp only
  split
  case h_2 => exact clean
  case h_1 extension he =>
    split
    case isTrue => exact clean
    case isFalse =>
      have valid := (Option.filter_eq_some_iff.mp he).right
      simp only [validExtension, Bool.and_eq_true, decide_eq_true_eq, List.all_eq_true] at valid
      have nonempty : extension ≠ [] := by
        rintro rfl
        simp at valid
      have long := List.length_pos_iff.mpr clean.ne_nil
      refine ⟨by simp, ?_, fun c hc => ?_, fun c hc => ?_, fun c hc => ?_⟩
      case refine_1 =>
        constructor <;>
        · intro hn
          have := congrArg List.length hn
          simp only [List.length_append, List.length_cons, List.length_nil] at this
          omega
      case refine_2 =>
        rw [List.mem_append, List.mem_cons] at hc
        obtain hc | rfl | hc := hc
        case inl     => exact clean.allowed c hc
        case inr.inl => decide
        case inr.inr => exact (plain_of_alphanum (valid.right c hc)).left
      case refine_3 =>
        rw [List.head?_append_of_ne_nil _ clean.ne_nil] at hc
        exact clean.head c hc
      case refine_4 =>
        rw [List.getLast?_append_of_ne_nil _ (by simp), List.getLast?_cons_of_ne_nil nonempty] at hc
        exact (plain_of_alphanum (valid.right c (List.mem_of_getLast? hc))).right

-- Where the number of an attempt goes.
def nameParts (name : List Char) : List Char × List Char :=
  match rsplitOnce '.' name with
  | some (stem, extension) =>
    if stem ≠ [] ∧ validExtension extension then (stem, '.' :: extension) else (name, [])
  | none                   => (name, [])

theorem nameParts_append : (nameParts name).1 ++ (nameParts name).2 = name := by
  unfold nameParts
  split
  case h_1 h =>
    obtain ⟨rfl, -⟩ := rsplitOnce_eq_some_iff.mp h
    split <;> simp
  case h_2 => simp

def mark (attempt : Nat) : List Char :=
  if 0 < attempt then marker (attempt + 1) else []

theorem dot_not_mem_mark {attempt : Nat} : '.' ∉ mark attempt := by
  unfold mark
  split
  case isFalse => simp
  case isTrue =>
    have digits : '.' ∉ Nat.toDigits 10 (attempt + 1) := by
      intro hm
      have : ('.' : Char).isDigit = true := Nat.isDigit_of_mem_toDigits (by decide) (by decide) hm
      contradiction
    simpa [marker] using digits

theorem space_mem_mark {attempt : Nat} : mark attempt = [] ∨ ' ' ∈ mark attempt := by
  unfold mark
  split
  case isFalse => exact .inl rfl
  case isTrue  => exact .inr (by simp [marker])

theorem limit_whole (h : ∀ stem extension,
      rsplitOnce '.' name = some (stem, extension) → 255 < name.length → ¬ validExtension extension) :
    limitEntryName name = name.take 255 := by
  unfold limitEntryName
  split
  case isTrue hl => exact (List.take_of_length_le hl).symm
  case isFalse hl =>
    split
    case h_1 stem extension hs => rw [if_neg (h stem extension hs (Nat.lt_of_not_le hl))]
    case h_2 => rfl

-- The last dot stays where it is when a mark is put before it or at the end.
theorem limitEntryName_parts {m : List Char} (hd : '.' ∉ m) (hs : m = [] ∨ ' ' ∈ m) :
    limitEntryName ((nameParts name).1 ++ m ++ (nameParts name).2) =
      ((nameParts name).1 ++ m).take (255 - (nameParts name).2.length) ++ (nameParts name).2 := by
  unfold nameParts
  split
  case h_2 hn =>
    have hn := rsplitOnce_eq_none_iff.mp hn
    simp only [List.append_nil, List.length_nil, Nat.sub_zero]
    refine limit_whole fun stem extension h => ?_
    rw [rsplitOnce_eq_none_iff.mpr (by simp [hn, hd])] at h
    contradiction
  case h_1 stem extension h =>
    obtain ⟨rfl, hn⟩ := rsplitOnce_eq_some_iff.mp h
    split
    case isTrue hv =>
      have short : extension.length ≤ 8 := by
        have := hv.right
        simp only [validExtension, Bool.and_eq_true, decide_eq_true_eq] at this
        exact this.left.right
      dsimp only
      unfold limitEntryName
      split
      case isTrue hl =>
        rw [List.take_of_length_le]
        simp only [List.length_append, List.length_cons] at hl ⊢
        omega
      case isFalse =>
        rw [rsplitOnce_append hn]
        dsimp only
        rw [if_pos hv.right, List.length_cons, Nat.max_eq_left (by omega), Nat.sub_sub]
    case isFalse hv =>
      simp only [List.append_nil, List.length_nil, Nat.sub_zero]
      refine limit_whole fun before after ha hl hw => ?_
      rw [List.append_assoc, List.cons_append, rsplitOnce_append (by simp [hn, hd])] at ha
      cases ha
      obtain rfl | hs := hs
      case inl =>
        rw [List.append_nil] at hw
        refine hv ⟨?_, hw⟩
        rintro rfl
        simp only [validExtension, Bool.and_eq_true, decide_eq_true_eq] at hw
        simp only [List.nil_append, List.append_nil, List.length_cons] at hl
        omega
      case inr => exact not_mem_of_valid hw (by decide) (List.mem_append_right _ hs)

theorem insertAttempt_eq : insertAttempt name number =
    (nameParts name).1 ++ marker number ++ (nameParts name).2 := by
  unfold insertAttempt nameParts
  cases rsplitOnce '.' name
  case none   => simp
  case some p => dsimp only; split <;> simp

-- A name is cut before its extension.
theorem toList_storageEntryName {attempt : Nat} : (storageEntryName raw attempt extra).toList =
    ((nameParts (baseName raw extra)).1 ++ mark attempt).take
      (255 - (nameParts (baseName raw extra)).2.length) ++ (nameParts (baseName raw extra)).2 := by
  have marked : (if 0 < attempt then insertAttempt (baseName raw extra) (attempt + 1)
      else baseName raw extra) =
        (nameParts (baseName raw extra)).1 ++ mark attempt ++ (nameParts (baseName raw extra)).2 := by
    unfold mark
    split
    case isTrue  => exact insertAttempt_eq
    case isFalse => rw [List.append_nil, nameParts_append]
  rw [storageEntryName, String.toList_ofList, marked, limitEntryName_parts dot_not_mem_mark space_mem_mark]

theorem nameParts_short : (nameParts name).2.length ≤ 9 := by
  unfold nameParts
  split
  case h_2 => exact Nat.zero_le _
  case h_1 =>
    split
    case isFalse => exact Nat.zero_le _
    case isTrue hv =>
      have := hv.right
      simp only [validExtension, Bool.and_eq_true, decide_eq_true_eq] at this
      have short := this.left.right
      rw [List.length_cons]
      omega

theorem take_mark_facts : ∀ a ∈ List.range maxNameAttempts, (mark a).length ≤ 5 ∧ (mark a).all plain ∧
    (mark a = [] ∨ 4 ≤ (mark a).length) ∧ ((mark a).all fun c => !forbidden c) ∧
    ((mark a).getLast?.all fun c => !isWhitespace c) ∧ (((mark a).take 4).getLast?.all fun c => !isWhitespace c) := by
  decide +kernel

theorem take_mark_injective : ∀ a ∈ List.range maxNameAttempts, ∀ b ∈ List.range maxNameAttempts,
    (mark a).take 4 = (mark b).take 4 → a = b := by
  decide +kernel

-- What is left of the number of an attempt.
def cutMark (raw : String) (extra : Option String) (attempt : Nat) : List Char :=
  (mark attempt).take (255 - (baseName raw extra).length)

theorem toList_of_short (h : (baseName raw extra).length ≤ 255) {attempt : Nat} :
    (storageEntryName raw attempt extra).toList =
      (nameParts (baseName raw extra)).1 ++ cutMark raw extra attempt ++
        (nameParts (baseName raw extra)).2 := by
  have parts := congrArg List.length (@nameParts_append (baseName raw extra))
  rw [List.length_append] at parts
  rw [toList_storageEntryName, List.take_append, List.take_of_length_le (by omega), cutMark]
  congr 3
  omega

theorem cutMark_cases (h : (baseName raw extra).length ≤ 251) {a : Nat} (ha : a < maxNameAttempts) :
    cutMark raw extra a = (mark a).take 4 ∨ cutMark raw extra a = mark a := by
  have := (take_mark_facts a (List.mem_range.mpr ha)).left
  by_cases he : (baseName raw extra).length = 251
  case pos => exact .inl (by rw [cutMark, he])
  case neg => exact .inr (List.take_of_length_le (by omega))

theorem cutMark_injective (h : (baseName raw extra).length ≤ 251) {a b : Nat} (ha : a < maxNameAttempts)
    (hb : b < maxNameAttempts) (he : cutMark raw extra a = cutMark raw extra b) : a = b := by
  refine take_mark_injective a (List.mem_range.mpr ha) b (List.mem_range.mpr hb) ?_
  have := congrArg (List.take 4) he
  rwa [cutMark, cutMark, List.take_take, List.take_take, Nat.min_eq_left (by omega)] at this

theorem normal_of_short (h : (baseName raw extra).length ≤ 251) {a : Nat} (ha : a < maxNameAttempts) :
    Normal (storageEntryName raw a extra).toList := by
  have clean := @clean_baseName raw extra
  have parts := @nameParts_append (baseName raw extra)
  obtain ⟨-, -, whole, allowed, last, last'⟩ := take_mark_facts a (List.mem_range.mpr ha)
  have cut : cutMark raw extra a <+: mark a := List.take_prefix _ _
  have long : (cutMark raw extra a).length ≤ 255 - (baseName raw extra).length := List.length_take_le _ _
  have ends : ∀ c ∈ (cutMark raw extra a).getLast?, isWhitespace c = false := by
    intro c hc
    obtain he | he := cutMark_cases h ha
    case inl => rw [← he, Option.mem_def.mp hc] at last'; simpa using last'
    case inr => rw [← he, Option.mem_def.mp hc] at last; simpa using last
  have stem : (nameParts (baseName raw extra)).1 ≠ [] := by
    unfold nameParts
    split
    case h_2 => exact clean.ne_nil
    case h_1 => split <;> [exact ‹_ ∧ _›.left; exact clean.ne_nil]
  have other : cutMark raw extra a = [] ∨ 4 ≤ (cutMark raw extra a).length := by
    obtain hm | hm := whole
    case inl => exact .inl (by rw [cutMark, hm, List.take_nil])
    case inr => exact .inr (by rw [cutMark, List.length_take]; omega)
  rw [toList_of_short (by omega)]
  have size := congrArg List.length parts
  rw [List.length_append] at size
  generalize cutMark raw extra a = m at *
  generalize nameParts (baseName raw extra) = p at *
  obtain ⟨before, after⟩ := p
  dsimp only at *
  exact {
    ne_nil  := by simp [stem]
    length  := by
      simp only [List.length_append]
      omega
    ne_dots := by
      obtain rfl | hm := other
      case inl => rw [List.append_nil, parts]; exact clean.ne_dots
      case inr =>
        constructor <;>
        · intro hn
          have := congrArg List.length hn
          simp only [List.length_append, List.length_cons, List.length_nil] at this
          omega
    allowed c hc := by
      simp only [List.mem_append] at hc
      obtain (hc | hc) | hc := hc
      case inl.inl => exact clean.allowed c (parts ▸ List.mem_append_left _ hc)
      case inl.inr => simpa using List.all_eq_true.mp allowed c (cut.subset hc)
      case inr     => exact clean.allowed c (parts ▸ List.mem_append_right _ hc)
    head c hc := by
      refine clean.head c ?_
      rw [← parts, List.head?_append_of_ne_nil _ stem]
      rwa [List.append_assoc, List.head?_append_of_ne_nil _ stem] at hc
    last c hc := by
      by_cases ha : after = []
      case neg =>
        refine clean.last c ?_
        rw [← parts, List.getLast?_append_of_ne_nil _ ha]
        rwa [List.getLast?_append_of_ne_nil _ ha] at hc
      case pos =>
        rw [ha, List.append_nil] at hc
        by_cases hm : m = []
        case pos =>
          refine clean.last c ?_
          rw [← parts, ha, List.append_nil]
          rwa [hm, List.append_nil] at hc
        case neg =>
          rw [List.getLast?_append_of_ne_nil _ hm] at hc
          exact ends c hc }

-- The numbers of the ninth and of the tenth attempt begin alike.
theorem storageEntryName_eq_of_long (h : 252 ≤ (baseName raw extra).length) :
    storageEntryName raw 9 extra = storageEntryName raw 10 extra := by
  apply String.toList_injective
  rw [toList_storageEntryName, toList_storageEntryName]
  have parts := congrArg List.length (@nameParts_append (baseName raw extra))
  rw [List.length_append] at parts
  congr 1
  have alike : (mark 9).take 3 = (mark 10).take 3 := by decide +kernel
  have cut {n : Nat} (hn : n ≤ 3) : (mark 9).take n = (mark 10).take n := by
    have := congrArg (List.take n) alike
    rwa [List.take_take, List.take_take, Nat.min_eq_left hn] at this
  rw [List.take_append, List.take_append, cut (by omega)]

section

variable [Collation]

-- When no attempt is left, every name that is normal has been taken.
theorem taken_of_insertAttempts {v : View} {owner id : Id} {kind : Kind} {parent : Option Id} {base : String}
    {attempts : List Nat} (fresh : v.entries.lookup id = none)
    (h : insertAttempts v owner id kind parent base attempts = .error .nameConflict) :
    ∀ a ∈ attempts,
      normalizeName (storageEntryName base a none) = .ok (storageEntryName base a none) →
        Taken v owner parent (storageEntryName base a none) := by
  induction attempts
  case nil => simp
  case cons b bs ih =>
    intro a ha hn
    unfold insertAttempts at h
    split at h
    case h_1 hb =>
      obtain rfl | ha := List.mem_cons.mp ha
      case inl => rw [hn] at hb; cases hb
      case inr => exact ih h a ha hn
    case h_2 =>
      dsimp only at h
      split at h
      case h_1 => cases h
      case h_2 =>
        split at h
        case isFalse => split at h <;> cases h
        case isTrue hv =>
          obtain rfl | ha := List.mem_cons.mp ha
          case inr => exact ih h a ha hn
          case inl =>
            rw [fresh] at hv
            simp only [Option.isSome_none, Bool.false_or, violatesUnique, newEntry, Option.isNone_none,
              Bool.true_and, Table.any_iff, Bool.false_and, Bool.or_false, Bool.and_eq_true,
              Option.isNone_iff_eq_none, decide_eq_true_eq] at hv
            obtain ⟨x, e, he, ⟨⟨-, hd⟩, ho⟩, hp, hl⟩ := hv
            exact ⟨x, e, he, of_decide_eq_true ho, hd, of_decide_eq_true hp, of_decide_eq_true hl⟩

variable [Collation.Charwise]

theorem storageEntryName_injective (h : (baseName raw extra).length ≤ 251) {a b : Nat}
    (ha : a < maxNameAttempts) (hb : b < maxNameAttempts)
    (he : Collation.lower (storageEntryName raw a extra) = Collation.lower (storageEntryName raw b extra)) :
    a = b := by
  have plain_cut {a : Nat} (ha : a < maxNameAttempts) : (cutMark raw extra a).all plain := by
    obtain ⟨-, hp, -⟩ := take_mark_facts a (List.mem_range.mpr ha)
    rw [List.all_eq_true] at hp ⊢
    exact fun c hc => hp c (List.mem_of_mem_take hc)
  rw [lower_eq_iff, toList_of_short (by omega), toList_of_short (by omega)] at he
  simp only [lowered_append, lowered_plain (plain_cut ha), lowered_plain (plain_cut hb)] at he
  exact cutMark_injective h ha hb (List.append_cancel_left (List.append_cancel_right he))

theorem named_iff (raw : String) (extraExtension : Option String) :
    Named raw extraExtension ↔ (baseName raw extraExtension).length ≤ 251 := by
  constructor
  case mp =>
    intro h
    by_contra hl
    have := h.different 9 (by decide) 10 (by decide)
      (congrArg Collation.lower (storageEntryName_eq_of_long (by omega)))
    contradiction
  case mpr =>
    intro h
    refine ⟨fun a ha => normal_iff.mpr (normal_of_short h ha),
      fun a ha b hb => storageEntryName_injective h ha hb, fun v owner id kind parent fresh hc => ?_⟩
    have short : (baseName raw none).length ≤ 251 := by
      refine (le_trans ?_ h)
      unfold baseName
      dsimp only [Option.map_none, Option.filter_none]
      split
      case h_1 => split <;> simp
      case h_2 => exact Nat.le_refl _
    refine ⟨(List.range maxNameAttempts).map fun a => storageEntryName raw a none, by simp, ?_, ?_⟩
    case refine_1 =>
      rw [List.map_map]
      exact List.Nodup.map_on (fun a ha b hb => storageEntryName_injective short (List.mem_range.mp ha)
        (List.mem_range.mp hb)) List.nodup_range
    case refine_2 =>
      intro name hm
      obtain ⟨a, ha, rfl⟩ := List.mem_map.mp hm
      exact taken_of_insertAttempts fresh hc a ha
        (normal_iff.mpr (normal_of_short short (List.mem_range.mp ha)))

end

section

attribute [local instance] Collation.binary

-- A file whose name is of 252 letters.
theorem not_named_long : ¬ Named (String.ofList (List.replicate 252 'a')) none := by
  intro h
  have long : 252 ≤ (baseName (String.ofList (List.replicate 252 'a')) none).length := by
    have letters : ∀ c ∈ List.replicate 252 'a', c.isAlphanum := fun c hc => by
      rw [List.eq_of_mem_replicate hc]
      decide
    have nonempty : List.replicate 252 'a' ≠ [] := mt (List.replicate_eq_nil_iff _).mp (by decide)
    have base : baseName (String.ofList (List.replicate 252 'a')) none = List.replicate 252 'a' := by
      rw [baseName, String.toList_ofList, cleanedName_of_alphanum nonempty letters]
      rfl
    rw [base, List.length_replicate]
  have := h.different 9 (by decide) 10 (by decide)
    (congrArg Collation.lower (storageEntryName_eq_of_long long))
  exact absurd this (by decide)

end

end MyDrive.Google
