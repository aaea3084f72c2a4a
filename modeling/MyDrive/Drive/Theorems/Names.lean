import Mathlib.Data.List.DropRight
import MyDrive.Drive.Names
import MyDrive.Library.Except

-- Names stay normal when they are copied, and no two copies have the same name.

namespace MyDrive

namespace Drive

variable {name stem extension before after : List Char} {separator : Char}

-- What `normalize_name` accepts and leaves as it is.
section

theorem trim_eq_rdropWhile : trim name = (name.dropWhile isWhitespace).rdropWhile isWhitespace :=
  rfl

theorem trim_head : ∀ c ∈ (trim name).head?, isWhitespace c = false := by
  intro c hc
  rw [trim_eq_rdropWhile] at hc
  have first : (name.dropWhile isWhitespace).head? = some c := by
    obtain ⟨rest, hr⟩ := List.rdropWhile_prefix isWhitespace (l := name.dropWhile isWhitespace)
    rw [← hr, List.head?_append, Option.mem_def.mp hc]
    rfl
  have := List.head?_dropWhile_not isWhitespace name
  rw [first] at this
  exact this

theorem trim_last : ∀ c ∈ (trim name).getLast?, isWhitespace c = false := by
  intro c hc
  have := List.head?_dropWhile_not isWhitespace (name.dropWhile isWhitespace).reverse
  rw [← List.getLast?_reverse] at this
  rw [trim, Option.mem_def] at hc
  rw [hc] at this
  exact this

theorem trim_eq_self (head : ∀ c ∈ name.head?, isWhitespace c = false)
    (last : ∀ c ∈ name.getLast?, isWhitespace c = false) : trim name = name := by
  have kept {cs : List Char} (h : ∀ c ∈ cs.head?, isWhitespace c = false) :
      cs.dropWhile isWhitespace = cs := by
    cases cs
    case nil       => rfl
    case cons c cs => simp [h c rfl]
  rw [trim, kept head, kept, List.reverse_reverse]
  simpa using last

theorem normal_of_normalizeName {value name : String} (h : normalizeName value = .ok name) :
    Normal name.toList := by
  unfold normalizeName at h
  dsimp only at h
  split at h
  case isTrue => contradiction
  case isFalse hc =>
    have trimmed : trim value.toList = name.toList := by
      have := congrArg String.toList (Except.ok.inj h)
      simpa using this
    rw [trimmed] at hc
    simp only [not_or, Nat.not_lt, List.length_eq_zero_iff, Bool.not_eq_true] at hc
    obtain ⟨nonempty, length, dot, dots, allowed⟩ := hc
    exact {
      ne_nil  := nonempty
      length  := length
      ne_dots := ⟨dot, dots⟩
      allowed := by simpa [forbidden] using allowed
      head    := trimmed ▸ trim_head
      last    := trimmed ▸ trim_last }

theorem normal_iff {name : String} : normalizeName name = .ok name ↔ Normal name.toList := by
  constructor
  case mp => exact normal_of_normalizeName
  case mpr =>
    intro h
    unfold normalizeName
    dsimp only
    rw [trim_eq_self h.head h.last, if_neg]
    case hnc =>
      simp only [not_or, Nat.not_lt, List.length_eq_zero_iff, Bool.not_eq_true]
      refine ⟨h.ne_nil, h.length, h.ne_dots.left, h.ne_dots.right, ?_⟩
      simpa [forbidden] using h.allowed
    rw [String.ofList_toList]

end

theorem rsplitOnce_eq_none_iff : rsplitOnce separator name = none ↔ separator ∉ name := by
  induction name
  case nil => simp [rsplitOnce]
  case cons c cs ih =>
    unfold rsplitOnce
    split
    case h_1 h => simp_all
    case h_2 h =>
      have rest := ih.mp h
      split
      case isTrue hc  => simp [hc]
      case isFalse hc => simp [rest, Ne.symm hc]

theorem rsplitOnce_append (h : separator ∉ after) :
    rsplitOnce separator (before ++ separator :: after) = some (before, after) := by
  induction before
  case nil         => simp [rsplitOnce, rsplitOnce_eq_none_iff.mpr h]
  case cons c cs ih => simp [rsplitOnce, ih]

theorem rsplitOnce_eq_some_iff : rsplitOnce separator name = some (before, after) ↔
    name = before ++ separator :: after ∧ separator ∉ after := by
  constructor
  case mpr =>
    rintro ⟨rfl, h⟩
    exact rsplitOnce_append h
  case mp =>
    intro h
    induction name generalizing before
    case nil => contradiction
    case cons c cs ih =>
      unfold rsplitOnce at h
      split at h
      case h_1 b a hs =>
        cases h
        obtain ⟨rfl, hn⟩ := ih hs
        exact ⟨rfl, hn⟩
      case h_2 hn =>
        split at h
        case isFalse => contradiction
        case isTrue hc =>
          cases h
          exact ⟨by rw [hc]; rfl, rsplitOnce_eq_none_iff.mp hn⟩

-- `copy_display_name` slices between characters.
section

theorem byteSize_append : byteSize (before ++ after) = byteSize before + byteSize after := by
  simp [byteSize]

theorem byteSize_cons {c : Char} : byteSize (c :: name) = c.utf8Size + byteSize name := by
  simp [byteSize]

theorem byteSize_pos (h : name ≠ []) : 0 < byteSize name := by
  cases name
  case nil       => contradiction
  case cons c cs => simp [byteSize, Nat.add_pos_left c.utf8Size_pos]

theorem utf8ByteSize_ofList : (String.ofList name).utf8ByteSize = byteSize name := by
  induction name
  case nil => rfl
  case cons c cs ih =>
    have : String.ofList (c :: cs) = String.singleton c ++ String.ofList cs := by
      apply String.toList_injective
      simp
    rw [this, String.utf8ByteSize_append, String.utf8ByteSize_singleton, ih]
    simp [byteSize]

theorem splitExtension_eq : splitExtension name =
    match rsplitOnce '.' name with
    | some (stem, extension) =>
      if stem ≠ [] ∧ byteSize ('.' :: extension) ≤ 12 then (stem, '.' :: extension) else (name, [])
    | none                   => (name, []) := by
  unfold splitExtension
  cases h : rsplitOnce '.' name
  case none => simp [rsplitOnce_eq_none_iff.mp h]
  case some p =>
    obtain ⟨stem, extension⟩ := p
    obtain ⟨rfl, hn⟩ := rsplitOnce_eq_some_iff.mp h
    have last : ((stem ++ '.' :: extension).reverse.takeWhile (· ≠ '.')).reverse = extension := by
      have plain : ∀ c ∈ extension.reverse, decide (c ≠ '.') = true := by
        intro c hc
        simp only [decide_eq_true_eq]
        rintro rfl
        exact hn (List.mem_reverse.mp hc)
      rw [List.reverse_append, List.reverse_cons, List.append_assoc, List.takeWhile_append_of_pos plain]
      simp
    have first : (stem ++ '.' :: extension).take
        ((stem ++ '.' :: extension).length - extension.length - 1) = stem := by
      have : (stem ++ '.' :: extension).length - extension.length - 1 = stem.length := by
        simp only [List.length_append, List.length_cons]
        omega
      rw [this, List.take_left]
    dsimp only
    rw [last, first, utf8ByteSize_ofList]
    simp

theorem rfindDot_eq : rfindDot name = (rsplitOnce '.' name).map fun p => byteSize p.1 := by
  induction name
  case nil => rfl
  case cons c cs ih =>
    simp only [rfindDot, rsplitOnce, ih]
    cases rsplitOnce '.' cs
    case some p => simp [byteSize]
    case none   => simp only [Option.map_none]; split <;> simp [byteSize]

theorem splitAtByte_append : splitAtByte (byteSize before) (before ++ after) = some (before, after) := by
  induction before
  case nil => cases after <;> rfl
  case cons c cs ih =>
    have pos := c.utf8Size_pos
    simp [splitAtByte, byteSize_cons, ih, Nat.ne_of_gt pos]

theorem append_of_splitAtByte {n : Nat} {v a b : List Char} (h : splitAtByte n v = some (a, b)) :
    v = a ++ b ∧ byteSize a = n := by
  induction v generalizing n a
  case nil =>
    rw [splitAtByte] at h
    split at h <;> cases h
    case isTrue h => exact ⟨rfl, h.symm⟩
  case cons c v ih =>
    rw [splitAtByte] at h
    split at h
    case isTrue h0 =>
      cases h
      exact ⟨rfl, h0.symm⟩
    case isFalse =>
      split at h
      case isFalse => cases h
      case isTrue fits =>
        obtain ⟨p, hp, he⟩ := Option.map_eq_some_iff.mp h
        cases he
        obtain ⟨rfl, size⟩ := ih hp
        refine ⟨rfl, ?_⟩
        rw [byteSize_cons, size]
        omega

theorem sliceExtension_eq : sliceExtension name = some (splitExtension name) := by
  rw [sliceExtension, rfindDot_eq, splitExtension_eq]
  cases h : rsplitOnce '.' name
  case none => rfl
  case some p =>
    obtain ⟨stem, extension⟩ := p
    obtain ⟨rfl, -⟩ := rsplitOnce_eq_some_iff.mp h
    have rest : byteSize (stem ++ '.' :: extension) - byteSize stem = byteSize ('.' :: extension) := by
      rw [byteSize_append, Nat.add_sub_cancel_left]
    have pos : 0 < byteSize stem ↔ stem ≠ [] := by
      refine ⟨?_, byteSize_pos⟩
      rintro h rfl
      contradiction
    simp only [Option.map_some, rest, Bool.and_eq_true, decide_eq_true_eq, pos, splitAtByte_append]
    split <;> rfl

theorem sliceCopyName_eq {original : String} {attempt : Nat} {isFile : Bool} :
    sliceCopyName original attempt isFile = some (copyDisplayName original attempt isFile) := by
  cases isFile
  case false => simp [sliceCopyName, copyDisplayName, copySuffix]
  case true  => simp [sliceCopyName, copyDisplayName, copySuffix, sliceExtension_eq]

end

-- What a collation makes of a name.
section

variable [Collation] [Collation.Charwise]

def lowered (cs : List Char) : List Char :=
  cs.flatMap Collation.Charwise.fold

def plain (c : Char) : Bool :=
  c.toNat < 128 && !c.isUpper

theorem lowered_append : lowered (before ++ after) = lowered before ++ lowered after :=
  List.flatMap_append

theorem lowered_plain (h : name.all plain) : lowered name = name := by
  induction name
  case nil => rfl
  case cons c cs ih =>
    simp only [List.all_cons, Bool.and_eq_true, plain, decide_eq_true_eq, Bool.not_eq_true'] at h
    have : Collation.Charwise.fold c = [c] := Collation.Charwise.fold_plain h.left.left h.left.right
    rw [lowered, List.flatMap_cons, this]
    exact congrArg (c :: ·) (ih h.right)

theorem lower_eq_iff {s t : String} :
    Collation.lower s = Collation.lower t ↔ lowered s.toList = lowered t.toList := by
  rw [Collation.Charwise.lower_eq, Collation.Charwise.lower_eq]
  refine ⟨fun h => ?_, congrArg String.ofList⟩
  have := congrArg String.toList h
  rwa [String.toList_ofList, String.toList_ofList] at this

end

-- The parts of a name that is copied.
section

variable {original : String} {attempt : Nat} {isFile : Bool}

def copyParts (original : List Char) (isFile : Bool) : List Char × List Char :=
  if isFile then splitExtension original else (original, [])

theorem copyParts_append : (copyParts name isFile).1 ++ (copyParts name isFile).2 = name := by
  unfold copyParts
  cases isFile
  case false => simp
  case true =>
    rw [if_pos rfl, splitExtension_eq]
    cases h : rsplitOnce '.' name
    case none => simp
    case some p =>
      obtain ⟨rfl, -⟩ := rsplitOnce_eq_some_iff.mp h
      dsimp only
      split <;> simp

theorem copyParts_stem (h : name ≠ []) : (copyParts name isFile).1 ≠ [] := by
  unfold copyParts
  cases isFile
  case false => exact h
  case true =>
    rw [if_pos rfl, splitExtension_eq]
    split
    case h_1 =>
      split
      case isTrue hs => exact hs.left
      case isFalse   => exact h
    case h_2 => exact h

theorem copyParts_extension : (copyParts name isFile).2.length ≤ 12 := by
  have bytes (cs : List Char) : cs.length ≤ byteSize cs := by
    induction cs
    case nil => exact Nat.le_refl _
    case cons c cs ih =>
      have := c.utf8Size_pos
      rw [byteSize_cons, List.length_cons]
      omega
  unfold copyParts
  cases isFile
  case false => exact Nat.zero_le _
  case true =>
    rw [if_pos rfl, splitExtension_eq]
    split
    case h_1 =>
      split
      case isTrue hs => exact (bytes _).trans hs.right
      case isFalse   => exact Nat.zero_le _
    case h_2 => exact Nat.zero_le _

theorem copySuffix_facts : ∀ attempt ∈ List.range 41, 5 ≤ (copySuffix attempt).length ∧
    (copySuffix attempt).length ≤ 8 ∧ (copySuffix attempt).all plain ∧
    ((copySuffix attempt).all fun c => !forbidden c) ∧
    ((copySuffix attempt).getLast?.all fun c => !isWhitespace c) := by
  decide +kernel

theorem copySuffix_free : ∀ j ∈ List.range 40, ∀ k ∈ List.range 40,
    copySuffix (j + 1) <:+ copySuffix (k + 1) → j = k := by
  decide +kernel

-- A copy keeps something of the stem, and the extension.
theorem toList_copyDisplayName (ha : attempt ≤ 40) (ho : original.toList ≠ []) :
    ∃ rest, rest ≠ [] ∧ rest <+: (copyParts original.toList isFile).1 ∧
      rest.length + (copySuffix attempt).length + (copyParts original.toList isFile).2.length ≤ 255 ∧
      (copyDisplayName original attempt isFile).toList =
        rest ++ copySuffix attempt ++ (copyParts original.toList isFile).2 := by
  obtain ⟨-, suffix, -⟩ := copySuffix_facts attempt (List.mem_range.mpr (Nat.lt_succ_of_le ha))
  have short : (copyParts original.toList isFile).2.length ≤ 12 := copyParts_extension
  have nonempty : (copyParts original.toList isFile).1 ≠ [] := copyParts_stem ho
  have unfolded : copyDisplayName original attempt isFile =
      let p := copyParts original.toList isFile
      if (p.1 ++ copySuffix attempt ++ p.2).length > 255 then
        .ofList (p.1.take (max (255 - ((copySuffix attempt).length + p.2.length)) 1) ++
          copySuffix attempt ++ p.2)
      else .ofList (p.1 ++ copySuffix attempt ++ p.2) :=
    rfl
  rw [unfolded]
  generalize copyParts original.toList isFile = p at *
  obtain ⟨stem, extension⟩ := p
  dsimp only at *
  split
  case isFalse hl =>
    rw [String.toList_ofList]
    simp only [List.length_append] at hl
    exact ⟨stem, nonempty, List.prefix_refl _, by omega, rfl⟩
  case isTrue hl =>
    rw [String.toList_ofList]
    refine ⟨_, ?_, List.take_prefix _ _, ?_, rfl⟩
    case refine_1 =>
      rw [Ne, List.take_eq_nil_iff, not_or]
      exact ⟨by omega, nonempty⟩
    case refine_2 =>
      rw [List.length_take]
      omega

theorem normal_copy (h : Normal original.toList) (ha : attempt ≤ 40) :
    Normal (copyDisplayName original attempt isFile).toList := by
  obtain ⟨long, -, -, allowed, last⟩ := copySuffix_facts attempt (List.mem_range.mpr (Nat.lt_succ_of_le ha))
  obtain ⟨rest, nonempty, first, length, he⟩ := @toList_copyDisplayName original attempt isFile ha h.ne_nil
  have parts : (copyParts original.toList isFile).1 ++ (copyParts original.toList isFile).2 =
      original.toList := copyParts_append
  rw [he]
  generalize copyParts original.toList isFile = p at *
  obtain ⟨stem, extension⟩ := p
  dsimp only at *
  have suffix : copySuffix attempt ≠ [] := by
    intro hn
    simp [hn] at long
  exact {
    ne_nil  := by simp [nonempty]
    length  := by simpa [Nat.add_assoc] using length
    ne_dots := by
      constructor <;>
      · intro hn
        have := congrArg List.length hn
        simp only [List.length_append, List.length_cons, List.length_nil] at this
        omega
    allowed c hc := by
      simp only [List.mem_append] at hc
      obtain (hc | hc) | hc := hc
      case inl.inl => exact h.allowed c (parts ▸ List.mem_append_left _ (first.subset hc))
      case inl.inr => simpa using List.all_eq_true.mp allowed c hc
      case inr     => exact h.allowed c (parts ▸ List.mem_append_right _ hc)
    head c hc := by
      refine h.head c ?_
      obtain ⟨more, rfl⟩ := first
      rw [← parts, List.append_assoc, List.head?_append_of_ne_nil _ nonempty]
      rwa [List.append_assoc, List.head?_append_of_ne_nil _ nonempty] at hc
    last c hc := by
      by_cases hn : extension = []
      case pos =>
        rw [hn, List.append_nil, List.getLast?_append_of_ne_nil _ suffix] at hc
        rw [hc] at last
        simpa using last
      case neg =>
        refine h.last c ?_
        rw [← parts, List.getLast?_append_of_ne_nil _ hn]
        rwa [List.getLast?_append_of_ne_nil _ hn] at hc }

end

-- No two copies have one name.
section

variable [Collation] [Collation.Charwise] {original : String} {isFile : Bool}

theorem copy_injective (ho : original.toList ≠ []) {j k : Nat} (hj : 1 ≤ j ∧ j ≤ 40)
    (hk : 1 ≤ k ∧ k ≤ 40) (he : Collation.lower (copyDisplayName original j isFile) =
      Collation.lower (copyDisplayName original k isFile)) : j = k := by
  obtain ⟨-, -, jplain, -⟩ := copySuffix_facts j (List.mem_range.mpr (Nat.lt_succ_of_le hj.right))
  obtain ⟨-, -, kplain, -⟩ := copySuffix_facts k (List.mem_range.mpr (Nat.lt_succ_of_le hk.right))
  obtain ⟨a, -, -, -, ha⟩ := @toList_copyDisplayName original j isFile hj.right ho
  obtain ⟨b, -, -, -, hb⟩ := @toList_copyDisplayName original k isFile hk.right ho
  rw [lower_eq_iff, ha, hb] at he
  simp only [lowered_append, lowered_plain jplain, lowered_plain kplain] at he
  have he := List.append_cancel_right he
  have free {m n : Nat} (hm : 1 ≤ m ∧ m ≤ 40) (hn : 1 ≤ n ∧ n ≤ 40)
      (hs : copySuffix m <:+ copySuffix n) : m = n := by
    have := copySuffix_free (m - 1) (List.mem_range.mpr (by omega)) (n - 1) (List.mem_range.mpr (by omega))
    rw [Nat.sub_add_cancel hm.left, Nat.sub_add_cancel hn.left] at this
    have := this hs
    omega
  obtain hs | hs := List.suffix_or_suffix_of_suffix (he ▸ List.suffix_append _ _)
    (List.suffix_append (lowered b) (copySuffix k))
  case inl => exact free hj hk hs
  case inr => exact (free hk hj hs).symm

theorem crowded_of_conflict {v : View} {owner : Id} {parent : Option Id} (ho : original.toList ≠ [])
    (hc : availableCopyName v owner parent original isFile = .error .conflict) :
    Crowded v owner parent 40 := by
  have taken : ∀ k < 40, Taken v owner parent (copyDisplayName original (k + 1) isFile) := by
    intro k hk
    unfold availableCopyName at hc
    dsimp only at hc
    split at hc
    case h_1 => contradiction
    case h_2 hf =>
      have := List.find?_eq_none.mp hf _ (List.mem_map.mpr ⟨k, List.mem_range.mpr hk, rfl⟩)
      simp only [Bool.not_eq_true', Bool.not_eq_false, Table.any_iff, Bool.and_eq_true, decide_eq_true_eq,
        Option.isNone_iff_eq_none] at this
      obtain ⟨id, e, hl, ⟨⟨ho, hd⟩, hp⟩, hn⟩ := this
      exact ⟨id, e, hl, ho, hd, hp, hn⟩
  refine ⟨(List.range 40).map fun k => copyDisplayName original (k + 1) isFile, by simp, ?_, ?_⟩
  case refine_1 =>
    rw [List.map_map]
    refine List.Nodup.map_on (fun j hj k hk he => ?_) List.nodup_range
    have := copy_injective ho (j := j + 1) (k := k + 1) ⟨by omega, List.mem_range.mp hj⟩
      ⟨by omega, List.mem_range.mp hk⟩ he
    omega
  case refine_2 =>
    intro name hm
    obtain ⟨k, hk, rfl⟩ := List.mem_map.mp hm
    exact taken k (List.mem_range.mp hk)

-- The extension of a file that is copied.
def HasExtension (name extension : List Char) : Prop :=
  ∃ stem, stem ≠ [] ∧ name = stem ++ '.' :: extension ∧ '.' ∉ extension ∧
    byteSize ('.' :: extension) ≤ 12

theorem copy_names (hn : normalizeName original = .ok original) :
    (∀ k, 1 ≤ k ∧ k ≤ 40 →
      normalizeName (copyDisplayName original k isFile) = .ok (copyDisplayName original k isFile) ∧
      sliceCopyName original k isFile = some (copyDisplayName original k isFile) ∧
      (isFile → ∀ extension, HasExtension original.toList extension →
        '.' :: extension <:+ (copyDisplayName original k isFile).toList)) ∧
    (∀ j k, 1 ≤ j ∧ j ≤ 40 → 1 ≤ k ∧ k ≤ 40 → Collation.lower (copyDisplayName original j isFile) =
      Collation.lower (copyDisplayName original k isFile) → j = k) ∧
    ∀ v owner parent, availableCopyName v owner parent original isFile = .error .conflict →
      Crowded v owner parent 40 := by
  have normal := normal_iff.mp hn
  refine ⟨fun k hk => ⟨normal_iff.mpr (normal_copy normal hk.right), sliceCopyName_eq, ?_⟩,
    fun j k hj hk => copy_injective normal.ne_nil hj hk,
    fun v owner parent => crowded_of_conflict normal.ne_nil⟩
  rintro rfl extension ⟨stem, nonempty, hs, hd, size⟩
  obtain ⟨rest, -, -, -, he⟩ := @toList_copyDisplayName original k true hk.right normal.ne_nil
  have parts : (copyParts original.toList true).2 = '.' :: extension := by
    rw [copyParts, if_pos rfl, splitExtension_eq, hs, rsplitOnce_append hd]
    dsimp only
    rw [if_pos ⟨nonempty, size⟩]
  rw [he, parts]
  exact List.suffix_append _ _

end

section

attribute [local instance] Collation.binary Collation.Charwise.binary

theorem copy_names_photo : normalizeName "photo.jpg" = .ok "photo.jpg" ∧
    normalizeName (copyDisplayName "photo.jpg" 2 true) = .ok (copyDisplayName "photo.jpg" 2 true) := by
  have normal : normalizeName "photo.jpg" = .ok "photo.jpg" := by decide +kernel
  exact ⟨normal, ((copy_names normal).left 2 (by decide)).left⟩

end

end Drive
end MyDrive
