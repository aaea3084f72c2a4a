import MyDrive.Devices.UserCodes
import MyDrive.Drive.Theorems.Names

-- User codes against their grammar: four letters of the alphabet, a hyphen that may be left out, and four
-- more.

namespace MyDrive.Devices.UserCodes

open Drive (byteSize byteSize_append byteSize_cons splitAtByte splitAtByte_append append_of_splitAtByte trim)
open Percent (encode_ascii utf8_cons)

variable {v cs : List Char} {c : Char} {code : List Char}

theorem length_utf8 : (Percent.utf8 v).length = byteSize v := by
  induction v
  case nil          => rfl
  case cons c v ih => rw [utf8_cons, List.length_append, ih, String.length_utf8EncodeChar, byteSize_cons]

-- Only the characters of ASCII have bytes below 128.
theorem high_of_not_ascii (h : ¬ c.toNat < 128) : ∃ b ∈ String.utf8EncodeChar c, 128 ≤ b.toNat := by
  have large : ¬ c.val.toNat ≤ 127 := fun hc => h (Nat.lt_succ_of_le hc)
  refine ⟨UInt8.ofNat (c.val.toNat % 64 + 128), ?_, ?_⟩
  case refine_1 =>
    unfold String.utf8EncodeChar
    dsimp only
    rw [if_neg large]
    split_ifs <;> simp
  case refine_2 =>
    rw [UInt8.toNat_ofNat']
    omega

theorem utf8_ascii (h : ∀ c ∈ v, c.toNat < 128) : Percent.utf8 v = v.map fun c => UInt8.ofNat c.toNat := by
  induction v
  case nil => rfl
  case cons c v ih =>
    obtain ⟨hc, hv⟩ := List.forall_mem_cons.mp h
    rw [utf8_cons, encode_ascii hc, ih hv]
    rfl

theorem ascii_inj {d : Char} (hc : c.toNat < 128) (hd : d.toNat < 128)
    (h : UInt8.ofNat c.toNat = UInt8.ofNat d.toNat) : c = d := by
  have bytes := congrArg UInt8.toNat h
  rw [UInt8.toNat_ofNat', UInt8.toNat_ofNat'] at bytes
  exact Char.toNat_inj.mp (by omega)

theorem ascii_alphabet : ∀ c ∈ userCodeAlphabet, c.toNat < 128 ∧ c ≠ '-' := by
  have checked : userCodeAlphabet.all fun c => c.toNat < 128 ∧ c ≠ '-' := by decide
  exact fun c hc => of_decide_eq_true (List.all_eq_true.mp checked c hc)

def Plain (c : Char) : Prop :=
  c ∈ userCodeAlphabet ∨ c = '-'

theorem Plain.ascii (h : Plain c) : c.toNat < 128 := by
  rcases h with h | rfl
  case inl => exact (ascii_alphabet c h).left
  case inr => decide

theorem plain_iff : (∀ b ∈ String.utf8EncodeChar c, b ≠ hyphen → b ∈ Percent.utf8 userCodeAlphabet) ↔ Plain c := by
  have letters := utf8_ascii fun c hc => (ascii_alphabet c hc).left
  constructor
  case mp =>
    intro h
    have ascii : c.toNat < 128 := by
      by_contra hn
      obtain ⟨b, hb, high⟩ := high_of_not_ascii hn
      have other : b ≠ hyphen := by
        rintro rfl
        exact absurd high (by decide)
      obtain ⟨d, hd, rfl⟩ := List.mem_map.mp (letters ▸ h b hb other)
      have := (ascii_alphabet d hd).left
      rw [UInt8.toNat_ofNat'] at high
      omega
    rw [encode_ascii ascii] at h
    by_cases hy : UInt8.ofNat c.toNat = hyphen
    case pos => exact .inr (ascii_inj ascii (by decide) hy)
    case neg =>
      obtain ⟨d, hd, same⟩ := List.mem_map.mp (letters ▸ h _ List.mem_cons_self hy)
      exact .inl (ascii_inj (ascii_alphabet d hd).left ascii same ▸ hd)
  case mpr =>
    intro h b hb other
    rw [encode_ascii h.ascii, List.mem_singleton] at hb
    subst hb
    rcases h with h | rfl
    case inl => exact letters ▸ List.mem_map_of_mem h
    case inr => exact absurd rfl other

theorem all_plain_iff : ((Percent.utf8 v).filter (· ≠ hyphen)).all (fun byte => byte ∈ Percent.utf8 userCodeAlphabet) ↔
    ∀ c ∈ v, Plain c := by
  simp only [List.all_eq_true, List.mem_filter, decide_eq_true_eq]
  constructor
  case mp  => exact fun h c hc => plain_iff.mp fun b hb other => h b ⟨List.mem_flatMap.mpr ⟨c, hc, hb⟩, other⟩
  case mpr =>
    rintro h b ⟨hb, other⟩
    obtain ⟨c, hc, hb⟩ := List.mem_flatMap.mp hb
    exact plain_iff.mpr (h c hc) b hb other

theorem byteSize_plain (h : ∀ c ∈ v, Plain c) : byteSize v = v.length := by
  rw [← length_utf8, utf8_ascii fun c hc => (h c hc).ascii, List.length_map]

-- The checks of the bytes, in terms of the characters.
theorem checks_iff : ((Percent.utf8 v).length = 9 ∧ (Percent.utf8 v)[4]? = some hyphen ∧
    ((Percent.utf8 v).filter (· ≠ hyphen)).all fun byte => byte ∈ Percent.utf8 userCodeAlphabet) ↔
      v.length = 9 ∧ v[4]? = some '-' ∧ ∀ c ∈ v, Plain c := by
  rw [all_plain_iff, ← and_assoc, ← and_assoc]
  refine and_congr_left fun plain => ?_
  have mid : (Percent.utf8 v)[4]? = some hyphen ↔ v[4]? = some '-' := by
    rw [utf8_ascii fun c hc => (plain c hc).ascii, List.getElem?_map, Option.map_eq_some_iff]
    constructor
    case mp =>
      rintro ⟨c, hc, same⟩
      rw [hc, ascii_inj (d := '-') (plain c (List.mem_of_getElem? hc)).ascii (by decide) same]
    case mpr => exact fun h => ⟨'-', h, rfl⟩
  rw [length_utf8, byteSize_plain plain, mid]

theorem nine_iff : (v.length = 9 ∧ v[4]? = some '-' ∧ ∀ c ∈ v, Plain c) ↔ ∃ a b, a.length = 4 ∧
    b.length = 4 ∧ (∀ c ∈ a ++ b, Plain c) ∧ v = a ++ '-' :: b := by
  constructor
  case mp =>
    rintro ⟨length, mid, plain⟩
    have parts : v = v.take 4 ++ '-' :: v.drop 5 := by
      obtain ⟨hl, he⟩ := List.getElem?_eq_some_iff.mp mid
      rw [← he, List.getElem_cons_drop, List.take_append_drop]
    refine ⟨v.take 4, v.drop 5, by simp [length], by simp [length], fun c hc => plain c ?_, parts⟩
    rcases List.mem_append.mp hc with hc | hc
    case inl => exact List.mem_of_mem_take hc
    case inr => exact List.mem_of_mem_drop hc
  case mpr =>
    rintro ⟨a, b, ha, hb, plain, rfl⟩
    refine ⟨by simp [ha, hb], by simp [ha], fun c hc => ?_⟩
    rcases List.mem_append.mp hc with hc | hc
    case inl => exact plain c (List.mem_append_left _ hc)
    case inr =>
      rcases List.mem_cons.mp hc with rfl | hc
      case inl => exact .inr rfl
      case inr => exact plain c (List.mem_append_right _ hc)

theorem validateUserCode_eq_ok_iff : validateUserCode v = .ok code ↔ code = v ∧ ∃ a b, a.length = 4 ∧
    b.length = 4 ∧ (∀ c ∈ a ++ b, Plain c) ∧ v = a ++ '-' :: b := by
  rw [← nine_iff, ← checks_iff, validateUserCode]
  split
  case isTrue h =>
    rw [Except.ok.injEq, and_iff_left h]
    exact eq_comm
  case isFalse h => exact iff_of_false (by simp) fun hn => h hn.right

theorem validateUserCode_ne_panic : validateUserCode v ≠ .error .panic := by
  rw [validateUserCode]
  split <;> simp

-- The two spellings of a code.
def Spelled (v code : List Char) : Prop :=
  ∃ a b, a.length = 4 ∧ b.length = 4 ∧ (∀ c ∈ a ++ b, c ∈ userCodeAlphabet) ∧
    (v = a ++ b ∨ v = a ++ '-' :: b) ∧ code = a ++ '-' :: b

-- Eight bytes without a hyphen, of which the fourth and the fifth are of one character.
def Cut (v : List Char) : Prop :=
  byteSize v = 8 ∧ '-' ∉ v ∧ ¬ ∃ a b, v = a ++ b ∧ byteSize a = 4

-- A code with a hyphen in place of a letter.
def Hyphenated (v : List Char) : Prop :=
  ∃ a b, a.length = 4 ∧ b.length = 4 ∧ (∀ c ∈ a ++ b, Plain c) ∧ '-' ∈ a ++ b ∧ v = a ++ '-' :: b

structure UserCodeLaw (s : List Char) : Prop where
  returns  : normalizeUserCode s ≠ .error .panic
  accepted : ∀ code, normalizeUserCode s = .ok code ↔ Spelled ((trim s).map Char.toUpper) code
  issued   : ∀ code, normalizeUserCode s = .ok code → ∃ raw, raw.length = 8 ∧ newUserCode raw = code

theorem newUserCode_of_spelled (h : Spelled v code) : ∃ raw, raw.length = 8 ∧ newUserCode raw = code := by
  obtain ⟨a, b, ha, hb, letters, -, rfl⟩ := h
  have checked : userCodeAlphabet.all fun c => userCodeAlphabet.getD
      ((UInt8.ofNat (userCodeAlphabet.idxOf c)).toNat % userCodeAlphabet.length) 'A' = c := by
    decide
  have letter (c : Char) (hc : c ∈ userCodeAlphabet) := of_decide_eq_true (List.all_eq_true.mp checked c hc)
  have chars : ((a ++ b).map fun c => UInt8.ofNat (userCodeAlphabet.idxOf c)).map
      (fun byte => userCodeAlphabet.getD (byte.toNat % userCodeAlphabet.length) 'A') = a ++ b := by
    rw [List.map_map]
    exact (List.map_congr_left fun c hc => letter c (letters c hc)).trans (List.map_id _)
  refine ⟨(a ++ b).map fun c => UInt8.ofNat (userCodeAlphabet.idxOf c), by simp [ha, hb], ?_⟩
  rw [newUserCode, chars, ← ha, List.take_left, List.drop_left]

-- The branches of `normalize_user_code`.
theorem normalizeUserCode_plain {s : List Char} (h : ¬ (byteSize ((trim s).map Char.toUpper) = 8 ∧
    '-' ∉ (trim s).map Char.toUpper)) : normalizeUserCode s = validateUserCode ((trim s).map Char.toUpper) :=
  if_neg h

theorem normalizeUserCode_joined {s a b : List Char} (h : (trim s).map Char.toUpper = a ++ b)
    (h8 : byteSize (a ++ b) = 8) (h4 : byteSize a = 4) (hy : '-' ∉ a ++ b) :
    normalizeUserCode s = validateUserCode (a ++ '-' :: b) := by
  have split : splitAtByte 4 (a ++ b) = some (a, b) := h4 ▸ splitAtByte_append
  rw [normalizeUserCode, h, if_pos ⟨h8, hy⟩, split]

theorem normalizeUserCode_cut {s : List Char} (h : Cut ((trim s).map Char.toUpper)) :
    normalizeUserCode s = .error .panic := by
  obtain ⟨h8, hy, cut⟩ := h
  rw [normalizeUserCode, if_pos ⟨h8, hy⟩]
  split
  case h_1 => rfl
  case h_2 a b split =>
    obtain ⟨same, h4⟩ := append_of_splitAtByte split
    exact absurd ⟨a, b, same, h4⟩ cut

theorem letter_of_plain (h : ∀ c ∈ cs, Plain c) (hy : '-' ∉ cs) : ∀ c ∈ cs, c ∈ userCodeAlphabet := by
  intro c hc
  refine (h c hc).resolve_right ?_
  rintro rfl
  exact hy hc

theorem no_hyphen (h : ∀ c ∈ cs, c ∈ userCodeAlphabet) : '-' ∉ cs :=
  fun hc => (ascii_alphabet _ (h _ hc)).right rfl

theorem spelled_of_ok {s : List Char} (hh : ¬ Hyphenated ((trim s).map Char.toUpper))
    (h : normalizeUserCode s = .ok code) : Spelled ((trim s).map Char.toUpper) code := by
  generalize hv : (trim s).map Char.toUpper = v at *
  by_cases joined : byteSize v = 8 ∧ '-' ∉ v
  case neg =>
    rw [normalizeUserCode_plain (hv ▸ joined), hv] at h
    obtain ⟨rfl, a, b, ha, hb, plain, parts⟩ := validateUserCode_eq_ok_iff.mp h
    have hy : '-' ∉ a ++ b := fun hy => hh ⟨a, b, ha, hb, plain, hy, parts⟩
    exact ⟨a, b, ha, hb, letter_of_plain plain hy, .inr parts, parts⟩
  case pos =>
    obtain ⟨h8, hy⟩ := joined
    by_cases cut : ∃ a b, v = a ++ b ∧ byteSize a = 4
    case neg =>
      rw [normalizeUserCode_cut (hv ▸ ⟨h8, hy, cut⟩)] at h
      cases h
    case pos =>
      obtain ⟨a, b, rfl, h4⟩ := cut
      rw [normalizeUserCode_joined hv h8 h4 hy] at h
      obtain ⟨rfl, a', b', ha, hb, plain, parts⟩ := validateUserCode_eq_ok_iff.mp h
      -- Both halves are plain, and so they have as many characters as bytes.
      have all : ∀ c ∈ a ++ '-' :: b, Plain c := (nine_iff.mpr ⟨a', b', ha, hb, plain, parts⟩).right.right
      have both : ∀ c ∈ a ++ b, Plain c := by
        intro c hc
        refine all c ?_
        rcases List.mem_append.mp hc with hc | hc
        case inl => exact List.mem_append_left _ hc
        case inr => exact List.mem_append_right _ (.tail _ hc)
      have la : a.length = 4 := by rw [← byteSize_plain fun c hc => both c (List.mem_append_left _ hc), h4]
      have lb : b.length = 4 := by
        rw [byteSize_append, h4] at h8
        rw [← byteSize_plain fun c hc => both c (List.mem_append_right _ hc)]
        omega
      exact ⟨a, b, la, lb, letter_of_plain both hy, .inl rfl, rfl⟩

theorem ok_of_spelled {s : List Char} (h : Spelled ((trim s).map Char.toUpper) code) :
    normalizeUserCode s = .ok code := by
  obtain ⟨a, b, ha, hb, letters, spelling, rfl⟩ := h
  have plain : ∀ c ∈ a ++ b, Plain c := fun c hc => .inl (letters c hc)
  have ok : validateUserCode (a ++ '-' :: b) = .ok (a ++ '-' :: b) :=
    validateUserCode_eq_ok_iff.mpr ⟨rfl, a, b, ha, hb, plain, rfl⟩
  rcases spelling with joined | parts
  case inl =>
    have h4 : byteSize a = 4 := by rw [byteSize_plain fun c hc => plain c (List.mem_append_left _ hc), ha]
    have h8 : byteSize (a ++ b) = 8 := by rw [byteSize_plain plain, List.length_append, ha, hb]
    rw [normalizeUserCode_joined joined h8 h4 (no_hyphen letters), ok]
  case inr =>
    have hy : ¬ (byteSize ((trim s).map Char.toUpper) = 8 ∧ '-' ∉ (trim s).map Char.toUpper) := by
      rw [parts]
      exact fun h => h.right (List.mem_append_right _ List.mem_cons_self)
    rw [normalizeUserCode_plain hy, parts, ok]

theorem userCodeLaw_iff (s : List Char) : UserCodeLaw s ↔
    ¬ Cut ((trim s).map Char.toUpper) ∧ ¬ Hyphenated ((trim s).map Char.toUpper) := by
  constructor
  case mp =>
    intro law
    refine ⟨fun cut => law.returns (normalizeUserCode_cut cut), ?_⟩
    rintro ⟨a, b, ha, hb, plain, hy, parts⟩
    have branch : ¬ (byteSize ((trim s).map Char.toUpper) = 8 ∧ '-' ∉ (trim s).map Char.toUpper) := by
      rw [parts]
      exact fun h => h.right (List.mem_append_right _ List.mem_cons_self)
    have ok : normalizeUserCode s = .ok (a ++ '-' :: b) := by
      rw [normalizeUserCode_plain branch, parts]
      exact validateUserCode_eq_ok_iff.mpr ⟨rfl, a, b, ha, hb, plain, rfl⟩
    obtain ⟨a', b', ha', -, letters, -, same⟩ := (law.accepted _).mp ok
    obtain ⟨rfl, tails⟩ := List.append_inj same (ha.trans ha'.symm)
    cases tails
    exact no_hyphen letters hy
  case mpr =>
    rintro ⟨cut, hh⟩
    refine ⟨fun panic => ?_, fun code => ⟨spelled_of_ok hh, ok_of_spelled⟩,
      fun code h => newUserCode_of_spelled (spelled_of_ok hh h)⟩
    by_cases joined : byteSize ((trim s).map Char.toUpper) = 8 ∧ '-' ∉ (trim s).map Char.toUpper
    case neg =>
      rw [normalizeUserCode_plain joined] at panic
      exact validateUserCode_ne_panic panic
    case pos =>
      have whole : ∃ a b, (trim s).map Char.toUpper = a ++ b ∧ byteSize a = 4 := by
        by_contra hn
        exact cut ⟨joined.left, joined.right, hn⟩
      obtain ⟨a, b, parts, h4⟩ := whole
      rw [normalizeUserCode_joined parts (parts ▸ joined.left) h4 (parts ▸ joined.right)] at panic
      exact validateUserCode_ne_panic panic

theorem not_userCodeLaw : ¬ UserCodeLaw "ABCé234".toList := by
  intro law
  exact law.returns (by decide +kernel)

end MyDrive.Devices.UserCodes
