import MyDrive.Drive.Theorems.Names
import MyDrive.Google.Encoding
import MyDrive.Library.Except

-- The token key as 64 hexadecimal digits, and what its parser takes beside them.

namespace MyDrive.Config

open Drive (byteSize byteSize_append byteSize_cons splitAtByte splitAtByte_append append_of_splitAtByte)

variable {v l r : List Char} {c d : Char} {key bytes : List UInt8} {b : UInt8} {n index : Nat}

def isHex (c : Char) : Bool :=
  (Percent.hexValue c).isSome

-- The loop over what is left of the text.
def decodePairs : Nat → List Char → Except Failure (Option (List UInt8))
  | 0,     _ => .ok (some [])
  | n + 1, v =>
    match splitAtByte 2 v with
    | none              => .error .panic
    | some (pair, rest) =>
      match fromStrRadix pair with
      | none   => .ok none
      | some b => (decodePairs n rest).map (·.map (b :: ·))

theorem slice_append (h : byteSize l = index * 2) : slice (l ++ r) (index * 2) (index * 2 + 2) =
    (splitAtByte 2 r).elim (.error .panic) fun p => .ok p.1 := by
  rw [slice, ← h, splitAtByte_append, Option.bind_some, Nat.add_sub_cancel_left]
  cases splitAtByte 2 r <;> rfl

theorem decodeFrom_append (h : byteSize l = index * 2) : decodeFrom (l ++ r) index n = decodePairs n r := by
  induction n generalizing l r index
  case zero => rfl
  case succ n ih =>
    rw [decodeFrom, slice_append h, decodePairs]
    cases hs : splitAtByte 2 r
    case none => rfl
    case some p =>
      obtain ⟨pair, rest⟩ := p
      obtain ⟨rfl, size⟩ := append_of_splitAtByte hs
      simp only [Option.elim_some, Except.ok_bind]
      cases hb : fromStrRadix pair
      case none => rfl
      case some b =>
        have next : decodeFrom (l ++ pair ++ rest) (index + 1) n = decodePairs n rest :=
          ih (by rw [byteSize_append, h, size]; omega)
        simp only [← List.append_assoc, next]
        cases decodePairs n rest <;> rfl

-- Pairs of characters that the parser takes, and their bytes.
inductive Pairs : List Char → List UInt8 → Prop
  | nil : Pairs [] []
  | cons {c d : Char} {v : List Char} {b : UInt8} {bytes : List UInt8} :
    fromStrRadix [c, d] = some b → Pairs v bytes → Pairs (c :: d :: v) (b :: bytes)

-- The value of a hexadecimal digit, and the digit that the encoder has for it.
theorem hexValue_digit (h : Percent.hexValue c = some n) :
    c.toNat < 128 ∧ n < 16 ∧ c ≠ '+' ∧ c ≠ '-' ∧ Google.lowerHex.getD n '0' = c.toLower := by
  have ascii : c.toNat < 128 := by
    have small (d : Char) (hd : c ≤ d) (h : d.toNat < 128) : c.toNat < 128 :=
      Nat.lt_of_le_of_lt (UInt32.le_iff_toNat_le.mp hd) h
    unfold Percent.hexValue at h
    split at h
    case isTrue range => exact small _ range.right (by decide)
    case isFalse =>
      split at h
      case isTrue range => exact small _ range.right (by decide)
      case isFalse =>
        split at h
        case isTrue range  => exact small _ range.right (by decide)
        case isFalse       => cases h
  have all : ∀ k < 128, ∀ n ∈ Percent.hexValue (.ofNat k),
      n < 16 ∧ Char.ofNat k ≠ '+' ∧ Char.ofNat k ≠ '-' ∧ Google.lowerHex.getD n '0' = (Char.ofNat k).toLower := by
    decide +kernel
  have known := all c.toNat ascii n
  rw [Char.ofNat_toNat] at known
  exact ⟨ascii, known h⟩

theorem utf8Size_ascii (h : c.toNat < 128) : c.utf8Size = 1 := by
  rw [← String.length_utf8EncodeChar, Percent.encode_ascii h]
  rfl

theorem fromStrRadix_plain (hc : c ≠ '+') : fromStrRadix [c, d] = readDigits [c, d] := by
  unfold fromStrRadix
  split
  case h_1 he => cases he
  case h_2 he => cases he
  case h_3 he => cases he
  case h_4 he =>
    cases he
    exact absurd rfl hc
  case h_5 => rfl

theorem readDigits_eq_some (h : readDigits v = some b) : ∀ c ∈ v, isHex c := by
  have all (start : Nat) : ∀ last, v.foldlM (fun n c => (Percent.hexValue c).bind fun d =>
      if 16 * n + d < 256 then some (16 * n + d) else none) start = some last → ∀ c ∈ v, isHex c := by
    clear h
    induction v generalizing start
    case nil => simp
    case cons c v ih =>
      intro last hl
      rw [List.foldlM_cons] at hl
      obtain ⟨next, step, rest⟩ := Option.bind_eq_some_iff.mp hl
      obtain ⟨d, hd, -⟩ := Option.bind_eq_some_iff.mp step
      exact List.forall_mem_cons.mpr ⟨Option.isSome_of_mem hd, ih next last rest⟩
  obtain ⟨last, hl, -⟩ := Option.map_eq_some_iff.mp h
  exact all 0 last hl

-- The parser takes a pair of digits, or a plus and a digit.
theorem fromStrRadix_iff : fromStrRadix [c, d] = some b ↔ ∃ n, Percent.hexValue d = some n ∧
    (c = '+' ∧ b = .ofNat n ∨ ∃ h, Percent.hexValue c = some h ∧ b = .ofNat (16 * h + n)) := by
  by_cases plus : c = '+'
  case pos =>
    subst plus
    have none : Percent.hexValue '+' = none := by decide
    have digits : fromStrRadix ['+', d] = readDigits [d] := rfl
    rw [digits]
    cases hd : Percent.hexValue d
    case none => simp [readDigits, hd]
    case some n =>
      have small := (hexValue_digit hd).right.left
      have fits : n < 256 := by omega
      simp [readDigits, hd, none, fits, Eq.comm]
  case neg =>
    rw [fromStrRadix_plain plus]
    cases hc : Percent.hexValue c
    case none => simp [readDigits, hc, plus]
    case some h =>
      obtain ⟨-, small, -⟩ := hexValue_digit hc
      have fits : h < 256 := by omega
      cases hd : Percent.hexValue d
      case none => simp [readDigits, hc, hd, fits]
      case some n =>
        obtain ⟨-, small', -⟩ := hexValue_digit hd
        have fits' : 16 * h + n < 256 := by omega
        simp [readDigits, hc, hd, fits, fits', plus, Eq.comm]

theorem isHex_ascii (h : isHex c) : c.utf8Size = 1 := by
  obtain ⟨n, hn⟩ := Option.isSome_iff_exists.mp h
  exact utf8Size_ascii (hexValue_digit hn).left

theorem fromStrRadix_ascii (h : fromStrRadix [c, d] = some b) : c.utf8Size = 1 ∧ d.utf8Size = 1 := by
  obtain ⟨n, hd, cases⟩ := fromStrRadix_iff.mp h
  refine ⟨?_, isHex_ascii (Option.isSome_of_mem hd)⟩
  rcases cases with ⟨rfl, -⟩ | ⟨k, hc, -⟩
  case inl => rfl
  case inr => exact isHex_ascii (Option.isSome_of_mem hc)

theorem splitAtByte_pair (hc : c.utf8Size = 1) (hd : d.utf8Size = 1) :
    splitAtByte 2 (c :: d :: v) = some ([c, d], v) := by
  have pair := @splitAtByte_append [c, d] v
  rwa [byteSize_cons, byteSize_cons, hc, hd] at pair

-- Two bytes that the parser takes are two characters.
theorem eq_pair (h : fromStrRadix l = some b) (size : byteSize l = 2) : ∃ c d, l = [c, d] := by
  rcases l with _ | ⟨c, _ | ⟨d, _ | ⟨e, l⟩⟩⟩
  case nil          => cases h
  case cons.cons.nil => exact ⟨c, d, rfl⟩
  case cons.nil =>
    have digits : readDigits [c] = some b := by
      unfold fromStrRadix at h
      split at h
      case h_1 => cases h
      case h_2 => cases h
      case h_3 => cases h
      case h_4 digits other he =>
        cases he
        exact absurd rfl other
      case h_5 => exact h
    have one := isHex_ascii (readDigits_eq_some digits c List.mem_cons_self)
    rw [byteSize_cons, one] at size
    cases size
  case cons.cons.cons =>
    have hc := c.utf8Size_pos
    have hd := d.utf8Size_pos
    have he := e.utf8Size_pos
    rw [byteSize_cons, byteSize_cons, byteSize_cons] at size
    omega

theorem eq_nil_of_byteSize (h : byteSize v = 0) : v = [] := by
  cases v
  case nil => rfl
  case cons c v =>
    have := c.utf8Size_pos
    rw [byteSize_cons] at h
    omega

theorem decodePairs_key (h : byteSize v = 2 * n) : decodePairs n v = .ok (some bytes) ↔ Pairs v bytes := by
  induction n generalizing v bytes
  case zero =>
    cases eq_nil_of_byteSize h
    constructor
    case mp =>
      intro done
      cases done
      exact .nil
    case mpr =>
      intro pairs
      cases pairs
      rfl
  case succ n ih =>
    constructor
    case mp =>
      intro done
      rw [decodePairs] at done
      split at done
      case h_1 => cases done
      case h_2 pair rest hs =>
        obtain ⟨rfl, size⟩ := append_of_splitAtByte hs
        split at done
        case h_1 => cases done
        case h_2 b hb =>
          obtain ⟨c, d, rfl⟩ := eq_pair hb size
          obtain ⟨found, hf, same⟩ := Except.map_eq_ok_iff.mp done
          obtain ⟨others, rfl, rfl⟩ := Option.map_eq_some_iff.mp same
          rw [byteSize_append, size] at h
          exact .cons hb ((ih (Nat.add_left_cancel (h.trans (Nat.add_comm (2 * n) 2)))).mp hf)
    case mpr =>
      intro pairs
      cases pairs
      case nil => cases h
      case cons c d v b bytes hb pairs =>
        obtain ⟨hc, hd⟩ := fromStrRadix_ascii hb
        rw [byteSize_cons, byteSize_cons, hc, hd] at h
        simp only [decodePairs, splitAtByte_pair hc hd, hb, (ih (by omega)).mpr pairs]
        rfl

-- The loop panics at two bytes that cut a character, behind pairs that the parser takes.
theorem decodePairs_panic (h : byteSize v = 2 * n) : decodePairs n v = .error .panic ↔
    ∃ l r bytes, v = l ++ r ∧ Pairs l bytes ∧ r ≠ [] ∧ splitAtByte 2 r = none := by
  induction n generalizing v
  case zero =>
    cases eq_nil_of_byteSize h
    refine iff_of_false (fun panic => by cases panic) ?_
    rintro ⟨l, r, bytes, shape, -, more, -⟩
    exact more (List.append_eq_nil_iff.mp shape.symm).right
  case succ n ih =>
    cases hs : splitAtByte 2 v
    case none =>
      have some : v ≠ [] := by
        rintro rfl
        cases h
      refine iff_of_true (by rw [decodePairs, hs]) ⟨[], v, [], rfl, .nil, some, hs⟩
    case some p =>
      obtain ⟨pair, rest⟩ := p
      obtain ⟨rfl, size⟩ := append_of_splitAtByte hs
      rw [byteSize_append, size] at h
      -- Pairs that the parser takes begin with this one.
      have first {l r bytes} (shape : pair ++ rest = l ++ r) (pairs : Pairs l bytes) (torn : splitAtByte 2 r = none) :
          ∃ l' bytes' b, rest = l' ++ r ∧ Pairs l' bytes' ∧ fromStrRadix pair = some b := by
        cases pairs
        case nil =>
          rw [List.nil_append] at shape
          rw [← shape, hs] at torn
          cases torn
        case cons c d v b bytes hb pairs =>
          obtain ⟨hc, hd⟩ := fromStrRadix_ascii hb
          have same := @splitAtByte_pair (v ++ r) c d hc hd
          rw [shape] at hs
          rw [List.cons_append, List.cons_append, same] at hs
          cases hs
          exact ⟨v, bytes, b, rfl, pairs, hb⟩
      simp only [decodePairs, hs]
      cases hb : fromStrRadix pair
      case none =>
        refine iff_of_false (fun panic => by cases panic) ?_
        rintro ⟨l, r, bytes, shape, pairs, -, torn⟩
        obtain ⟨-, -, b, -, -, taken⟩ := first shape pairs torn
        rw [hb] at taken
        cases taken
      case some b =>
        have inner : (decodePairs n rest).map (Option.map (b :: ·)) = .error .panic ↔ decodePairs n rest = .error .panic := by
          cases decodePairs n rest <;> simp [Except.map]
        refine inner.trans ((ih (by omega)).trans ⟨?_, ?_⟩)
        case refine_1 =>
          rintro ⟨l, r, bytes, rfl, pairs, more, torn⟩
          obtain ⟨c, d, rfl⟩ := eq_pair hb size
          exact ⟨c :: d :: l, r, b :: bytes, rfl, .cons hb pairs, more, torn⟩
        case refine_2 =>
          rintro ⟨l, r, bytes, shape, pairs, more, torn⟩
          obtain ⟨l', bytes', -, rest', pairs', -⟩ := first shape pairs torn
          exact ⟨l', r, bytes', rest', pairs', more, torn⟩

theorem isHex_plus : isHex '+' = false := by
  decide

-- Pairs without a plus are digits, and the encoder writes them in lower case.
theorem Pairs.hex (h : Pairs v bytes) (plus : '+' ∉ v) : v.all isHex ∧ Google.hexEncode bytes = v.map Char.toLower := by
  induction h
  case nil => exact ⟨rfl, rfl⟩
  case cons c d v b bytes hb _ ih =>
    simp only [List.mem_cons, not_or] at plus
    obtain ⟨all, lower⟩ := ih plus.right.right
    obtain ⟨n, hd, cases⟩ := fromStrRadix_iff.mp hb
    rcases cases with ⟨rfl, -⟩ | ⟨h, hc, rfl⟩
    case inl => exact absurd rfl plus.left
    case inr =>
      obtain ⟨-, small, -, -, first⟩ := hexValue_digit hc
      obtain ⟨-, small', -, -, second⟩ := hexValue_digit hd
      have digits : (UInt8.ofNat (16 * h + n) >>> 4).toNat = h ∧ (UInt8.ofNat (16 * h + n) &&& 0x0f).toNat = n := by
        have value : (UInt8.ofNat (16 * h + n)).toNat = 16 * h + n := by
          rw [UInt8.toNat_ofNat']
          omega
        rw [UInt8.toNat_shiftRight, UInt8.toNat_and, value]
        refine ⟨?_, (Nat.and_two_pow_sub_one_eq_mod _ 4).trans (by omega)⟩
        exact (Nat.shiftRight_eq_div_pow _ 4).trans (by omega)
      refine ⟨?_, ?_⟩
      case refine_1 =>
        rw [List.all_cons, List.all_cons, isHex, hc, isHex, hd, all]
        rfl
      case refine_2 =>
        rw [Google.hexEncode, List.flatMap_cons, digits.left, digits.right, first, second]
        exact congrArg (c.toLower :: d.toLower :: ·) lower

theorem byteSize_hex (h : v.all isHex) : byteSize v = v.length := by
  induction v
  case nil => rfl
  case cons c v ih =>
    obtain ⟨hc, hv⟩ := Bool.and_eq_true_iff.mp h
    rw [byteSize_cons, isHex_ascii hc, ih hv, List.length_cons, Nat.add_comm]

theorem exists_pairs (h : v.all isHex) (even : v.length = 2 * n) : ∃ bytes, Pairs v bytes := by
  induction n generalizing v
  case zero =>
    cases List.length_eq_zero_iff.mp even
    exact ⟨[], .nil⟩
  case succ n ih =>
    rcases v with _ | ⟨c, _ | ⟨d, v⟩⟩
    case nil       => cases even
    case cons.nil  => simp at even; omega
    case cons.cons =>
      obtain ⟨hc, hr⟩ := Bool.and_eq_true_iff.mp h
      obtain ⟨hd, hv⟩ := Bool.and_eq_true_iff.mp hr
      obtain ⟨k, hk⟩ := Option.isSome_iff_exists.mp hc
      obtain ⟨m, hm⟩ := Option.isSome_iff_exists.mp hd
      simp only [List.length_cons] at even
      obtain ⟨bytes, pairs⟩ := ih hv (by omega)
      exact ⟨_, .cons (fromStrRadix_iff.mpr ⟨m, hm, .inr ⟨k, hk, rfl⟩⟩) pairs⟩

def HexText (v : List Char) : Prop :=
  v.length = 64 ∧ v.all isHex

-- A text is read as 32 bytes if it is 64 hexadecimal digits, and the bytes are written as these digits.
structure KeyLaw (v : List Char) : Prop where
  returns  : decodeTokenKey v ≠ .error .panic
  accepted : (∃ key, decodeTokenKey v = .ok (some key)) ↔ HexText v
  inverted : ∀ key, decodeTokenKey v = .ok (some key) → Google.hexEncode key = v.map Char.toLower

-- Behind pairs that the parser takes, the text ends without a plus in them, or the next two bytes are characters.
def Clean (v : List Char) : Prop :=
  byteSize v = 64 → ∀ l r bytes, v = l ++ r → Pairs l bytes →
    (r = [] → '+' ∉ l) ∧ (r ≠ [] → splitAtByte 2 r ≠ none)

theorem decodeTokenKey_eq (size : byteSize v = 64) : decodeTokenKey v = decodePairs 32 v := by
  rw [decodeTokenKey, if_neg (not_not.mpr size)]
  exact @decodeFrom_append [] v 32 0 rfl

theorem keyLaw_iff (v : List Char) : KeyLaw v ↔ Clean v := by
  constructor
  case mp =>
    intro law size l r bytes shape pairs
    have key := decodeTokenKey_eq size
    refine ⟨fun last => ?_, fun more torn => ?_⟩
    case refine_1 =>
      intro plus
      rw [last, List.append_nil] at shape
      have accepted := law.accepted.mp ⟨bytes, key.trans ((decodePairs_key (n := 32) size).mpr (shape ▸ pairs))⟩
      have hex := List.all_eq_true.mp accepted.right '+' (shape ▸ plus)
      rw [isHex_plus] at hex
      cases hex
    case refine_2 => exact law.returns (key.trans ((decodePairs_panic (n := 32) size).mpr ⟨l, r, bytes, shape, pairs, more, torn⟩))
  case mpr =>
    intro clean
    by_cases size : byteSize v = 64
    case neg =>
      have refused : decodeTokenKey v = .ok none := if_pos size
      have none (key) : decodeTokenKey v ≠ .ok (some key) := by
        rw [refused]
        exact fun h => by cases h
      refine ⟨by rw [refused]; simp, ?_, fun key h => absurd h (none key)⟩
      refine iff_of_false (fun h => none _ h.choose_spec) fun hex => size ?_
      rw [byteSize_hex hex.right, hex.left]
    case pos =>
      have key := decodeTokenKey_eq size
      have plain {bytes} (pairs : Pairs v bytes) : '+' ∉ v :=
        (clean size v [] bytes (List.append_nil v).symm pairs).left rfl
      refine ⟨fun panic => ?_, ⟨?_, ?_⟩, fun bytes h => ?_⟩
      case refine_1 =>
        rw [key] at panic
        obtain ⟨l, r, bytes, shape, pairs, more, torn⟩ := (decodePairs_panic (n := 32) size).mp panic
        exact (clean size l r bytes shape pairs).right more torn
      case refine_2 =>
        rintro ⟨bytes, h⟩
        rw [key] at h
        have pairs := (decodePairs_key (n := 32) size).mp h
        have hex := (pairs.hex (plain pairs)).left
        exact ⟨byteSize_hex hex ▸ size, hex⟩
      case refine_3 =>
        intro hex
        obtain ⟨bytes, pairs⟩ := @exists_pairs v 32 hex.right hex.left
        exact ⟨bytes, key.trans ((decodePairs_key (n := 32) size).mpr pairs)⟩
      case refine_4 =>
        rw [key] at h
        have pairs := (decodePairs_key (n := 32) size).mp h
        exact (pairs.hex (plain pairs)).right

-- Each text meets the law exactly where it is clean, and clean texts of one key differ in letter case alone.
theorem tokenKey_iff (v : List Char) : (KeyLaw v ↔ Clean v) ∧ ∀ w key, Clean v → Clean w →
    decodeTokenKey v = .ok (some key) → decodeTokenKey w = .ok (some key) → v.map Char.toLower = w.map Char.toLower := by
  refine ⟨keyLaw_iff v, fun w key hv hw first second => ?_⟩
  rw [← ((keyLaw_iff v).mpr hv).inverted key first, ((keyLaw_iff w).mpr hw).inverted key second]

-- A plus and a digit are read as a byte.
theorem not_keyLaw : ¬ KeyLaw ('+' :: List.replicate 63 '0') := by
  intro law
  have hex := law.accepted.mp ⟨List.replicate 32 0, by decide +kernel⟩
  have plus := List.all_eq_true.mp hex.right '+' List.mem_cons_self
  rw [isHex_plus] at plus
  cases plus

end MyDrive.Config
