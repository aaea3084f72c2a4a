import Mathlib.Algebra.Ring.Nat

-- Percent-encoding of the UTF-8 bytes of a text.

namespace Percent

def hexDigit (n : Nat) : Char :=
  if n < 10 then .ofNat (48 + n) else .ofNat (55 + n)

def hexValue (c : Char) : Option Nat :=
  if '0' ≤ c ∧ c ≤ '9' then some (c.toNat - 48)
  else if 'A' ≤ c ∧ c ≤ 'F' then some (c.toNat - 55)
  else if 'a' ≤ c ∧ c ≤ 'f' then some (c.toNat - 87)
  else none

def escape (b : UInt8) : List Char :=
  ['%', hexDigit (b.toNat / 16), hexDigit (b.toNat % 16)]

def utf8 (text : List Char) : List UInt8 :=
  text.flatMap String.utf8EncodeChar

def ofUtf8 (bytes : List UInt8) : Option (List Char) :=
  bytes.toByteArray.utf8Decode?.map (·.toList)

-- `plain` are the characters that stand for themselves.
def encode (plain : Char → Bool) (text : List Char) : List Char :=
  text.flatMap fun c => if plain c then [c] else (String.utf8EncodeChar c).flatMap escape

-- The byte of two hexadecimal digits.
def byte (high low : Char) : Option UInt8 :=
  (hexValue high).bind fun h => (hexValue low).map fun l => .ofNat (16 * h + l)

-- The bytes of a text, unless it has a `%` without two digits after it.
def decode? : List Char → Option (List UInt8)
  | []                       => some []
  | '%' :: high :: low :: cs => (byte high low).bind fun b => (decode? cs).map (b :: ·)
  | c :: cs                  =>
    if c = '%' then none else (decode? cs).map (String.utf8EncodeChar c ++ ·)

-- The bytes of a text, where a `%` without two digits after it stands for itself.
def decode : List Char → List UInt8
  | []                       => []
  | '%' :: high :: low :: cs =>
    match byte high low with
    | some b => b :: decode cs
    | none   => String.utf8EncodeChar '%' ++ decode (high :: low :: cs)
  | c :: cs                  => String.utf8EncodeChar c ++ decode cs

variable {plain : Char → Bool} {text rest : List Char} {bytes : List UInt8} {b : UInt8} {c d : Char} {n : Nat}

theorem ofUtf8_utf8 : ofUtf8 (utf8 text) = some text := by
  have : (utf8 text).toByteArray = text.utf8Encode := rfl
  simp [ofUtf8, this]

theorem utf8_cons : utf8 (c :: text) = String.utf8EncodeChar c ++ utf8 text :=
  rfl

theorem encode_ascii (h : c.toNat < 128) : String.utf8EncodeChar c = [UInt8.ofNat c.toNat] := by
  unfold String.utf8EncodeChar
  exact if_pos (Nat.le_of_lt_succ h)

theorem utf8_injective {text' : List Char} (h : utf8 text = utf8 text') : text = text' :=
  Option.some.inj (by rw [← ofUtf8_utf8, h, ofUtf8_utf8])

theorem hexValue_hexDigit (h : n < 16) : hexValue (hexDigit n) = some n := by
  have all : ∀ n < 16, hexValue (hexDigit n) = some n := by decide
  exact all n h

theorem byte_hexDigit : byte (hexDigit (b.toNat / 16)) (hexDigit (b.toNat % 16)) = some b := by
  have small := b.toNat_lt
  rw [byte, hexValue_hexDigit (by omega), hexValue_hexDigit (by omega), Option.bind_some, Option.map_some]
  congr 1
  apply UInt8.toNat_inj.mp
  rw [UInt8.toNat_ofNat']
  omega

theorem decode?_escape : decode? (bytes.flatMap escape ++ rest) = (decode? rest).map (bytes ++ ·) := by
  induction bytes
  case nil => simp
  case cons b bytes ih =>
    rw [List.flatMap_cons, List.append_assoc, escape]
    simp only [List.cons_append, List.nil_append, decode?]
    rw [byte_hexDigit, ih]
    simp [Function.comp_def]

theorem decode_escape : decode (bytes.flatMap escape ++ rest) = bytes ++ decode rest := by
  induction bytes
  case nil => rfl
  case cons b bytes ih =>
    rw [List.flatMap_cons, List.append_assoc, escape]
    simp only [List.cons_append, List.nil_append, decode]
    rw [byte_hexDigit]
    simp only [ih]

theorem decode?_cons (h : c ≠ '%') : decode? (c :: text) = (decode? text).map (String.utf8EncodeChar c ++ ·) := by
  rw [decode?, if_neg h]
  intro high low cs he
  cases he
  contradiction

theorem decode_cons (h : c ≠ '%') : decode (c :: text) = String.utf8EncodeChar c ++ decode text := by
  rw [decode]
  intro high low cs he
  cases he
  contradiction

theorem decode?_encode (h : plain '%' = false) : decode? (encode plain text) = some (utf8 text) := by
  induction text
  case nil => rfl
  case cons c text ih =>
    rw [encode, List.flatMap_cons, utf8_cons]
    split
    case isTrue hc =>
      have ne : c ≠ '%' := by
        rintro rfl
        exact Bool.false_ne_true (h.symm.trans hc)
      rw [List.cons_append, List.nil_append, decode?_cons ne, ← encode, ih, Option.map_some]
    case isFalse => rw [decode?_escape, ← encode, ih, Option.map_some]

theorem decode_encode (h : plain '%' = false) : decode (encode plain text) = utf8 text := by
  induction text
  case nil => rfl
  case cons c text ih =>
    rw [encode, List.flatMap_cons, utf8_cons]
    split
    case isTrue hc =>
      have ne : c ≠ '%' := by
        rintro rfl
        exact Bool.false_ne_true (h.symm.trans hc)
      rw [List.cons_append, List.nil_append, decode_cons ne, ← encode, ih]
    case isFalse => rw [decode_escape, ← encode, ih]

-- An encoded text has its plain characters and those of the escapes.
theorem mem_encode (h : d ∈ encode plain text) : plain d ∨ d = '%' ∨ ∃ n < 16, d = hexDigit n := by
  obtain ⟨c, -, hd⟩ := List.mem_flatMap.mp h
  split at hd
  case isTrue hc =>
    cases List.mem_singleton.mp hd
    exact .inl hc
  case isFalse =>
    obtain ⟨b, -, hb⟩ := List.mem_flatMap.mp hd
    have small := b.toNat_lt
    simp only [escape, List.mem_cons, List.not_mem_nil, or_false] at hb
    rcases hb with rfl | rfl | rfl
    · exact .inr (.inl rfl)
    · exact .inr (.inr ⟨_, by omega, rfl⟩)
    · exact .inr (.inr ⟨_, by omega, rfl⟩)

-- A separator that is neither plain nor part of an escape is not in an encoded text.
theorem not_mem_encode (h : plain d = false) (hd : d ≠ '%' ∧ ∀ n < 16, d ≠ hexDigit n) : d ∉ encode plain text := by
  intro mem
  rcases mem_encode mem with hp | rfl | ⟨n, hn, rfl⟩
  · exact Bool.false_ne_true (h.symm.trans hp)
  · exact hd.left rfl
  · exact hd.right n hn rfl

theorem encode_eq_nil_iff : encode plain text = [] ↔ text = [] := by
  cases text
  case nil => simp [encode]
  case cons c text =>
    simp only [encode, List.flatMap_cons, List.append_eq_nil_iff, reduceCtorEq, iff_false, not_and]
    intro none
    split at none
    case isTrue => cases none
    case isFalse =>
      have pos := c.utf8Size_pos
      rw [← String.length_utf8EncodeChar] at pos
      obtain ⟨b, bytes, hb⟩ := List.exists_cons_of_length_pos pos
      simp [hb, escape] at none

end Percent
