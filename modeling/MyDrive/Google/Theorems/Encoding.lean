import MyDrive.Drive.Theorems.Names
import MyDrive.Google.Encoding

-- Percent-encoded names give back their bytes, and keys the hexadecimal digits that they were read from.

namespace MyDrive

variable {b : UInt8} {bytes : List UInt8} {cs : List Char} {c : Char}

theorem upperHex_eq {n : Nat} (h : n < 16) : Google.upperHex.getD n '0' = Percent.hexDigit n := by
  have all : ∀ n < 16, Google.upperHex.getD n '0' = Percent.hexDigit n := by decide
  exact all n h

theorem high_eq : (b >>> 4).toNat = b.toNat / 16 := by
  rw [UInt8.toNat_shiftRight, Nat.shiftRight_eq_div_pow]
  rfl

theorem low_eq : (b &&& 0x0f).toNat = b.toNat % 16 := by
  rw [UInt8.toNat_and]
  exact Nat.and_two_pow_sub_one_eq_mod b.toNat 4

-- What the encoders make of a byte.
def encodeByte (b : UInt8) : List Char :=
  if isPlainByte b then [.ofNat b.toNat] else Percent.escape b

theorem percentEncode_eq {s : String} : Google.percentEncode s = (Percent.utf8 s.toList).flatMap encodeByte := by
  have small (b : UInt8) : b.toNat < 256 := b.toNat_lt
  unfold Google.percentEncode encodeByte Percent.escape
  congr 1
  funext b
  rw [high_eq, low_eq, upperHex_eq (by have := small b; omega), upperHex_eq (by omega)]

theorem encodeFilename_eq {s : String} : Transfers.encodeFilename s = Google.percentEncode s :=
  rfl

theorem plain_ascii (h : isPlainByte b) : b.toNat < 128 := by
  have all : ∀ n < 256, isPlainByte (UInt8.ofNat n) → n < 128 := by decide +kernel
  have small := b.toNat_lt
  exact all b.toNat small (by rwa [UInt8.ofNat_toNat])

-- The characters of a name in the clear.
def unreserved : List Char :=
  "ABCDEFGHIJKLMNOPQRSTUVWXYZabcdefghijklmnopqrstuvwxyz0123456789-_.~".toList

inductive Encoded : List Char → Prop
  | nil                                    : Encoded []
  | plain {d : Char} {ds : List Char}      : d ∈ unreserved → Encoded ds → Encoded (d :: ds)
  | triple {h l : Char} {ds : List Char}   :
    h ∈ Google.upperHex → l ∈ Google.upperHex → Encoded ds → Encoded ('%' :: h :: l :: ds)

-- A character that a header value and a query may have, and that ends no parameter of theirs.
def Harmless (c : Char) : Prop :=
  '!' ≤ c ∧ c ≤ '~' ∧ c ∉ "\"#&'()*,/:;<=>?@[]\\+".toList

theorem plain_byte (h : isPlainByte b) : Char.ofNat b.toNat ∈ unreserved ∧ Char.ofNat b.toNat ≠ '%' ∧
    String.utf8EncodeChar (.ofNat b.toNat) = [b] := by
  have all : ∀ n < 256, isPlainByte (UInt8.ofNat n) →
      Char.ofNat n ∈ unreserved ∧ Char.ofNat n ≠ '%' ∧ String.utf8EncodeChar (.ofNat n) = [UInt8.ofNat n] := by
    decide +kernel
  have known := all b.toNat b.toNat_lt
  rw [UInt8.ofNat_toNat] at known
  exact known h

theorem Encoded.byte (h : Encoded cs) : Encoded (encodeByte b ++ cs) := by
  have digit : ∀ n < 16, Percent.hexDigit n ∈ Google.upperHex := by decide
  have small := b.toNat_lt
  unfold encodeByte
  split
  case isTrue hb  => exact .plain (plain_byte hb).left h
  case isFalse hb => exact .triple (digit _ (by omega)) (digit _ (by omega)) h

theorem decode?_encodeByte : Percent.decode? (encodeByte b ++ cs) = (Percent.decode? cs).map (b :: ·) := by
  unfold encodeByte
  split
  case isTrue hb =>
    obtain ⟨-, other, byte⟩ := plain_byte hb
    rw [List.singleton_append, Percent.decode?_cons other, byte]
    rfl
  case isFalse hb =>
    have one := @Percent.decode?_escape cs [b]
    rwa [List.flatMap_singleton] at one

theorem encoded_bytes : Encoded (bytes.flatMap encodeByte) := by
  induction bytes
  case nil             => exact .nil
  case cons b bytes ih => exact ih.byte

theorem decode?_bytes : Percent.decode? (bytes.flatMap encodeByte) = some bytes := by
  induction bytes
  case nil             => rfl
  case cons b bytes ih => rw [List.flatMap_cons, decode?_encodeByte, ih, Option.map_some]

theorem Encoded.harmless (h : Encoded cs) : ∀ c ∈ cs, Harmless c := by
  have known : (unreserved ++ ['%']).all fun c => '!' ≤ c ∧ c ≤ '~' ∧ c ∉ "\"#&'()*,/:;<=>?@[]\\+".toList := by decide
  have digits : Google.upperHex.all (· ∈ unreserved) := by decide
  have plain (c : Char) (hc : c ∈ unreserved) : Harmless c := by
    have harmless := of_decide_eq_true (List.all_eq_true.mp known c (List.mem_append_left _ hc))
    exact harmless
  have digit (c : Char) (hc : c ∈ Google.upperHex) : Harmless c :=
    plain c (of_decide_eq_true (List.all_eq_true.mp digits c hc))
  have percent : Harmless '%' := by
    have harmless := of_decide_eq_true (List.all_eq_true.mp known '%' (List.mem_append_right _ List.mem_cons_self))
    exact harmless
  induction h
  case nil => simp
  case plain d ds hd _ ih => exact List.forall_mem_cons.mpr ⟨plain d hd, ih⟩
  case triple h l ds hh hl _ ih =>
    exact List.forall_mem_cons.mpr ⟨percent, List.forall_mem_cons.mpr ⟨digit h hh,
      List.forall_mem_cons.mpr ⟨digit l hl, ih⟩⟩⟩

structure EncodingLaw (s : String) : Prop where
  same     : Transfers.encodeFilename s = Google.percentEncode s
  encoded  : Encoded (Transfers.encodeFilename s)
  harmless : ∀ c ∈ Transfers.encodeFilename s, Harmless c
  decoded  : Percent.decode? (Transfers.encodeFilename s) = some (Percent.utf8 s.toList)
  distinct : ∀ t, Transfers.encodeFilename t = Transfers.encodeFilename s → t = s

theorem encodingLaw (s : String) : EncodingLaw s where
  same       := encodeFilename_eq
  encoded    := by
    rw [encodeFilename_eq, percentEncode_eq]
    exact encoded_bytes
  harmless   := by
    rw [encodeFilename_eq, percentEncode_eq]
    exact encoded_bytes.harmless
  decoded    := by rw [encodeFilename_eq, percentEncode_eq, decode?_bytes]
  distinct t := by
    intro h
    rw [encodeFilename_eq, encodeFilename_eq, percentEncode_eq, percentEncode_eq] at h
    have bytes := congrArg Percent.decode? h
    rw [decode?_bytes, decode?_bytes, Option.some.injEq] at bytes
    exact String.toList_injective (Percent.utf8_injective bytes)

end MyDrive
