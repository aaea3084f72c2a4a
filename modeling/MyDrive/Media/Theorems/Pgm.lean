import Mathlib.Data.List.TakeWhile
import MyDrive.Media.Theorems.Webp
import MyDrive.Media.Pgm

-- Which written pictures are read back, and that every byte string is read to an end.

namespace MyDrive.Media.Pgm

open Webp (Checked byteAt slice slice_eq exists_split)

variable {bytes front mid back rest : List UInt8} {stop : UInt8 → Bool} {b : UInt8}
  {fuel cursor n : Nat} {p : Picture}

-- The loops.
section

theorem byteAt_front (h : bytes = front ++ b :: back) : byteAt bytes front.length = .ok b := by
  simp [byteAt, h]

theorem length_gt_front (h : bytes = front ++ b :: back) : ¬bytes.length ≤ front.length := by
  simp [h]

theorem advance_eq (h : bytes = front ++ (mid ++ back)) (hm : ∀ b ∈ mid, ¬stop b) (hb : ∀ b ∈ back.head?, stop b)
    (hf : mid.length < fuel) : advance bytes stop fuel front.length = .ok (front ++ mid).length := by
  induction mid generalizing front fuel
  case nil =>
    obtain ⟨fuel, rfl⟩ : ∃ f, fuel = f + 1 := ⟨fuel - 1, by omega⟩
    cases back
    case nil         => simp [advance, h, pure, Except.pure]
    case cons b back => simp [advance, length_gt_front h, byteAt_front h, hb b rfl, Except.ok_bind, pure, Except.pure]
  case cons b mid hi =>
    obtain ⟨fuel, rfl⟩ : ∃ f, fuel = f + 1 := ⟨fuel - 1, by omega⟩
    have next : advance bytes stop fuel (front ++ [b]).length = .ok ((front ++ [b]) ++ mid).length :=
      hi (by simp [h]) (fun c hc => hm c (List.mem_cons_of_mem b hc)) (Nat.lt_of_succ_lt_succ hf)
    have turn : advance bytes stop (fuel + 1) front.length = advance bytes stop fuel (front ++ [b]).length := by
      simp [advance, length_gt_front h, byteAt_front h, hm b, Except.ok_bind]
    rw [turn, next]
    simp

theorem exists_stop (stop : UInt8 → Bool) (rest : List UInt8) : ∃ mid back, rest = mid ++ back ∧
    (∀ b ∈ mid, ¬stop b) ∧ ∀ b ∈ back.head?, stop b := by
  refine ⟨rest.takeWhile (!stop ·), rest.dropWhile (!stop ·), List.takeWhile_append_dropWhile.symm, ?_, ?_⟩
  case refine_1 =>
    intro b hb
    simpa using List.mem_takeWhile_imp hb
  case refine_2 =>
    intro b hb
    have := List.head?_dropWhile_not (!stop ·) rest
    simp_all

theorem skip_blank (h : bytes = front ++ b :: back) (hb : isAsciiWhitespace b) :
    skip bytes (fuel + 1) front.length = skip bytes fuel (front ++ [b]).length := by
  have : b ≠ hash := by
    intro he
    subst he
    cases hb
  simp [skip, length_gt_front h, byteAt_front h, this, hb, Except.ok_bind]

theorem skip_hash (h : bytes = front ++ hash :: (mid ++ back)) (hm : lineFeed ∉ mid)
    (hb : ∀ b ∈ back.head?, b = lineFeed) (hf : mid.length < fuel) :
    skip bytes (fuel + 1) front.length = skip bytes fuel (front ++ hash :: mid).length := by
  have line : ∀ b ∈ hash :: mid, ¬decide (b = lineFeed) := by
    intro b hb
    cases hb
    case head     => decide
    case tail hb  => simpa using fun he : b = lineFeed => hm (he ▸ hb)
  have loop : advance bytes (· = lineFeed) (fuel + 1) front.length = .ok (front ++ hash :: mid).length :=
    advance_eq h line (by simpa using hb) (Nat.succ_lt_succ hf)
  simp only [skip, length_gt_front h, byteAt_front h, loop, if_false, if_true, Except.ok_bind]

theorem skip_stop (h : bytes = front ++ back) (hb : ∀ b ∈ back.head?, b ≠ hash ∧ ¬isAsciiWhitespace b) :
    skip bytes (fuel + 1) front.length = .ok front.length := by
  cases back
  case nil => simp [skip, h, pure, Except.pure]
  case cons b back =>
    have plain := hb b rfl
    simp [skip, length_gt_front h, byteAt_front h, plain.left, plain.right, Except.ok_bind, pure, Except.pure]

theorem skip_fillers {fillers : List Filler} (h : bytes = front ++ (fillers.flatMap Filler.bytes ++ back))
    (hb : ∀ b ∈ back.head?, b ≠ hash ∧ ¬isAsciiWhitespace b) (hf : (fillers.flatMap Filler.bytes).length < fuel) :
    skip bytes fuel front.length = .ok (front ++ fillers.flatMap Filler.bytes).length := by
  induction fillers generalizing front fuel
  case nil =>
    obtain ⟨fuel, rfl⟩ : ∃ f, fuel = f + 1 := ⟨fuel - 1, by omega⟩
    simpa using skip_stop h hb
  case cons f fillers hi =>
    cases f
    case blank b white =>
      have length : (fillers.flatMap Filler.bytes).length + 1 < fuel := by simpa [Filler.bytes] using hf
      obtain ⟨fuel, rfl⟩ : ∃ f, fuel = f + 1 := ⟨fuel - 1, by omega⟩
      have split : bytes = front ++ b :: (fillers.flatMap Filler.bytes ++ back) := by simpa [Filler.bytes] using h
      rw [skip_blank split white, hi (by simpa using split) (by omega)]
      simp [Filler.bytes]
    case comment text line =>
      have length : (fillers.flatMap Filler.bytes).length + (text.length + 2) < fuel := by
        have : (fillers.flatMap Filler.bytes).length + (text.length + 2) =
            ((Filler.comment text line :: fillers).flatMap Filler.bytes).length := by
          simp [Filler.bytes]
          omega
        omega
      obtain ⟨fuel, rfl⟩ : ∃ f, fuel = f + 2 := ⟨fuel - 2, by omega⟩
      have opened : bytes = front ++ hash :: (text ++ (lineFeed :: (fillers.flatMap Filler.bytes ++ back))) := by
        simpa [Filler.bytes] using h
      have ended : bytes = (front ++ hash :: text) ++ lineFeed :: (fillers.flatMap Filler.bytes ++ back) := by
        simpa using opened
      rw [skip_hash opened line (by simp) (by omega), skip_blank ended (by decide),
        hi (by simpa using ended) (by omega)]
      simp [Filler.bytes]

theorem length_flatMap_bytes_le {fillers : List Filler} (h : bytes = front ++ (fillers.flatMap Filler.bytes ++ back)) :
    (fillers.flatMap Filler.bytes).length ≤ bytes.length := by
  simp [h]
  omega

-- A token is what stands between the fillers in front of it and the next blank.
theorem nextToken_eq {fillers : List Filler}
    (h : bytes = front ++ (fillers.flatMap Filler.bytes ++ (b :: mid ++ back))) (hb : b ≠ hash)
    (hm : ∀ c ∈ b :: mid, ¬isAsciiWhitespace c) (he : ∀ c ∈ back.head?, isAsciiWhitespace c)
    (hf : bytes.length < fuel) : nextToken bytes fuel front.length =
      .ok (some (b :: mid), (front ++ fillers.flatMap Filler.bytes ++ b :: mid).length) := by
  have length : front.length + ((fillers.flatMap Filler.bytes).length + (mid.length + 1 + back.length)) = bytes.length := by
    simp [h]
    omega
  have start : skip bytes fuel front.length = .ok (front ++ fillers.flatMap Filler.bytes).length := by
    apply skip_fillers h
    case hb =>
      intro c hc
      obtain rfl : b = c := by simpa using hc
      exact ⟨hb, hm b List.mem_cons_self⟩
    case hf => omega
  have behind : bytes = (front ++ fillers.flatMap Filler.bytes) ++ (b :: mid ++ back) := by simp [h]
  have stop : advance bytes isAsciiWhitespace fuel (front ++ fillers.flatMap Filler.bytes).length =
      .ok (front ++ fillers.flatMap Filler.bytes ++ b :: mid).length := by
    apply advance_eq behind hm he
    simp
    omega
  have token : slice bytes (front ++ fillers.flatMap Filler.bytes).length
      (front ++ fillers.flatMap Filler.bytes ++ b :: mid).length = .ok (b :: mid) :=
    slice_eq behind rfl (by simp; omega)
  have nonempty : (front ++ fillers.flatMap Filler.bytes).length <
      (front ++ fillers.flatMap Filler.bytes ++ b :: mid).length := by
    simp
  simp only [nextToken, start, stop, token, Except.ok_bind, if_pos nonempty, pure, Except.pure]

theorem exists_advance (stop : UInt8 → Bool) (hc : cursor ≤ bytes.length) (hf : bytes.length < fuel) :
    ∃ c, cursor ≤ c ∧ c ≤ bytes.length ∧ advance bytes stop fuel cursor = .ok c := by
  obtain ⟨front, rest, rfl, rfl⟩ := exists_split hc
  obtain ⟨mid, back, rfl, hm, hb⟩ := exists_stop stop rest
  have length : mid.length < fuel := by
    simp at hf
    omega
  exact ⟨_, by simp, by simp, advance_eq rfl hm hb length⟩

theorem exists_skip (hc : cursor ≤ bytes.length) (hf : bytes.length - cursor < fuel) :
    ∃ c, cursor ≤ c ∧ c ≤ bytes.length ∧ skip bytes fuel cursor = .ok c := by
  induction fuel generalizing cursor
  case zero => omega
  case succ fuel hi =>
    obtain ⟨front, rest, h, rfl⟩ := exists_split hc
    cases rest
    case nil => exact ⟨front.length, Nat.le_refl _, hc, skip_stop h (by simp)⟩
    case cons b rest =>
      have length : bytes.length = front.length + (rest.length + 1) := by simp [h]
      by_cases hb : b = hash
      case pos =>
        subst hb
        obtain ⟨mid, back, split, hm, he⟩ := exists_stop (· = lineFeed) rest
        subst split
        have long : bytes.length = front.length + (mid.length + back.length + 1) := by simpa using length
        have comment : skip bytes (fuel + 1) front.length = skip bytes fuel (front ++ hash :: mid).length :=
          skip_hash h (fun hl => hm lineFeed hl (by decide)) (by simpa using he) (by omega)
        have ⟨c, hge, hle, hs⟩ := hi (show (front ++ hash :: mid).length ≤ bytes.length by simp; omega) (by simp; omega)
        exact ⟨c, Nat.le_trans (by simp) hge, hle, comment.trans hs⟩
      case neg =>
        by_cases white : isAsciiWhitespace b
        case pos =>
          have further : (front ++ [b]).length ≤ bytes.length := by
            simp
            omega
          have ⟨c, hge, hle, hs⟩ := hi further (by simp; omega)
          exact ⟨c, Nat.le_trans (by simp) hge, hle, (skip_blank h white).trans hs⟩
        case neg =>
          refine ⟨front.length, Nat.le_refl _, hc, skip_stop h fun c hc => ?_⟩
          obtain rfl : b = c := by simpa using hc
          exact ⟨hb, white⟩

theorem exists_nextToken (hc : cursor ≤ bytes.length) (hf : bytes.length < fuel) :
    ∃ token c, c ≤ bytes.length ∧ nextToken bytes fuel cursor = .ok (token, c) := by
  obtain ⟨start, _, within, skipped⟩ := exists_skip hc (show bytes.length - cursor < fuel by omega)
  obtain ⟨stop, further, inside, advanced⟩ := exists_advance isAsciiWhitespace within hf
  have token : slice bytes start stop = .ok ((bytes.take stop).drop start) := by
    simp [slice, further, inside]
  refine ⟨if start < stop then some ((bytes.take stop).drop start) else none, stop, inside, ?_⟩
  simp only [nextToken, skipped, advanced, token, Except.ok_bind, pure, Except.pure]

end

-- Every byte string is read to an end.
section

-- The outcomes that a reader of a frame is allowed.
def Proper (r : Checked GrayFrame) : Prop :=
  r = .error .rejected ∨ ∃ f, r = .ok f ∧ f.pixels.length = f.width * f.height

namespace Proper

theorem guard {c : Prop} [Decidable c] {f : Unit → Checked GrayFrame} {x : Checked GrayFrame} (h : ¬c → Proper x) :
    Proper (if c then throw .rejected >>= f else x) := by
  by_cases hc : c
  case pos => exact .inl (by rw [if_pos hc, Except.throw_bind])
  case neg => exact (if_neg hc).symm ▸ h hc

theorem token {f : Option (List UInt8) × Nat → Checked GrayFrame} (hc : cursor ≤ bytes.length)
    (hf : bytes.length < fuel) (h : ∀ token c, c ≤ bytes.length → Proper (f (token, c))) :
    Proper (nextToken bytes fuel cursor >>= f) := by
  obtain ⟨token, c, within, found⟩ := exists_nextToken hc hf
  rw [found, Except.ok_bind]
  exact h token c within

theorem dimension {token : Option (List UInt8)} {f : Nat → Checked GrayFrame} (h : ∀ n, Proper (f n)) :
    Proper (parseDimension token >>= f) := by
  unfold parseDimension
  split
  case h_1 => exact .inl rfl
  case h_2 n _ =>
    split
    case isTrue  => exact .inl rfl
    case isFalse => exact h n

end Proper

theorem proper_parsePixels (width height : Nat) (hc : cursor ≤ bytes.length) :
    Proper (parsePixels bytes width height cursor) := by
  obtain ⟨front, rest, h, rfl⟩ := exists_split hc
  unfold parsePixels
  apply Proper.guard
  intro white
  cases rest
  case nil => simp [h] at white
  case cons b rest =>
    rw [byteAt_front h, Except.ok_bind]
    generalize (if b = carriageReturn ∧ bytes[front.length + 1]? = some lineFeed then front.length + 2
      else front.length + 1) = start
    apply Proper.guard
    intro inside
    apply Proper.guard
    intro sized
    have read : slice bytes start (start + width * height) =
        .ok ((bytes.take (start + width * height)).drop start) := by
      simp [slice]
      omega
    rw [read, Except.ok_bind]
    refine .inr ⟨_, rfl, ?_⟩
    simp
    omega

theorem proper_parsePgm (hf : bytes.length < fuel) : Proper (parsePgm bytes fuel) := by
  unfold parsePgm
  apply Proper.token (Nat.zero_le _) hf
  intro magic c₁ h₁
  apply Proper.guard
  intro _
  apply Proper.token h₁ hf
  intro width c₂ h₂
  apply Proper.dimension
  intro w
  apply Proper.token h₂ hf
  intro height c₃ h₃
  apply Proper.dimension
  intro h
  apply Proper.token h₃ hf
  intro value c₄ h₄
  apply Proper.guard
  intro _
  exact proper_parsePixels w h h₄

end

-- The tokens of a written picture.
section

structure Word (token : List UInt8) : Prop where
  ne_nil : token ≠ []
  black  : ∀ b ∈ token, ¬isAsciiWhitespace b
  plain  : hash ∉ token

theorem black_of_digit (h : isDigit b) : ¬isAsciiWhitespace b ∧ b ≠ hash ∧ b ≠ 0x2b := by
  have : 48 ≤ b.toNat ∧ b.toNat ≤ 57 := by simpa [isDigit] using h
  have apart (c : UInt8) (hc : c.toNat < 48) : b ≠ c := by
    rintro rfl
    omega
  refine ⟨?_, apart hash (by decide), apart 0x2b (by decide)⟩
  simp [isAsciiWhitespace, apart space (by decide), apart tab (by decide), apart lineFeed (by decide),
    apart formFeed (by decide), apart carriageReturn (by decide)]

theorem Numeral.word (d : Numeral n) : Word d.digits where
  ne_nil     := d.ne_nil
  black b hb := (black_of_digit (d.digit b hb)).left
  plain hb   := (black_of_digit (d.digit hash hb)).right.left rfl

theorem black_of_all {token : List UInt8} (h : token.all (!isAsciiWhitespace ·)) : ∀ b ∈ token, ¬isAsciiWhitespace b := by
  simpa using List.all_eq_true.mp h

theorem word_p5 : Word p5 where
  ne_nil := by decide
  black  := black_of_all rfl
  plain  := by decide

theorem word_maxValue : Word maxValue where
  ne_nil := by decide
  black  := black_of_all rfl
  plain  := by decide

theorem parseU32_numeral (d : Numeral n) (hn : n < 4294967296) : parseU32 d.digits = some n := by
  have all : d.digits.all isDigit := List.all_eq_true.mpr d.digit
  have unsigned : ∀ ds, d.digits ≠ 0x2b :: ds := by
    intro ds hd
    exact (black_of_digit (d.digit 0x2b (by simp [hd]))).right.right rfl
  unfold parseU32
  split
  case h_1 ds hd => exact absurd hd (unsigned ds)
  case h_2 => simp [d.ne_nil, all, d.value, Nat.not_le_of_lt hn]

theorem parseU32_hash {token : List UInt8} (h : hash ∈ token) : parseU32 token = none := by
  have noDigit {ds : List UInt8} (h : hash ∈ ds) : ds.all isDigit = false :=
    List.all_eq_false.mpr ⟨hash, h, by decide⟩
  unfold parseU32
  split
  case h_1 ds =>
    have : hash ∈ ds := by simpa [hash] using h
    simp [noDigit this]
  case h_2 => simp [noDigit h]

theorem parseDimension_numeral (d : Numeral n) (hn : 1 ≤ n ∧ n ≤ maxFrameSide) :
    parseDimension (some d.digits) = .ok n := by
  have small : n < 4294967296 := Nat.lt_of_le_of_lt hn.right (by decide)
  have pos : n ≠ 0 := by omega
  simp [parseDimension, parseU32_numeral d small, pos]

theorem parseDimension_hash {token : List UInt8} (h : hash ∈ token) : parseDimension (some token) = .error .rejected := by
  simp [parseDimension, parseU32_hash h]

theorem nextToken_word {fillers : List Filler} {token : List UInt8} (ht : Word token)
    (h : bytes = front ++ (fillers.flatMap Filler.bytes ++ (token ++ back)))
    (he : ∀ c ∈ back.head?, isAsciiWhitespace c) (hf : bytes.length < fuel) : nextToken bytes fuel front.length =
      .ok (some token, (front ++ fillers.flatMap Filler.bytes ++ token).length) := by
  cases token
  case nil => exact absurd rfl ht.ne_nil
  case cons b mid =>
    have notHash : b ≠ hash := fun hb => ht.plain (hb ▸ List.mem_cons_self)
    exact nextToken_eq h notHash ht.black he hf

-- A comment directly behind a token is taken for a part of it.
theorem nextToken_comment {fillers : List Filler} {token text : List UInt8} (ht : Word token)
    (h : bytes = front ++ (fillers.flatMap Filler.bytes ++ (token ++ hash :: text))) (hf : bytes.length < fuel) :
    ∃ longer c, nextToken bytes fuel front.length = .ok (some longer, c) ∧ hash ∈ longer := by
  obtain ⟨mid, back, rfl, black, white⟩ := exists_stop isAsciiWhitespace text
  cases token
  case nil => exact absurd rfl ht.ne_nil
  case cons b token =>
    have notHash : b ≠ hash := fun hb => ht.plain (hb ▸ List.mem_cons_self)
    have split : bytes = front ++ (fillers.flatMap Filler.bytes ++ (b :: (token ++ hash :: mid) ++ back)) := by
      simpa using h
    have whole : ∀ c ∈ b :: (token ++ hash :: mid), ¬isAsciiWhitespace c := by
      intro c hc
      have : c ∈ b :: token ∨ c = hash ∨ c ∈ mid := by simpa [or_assoc] using hc
      obtain hc | rfl | hc := this
      case inl    => exact ht.black c hc
      case inr.inl => decide
      case inr.inr => exact black c hc
    exact ⟨_, _, nextToken_eq split notHash whole white hf, by simp⟩

end

-- What is read back of a written picture.
section

namespace Separator

variable (s : Separator)

def fillers : List Filler :=
  s.first :: s.rest

theorem bytes_eq : s.bytes = s.fillers.flatMap Filler.bytes :=
  rfl

variable {s}

theorem head_white (h : s.first.isBlank) : ∀ c ∈ (s.bytes ++ rest).head?, isAsciiWhitespace c := by
  obtain ⟨first, _⟩ := s
  cases first
  case blank b white => simpa [bytes, Filler.bytes] using white
  case comment       => cases h

theorem exists_comment (h : ¬s.first.isBlank) : ∃ text, s.bytes = hash :: text := by
  obtain ⟨first, more⟩ := s
  cases first
  case blank   => exact absurd rfl h
  case comment => exact ⟨_, rfl⟩

end Separator

theorem head_ending (e : Ending) : ∀ c ∈ (e.bytes ++ rest).head?, isAsciiWhitespace c := by
  cases e <;> simp [Ending.bytes] <;> decide

theorem parsePixels_eq (e : Ending) (h : bytes = front ++ (e.bytes ++ p.pixels)) :
    parsePixels bytes p.width p.height front.length = .ok p.toGrayFrame := by
  have area : p.width * p.height ≤ maxFrameBytes := Nat.mul_le_mul p.width_range.right p.height_range.right
  have nonzero : 0 < p.width * p.height := Nat.mul_pos p.width_range.left p.height_range.left
  have length : (front ++ e.bytes).length + p.width * p.height = bytes.length := by
    simp [h, p.complete]
    omega
  have read : slice bytes (front ++ e.bytes).length ((front ++ e.bytes).length + p.width * p.height) = .ok p.pixels :=
    slice_eq (by simp [h] : bytes = (front ++ e.bytes) ++ (p.pixels ++ [])) rfl (by rw [p.complete])
  obtain ⟨b, more, begins⟩ : ∃ b more, e.bytes = b :: more := by
    cases e <;> exact ⟨_, _, rfl⟩
  have split : bytes = front ++ b :: (more ++ p.pixels) := by simp [h, begins]
  have found : bytes[front.length]? = some b := by simp [split]
  have white : isAsciiWhitespace b := @head_ending p.pixels e b (by simp [begins])
  have start : (if b = carriageReturn ∧ bytes[front.length + 1]? = some lineFeed then front.length + 2
      else front.length + 1) = (front ++ e.bytes).length := by
    cases e <;> cases begins <;> simp [split, Ending.bytes, space, tab, lineFeed, carriageReturn]
  have inside : ¬bytes.length < (front ++ e.bytes).length + p.width * p.height := by omega
  have sized : ¬(p.width * p.height = 0 || maxFrameBytes < p.width * p.height) := by
    simp only [Bool.or_eq_true, decide_eq_true_eq]
    omega
  unfold parsePixels
  simp only [found, Option.all_some, white, byteAt_front split, start, read, if_neg inside, if_neg sized, Except.ok_bind,
    Bool.not_true, Bool.false_eq_true, if_false, pure, Except.pure]

namespace Rendering

-- Every separator begins with a blank.
def Spaced (r : Rendering p) : Prop :=
  r.gap₁.first.isBlank ∧ r.gap₂.first.isBlank ∧ r.gap₃.first.isBlank

def RoundTrip (r : Rendering p) : Prop :=
  ∀ fuel, r.bytes.length < fuel → parsePgm r.bytes fuel = .ok p.toGrayFrame

variable (r : Rendering p)

def behindWidth : List UInt8 :=
  p5 ++ r.gap₁.bytes ++ r.width.digits

def behindHeight : List UInt8 :=
  r.behindWidth ++ r.gap₂.bytes ++ r.height.digits

def behindMaxValue : List UInt8 :=
  r.behindHeight ++ r.gap₃.bytes ++ maxValue

variable {r}

theorem magic_split : r.bytes = [] ++ ([].flatMap Filler.bytes ++ (p5 ++ (r.gap₁.bytes ++ (r.width.digits ++
    (r.gap₂.bytes ++ (r.height.digits ++ (r.gap₃.bytes ++ (maxValue ++ (r.ending.bytes ++ p.pixels))))))))) :=
  rfl

theorem width_split : r.bytes = p5 ++ (r.gap₁.fillers.flatMap Filler.bytes ++ (r.width.digits ++
    (r.gap₂.bytes ++ (r.height.digits ++ (r.gap₃.bytes ++ (maxValue ++ (r.ending.bytes ++ p.pixels))))))) :=
  rfl

theorem height_split : r.bytes = r.behindWidth ++ (r.gap₂.fillers.flatMap Filler.bytes ++ (r.height.digits ++
    (r.gap₃.bytes ++ (maxValue ++ (r.ending.bytes ++ p.pixels))))) := by
  simp [bytes, behindWidth, Separator.bytes_eq]

theorem maxValue_split : r.bytes = r.behindHeight ++ (r.gap₃.fillers.flatMap Filler.bytes ++ (maxValue ++
    (r.ending.bytes ++ p.pixels))) := by
  simp [bytes, behindHeight, behindWidth, Separator.bytes_eq]

theorem pixels_split : r.bytes = r.behindMaxValue ++ (r.ending.bytes ++ p.pixels) := by
  simp [bytes, behindMaxValue, behindHeight, behindWidth]

variable (hf : r.bytes.length < fuel)
include hf

theorem magic_read (h : r.gap₁.first.isBlank) : nextToken r.bytes fuel 0 = .ok (some p5, p5.length) :=
  nextToken_word word_p5 magic_split (Separator.head_white h) hf

theorem width_read (h : r.gap₂.first.isBlank) :
    nextToken r.bytes fuel p5.length = .ok (some r.width.digits, r.behindWidth.length) :=
  nextToken_word r.width.word width_split (Separator.head_white h) hf

theorem height_read (h : r.gap₃.first.isBlank) :
    nextToken r.bytes fuel r.behindWidth.length = .ok (some r.height.digits, r.behindHeight.length) :=
  nextToken_word r.height.word height_split (Separator.head_white h) hf

theorem maxValue_read :
    nextToken r.bytes fuel r.behindHeight.length = .ok (some maxValue, r.behindMaxValue.length) :=
  nextToken_word word_maxValue maxValue_split (head_ending r.ending) hf

theorem parsePgm_spaced (h : r.Spaced) : parsePgm r.bytes fuel = .ok p.toGrayFrame := by
  have limits : ¬(decide False || maxFrameSide < p.width || maxFrameSide < p.height) := by
    simp [p.width_range.right, p.height_range.right]
  unfold parsePgm
  simp only [magic_read hf h.left, width_read hf h.right.left, height_read hf h.right.right, maxValue_read hf,
    parseDimension_numeral r.width p.width_range, parseDimension_numeral r.height p.height_range, Except.ok_bind,
    ne_eq, not_true_eq_false, if_false]
  rw [if_neg limits]
  exact parsePixels_eq r.ending pixels_split

theorem parsePgm_unspaced (h : ¬r.Spaced) : parsePgm r.bytes fuel = .error .rejected := by
  unfold parsePgm
  by_cases h₁ : r.gap₁.first.isBlank
  case neg =>
    obtain ⟨text, comment⟩ := Separator.exists_comment h₁
    obtain ⟨longer, c, read, mem⟩ := nextToken_comment word_p5
      (by rw [magic_split, comment, List.cons_append]) hf
    have wrong : some longer ≠ some p5 := by
      rintro ⟨⟩
      exact word_p5.plain mem
    simp only [List.length_nil] at read
    simp only [read, Except.ok_bind, if_pos wrong, Except.throw_bind]
  case pos =>
    simp only [magic_read hf h₁, Except.ok_bind, ne_eq, not_true_eq_false, if_false]
    by_cases h₂ : r.gap₂.first.isBlank
    case neg =>
      obtain ⟨text, comment⟩ := Separator.exists_comment h₂
      obtain ⟨longer, c, read, mem⟩ := nextToken_comment r.width.word
        (by rw [width_split, comment, List.cons_append]) hf
      simp only [read, Except.ok_bind, parseDimension_hash mem]
      rfl
    case pos =>
      simp only [width_read hf h₂, Except.ok_bind, parseDimension_numeral r.width p.width_range]
      have h₃ : ¬r.gap₃.first.isBlank := fun h₃ => h ⟨h₁, h₂, h₃⟩
      obtain ⟨text, comment⟩ := Separator.exists_comment h₃
      obtain ⟨longer, c, read, mem⟩ := nextToken_comment r.height.word
        (by rw [height_split, comment, List.cons_append]) hf
      simp only [read, Except.ok_bind, parseDimension_hash mem]
      rfl

omit hf

theorem roundTrip_iff : r.RoundTrip ↔ r.Spaced := by
  constructor
  case mp =>
    intro h
    by_contra unspaced
    have := (parsePgm_unspaced (Nat.lt_succ_self _) unspaced).symm.trans (h _ (Nat.lt_succ_self _))
    cases this
  case mpr => exact fun h fuel hf => parsePgm_spaced hf h

end Rendering

-- The bytes are read to an end, and only a complete frame is accepted.
def ReadToEnd (bytes : List UInt8) : Prop :=
  ∀ fuel, bytes.length < fuel → Proper (parsePgm bytes fuel)

structure PgmLaw {p : Picture} (r : Rendering p) (bytes : List UInt8) : Prop where
  roundTrip : r.RoundTrip
  readToEnd : ReadToEnd bytes

theorem pgmLaw_iff {p : Picture} (r : Rendering p) (bytes : List UInt8) : PgmLaw r bytes ↔ r.Spaced :=
  ⟨fun h => Rendering.roundTrip_iff.mp h.roundTrip,
    fun h => ⟨Rendering.roundTrip_iff.mpr h, fun _ hf => proper_parsePgm hf⟩⟩

def blackPixel : Picture where
  width        := 1
  height       := 1
  pixels       := [0]
  width_range  := by decide
  height_range := by decide
  complete     := rfl

def one : Numeral 1 where
  digits := [0x31]
  ne_nil := by decide
  digit  := by simp [isDigit]
  value  := rfl

def Separator.newLine : Separator :=
  ⟨.blank lineFeed rfl, []⟩

-- A comment stands directly behind the magic number.
def commented : Rendering blackPixel where
  width  := one
  height := one
  gap₁   := ⟨.comment [] (by decide), []⟩
  gap₂   := .newLine
  gap₃   := .newLine
  ending := .lineFeed

theorem not_pgmLaw : ¬PgmLaw commented [] := by
  intro h
  have spaced := Rendering.roundTrip_iff.mp h.roundTrip
  cases spaced.left

end

end MyDrive.Media.Pgm
