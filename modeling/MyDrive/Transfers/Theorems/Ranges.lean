import Mathlib.Algebra.Ring.Nat
import Mathlib.Data.List.TakeWhile
import Mathlib.Order.Interval.Set.Basic
import MyDrive.Transfers.Theorems.Resume

-- The header `Range` against the grammar of a single range, whose numbers may have any length.

namespace MyDrive.Transfers

-- What a client asks for.
inductive Requested
  | closed (first last : Nat)
  | onward (first : Nat)
  | suffix (length : Nat)

namespace Requested

variable {n : Nat} {q : Requested} {r : ByteRange}

def positions (n : Nat) : Requested → Set Nat
  | closed first last => Set.Icc first last
  | onward first      => Set.Ici first
  | suffix length     => { i | n ≤ i + length }

def Satisfiable (n : Nat) : Requested → Prop
  | closed first last => first < n ∧ first ≤ last
  | onward first      => first < n
  | suffix length     => 0 < length

def largest : Requested → Nat
  | closed first last => max first last
  | onward first      => first
  | suffix length     => length

def range (n : Nat) : Requested → ByteRange
  | closed first last => { start := first, last := min last (n - 1) }
  | onward first      => { start := first, last := n - 1 }
  | suffix length     => { start := n - min length n, last := n - 1 }

-- The bytes of a range are what was asked for, as far as it is there.
structure Answers (n : Nat) (q : Requested) (r : ByteRange) : Prop where
  ordered : r.start ≤ r.last
  asked   : Set.Icc r.start r.last = q.positions n ∩ Set.Iio n

theorem range_answers (hn : 0 < n) (hq : q.Satisfiable n) : Answers n q (q.range n) := by
  cases q
  case closed first last =>
    obtain ⟨within, ordered⟩ := hq
    refine ⟨by simp only [range]; omega, Set.ext fun i => ?_⟩
    simp only [range, positions, Set.mem_inter_iff, Set.mem_Icc, Set.mem_Iio]
    omega
  case onward first =>
    simp only [Satisfiable] at hq
    refine ⟨by simp only [range]; omega, Set.ext fun i => ?_⟩
    simp only [range, positions, Set.mem_inter_iff, Set.mem_Icc, Set.mem_Ici, Set.mem_Iio]
    omega
  case suffix length =>
    simp only [Satisfiable] at hq
    refine ⟨by simp only [range]; omega, Set.ext fun i => ?_⟩
    simp only [range, positions, Set.mem_inter_iff, Set.mem_Icc, Set.mem_ofPred_eq, Set.mem_Iio]
    omega

theorem answers_iff (hn : 0 < n) (hq : q.Satisfiable n) : Answers n q r ↔ r = q.range n := by
  constructor
  case mp =>
    intro h
    obtain ⟨start, last⟩ := (Set.Icc_eq_Icc_iff h.ordered).mp (h.asked.trans (range_answers hn hq).asked.symm)
    cases r
    cases start
    cases last
    rfl
  case mpr =>
    rintro rfl
    exact range_answers hn hq

end Requested

variable {P Q : List Char → Nat → Prop} {cs ds : List Char} {s : String} {n m : Nat} {r : ByteRange}
  {q q' : Requested}

def decimal (cs : List Char) : Nat :=
  cs.foldl (fun n c => 10 * n + (c.toNat - '0'.toNat)) 0

-- Decimal digits of any length.
def Numeral (cs : List Char) (n : Nat) : Prop :=
  cs ≠ [] ∧ (∀ c ∈ cs, c.isDigit) ∧ n = decimal cs

-- The integer parser of the standard library also takes a plus.
def Signed (cs : List Char) (n : Nat) : Prop :=
  Numeral cs n ∨ ∃ ds, cs = '+' :: ds ∧ Numeral ds n

inductive Written (P : List Char → Nat → Prop) : List Char → Requested → Prop
  | closed {a b first last} : P a first → P b last → Written P (a ++ '-' :: b) (.closed first last)
  | onward {a first}        : P a first → Written P (a ++ ['-']) (.onward first)
  | suffix {b length}       : P b length → Written P ('-' :: b) (.suffix length)

def Header (P : List Char → Nat → Prop) (s : String) (q : Requested) : Prop :=
  ∃ cs, s.toList = "bytes=".toList ++ cs ∧ Written P cs q

theorem Numeral.plain (h : Numeral cs n) {c : Char} (hc : c ∈ cs) : c ≠ '-' ∧ c ≠ ',' ∧ c ≠ '+' := by
  have digit := h.right.left c hc
  refine ⟨?_, ?_, ?_⟩ <;> rintro rfl <;> exact absurd digit (by decide)

theorem Signed.plain (h : Signed cs n) {c : Char} (hc : c ∈ cs) : c ≠ '-' ∧ c ≠ ',' := by
  rcases h with h | ⟨ds, rfl, h⟩
  case inl => exact ⟨(h.plain hc).left, (h.plain hc).right.left⟩
  case inr =>
    rcases List.mem_cons.mp hc with rfl | hc
    case inl => decide
    case inr => exact ⟨(h.plain hc).left, (h.plain hc).right.left⟩

theorem Signed.no_minus (h : Signed cs n) : '-' ∉ cs :=
  fun hc => (h.plain hc).left rfl

theorem Signed.no_comma (h : Signed cs n) : ',' ∉ cs :=
  fun hc => (h.plain hc).right rfl

theorem no_comma (hc : ',' ∉ cs) (hd : ',' ∉ ds) : ',' ∉ cs ++ '-' :: ds := by
  simp [hc, hd]

theorem Signed.ne_nil (h : Signed cs n) : cs ≠ [] := by
  rcases h with h | ⟨ds, rfl, h⟩
  case inl => exact h.left
  case inr => exact List.cons_ne_nil _ _

def magnitude : List Char → Nat
  | '+' :: ds => decimal ds
  | cs        => decimal cs

theorem Signed.eq (h : Signed cs n) : n = magnitude cs := by
  rcases h with h | ⟨ds, rfl, h⟩
  case inr => exact h.right.right
  case inl =>
    unfold magnitude
    split
    case h_1 => exact absurd (h.plain List.mem_cons_self).right.right (by simp)
    case h_2 => exact h.right.right

theorem numeral_iff : Numeral cs n ↔ Signed cs n ∧ '+' ∉ cs := by
  constructor
  case mp  => exact fun h => ⟨.inl h, fun hc => (h.plain hc).right.right rfl⟩
  case mpr =>
    rintro ⟨h | ⟨ds, rfl, h⟩, plus⟩
    case inl => exact h
    case inr => exact absurd List.mem_cons_self plus

def parseDigits (cs : List Char) : Option Nat :=
  if cs = [] || !cs.all Char.isDigit || decimal cs ≥ 18446744073709551616 then none else some (decimal cs)

theorem parseDigits_iff : parseDigits cs = some n ↔ Numeral cs n ∧ n < 2 ^ 64 := by
  rw [parseDigits, Numeral]
  split
  case isTrue h =>
    simp only [Bool.or_eq_true, decide_eq_true_eq, Bool.not_eq_true', List.all_eq_false] at h
    refine iff_of_false (by simp) fun hn => ?_
    obtain ⟨⟨ne, all, rfl⟩, small⟩ := hn
    rcases h with (h | ⟨c, hc, h⟩) | h
    case inl.inl => exact ne h
    case inl.inr => exact h (all c hc)
    case inr     => omega
  case isFalse h =>
    simp only [Bool.or_eq_true, decide_eq_true_eq, Bool.not_eq_true', List.all_eq_false, not_or, not_exists,
      not_and, not_not] at h
    constructor
    case mp =>
      intro he
      cases he
      exact ⟨⟨h.left.left, h.left.right, rfl⟩, by omega⟩
    case mpr =>
      rintro ⟨⟨-, -, rfl⟩, -⟩
      rfl

theorem parseU64_plus : parseU64 ('+' :: ds) = parseDigits ds :=
  rfl

theorem parseU64_plain (hp : cs.head? ≠ some '+') : parseU64 cs = parseDigits cs := by
  unfold parseU64
  split
  case h_1 => exact absurd rfl hp
  case h_2 => rfl

theorem parseU64_iff : parseU64 cs = some n ↔ Signed cs n ∧ n < 2 ^ 64 := by
  by_cases hp : cs.head? = some '+'
  case neg =>
    have plain : Signed cs n ↔ Numeral cs n := by
      refine ⟨fun h => h.resolve_right ?_, .inl⟩
      rintro ⟨ds, rfl, -⟩
      exact hp rfl
    rw [parseU64_plain hp, parseDigits_iff, plain]
  case pos =>
    obtain ⟨ds, rfl⟩ := List.head?_eq_some_iff.mp hp
    have plus : Signed ('+' :: ds) n ↔ Numeral ds n := by
      refine ⟨fun h => ?_, fun h => .inr ⟨ds, rfl, h⟩⟩
      rcases h with h | ⟨_, he, h⟩
      case inl => exact absurd (h.plain List.mem_cons_self).right.right (by simp)
      case inr =>
        cases he
        exact h
    rw [parseU64_plus, parseDigits_iff, plus]

theorem span_minus {a b : List Char} (ha : '-' ∉ a) :
    (a ++ '-' :: b).span (· ≠ '-') = (a, '-' :: b) := by
  have stays : ∀ c ∈ a, decide (c ≠ '-') := by
    intro c hc
    simp only [decide_eq_true_eq]
    rintro rfl
    exact ha hc
  rw [List.span_eq_takeWhile_dropWhile, List.takeWhile_append_of_pos stays, List.dropWhile_append_of_pos stays]
  simp

theorem parseRange_shape (h : parseRange (some s) n = some (some r)) : 0 < n ∧ ∃ a b,
    s.toList = "bytes=".toList ++ (a ++ '-' :: b) ∧ '-' ∉ a ∧ ',' ∉ a ++ '-' :: b := by
  unfold parseRange at h
  dsimp only at h
  split at h <;> try contradiction
  case isFalse hs =>
    simp only [not_or, Bool.not_eq_true', Bool.not_eq_false] at hs
    obtain ⟨t, ht⟩ := List.isPrefixOf_iff_prefix.mp hs.right
    have specification : s.toList.drop 6 = t := by
      rw [← ht]
      rfl
    rw [specification, List.span_eq_takeWhile_dropWhile] at h
    split at h <;> try contradiction
    case isFalse hd =>
      simp only [not_or, Bool.not_eq_true] at hd
      obtain ⟨comma, rest⟩ := hd
      have minus : '-' ∈ t := by
        by_contra hn
        refine rest (List.dropWhile_eq_nil_iff.mpr fun c hc => decide_eq_true ?_)
        rintro rfl
        exact hn hc
      obtain ⟨a, b, rfl, ha⟩ := List.eq_append_cons_of_mem minus
      exact ⟨Nat.pos_of_ne_zero hs.left, a, b, ht.symm, ha, by simpa using comma⟩

theorem parseRange_eq {a b : List Char} (hn : 0 < n) (hs : s.toList = "bytes=".toList ++ (a ++ '-' :: b))
    (ha : '-' ∉ a) (hc : ',' ∉ a ++ '-' :: b) : parseRange (some s) n =
      if a = [] then
        (parseU64 b).bind fun suffix =>
          if suffix = 0 then none
          else some (some { start := n - min suffix n, last := n - 1 })
      else
        (parseU64 a).bind fun start =>
          if start ≥ n then
            none
          else if b = [] then
            some (some { start, last := n - 1 })
          else
            (parseU64 b).bind fun last =>
              if last < start then none else some (some { start, last := min last (n - 1) }) := by
  have start : "bytes=".toList.isPrefixOf s.toList := List.isPrefixOf_iff_prefix.mpr ⟨_, hs.symm⟩
  have specification : s.toList.drop 6 = a ++ '-' :: b := by
    rw [hs]
    rfl
  unfold parseRange
  dsimp only
  rw [specification, span_minus ha, start]
  simp [hn.ne', hc]
  rfl

-- What the code accepts: the same grammar, with the numbers of its integer parser.
theorem parseRange_iff : parseRange (some s) n = some (some r) ↔
    0 < n ∧ ∃ q, Header (parseU64 · = some ·) s q ∧ q.Satisfiable n ∧ r = q.range n := by
  have signed {cs : List Char} {v : Nat} (h : parseU64 cs = some v) : Signed cs v := (parseU64_iff.mp h).left
  constructor
  case mp =>
    intro h
    obtain ⟨hn, a, b, hs, ha, hc⟩ := parseRange_shape h
    rw [parseRange_eq hn hs ha hc] at h
    refine ⟨hn, ?_⟩
    split at h
    case isTrue empty =>
      subst empty
      obtain ⟨length, hb, made⟩ := Option.bind_eq_some_iff.mp h
      split at made <;> try contradiction
      case isFalse zero =>
        cases made
        exact ⟨.suffix length, ⟨_, hs, .suffix hb⟩, Nat.pos_of_ne_zero zero, rfl⟩
    case isFalse =>
      obtain ⟨first, hf, rest⟩ := Option.bind_eq_some_iff.mp h
      split at rest <;> try contradiction
      case isFalse within =>
        split at rest
        case isTrue empty =>
          subst empty
          cases rest
          exact ⟨.onward first, ⟨_, hs, .onward hf⟩, Nat.lt_of_not_ge within, rfl⟩
        case isFalse =>
          obtain ⟨last, hl, made⟩ := Option.bind_eq_some_iff.mp rest
          split at made <;> try contradiction
          case isFalse ordered =>
            cases made
            exact ⟨.closed first last, ⟨_, hs, .closed hf hl⟩,
              ⟨Nat.lt_of_not_ge within, Nat.le_of_not_gt ordered⟩, rfl⟩
  case mpr =>
    rintro ⟨hn, q, ⟨cs, hs, written⟩, hq, rfl⟩
    cases written
    case closed a b first last hf hl =>
      obtain ⟨within, ordered⟩ := hq
      rw [parseRange_eq hn hs (signed hf).no_minus (no_comma (signed hf).no_comma (signed hl).no_comma),
        if_neg (signed hf).ne_nil, hf, Option.bind_some, if_neg (Nat.not_le.mpr within), if_neg (signed hl).ne_nil, hl,
        Option.bind_some, if_neg (Nat.not_lt.mpr ordered)]
      rfl
    case onward a first hf =>
      rw [parseRange_eq hn hs (signed hf).no_minus (no_comma (signed hf).no_comma (by simp)),
        if_neg (signed hf).ne_nil, hf, Option.bind_some, if_neg (Nat.not_le.mpr hq), if_pos rfl]
      rfl
    case suffix b length hl =>
      rw [parseRange_eq (a := []) hn hs (by simp) (no_comma (by simp) (signed hl).no_comma), if_pos rfl, hl,
        Option.bind_some, if_neg (Nat.ne_of_gt hq)]
      rfl

def denoted (cs : List Char) : Requested :=
  let parts := cs.span (· ≠ '-')
  if parts.1 = [] then
    .suffix (magnitude parts.2.tail)
  else if parts.2.tail = [] then
    .onward (magnitude parts.1)
  else
    .closed (magnitude parts.1) (magnitude parts.2.tail)

theorem Written.eq (h : Written Signed cs q) : q = denoted cs := by
  unfold denoted
  cases h
  case closed a b first last hf hl =>
    rw [span_minus hf.no_minus, hf.eq, hl.eq]
    simp [hf.ne_nil, hl.ne_nil]
  case onward a first hf =>
    rw [span_minus hf.no_minus, hf.eq]
    simp [hf.ne_nil]
  case suffix b length hl =>
    rw [show '-' :: b = [] ++ '-' :: b from rfl, span_minus List.not_mem_nil, hl.eq]
    rfl

theorem Header.unique (h : Header Signed s q) (h' : Header Signed s q') : q = q' := by
  obtain ⟨cs, hs, h⟩ := h
  obtain ⟨ds, hs', h'⟩ := h'
  obtain rfl := List.append_cancel_left (hs.symm.trans hs')
  rw [h.eq, h'.eq]

theorem Written.small : Written (parseU64 · = some ·) cs q ↔ Written Signed cs q ∧ q.largest < 2 ^ 64 := by
  constructor
  case mp =>
    intro h
    cases h
    case closed hf hl =>
      obtain ⟨hf, first⟩ := parseU64_iff.mp hf
      obtain ⟨hl, last⟩ := parseU64_iff.mp hl
      exact ⟨.closed hf hl, Nat.max_lt.mpr ⟨first, last⟩⟩
    case onward hf => exact ⟨.onward (parseU64_iff.mp hf).left, (parseU64_iff.mp hf).right⟩
    case suffix hl => exact ⟨.suffix (parseU64_iff.mp hl).left, (parseU64_iff.mp hl).right⟩
  case mpr =>
    rintro ⟨h, small⟩
    cases h
    case closed hf hl =>
      obtain ⟨first, last⟩ := Nat.max_lt.mp small
      exact .closed (parseU64_iff.mpr ⟨hf, first⟩) (parseU64_iff.mpr ⟨hl, last⟩)
    case onward hf => exact .onward (parseU64_iff.mpr ⟨hf, small⟩)
    case suffix hl => exact .suffix (parseU64_iff.mpr ⟨hl, small⟩)

theorem Written.plain : Written Numeral cs q ↔ Written Signed cs q ∧ '+' ∉ cs := by
  constructor
  case mp =>
    intro h
    cases h
    case closed hf hl =>
      obtain ⟨hf, first⟩ := numeral_iff.mp hf
      obtain ⟨hl, last⟩ := numeral_iff.mp hl
      exact ⟨.closed hf hl, by simp [first, last]⟩
    case onward hf => exact ⟨.onward (numeral_iff.mp hf).left, by simp [(numeral_iff.mp hf).right]⟩
    case suffix hl => exact ⟨.suffix (numeral_iff.mp hl).left, by simp [(numeral_iff.mp hl).right]⟩
  case mpr =>
    rintro ⟨h, plus⟩
    cases h
    case closed hf hl =>
      simp only [List.mem_append, List.mem_cons, not_or] at plus
      exact .closed (numeral_iff.mpr ⟨hf, plus.left⟩) (numeral_iff.mpr ⟨hl, plus.right.right⟩)
    case onward hf => exact .onward (numeral_iff.mpr ⟨hf, by simpa using plus⟩)
    case suffix hl => exact .suffix (numeral_iff.mpr ⟨hl, by simpa using plus⟩)

theorem Header.small : Header (parseU64 · = some ·) s q ↔ Header Signed s q ∧ q.largest < 2 ^ 64 := by
  simp only [Header, Written.small]
  constructor
  case mp =>
    rintro ⟨cs, hs, h, small⟩
    exact ⟨⟨cs, hs, h⟩, small⟩
  case mpr =>
    rintro ⟨⟨cs, hs, h⟩, small⟩
    exact ⟨cs, hs, h, small⟩

theorem Header.plain : Header Numeral s q ↔ Header Signed s q ∧ '+' ∉ s.toList := by
  simp only [Header, Written.plain]
  constructor
  case mp =>
    rintro ⟨cs, hs, h, plus⟩
    exact ⟨⟨cs, hs, h⟩, by rw [hs]; simpa using plus⟩
  case mpr =>
    rintro ⟨⟨cs, hs, h⟩, plus⟩
    exact ⟨cs, hs, h, by rw [hs] at plus; simpa using plus⟩

-- What is served of a range is within the representation, and as long as it is announced.
structure Bounded (n : Nat) (r : ByteRange) : Prop where
  ordered : r.start ≤ r.last
  within  : r.last < n
  length  : r.start + r.len ≤ n
  sliced  : ∀ bytes : List UInt8, bytes.length = n → ((bytes.drop r.start).take r.len).length = r.len

theorem bounded_range (hn : 0 < n) (hq : q.Satisfiable n) : Bounded n (q.range n) := by
  have ordered := (Requested.range_answers hn hq).ordered
  have within : (q.range n).last < n := by
    have : (q.range n).last ∈ q.positions n ∩ Set.Iio n := by
      rw [← (Requested.range_answers hn hq).asked]
      exact Set.mem_Icc.mpr ⟨ordered, le_rfl⟩
    exact this.right
  have length : (q.range n).start + (q.range n).len ≤ n := by
    rw [ByteRange.len]
    omega
  refine ⟨ordered, within, length, fun bytes hb => ?_⟩
  rw [List.length_take, List.length_drop, hb]
  omega

theorem bounded_of_parseRange {value : Option String} (h : parseRange value n = some (some r)) : Bounded n r := by
  cases value
  case none => cases h
  case some s =>
    obtain ⟨hn, q, -, hq, rfl⟩ := parseRange_iff.mp h
    exact bounded_range hn hq

section

variable [Digest] [Services] {f : Files} {entry : DownloadRecord} {headers : RequestHeaders} {response : Response}
  {rep : Representation} {bytes : List UInt8}

theorem respond_length (hr : f.Represents entry rep bytes)
    (h : f.respond entry headers false rep = .ok response) {l : Nat} (hl : response.contentLength = some l) :
    response.body.bytes.length = l := by
  simp only [Files.respond, Services.parse_fmt, hr.size] at h
  split at h
  case isTrue =>
    cases h
    cases hl
  case isFalse =>
    split at h <;> try contradiction
    case h_1 range hp =>
      obtain ⟨body, hb, h⟩ := Except.bind_eq_ok_iff.mp h
      cases h
      obtain ⟨body', hb', same⟩ := Files.openBody_ok (range.elim 0 (·.start)) (range.elim bytes.length (·.len)) hr
      cases hb'.symm.trans hb
      cases hl
      change body.bytes.length = _
      rw [same]
      cases range
      case none         => simp
      case some range => exact (bounded_of_parseRange hp).sliced bytes rfl

end

-- What the header `Range` stands for at a size of the representation.
structure RangeLaw (s : String) (n : Nat) : Prop where
  accepted : ∀ r, parseRange (some s) n = some (some r) ↔
    0 < n ∧ ∃ q, Header Numeral s q ∧ q.Satisfiable n ∧ q.Answers n r
  bounded  : ∀ r, parseRange (some s) n = some (some r) → Bounded n r
  length   : ∀ [Digest] [Services] (f : Files) (entry : DownloadRecord) (headers : RequestHeaders)
    (rep : Representation) (bytes : List UInt8) (response : Response), headers.range = some s →
    f.Represents entry rep bytes → bytes.length = n → f.respond entry headers false rep = .ok response →
    ∀ l, response.contentLength = some l → response.body.bytes.length = l

theorem rangeLaw_iff (s : String) (n : Nat) : RangeLaw s n ↔
    (0 < n → ∀ q, Header Signed s q → q.Satisfiable n → ('+' ∈ s.toList ↔ 2 ^ 64 ≤ q.largest)) := by
  constructor
  case mp =>
    intro law hn q hs hq
    have taken : q.largest < 2 ^ 64 ↔ '+' ∉ s.toList := by
      constructor
      case mp =>
        intro small
        have ok := parseRange_iff.mpr ⟨hn, q, Header.small.mpr ⟨hs, small⟩, hq, rfl⟩
        obtain ⟨-, q', hp, -, -⟩ := (law.accepted _).mp ok
        exact (Header.plain.mp hp).right
      case mpr =>
        intro plain
        have ok := (law.accepted (q.range n)).mpr
          ⟨hn, q, Header.plain.mpr ⟨hs, plain⟩, hq, Requested.range_answers hn hq⟩
        obtain ⟨-, q', hp, -, -⟩ := parseRange_iff.mp ok
        obtain ⟨hs', small⟩ := Header.small.mp hp
        rw [hs.unique hs']
        exact small
    rw [← Nat.not_lt, taken, not_not]
  case mpr =>
    intro condition
    refine ⟨fun r => ?_, fun r => bounded_of_parseRange, fun f entry headers rep bytes response _ hr _ h l hl =>
      respond_length hr h hl⟩
    rw [parseRange_iff]
    refine and_congr_right fun hn => exists_congr fun q => ?_
    constructor
    case mp =>
      rintro ⟨hp, hq, rfl⟩
      obtain ⟨hs, small⟩ := Header.small.mp hp
      have plain : '+' ∉ s.toList := fun plus => Nat.not_le.mpr small ((condition hn q hs hq).mp plus)
      exact ⟨Header.plain.mpr ⟨hs, plain⟩, hq, Requested.range_answers hn hq⟩
    case mpr =>
      rintro ⟨hp, hq, answers⟩
      obtain ⟨hs, plain⟩ := Header.plain.mp hp
      have small : q.largest < 2 ^ 64 := Nat.not_le.mp fun huge => plain ((condition hn q hs hq).mpr huge)
      exact ⟨Header.small.mpr ⟨hs, small⟩, hq, (Requested.answers_iff hn hq).mp answers⟩

-- An end of 2^64 lies as much past the end as one of 900, which is taken.
theorem not_rangeLaw : ¬ RangeLaw "bytes=0-18446744073709551616" 10 := by
  intro law
  have digits : "18446744073709551616".toList.all Char.isDigit := by decide +kernel
  have written : Header Numeral "bytes=0-18446744073709551616" (.closed 0 18446744073709551616) :=
    ⟨"0-18446744073709551616".toList, by decide, @Written.closed Numeral "0".toList "18446744073709551616".toList _ _
      ⟨by decide, List.all_eq_true.mp (by decide), rfl⟩ ⟨by decide, List.all_eq_true.mp digits, rfl⟩⟩
  have ok := (law.accepted ⟨0, 9⟩).mpr
    ⟨by decide, _, written, ⟨by decide, by decide⟩, Requested.range_answers (by decide) ⟨by decide, by decide⟩⟩
  revert ok
  decide +kernel

end MyDrive.Transfers
