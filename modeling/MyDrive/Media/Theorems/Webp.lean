import Mathlib.Data.List.Basic
import MyDrive.Library.Except
import MyDrive.Media.Webp

-- Which bytes are accepted as a WebP image without metadata.

namespace MyDrive.Media.Webp

open Bytes

variable {bytes data front mid back kind size rest : List UInt8} {i start stop maxBytes fuel : Nat}
  {s s' : Scan} {c c' : Chunk} {chunks chunks' : List Chunk} {d : Dimensions}

-- Checked accesses that are in range.
section

theorem byteAt_eq (h : i < data.length) : byteAt data i = .ok (data.getD i 0) := by
  simp [byteAt, h]

theorem slice_eq (h : bytes = front ++ (mid ++ back)) (hf : front.length = start)
    (hm : start + mid.length = stop) : slice bytes start stop = .ok mid := by
  subst hf hm
  have bound : front.length + mid.length ≤ bytes.length := by simp [h]
  rw [slice, if_pos ⟨Nat.le_add_right .., bound⟩, h, ← List.append_assoc, List.take_left' (by simp),
    List.drop_left]

theorem slice_start (h : bytes = mid ++ back) (hm : mid.length = stop) : slice bytes 0 stop = .ok mid := by
  have : bytes = [] ++ (mid ++ back) := h
  exact slice_eq this rfl (by omega)

theorem exists_split {n : Nat} (h : n ≤ bytes.length) :
    ∃ front back, bytes = front ++ back ∧ front.length = n :=
  ⟨bytes.take n, bytes.drop n, (List.take_append_drop ..).symm, List.length_take_of_le h⟩

end

-- What a chunk does to the scan.
namespace Scan

def seen (s : Scan) : Kind → Bool
  | .vp8x => s.extendedDimensions.isSome
  | .alph => s.sawAlpha
  | .vp8  => s.sawVp8
  | .vp8l => s.sawVp8l

def add (s : Scan) (c : Chunk) : Scan :=
  match c.kind with
  | .vp8x => { s with extendedDimensions := some c.dimensions }
  | .alph => { s with sawAlpha := true }
  | .vp8  => { s with sawVp8 := true, vp8Dimensions := some c.dimensions }
  | .vp8l => { s with
      sawVp8l       := true
      vp8lHasAlpha  := alphaFlag (c.byte 4)
      vp8Dimensions := some c.dimensions }

def Admits (s : Scan) (c : Chunk) : Prop :=
  s.seen c.kind = false ∧ c.Sound

-- A chunk is added or rejected.
def Takes (s : Scan) (c : Chunk) (r : Checked Scan) : Prop :=
  (s.Admits c ∧ r = .ok (s.add c)) ∨ (¬s.Admits c ∧ r = .error .rejected)

theorem vp8x_takes (hk : c.kind = .vp8x) : s.Takes c (s.vp8x c.data) := by
  by_cases first : s.extendedDimensions.isSome || c.data.length < 10
  case pos =>
    refine .inr ⟨fun h => ?_, by rw [vp8x, if_pos first]; rfl⟩
    simp only [Admits, seen, Chunk.Sound, hk] at h
    grind
  case neg =>
    simp only [Bool.or_eq_true, decide_eq_true_eq, not_or, Bool.not_eq_true, Nat.not_lt] at first
    have read (i : Nat) (hi : i < 10) : byteAt c.data i = .ok (c.byte i) := byteAt_eq (by omega)
    simp only [Takes, vp8x, Admits, seen, add, Chunk.Sound, Chunk.dimensions, hk, first,
      Nat.not_lt.mpr first.right, read, Nat.reduceLT, Except.ok_bind]
    by_cases flags : c.byte 0 &&& 0x2e = 0
    case pos => simp [flags]; rfl
    case neg => simp [flags]; rfl

theorem alph_takes (hk : c.kind = .alph) : s.Takes c s.alph := by
  by_cases first : s.sawAlpha
  case pos => exact .inr ⟨by simp [Admits, seen, hk, first], by rw [alph, if_pos first]; rfl⟩
  case neg =>
    refine .inl ⟨by simp [Admits, seen, Chunk.Sound, hk, first], ?_⟩
    rw [alph, if_neg first, add, hk]
    rfl

theorem vp8_takes (hk : c.kind = .vp8) : s.Takes c (s.vp8 c.data) := by
  by_cases first : s.sawVp8 || c.data.length < 10
  case pos =>
    refine .inr ⟨fun h => ?_, by rw [vp8, if_pos first]; rfl⟩
    simp only [Admits, seen, Chunk.Sound, hk] at h
    grind
  case neg =>
    simp only [Bool.or_eq_true, decide_eq_true_eq, not_or, Bool.not_eq_true, Nat.not_lt] at first
    have read (i : Nat) (hi : i < 10) : byteAt c.data i = .ok (c.byte i) := byteAt_eq (by omega)
    have code : slice c.data 3 6 = .ok ((c.data.take 6).drop 3) := if_pos (by omega)
    simp only [Takes, vp8, Admits, seen, add, Chunk.Sound, Chunk.dimensions, hk, first,
      Nat.not_lt.mpr first.right, read, code, Nat.reduceLT, Except.ok_bind]
    by_cases start : (c.data.take 6).drop 3 = startCode
    case pos => simp [start]; rfl
    case neg => simp [start]; rfl

theorem vp8l_takes (hk : c.kind = .vp8l) : s.Takes c (s.vp8l c.data) := by
  by_cases first : s.sawVp8l || c.data.length < 5
  case pos =>
    refine .inr ⟨fun h => ?_, by rw [vp8l, if_pos first]; rfl⟩
    simp only [Admits, seen, Chunk.Sound, hk] at h
    grind
  case neg =>
    simp only [Bool.or_eq_true, decide_eq_true_eq, not_or, Bool.not_eq_true, Nat.not_lt] at first
    have read (i : Nat) (hi : i < 5) : byteAt c.data i = .ok (c.byte i) := byteAt_eq (by omega)
    simp only [Takes, vp8l, Admits, seen, add, Chunk.Sound, Chunk.dimensions, hk, first,
      Nat.not_lt.mpr first.right, read, Nat.reduceLT, Except.ok_bind]
    by_cases signature : c.byte 0 = 0x2f
    case pos => simp [signature]; rfl
    case neg => simp [signature]; rfl

theorem chunk_takes : s.Takes c (s.chunk c.data c.kind.code) := by
  cases hk : c.kind
  case vp8x => exact vp8x_takes hk
  case alph => exact alph_takes hk
  case vp8  => exact vp8_takes hk
  case vp8l => exact vp8l_takes hk

theorem chunk_unknown (h : ∀ k : Kind, kind ≠ k.code) : s.chunk data kind = .error .rejected := by
  simp [chunk, h]

end Scan

-- An encoded chunk can be told from what follows it.
namespace Chunk

theorem length_code (k : Kind) : k.code.length = 4 := by
  cases k <;> rfl

theorem code_injective : Function.Injective Kind.code := by
  intro k k' h
  cases k <;> cases k' <;> first | rfl | exact absurd h (by decide)

theorem length_encode : c.encode.length = 8 + c.data.length + c.data.length % 2 := by
  simp only [encode, List.length_append, length_code, length_toLe, List.length_replicate]

theorem encode_inj (h : c.encode ++ rest = c'.encode ++ data) : c = c' ∧ rest = data := by
  obtain ⟨k, d, short⟩ := c
  obtain ⟨k', d', short'⟩ := c'
  simp only [encode, List.append_assoc] at h
  obtain ⟨code, afterCode⟩ := List.append_inj h (by simp [length_code])
  obtain ⟨size, afterSize⟩ := List.append_inj afterCode (by simp)
  have length := toLe_inj short short' size
  obtain ⟨rfl, afterData⟩ := List.append_inj afterSize length
  cases code_injective code
  exact ⟨rfl, List.append_cancel_left afterData⟩

end Chunk

theorem flatMap_encode_inj (h : chunks.flatMap Chunk.encode = chunks'.flatMap Chunk.encode) :
    chunks = chunks' := by
  have nonempty (c : Chunk) (cs : List Chunk) : (c :: cs).flatMap Chunk.encode ≠ [] := by
    intro h
    have := congrArg List.length h
    simp [Chunk.length_encode] at this
  induction chunks generalizing chunks'
  case nil =>
    cases chunks'
    case nil  => rfl
    case cons => exact (nonempty _ _ h.symm).elim
  case cons c chunks ih =>
    cases chunks'
    case nil  => exact (nonempty _ _ h).elim
    case cons =>
      obtain ⟨rfl, rest⟩ := Chunk.encode_inj h
      rw [ih rest]

theorem container_inj (h : container chunks = container chunks') : chunks = chunks' := by
  refine flatMap_encode_inj (List.append_inj_right h ?_)
  simp

-- The walk reads the chunks that the rest of the bytes is the concatenation of.
section

def Admitted (s : Scan) : List Chunk → Prop
  | []          => True
  | c :: chunks => s.Admits c ∧ Admitted (s.add c) chunks

theorem walk_eq (h : bytes = front ++ (kind ++ (size ++ (data ++ back)))) (hk : kind.length = 4)
    (hs : size.length = 4) (hd : data.length = fromLe size) :
    walk bytes (fuel + 1) front.length s = (do
      let s ← s.chunk data kind
      if data.length % 2 = 1 ∧ back.head? ≠ some 0 then throw .rejected
      walk bytes fuel (front.length + 8 + data.length + data.length % 2) s) := by
  have length : bytes.length = front.length + 8 + data.length + back.length := by
    simp [h, hk, hs]
    omega
  have afterKind : bytes = (front ++ kind) ++ (size ++ (data ++ back)) := by simp [h]
  have afterSize : bytes = (front ++ kind ++ size) ++ (data ++ back) := by simp [h]
  have afterData : bytes = (front ++ kind ++ size ++ data) ++ back := by simp [h]
  have kindAt : slice bytes front.length (front.length + 4) = .ok kind := slice_eq h rfl (by omega)
  have sizeAt : slice bytes (front.length + 4) (front.length + 8) = .ok size :=
    slice_eq afterKind (by simp [hk]) (by omega)
  have dataAt : slice bytes (front.length + 8) (front.length + 8 + data.length) = .ok data :=
    slice_eq afterSize (by simp [hk, hs]) (by omega)
  have paddingAt : bytes[front.length + 8 + data.length]? = back.head? := by
    rw [afterData, List.getElem?_append_right (by simp [hk, hs]; omega), List.head?_eq_getElem?]
    simp [hk, hs]
    congr 1
    omega
  have inside : ¬bytes.length ≤ front.length := by omega
  have headerInside : ¬bytes.length < front.length + 8 := by omega
  have dataInside : ¬bytes.length < front.length + 8 + data.length := by omega
  simp only [walk, inside, headerInside, kindAt, sizeAt, ← hd, dataInside, dataAt, if_false, Except.ok_bind,
    byteAt, paddingAt]
  congr 1
  funext s
  cases back
  case nil =>
    have atEnd : bytes.length ≤ front.length + 8 + data.length := by simp [length]
    by_cases odd : data.length % 2 = 1 <;> simp [odd, atEnd, Except.throw_bind]
  case cons b back =>
    have notAtEnd : ¬bytes.length ≤ front.length + 8 + data.length := by simp [length]
    by_cases odd : data.length % 2 = 1 <;> simp [odd, notAtEnd, Except.ok_bind]

-- The bytes of a chunk are stepped over.
theorem walk_encode (h : bytes = front ++ (c.encode ++ rest)) :
    walk bytes (fuel + 1) front.length s =
      s.chunk c.data c.kind.code >>= walk bytes fuel (front.length + c.encode.length) := by
  have parts : bytes =
      front ++ (c.kind.code ++ (toLe 4 c.data.length ++
        (c.data ++ (List.replicate (c.data.length % 2) 0 ++ rest)))) := by
    simp [h, Chunk.encode]
  have padded : ¬(c.data.length % 2 = 1 ∧ (List.replicate (c.data.length % 2) 0 ++ rest).head? ≠ some 0) := by
    rintro ⟨odd, other⟩
    simp [odd] at other
  rw [walk_eq parts (Chunk.length_code _) length_toLe (fromLe_toLe c.short).symm, Chunk.length_encode]
  simp only [padded, if_false]
  congr 1
  funext s
  congr 1
  omega

-- Anything else is rejected.
theorem walk_short (h : bytes = front ++ rest) (hr : rest ≠ []) (hl : rest.length < 8) :
    walk bytes (fuel + 1) front.length s = .error .rejected := by
  have length : bytes.length = front.length + rest.length := by simp [h]
  have := List.length_pos_of_ne_nil hr
  have inside : ¬bytes.length ≤ front.length := by omega
  have headerOutside : bytes.length < front.length + 8 := by omega
  simp [walk, inside, headerOutside, Except.throw_bind]

theorem walk_truncated (h : bytes = front ++ (kind ++ (size ++ data))) (hk : kind.length = 4)
    (hs : size.length = 4) (hd : data.length < fromLe size) :
    walk bytes (fuel + 1) front.length s = .error .rejected := by
  have length : bytes.length = front.length + 8 + data.length := by
    simp [h, hk, hs]
    omega
  have afterKind : bytes = (front ++ kind) ++ (size ++ data) := by simp [h]
  have kindAt : slice bytes front.length (front.length + 4) = .ok kind := slice_eq h rfl (by omega)
  have sizeAt : slice bytes (front.length + 4) (front.length + 8) = .ok size :=
    slice_eq afterKind (by simp [hk]) (by omega)
  have inside : ¬bytes.length ≤ front.length := by omega
  have headerInside : ¬bytes.length < front.length + 8 := by omega
  have dataOutside : bytes.length < front.length + 8 + fromLe size := by omega
  simp [walk, inside, headerInside, kindAt, sizeAt, dataOutside, Except.ok_bind, Except.throw_bind]

theorem exists_padding (h : ¬(i % 2 = 1 ∧ bytes.head? ≠ some 0)) :
    ∃ rest, bytes = List.replicate (i % 2) 0 ++ rest := by
  rcases Nat.mod_two_eq_zero_or_one i with even | odd
  case inl => exact ⟨bytes, by simp [even]⟩
  case inr =>
    simp only [odd, true_and, not_not] at h
    have := List.eq_cons_of_mem_head? h
    exact ⟨bytes.tail, by rw [odd]; exact this⟩

theorem walk_undecodable (h : bytes = front ++ rest) (hr : rest ≠ [])
    (hc : ∀ c rest', rest ≠ Chunk.encode c ++ rest') :
    walk bytes (fuel + 1) front.length s = .error .rejected := by
  by_cases header : rest.length < 8
  case pos => exact walk_short h hr header
  case neg =>
    obtain ⟨kind, afterKind, rfl, hk⟩ : ∃ kind back, rest = kind ++ back ∧ kind.length = 4 :=
      exists_split (by omega)
    simp only [List.length_append, hk] at header
    obtain ⟨size, afterSize, rfl, hs⟩ : ∃ size back, afterKind = size ++ back ∧ size.length = 4 :=
      exists_split (by omega)
    by_cases truncated : afterSize.length < fromLe size
    case pos => exact walk_truncated h hk hs truncated
    case neg =>
      obtain ⟨data, back, rfl, hd⟩ := exists_split (Nat.le_of_not_lt truncated)
      rw [walk_eq h hk hs hd]
      by_cases known : ∃ k : Kind, kind = k.code
      case neg =>
        rw [Scan.chunk_unknown fun k hk => known ⟨k, hk⟩]
        rfl
      case pos =>
        obtain ⟨k, rfl⟩ := known
        have short : data.length < 256 ^ 4 := hd ▸ hs ▸ fromLe_lt
        rcases Scan.chunk_takes (s := s) (c := ⟨k, data, short⟩) with ⟨-, taken⟩ | ⟨-, taken⟩
        case inr =>
          simp only at taken
          rw [taken]
          rfl
        case inl =>
          have padding : data.length % 2 = 1 ∧ back.head? ≠ some 0 := by
            by_contra padded
            obtain ⟨rest, rfl⟩ := exists_padding padded
            refine hc ⟨k, data, short⟩ rest ?_
            simp only [Chunk.encode, List.append_assoc, hd]
            rw [← hs, toLe_fromLe]
          simp only at taken
          rw [taken, Except.ok_bind, if_pos padding]
          rfl

theorem walk_done : walk bytes (fuel + 1) bytes.length s = .ok (bytes.length, s) := by
  rw [walk, if_pos (Nat.le_refl _)]
  rfl

theorem walk_cases (h : bytes = front ++ rest) (hf : rest.length < fuel) :
    (∃ chunks, rest = chunks.flatMap Chunk.encode ∧ Admitted s chunks ∧
      walk bytes fuel front.length s = .ok (bytes.length, chunks.foldl Scan.add s)) ∨
    ((∀ chunks, rest = chunks.flatMap Chunk.encode → ¬Admitted s chunks) ∧
      walk bytes fuel front.length s = .error .rejected) := by
  induction fuel generalizing front rest s
  case zero => contradiction
  case succ fuel ih =>
    by_cases empty : rest = []
    case pos =>
      have : front = bytes := by simp [h, empty]
      exact .inl ⟨[], empty, trivial, this ▸ walk_done⟩
    case neg =>
      by_cases decodable : ∃ c rest', rest = Chunk.encode c ++ rest'
      case neg =>
        refine .inr ⟨fun chunks hc _ => ?_, walk_undecodable h empty (by simpa using decodable)⟩
        cases chunks
        case nil              => exact empty hc
        case cons c' chunks _ => exact decodable ⟨c', _, hc⟩
      case pos =>
        obtain ⟨c, rest, rfl⟩ := decodable
        have next : bytes = (front ++ c.encode) ++ rest := by simp [h]
        have shorter : rest.length < fuel := by
          simp only [List.length_append, Chunk.length_encode] at hf
          omega
        rw [walk_encode h]
        rcases Scan.chunk_takes (s := s) (c := c) with ⟨admits, taken⟩ | ⟨refused, taken⟩
        case inr =>
          refine .inr ⟨fun chunks hc admitted => ?_, by rw [taken]; rfl⟩
          cases chunks
          case nil => exact empty hc
          case cons c' chunks =>
            obtain ⟨rfl, -⟩ := Chunk.encode_inj hc
            exact refused admitted.left
        case inl =>
          rw [taken, Except.ok_bind, ← List.length_append]
          rcases ih (s := s.add c) next shorter with ⟨chunks, rfl, admitted, walked⟩ | ⟨refused, walked⟩
          case inl => exact .inl ⟨c :: chunks, rfl, ⟨admits, admitted⟩, walked⟩
          case inr =>
            refine .inr ⟨fun chunks hc admitted => ?_, walked⟩
            cases chunks
            case nil => exact empty hc
            case cons c' chunks =>
              obtain ⟨rfl, hr⟩ := Chunk.encode_inj hc
              exact refused chunks hr admitted.right

end

-- What the scan of admitted chunks says about them.
section

variable {α : Type} {f : Scan → α} {g : Chunk → α} {p : Chunk → Bool}

theorem foldl_of_none (h : ∀ s c, f (s.add c) = if p c then g c else f s) (hn : ∀ c ∈ chunks, ¬p c) :
    f (chunks.foldl Scan.add s) = f s := by
  induction chunks generalizing s
  case nil => rfl
  case cons c chunks ih =>
    rw [List.foldl_cons, ih fun c hc => hn c (.tail _ hc), h, if_neg (hn c List.mem_cons_self)]

theorem foldl_of_unique (h : ∀ s c, f (s.add c) = if p c then g c else f s) (hc : c ∈ chunks) (hp : p c)
    (hu : ∀ c' ∈ chunks, p c' → c' = c) : f (chunks.foldl Scan.add s) = g c := by
  induction chunks generalizing s
  case nil => contradiction
  case cons c' chunks ih =>
    rw [List.foldl_cons]
    by_cases later : c ∈ chunks
    case pos => exact ih later fun c' hc' => hu c' (.tail _ hc')
    case neg =>
      have none (c' : Chunk) (hc' : c' ∈ chunks) : ¬p c' := fun hp => later (hu c' (.tail _ hc') hp ▸ hc')
      obtain rfl : c = c' := (List.mem_cons.mp hc).resolve_right later
      rw [foldl_of_none h none, h, if_pos hp]

theorem unique_of_filter (h : (chunks.filter p).length ≤ 1) (hc : c ∈ chunks) (hp : p c)
    (hc' : c' ∈ chunks) (hp' : p c') : c' = c := by
  have mem : c ∈ chunks.filter p := List.mem_filter.mpr ⟨hc, hp⟩
  have mem' : c' ∈ chunks.filter p := List.mem_filter.mpr ⟨hc', hp'⟩
  obtain ⟨c₀, single⟩ := List.length_eq_one_iff.mp (Nat.le_antisymm h (List.length_pos_of_mem mem))
  rw [single, List.mem_singleton] at mem mem'
  rw [mem, mem']

end

section

variable {k : Kind}

theorem seen_add : (s.add c).seen k = (c.kind = k || s.seen k) := by
  cases k <;> cases hk : c.kind <;> simp [Scan.seen, Scan.add, hk]

theorem seen_foldl : (chunks.foldl Scan.add s).seen k = (s.seen k || chunks.any (·.kind = k)) := by
  induction chunks generalizing s
  case nil            => simp
  case cons c chunks ih => simp [ih, seen_add, Bool.or_assoc, Bool.or_left_comm]

theorem admitted_iff : Admitted s chunks ↔ (∀ c ∈ chunks, c.Sound) ∧
    ∀ k, (chunks.filter (·.kind = k)).length ≤ if s.seen k then 0 else 1 := by
  induction chunks generalizing s
  case nil => simp [Admitted]
  case cons c chunks ih =>
    simp only [Admitted, ih, seen_add, Scan.Admits, List.forall_mem_cons, List.filter_cons]
    constructor
    case mp =>
      rintro ⟨⟨new, sound⟩, rest, atMost⟩
      refine ⟨⟨sound, rest⟩, fun k => ?_⟩
      have := atMost k
      by_cases hk : c.kind = k <;> grind
    case mpr =>
      rintro ⟨⟨sound, rest⟩, atMost⟩
      have own := atMost c.kind
      refine ⟨⟨?_, sound⟩, rest, fun k => ?_⟩
      case refine_1 => grind
      case refine_2 =>
        have := atMost k
        by_cases hk : c.kind = k <;> grind

theorem length_filter_isImage : (chunks.filter (·.isImage)).length =
    (chunks.filter (·.kind = .vp8)).length + (chunks.filter (·.kind = .vp8l)).length := by
  induction chunks
  case nil => rfl
  case cons c chunks ih =>
    cases hk : c.kind <;> simp [Chunk.isImage, hk] at ih ⊢ <;> omega

end

theorem any_alphaFlag : bytes[20]?.any alphaFlag = alphaFlag (bytes.getD 20 0) := by
  rw [List.getD_eq_getElem?_getD]
  cases bytes[20]? <;> rfl

theorem finish_cases : (∃ d, s.finish bytes = .ok d) ∨ s.finish bytes = .error .rejected := by
  unfold Scan.finish
  grind

theorem finish_eq_ok_iff : s.finish bytes = .ok d ↔
    s.extendedDimensions.or s.vp8Dimensions = some d ∧ (d.1 ≠ 0 ∧ d.2 ≠ 0) ∧
    (∀ e ∈ s.extendedDimensions, ∀ v ∈ s.vp8Dimensions, v = e) ∧
    (s.extendedDimensions.isSome →
      (alphaFlag (bytes.getD 20 0) ↔ s.sawAlpha ∨ s.vp8lHasAlpha)) := by
  obtain ⟨w, h⟩ := d
  rw [Scan.finish, any_alphaFlag]
  cases s.extendedDimensions <;> cases s.vp8Dimensions
  case none.none => simp
  case none.some => simp; grind
  case some.none => simp; grind
  case some.some => simp; grind

section

abbrev scanned (chunks : List Chunk) : Scan :=
  chunks.foldl Scan.add {}

structure Counted (chunks : List Chunk) : Prop where
  sound    : ∀ c ∈ chunks, c.Sound
  extended : (chunks.filter (·.kind = .vp8x)).length ≤ 1
  alpha    : (chunks.filter (·.kind = .alph)).length ≤ 1
  image    : (chunks.filter (·.isImage)).length = 1

theorem counted_iff : Counted chunks ↔ Admitted {} chunks ∧
    ¬((scanned chunks).sawVp8 && (scanned chunks).sawVp8l ||
      !(scanned chunks).sawVp8 && !(scanned chunks).sawVp8l) := by
  have vp8  : (scanned chunks).sawVp8 = chunks.any (·.kind = .vp8) := seen_foldl (k := .vp8)
  have vp8l : (scanned chunks).sawVp8l = chunks.any (·.kind = .vp8l) := seen_foldl (k := .vp8l)
  have positive (k : Kind) : chunks.any (·.kind = k) = decide (0 < (chunks.filter (·.kind = k)).length) := by
    rw [Bool.eq_iff_iff, decide_eq_true_eq, List.length_pos_iff_exists_mem]
    simp
  have none (k : Kind) : Scan.seen {} k = false := by cases k <;> rfl
  rw [admitted_iff, vp8, vp8l, positive, positive]
  simp only [none, Bool.false_eq_true, if_false]
  constructor
  case mp =>
    intro h
    have image := length_filter_isImage ▸ h.image
    refine ⟨⟨h.sound, fun k => ?_⟩, by grind⟩
    cases k
    case vp8x => exact h.extended
    case alph => exact h.alpha
    case vp8  => omega
    case vp8l => omega
  case mpr =>
    rintro ⟨⟨sound, atMost⟩, image⟩
    have oneVp8  := atMost .vp8
    have oneVp8l := atMost .vp8l
    refine ⟨sound, atMost .vp8x, atMost .alph, ?_⟩
    rw [length_filter_isImage]
    simp only [Bool.or_eq_true, Bool.and_eq_true, decide_eq_true_eq, Bool.not_eq_true',
      decide_eq_false_iff_not] at image
    omega

theorem vp8Dimensions_scanned (h : Counted chunks) (hc : c ∈ chunks) (hi : c.isImage) :
    (scanned chunks).vp8Dimensions = some c.dimensions := by
  refine foldl_of_unique (f := (·.vp8Dimensions)) (p := (·.isImage)) (g := fun c => some c.dimensions)
    (fun s c => ?_) hc hi fun c' hc' hi' => unique_of_filter (Nat.le_of_eq h.image) hc hi hc' hi'
  cases hk : c.kind <;> simp [Scan.add, Chunk.isImage, hk]

theorem extendedDimensions_scanned (h : Counted chunks) (hc : c ∈ chunks) (hk : c.kind = .vp8x) :
    (scanned chunks).extendedDimensions = some c.dimensions := by
  refine foldl_of_unique (f := (·.extendedDimensions)) (p := (·.kind = .vp8x)) (g := fun c => some c.dimensions)
    (fun s c => ?_) hc (by simpa) fun c' hc' hk' => unique_of_filter h.extended hc (by simpa) hc' hk'
  cases hk : c.kind <;> simp [Scan.add, hk]

theorem extendedDimensions_none (hn : ∀ c ∈ chunks, c.kind ≠ .vp8x) :
    (scanned chunks).extendedDimensions = none := by
  refine foldl_of_none (f := (·.extendedDimensions)) (p := (·.kind = .vp8x)) (g := fun c => some c.dimensions)
    (fun s c => ?_) (by simpa)
  cases hk : c.kind <;> simp [Scan.add, hk]

theorem hasAlpha_scanned (h : Counted chunks) :
    ((scanned chunks).sawAlpha ∨ (scanned chunks).vp8lHasAlpha) ↔ ∃ c ∈ chunks, c.hasAlpha := by
  have alph : (scanned chunks).sawAlpha = chunks.any (·.kind = .alph) := seen_foldl (k := .alph)
  have step (s : Scan) (c : Chunk) :
      (s.add c).vp8lHasAlpha = if c.kind = .vp8l then alphaFlag (c.byte 4) else s.vp8lHasAlpha := by
    cases hk : c.kind <;> simp [Scan.add, hk]
  by_cases lossless : ∃ c ∈ chunks, c.kind = .vp8l
  case neg =>
    have lossy (c : Chunk) (hc : c ∈ chunks) : c.kind ≠ .vp8l := fun hk => lossless ⟨c, hc, hk⟩
    have none : (scanned chunks).vp8lHasAlpha = false :=
      foldl_of_none (p := (·.kind = .vp8l)) (by simpa using step) (by simpa using lossy)
    rw [alph, none]
    simp only [Chunk.hasAlpha]
    grind
  case pos =>
    obtain ⟨i, hi, hk⟩ := lossless
    have unique (c : Chunk) (hc : c ∈ chunks) (hk' : c.kind = .vp8l) : c = i :=
      unique_of_filter (p := (·.isImage)) (Nat.le_of_eq h.image) hi (by simp [Chunk.isImage, hk]) hc
        (by simp [Chunk.isImage, hk'])
    have declared : (scanned chunks).vp8lHasAlpha = alphaFlag (i.byte 4) :=
      foldl_of_unique (p := (·.kind = .vp8l)) (g := fun c => alphaFlag (c.byte 4)) (by simpa using step) hi
        (by simpa) (by simpa using unique)
    rw [alph, declared]
    simp only [Chunk.hasAlpha]
    grind

end

section

variable {payload : List UInt8}

structure Framed (bytes : List UInt8) (maxBytes : Nat) (payload : List UInt8) : Prop where
  frame    : bytes = riff ++ (toLe 4 (payload.length + 4) ++ (webp ++ payload))
  declared : fromLe ((bytes.take 8).drop 4) + 8 = bytes.length
  bounded  : bytes.length ≤ maxBytes
  nonempty : 20 ≤ bytes.length

theorem validate_of_framed (h : Framed bytes maxBytes payload) :
    validateMetadataFreeWebp bytes maxBytes = (do
      let (offset, s) ← walk bytes bytes.length 12 {}
      if offset ≠ bytes.length || (s.sawVp8 && s.sawVp8l) || (!s.sawVp8 && !s.sawVp8l) then throw .rejected
      s.finish bytes) := by
  have afterRiff : bytes = (riff ++ toLe 4 (payload.length + 4)) ++ (webp ++ payload) := by simp [h.frame]
  have riffAt : slice bytes 0 4 = .ok riff := slice_start h.frame rfl
  have webpAt : slice bytes 8 12 = .ok webp := slice_eq afterRiff (by simp [riff]) rfl
  have sizeAt : slice bytes 4 8 = .ok ((bytes.take 8).drop 4) := if_pos ⟨by omega, by have := h.nonempty; omega⟩
  have long : ¬bytes.length < 20 := Nat.not_lt.mpr h.nonempty
  have fits : ¬maxBytes < bytes.length := Nat.not_lt.mpr h.bounded
  simp [validateMetadataFreeWebp, long, fits, riffAt, webpAt, sizeAt, h.declared, Except.ok_bind]

theorem validate_of_walked (h : Framed bytes maxBytes payload)
    (hw : walk bytes bytes.length 12 {} = .ok (bytes.length, s)) :
    validateMetadataFreeWebp bytes maxBytes =
      if (s.sawVp8 && s.sawVp8l) || (!s.sawVp8 && !s.sawVp8l) then .error .rejected else s.finish bytes := by
  rw [validate_of_framed h, hw]
  simp [Except.ok_bind, Except.throw_bind]

theorem validate_cases_framed (bytes : List UInt8) (maxBytes : Nat) : (∃ payload, Framed bytes maxBytes payload) ∨
    ((∀ payload, ¬Framed bytes maxBytes payload) ∧
      validateMetadataFreeWebp bytes maxBytes = .error .rejected) := by
  by_cases framed : ∃ payload, Framed bytes maxBytes payload
  case pos => exact .inl framed
  case neg =>
    refine .inr ⟨fun payload h => framed ⟨payload, h⟩, ?_⟩
    by_cases size : bytes.length < 20 || maxBytes < bytes.length
    case pos =>
      rw [validateMetadataFreeWebp, if_pos size]
      rfl
    case neg =>
      simp only [Bool.or_eq_true, decide_eq_true_eq, not_or, Nat.not_lt] at size
      obtain ⟨first, afterFirst, split, hf⟩ : ∃ a b, bytes = a ++ b ∧ a.length = 4 :=
        exists_split (by omega)
      have length := congrArg List.length split
      simp only [List.length_append, hf] at length
      obtain ⟨declared, afterSize, rfl, hd⟩ : ∃ a b, afterFirst = a ++ b ∧ a.length = 4 :=
        exists_split (by omega)
      simp only [List.length_append, hd] at length
      obtain ⟨second, payload, rfl, hs⟩ : ∃ a b, afterSize = a ++ b ∧ a.length = 4 :=
        exists_split (by omega)
      simp only [List.length_append, hs] at length
      have afterRiff : bytes = (first ++ declared) ++ (second ++ payload) := by simp [split]
      have riffAt : slice bytes 0 4 = .ok first := slice_start split hf
      have sizeAt : slice bytes 4 8 = .ok declared := slice_eq split hf (by omega)
      have webpAt : slice bytes 8 12 = .ok second := slice_eq afterRiff (by simp [hf, hd]) (by omega)
      have long : ¬bytes.length < 20 := Nat.not_lt.mpr size.left
      have fits : ¬maxBytes < bytes.length := Nat.not_lt.mpr size.right
      simp only [validateMetadataFreeWebp, long, fits, riffAt, webpAt, sizeAt, Except.ok_bind]
      by_cases hr : first = riff
      case neg => simp [hr, Except.throw_bind]
      by_cases hw : second = webp
      case neg => simp [hr, hw, Except.throw_bind]
      by_cases hl : fromLe declared + 8 = bytes.length
      case neg => simp [hr, hw, hl, Except.throw_bind]
      subst hr hw
      refine (framed ⟨payload, ?_, ?_, size.right, size.left⟩).elim
      case refine_1 =>
        have : fromLe declared = payload.length + 4 := by omega
        rw [split, ← this, ← hd, toLe_fromLe]
      case refine_2 =>
        have := Except.ok.inj ((if_pos (by omega)).symm.trans sizeAt)
        rw [this, hl]

theorem framed_of_metadataFree (h : MetadataFree bytes maxBytes chunks d) :
    Framed bytes maxBytes (chunks.flatMap Chunk.encode) ∧ Counted chunks := by
  refine ⟨⟨by simp [h.container, container], h.declared, h.bounded, ?_⟩, h.sound, h.extended, h.alpha, h.image⟩
  obtain ⟨i, hi⟩ := List.length_pos_iff_exists_mem.mp (Nat.lt_of_lt_of_eq Nat.one_pos h.image.symm)
  obtain ⟨front, back, rfl⟩ := List.append_of_mem (List.mem_of_mem_filter hi)
  simp [h.container, container, riff, webp, Chunk.length_encode]
  omega

theorem image_of_counted (h : Counted chunks) : ∃ i ∈ chunks, i.isImage := by
  obtain ⟨i, hi⟩ := List.length_pos_iff_exists_mem.mp (Nat.lt_of_lt_of_eq Nat.one_pos h.image.symm)
  exact ⟨i, List.mem_filter.mp hi⟩

theorem kind_ne_alph_iff : c.kind ≠ .alph ↔ c.kind = .vp8x ∨ c.isImage := by
  cases hk : c.kind <;> simp [Chunk.isImage, hk]

-- The checks after the walk are those of the dimensions and of the alpha flag.
theorem finish_scanned_iff (h : Counted chunks) : (scanned chunks).finish bytes = .ok d ↔
    ((d.1 ≠ 0 ∧ d.2 ≠ 0) ∧ ∀ c ∈ chunks, c.kind ≠ .alph → c.dimensions = d) ∧ AlphaInPlace bytes chunks := by
  obtain ⟨i, hi, image⟩ := image_of_counted h
  have frame := vp8Dimensions_scanned h hi image
  have single (c : Chunk) (hc : c ∈ chunks) (hk : c.isImage) : c = i :=
    unique_of_filter (Nat.le_of_eq h.image) hi image hc hk
  rw [finish_eq_ok_iff, hasAlpha_scanned h, frame]
  by_cases extended : ∃ x ∈ chunks, x.kind = .vp8x
  case neg =>
    have plain (c : Chunk) (hc : c ∈ chunks) : c.kind ≠ .vp8x := fun hk => extended ⟨c, hc, hk⟩
    rw [extendedDimensions_none plain]
    constructor
    case mp =>
      rintro ⟨own, nonzero, -, -⟩
      refine ⟨⟨nonzero, fun c hc hk => ?_⟩, fun c hc hk => (plain c hc hk).elim⟩
      have := single c hc ((kind_ne_alph_iff.mp hk).resolve_left (plain c hc))
      simpa [this] using own
    case mpr =>
      rintro ⟨⟨nonzero, same⟩, -⟩
      have := same i hi (kind_ne_alph_iff.mpr (.inr image))
      exact ⟨by simp [this], nonzero, by simp, by simp⟩
  case pos =>
    obtain ⟨x, hx, hk⟩ := extended
    have unique (c : Chunk) (hc : c ∈ chunks) (hk' : c.kind = .vp8x) : c = x :=
      unique_of_filter (p := (·.kind = .vp8x)) h.extended hx (by simpa) hc (by simpa)
    rw [extendedDimensions_scanned h hx hk]
    constructor
    case mp =>
      rintro ⟨own, nonzero, agree, flag⟩
      have canvas : x.dimensions = d := by simpa using own
      have inner : i.dimensions = x.dimensions := agree _ rfl _ rfl
      refine ⟨⟨nonzero, fun c hc hk => ?_⟩, fun _ _ _ => flag rfl⟩
      rcases kind_ne_alph_iff.mp hk with hk | hk
      case inl => rw [unique c hc hk, canvas]
      case inr => rw [single c hc hk, inner, canvas]
    case mpr =>
      rintro ⟨⟨nonzero, same⟩, flag⟩
      have canvas := same x hx (kind_ne_alph_iff.mpr (.inl hk))
      have inner := same i hi (kind_ne_alph_iff.mpr (.inr image))
      exact ⟨by simp [canvas], nonzero, by simp [canvas, inner], fun _ => flag x hx hk⟩

theorem validate_cases (bytes : List UInt8) (maxBytes : Nat) :
    (∃ chunks d, MetadataFree bytes maxBytes chunks d ∧ AlphaInPlace bytes chunks ∧
      validateMetadataFreeWebp bytes maxBytes = .ok d) ∨
    ((∀ chunks d, MetadataFree bytes maxBytes chunks d → ¬AlphaInPlace bytes chunks) ∧
      validateMetadataFreeWebp bytes maxBytes = .error .rejected) := by
  rcases validate_cases_framed bytes maxBytes with ⟨payload, framed⟩ | ⟨none, rejected⟩
  case inr =>
    exact .inr ⟨fun chunks d h _ => none _ (framed_of_metadataFree h).left, rejected⟩
  case inl =>
    have frame : bytes = (riff ++ toLe 4 (payload.length + 4) ++ webp) ++ payload := by simp [framed.frame]
    have length := congrArg List.length frame
    simp only [List.length_append, length_toLe, riff, webp, List.length_cons, List.length_nil] at length
    have header : (riff ++ toLe 4 (payload.length + 4) ++ webp).length = 12 := by simp [riff, webp]
    have same (chunks : List Chunk) (d : Dimensions) (h : MetadataFree bytes maxBytes chunks d) :
        payload = chunks.flatMap Chunk.encode := by
      have both := framed.frame.symm.trans (framed_of_metadataFree h).left.frame
      have afterSize := List.append_inj_right (List.append_cancel_left both) (by simp)
      exact List.append_cancel_left afterSize
    rcases walk_cases (s := {}) frame (show payload.length < bytes.length by omega) with
      ⟨chunks, rfl, admitted, walked⟩ | ⟨refused, walked⟩
    case inr =>
      refine .inr ⟨fun chunks d h _ => ?_, ?_⟩
      case refine_1 =>
        exact refused chunks (same chunks d h) (counted_iff.mp (framed_of_metadataFree h).right).left
      case refine_2 =>
        rw [validate_of_framed framed, ← header, walked]
        rfl
    case inl =>
      rw [validate_of_walked framed (header ▸ walked)]
      by_cases image : (scanned chunks).sawVp8 && (scanned chunks).sawVp8l ||
          !(scanned chunks).sawVp8 && !(scanned chunks).sawVp8l
      case pos =>
        refine .inr ⟨fun chunks' d h _ => ?_, if_pos image⟩
        obtain rfl := flatMap_encode_inj (same chunks' d h)
        exact (counted_iff.mp (framed_of_metadataFree h).right).right image
      case neg =>
        have counted := counted_iff.mpr ⟨admitted, image⟩
        rw [if_neg image]
        rcases finish_cases with ⟨d, finished⟩ | rejected
        case inl =>
          obtain ⟨⟨nonzero, agrees⟩, inPlace⟩ := (finish_scanned_iff counted).mp finished
          refine .inl ⟨chunks, d, ⟨?_, framed.declared, framed.bounded, counted.sound, counted.extended,
            counted.alpha, counted.image, nonzero, agrees⟩, inPlace, finished⟩
          simp [framed.frame, container]
        case inr =>
          refine .inr ⟨fun chunks' d h inPlace => ?_, rejected⟩
          obtain rfl := flatMap_encode_inj (same chunks' d h)
          have finished := (finish_scanned_iff counted).mpr ⟨⟨h.nonzero, h.agrees⟩, inPlace⟩
          cases rejected.symm.trans finished

-- The flags are in place when the `VP8X` chunk is the first.
theorem flagsInPlace_of_first (h : Counted (c :: chunks)) (hk : c.kind = .vp8x) :
    FlagsInPlace (container (c :: chunks)) (c :: chunks) := by
  intro c' hc' hk'
  obtain rfl : c' = c :=
    unique_of_filter (p := (·.kind = .vp8x)) h.extended List.mem_cons_self (by simpa) hc' (by simpa)
  have sound := h.sound c' List.mem_cons_self
  simp only [Chunk.Sound, hk] at sound
  have split : container (c' :: chunks) =
      (riff ++ toLe 4 (((c' :: chunks).flatMap Chunk.encode).length + 4) ++ webp ++ c'.kind.code ++
        toLe 4 c'.data.length) ++ (c'.data ++ (List.replicate (c'.data.length % 2) 0 ++
          chunks.flatMap Chunk.encode)) := by
    simp [container, Chunk.encode]
  have header : (riff ++ toLe 4 (((c' :: chunks).flatMap Chunk.encode).length + 4) ++ webp ++
      c'.kind.code ++ toLe 4 c'.data.length).length = 20 := by
    simp [riff, webp, Chunk.length_code]
  rw [split, List.getD_eq_getElem?_getD, List.getElem?_append_right (by omega), header,
    List.getElem?_append_left (by omega), ← List.getD_eq_getElem?_getD]
  rfl

theorem validate_lawful_iff :
    (validateMetadataFreeWebp bytes maxBytes ≠ .error .outOfRange ∧
      validateMetadataFreeWebp bytes maxBytes ≠ .error .outOfFuel ∧
      ∀ d, validateMetadataFreeWebp bytes maxBytes = .ok d → Lawful bytes maxBytes d) ↔
    ∀ chunks d, MetadataFree bytes maxBytes chunks d → AlphaInPlace bytes chunks →
      FlagsInPlace bytes chunks := by
  rcases validate_cases bytes maxBytes with
    ⟨chunks, d, free, inPlace, accepted⟩ | ⟨refused, rejected⟩
  case inr =>
    rw [rejected]
    exact ⟨fun _ chunks d h inPlace => (refused chunks d h inPlace).elim, fun _ => ⟨by simp, by simp, by simp⟩⟩
  case inl =>
    rw [accepted]
    constructor
    case mp =>
      rintro ⟨-, -, lawful⟩ chunks' d' free' -
      obtain ⟨chunks'', free'', declared⟩ := lawful d rfl
      obtain rfl := container_inj (free'.container.symm.trans free''.container)
      obtain rfl := container_inj (free'.container.symm.trans free.container)
      intro c hc hk
      rw [Bool.eq_iff_iff, declared c hc hk, inPlace c hc hk]
    case mpr =>
      refine fun h => ⟨by simp, by simp, fun d' hd => ?_⟩
      cases hd
      refine ⟨chunks, free, fun c hc hk => ?_⟩
      rw [h chunks d free inPlace c hc hk, inPlace c hc hk]

-- The alpha flag of a `VP8X` chunk behind the image is not looked at.
def behindImage : List Chunk := [
  ⟨.vp8, [0x00, 0x00, 0x00, 0x9d, 0x01, 0x2a, 0x20, 0x00, 0x10, 0x00], by decide⟩,
  ⟨.vp8x, [0x10, 0x00, 0x00, 0x00, 0x1f, 0x00, 0x00, 0x0f, 0x00, 0x00], by decide⟩]

theorem not_lawful_behindImage :
    ¬(validateMetadataFreeWebp (container behindImage) 100 ≠ .error .outOfRange ∧
      validateMetadataFreeWebp (container behindImage) 100 ≠ .error .outOfFuel ∧
      ∀ d, validateMetadataFreeWebp (container behindImage) 100 = .ok d →
        Lawful (container behindImage) 100 d) := by
  rintro ⟨-, -, lawful⟩
  obtain ⟨chunks, free, declared⟩ := lawful (32, 16) (by decide +kernel)
  obtain rfl := container_inj free.container
  have flag := declared _ (List.mem_of_getElem? (show behindImage[1]? = some _ from rfl)) rfl
  have none : ¬∃ a ∈ behindImage, a.hasAlpha := by decide
  exact none (flag.mp (by decide))

end

end MyDrive.Media.Webp
