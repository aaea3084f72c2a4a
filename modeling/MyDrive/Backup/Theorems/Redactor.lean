import MyDrive.Backup.Redactor

-- Redaction, quote by quote: the tokens go in every segment of a message, then the segments of secret fields.

namespace MyDrive.Backup.Redactor

open Replace

variable {C : Culture} {prev : Option Char} {c x : Char} {a b s t text : List Char} {rest segs : List (List Char)}

theorem quoted_append (h : '"' ∉ a) : quoted (a ++ '"' :: b) = some (a, b) := by
  induction a
  case nil => rfl
  case cons c a ih =>
    have hc : '"' ≠ c := fun he => h (he ▸ List.mem_cons_self)
    have ha : '"' ∉ a := fun hq => h (.tail _ hq)
    rw [List.cons_append, quoted, if_neg (Ne.symm hc), ih ha]
    rfl

theorem quoted_none (h : '"' ∉ a) : quoted a = none := by
  induction a
  case nil => rfl
  case cons c a ih =>
    have hc : '"' ≠ c := fun he => h (he ▸ List.mem_cons_self)
    have ha : '"' ∉ a := fun hq => h (.tail _ hq)
    rw [quoted, if_neg (Ne.symm hc), ih ha]
    rfl

-- A message as its segments between the quotes.
def quote (segs : List (List Char)) : List Char :=
  segs.flatMap ('"' :: ·)

def join (s : List Char) (segs : List (List Char)) : List Char :=
  s ++ quote segs

def joined : List (List Char) → List Char
  | []        => []
  | s :: segs => join s segs

theorem join_nil : join s [] = s :=
  List.append_nil s

theorem join_cons : join s (t :: segs) = s ++ '"' :: join t segs :=
  rfl

theorem join_inj {s' : List Char} {segs' : List (List Char)} (hs : ∀ u ∈ s :: segs, '"' ∉ u)
    (hs' : ∀ u ∈ s' :: segs', '"' ∉ u) (h : join s segs = join s' segs') : s = s' ∧ segs = segs' := by
  have whole := quoted_none (hs s List.mem_cons_self)
  have whole' := quoted_none (hs' s' List.mem_cons_self)
  have first (t segs) := @quoted_append s (join t segs) (hs s List.mem_cons_self)
  have first' (t segs) := @quoted_append s' (join t segs) (hs' s' List.mem_cons_self)
  induction segs generalizing s s' segs'
  case nil =>
    cases segs'
    case nil => exact ⟨by rwa [join_nil, join_nil] at h, rfl⟩
    case cons t segs' =>
      rw [join_nil, join_cons] at h
      rw [h, first'] at whole
      cases whole
  case cons t segs ih =>
    cases segs'
    case nil =>
      rw [join_nil, join_cons] at h
      rw [← h, first] at whole'
      cases whole'
    case cons t' segs' =>
      rw [join_cons, join_cons] at h
      have parts := (first t segs).symm.trans (congrArg quoted h |>.trans (first' t' segs'))
      rw [Option.some.injEq, Prod.mk.injEq] at parts
      have hs : ∀ u ∈ t :: segs, '"' ∉ u := fun u hu => hs u (.tail _ hu)
      have hs' : ∀ u ∈ t' :: segs', '"' ∉ u := fun u hu => hs' u (.tail _ hu)
      obtain ⟨rfl, rfl⟩ := ih hs hs' parts.right (quoted_none (hs t List.mem_cons_self))
        (quoted_none (hs' t' List.mem_cons_self)) (fun u segs => @quoted_append t (join u segs) (hs t List.mem_cons_self))
        (fun u segs => @quoted_append t' (join u segs) (hs' t' List.mem_cons_self))
      exact ⟨parts.left, rfl⟩

namespace Culture

theorem word_of_ascii (h : c.toNat < 128) : C.isWord c = (c.isAlphanum || c = '_') :=
  C.word_ascii c h

theorem isToken_ascii (h : c.toNat < 128) : C.isToken c = tokenChars.any (·.toLower = c.toLower) := by
  have ascii : tokenChars.all (·.toNat < 128) := by decide
  unfold isToken
  rw [Bool.eq_iff_iff, List.any_eq_true, List.any_eq_true]
  refine exists_congr fun d => and_congr_right fun hd => ?_
  rw [C.same_ascii d c (of_decide_eq_true (List.all_eq_true.mp ascii d hd)) h]

theorem isToken_of_same {p : Char} (hp : p ∈ tokenChars) (h : C.same p c) : C.isToken c :=
  List.any_eq_true.mpr ⟨p, hp, h⟩

theorem not_isToken_quote : C.isToken '"' = false := by
  rw [isToken_ascii (by decide)]
  decide

theorem not_isToken_backslash : C.isToken '\\' = false := by
  rw [isToken_ascii (by decide)]
  decide

-- The first pass over a text behind a character.
def tokens (C : Culture) (prev : Option Char) (text : List Char) : List Char :=
  scan C.findToken 0 prev text

def fields (C : Culture) (text : List Char) : List Char :=
  scan C.findField 0 none text

theorem findToken_break (hx : C.isToken x = false) (ha : a ≠ []) :
    C.findToken prev (a ++ x :: b) = C.findToken prev a := by
  have other (p : Char) (hp : p ∈ tokenChars) : C.same p x = false :=
    Bool.eq_false_iff.mpr fun h => Bool.eq_false_iff.mp hx (isToken_of_same hp h)
  have hd := other 'd' (by decide)
  have hu := other '_' (by decide)
  have hk : ['b', 'r', 'k'].any (C.same · x) = false := by
    simp only [List.any_cons, List.any_nil, other 'b' (by decide), other 'r' (by decide), other 'k' (by decide),
      Bool.or_self]
  rcases a with _ | ⟨m, _ | ⟨d, _ | ⟨k, _ | ⟨u, a⟩⟩⟩⟩
  case nil                  => exact absurd rfl ha
  case cons.nil             => rcases b with _ | ⟨_, _ | ⟨_, _⟩⟩ <;> simp [findToken, hd]
  case cons.cons.nil        => rcases b with _ | ⟨_, _⟩ <;> simp [findToken, hk]
  case cons.cons.cons.nil   => simp [findToken, hu]
  case cons.cons.cons.cons =>
    have run : (a ++ x :: b).takeWhile C.isToken = a.takeWhile C.isToken := by
      rw [List.takeWhile_append]
      split
      case isTrue h =>
        rw [List.takeWhile_cons_of_neg (by simp [hx]), List.append_nil, (List.takeWhile_prefix _).eq_of_length h]
      case isFalse h => rfl
    simp only [List.cons_append, findToken, run]

theorem findToken_inside {r : List Char} {k : Nat} (h : C.findToken prev a = some (r, k)) :
    r = redacted ∧ k < a.length := by
  unfold findToken at h
  split at h
  case h_2 => cases h
  case h_1 rest =>
    simp only [Option.ite_none_right_eq_some] at h
    cases h.right
    have := (List.takeWhile_prefix C.isToken (l := rest)).length_le
    exact ⟨rfl, by simp only [List.length_cons]; omega⟩

theorem findToken_none (h : C.same 'm' c = false) : C.findToken prev (c :: s) = none := by
  rcases s with _ | ⟨_, _ | ⟨_, _ | ⟨_, _⟩⟩⟩ <;> simp [findToken, h]

-- The first pass goes over each side of a character that no token holds for itself.
theorem tokens_break (hx : C.isToken x = false) :
    C.tokens prev (a ++ x :: b) = C.tokens prev a ++ x :: C.tokens (some x) b := by
  have other : C.same 'm' x = false :=
    Bool.eq_false_iff.mpr fun h => Bool.eq_false_iff.mp hx (isToken_of_same (by decide) h)
  unfold tokens
  rw [scan_break (fun _ _ _ ha => findToken_break hx ha) (fun _ _ _ _ h => (findToken_inside h).right)
    (Nat.zero_le _), scan_none (findToken_none other)]

theorem tokens_congr {prev' : Option Char} (h : prev.any C.isWord = prev'.any C.isWord) :
    C.tokens prev text = C.tokens prev' text := by
  cases text
  case nil => rfl
  case cons c cs =>
    have same : C.findToken prev (c :: cs) = C.findToken prev' (c :: cs) := by
      unfold findToken boundary
      rw [h]
    rw [tokens, tokens, scan, scan, same]

theorem tokens_quote : C.tokens (some '"') text = C.tokens none text := by
  refine tokens_congr ?_
  rw [Option.any_some, C.word_ascii _ (by decide)]
  rfl

theorem tokens_append_quote : C.tokens none (a ++ '"' :: b) = C.tokens none a ++ '"' :: C.tokens none b := by
  rw [tokens_break not_isToken_quote, tokens_quote]

theorem tokens_copy (h : ∀ c ∈ a, C.same 'm' c = false) :
    C.tokens prev (a ++ b) = a ++ C.tokens (a.getLast?.or prev) b :=
  scan_copy fun c hc _ _ => findToken_none (h c hc)

theorem tokens_plain (h : ∀ c ∈ text, C.same 'm' c = false) : C.tokens prev text = text := by
  have copied := @tokens_copy C prev text [] h
  rwa [List.append_nil, show C.tokens _ [] = [] from rfl, List.append_nil] at copied

theorem not_mem_tokens (h : '"' ∉ text) : '"' ∉ C.tokens prev text := by
  intro hq
  refine mem_scan (P := fun c => c ≠ '"') ?_ ?_ '"' hq rfl
  case refine_1 =>
    intro prev s r k hf c hc
    obtain ⟨rfl, -⟩ := findToken_inside hf
    intro he
    rw [he] at hc
    revert hc
    decide
  case refine_2 =>
    intro c hc he
    exact h (he ▸ hc)

theorem tokens_join : C.tokens none (join s segs) = join (C.tokens none s) (segs.map (C.tokens none)) := by
  induction segs generalizing s
  case nil              => rw [List.map_nil, join_nil, join_nil]
  case cons t segs ih => rw [join_cons, tokens_append_quote, ih, List.map_cons, join_cons]

-- `\s*:\s*` as a whole text.
def isColon (C : Culture) (text : List Char) : Bool :=
  match text.dropWhile C.isSpace with
  | ':' :: rest => rest.all C.isSpace
  | _           => false

theorem not_isSpace_quote : C.isSpace '"' = false := by
  rw [C.space_ascii _ (by decide)]
  rfl

theorem dropWhile_quote : (a ++ '"' :: b).dropWhile C.isSpace = a.dropWhile C.isSpace ++ '"' :: b := by
  rw [List.dropWhile_append]
  split
  case isTrue h =>
    rw [List.dropWhile_cons_of_neg (by simp [not_isSpace_quote]), List.isEmpty_iff.mp h, List.nil_append]
  case isFalse => rfl

theorem takeWhile_quote : (a ++ '"' :: b).takeWhile C.isSpace = a.takeWhile C.isSpace := by
  rw [List.takeWhile_append]
  split
  case isTrue h =>
    rw [List.takeWhile_cons_of_neg (by simp [not_isSpace_quote]), List.append_nil, (List.takeWhile_prefix _).eq_of_length h]
  case isFalse => rfl

theorem colon_append (h : '"' ∉ a) : C.colon (a ++ '"' :: b) = if C.isColon a then some (a, b) else none := by
  have parts := @List.takeWhile_append_dropWhile _ C.isSpace a
  unfold colon isColon
  rw [dropWhile_quote, takeWhile_quote]
  cases ha : a.dropWhile C.isSpace
  case nil => rfl
  case cons c r =>
    rw [ha] at parts
    by_cases hc : c = ':'
    case neg => simp [hc]
    case pos =>
      subst hc
      have spaces := @List.takeWhile_append_dropWhile _ C.isSpace r
      simp only [List.cons_append, dropWhile_quote, takeWhile_quote]
      cases hr : r.dropWhile C.isSpace
      case nil =>
        rw [hr, List.append_nil] at spaces
        have all := @List.any_dropWhile _ C.isSpace r
        rw [hr, List.any_nil, Eq.comm, Bool.not_eq_false'] at all
        simp [all, spaces, parts]
      case cons d q =>
        have inside : d ∈ r := spaces ▸ List.mem_append_right _ (hr ▸ List.mem_cons_self)
        have last := List.head?_dropWhile_not C.isSpace r
        rw [hr] at last
        have all : r.all C.isSpace = false := 
          Bool.eq_false_iff.mpr fun h => Bool.eq_false_iff.mp last (List.all_eq_true.mp h d inside)
        have hd : d ≠ '"' := fun he => h (parts ▸ List.mem_append_right _ (.tail _ (he ▸ inside)))
        simp [all, hd]

-- The second pass over segments: what stands behind a secret name and a colon goes.
def erase (C : Culture) : List Char → List (List Char) → List (List Char)
  | s, a :: b :: c :: d :: rest =>
    if C.isName a && C.isColon b then
      s :: a :: b :: redacted :: C.erase d rest
    else
      s :: C.erase a (b :: c :: d :: rest)
  | s, segs => s :: segs

theorem quote_erase : quote (C.erase s segs) = '"' :: joined (C.erase s segs) := by
  unfold erase
  split
  case h_1 => split <;> rfl
  case h_2 => rfl

theorem findField_none (h : c ≠ '"') : C.findField prev (c :: s) = none := by
  unfold findField
  split
  case h_1 he =>
    cases he
    exact absurd rfl h
  case h_2 => rfl

theorem colon_none (h : '"' ∉ a) : C.colon a = none := by
  unfold colon
  split
  case h_2 => rfl
  case h_1 rest hr =>
    split
    case h_2 => rfl
    case h_1 value hv =>
      have inside : '"' ∈ rest := List.dropWhile_subset C.isSpace (hv ▸ List.mem_cons_self)
      exact absurd (List.dropWhile_subset C.isSpace (hr ▸ .tail _ inside)) h

-- The group of the second pattern.
def group (name between : List Char) : List Char :=
  '"' :: name ++ '"' :: between ++ ['"']

theorem findField_name (ha : '"' ∉ a) : C.findField prev ('"' :: join a (b :: segs)) =
    if C.isName a then (C.colon (join b segs)).bind fun p => (quoted p.2).map fun q =>
      (group a p.1 ++ redacted ++ ['"'], (group a p.1).length + q.1.length)
    else none := by
  rw [join_cons, findField, quoted_append ha]
  split
  case isTrue h =>
    simp only [Option.bind_eq_bind, Option.bind_some, if_pos h, Option.map_eq_bind]
    rfl
  case isFalse h => simp only [Option.bind_eq_bind, Option.bind_some, if_neg h, Option.bind_none]

theorem findField_hit {v : List Char} (ha : '"' ∉ a) (hb : '"' ∉ b) (hv : '"' ∉ v) (h : C.isName a && C.isColon b) :
    C.findField prev ('"' :: join a (b :: v :: s :: segs)) =
      some (group a b ++ redacted ++ ['"'], (group a b).length + v.length) := by
  obtain ⟨name, between⟩ := (Bool.and_eq_true_iff).mp h
  rw [findField_name ha, if_pos name, join_cons, colon_append hb, if_pos between, Option.bind_some, join_cons,
    quoted_append hv]
  rfl

theorem findField_miss (hs : ∀ u ∈ a :: segs, '"' ∉ u)
    (h : ∀ b v s rest, segs = b :: v :: s :: rest → (C.isName a && C.isColon b) = false) :
    C.findField prev ('"' :: join a segs) = none := by
  obtain ⟨ha, hs⟩ := List.forall_mem_cons.mp hs
  rcases segs with _ | ⟨b, segs⟩
  case nil => rw [join_nil, findField, quoted_none ha]; rfl
  case cons =>
    obtain ⟨hb, hs⟩ := List.forall_mem_cons.mp hs
    rw [findField_name ha]
    split
    case isFalse => rfl
    case isTrue name =>
      rcases segs with _ | ⟨v, segs⟩
      case nil => rw [join_nil, colon_none hb, Option.bind_none]
      case cons =>
        obtain ⟨hv, hs⟩ := List.forall_mem_cons.mp hs
        rw [join_cons, colon_append hb]
        split
        case isFalse => rfl
        case isTrue between =>
          rcases segs with _ | ⟨s, segs⟩
          case nil => rw [Option.bind_some, join_nil, quoted_none hv, Option.map_none]
          case cons =>
            have := h b v s segs rfl
            rw [name, between] at this
            cases this

theorem scan_segment (h : '"' ∉ s) : ∃ last, scan C.findField 0 prev (join s segs) =
    s ++ scan C.findField 0 last (quote segs) :=
  ⟨_, scan_copy fun _ hc _ _ => findField_none fun he => h (he ▸ hc)⟩

theorem scan_hit {d v : List Char} (ha : '"' ∉ a) (hb : '"' ∉ b) (hv : '"' ∉ v) (h : C.isName a && C.isColon b) :
    ∃ last, scan C.findField 0 prev (quote (a :: b :: v :: d :: segs)) =
      quote [a, b, redacted] ++ '"' :: scan C.findField 0 last (join d segs) := by
  have shape : quote (a :: b :: v :: d :: segs) = '"' :: ((a ++ '"' :: b ++ '"' :: v ++ ['"']) ++ join d segs) := by
    simp [quote, join]
  have count : (group a b).length + v.length = (a ++ '"' :: b ++ '"' :: v ++ ['"']).length := by
    simp [group]
    omega
  have hit : C.findField prev (quote (a :: b :: v :: d :: segs)) = _ := @findField_hit C prev a b d segs v ha hb hv h
  rw [shape, count] at hit
  obtain ⟨last, replaced⟩ := scan_some hit
  exact ⟨last, by rw [shape, replaced]; simp [group, quote]⟩

theorem scan_miss (hs : ∀ u ∈ a :: segs, '"' ∉ u)
    (h : ∀ b v s rest, segs = b :: v :: s :: rest → (C.isName a && C.isColon b) = false) :
    scan C.findField 0 prev (quote (a :: segs)) = '"' :: scan C.findField 0 (some '"') (join a segs) :=
  scan_none (findField_miss hs h)

theorem scan_short (hl : segs.length ≤ 3) (hs : ∀ u ∈ segs, '"' ∉ u) :
    scan C.findField 0 prev (quote segs) = quote segs := by
  induction segs generalizing prev
  case nil => rfl
  case cons a segs ih =>
    obtain ⟨ha, hr⟩ := List.forall_mem_cons.mp hs
    have few : segs.length ≤ 2 := Nat.le_of_succ_le_succ hl
    obtain ⟨last, copied⟩ := @scan_segment C (some '"') a segs ha
    have miss : ∀ b v s rest, segs = b :: v :: s :: rest → (C.isName a && C.isColon b) = false := by
      rintro b v s rest rfl
      simp at few
    rw [scan_miss hs miss, copied, ih (by omega) hr]
    rfl

theorem fields_join (hs : ∀ u ∈ s :: segs, '"' ∉ u) :
    scan C.findField 0 prev (join s segs) = joined (C.erase s segs) := by
  induction s, segs using erase.induct C generalizing prev
  case case1 s a b v d rest h ih =>
    simp only [List.forall_mem_cons] at hs
    obtain ⟨hs, ha, hb, hv, hd⟩ := hs
    obtain ⟨last, copied⟩ := @scan_segment C prev s (a :: b :: v :: d :: rest) hs
    obtain ⟨last', hit⟩ := @scan_hit C last a b rest d v ha hb hv h
    rw [copied, hit, ih (List.forall_mem_cons.mpr hd), erase, if_pos h, joined, join, ← quote_erase]
    simp [quote]
  case case2 s a b v d rest h ih =>
    obtain ⟨hs, hr⟩ := List.forall_mem_cons.mp hs
    obtain ⟨last, copied⟩ := @scan_segment C prev s (a :: b :: v :: d :: rest) hs
    have miss : ∀ b' v' s' rest', b :: v :: d :: rest = b' :: v' :: s' :: rest' →
        (C.isName a && C.isColon b') = false := by
      rintro _ _ _ _ he
      cases he
      exact Bool.eq_false_iff.mpr h
    rw [copied, scan_miss hr miss, ih hr, erase, if_neg h, joined, join, quote_erase]
  case case3 s segs h =>
    obtain ⟨hs, hr⟩ := List.forall_mem_cons.mp hs
    have same : C.erase s segs = s :: segs := by
      unfold erase
      split
      case h_1 => exact (h _ _ _ _ _ rfl).elim
      case h_2 => rfl
    have few : segs.length ≤ 3 := by
      rcases segs with _ | ⟨_, _ | ⟨_, _ | ⟨_, _ | ⟨_, _⟩⟩⟩⟩
      case cons.cons.cons.cons => exact (h _ _ _ _ _ rfl).elim
      all_goals simp
    obtain ⟨last, copied⟩ := @scan_segment C prev s segs hs
    rw [copied, scan_short few hr, same]
    rfl

theorem redact_join (hs : ∀ u ∈ s :: segs, '"' ∉ u) :
    C.redact (some (join s segs)) = joined (C.erase (C.tokens none s) (segs.map (C.tokens none))) := by
  have kept : ∀ u ∈ C.tokens none s :: segs.map (C.tokens none), '"' ∉ u := by
    rw [← List.map_cons, List.forall_mem_map]
    exact fun u hu => not_mem_tokens (hs u hu)
  rw [← fields_join kept, ← tokens_join]
  rfl

end Culture

end MyDrive.Backup.Redactor
