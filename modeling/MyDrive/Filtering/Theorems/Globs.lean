import MyDrive.Filtering.Globs

-- The translation of a pattern against what the pattern means.

namespace MyDrive.Filtering

-- The cases of the translation.
@[elab_as_elim]
theorem pattern_induction {motive : Text → Prop} (p : Text) (nil : motive [])
    (components : ∀ rest, motive rest → motive (asterisk :: asterisk :: slash :: rest))
    (double : ∀ rest, rest.head? ≠ some slash → motive rest → motive (asterisk :: asterisk :: rest))
    (run : ∀ rest, rest.head? ≠ some asterisk → motive rest → motive (asterisk :: rest))
    (one : ∀ rest, motive rest → motive (question :: rest))
    (literal : ∀ c rest, c ≠ asterisk → c ≠ question → motive rest → motive (c :: rest)) :
    motive p := by
  induction p using toRegex.induct
  case case1 rest ih       => exact components rest ih
  case case2 rest hn ih    =>
    refine double rest (fun he => ?_) ih
    obtain ⟨tail, rfl⟩ := List.head?_eq_some_iff.mp he
    exact hn tail rfl
  case case3 rest _ hn ih  =>
    refine run rest (fun he => ?_) ih
    obtain ⟨tail, rfl⟩ := List.head?_eq_some_iff.mp he
    exact hn tail rfl
  case case4 rest ih       => exact one rest ih
  case case5 c rest _ _ ha hq ih => exact literal c rest ha hq ih
  case case6               => exact nil

section

variable {c : UInt16} {rest : Text}

theorem toRegex_components :
    toRegex (asterisk :: asterisk :: slash :: rest) = .any :: toRegex rest :=
  rfl

theorem toRegex_double (h : rest.head? ≠ some slash) :
    toRegex (asterisk :: asterisk :: rest) = .any :: toRegex rest := by
  refine toRegex.eq_2 rest fun tail he => h ?_
  rw [he]
  rfl

theorem toRegex_run (h : rest.head? ≠ some asterisk) :
    toRegex (asterisk :: rest) = .run :: toRegex rest := by
  refine toRegex.eq_3 rest (fun tail he => h ?_) fun tail he => h ?_ <;> rw [he] <;> rfl

theorem toRegex_one : toRegex (question :: rest) = .one :: toRegex rest :=
  rfl

theorem toRegex_literal (ha : c ≠ asterisk) (hq : c ≠ question) :
    toRegex (c :: rest) = .literal c :: toRegex rest :=
  toRegex.eq_5 c rest (fun _ he => absurd he ha) (fun _ he => absurd he ha) ha hq

theorem parse_components :
    parse (asterisk :: asterisk :: slash :: rest) = .components :: parse rest :=
  rfl

theorem parse_run (hc : ∀ tail, rest ≠ asterisk :: slash :: tail) (hr : rest ≠ [asterisk]) :
    parse (asterisk :: rest) = .run :: parse rest := by
  refine parse.eq_3 rest ?_ ?_
  case refine_1 => exact hr
  case refine_2 => exact hc

theorem parse_one : parse (question :: rest) = .one :: parse rest :=
  rfl

theorem parse_literal (ha : c ≠ asterisk) (hq : c ≠ question) :
    parse (c :: rest) = .literal c :: parse rest :=
  parse.eq_5 c rest (fun he => absurd he ha) (fun _ he => absurd he ha) ha hq

end

variable {p s t : Text} {c : UInt16} {rest : Text} {b b' : Bool}

theorem skip_iff {q : UInt16 → Bool} {follows : Text → Bool} : skip q follows s ↔
    ∃ t s', s = t ++ s' ∧ (∀ c ∈ t, q c) ∧ follows s' := by
  induction s
  case nil => simp [skip]
  case cons c s ih =>
    simp only [skip, Bool.or_eq_true, Bool.and_eq_true, ih]
    constructor
    case mp =>
      rintro (h | ⟨hq, t, s', rfl, ht, hf⟩)
      case inl => exact ⟨[], c :: s, rfl, by simp, h⟩
      case inr => exact ⟨c :: t, s', rfl, by simpa [hq] using ht, hf⟩
    case mpr =>
      rintro ⟨t, s', he, ht, hf⟩
      cases t
      case nil => cases he; exact .inl hf
      case cons =>
        cases he
        rw [List.forall_mem_cons] at ht
        exact .inr ⟨ht.left, _, _, rfl, ht.right, hf⟩

-- Every `**` is a component, up to a run of asterisks at the end. `boundary` says whether the pattern
-- starts where a component does.
def wholeStars (boundary : Bool) : Text → Bool
  | asterisk :: asterisk :: slash :: rest => boundary && wholeStars true rest
  | asterisk :: asterisk :: rest          => rest.all (· = asterisk)
  | asterisk :: rest                      => wholeStars false rest
  | question :: rest                      => wholeStars false rest
  | c :: rest                             => wholeStars (c = slash) rest
  | []                                    => true

-- An asterisk comes next, but for question marks.
def reaches (p : Text) : Bool :=
  (p.dropWhile (· = question)).head? = some asterisk

-- Every `**/` is followed by an asterisk, but for question marks.
def starred : Text → Bool
  | asterisk :: asterisk :: slash :: rest => reaches rest && starred rest
  | _ :: rest                             => starred rest
  | []                                    => true

theorem wholeStars_components :
    wholeStars b (asterisk :: asterisk :: slash :: rest) = (b && wholeStars true rest) :=
  rfl

theorem starred_components :
    starred (asterisk :: asterisk :: slash :: rest) = (reaches rest && starred rest) :=
  rfl

theorem wholeStars_double (h : rest.head? ≠ some slash) :
    wholeStars b (asterisk :: asterisk :: rest) = rest.all (· = asterisk) := by
  refine wholeStars.eq_2 b rest fun tail he => h ?_
  rw [he]
  rfl

theorem wholeStars_run (h : rest.head? ≠ some asterisk) :
    wholeStars b (asterisk :: rest) = wholeStars false rest := by
  refine wholeStars.eq_3 b rest (fun tail he => h ?_) fun tail he => h ?_ <;> rw [he] <;> rfl

theorem wholeStars_literal (ha : c ≠ asterisk) (hq : c ≠ question) :
    wholeStars b (c :: rest) = wholeStars (c = slash) rest :=
  wholeStars.eq_5 b c rest (fun _ he => absurd he ha) (fun _ he => absurd he ha) ha hq

theorem starred_run (h : rest.head? ≠ some asterisk) : starred (asterisk :: rest) = starred rest := by
  refine starred.eq_2 asterisk rest fun tail _ he => h ?_
  rw [he]
  rfl

theorem starred_literal (ha : c ≠ asterisk) : starred (c :: rest) = starred rest :=
  starred.eq_2 c rest fun _ he => absurd he ha

theorem starred_stars (h : p.all (· = asterisk)) : starred p := by
  induction p
  case nil => rfl
  case cons c rest ih =>
    simp only [List.all_cons, Bool.and_eq_true, decide_eq_true_eq] at h
    refine (starred.eq_2 c rest fun tail _ he => ?_).trans (ih h.right)
    rw [he] at h
    cases h.right

theorem reaches_question : reaches (question :: rest) = reaches rest :=
  rfl

theorem reaches_literal (ha : c ≠ asterisk) (hq : c ≠ question) : reaches (c :: rest) = false := by
  simp [reaches, hq, ha]

-- The shortest text that the expression of a pattern takes, with `y` for a question mark.
def shortest (y : UInt16) : Text → Text
  | asterisk :: asterisk :: slash :: rest => shortest y rest
  | asterisk :: asterisk :: rest          => shortest y rest
  | asterisk :: rest                      => shortest y rest
  | question :: rest                      => y :: shortest y rest
  | c :: rest                             => c :: shortest y rest
  | []                                    => []

section

variable {y : UInt16}

theorem shortest_components : shortest y (asterisk :: asterisk :: slash :: rest) = shortest y rest :=
  rfl

theorem shortest_double (h : rest.head? ≠ some slash) :
    shortest y (asterisk :: asterisk :: rest) = shortest y rest := by
  refine shortest.eq_2 y rest fun tail he => h ?_
  rw [he]
  rfl

theorem shortest_run (h : rest.head? ≠ some asterisk) :
    shortest y (asterisk :: rest) = shortest y rest := by
  refine shortest.eq_3 y rest (fun tail he => h ?_) fun tail he => h ?_ <;> rw [he] <;> rfl

theorem shortest_question : shortest y (question :: rest) = y :: shortest y rest :=
  rfl

theorem shortest_literal (ha : c ≠ asterisk) (hq : c ≠ question) :
    shortest y (c :: rest) = c :: shortest y rest :=
  shortest.eq_5 y c rest (fun _ he => absurd he ha) (fun _ he => absurd he ha) ha hq

theorem mem_of_mem_shortest {d : UInt16} (h : d ∈ shortest y p) : d ∈ p ∨ d = y := by
  induction p using pattern_induction
  case nil => exact .inl h
  case components rest ih => exact (ih h).imp_left fun hm => by simp [hm]
  case double rest hd ih =>
    rw [shortest_double hd] at h
    exact (ih h).imp_left fun hm => by simp [hm]
  case run rest hd ih =>
    rw [shortest_run hd] at h
    exact (ih h).imp_left fun hm => by simp [hm]
  case one rest ih =>
    rcases List.mem_cons.mp h with rfl | h
    case inl => exact .inr rfl
    case inr => exact (ih h).imp_left fun hm => by simp [hm]
  case literal c rest ha hq ih =>
    rw [shortest_literal ha hq] at h
    rcases List.mem_cons.mp h with rfl | h
    case inl => exact .inl List.mem_cons_self
    case inr => exact (ih h).imp_left fun hm => by simp [hm]

end

-- Nothing, or some components and the separator behind them.
def Closed (x : Text) : Prop :=
  ∀ c, x.getLast? = some c → c = slash

theorem Closed.tail {x : Text} (h : Closed (c :: x)) : Closed x := by
  intro d hd
  exact h d (by simp [List.getLast?_cons, hd])

theorem Closed.cons {x : Text} (h : Closed x) (hx : x = [] → c = slash) : Closed (c :: x) := by
  intro d hd
  rw [List.getLast?_cons, Option.some.injEq] at hd
  cases hl : x.getLast?
  case none =>
    rw [hl] at hd
    exact hd ▸ hx (List.getLast?_eq_none_iff.mp hl)
  case some e =>
    rw [hl] at hd
    exact hd ▸ h e hl

theorem Closed.of_append {x : Text} (h : Closed (t ++ x)) : Closed x := by
  intro d hd
  exact h d (by simp [hd])

theorem Closed.count_pos {x : Text} (h : Closed x) (hx : x ≠ []) : 0 < x.count slash := by
  obtain ⟨c, hc⟩ := Option.ne_none_iff_exists'.mp (mt List.getLast?_eq_none_iff.mp hx)
  have last := h c hc
  subst last
  exact List.count_pos_iff.mpr (List.mem_of_getLast? hc)

theorem exists_parts (t : Text) : ∃ (parts : List Text) (v : Text),
    (∀ part ∈ parts, slash ∉ part) ∧ slash ∉ v ∧ t = parts.flatMap (· ++ [slash]) ++ v := by
  induction t
  case nil => exact ⟨[], [], by simp, by simp, rfl⟩
  case cons c t ih =>
    obtain ⟨parts, v, plain, hv, rfl⟩ := ih
    by_cases hc : c = slash
    case pos => exact ⟨[] :: parts, v, by simpa using plain, hv, by simp [hc]⟩
    case neg =>
      cases parts
      case nil => exact ⟨[], c :: v, by simp, by simp [hv, Ne.symm hc], rfl⟩
      case cons part parts =>
        rw [List.forall_mem_cons] at plain
        refine ⟨(c :: part) :: parts, v, List.forall_mem_cons.mpr ⟨?_, plain.right⟩, hv, by simp⟩
        simp [plain.left, Ne.symm hc]

theorem literal_mem_parse (hp : newline ∈ p) : Wildcard.literal newline ∈ parse p := by
  have star : newline ≠ asterisk := by decide
  induction p using parse.induct
  case case1 => contradiction
  case case2 rest ih =>
    have hp := List.mem_of_ne_of_mem star (List.mem_of_ne_of_mem star hp)
    exact .tail _ (ih (List.mem_of_ne_of_mem (by decide) hp))
  case case3 rest hl hc ih =>
    change _ ∈ parse (asterisk :: rest)
    rw [parse_run hc hl]
    exact .tail _ (ih (List.mem_of_ne_of_mem star hp))
  case case4 rest ih => exact .tail _ (ih (List.mem_of_ne_of_mem (by decide) hp))
  case case5 c rest _ _ ha hq ih =>
    rw [parse_literal ha hq]
    rcases List.mem_cons.mp hp with rfl | hp
    case inl => exact List.mem_cons_self
    case inr => exact .tail _ (ih hp)
  case case6 => contradiction

theorem newline_normalize (h : newline ∉ s) : newline ∉ normalize s := by
  simp only [normalize, List.mem_map, not_exists, not_and]
  intro c hc he
  split at he
  case isTrue  => cases he
  case isFalse => exact h (he ▸ hc)

theorem backslash_normalize : backslash ∉ normalize s := by
  simp only [normalize, List.mem_map, not_exists, not_and]
  intro c _ he
  split at he
  case isTrue     => cases he
  case isFalse hc => exact hc he

theorem normalize_of_not_mem (h : backslash ∉ s) : normalize s = s := by
  induction s
  case nil => rfl
  case cons c s ih =>
    rw [List.mem_cons, not_or] at h
    rw [normalize, List.map_cons, if_neg (Ne.symm h.left)]
    exact congrArg (c :: ·) (ih h.right)

section

variable [DotNet]

open DotNet

theorem eq_slash_of_fold (h : fold c = fold slash) : c = slash :=
  caseless (by decide) (by decide) h

theorem literal_iff {items : List Item} : regexMatches (.literal c :: items) s ↔
    ∃ d s', s = d :: s' ∧ fold d = fold c ∧ regexMatches items s' := by
  cases s <;> simp [regexMatches]

theorem one_iff {items : List Item} : regexMatches (.one :: items) s ↔
    ∃ d s', s = d :: s' ∧ d ≠ slash ∧ regexMatches items s' := by
  cases s <;> simp [regexMatches]

theorem end_iff (hs : newline ∉ s) : regexMatches [] s ↔ s = [] := by
  have ne : s ≠ [newline] := by
    rintro rfl
    simp at hs
  simp [regexMatches, ne]

-- What a pattern without separators means for a name.
def NameMatches : Text → Text → Prop
  | asterisk :: rest, s => ∃ t s', s = t ++ s' ∧ NameMatches rest s'
  | question :: rest, s => ∃ d s', s = d :: s' ∧ NameMatches rest s'
  | c :: rest,        s => ∃ d s', s = d :: s' ∧ fold d = fold c ∧ NameMatches rest s'
  | [],               s => s = []

theorem nameMatches_asterisk : NameMatches (asterisk :: rest) s ↔
    ∃ t s', s = t ++ s' ∧ NameMatches rest s' :=
  Iff.rfl

theorem nameMatches_question : NameMatches (question :: rest) s ↔
    ∃ d s', s = d :: s' ∧ NameMatches rest s' :=
  Iff.rfl

theorem nameMatches_literal (ha : c ≠ asterisk) (hq : c ≠ question) : NameMatches (c :: rest) s ↔
    ∃ d s', s = d :: s' ∧ fold d = fold c ∧ NameMatches rest s' := by
  rw [NameMatches.eq_3 s c rest ha hq]

theorem regexMatches_iff_name (hp : slash ∉ p) (hs : slash ∉ s) (hn : newline ∉ s) :
    regexMatches (toRegex p) s ↔ NameMatches p s := by
  induction p using pattern_induction generalizing s
  case nil => exact end_iff hn
  case components rest ih => simp at hp
  case double rest hr ih =>
    have below : slash ∉ rest := fun h => hp (by simp [h])
    rw [toRegex_double hr, regexMatches, skip_iff]
    simp only [nameMatches_asterisk]
    constructor
    case mp =>
      rintro ⟨t, s', rfl, _, hm⟩
      rw [List.mem_append, not_or] at hs hn
      exact ⟨t, s', rfl, [], s', rfl, (ih below hs.right hn.right).mp hm⟩
    case mpr =>
      rintro ⟨t, _, rfl, t', s', rfl, hm⟩
      rw [← List.append_assoc, List.mem_append, not_or] at hs hn
      refine ⟨t ++ t', s', (List.append_assoc _ _ _).symm, fun c hc => ?_,
        (ih below hs.right hn.right).mpr hm⟩
      exact decide_eq_true fun he => hn.left (he ▸ hc)
  case run rest hr ih =>
    have below : slash ∉ rest := fun h => hp (by simp [h])
    rw [toRegex_run hr, regexMatches, skip_iff, nameMatches_asterisk]
    constructor
    case mp =>
      rintro ⟨t, s', rfl, _, hm⟩
      rw [List.mem_append, not_or] at hs hn
      exact ⟨t, s', rfl, (ih below hs.right hn.right).mp hm⟩
    case mpr =>
      rintro ⟨t, s', rfl, hm⟩
      rw [List.mem_append, not_or] at hs hn
      refine ⟨t, s', rfl, fun c hc => ?_, (ih below hs.right hn.right).mpr hm⟩
      exact decide_eq_true fun he => hs.left (he ▸ hc)
  case one rest ih =>
    have below : slash ∉ rest := fun h => hp (by simp [h])
    rw [toRegex_one, one_iff, nameMatches_question]
    constructor
    case mp =>
      rintro ⟨d, s', rfl, _, hm⟩
      rw [List.mem_cons, not_or] at hs hn
      exact ⟨d, s', rfl, (ih below hs.right hn.right).mp hm⟩
    case mpr =>
      rintro ⟨d, s', rfl, hm⟩
      rw [List.mem_cons, not_or] at hs hn
      exact ⟨d, s', rfl, fun he => hs.left he.symm, (ih below hs.right hn.right).mpr hm⟩
  case literal c rest ha hq ih =>
    have below : slash ∉ rest := fun h => hp (by simp [h])
    rw [toRegex_literal ha hq, literal_iff, nameMatches_literal ha hq]
    refine exists_congr fun d => exists_congr fun s' => and_congr_right fun he => ?_
    subst he
    rw [List.mem_cons, not_or] at hs hn
    rw [ih below hs.right hn.right]

theorem accepts_iff_name (b : Bool) (hp : slash ∉ p) (hs : slash ∉ s) :
    Accepts b (parse p) s ↔ NameMatches p s := by
  induction p generalizing b s
  case nil => exact Iff.rfl
  case cons c rest ih =>
    have below : slash ∉ rest := fun h => hp (by simp [h])
    have rests (t s' : Text) (he : s = t ++ s') : slash ∉ t ∧ slash ∉ s' := by
      rw [he, List.mem_append, not_or] at hs
      exact hs
    by_cases ha : c = asterisk
    case pos =>
      subst ha
      rw [nameMatches_asterisk]
      by_cases last : rest = [asterisk]
      case pos =>
        subst last
        refine ⟨fun _ => ⟨[], s, rfl, s, [], by simp, rfl⟩, fun _ => ⟨s, [], by simp, rfl⟩⟩
      case neg =>
        rw [parse_run (fun tail he => below (by simp [he])) last]
        refine exists_congr fun t => exists_congr fun s' => and_congr_right fun he => ?_
        rw [ih _ below (rests t s' he).right]
        exact and_iff_right (rests t s' he).left
    case neg =>
      by_cases hq : c = question
      case pos =>
        subst hq
        rw [nameMatches_question]
        refine exists_congr fun d => exists_congr fun s' => and_congr_right fun he => ?_
        obtain ⟨hd, hs'⟩ := rests [d] s' he
        rw [ih _ below hs']
        exact and_iff_right fun h => hd (by simp [h])
      case neg =>
        rw [parse_literal ha hq, nameMatches_literal ha hq]
        refine exists_congr fun d => exists_congr fun s' => and_congr_right fun he => ?_
        rw [ih _ below (rests [d] s' he).right]

-- A run of asterisks at the end accepts everything.
theorem accepts_stars (h : rest.all (· = asterisk)) :
    Accepts b (parse (asterisk :: asterisk :: rest)) s := by
  induction rest generalizing b
  case nil => exact ⟨s, [], by simp, rfl⟩
  case cons c rest ih =>
    simp only [List.all_cons, Bool.and_eq_true, decide_eq_true_eq] at h
    obtain ⟨rfl, h⟩ := h
    have tail (tail) : asterisk :: asterisk :: rest ≠ asterisk :: slash :: tail := by
      rintro ⟨⟩
    rw [parse_run tail (by simp)]
    exact ⟨[], s, rfl, by simp, ih h⟩

theorem regexMatches_stars (h : p.all (· = asterisk)) : regexMatches (toRegex p) [] := by
  induction p using pattern_induction
  case nil                  => rfl
  case components rest ih   => contradiction
  case double rest hr ih    =>
    rw [toRegex_double hr, regexMatches, skip]
    exact ih (by simpa using h)
  case run rest hr ih       =>
    rw [toRegex_run hr, regexMatches, skip]
    exact ih (by simpa using h)
  case one rest ih          => contradiction
  case literal c rest ha _ _ =>
    rw [List.all_cons, Bool.and_eq_true, decide_eq_true_eq] at h
    exact absurd h.left ha

-- Where the text starts matters for `**/` only.
theorem accepts_boundary (hw : wholeStars false p) (h : Accepts b (parse p) s) :
    Accepts b' (parse p) s := by
  induction p using pattern_induction generalizing b b' s
  case nil => exact h
  case components rest ih => contradiction
  case double rest hr ih =>
    rw [wholeStars_double hr] at hw
    exact accepts_stars hw
  case run rest hr ih =>
    rw [wholeStars_run hr] at hw
    have last : rest ≠ [asterisk] := fun he => hr (by rw [he]; rfl)
    have tail (tail) : rest ≠ asterisk :: slash :: tail := fun he => hr (by rw [he]; rfl)
    rw [parse_run tail last] at h ⊢
    obtain ⟨t, s', he, ht, hm⟩ := h
    exact ⟨t, s', he, ht, ih hw hm⟩
  case one rest ih => exact h
  case literal c rest ha hq ih =>
    rw [parse_literal ha hq] at h ⊢
    exact h

-- The rest of a component can be taken by an asterisk that follows.
theorem accepts_absorb {v : Text} (hw : wholeStars b p) (hs : starred p) (hr : reaches p)
    (hv : slash ∉ v) (h : Accepts b (parse p) s) : Accepts b (parse p) (v ++ s) := by
  induction p using pattern_induction generalizing b s v
  case nil => contradiction
  case components rest ih =>
    rw [wholeStars_components, Bool.and_eq_true] at hw
    rw [starred_components, Bool.and_eq_true] at hs
    obtain ⟨rfl, hw⟩ := hw
    rw [parse_components] at h ⊢
    rcases h with h | ⟨_, parts, s', plain, rfl, h⟩
    case inl => exact .inl (ih hw hs.right hs.left hv h)
    case inr =>
      cases parts
      case nil => exact .inl (ih hw hs.right hs.left hv h)
      case cons part parts =>
        rw [List.forall_mem_cons] at plain
        refine .inr ⟨rfl, (v ++ part) :: parts, s', List.forall_mem_cons.mpr ⟨?_, plain.right⟩, ?_, h⟩
        case refine_1 => simp [hv, plain.left]
        case refine_2 => simp
  case double rest hd ih =>
    rw [wholeStars_double hd] at hw
    exact accepts_stars hw
  case run rest hd ih =>
    rw [wholeStars_run hd] at hw
    have last : rest ≠ [asterisk] := fun he => hd (by rw [he]; rfl)
    have tail (tail) : rest ≠ asterisk :: slash :: tail := fun he => hd (by rw [he]; rfl)
    rw [parse_run tail last] at h ⊢
    obtain ⟨t, s', rfl, ht, hm⟩ := h
    exact ⟨v ++ t, s', by simp, by simp [hv, ht], accepts_boundary hw hm⟩
  case one rest ih =>
    obtain ⟨d, s', rfl, hd, hm⟩ := h
    cases v
    case nil => exact ⟨d, s', rfl, hd, hm⟩
    case cons e v =>
      rw [List.mem_cons, not_or] at hv
      have plain : slash ∉ v ++ [d] := by simp [hv.right, hd.symm]
      have shifted := ih hw hs hr plain hm
      rw [List.append_assoc] at shifted
      exact ⟨e, _, rfl, fun he => hv.left he.symm, shifted⟩
  case literal c rest ha hq ih =>
    rw [reaches_literal ha hq] at hr
    contradiction

theorem regexMatches_iff_accepts (hw : wholeStars b p) (hs : starred p) (hn : newline ∉ s) :
    regexMatches (toRegex p) s ↔ Accepts b (parse p) s := by
  induction p using pattern_induction generalizing b s
  case nil => exact end_iff hn
  case components rest ih =>
    rw [wholeStars_components, Bool.and_eq_true] at hw
    rw [starred_components, Bool.and_eq_true] at hs
    obtain ⟨rfl, hw⟩ := hw
    rw [toRegex_components, regexMatches, skip_iff, parse_components]
    constructor
    case mp =>
      rintro ⟨t, s', rfl, _, hm⟩
      rw [List.mem_append, not_or] at hn
      obtain ⟨parts, v, plain, hv, rfl⟩ := exists_parts t
      have below := (ih hw hs.right hn.right).mp hm
      have shifted := accepts_absorb hw hs.right hs.left hv below
      exact .inr ⟨rfl, parts, v ++ s', plain, by simp, shifted⟩
    case mpr =>
      rintro (h | ⟨_, parts, s', _, rfl, h⟩)
      case inl => exact ⟨[], s, rfl, by simp, (ih hw hs.right hn).mpr h⟩
      case inr =>
        rw [List.mem_append, not_or] at hn
        refine ⟨_, s', rfl, fun c hc => ?_, (ih hw hs.right hn.right).mpr h⟩
        exact decide_eq_true fun he => hn.left (he ▸ hc)
  case double rest hd ih =>
    rw [wholeStars_double hd] at hw
    rw [toRegex_double hd, regexMatches, skip_iff]
    refine iff_of_true ⟨s, [], by simp, fun c hc => ?_, regexMatches_stars hw⟩ (accepts_stars hw)
    exact decide_eq_true fun he => hn (he ▸ hc)
  case run rest hd ih =>
    rw [wholeStars_run hd] at hw
    rw [starred_run hd] at hs
    have last : rest ≠ [asterisk] := fun he => hd (by rw [he]; rfl)
    have tail (tail) : rest ≠ asterisk :: slash :: tail := fun he => hd (by rw [he]; rfl)
    rw [toRegex_run hd, regexMatches, skip_iff, parse_run tail last]
    refine exists_congr fun t => exists_congr fun s' => and_congr_right fun he => ?_
    subst he
    rw [List.mem_append, not_or] at hn
    rw [ih hw hs hn.right]
    refine and_congr ?_ ⟨accepts_boundary hw, accepts_boundary hw⟩
    refine ⟨fun ht hm => ?_, fun ht c hc => decide_eq_true fun he => ht (he ▸ hc)⟩
    exact of_decide_eq_true (ht slash hm) rfl
  case one rest ih =>
    rw [toRegex_one, one_iff, parse_one]
    refine exists_congr fun d => exists_congr fun s' => and_congr_right fun he => ?_
    subst he
    rw [List.mem_cons, not_or] at hn
    rw [ih hw hs hn.right]
  case literal c rest ha hq ih =>
    rw [wholeStars_literal ha hq] at hw
    rw [starred_literal ha] at hs
    rw [toRegex_literal ha hq, literal_iff, parse_literal ha hq]
    refine exists_congr fun d => exists_congr fun s' => and_congr_right fun he =>
      and_congr_right fun hf => ?_
    subst he
    rw [List.mem_cons, not_or] at hn
    have same : decide (d = slash) = decide (c = slash) := by
      refine decide_eq_decide.mpr ⟨fun h => ?_, fun h => ?_⟩
      case refine_1 => exact eq_slash_of_fold (by rw [← hf, h])
      case refine_2 => exact eq_slash_of_fold (by rw [hf, h])
    rw [same, ih hw hs hn.right]

-- The separators that a pattern names.
def separators : List Wildcard → Nat
  | []               => 0
  | .literal c :: ts => (if c = slash then 1 else 0) + separators ts
  | _ :: ts          => separators ts

theorem separators_le {ts : List Wildcard} (h : Accepts b ts s) : separators ts ≤ s.count slash := by
  induction ts generalizing b s
  case nil => exact Nat.zero_le _
  case cons w ts ih =>
    cases w
    case literal c =>
      obtain ⟨d, s', rfl, hf, hm⟩ := h
      have below := ih hm
      rw [separators, List.count_cons]
      by_cases hc : c = slash
      case pos =>
        subst hc
        rw [eq_slash_of_fold hf, if_pos rfl, if_pos (by simp)]
        omega
      case neg =>
        rw [if_neg hc, Nat.zero_add]
        exact Nat.le_trans below (Nat.le_add_right _ _)
    case one =>
      obtain ⟨d, s', rfl, _, hm⟩ := h
      rw [List.count_cons]
      exact Nat.le_trans (ih hm) (Nat.le_add_right _ _)
    case run =>
      obtain ⟨t, s', rfl, _, hm⟩ := h
      rw [List.count_append]
      exact Nat.le_trans (ih hm) (Nat.le_add_left _ _)
    case components =>
      rcases h with h | ⟨_, parts, s', _, rfl, hm⟩
      case inl => exact ih h
      case inr =>
        rw [List.count_append]
        exact Nat.le_trans (ih hm) (Nat.le_add_left _ _)
    case rest =>
      obtain ⟨t, s', rfl, hm⟩ := h
      rw [List.count_append]
      exact Nat.le_trans (ih hm) (Nat.le_add_left _ _)

-- Components take a separator of the text that the rest of the pattern does not have.
theorem accepts_components {ts : List Wildcard} (h : Accepts b (.components :: ts) s)
    (hc : s.count slash = separators ts) : Accepts b ts s := by
  rcases h with h | ⟨rfl, parts, s', _, rfl, hm⟩
  case inl => exact h
  case inr =>
    cases parts
    case nil => exact hm
    case cons part parts =>
      have below := separators_le hm
      rw [List.flatMap_cons, List.count_append, List.count_append, List.count_append] at hc
      simp at hc
      omega

theorem regexMatches_shortest {y : UInt16} (hy : y ≠ slash) :
    regexMatches (toRegex p) (shortest y p) := by
  induction p using pattern_induction
  case nil => rfl
  case components rest ih =>
    rw [toRegex_components, regexMatches, skip_iff]
    exact ⟨[], _, rfl, by simp, ih⟩
  case double rest hd ih =>
    rw [toRegex_double hd, shortest_double hd, regexMatches, skip_iff]
    exact ⟨[], _, rfl, by simp, ih⟩
  case run rest hd ih =>
    rw [toRegex_run hd, shortest_run hd, regexMatches, skip_iff]
    exact ⟨[], _, rfl, by simp, ih⟩
  case one rest ih =>
    rw [toRegex_one, one_iff]
    exact ⟨y, _, rfl, hy, ih⟩
  case literal c rest ha hq ih =>
    rw [toRegex_literal ha hq, shortest_literal ha hq, literal_iff]
    exact ⟨c, _, rfl, rfl, ih⟩

theorem count_shortest {y : UInt16} (hy : y ≠ slash) (hw : wholeStars b p) :
    (shortest y p).count slash = separators (parse p) := by
  induction p using pattern_induction generalizing b
  case nil => rfl
  case components rest ih =>
    rw [wholeStars_components, Bool.and_eq_true] at hw
    exact ih hw.right
  case double rest hd ih =>
    rw [wholeStars_double hd] at hw
    have none : slash ∉ shortest y rest := by
      intro h
      rcases mem_of_mem_shortest h with h | h
      case inl => cases of_decide_eq_true (List.all_eq_true.mp hw slash h)
      case inr => exact hy h.symm
    have below := separators_le (accepts_stars (b := b) (s := []) hw)
    rw [shortest_double hd, List.count_eq_zero.mpr none]
    exact (Nat.le_zero.mp below).symm
  case run rest hd ih =>
    rw [wholeStars_run hd] at hw
    have last : rest ≠ [asterisk] := fun he => hd (by rw [he]; rfl)
    have tail (tail) : rest ≠ asterisk :: slash :: tail := fun he => hd (by rw [he]; rfl)
    rw [shortest_run hd, parse_run tail last]
    exact ih hw
  case one rest ih =>
    rw [shortest_question, List.count_cons_of_ne hy]
    exact ih hw
  case literal c rest ha hq ih =>
    rw [wholeStars_literal ha hq] at hw
    rw [shortest_literal ha hq, parse_literal ha hq, separators, List.count_cons, ih hw, Nat.add_comm]
    simp

-- What follows `**/` without an asterisk does not take a character more.
theorem not_accepts_extra {y : UInt16} (hr : reaches p = false)
    (hc : ∀ c, (p.dropWhile (· = question)).head? = some c → fold y ≠ fold c) :
    ¬Accepts b (parse p) (y :: shortest y p) := by
  induction p using pattern_induction generalizing b
  case nil => exact List.cons_ne_nil _ _
  case components rest ih => contradiction
  case double rest hd ih => contradiction
  case run rest hd ih => contradiction
  case one rest ih =>
    rintro ⟨d, s', he, _, hm⟩
    cases he
    exact ih hr hc hm
  case literal c rest ha hq ih =>
    rw [parse_literal ha hq]
    rintro ⟨d, s', he, hf, _⟩
    cases he
    exact hc c (by simp [hq]) hf

-- A pattern with `**/` before something that is no asterisk. The pattern takes `x ++ z`, and does not
-- mean it, whatever is put for the components in `x`.
theorem exists_difference (hw : wholeStars b p) (hs : starred p = false) : ∃ x z,
    (∀ c ∈ x ++ z, c ∈ p ∨ c = 48 ∨ c = 49) ∧ regexMatches (toRegex p) (x ++ z) ∧ Closed x ∧
      (b = false → x ≠ []) ∧ (x ++ z).count slash = separators (parse p) ∧
      ∀ x', Closed x' → x'.count slash = x.count slash → ¬Accepts b (parse p) (x' ++ z) := by
  induction p using pattern_induction generalizing b
  case nil => contradiction
  case components rest ih =>
    rw [wholeStars_components, Bool.and_eq_true] at hw
    obtain ⟨rfl, hw⟩ := hw
    rw [toRegex_components, parse_components]
    by_cases below : starred rest
    case neg =>
      obtain ⟨x, z, mem, matched, closed, _, count, refused⟩ := ih hw (by simpa using below)
      refine ⟨x, z, fun c hc => (mem c hc).imp_left fun hm => by simp [hm], ?_, closed, by simp, count,
        fun x' hx he h => refused x' hx he (accepts_components h ?_)⟩
      case refine_1 =>
        rw [regexMatches, skip_iff]
        exact ⟨[], _, rfl, by simp, matched⟩
      case refine_2 =>
        rw [List.count_append] at count ⊢
        rw [he]
        exact count
    case pos =>
      have reach : reaches rest = false := by simpa [starred_components, below] using hs
      have extra : ∃ y : UInt16, (y = 48 ∨ y = 49) ∧
          ∀ c, (rest.dropWhile (· = question)).head? = some c → fold y ≠ fold c := by
        by_cases hq : (rest.dropWhile (· = question)).head? = some 48
        case pos =>
          refine ⟨49, .inr rfl, fun c hc hf => ?_⟩
          cases hq.symm.trans hc
          exact absurd (caseless (by decide) (by decide) hf) (by decide)
        case neg =>
          refine ⟨48, .inl rfl, fun c hc hf => hq ?_⟩
          rw [hc, caseless (by decide) (by decide) hf.symm]
      obtain ⟨y, hy, fresh⟩ := extra
      have plain : y ≠ slash ∧ y ≠ newline := by rcases hy with rfl | rfl <;> decide
      have count : ([] ++ y :: shortest y rest).count slash = separators (parse rest) := by
        rw [List.nil_append, List.count_cons_of_ne plain.left]
        exact count_shortest plain.left hw
      refine ⟨[], y :: shortest y rest, fun c hc => ?_, ?_, by simp [Closed], by simp, count,
        fun x' hx he h => ?_⟩
      case refine_1 =>
        rcases List.mem_cons.mp hc with rfl | hc
        case inl => exact .inr hy
        case inr =>
          rcases mem_of_mem_shortest hc with hm | rfl
          case inl => exact .inl (by simp [hm])
          case inr => exact .inr hy
      case refine_2 =>
        rw [regexMatches, skip_iff]
        exact ⟨[y], _, rfl, by simpa using plain.right, regexMatches_shortest plain.left⟩
      case refine_3 =>
        obtain rfl : x' = [] := by
          by_contra hn
          have := hx.count_pos hn
          simp [he] at this
        exact not_accepts_extra reach fresh (accepts_components h count)
  case double rest hd ih =>
    rw [wholeStars_double hd] at hw
    have stars : (asterisk :: asterisk :: rest).all (· = asterisk) := by simpa using hw
    rw [starred_stars stars] at hs
    contradiction
  case run rest hd ih =>
    rw [wholeStars_run hd] at hw
    rw [starred_run hd] at hs
    have last : rest ≠ [asterisk] := fun he => hd (by rw [he]; rfl)
    have tail (tail) : rest ≠ asterisk :: slash :: tail := fun he => hd (by rw [he]; rfl)
    obtain ⟨x, z, mem, matched, closed, nonempty, count, refused⟩ := ih hw hs
    have some_slash := closed.count_pos (nonempty rfl)
    rw [toRegex_run hd, parse_run tail last]
    refine ⟨x, z, fun c hc => (mem c hc).imp_left (.tail _), ?_, closed, fun _ => nonempty rfl, count,
      fun x' hx he h => ?_⟩
    case refine_1 =>
      rw [regexMatches, skip_iff]
      exact ⟨[], _, rfl, by simp, matched⟩
    case refine_2 =>
      obtain ⟨t, s', split, ht, hm⟩ := h
      rcases List.append_eq_append_iff.mp split with ⟨beyond, rfl, _⟩ | ⟨below, rfl, rfl⟩
      case inl =>
        refine ht (List.mem_append_left _ (List.count_pos_iff.mp ?_))
        rw [he]
        exact some_slash
      case inr =>
        rw [List.count_append, List.count_eq_zero.mpr ht, Nat.zero_add] at he
        exact refused below hx.of_append he (accepts_boundary hw hm)
  case one rest ih =>
    obtain ⟨x, z, mem, matched, closed, nonempty, count, refused⟩ := ih hw hs
    have some_slash := closed.count_pos (nonempty rfl)
    refine ⟨48 :: x, z, fun c hc => ?_, one_iff.mpr ⟨48, x ++ z, rfl, by decide, matched⟩,
      closed.cons fun he => absurd he (nonempty rfl), by simp, ?_, fun x' hx he h => ?_⟩
    case refine_1 =>
      rcases List.mem_cons.mp hc with rfl | hc
      case inl => exact .inr (.inl rfl)
      case inr => exact (mem c hc).imp_left (.tail _)
    case refine_2 =>
      rw [List.cons_append, List.count_cons_of_ne (by decide)]
      exact count
    case refine_3 =>
      obtain ⟨d, s', split, hd, hm⟩ := h
      rw [List.count_cons_of_ne (by decide)] at he
      cases x'
      case nil =>
        rw [List.count_nil] at he
        omega
      case cons e x' =>
        cases split
        rw [List.count_cons_of_ne hd] at he
        exact refused x' hx.tail he hm
  case literal c rest ha hq ih =>
    rw [wholeStars_literal ha hq] at hw
    rw [starred_literal ha] at hs
    obtain ⟨x, z, mem, matched, closed, nonempty, count, refused⟩ := ih hw hs
    rw [toRegex_literal ha hq, parse_literal ha hq]
    refine ⟨c :: x, z, fun d hd => ?_, literal_iff.mpr ⟨c, x ++ z, rfl, rfl, matched⟩,
      closed.cons fun he => ?_, by simp, ?_, fun x' hx he h => ?_⟩
    case refine_1 =>
      rcases List.mem_cons.mp hd with rfl | hd
      case inl => exact .inl List.mem_cons_self
      case inr => exact (mem d hd).imp_left (.tail _)
    case refine_2 =>
      by_contra hn
      exact nonempty (decide_eq_false hn) he
    case refine_3 =>
      rw [List.cons_append, List.count_cons, count, separators, Nat.add_comm]
      simp
    case refine_4 =>
      obtain ⟨d, s', split, hf, hm⟩ := h
      have same : d = slash ↔ c = slash := by
        refine ⟨fun h => ?_, fun h => ?_⟩
        case refine_1 => exact eq_slash_of_fold (by rw [← hf, h])
        case refine_2 => exact eq_slash_of_fold (by rw [hf, h])
      rw [decide_eq_decide.mpr same] at hm
      cases x'
      case nil =>
        -- The text of the components is not empty, as it has a separator.
        have positive := (closed.cons (c := c) fun hx => ?_).count_pos (List.cons_ne_nil _ _)
        case refine_1 =>
          by_contra hn
          exact nonempty (decide_eq_false hn) hx
        rw [← he, List.count_nil] at positive
        exact absurd positive (Nat.lt_irrefl 0)
      case cons e x' =>
        cases split
        refine refused x' hx.tail ?_ hm
        rw [List.count_cons, List.count_cons] at he
        simpa [same] using he

-- Two spellings of a pattern.
theorem spelled_cons {q : Text} (h : (c :: rest).map fold = q.map fold) :
    ∃ d q', q = d :: q' ∧ fold d = fold c ∧ rest.map fold = q'.map fold := by
  obtain ⟨d, q', rfl, hd, hq⟩ := List.map_eq_cons_iff.mp h.symm
  exact ⟨d, q', rfl, hd, hq.symm⟩

theorem spelled_head {q : Text} (hc : c < 128) (hl : isLetter c = false)
    (h : rest.map fold = q.map fold) (hr : rest.head? ≠ some c) : q.head? ≠ some c := by
  intro hq
  obtain ⟨q', rfl⟩ := List.head?_eq_some_iff.mp hq
  obtain ⟨d, rest', rfl, hd, _⟩ := spelled_cons h.symm
  exact hr (by rw [caseless hc hl hd]; rfl)

theorem regexMatches_congr {q : Text} (h : p.map fold = q.map fold) :
    regexMatches (toRegex p) s ↔ regexMatches (toRegex q) s := by
  induction p using pattern_induction generalizing q s
  case nil => rw [List.map_eq_nil_iff.mp h.symm]
  case components rest ih =>
    obtain ⟨d, q, rfl, hd, h⟩ := spelled_cons h
    obtain ⟨d', q, rfl, hd', h⟩ := spelled_cons h
    obtain ⟨e, q, rfl, he, tails⟩ := spelled_cons h
    obtain rfl := caseless (by decide) (by decide) hd
    obtain rfl := caseless (by decide) (by decide) hd'
    obtain rfl := eq_slash_of_fold he
    rw [toRegex_components, toRegex_components, regexMatches, regexMatches, skip_iff, skip_iff]
    simp only [ih tails]
  case double rest hr ih =>
    obtain ⟨d, q, rfl, hd, h⟩ := spelled_cons h
    obtain ⟨d', q, rfl, hd', tails⟩ := spelled_cons h
    obtain rfl := caseless (by decide) (by decide) hd
    obtain rfl := caseless (by decide) (by decide) hd'
    rw [toRegex_double hr, toRegex_double (spelled_head (by decide) (by decide) tails hr), regexMatches,
      regexMatches, skip_iff, skip_iff]
    simp only [ih tails]
  case run rest hr ih =>
    obtain ⟨d, q, rfl, hd, tails⟩ := spelled_cons h
    obtain rfl := caseless (by decide) (by decide) hd
    rw [toRegex_run hr, toRegex_run (spelled_head (by decide) (by decide) tails hr), regexMatches,
      regexMatches, skip_iff, skip_iff]
    simp only [ih tails]
  case one rest ih =>
    obtain ⟨d, q, rfl, hd, tails⟩ := spelled_cons h
    obtain rfl := caseless (by decide) (by decide) hd
    rw [toRegex_one, toRegex_one, one_iff, one_iff]
    simp only [ih tails]
  case literal c rest ha hq ih =>
    obtain ⟨d, q, rfl, hd, h⟩ := spelled_cons h
    have ha' : d ≠ asterisk := by
      rintro rfl
      exact ha (caseless (by decide) (by decide) hd.symm)
    have hq' : d ≠ question := by
      rintro rfl
      exact hq (caseless (by decide) (by decide) hd.symm)
    rw [toRegex_literal ha hq, toRegex_literal ha' hq', literal_iff, literal_iff]
    simp only [ih h, hd]

-- A newline of the pattern takes a newline of the text.
theorem newline_of_regexMatches (hp : newline ∈ p) (h : regexMatches (toRegex p) s) : newline ∈ s := by
  have star : newline ≠ asterisk := by decide
  induction p using pattern_induction generalizing s
  case nil => contradiction
  case components rest ih =>
    rw [toRegex_components, regexMatches, skip_iff] at h
    obtain ⟨t, s', rfl, _, hm⟩ := h
    have hp := List.mem_of_ne_of_mem star (List.mem_of_ne_of_mem star hp)
    exact List.mem_append_right _ (ih (List.mem_of_ne_of_mem (by decide) hp) hm)
  case double rest hr ih =>
    rw [toRegex_double hr, regexMatches, skip_iff] at h
    obtain ⟨t, s', rfl, _, hm⟩ := h
    have hp := List.mem_of_ne_of_mem star (List.mem_of_ne_of_mem star hp)
    exact List.mem_append_right _ (ih hp hm)
  case run rest hr ih =>
    rw [toRegex_run hr, regexMatches, skip_iff] at h
    obtain ⟨t, s', rfl, _, hm⟩ := h
    exact List.mem_append_right _ (ih (List.mem_of_ne_of_mem star hp) hm)
  case one rest ih =>
    rw [toRegex_one, one_iff] at h
    obtain ⟨d, s', rfl, _, hm⟩ := h
    exact .tail _ (ih (List.mem_of_ne_of_mem (by decide) hp) hm)
  case literal c rest ha hq ih =>
    rw [toRegex_literal ha hq, literal_iff] at h
    obtain ⟨d, s', rfl, hf, hm⟩ := h
    rcases List.mem_cons.mp hp with rfl | hp
    case inl => rw [caseless (by decide) (by decide) hf]; exact List.mem_cons_self
    case inr => exact .tail _ (ih hp hm)

theorem newline_of_accepts {ts : List Wildcard} (hp : .literal newline ∈ ts) (h : Accepts b ts s) :
    newline ∈ s := by
  induction ts generalizing b s
  case nil => contradiction
  case cons w ts ih =>
    cases w
    case literal c =>
      obtain ⟨d, s', rfl, hf, hm⟩ := h
      rcases List.mem_cons.mp hp with he | hp
      case inl => cases he; rw [caseless (by decide) (by decide) hf]; exact List.mem_cons_self
      case inr => exact .tail _ (ih hp hm)
    case one =>
      obtain ⟨d, s', rfl, _, hm⟩ := h
      exact .tail _ (ih ((List.mem_cons.mp hp).resolve_left (by simp)) hm)
    case run =>
      obtain ⟨t, s', rfl, _, hm⟩ := h
      exact List.mem_append_right _ (ih ((List.mem_cons.mp hp).resolve_left (by simp)) hm)
    case components =>
      have hp := (List.mem_cons.mp hp).resolve_left (by simp)
      rcases h with h | ⟨_, parts, s', _, rfl, hm⟩
      case inl => exact ih hp h
      case inr => exact List.mem_append_right _ (ih hp hm)
    case rest =>
      obtain ⟨t, s', rfl, hm⟩ := h
      exact List.mem_append_right _ (ih ((List.mem_cons.mp hp).resolve_left (by simp)) hm)

theorem Cache.getOrAdd_regex (cache : Cache) :
    regexMatches (cache.getOrAdd p).1 s ↔ regexMatches (toRegex p) s := by
  unfold getOrAdd
  split
  case h_1 items hl =>
    obtain ⟨q, hq, rfl⟩ := cache.compiled hl
    exact regexMatches_congr hq
  case h_2 => rfl

theorem isMatch_iff {cache : Cache} {pattern path name : Text}
    (h : isExpression (trim pattern) = false) :
    (isMatch cache pattern path name).1 ↔ trim pattern ≠ [] ∧
      regexMatches (toRegex (normalize (trim pattern)))
        (if slash ∈ normalize (trim pattern) then normalize path else name) := by
  unfold isMatch
  dsimp only
  split
  case isTrue he => simp [he]
  case isFalse he =>
    rw [h]
    simp only [Bool.false_eq_true, if_false, ne_eq, he, not_false_eq_true, true_and]
    exact cache.getOrAdd_regex

-- A name of a file, without newlines.
structure FileName (name : Text) : Prop where
  nonempty  : name ≠ []
  component : slash ∉ name
  line      : newline ∉ name

-- The pattern is taken for what it means, whatever has been cached.
def Agrees (pattern : Text) : Prop :=
  ∀ (cache : Cache) (path name : Text), newline ∉ path → FileName name →
    ((isMatch cache pattern path name).1 ↔ GlobMatches pattern path name)

-- No `**/` takes a part of a component.
def Whole (p : Text) : Prop :=
  newline ∈ p ∨ slash ∉ p ∨ wholeStars true p ∧ starred p

theorem Agrees.of_whole {pattern : Text} (h : isExpression (trim pattern) = false)
    (hw : Whole (normalize (trim pattern))) : Agrees pattern := by
  intro cache path name hp hn
  rw [isMatch_iff h, GlobMatches]
  by_cases he : trim pattern = []
  case pos =>
    have empty : ¬Accepts true (parse (normalize [])) name := hn.nonempty
    simpa [he, show normalize [] = [] from rfl] using empty
  case neg =>
    rw [and_iff_right he]
    have line : newline ∉ if slash ∈ normalize (trim pattern) then normalize path else name := by
      split
      case isTrue  => exact newline_normalize hp
      case isFalse => exact hn.line
    rcases hw with hw | hw | ⟨hw, hs⟩
    case inl =>
      exact iff_of_false (fun h => line (newline_of_regexMatches hw h))
        fun h => line (newline_of_accepts (literal_mem_parse hw) h)
    case inr.inl =>
      rw [if_neg hw] at line ⊢
      rw [regexMatches_iff_name hw hn.component line, accepts_iff_name true hw hn.component]
    case inr.inr => exact regexMatches_iff_accepts hw hs line

-- Among the patterns in which every `**` is a component, these are all.
theorem agrees_iff_whole (pattern : Text) (h : isExpression (trim pattern) = false) :
    (Whole (normalize (trim pattern)) → Agrees pattern) ∧
    (wholeStars true (normalize (trim pattern)) →
      (Agrees pattern ↔ Whole (normalize (trim pattern)))) := by
  refine ⟨Agrees.of_whole h, fun hw => ⟨fun agrees => ?_, Agrees.of_whole h⟩⟩
  by_contra hn
  simp only [Whole, not_or, not_and, Decidable.not_not] at hn
  obtain ⟨line, some_slash, bad⟩ := hn
  obtain ⟨x, z, mem, matched, closed, _, _, refused⟩ := exists_difference hw
    (Bool.not_eq_true _ ▸ bad hw)
  have plain {c : UInt16} (hc : c ∉ normalize (trim pattern)) (h48 : c ≠ 48) (h49 : c ≠ 49) :
      c ∉ x ++ z := by
    intro hm
    rcases mem c hm with h | h | h
    case inl     => exact hc h
    case inr.inl => exact h48 h
    case inr.inr => exact h49 h
  have path := normalize_of_not_mem (plain backslash_normalize (by decide) (by decide))
  have name : FileName [48] := ⟨by simp, by decide, by decide⟩
  have means := agrees .empty (x ++ z) [48] (plain line (by decide) (by decide)) name
  have nonempty : trim pattern ≠ [] := by
    intro he
    rw [he] at some_slash
    exact List.not_mem_nil some_slash
  rw [isMatch_iff h, GlobMatches, if_pos some_slash, path] at means
  exact refused x closed rfl (means.mp ⟨nonempty, matched⟩)

end

-- Letters are equal to their capitals.
@[reducible] def ascii : DotNet where
  fold c           := if 65 ≤ c ∧ c ≤ 90 then c + 32 else c
  isRegexMatch _ _ := false
  caseless {c d} hc hl hf := by
    simp only [isLetter, Bool.or_eq_false_iff, Bool.and_eq_false_iff, decide_eq_false_iff_not] at hl
    grind

-- `**/.git/**`.
def gitPattern : Text :=
  [asterisk, asterisk, slash, 46, 103, 105, 116, slash, asterisk, asterisk]

-- `*.tmp`.
def tmpPattern : Text :=
  [asterisk, 46, 116, 109, 112]

-- `project.git/config`.
def projectPath : Text :=
  [112, 114, 111, 106, 101, 99, 116, 46, 103, 105, 116, slash, 99, 111, 110, 102, 105, 103]

theorem agrees_iff_whole_git : @Agrees ascii tmpPattern ∧ ¬@Agrees ascii gitPattern := by
  let := ascii
  refine ⟨(agrees_iff_whole tmpPattern (by decide)).left (.inr (.inl (by decide))), ?_⟩
  rw [(agrees_iff_whole gitPattern (by decide)).right (by decide)]
  unfold Whole
  decide

-- The file is excluded, although no component of its path is `.git`.
theorem git_pattern_takes_project :
    (@isMatch ascii (@Cache.empty ascii) gitPattern projectPath [99, 111, 110, 102, 105, 103]).1 ∧
      ¬@GlobMatches ascii gitPattern projectPath [99, 111, 110, 102, 105, 103] := by
  let := ascii
  refine ⟨by decide, fun h => ?_⟩
  obtain ⟨d, s', he, hf, _⟩ := accepts_components h (by decide)
  cases he
  exact absurd hf (by decide)

end MyDrive.Filtering
