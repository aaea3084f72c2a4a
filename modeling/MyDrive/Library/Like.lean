import Mathlib.Data.List.Infix

-- The patterns of `LIKE`, with the backslash as escape character.

namespace Like

def isSpecial (c : Char) : Bool :=
  c = '%' || c = '_' || c = '\\'

-- A pattern that ends in its escape character is an error of the database and matches nothing here.
def like : List Char → List Char → Bool
  | [],            text => text.isEmpty
  | '%' :: p,      text => text.tails.any (like p)
  | '_' :: p,      text =>
    match text with
    | []        => false
    | _ :: text => like p text
  | ['\\'],        _    => false
  | '\\' :: c :: p, text =>
    match text with
    | []        => false
    | d :: text => c = d && like p text
  | c :: p,        text =>
    match text with
    | []        => false
    | d :: text => c = d && like p text

def escape (text : List Char) : List Char :=
  text.flatMap fun c => if isSpecial c then ['\\', c] else [c]

-- Every escape character has a character after it.
def Complete : List Char → Prop
  | []             => True
  | ['\\']         => False
  | '\\' :: _ :: p => Complete p
  | _ :: p         => Complete p

variable {c : Char} {a b p q text : List Char}

theorem like_nil : like [] text ↔ text = [] :=
  List.isEmpty_iff

theorem like_run : like ('%' :: p) text ↔ ∃ run rest, text = run ++ rest ∧ like p rest := by
  have step : like ('%' :: p) text = text.tails.any (like p) := rfl
  rw [step, List.any_eq_true]
  constructor
  case mp =>
    rintro ⟨rest, hr, h⟩
    obtain ⟨run, rfl⟩ := (List.mem_tails _ _).mp hr
    exact ⟨run, rest, rfl, h⟩
  case mpr =>
    rintro ⟨run, rest, rfl, h⟩
    exact ⟨rest, (List.mem_tails _ _).mpr ⟨run, rfl⟩, h⟩

theorem like_escaped : like ('\\' :: c :: p) text ↔ ∃ rest, text = c :: rest ∧ like p rest := by
  cases text
  case nil =>
    have step : like ('\\' :: c :: p) [] = false := rfl
    simp [step]
  case cons d text =>
    have step : like ('\\' :: c :: p) (d :: text) = (decide (c = d) && like p text) := rfl
    simp only [step, Bool.and_eq_true, decide_eq_true_eq, List.cons.injEq]
    constructor
    case mp =>
      rintro ⟨rfl, h⟩
      exact ⟨text, ⟨rfl, rfl⟩, h⟩
    case mpr =>
      rintro ⟨_, ⟨rfl, rfl⟩, h⟩
      exact ⟨rfl, h⟩

theorem like_plain (hc : isSpecial c = false) : like (c :: p) text ↔ ∃ rest, text = c :: rest ∧ like p rest := by
  simp only [isSpecial, Bool.or_eq_false_iff, decide_eq_false_iff_not] at hc
  obtain ⟨⟨percent, underscore⟩, backslash⟩ := hc
  have step : like (c :: p) text = text.casesOn false fun d text => decide (c = d) && like p text := by
    rw [like.eq_def]
    split
    case h_1 he => cases he
    case h_2 he => cases he; exact absurd rfl percent
    case h_3 he => cases he; exact absurd rfl underscore
    case h_4 he => cases he; exact absurd rfl backslash
    case h_5 he => cases he; exact absurd rfl backslash
    case h_6 he => cases he; split <;> rfl
  cases text
  case nil => simp [step]
  case cons d text =>
    simp only [step, Bool.and_eq_true, decide_eq_true_eq, List.cons.injEq]
    constructor
    case mp =>
      rintro ⟨rfl, h⟩
      exact ⟨text, ⟨rfl, rfl⟩, h⟩
    case mpr =>
      rintro ⟨_, ⟨rfl, rfl⟩, h⟩
      exact ⟨rfl, h⟩

theorem escape_cons : escape (c :: q) = (if isSpecial c then ['\\', c] else [c]) ++ escape q :=
  List.flatMap_cons

theorem escape_of_plain (h : ∀ c ∈ text, isSpecial c = false) : escape text = text := by
  induction text
  case nil => rfl
  case cons c text ih =>
    obtain ⟨hc, ht⟩ := List.forall_mem_cons.mp h
    rw [escape_cons, hc, ih ht]
    rfl

theorem escape_append : escape (a ++ b) = escape a ++ escape b :=
  List.flatMap_append

-- An escaped text stands for itself at the front of a pattern.
theorem like_escape_append : like (escape q ++ p) text ↔ ∃ rest, text = q ++ rest ∧ like p rest := by
  induction q generalizing text
  case nil => simp [escape]
  case cons c q ih =>
    have one : like (escape (c :: q) ++ p) text ↔ ∃ rest, text = c :: rest ∧ like (escape q ++ p) rest := by
      rw [escape_cons]
      split
      case isTrue       => exact like_escaped
      case isFalse hc => exact like_plain (Bool.eq_false_iff.mpr hc)
    rw [one]
    constructor
    case mp =>
      rintro ⟨_, rfl, h⟩
      obtain ⟨rest, rfl, hp⟩ := ih.mp h
      exact ⟨rest, rfl, hp⟩
    case mpr =>
      rintro ⟨rest, rfl, h⟩
      exact ⟨q ++ rest, rfl, ih.mpr ⟨rest, rfl, h⟩⟩

theorem like_any : like ['%'] text := by
  rw [like_run]
  exact ⟨text, [], (List.append_nil text).symm, like_nil.mpr rfl⟩

-- The pattern that finds a text anywhere.
theorem like_contains : like ('%' :: (escape q ++ ['%'])) text ↔ q <:+: text := by
  rw [like_run]
  constructor
  case mp =>
    rintro ⟨run, rest, rfl, h⟩
    obtain ⟨after, rfl, -⟩ := like_escape_append.mp h
    exact ⟨run, after, List.append_assoc ..⟩
  case mpr =>
    rintro ⟨run, after, rfl⟩
    exact ⟨run, q ++ after, List.append_assoc .., like_escape_append.mpr ⟨after, rfl, like_any⟩⟩

theorem complete_cons (hc : isSpecial c = false) : Complete (c :: p) ↔ Complete p := by
  simp only [isSpecial, Bool.or_eq_false_iff, decide_eq_false_iff_not] at hc
  rw [Complete.eq_def]
  split
  case h_1 he => cases he
  case h_2 he => cases he; exact absurd rfl hc.right
  case h_3 he => cases he; exact absurd rfl hc.right
  case h_4 he => cases he; rfl

theorem complete_escape_append (h : Complete p) : Complete (escape q ++ p) := by
  induction q
  case nil => exact h
  case cons c q ih =>
    rw [escape_cons]
    split
    case isTrue       => exact ih
    case isFalse hc => exact (complete_cons (Bool.eq_false_iff.mpr hc)).mpr ih

end Like
