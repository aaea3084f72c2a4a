import Mathlib.Data.List.Forall2
import Mathlib.Data.List.TakeWhile
import MyDrive.Backup.Theorems.Redactor

-- The strings of JSON messages, as the words of the token alphabet and what stands between them.

namespace MyDrive.Backup.Redactor

open Culture

variable {C : Culture} {prev : Option Char} {b s : List Char}

structure Word (C : Culture) where
  chars : List Char
  token : ∀ c ∈ chars, C.isToken c

-- A character or an escape between two words. The escape of a quote is not one of them.
inductive Mark (C : Culture)
  | plain (c : Char) (apart : C.isToken c = false) (bare : c ≠ '"' ∧ c ≠ '\\')
  | escape (c : Char) (known : c ∈ "\\/bfnrt".toList)
  | hex (digits : List Char) (four : digits.length = 4) (hex : ∀ c ∈ digits, c ∈ "0123456789abcdefABCDEF".toList)

namespace Mark

def text : Mark C → List Char
  | plain c _ _    => [c]
  | escape c _     => ['\\', c]
  | hex digits _ _ => '\\' :: 'u' :: digits

def digit (c : Char) : Nat :=
  if c.isDigit then c.toNat - '0'.toNat else c.toLower.toNat - 'a'.toNat + 10

-- The UTF-16 code that a mark means.
def code : Mark C → Nat
  | plain c _ _    => c.toNat
  | escape c _     => ("bfnrt".toList.zip [8, 12, 10, 13, 9] |>.lookup c).getD c.toNat
  | hex digits _ _ => digits.foldl (fun n c => 16 * n + digit c) 0

-- A word character that ends the text of a mark hides the start of a word behind it.
def WordEnd (m : Mark C) : Prop :=
  m.text.getLast?.any C.isWord

theorem text_eq (m : Mark C) : ∃ c e, m.text = c :: e ∧ C.isToken c = false ∧
    (∀ d ∈ e, C.same 'm' d = false) ∧ '"' ∉ c :: e := by
  cases m
  case plain c apart bare => exact ⟨c, [], rfl, apart, by simp, by simpa using bare.left.symm⟩
  case escape c known =>
    refine ⟨'\\', [c], rfl, not_isToken_backslash, ?_, ?_⟩
    case refine_1 =>
      have letters : ("\\/bfnrt".toList).all fun c => c.toNat < 128 ∧ 'm'.toLower ≠ c.toLower := by decide
      intro d hd
      obtain ⟨ascii, other⟩ := of_decide_eq_true (List.all_eq_true.mp letters c known)
      rw [List.mem_singleton.mp hd, C.same_ascii 'm' c (by decide) ascii, decide_eq_false other]
    case refine_2 =>
      have letters : ("\\/bfnrt".toList).all fun c => '"' ∉ ['\\', c] := by decide
      exact of_decide_eq_true (List.all_eq_true.mp letters c known)
  case hex digits four hex =>
    refine ⟨'\\', 'u' :: digits, rfl, not_isToken_backslash, ?_, ?_⟩
    case refine_1 =>
      have letters : ('u' :: "0123456789abcdefABCDEF".toList).all fun c =>
          c.toNat < 128 ∧ 'm'.toLower ≠ c.toLower := by
        decide
      intro d hd
      have inside : d ∈ 'u' :: "0123456789abcdefABCDEF".toList := by
        rcases List.mem_cons.mp hd with rfl | hd
        case inl => exact List.mem_cons_self
        case inr => exact .tail _ (hex d hd)
      obtain ⟨ascii, other⟩ := of_decide_eq_true (List.all_eq_true.mp letters d inside)
      rw [C.same_ascii 'm' d (by decide) ascii, decide_eq_false other]
    case refine_2 =>
      intro hq
      have := hex '"' (List.mem_of_ne_of_mem (by decide) (List.mem_of_ne_of_mem (by decide) hq))
      revert this
      decide

theorem tokens_text (m : Mark C) : C.tokens prev (b ++ (m.text ++ s)) =
    C.tokens prev b ++ (m.text ++ C.tokens m.text.getLast? s) := by
  obtain ⟨c, e, he, apart, other, -⟩ := m.text_eq
  have last : (c :: e).getLast? = e.getLast?.or (some c) := by
    cases e <;> simp [List.getLast?_cons]
  rw [he, List.cons_append, tokens_break apart, tokens_copy other, last, List.cons_append]

end Mark

-- A text without quotes: words, from the first one on with a mark before each other.
structure Part (C : Culture) where
  first : Word C
  rest  : List (Mark C × Word C)

def tokenPrefixes : List (List Char) :=
  ["mdb_", "mdr_", "mdk_"].map String.toList

namespace Word

def IsToken (w : Word C) : Prop :=
  ∃ p ∈ tokenPrefixes, ∃ x, x ≠ [] ∧ w.chars = p ++ x

-- The same word, or two tokens of one form, at the start of the word or behind one and the same text and a hyphen.
inductive Similar : Word C → Word C → Prop
  | refl (w : Word C) : Similar w w
  | token {p x x' : List Char} {w w' : Word C} : p ∈ tokenPrefixes → x ≠ [] → x' ≠ [] → w.chars = p ++ x →
    w'.chars = p ++ x' → Similar w w'
  | inner {l p x x' : List Char} {w w' : Word C} : p ∈ tokenPrefixes → x ≠ [] → x' ≠ [] →
    w.chars = l ++ '-' :: (p ++ x) → w'.chars = l ++ '-' :: (p ++ x') → Similar w w'

theorem not_mem_quote (w : Word C) : '"' ∉ w.chars := by
  intro hq
  have := w.token '"' hq
  rw [not_isToken_quote] at this
  cases this

theorem prefix_shape {p : List Char} (hp : p ∈ tokenPrefixes) : ∃ k ∈ ['b', 'r', 'k'], p = ['m', 'd', k, '_'] := by
  have shapes : tokenPrefixes = ['b', 'r', 'k'].map (['m', 'd', ·, '_']) := by decide
  rw [shapes] at hp
  obtain ⟨k, hk, rfl⟩ := List.mem_map.mp hp
  exact ⟨k, hk, rfl⟩

theorem Similar.eq {w w' : Word C} (h : w.Similar w') (plain : 'm' ∉ w'.chars) : w = w' := by
  have inside {l p x : List Char} (hp : p ∈ tokenPrefixes) : 'm' ∈ l ++ (p ++ x) := by
    obtain ⟨k, -, rfl⟩ := prefix_shape hp
    exact List.mem_append_right _ List.mem_cons_self
  cases h
  case refl => rfl
  case token p x x' hp hx hx' hw hw' => exact absurd (hw' ▸ @inside [] p x' hp) plain
  case inner l p x x' hp hx hx' hw hw' =>
    rw [hw', List.append_cons] at plain
    exact absurd (@inside (l ++ ['-']) p x' hp) plain

theorem same_self {c : Char} (h : c.toNat < 128) : C.same c c := by
  rw [C.same_ascii c c h h]
  simp

theorem isToken_of_mem {c : Char} (h : c ∈ tokenChars) : C.isToken c := by
  have ascii : tokenChars.all (·.toNat < 128) := by decide
  exact isToken_of_same h (same_self (of_decide_eq_true (List.all_eq_true.mp ascii c h)))

-- The first pattern goes on to the end of a word.
theorem findToken_run {m d k u : Char} {r : List Char} (hr : ∀ c ∈ r, C.isToken c) (hne : r ≠ []) :
    C.findToken prev (m :: d :: k :: u :: r) = if C.boundary prev m && C.same 'm' m && C.same 'd' d &&
      ['b', 'r', 'k'].any (C.same · k) && C.same '_' u then some (redacted, (d :: k :: u :: r).length) else none := by
  have run : r.takeWhile C.isToken = r := List.takeWhile_eq_self_iff.mpr hr
  have nonempty : r.isEmpty = false := List.isEmpty_eq_false_iff.mpr hne
  have count : (d :: k :: u :: r).length = 3 + r.length := by
    simp only [List.length_cons]
    omega
  simp only [findToken, run, nonempty, count, Bool.not_false, Bool.and_true]

-- A token behind no word character goes.
theorem IsToken.tokens {w : Word C} (h : w.IsToken) (hp : prev.any C.isWord = false) :
    C.tokens prev w.chars = redacted := by
  obtain ⟨p, hpre, x, hx, hw⟩ := h
  obtain ⟨k, hk, rfl⟩ := prefix_shape hpre
  have all : ∀ c ∈ x, C.isToken c := fun c hc => w.token c (hw ▸ List.mem_append_right _ hc)
  have third : ['b', 'r', 'k'].any (C.same · k) := by
    have ascii : ['b', 'r', 'k'].all (·.toNat < 128) := by decide
    exact List.any_eq_true.mpr ⟨k, hk, same_self (of_decide_eq_true (List.all_eq_true.mp ascii k hk))⟩
  have word : C.isWord 'm' := by
    rw [C.word_ascii _ (by decide)]
    rfl
  have found := @findToken_run C prev 'm' 'd' k '_' x all hx
  rw [boundary, hp, word, third, @same_self C 'm' (by decide), @same_self C 'd' (by decide),
    @same_self C '_' (by decide)] at found
  rw [hw]
  exact Replace.scan_end found

-- What the first pattern makes of a word does not depend on the end of a token behind a hyphen.
theorem tokens_inner {l p x x' : List Char} (hp : p ∈ tokenPrefixes) (hx : x ≠ []) (hx' : x' ≠ [])
    (h : ∀ c ∈ l ++ '-' :: (p ++ x), C.isToken c) (h' : ∀ c ∈ l ++ '-' :: (p ++ x'), C.isToken c) :
    C.tokens prev (l ++ '-' :: (p ++ x)) = C.tokens prev (l ++ '-' :: (p ++ x')) := by
  obtain ⟨k, hk, rfl⟩ := prefix_shape hp
  induction l generalizing prev
  case nil =>
    have other : C.same 'm' '-' = false := by
      rw [C.same_ascii _ _ (by decide) (by decide)]
      decide
    have hyphen : (some '-').any C.isWord = false := by
      rw [Option.any_some, C.word_ascii _ (by decide)]
      rfl
    have behind {x : List Char} (hx : x ≠ []) (h : ∀ c ∈ '-' :: (['m', 'd', k, '_'] ++ x), C.isToken c) :
        C.tokens (some '-') (['m', 'd', k, '_'] ++ x) = redacted :=
      IsToken.tokens (w := ⟨_, fun c hc => h c (.tail _ hc)⟩) ⟨_, hp, x, hx, rfl⟩ hyphen
    have first {x : List Char} : C.tokens prev ('-' :: (['m', 'd', k, '_'] ++ x)) =
        '-' :: C.tokens (some '-') (['m', 'd', k, '_'] ++ x) :=
      Replace.scan_none (findToken_none other)
    rw [List.nil_append, List.nil_append, first, first, behind hx h, behind hx' h']
  case cons c l ih =>
    have tail : ∀ c ∈ l ++ '-' :: (['m', 'd', k, '_'] ++ x), C.isToken c := fun c hc => h c (.tail _ hc)
    have tail' : ∀ c ∈ l ++ '-' :: (['m', 'd', k, '_'] ++ x'), C.isToken c := fun c hc => h' c (.tail _ hc)
    have rest := @ih (some c) tail tail'
    obtain ⟨d, e, u, r, r', shape, shape', hr, hr'⟩ : ∃ d e u r r', l ++ '-' :: (['m', 'd', k, '_'] ++ x) = d :: e :: u :: r ∧
        l ++ '-' :: (['m', 'd', k, '_'] ++ x') = d :: e :: u :: r' ∧ r ≠ [] ∧ r' ≠ [] := by
      rcases l with _ | ⟨d, _ | ⟨e, _ | ⟨u, l⟩⟩⟩
      all_goals exact ⟨_, _, _, _, _, rfl, rfl, by simp, by simp⟩
    rw [shape] at tail rest
    rw [shape'] at tail' rest
    rw [show c :: l ++ '-' :: (['m', 'd', k, '_'] ++ x) = c :: d :: e :: u :: r from congrArg (c :: ·) shape,
      show c :: l ++ '-' :: (['m', 'd', k, '_'] ++ x') = c :: d :: e :: u :: r' from congrArg (c :: ·) shape']
    have all : ∀ c ∈ r, C.isToken c := fun c hc => tail c (.tail _ (.tail _ (.tail _ hc)))
    have all' : ∀ c ∈ r', C.isToken c := fun c hc => tail' c (.tail _ (.tail _ (.tail _ hc)))
    have found := @findToken_run C prev c d e u r all hr
    have found' := @findToken_run C prev c d e u r' all' hr'
    split at found
    case isTrue hit  =>
      rw [if_pos hit] at found'
      exact (Replace.scan_end found).trans (Replace.scan_end found').symm
    case isFalse hit =>
      rw [if_neg hit] at found'
      exact (Replace.scan_none found).trans ((congrArg (c :: ·) rest).trans (Replace.scan_none found').symm)

-- A prefix with letters `a` behind it.
def sample (C : Culture) (p : List Char) (hp : p ∈ tokenPrefixes) (n : Nat) : Word C where
  chars := p ++ List.replicate (n + 1) 'a'
  token := by
    have known : tokenPrefixes.all fun p => p.all (· ∈ tokenChars) := by decide
    intro c hc
    rcases List.mem_append.mp hc with hc | hc
    case inl => exact isToken_of_mem (of_decide_eq_true (List.all_eq_true.mp (List.all_eq_true.mp known p hp) c hc))
    case inr =>
      rw [(List.mem_replicate.mp hc).right]
      exact isToken_of_mem (by decide)

-- Behind a word character it stays.
theorem tokens_sample {p : List Char} (hp : p ∈ tokenPrefixes) (n : Nat) (hw : prev.any C.isWord) :
    C.tokens prev (sample C p hp n).chars = p ++ List.replicate (n + 1) 'a' := by
  obtain ⟨k, hk, rfl⟩ := prefix_shape hp
  have word : C.isWord 'm' := by
    rw [C.word_ascii _ (by decide)]
    rfl
  have letters : ['b', 'r', 'k'].all fun k => ['d', k, '_', 'a'].all fun c => c.toNat < 128 ∧ 'm'.toLower ≠ c.toLower := by
    decide
  have other : ∀ c ∈ 'd' :: k :: '_' :: List.replicate (n + 1) 'a', C.same 'm' c = false := by
    intro c hc
    have inside : c ∈ ['d', k, '_', 'a'] := by
      rcases List.mem_append.mp (show c ∈ ['d', k, '_'] ++ List.replicate (n + 1) 'a' from hc) with hc | hc
      case inl => exact List.mem_append_left ['a'] hc
      case inr => exact (List.mem_replicate.mp hc).right ▸ (.tail _ (.tail _ (.tail _ (.head _))))
    obtain ⟨ascii, apart⟩ := of_decide_eq_true (List.all_eq_true.mp (List.all_eq_true.mp letters k hk) c inside)
    rw [C.same_ascii 'm' c (by decide) ascii, decide_eq_false apart]
  have stays : C.findToken prev ('m' :: 'd' :: k :: '_' :: List.replicate (n + 1) 'a') = none := by
    simp only [findToken, boundary, hw, word]
    rfl
  have copied := @tokens_plain C (some 'm') _ other
  exact (Replace.scan_none stays).trans (congrArg ('m' :: ·) copied)

theorem Similar.tokens {w w' : Word C} (h : w.Similar w') (hb : w.IsToken → prev.any C.isWord = false) :
    C.tokens prev w.chars = C.tokens prev w'.chars := by
  cases h
  case refl => rfl
  case inner l p x x' hp hx hx' hw hw' =>
    rw [hw, hw']
    exact tokens_inner hp hx hx' (hw ▸ w.token) (hw' ▸ w'.token)
  case token p x x' hp hx hx' hw hw' =>
    have token : w.IsToken := ⟨p, hp, x, hx, hw⟩
    have token' : w'.IsToken := ⟨p, hp, x', hx', hw'⟩
    rw [token.tokens (hb token), token'.tokens (hb token)]

theorem similar_sample {p x : List Char} {w : Word C} (hp : p ∈ tokenPrefixes) (hx : x ≠ []) (hw : w.chars = p ++ x)
    (n : Nat) : w.Similar (sample C p hp n) :=
  .token hp hx (List.cons_ne_nil _ _) hw rfl

end Word

namespace Part

def text (p : Part C) : List Char :=
  p.first.chars ++ p.rest.flatMap fun a => a.1.text ++ a.2.chars

def codes (p : Part C) : List Nat :=
  p.first.chars.map Char.toNat ++ p.rest.flatMap fun a => a.1.code :: a.2.chars.map Char.toNat

def Similar (p p' : Part C) : Prop :=
  p.first.Similar p'.first ∧ List.Forall₂ (fun a b => a.1 = b.1 ∧ a.2.Similar b.2) p.rest p'.rest

-- No token has a word character before it.
def Bounded (p : Part C) : Prop :=
  ∀ a ∈ p.rest, a.2.IsToken → ¬a.1.WordEnd

theorem Similar.refl (p : Part C) : p.Similar p :=
  ⟨.refl _, List.forall₂_same.mpr fun _ _ => ⟨rfl, .refl _⟩⟩

-- The text of a part behind the first pass.
def left (p : Part C) : List Char :=
  C.tokens none p.first.chars ++ p.rest.flatMap fun a => a.1.text ++ C.tokens a.1.text.getLast? a.2.chars

theorem tokens_text (p : Part C) : C.tokens none p.text = p.left := by
  unfold text left
  generalize (none : Option Char) = prev
  generalize p.first = w
  induction p.rest generalizing prev w
  case nil           => simp
  case cons a rest ih =>
    rw [List.flatMap_cons, List.append_assoc, Mark.tokens_text, ih, List.flatMap_cons, List.append_assoc]

theorem Similar.left {p p' : Part C} (h : p.Similar p') (hb : p.Bounded) : p.left = p'.left := by
  obtain ⟨first, rest⟩ := h
  unfold Bounded at hb
  unfold Part.left
  rw [first.tokens fun _ => rfl]
  congr 1
  revert hb rest
  generalize p.rest = l
  generalize p'.rest = l'
  intro hb rest
  induction rest
  case nil => rfl
  case cons a b _ _ hab _ ih =>
    obtain ⟨head, tail⟩ := List.forall_mem_cons.mp hb
    rw [List.flatMap_cons, List.flatMap_cons, ih tail, hab.right.tokens fun token =>
      Bool.eq_false_iff.mpr (head token), hab.left]

-- Where a token has a word character before it, another token of its form leaves another text.
theorem exists_left_ne {p : Part C} (h : ¬p.Bounded) : ∃ p', p.Similar p' ∧ p.left ≠ p'.left := by
  simp only [Bounded, not_forall, not_not] at h
  obtain ⟨a, ha, ⟨q, hq, x, hx, hw⟩, behind⟩ := h
  obtain ⟨l, r, hr⟩ := List.append_of_mem ha
  let other (n : Nat) : Part C := { p with rest := l ++ (a.1, Word.sample C q hq n) :: r }
  have similar (n : Nat) : p.Similar (other n) := by
    refine ⟨.refl _, ?_⟩
    rw [hr]
    exact List.rel_append (List.forall₂_same.mpr fun _ _ => ⟨rfl, .refl _⟩)
      (.cons ⟨rfl, Word.similar_sample hq hx hw n⟩ (List.forall₂_same.mpr fun _ _ => ⟨rfl, .refl _⟩))
  have length (n : Nat) : (other n).left.length = (other 0).left.length + n := by
    simp only [other, Part.left, List.flatMap_append, List.flatMap_cons, List.length_append,
      Word.tokens_sample hq _ behind, List.length_replicate]
    omega
  by_cases same : p.left = (other 0).left
  case neg => exact ⟨other 0, similar 0, same⟩
  case pos =>
    refine ⟨other 1, similar 1, fun again => ?_⟩
    have := length 1
    rw [← again, same] at this
    omega

theorem not_mem_quote (p : Part C) : '"' ∉ p.text := by
  intro hq
  rcases List.mem_append.mp hq with hq | hq
  case inl => exact p.first.not_mem_quote hq
  case inr =>
    obtain ⟨a, -, ha⟩ := List.mem_flatMap.mp hq
    rcases List.mem_append.mp ha with ha | ha
    case inl =>
      obtain ⟨c, e, he, -, -, absent⟩ := a.1.text_eq
      exact absent (he ▸ ha)
    case inr => exact a.2.not_mem_quote ha

end Part

end MyDrive.Backup.Redactor
