import MyDrive.Backup.Theorems.Redaction

-- Messages that differ in their secrets alone, and when their redacted texts are the same.

namespace MyDrive.Backup.Redactor

open Culture

variable {C : Culture} {s t : List Char} {ts vs : List (List Char)}

-- Two strings or fields that differ in their secrets alone: the string of a secret field, and what stands behind the
-- prefix of a token.
inductive Item.Similar : Item C → Item C → Prop
  | string {s t : JsonString C} : s.Similar t → Similar (.string s) (.string t)
  | secret {n v w : JsonString C} {colon : Colon} : n.Secret → Similar (.member n colon v) (.member n colon w)
  | member {m n v w : JsonString C} {colon : Colon} :
    ¬n.Secret → n.Similar m → v.Similar w → Similar (.member n colon v) (.member m colon w)

def Document.Similar (d d' : Document C) : Prop :=
  d.start = d'.start ∧ List.Forall₂ (fun a b => a.1.Similar b.1 ∧ a.2 = b.2) d.items d'.items

-- No escaped quote is in the string of a secret field.
def Item.Closed : Item C → Prop
  | string _     => True
  | member n _ v => n.Secret → v.more = []

def Document.Closed (d : Document C) : Prop :=
  ∀ a ∈ d.items, a.1.Closed

-- A text without escapes.
def JsonString.Plain (s : JsonString C) : Prop :=
  s.first.rest = []

-- A secret field has a plain name and a string without escaped quotes. In all other texts no token has a word
-- character before it, but for what the second pattern takes.
inductive Item.Guarded : Item C → Prop
  | string {s : JsonString C} : s.Bounded → Guarded (.string s)
  | secret {n v : JsonString C} {colon : Colon} : n.Secret → n.Plain → v.more = [] → Guarded (.member n colon v)
  | member {n v : JsonString C} {colon : Colon} : ¬n.Secret → n.Bounded → (n.hides = false → v.first.Bounded) →
    (∀ p ∈ v.more, p.Bounded) → Guarded (.member n colon v)

def Document.Guarded (d : Document C) : Prop :=
  ∀ a ∈ d.items, a.1.Guarded

theorem tail_escapeQuotes : (escapeQuotes s ts).tail = (escapeQuotes t ts).tail := by
  cases ts <;> rfl

theorem tail_escapeQuotes_inj (h : (escapeQuotes s ts).tail = (escapeQuotes t vs).tail) : ts = vs := by
  cases ts
  case nil =>
    cases vs
    case nil => rfl
    case cons => exact absurd (congrArg List.length h) (by simp [escapeQuotes, length_escapeQuotes])
  case cons =>
    cases vs
    case nil => exact absurd (congrArg List.length h) (by simp [escapeQuotes, length_escapeQuotes])
    case cons =>
      obtain ⟨rfl, rfl⟩ := escapeQuotes_inj h
      rfl

namespace JsonString

variable {m n : JsonString C}

theorem Similar.more (h : m.Similar n) (hb : ∀ p ∈ m.more, p.Bounded) : m.more.map Part.left = n.more.map Part.left := by
  obtain ⟨-, more⟩ := h
  revert more hb
  generalize m.more = l
  generalize n.more = l'
  intro hb more
  induction more
  case nil => rfl
  case cons p q _ _ hpq _ ih =>
    obtain ⟨head, tail⟩ := List.forall_mem_cons.mp hb
    rw [List.map_cons, List.map_cons, hpq.left head, ih tail]

theorem Similar.refl (n : JsonString C) : n.Similar n :=
  ⟨.refl _, List.forall₂_same.mpr fun _ _ => .refl _⟩

theorem Similar.exists_more_ne (h : ¬∀ p ∈ n.more, p.Bounded) :
    ∃ m, n.Similar m ∧ n.more.map Part.left ≠ m.more.map Part.left := by
  simp only [not_forall] at h
  obtain ⟨p, hp, unbounded⟩ := h
  obtain ⟨q, similar, other⟩ := Part.exists_left_ne unbounded
  obtain ⟨l, r, hr⟩ := List.append_of_mem hp
  refine ⟨{ n with more := l ++ q :: r }, ⟨.refl _, ?_⟩, ?_⟩
  case refine_1 =>
    rw [hr]
    exact List.rel_append (List.forall₂_same.mpr fun _ _ => .refl _)
      (.cons similar (List.forall₂_same.mpr fun _ _ => .refl _))
  case refine_2 =>
    rw [hr, List.map_append, List.map_append, List.map_cons, List.map_cons]
    intro same
    exact other (List.cons.inj (List.append_cancel_left same)).left

theorem Similar.exists_first_ne (h : ¬n.first.Bounded) : ∃ m, n.Similar m ∧ n.first.left ≠ m.first.left := by
  obtain ⟨q, similar, other⟩ := Part.exists_left_ne h
  exact ⟨{ n with first := q }, ⟨similar, List.forall₂_same.mpr fun _ _ => .refl _⟩, other⟩

theorem exists_left_ne (h : ¬n.Bounded) : ∃ m, n.Similar m ∧ n.left ≠ m.left := by
  rcases not_and_or.mp h with h | h
  case inl =>
    obtain ⟨m, similar, other⟩ := Similar.exists_first_ne h
    exact ⟨m, similar, fun same => other (escapeQuotes_inj same).left⟩
  case inr =>
    obtain ⟨m, similar, other⟩ := Similar.exists_more_ne h
    exact ⟨m, similar, fun same => other (escapeQuotes_inj same).right⟩

-- No secret name has the first letter of a token.
theorem Secret.no_token (h : n.Secret) : 'm' ∉ n.first.first.chars ∧ ∀ a ∈ n.first.rest, 'm' ∉ a.2.chars := by
  have letters : (secretNames.map (·.map Char.toNat)).all ('m'.toNat ∉ ·) := by decide
  have absent := of_decide_eq_true (List.all_eq_true.mp letters _ h.right)
  refine ⟨fun hm => absent (List.mem_append_left _ (List.mem_map_of_mem hm)), fun a ha hm => absent ?_⟩
  exact List.mem_append_right _ (List.mem_flatMap.mpr ⟨a, ha, .tail _ (List.mem_map_of_mem hm)⟩)

theorem eq_of_forall₂ {l l' : List (Mark C × Word C)} (h : List.Forall₂ (fun a b => a.1 = b.1 ∧ a.2.Similar b.2) l l')
    (plain : ∀ a ∈ l', 'm' ∉ a.2.chars) : l = l' := by
  induction h
  case nil => rfl
  case cons a b _ _ hab _ ih =>
    obtain ⟨head, tail⟩ := List.forall_mem_cons.mp plain
    rw [ih tail, Prod.ext hab.left (hab.right.eq head)]

theorem Secret.eq_of_similar (h : n.Secret) (hs : m.Similar n) : m = n := by
  obtain ⟨first, rest⟩ := h.no_token
  obtain ⟨⟨similar, others⟩, more⟩ := hs
  obtain ⟨⟨word, marks⟩, parts⟩ := m
  obtain ⟨⟨word', marks'⟩, parts'⟩ := n
  obtain rfl := similar.eq first
  obtain rfl := eq_of_forall₂ others rest
  obtain rfl : parts' = [] := h.left
  obtain rfl : parts = [] := List.forall₂_nil_right_iff.mp more
  rfl

theorem codes_of_plain (h : n.Secret) (hp : n.Plain) : n.first.left ∈ secretNames := by
  obtain ⟨name, hn, codes⟩ := List.mem_map.mp h.right
  unfold Plain at hp
  have chars : name = n.first.first.chars := by
    rw [Part.codes, hp, List.flatMap_nil, List.append_nil] at codes
    exact (List.map_injective_iff.mpr fun _ _ => Char.toNat_inj.mp) codes
  have other : secretNames.all fun name => name.all fun c => c.toNat < 128 ∧ 'm'.toLower ≠ c.toLower := by decide
  have copied : C.tokens none name = name := by
    refine tokens_plain fun c hc => ?_
    obtain ⟨ascii, apart⟩ := of_decide_eq_true (List.all_eq_true.mp (List.all_eq_true.mp other name hn) c hc)
    exact Bool.eq_false_iff.mpr (same_apart (by decide) ascii apart)
  rw [Part.left, hp, List.flatMap_nil, List.append_nil, ← chars, copied]
  exact hn

theorem sameText_self {name : List Char} (h : ∀ c ∈ name, c.toNat < 128) : C.sameText name name := by
  induction name
  case nil => rfl
  case cons c name ih =>
    obtain ⟨head, tail⟩ := List.forall_mem_cons.mp h
    exact Bool.and_eq_true_iff.mpr ⟨Word.same_self head, ih tail⟩

-- The second pattern knows the name of a secret field where it is written without escapes, and only there.
theorem Secret.hides_iff (h : n.Secret) : n.hides ↔ n.Plain := by
  have last : n.hides = C.isName n.first.left := by
    rw [hides, h.left]
    rfl
  have letters : secretNames.all fun name => name.all fun c => c.toNat < 128 ∧ c ∈ tokenChars := by decide
  rw [last]
  constructor
  case mp =>
    intro hn
    obtain ⟨name, known, same⟩ := List.any_eq_true.mp hn
    by_contra marked
    obtain ⟨a, ha⟩ := List.exists_mem_of_ne_nil _ marked
    obtain ⟨c, e, text, apart, -, -⟩ := a.1.text_eq
    have inside : c ∈ n.first.left := by
      refine List.mem_append_right _ (List.mem_flatMap.mpr ⟨a, ha, List.mem_append_left _ ?_⟩)
      rw [text]
      exact List.mem_cons_self
    obtain ⟨p, hp, hs⟩ := (mem_of_sameText same).right c inside
    obtain ⟨-, token⟩ := of_decide_eq_true (List.all_eq_true.mp (List.all_eq_true.mp letters name known) p hp)
    exact Bool.eq_false_iff.mp apart (isToken_of_same token hs)
  case mpr =>
    intro plain
    have known := codes_of_plain h plain
    refine List.any_eq_true.mpr ⟨_, known, sameText_self fun c hc => ?_⟩
    exact (of_decide_eq_true (List.all_eq_true.mp (List.all_eq_true.mp letters _ known) c hc)).left

end JsonString

namespace Item

variable {a b : Item C}

theorem Similar.refl (a : Item C) : a.Similar a := by
  cases a
  case string s => exact .string (.refl s)
  case member n colon v =>
    by_cases secret : n.Secret
    case pos => exact .secret secret
    case neg => exact .member secret (.refl n) (.refl v)

-- What is guarded leaves the same segments as all that differs from it in its secrets.
theorem Similar.left (h : a.Similar b) (ha : a.Guarded) (hb : b.Closed) : a.left = b.left := by
  cases h
  case string s t similar =>
    cases ha
    case string bounded =>
      exact congrArg₂ escapeQuotes (similar.left.left bounded.left) (similar.more bounded.right)
  case secret n v w colon secret =>
    cases ha
    case member other _ _ _ => exact absurd secret other
    case secret _ plain closed =>
      have one {w : JsonString C} (h : w.more = []) : w.left.tail = [] := by
        rw [JsonString.left, h]
        rfl
      rw [Item.left, Item.left, if_pos (secret.hides_iff.mpr plain), if_pos (secret.hides_iff.mpr plain), one closed,
        one (hb secret)]
  case member m n v w colon other names values =>
    cases ha
    case secret secret _ _ => exact absurd secret other
    case member _ bounded more first =>
      have firsts := names.left.left bounded.left
      have others := names.more bounded.right
      have parts := values.more more
      have name : n.left = m.left := congrArg₂ escapeQuotes firsts others
      have hidden : n.hides = m.hides := by
        rw [JsonString.hides, JsonString.hides, firsts, others]
      rw [Item.left, Item.left, name, ← hidden]
      cases hn : n.hides
      case true =>
        have tails : v.left.tail = w.left.tail := by
          rw [JsonString.left, JsonString.left, parts]
          exact tail_escapeQuotes
        rw [if_pos rfl, if_pos rfl, tails]
      case false =>
        have shown : v.left = w.left := congrArg₂ escapeQuotes (values.left.left (first hn)) parts
        rw [if_neg (by simp), if_neg (by simp), shown]

theorem exists_closed (a : Item C) : ∃ b : Item C, a.Similar b ∧ b.Closed ∧ b.left.length ≤ a.left.length ∧
    (b.left.length = a.left.length → a.Closed) := by
  cases a
  case string s => exact ⟨.string s, .refl _, trivial, le_rfl, fun _ => trivial⟩
  case member n colon v =>
    have length (w : JsonString C) : (Item.member n colon w).left.length = n.left.length + (w.more.length + 2) := by
      rw [left, List.length_append, List.length_cons]
      split <;> simp [JsonString.left, length_escapeQuotes]
    by_cases secret : n.Secret
    case neg => exact ⟨_, .refl _, fun h => absurd h secret, le_rfl, fun _ h => absurd h secret⟩
    case pos =>
      refine ⟨.member n colon { v with more := [] }, .secret secret, fun _ => rfl, ?_, fun same _ => ?_⟩
      case refine_1 =>
        rw [length, length]
        simp
      case refine_2 =>
        rw [length, length, List.length_nil] at same
        exact List.length_eq_zero_iff.mp (by omega)

-- A string of one word.
def letters (w : Word C) : JsonString C :=
  { first := { first := w, rest := [] }, more := [] }

theorem exists_letters_ne (segs : List (List Char)) : ∃ w : JsonString C, w.more = [] ∧ segs ≠ w.left := by
  have letter : ∀ c ∈ ['a'], C.isToken c := by
    intro c hc
    rw [List.mem_singleton.mp hc]
    exact Word.isToken_of_mem (by decide)
  have plain : (letters (C := C) ⟨['a'], letter⟩).left = [['a']] := by
    have copied : C.tokens none ['a'] = ['a'] := by
      refine tokens_plain fun c hc => ?_
      rw [List.mem_singleton.mp hc]
      exact Bool.eq_false_iff.mpr (same_apart (by decide) (by decide) (by decide))
    simp [JsonString.left, letters, escapeQuotes, Part.left, copied]
  by_cases same : segs = [['a']]
  case neg => exact ⟨_, rfl, fun h => same (h.trans plain)⟩
  case pos =>
    refine ⟨letters ⟨[], fun _ h => by cases h⟩, rfl, fun h => ?_⟩
    rw [same] at h
    simp [JsonString.left, letters, escapeQuotes, Part.left, tokens, Replace.scan] at h

-- What leaves the same segments as all that differs from it in its secrets is guarded.
theorem guarded_of_left (ha : a.Closed) (h : ∀ b : Item C, a.Similar b → b.Closed → a.left = b.left) : a.Guarded := by
  cases a
  case string s =>
    refine .string ?_
    by_contra unbounded
    obtain ⟨t, similar, other⟩ := JsonString.exists_left_ne unbounded
    exact other (h (.string t) (.string similar) trivial)
  case member n colon v =>
    by_cases secret : n.Secret
    case pos =>
      refine .secret secret (secret.hides_iff.mp ?_) (ha secret)
      by_contra shown
      obtain ⟨w, closed, other⟩ := exists_letters_ne (C := C) v.left
      have same := h (.member n colon w) (.secret secret) fun _ => closed
      rw [left, left, if_neg shown, if_neg shown] at same
      exact other (List.cons.inj (List.append_cancel_left same)).right
    case neg =>
      have name : n.Bounded := by
        by_contra unbounded
        obtain ⟨m, similar, other⟩ := JsonString.exists_left_ne unbounded
        have same := h (.member m colon v) (.member secret similar (.refl v)) fun hm =>
          absurd (hm.eq_of_similar similar ▸ hm) secret
        have lengths : n.left.length = m.left.length := by
          rw [JsonString.left, JsonString.left, length_escapeQuotes, length_escapeQuotes, List.length_map, List.length_map,
            similar.right.length_eq]
        exact other (List.append_inj same lengths).left
      have value {w : JsonString C} (similar : v.Similar w) : (Item.member n colon v).left = (Item.member n colon w).left :=
        h _ (.member secret (.refl n) similar) fun hn => absurd hn secret
      refine .member secret name (fun shown => ?_) ?_
      case refine_1 =>
        by_contra unbounded
        obtain ⟨w, similar, other⟩ := JsonString.Similar.exists_first_ne unbounded
        have same := value similar
        rw [left, left, shown, if_neg (by simp), if_neg (by simp)] at same
        exact other (escapeQuotes_inj (List.cons.inj (List.append_cancel_left same)).right).left
      case refine_2 =>
        by_contra unbounded
        obtain ⟨w, similar, other⟩ := JsonString.Similar.exists_more_ne unbounded
        have same := value similar
        rw [left, left] at same
        have tails := (List.cons.inj (List.append_cancel_left same)).right
        split at tails
        case isTrue  => exact other (tail_escapeQuotes_inj (List.cons.inj tails).right)
        case isFalse => exact other (escapeQuotes_inj tails).right

end Item

namespace Document

variable {d d' : Document C}

theorem left_congr (hb : d'.Closed) (ha : d.Guarded) (h : d.Similar d') : left d.items = left d'.items := by
  obtain ⟨-, items⟩ := h
  unfold Guarded at ha
  unfold Closed at hb
  revert ha hb items
  generalize d.items = l
  generalize d'.items = l'
  intro hb ha items
  induction items
  case nil => rfl
  case cons a b _ _ hab _ ih =>
    obtain ⟨guarded, others⟩ := List.forall_mem_cons.mp ha
    obtain ⟨closed, others'⟩ := List.forall_mem_cons.mp hb
    obtain ⟨item, gap⟩ := a
    obtain ⟨item', gap'⟩ := b
    obtain ⟨similar, rfl⟩ := hab
    rw [left_cons, left_cons, similar.left guarded closed, ih others' others]

theorem exists_closed (items : List (Item C × Gap C)) : ∃ items' : List (Item C × Gap C),
    List.Forall₂ (fun a b => a.1.Similar b.1 ∧ a.2 = b.2) items items' ∧ (∀ a ∈ items', a.1.Closed) ∧
      (left items').length ≤ (left items).length ∧
      ((left items').length = (left items).length → ∀ a ∈ items, a.1.Closed) := by
  induction items
  case nil => exact ⟨[], .nil, by simp, le_rfl, fun _ => by simp⟩
  case cons a items ih =>
    obtain ⟨item, gap⟩ := a
    obtain ⟨item', similar, closed, short, exact⟩ := item.exists_closed
    obtain ⟨items', similar', closed', short', exact'⟩ := ih
    refine ⟨(item', gap) :: items', .cons ⟨similar, rfl⟩ similar', List.forall_mem_cons.mpr ⟨closed, closed'⟩, ?_⟩
    simp only [left_cons, List.length_append, List.length_cons]
    refine ⟨by omega, fun same => List.forall_mem_cons.mpr ⟨exact (by omega), exact' (by omega)⟩⟩

end Document

-- A message is redacted as every message that differs from it in its secrets alone, where those have no escaped
-- quote in the strings of their secret fields, if and only if it is guarded.
theorem redacted_alike_iff (d : Document C) :
    (∀ d' : Document C, d.Similar d' → d'.Closed → C.redact (some d.text) = C.redact (some d'.text)) ↔ d.Guarded := by
  constructor
  case mpr =>
    intro guarded d' similar closed
    exact (Document.redact_eq_iff similar.left).mpr (Document.left_congr closed guarded similar)
  case mp =>
    intro alike
    have closed : d.Closed := by
      obtain ⟨items, similar, closed, -, exact⟩ := Document.exists_closed d.items
      have same := (@Document.redact_eq_iff C d { d with items } rfl).mp (alike _ ⟨rfl, similar⟩ closed)
      exact exact (congrArg List.length same).symm
    rintro ⟨item, gap⟩ ha
    refine Item.guarded_of_left (closed _ ha) fun b similar hb => ?_
    obtain ⟨l, r, shape⟩ := List.append_of_mem ha
    have refl (items : List (Item C × Gap C)) :
        List.Forall₂ (fun a b => a.1.Similar b.1 ∧ a.2 = b.2) items items :=
      List.forall₂_same.mpr fun a _ => ⟨.refl a.1, rfl⟩
    have items : List.Forall₂ (fun a b => a.1.Similar b.1 ∧ a.2 = b.2) d.items (l ++ (b, gap) :: r) := by
      rw [shape]
      exact List.rel_append (refl l) (.cons ⟨similar, rfl⟩ (refl r))
    have closed' : ∀ a ∈ l ++ (b, gap) :: r, a.1.Closed := by
      unfold Document.Closed at closed
      rw [shape] at closed
      rw [List.forall_mem_append, List.forall_mem_cons] at closed ⊢
      exact ⟨closed.left, hb, closed.right.right⟩
    have same := (@Document.redact_eq_iff C d { d with items := l ++ (b, gap) :: r } rfl).mp (alike _ ⟨rfl, items⟩ closed')
    rw [shape, Document.left_append, Document.left_append, Document.left_cons, Document.left_cons] at same
    exact List.append_cancel_right (List.append_cancel_left same)

-- A machine that knows the classes and cases of the ASCII characters alone.
def ascii : Culture where
  isWord c        := c.isAlphanum || c = '_'
  isSpace c       := c = ' ' || 9 ≤ c.toNat && c.toNat ≤ 13
  same c d        := decide (c.toLower = d.toLower)
  word_ascii _ _  := rfl
  space_ascii _ _ := rfl
  same_ascii _ _ _ _ := rfl

def asciiPart (text : String) (h : text.toList.all ascii.isToken) : Part ascii :=
  { first := ⟨text.toList, List.all_eq_true.mp h⟩, rest := [] }

def asciiGap (text : String) (h : text.toList.all (· ∈ gapChars) ∧ ascii.isColon text.toList = false) : Gap ascii :=
  { text := text.toList, structural := fun c hc => of_decide_eq_true (List.all_eq_true.mp h.left c hc), apart := h.right }

-- An object with a password, given as its parts between escaped quotes.
def login (first : Part ascii) (more : List (Part ascii)) : Document ascii where
  start := asciiGap "\x7b" (by decide)
  items := [(.member { first := asciiPart "password" (by decide), more := [] } { before := [], after := [], spaces := by simp }
    { first, more }, asciiGap "\x7d" (by decide))]

example : (login (asciiPart "a" (by decide)) [asciiPart "b" (by decide)]).text =
    "\x7b\"password\":\"a\\\"b\"\x7d".toList := by
  decide

-- Of the password `a"b`, the part behind the quote stays.
theorem not_redacted_alike : ¬ ∀ (C : Culture) (d d' : Document C), d.Similar d' →
    C.redact (some d.text) = C.redact (some d'.text) := by
  intro alike
  have similar : (login (asciiPart "a" (by decide)) [asciiPart "b" (by decide)]).Similar (login (asciiPart "a" (by decide)) []) :=
    ⟨rfl, .cons ⟨.secret ⟨rfl, by decide⟩, rfl⟩ .nil⟩
  have same := alike ascii _ _ similar
  revert same
  decide +kernel

end MyDrive.Backup.Redactor
