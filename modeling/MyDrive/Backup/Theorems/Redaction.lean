import MyDrive.Backup.Theorems.Messages

-- JSON messages, and what redaction leaves of each of their strings and fields.

namespace MyDrive.Backup.Redactor

open Culture

variable {C : Culture} {s t u x y v : List Char} {ts vs rest : List (List Char)}

-- The segments of texts with an escaped quote between each two of them.
def escapeQuotes : List Char → List (List Char) → List (List Char)
  | s, []      => [s]
  | s, t :: ts => (s ++ ['\\']) :: escapeQuotes t ts

def lastOf : List Char → List (List Char) → List Char
  | s, []      => s
  | _, t :: ts => lastOf t ts

theorem length_escapeQuotes : (escapeQuotes s ts).length = ts.length + 1 := by
  induction ts generalizing s
  case nil            => rfl
  case cons t ts ih => rw [escapeQuotes, List.length_cons, ih, List.length_cons]

theorem escapeQuotes_inj (h : escapeQuotes s ts = escapeQuotes t vs) : s = t ∧ ts = vs := by
  have lengths := congrArg List.length h
  rw [length_escapeQuotes, length_escapeQuotes] at lengths
  induction ts generalizing s t vs
  case nil =>
    cases vs
    case nil  => exact ⟨List.singleton_inj.mp h, rfl⟩
    case cons => simp at lengths
  case cons u ts ih =>
    cases vs
    case nil => simp at lengths
    case cons w vs =>
      obtain ⟨first, others⟩ := List.cons.inj h
      obtain ⟨rfl, rfl⟩ := ih others (Nat.succ.inj lengths)
      exact ⟨List.append_cancel_right first, rfl⟩

theorem map_escapeQuotes :
    (escapeQuotes s ts).map (C.tokens none) = escapeQuotes (C.tokens none s) (ts.map (C.tokens none)) := by
  induction ts generalizing s
  case nil          => rfl
  case cons t ts ih =>
    rw [escapeQuotes, List.map_cons, ih, tokens_break not_isToken_backslash, List.map_cons, escapeQuotes]
    rfl

theorem not_mem_escapeQuotes (h : ∀ a ∈ s :: ts, '"' ∉ a) : ∀ a ∈ escapeQuotes s ts, '"' ∉ a := by
  induction ts generalizing s
  case nil => exact h
  case cons t ts ih =>
    obtain ⟨head, tail⟩ := List.forall_mem_cons.mp h
    exact List.forall_mem_cons.mpr ⟨by simpa using head, ih tail⟩

theorem mem_of_sameText {n : List Char} (h : C.sameText n u) :
    (∀ p ∈ n, ∃ c ∈ u, C.same p c) ∧ ∀ c ∈ u, ∃ p ∈ n, C.same p c := by
  induction n generalizing u
  case nil =>
    cases u
    case nil  => simp
    case cons => cases h
  case cons p n ih =>
    cases u
    case nil => cases h
    case cons c u =>
      obtain ⟨head, tail⟩ := Bool.and_eq_true_iff.mp h
      obtain ⟨all, all'⟩ := ih tail
      refine ⟨List.forall_mem_cons.mpr ⟨⟨c, .head _, head⟩, fun q hq => ?_⟩,
        List.forall_mem_cons.mpr ⟨⟨p, .head _, head⟩, fun d hd => ?_⟩⟩
      case refine_1 =>
        obtain ⟨d, hd, same⟩ := all q hq
        exact ⟨d, .tail _ hd, same⟩
      case refine_2 =>
        obtain ⟨q, hq, same⟩ := all' d hd
        exact ⟨q, .tail _ hq, same⟩

theorem same_apart {c d : Char} (hc : c.toNat < 128) (hd : d.toNat < 128) (h : c.toLower ≠ d.toLower) : ¬C.same c d := by
  rw [C.same_ascii c d hc hd, decide_eq_true_eq]
  exact h

theorem isName_backslash : C.isName (s ++ ['\\']) = false := by
  have letters : secretNames.all fun n => n.all fun p => p.toNat < 128 ∧ p.toLower ≠ '\\'.toLower := by decide
  refine Bool.eq_false_iff.mpr fun h => ?_
  obtain ⟨n, hn, same⟩ := List.any_eq_true.mp h
  obtain ⟨p, hp, hs⟩ := (mem_of_sameText same).right '\\' (List.mem_append_right _ List.mem_cons_self)
  obtain ⟨ascii, other⟩ := of_decide_eq_true (List.all_eq_true.mp (List.all_eq_true.mp letters n hn) p hp)
  exact same_apart ascii (by decide) other hs

theorem erase_skip (h : ∀ y ∈ rest.head?, (C.isName x && C.isColon y) = false) :
    C.erase s (x :: rest) = s :: C.erase x rest := by
  rcases rest with _ | ⟨y, _ | ⟨_, _ | ⟨_, _⟩⟩⟩
  case cons.cons.cons =>
    rw [erase, if_neg]
    exact Bool.eq_false_iff.mp (h y rfl)
  all_goals rfl

theorem erase_through (hy : C.isName y = false) (h : (C.isName (lastOf t ts) && C.isColon y) = false) :
    C.erase s (escapeQuotes t ts ++ y :: rest) = s :: (escapeQuotes t ts ++ C.erase y rest) := by
  induction ts generalizing s t
  case nil =>
    have next : C.erase t (y :: rest) = t :: C.erase y rest := erase_skip fun _ _ => by rw [hy, Bool.false_and]
    rw [escapeQuotes, List.singleton_append, erase_skip, next, List.singleton_append]
    intro z hz
    cases hz
    exact h
  case cons u ts ih =>
    rw [escapeQuotes, List.cons_append, erase_skip fun _ _ => by rw [isName_backslash, Bool.false_and], ih h]
    rfl

theorem erase_behind (hy : C.isName y = false) (hc : C.isColon y = false) : ∃ d r, escapeQuotes t ts ++ y :: rest = d :: r ∧
    C.erase d r = escapeQuotes t ts ++ C.erase y rest := by
  cases ts
  case nil => exact ⟨t, _, rfl, erase_skip fun _ _ => by rw [hy, Bool.false_and]⟩
  case cons u ts => exact ⟨t ++ ['\\'], _, rfl, erase_through hy (by rw [hc, Bool.and_false])⟩

theorem erase_value {colon : List Char} (hy : C.isName y = false) (hc : C.isColon y = false)
    (hn : C.isName (lastOf t ts)) (between : C.isColon colon) :
    C.erase s (escapeQuotes t ts ++ colon :: (escapeQuotes v vs ++ y :: rest)) =
      s :: (escapeQuotes t ts ++ colon :: redacted :: ((escapeQuotes v vs).tail ++ C.erase y rest)) := by
  induction ts generalizing s t
  case nil =>
    have both : C.isName t && C.isColon colon := Bool.and_eq_true_iff.mpr ⟨hn, between⟩
    cases vs
    case nil => exact if_pos both
    case cons w vs =>
      obtain ⟨d, r, shape, behind⟩ := @erase_behind C w y vs rest hy hc
      rw [escapeQuotes, escapeQuotes, List.singleton_append, List.cons_append, shape, erase, if_pos both, behind]
      rfl
  case cons u ts ih =>
    rw [escapeQuotes, List.cons_append, erase_skip fun _ _ => by rw [isName_backslash, Bool.false_and], ih hn]
    rfl

-- What a JSON text can have outside its strings.
def gapChars : List Char :=
  "\x7b\x7d[],: \t\n\r0123456789+-.eEtrufalsn".toList

theorem gap_ascii {c : Char} (h : c ∈ gapChars) : c.toNat < 128 := by
  have ascii : gapChars.all (·.toNat < 128) := by decide
  exact of_decide_eq_true (List.all_eq_true.mp ascii c h)

theorem tokens_gap {prev : Option Char} (h : ∀ c ∈ u, c ∈ gapChars) : C.tokens prev u = u := by
  have other : gapChars.all ('m'.toLower ≠ ·.toLower) := by decide
  refine tokens_plain fun c hc => Bool.eq_false_iff.mpr (same_apart (by decide) (gap_ascii (h c hc)) ?_)
  exact of_decide_eq_true (List.all_eq_true.mp other c (h c hc))

theorem isName_gap (h : ∀ c ∈ u, c ∈ gapChars) : C.isName u = false := by
  have letters : secretNames.all fun n => n.any fun p => p.toNat < 128 ∧ gapChars.all (p.toLower ≠ ·.toLower) := by
    decide
  refine Bool.eq_false_iff.mpr fun hn => ?_
  obtain ⟨n, hn, same⟩ := List.any_eq_true.mp hn
  obtain ⟨p, hp, other⟩ := List.any_eq_true.mp (List.all_eq_true.mp letters n hn)
  obtain ⟨ascii, other⟩ := of_decide_eq_true other
  obtain ⟨c, hc, hs⟩ := (mem_of_sameText same).left p hp
  exact same_apart ascii (gap_ascii (h c hc)) (of_decide_eq_true (List.all_eq_true.mp other c (h c hc))) hs

theorem quote_not_mem_gap (h : ∀ c ∈ u, c ∈ gapChars) : '"' ∉ u := by
  intro hq
  have := h '"' hq
  revert this
  decide

-- A text between two strings that is not the colon of a field with a string.
structure Gap (C : Culture) where
  text       : List Char
  structural : ∀ c ∈ text, c ∈ gapChars
  apart      : C.isColon text = false

structure Colon where
  before : List Char
  after  : List Char
  spaces : ∀ c ∈ before ++ after, c ∈ " \t\n\r".toList

namespace Colon

def text (c : Colon) : List Char :=
  c.before ++ ':' :: c.after

theorem structural (c : Colon) : ∀ d ∈ c.text, d ∈ gapChars := by
  have inside : " \t\n\r".toList.all (· ∈ gapChars) := by decide
  have spaces (d) (hd : d ∈ c.before ++ c.after) := of_decide_eq_true (List.all_eq_true.mp inside d (c.spaces d hd))
  intro d hd
  rcases List.mem_append.mp hd with hd | hd
  case inl => exact spaces d (List.mem_append_left _ hd)
  case inr =>
    rcases List.mem_cons.mp hd with rfl | hd
    case inl => decide
    case inr => exact spaces d (List.mem_append_right _ hd)

theorem isColon (c : Colon) : C.isColon c.text := by
  have known : " \t\n\r".toList.all fun c => c.toNat < 128 ∧ (c = ' ' || 9 ≤ c.toNat && c.toNat ≤ 13) := by decide
  have spaces (d) (hd : d ∈ c.before ++ c.after) : C.isSpace d := by
    obtain ⟨ascii, space⟩ := of_decide_eq_true (List.all_eq_true.mp known d (c.spaces d hd))
    rw [C.space_ascii d ascii]
    exact space
  have colon : ¬C.isSpace ':' := by
    rw [C.space_ascii _ (by decide)]
    decide
  unfold Culture.isColon text
  rw [List.dropWhile_append_of_pos fun d hd => spaces d (List.mem_append_left _ hd),
    List.dropWhile_cons_of_neg colon]
  exact List.all_eq_true.mpr fun d hd => spaces d (List.mem_append_right _ hd)

end Colon

-- The parts of a string's text between its escaped quotes.
structure JsonString (C : Culture) where
  first : Part C
  more  : List (Part C)

namespace JsonString

def segs (s : JsonString C) : List (List Char) :=
  escapeQuotes s.first.text (s.more.map Part.text)

def left (s : JsonString C) : List (List Char) :=
  escapeQuotes s.first.left (s.more.map Part.left)

-- The text means the name of a secret field.
def Secret (n : JsonString C) : Prop :=
  n.more = [] ∧ n.first.codes ∈ secretNames.map (·.map Char.toNat)

-- The text reads as a name of the second pattern, at least behind its last quote.
def hides (n : JsonString C) : Bool :=
  C.isName (lastOf n.first.left (n.more.map Part.left))

def Bounded (s : JsonString C) : Prop :=
  s.first.Bounded ∧ ∀ p ∈ s.more, p.Bounded

def Similar (s s' : JsonString C) : Prop :=
  s.first.Similar s'.first ∧ List.Forall₂ Part.Similar s.more s'.more

theorem map_segs (s : JsonString C) : s.segs.map (C.tokens none) = s.left := by
  rw [segs, map_escapeQuotes, s.first.tokens_text, List.map_map]
  exact congrArg (escapeQuotes _) (List.map_congr_left fun p _ => p.tokens_text)

end JsonString

inductive Item (C : Culture)
  | string (content : JsonString C)
  | member (name : JsonString C) (colon : Colon) (value : JsonString C)

-- A JSON text: its strings, and those fields that have a string, with the texts around them.
structure Document (C : Culture) where
  start : Gap C
  items : List (Item C × Gap C)

namespace Item

def segs : Item C → List (List Char)
  | string content          => content.segs
  | member name colon value => name.segs ++ colon.text :: value.segs

-- The segments of the redacted text.
def left : Item C → List (List Char)
  | string content          => content.left
  | member name colon value =>
    name.left ++ colon.text :: if name.hides then redacted :: value.left.tail else value.left

end Item

namespace Document

def segs (items : List (Item C × Gap C)) : List (List Char) :=
  items.flatMap fun a => a.1.segs ++ [a.2.text]

def text (d : Document C) : List Char :=
  join d.start.text (segs d.items)

def left (items : List (Item C × Gap C)) : List (List Char) :=
  items.flatMap fun a => a.1.left ++ [a.2.text]

theorem segs_cons {item : Item C} {gap : Gap C} {items : List (Item C × Gap C)} :
    segs ((item, gap) :: items) = item.segs ++ gap.text :: segs items := by
  simp [segs]

theorem left_cons {item : Item C} {gap : Gap C} {items : List (Item C × Gap C)} :
    left ((item, gap) :: items) = item.left ++ gap.text :: left items := by
  simp [left]

theorem left_append {items items' : List (Item C × Gap C)} : left (items ++ items') = left items ++ left items' :=
  List.flatMap_append

theorem erase_items {items : List (Item C × Gap C)} (hs : C.isName s = false) :
    C.erase s ((segs items).map (C.tokens none)) = s :: left items := by
  induction items generalizing s
  case nil => rfl
  case cons a items ih =>
    obtain ⟨item, gap⟩ := a
    have name := @isName_gap C _ gap.structural
    have rest : C.erase gap.text ((segs items).map (C.tokens none)) = gap.text :: left items := ih name
    rw [segs_cons, List.map_append, List.map_cons, tokens_gap gap.structural, left_cons]
    cases item
    case string content =>
      rw [Item.segs, JsonString.map_segs]
      refine (erase_through name (by rw [gap.apart, Bool.and_false])).trans ?_
      rw [rest]
      rfl
    case member n colon v =>
      have between := @isName_gap C _ colon.structural
      rw [Item.segs, List.map_append, List.map_cons, JsonString.map_segs, JsonString.map_segs,
        tokens_gap colon.structural, List.append_assoc, List.cons_append]
      by_cases hn : n.hides
      case pos =>
        rw [Item.left, if_pos hn, List.append_assoc, List.cons_append, List.cons_append]
        refine (erase_value name gap.apart hn colon.isColon).trans ?_
        rw [rest]
        rfl
      case neg =>
        rw [Item.left, if_neg hn, List.append_assoc, List.cons_append]
        refine (erase_through between ?_).trans ?_
        case refine_1 => exact Bool.and_eq_false_iff.mpr (.inl (Bool.eq_false_iff.mpr hn))
        case refine_2 =>
          rw [JsonString.left, erase_through name (by rw [gap.apart, Bool.and_false]), rest]
          rfl

theorem not_mem_segs {items : List (Item C × Gap C)} : ∀ u ∈ segs items, '"' ∉ u := by
  have string (s : JsonString C) : ∀ u ∈ s.segs, '"' ∉ u :=
    not_mem_escapeQuotes (List.forall_mem_cons.mpr ⟨s.first.not_mem_quote,
      List.forall_mem_map.mpr fun p _ => p.not_mem_quote⟩)
  induction items
  case nil =>
    intro u hu
    cases hu
  case cons a items ih =>
    obtain ⟨item, gap⟩ := a
    rw [segs_cons, List.forall_mem_append, List.forall_mem_cons]
    refine ⟨?_, quote_not_mem_gap gap.structural, ih⟩
    cases item
    case string content => exact string content
    case member n colon v =>
      rw [Item.segs, List.forall_mem_append, List.forall_mem_cons]
      exact ⟨string n, quote_not_mem_gap colon.structural, string v⟩

theorem mem_erase (C : Culture) (h : ∀ u ∈ s :: ts, '"' ∉ u) : ∀ u ∈ C.erase s ts, '"' ∉ u := by
  induction s, ts using erase.induct C
  case case1 s a b v d rest hit ih =>
    rw [erase, if_pos hit]
    simp only [List.forall_mem_cons] at h ⊢
    obtain ⟨hs, ha, hb, -, hd⟩ := h
    exact ⟨hs, ha, hb, by decide, ih (List.forall_mem_cons.mpr hd)⟩
  case case2 s a b v d rest miss ih =>
    rw [erase, if_neg miss]
    obtain ⟨hs, hr⟩ := List.forall_mem_cons.mp h
    exact List.forall_mem_cons.mpr ⟨hs, ih hr⟩
  case case3 s rest other =>
    unfold erase
    split
    case h_1 => exact (other _ _ _ _ _ rfl).elim
    case h_2 => exact h

-- Each message is redacted to the segments that its strings and fields leave.
theorem redact_text (d : Document C) : C.redact (some d.text) = join d.start.text (left d.items) := by
  rw [text, redact_join (List.forall_mem_cons.mpr ⟨quote_not_mem_gap d.start.structural, not_mem_segs⟩),
    tokens_gap d.start.structural, erase_items (isName_gap d.start.structural)]
  rfl

theorem not_mem_left (d : Document C) : ∀ u ∈ d.start.text :: left d.items, '"' ∉ u := by
  rw [← erase_items (isName_gap d.start.structural)]
  refine mem_erase C (List.forall_mem_cons.mpr ⟨quote_not_mem_gap d.start.structural, ?_⟩)
  exact List.forall_mem_map.mpr fun u hu => not_mem_tokens (not_mem_segs u hu)

theorem redact_eq_iff {d d' : Document C} (hs : d.start = d'.start) :
    C.redact (some d.text) = C.redact (some d'.text) ↔ left d.items = left d'.items := by
  rw [redact_text, redact_text, hs]
  constructor
  case mp  => exact fun h => (join_inj (hs ▸ d.not_mem_left) d'.not_mem_left h).right
  case mpr => exact congrArg _

end Document

end MyDrive.Backup.Redactor
