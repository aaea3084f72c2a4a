import Mathlib.Data.List.Basic

-- Texts cut at blanks, at the first occurrence of a separator, and into lines.

namespace Split

variable {α : Type}

def words (blank : α → Bool) (text : List α) : List (List α) :=
  (text.splitOnP blank).filter (!·.isEmpty)

variable {blank : α → Bool} {text a b : List α} {c cr lf : α} {ls : List (List α)}

theorem words_nil : words blank [] = [] := by
  simp [words]

theorem words_append (h : blank c) : words blank (a ++ c :: b) = words blank a ++ words blank b := by
  rw [words, List.splitOnP_append_cons a b h, List.filter_append, words, words]

theorem words_of_black (hn : text ≠ []) (h : ∀ c ∈ text, ¬blank c) : words blank text = [text] := by
  rw [words, List.splitOnP_eq_singleton fun c hc => by simpa using h c hc]
  simp [hn]

theorem words_join (h : blank c) :
    words blank (a ++ ls.flatMap (c :: ·)) = words blank a ++ ls.flatMap (words blank) := by
  induction ls generalizing a
  case nil => simp
  case cons l ls hi =>
    rw [List.flatMap_cons, List.cons_append, words_append h, hi, List.flatMap_cons]

-- Blanks are the same before and after a text is written by a code that writes no blank for anything else.
theorem splitOnP_flatMap {β : Type} {code : α → List β} {p : α → Bool} {q : β → Bool}
    (hb : ∀ c, p c → ∃ d, code c = [d] ∧ q d) (hp : ∀ c, ¬p c → ∀ d ∈ code c, ¬q d) :
    (text.flatMap code).splitOnP q = (text.splitOnP p).map (·.flatMap code) := by
  have black {xs ys : List β} (h : ∀ d ∈ xs, ¬q d) :
      (xs ++ ys).splitOnP q = (ys.splitOnP q).modifyHead (xs ++ ·) := by
    induction xs
    case nil => simp [List.modifyHead]; cases ys.splitOnP q <;> rfl
    case cons x xs hi =>
      have hx : ¬q x := h x List.mem_cons_self
      rw [List.cons_append, List.splitOnP_cons_eq_if_modifyHead, if_neg hx,
        hi fun d hd => h d (List.mem_cons_of_mem x hd)]
      cases ys.splitOnP q <;> rfl
  induction text
  case nil => simp
  case cons c text hi =>
    rw [List.flatMap_cons, List.splitOnP_cons_eq_if_modifyHead]
    by_cases hc : p c
    case pos =>
      obtain ⟨d, code, hd⟩ := hb c hc
      rw [code, List.singleton_append, List.splitOnP_cons_eq_if_modifyHead, if_pos hd, if_pos hc, hi]
      rfl
    case neg =>
      rw [black (hp c hc), hi, if_neg hc]
      cases text.splitOnP p <;> simp

variable [DecidableEq α]

-- What stands in front of the first occurrence of the separator, and behind it.
def once (sep : List α) : List α → Option (List α × List α)
  | []      => if sep = [] then some ([], []) else none
  | c :: cs =>
    if sep.isPrefixOf (c :: cs) then some ([], (c :: cs).drop sep.length)
    else (once sep cs).map fun r => (c :: r.1, r.2)

-- A line ends at a line feed, or at a carriage return with a line feed behind it.
def endLine (cr : α) (line : List α) : List α :=
  if line.getLast? = some cr then line.dropLast else line

def lines (cr lf : α) (text : List α) : List (List α) :=
  (text.splitOn lf).dropLast.map (endLine cr) ++ ((text.splitOn lf).getLast?.filter (!·.isEmpty)).toList

theorem once_skip {s : α} {sep : List α} (h : s ∉ a) :
    once (s :: sep) (a ++ b) = (once (s :: sep) b).map fun r => (a ++ r.1, r.2) := by
  induction a
  case nil => simp
  case cons c a hi =>
    have head : s ≠ c := fun hc => h (hc ▸ List.mem_cons_self)
    have tail : s ∉ a := fun hs => h (List.mem_cons_of_mem c hs)
    rw [List.cons_append, once, if_neg (by simp [List.isPrefixOf, head]), hi tail, Option.map_map]
    rfl

theorem once_here {sep : List α} (h : sep ≠ []) : once sep (sep ++ b) = some ([], b) := by
  cases sep
  case nil => contradiction
  case cons s sep =>
    rw [List.cons_append, once, if_pos (by simp [List.isPrefixOf])]
    simp

theorem endLine_append (h : b ≠ []) : endLine cr (a ++ b) = a ++ endLine cr b := by
  simp only [endLine, List.getLast?_append_of_ne_nil a h, List.dropLast_append_of_ne_nil h]
  split <;> rfl

theorem lines_join (h : ∀ l ∈ ls, lf ∉ l) : lines cr lf (ls.flatMap (· ++ [lf])) = ls.map (endLine cr) := by
  have pieces : (ls.flatMap (· ++ [lf])).splitOn lf = ls ++ [[]] := by
    induction ls
    case nil => rfl
    case cons l ls hi =>
      have head : lf ∉ l := h l List.mem_cons_self
      rw [List.flatMap_cons, List.append_assoc, List.singleton_append, List.splitOn_append_cons_self_of_not_mem head,
        hi fun k hk => h k (List.mem_cons_of_mem l hk)]
      rfl
  simp [lines, pieces]

end Split
