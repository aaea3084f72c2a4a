import MyDrive.Library.Table

-- `GlobMatcher`: an exclusion pattern is translated into a regular expression. Texts are lists of
-- UTF-16 units.

namespace MyDrive.Filtering

abbrev Text := List UInt16

scoped instance : LawfulBEq Text := inferInstance

@[match_pattern] abbrev asterisk : UInt16 := 42

@[match_pattern] abbrev question : UInt16 := 63

@[match_pattern] abbrev slash : UInt16 := 47

def backslash : UInt16 := 92

def newline : UInt16 := 10

def isLetter (c : UInt16) : Bool :=
  (65 ≤ c && c ≤ 90) || (97 ≤ c && c ≤ 122)

-- Two characters are equal ignoring case when they share their `fold`. `isRegexMatch` is
-- `Regex.IsMatch` of an input and an expression, and false when it refuses or takes too long.
class DotNet where
  fold         : UInt16 → UInt16
  isRegexMatch : Text → Text → Bool
  caseless {c d : UInt16} : c < 128 → isLetter c = false → fold d = fold c → d = c

def isWhiteSpace (c : UInt16) : Bool :=
  (9 ≤ c && c ≤ 13) || (8192 ≤ c && c ≤ 8202) ||
    c ∈ [32, 133, 160, 5760, 8232, 8233, 8239, 8287, 12288]

def trim (t : Text) : Text :=
  ((t.dropWhile isWhiteSpace).reverse.dropWhile isWhiteSpace).reverse

-- `Replace('\\', '/')`.
def normalize (t : Text) : Text :=
  t.map fun c => if c = backslash then slash else c

-- What the expressions are made of: `.*`, `[^/]*`, `[^/]` and an escaped character. They stand
-- between `^` and `$`.
inductive Item
  | any
  | run
  | one
  | literal (current : UInt16)
  deriving DecidableEq

def toRegex : Text → List Item
  | asterisk :: asterisk :: slash :: rest => .any :: toRegex rest
  | asterisk :: asterisk :: rest          => .any :: toRegex rest
  | asterisk :: rest                      => .run :: toRegex rest
  | question :: rest                      => .one :: toRegex rest
  | current :: rest                       => .literal current :: toRegex rest
  | []                                    => []

variable [DotNet]

open DotNet

-- A repetition, before what has to follow it.
def skip (p : UInt16 → Bool) (follows : Text → Bool) : Text → Bool
  | []     => follows []
  | c :: s => follows (c :: s) || (p c && skip p follows s)

-- `$` holds before a newline at the end, too.
def regexMatches : List Item → Text → Bool
  | [],                  s      => s = [] || s = [newline]
  | .any :: items,       s      => skip (· ≠ newline) (regexMatches items) s
  | .run :: items,       s      => skip (· ≠ slash) (regexMatches items) s
  | .one :: _,           []     => false
  | .one :: items,       c :: s => c ≠ slash && regexMatches items s
  | .literal _ :: _,     []     => false
  | .literal c :: items, d :: s => fold d = fold c && regexMatches items s

-- The compiled expressions, by their patterns ignoring case. A pattern may find what another
-- spelling of it has left.
structure Cache where
  regexes : Table Text (List Item)
  compiled {key items} : regexes.lookup key = some items → ∃ p, p.map fold = key ∧ toRegex p = items

def Cache.empty : Cache where
  regexes    := .empty
  compiled h := by simp at h

def Cache.getOrAdd (cache : Cache) (pattern : Text) : List Item × Cache :=
  match h : cache.regexes.lookup (pattern.map fold) with
  | some items => (items, cache)
  | none       =>
    (toRegex pattern, {
      regexes  := cache.regexes.set (pattern.map fold) (toRegex pattern)
      compiled := by
        intro key items hk
        rw [Table.lookup_set] at hk
        split at hk
        case isTrue he => cases hk; exact ⟨pattern, he.symm, rfl⟩
        case isFalse   => exact cache.compiled hk })

-- `regex:`.
def regexPrefix : Text := [114, 101, 103, 101, 120, 58]

def isExpression (trimmed : Text) : Bool :=
  (trimmed.take regexPrefix.length).map fold = regexPrefix.map fold

def isMatch (cache : Cache) (pattern relativePath fileName : Text) : Bool × Cache :=
  let trimmed := trim pattern
  if trimmed = [] then
    (false, cache)
  else if isExpression trimmed then
    (isRegexMatch (normalize relativePath) (trimmed.drop regexPrefix.length), cache)
  else
    let normalized := normalize trimmed
    let subject := if slash ∈ normalized then normalize relativePath else fileName
    let (regex, cache) := cache.getOrAdd normalized
    (regexMatches regex subject, cache)

-- The reference: what a pattern means.
inductive Wildcard
  | literal (c : UInt16)
  | one
  | run
  | components
  | rest

def parse : Text → List Wildcard
  | [asterisk, asterisk]                  => [.rest]
  | asterisk :: asterisk :: slash :: rest => .components :: parse rest
  | asterisk :: rest                      => .run :: parse rest
  | question :: rest                      => .one :: parse rest
  | c :: rest                             => .literal c :: parse rest
  | []                                    => []

-- `boundary` says whether the text starts where a path component does.
def Accepts (boundary : Bool) : List Wildcard → Text → Prop
  | [],                s => s = []
  | .literal c :: ts,  s => ∃ d s', s = d :: s' ∧ fold d = fold c ∧ Accepts (d = slash) ts s'
  | .one :: ts,        s => ∃ d s', s = d :: s' ∧ d ≠ slash ∧ Accepts false ts s'
  | .run :: ts,        s => ∃ t s', s = t ++ s' ∧ slash ∉ t ∧ Accepts (boundary && t = []) ts s'
  | .components :: ts, s =>
    Accepts boundary ts s ∨ boundary ∧ ∃ (parts : List Text) (s' : Text),
      (∀ part ∈ parts, slash ∉ part) ∧ s = parts.flatMap (· ++ [slash]) ++ s' ∧ Accepts true ts s'
  | .rest :: ts,       s => ∃ t s', s = t ++ s' ∧ Accepts false ts s'

-- A pattern with a separator is about the whole path, and one without about the name.
def GlobMatches (pattern relativePath fileName : Text) : Prop :=
  let p := normalize (trim pattern)
  Accepts true (parse p) (if slash ∈ p then normalize relativePath else fileName)

end MyDrive.Filtering
