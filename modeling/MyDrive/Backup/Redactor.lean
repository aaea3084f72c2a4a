import MyDrive.Library.Replace

-- `SecretRedactor`: two regular expressions that take the secrets out of a message.

namespace MyDrive.Backup.Redactor

-- What the regular expressions know of characters beyond ASCII, where letters that count as the same but for
-- case also depend on the language of the machine.
structure Culture where
  isWord      : Char → Bool
  isSpace     : Char → Bool
  same        : Char → Char → Bool
  word_ascii  : ∀ c, c.toNat < 128 → isWord c = (c.isAlphanum || c = '_')
  space_ascii : ∀ c, c.toNat < 128 → isSpace c = (c = ' ' || 9 ≤ c.toNat && c.toNat ≤ 13)
  same_ascii  : ∀ c d, c.toNat < 128 → d.toNat < 128 → same c d = decide (c.toLower = d.toLower)

def redacted : List Char :=
  "[redacted]".toList

def tokenChars : List Char :=
  "ABCDEFGHIJKLMNOPQRSTUVWXYZabcdefghijklmnopqrstuvwxyz0123456789_-".toList

def secretNames : List (List Char) :=
  ["password", "access_token", "refresh_token", "device_code", "secret", "authorization"].map String.toList

-- `[^"]*"`: the text before the next quote and the text behind it.
def quoted : List Char → Option (List Char × List Char)
  | []      => none
  | c :: cs => if c = '"' then some ([], cs) else (quoted cs).map fun (text, rest) => (c :: text, rest)

namespace Culture

variable (C : Culture)

-- `[A-Za-z0-9_-]`
def isToken (c : Char) : Bool :=
  tokenChars.any (C.same · c)

-- `\b`
def boundary (prev : Option Char) (c : Char) : Bool :=
  prev.any C.isWord != C.isWord c

-- `\bmd[brk]_[A-Za-z0-9_-]+`
def findToken (prev : Option Char) : List Char → Option (List Char × Nat)
  | m :: d :: k :: u :: rest =>
    let run := rest.takeWhile C.isToken
    if C.boundary prev m && C.same 'm' m && C.same 'd' d && ['b', 'r', 'k'].any (C.same · k) && C.same '_' u &&
        !run.isEmpty then
      some (redacted, 3 + run.length)
    else
      none
  | _ => none

def sameText : List Char → List Char → Bool
  | [],      []      => true
  | p :: ps, c :: cs => C.same p c && sameText ps cs
  | _,       _       => false

def isName (text : List Char) : Bool :=
  secretNames.any (C.sameText · text)

-- `\s*:\s*"`: the text before the quote and the text behind it.
def colon (text : List Char) : Option (List Char × List Char) :=
  match text.dropWhile C.isSpace with
  | ':' :: rest =>
    match rest.dropWhile C.isSpace with
    | '"' :: value => some (text.takeWhile C.isSpace ++ ':' :: rest.takeWhile C.isSpace, value)
    | _            => none
  | _ => none

-- `("(?:password|…|authorization)"\s*:\s*")[^"]*"`, with the text of the group in the replacement.
def findField (_ : Option Char) : List Char → Option (List Char × Nat)
  | '"' :: text => do
    let (name, text) ← quoted text
    let (between, text) ← if C.isName name then C.colon text else none
    let (value, _) ← quoted text
    let group := '"' :: name ++ '"' :: between ++ ['"']
    return (group ++ redacted ++ ['"'], group.length + value.length)
  | _ => none

def redact : Option (List Char) → List Char
  | none         => []
  | some message => Replace.scan C.findField 0 none (Replace.scan C.findToken 0 none message)

end Culture

end MyDrive.Backup.Redactor
