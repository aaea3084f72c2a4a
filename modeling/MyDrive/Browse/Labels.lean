import MyDrive.Drive.Names
import MyDrive.Library.Like

-- The search of people by their labels.

namespace MyDrive.Browse

open Drive (trim)

def maxLabelChars : Nat := 80

def containsPattern (value : List Char) : List Char :=
  '%' :: ((value.flatMap fun ch => if ch = '%' || ch = '_' || ch = '\\' then ['\\', ch] else [ch]) ++ ['%'])

-- `none` is a request that is refused; a blank query has no pattern.
def searchPattern (query : Option String) : Option (Option (List Char)) :=
  match query with
  | none       => some none
  | some query =>
    let trimmed := trim query.toList
    if trimmed.isEmpty then some none
    else if trimmed.length > maxLabelChars then none
    else some (some (containsPattern trimmed))

variable [Collation]

-- `value ILIKE pattern ESCAPE '\'`, which is `LIKE` between the lowered texts.
def ilike (value : String) (pattern : List Char) : Bool :=
  Like.like (Collation.lower (.ofList pattern)).toList (Collation.lower value).toList

-- `$5::TEXT IS NULL OR cluster.label ILIKE $5 ESCAPE '\'`
def labelMatches (pattern : Option (List Char)) (label : Option String) : Bool :=
  pattern.all fun pattern => label.any (ilike · pattern)

end MyDrive.Browse
