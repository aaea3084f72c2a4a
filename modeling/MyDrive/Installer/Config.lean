import Mathlib.Data.List.Basic
import MyDrive.Library.Percent

-- `validate` of the installer and what it calls.

namespace MyDrive.Installer

abbrev Text := List Char

-- A value of a configuration file. A number with a point is given by its text and whether it is zero.
inductive Value
  | null
  | bool (b : Bool)
  | int (n : Int)
  | float (text : Text) (zero : Bool)
  | str (text : Text)
  | list (items : List Value)
  | dict (items : List (String × Value))

abbrev Config := List (String × Value)

namespace Config

def get? (c : Config) (field : String) : Option Value :=
  (c.find? (·.1 = field)).map (·.2)

def getD (c : Config) (field : String) (default : Value) : Value :=
  (c.get? field).getD default

end Config

-- Whether `or` takes the value.
def Value.truthy : Value → Bool
  | .null         => false
  | .bool b       => b
  | .int n        => n ≠ 0
  | .float _ zero => !zero
  | .str text     => !text.isEmpty
  | .list items   => !items.isEmpty
  | .dict items   => !items.isEmpty

-- `PurePosixPath`. A root of two slashes is another one than a root of one slash or of three and more.
structure Path where
  root : Text
  tail : List Text
  deriving DecidableEq

namespace Path

def splitRoot : Text → Text × Text
  | '/' :: '/' :: '/' :: text => (['/'], '/' :: '/' :: text)
  | '/' :: '/' :: text        => (['/', '/'], text)
  | '/' :: text               => (['/'], text)
  | text                      => ([], text)

def components (text : Text) : List Text :=
  (text.splitOn '/').filter fun part => !part.isEmpty && part ≠ ['.']

def parse (raw : Text) : Path where
  root := (splitRoot raw).1
  tail := components (splitRoot raw).2

def parts (p : Path) : List Text :=
  if p.root = [] then p.tail else p.root :: p.tail

-- From the directory of the path up to its root.
def parents (p : Path) : List Path :=
  (List.range p.tail.length).reverse.map fun n => { p with tail := p.tail.take n }

def toText (p : Path) : Text :=
  p.root ++ ['/'].intercalate p.tail

end Path

def install : Path :=
  .parse "/opt/my-drive".toList

inductive Failure
  | valueError (message : String)
  | unknownFields (fields : List String)
  | symlink (path : Path)
  | images (needed : List String)
  | keyError (field : String)
  | typeError

-- What the host knows: the symbolic links, a random token, and the text of a value that is no text.
structure Host where
  isSymlink : Path → Bool
  token     : Text
  render    : Value → Text

def Host.str (h : Host) : Value → Text
  | .str text => text
  | v         => h.render v

def isLower (c : Char) : Bool :=
  'a' ≤ c && c ≤ 'z'

def isLetter (c : Char) : Bool :=
  isLower c || ('A' ≤ c && c ≤ 'Z')

def isDigit (c : Char) : Bool :=
  '0' ≤ c && c ≤ '9'

def isLetterOrDigit (c : Char) : Bool :=
  isLetter c || isDigit c

def decimal (digits : Text) : Nat :=
  digits.foldl (fun n c => 10 * n + (c.toNat - 48)) 0

def isOctet (part : Text) : Bool :=
  !part.isEmpty && part.all isDigit && part.length ≤ 3 && (part.length = 1 || part.head? ≠ some '0') &&
    decimal part ≤ 255

def isIPv4Address (text : Text) : Bool :=
  (text.splitOn '.').length = 4 && (text.splitOn '.').all isOctet

def isLabel (part : Text) : Bool :=
  part.length ≤ 63 && part.all (fun c => isLower c || isDigit c || c = '-') &&
    part.head?.any (fun c => isLower c || isDigit c) && part.getLast?.any (fun c => isLower c || isDigit c)

def validHost (host : Text) : Except Failure Text :=
  if isIPv4Address host then .ok host
  else if host.length > 253 || !host.contains '.' || !(host.splitOn '.').all isLabel then
    .error (.valueError "host must be an IPv4 address or a lowercase DNS name (no URL/path)")
  else .ok host

-- `PATH_RE`.
def matchesPath : Text → Bool
  | '/' :: rest => !rest.isEmpty && rest.all fun c => isLetterOrDigit c || "_./-".toList.contains c
  | _           => false

def validPath (h : Host) (raw : Value) : Except Failure Path :=
  match raw with
  | .str raw =>
    if !matchesPath raw then
      .error (.valueError "paths must be absolute and contain only letters, digits, /, ., _ and -")
    else
      let path := Path.parse raw
      if path.parts.contains ['.', '.'] || path = .parse ['/'] then .error (.valueError "unsafe data path")
      else
        match (path :: path.parents).find? h.isSymlink with
        | some parent => .error (.symlink parent)
        | none        => .ok path
  | _ => .error (.valueError "paths must be absolute and contain only letters, digits, /, ., _ and -")

def isEmail (text : Text) : Bool :=
  match text.splitOn '@' with
  | [user, domain] =>
    !user.isEmpty && user.all (fun c => isLetterOrDigit c || "._%+-".toList.contains c) &&
    domain.all (fun c => isLetterOrDigit c || ".-".toList.contains c) &&
    match (domain.splitOn '.').reverse with
    | top :: rest => 2 ≤ top.length && top.all isLetter && !(['.'].intercalate rest.reverse).isEmpty
    | []          => false
  | _ => false

-- `IMAGE_RE`.
def isImage : Text → Bool
  | c :: rest => isLetterOrDigit c && !rest.isEmpty && rest.all fun c => isLetterOrDigit c || "._:/@-".toList.contains c
  | []        => false

def allowed : List String :=
  ["host", "tls", "email", "owner_password", "storage", "database", "previews", "media_indexing", "images",
   "quota_gib", "max_file_gib", "min_free_gib", "trash_days"]

def sorted (fields : List String) : List String :=
  fields.mergeSort fun a b => !decide (b < a)

def validTls (config : Config) : Except Failure Text :=
  match config.getD "tls" (.str "acme".toList) with
  | .str tls =>
    if tls = "acme".toList || tls = "internal".toList || tls = "http".toList then .ok tls
    else .error (.valueError "tls must be acme, internal, or http")
  | .list _  => .error .typeError
  | .dict _  => .error .typeError
  | _        => .error (.valueError "tls must be acme, internal, or http")

def validPassword (h : Host) (config : Config) : Except Failure Text :=
  let password := config.getD "owner_password" .null
  match if password.truthy then password else .str h.token with
  | .str text =>
    if (Percent.utf8 text).length < 16 || text.any (fun c => c = '\r' || c = '\n' || c = Char.ofNat 0) then
      .error (.valueError "owner_password must be at least 16 bytes, without newlines or NUL")
    else .ok text
  | _ => .error (.valueError "owner_password must be at least 16 bytes, without newlines or NUL")

def validMediaIndexing (config : Config) : Except Failure Bool :=
  match config.getD "media_indexing" (.bool false) with
  | .bool b => .ok b
  | _       => .error (.valueError "media_indexing must be a boolean")

def dataFields : List (String × String) :=
  [("storage", "/srv/my-drive/data"), ("database", "/var/lib/my-drive/postgres"),
   ("previews", "/var/lib/my-drive/previews")]

def related (path other : Path) : Bool :=
  path = other || other ∈ path.parents || path ∈ other.parents

-- The loop over the data directories.
def validDataPaths (h : Host) (config : Config) : List (String × String) → List Path → Except Failure (List Path)
  | [],                       paths => .ok paths
  | (field, default) :: rest, paths => do
    let path ← validPath h (config.getD field (.str default.toList))
    if related path install then
      throw (.valueError "data paths must be outside the installation directory")
    if paths.any (related path) then
      throw (.valueError "data directories must not overlap")
    validDataPaths h config rest (paths ++ [path])

def numberFields : List (String × Int) :=
  [("quota_gib", 100), ("max_file_gib", 5), ("min_free_gib", 5), ("trash_days", 30)]

def validNumbers (config : Config) : List (String × Int) → Except Failure (List Int)
  | []                       => .ok []
  | (field, default) :: rest =>
    match config.getD field (.int default) with
    | .int value =>
      if value < 1 || value > 1048576 then
        .error (.valueError (field ++ " must be a positive integer <= 1048576"))
      else (validNumbers config rest).map (value :: ·)
    | _ => .error (.valueError (field ++ " must be a positive integer <= 1048576"))

def validImages (config : Config) (mediaIndexing : Bool) : Except Failure (List (String × Value)) :=
  let needed := ["app", "document-preview"] ++ if mediaIndexing then ["media-indexer"] else []
  match config.getD "images" (.dict []) with
  | .dict images =>
    let names := images.map (·.1)
    if !images.isEmpty && !(names.all needed.contains && needed.all names.contains) then
      .error (.images (sorted needed))
    else if images.any fun image => match image.2 with | .str text => !isImage text | _ => true then
      .error (.valueError "invalid image reference")
    else .ok images
  | _ => .error (.images (sorted needed))

structure Validated where
  host          : Text
  tls           : Text
  email         : Value
  ownerPassword : Text
  mediaIndexing : Bool
  dataPaths     : List Path
  numbers       : List Int
  images        : List (String × Value)

def require (config : Config) (field : String) : Except Failure Value :=
  match config.get? field with
  | some value => .ok value
  | none       => .error (.keyError field)

def validate (h : Host) (config : Config) : Except Failure Validated := do
  let unknown := (config.map (·.1)).filter (!allowed.contains ·)
  if !unknown.isEmpty then throw (.unknownFields (sorted unknown))
  let host ← validHost (h.str (← require config "host"))
  let tls ← validTls config
  if tls = "acme".toList && isIPv4Address host then
    throw (.valueError "use internal TLS for IP-only installation")
  let email ← require config "email"
  if !isEmail (h.str email) then throw (.valueError "a valid owner email is required")
  let ownerPassword ← validPassword h config
  let mediaIndexing ← validMediaIndexing config
  let dataPaths ← validDataPaths h config dataFields []
  let numbers ← validNumbers config numberFields
  let images ← validImages config mediaIndexing
  return { host, tls, email, ownerPassword, mediaIndexing, dataPaths, numbers, images }

end MyDrive.Installer
