import MyDrive.Library.Percent

-- `route.ts`: the addresses of the pages, which are written and read again.

namespace MyDrive.Web

abbrev Text := List Char

-- What the browser knows of Unicode, and what it reads instead of bytes that are not UTF-8.
class Browser where
  normalizeNFC          : Text → Text
  toLowerCase           : Text → Text
  isLetterOrNumber      : Char → Bool
  replaceInvalid        : List UInt8 → Text
  toLowerCase_ascii {t} : (∀ c ∈ t, c.toNat < 128) → toLowerCase t = t.map Char.toLower

export Browser (normalizeNFC toLowerCase isLetterOrNumber replaceInvalid)

def encodeURIComponent (text : Text) : Text :=
  Percent.encode (fun c => c.isAlphanum || c ∈ "-_.!~*'()".toList) text

-- `none` is a `URIError`. A character that is no escape starts a sequence of UTF-8, so that the bytes of the
-- text are UTF-8 when those of each row of escapes are.
def decodeURIComponent (text : Text) : Option Text :=
  (Percent.decode? text).bind Percent.ofUtf8

abbrev URLSearchParams := List (Text × Text)

namespace URLSearchParams

def get (params : URLSearchParams) (name : String) : Option Text :=
  (params.find? (·.1 = name.toList)).map (·.2)

def set : URLSearchParams → String → Text → URLSearchParams
  | [],      name, value => [(name.toList, value)]
  | p :: ps, name, value =>
    if p.1 = name.toList then (name.toList, value) :: ps.filter (·.1 ≠ name.toList)
    else p :: set ps name value

-- The serializer of `application/x-www-form-urlencoded`.
def serialize (text : Text) : Text :=
  (Percent.encode (fun c => c.isAlphanum || c ∈ "*-._ ".toList) text).map fun c => if c = ' ' then '+' else c

def toString (params : URLSearchParams) : Text :=
  List.intercalate ['&'] (params.map fun p => serialize p.1 ++ '=' :: serialize p.2)

variable [Browser]

def deserialize (text : Text) : Text :=
  let bytes := Percent.decode (text.map fun c => if c = '+' then ' ' else c)
  (Percent.ofUtf8 bytes).getD (replaceInvalid bytes)

def parse (input : Text) : URLSearchParams :=
  ((input.splitOn '&').filter (· ≠ [])).map fun part =>
    (deserialize (part.takeWhile (· ≠ '=')), deserialize ((part.dropWhile (· ≠ '=')).drop 1))

end URLSearchParams

inductive WorkspaceSection
  | drive
  | shared
  | trash
  | photos
  | storage
  deriving DecidableEq

inductive DrivePanel
  | accounts
  | faces
  | indexing
  | googleDrive
  | security
  | developer
  deriving DecidableEq

inductive PhotosTab
  | timeline
  | people
  | albums
  deriving DecidableEq

inductive DriveSort
  | name
  | updatedAt
  | createdAt
  | size
  deriving DecidableEq

inductive DriveOrder
  | asc
  | desc
  deriving DecidableEq

def DrivePanel.text : DrivePanel → String
  | accounts    => "accounts"
  | faces       => "faces"
  | indexing    => "indexing"
  | googleDrive => "google-drive"
  | security    => "security"
  | developer   => "developer"

def DriveSort.text : DriveSort → String
  | name      => "name"
  | updatedAt => "updated_at"
  | createdAt => "created_at"
  | size      => "size"

def DriveOrder.text : DriveOrder → String
  | asc  => "asc"
  | desc => "desc"

structure DriveFilters where
  category     : Text := []
  minSize      : Text := []
  maxSize      : Text := []
  createdFrom  : Text := []
  createdTo    : Text := []
  modifiedFrom : Text := []
  modifiedTo   : Text := []
  mime         : Text := []
  inFolder     : Bool := false
  deriving DecidableEq

def hasActiveFilters (filters : DriveFilters) : Bool :=
  filters.category ≠ [] || filters.minSize ≠ [] || filters.maxSize ≠ [] || filters.createdFrom ≠ [] ||
    filters.createdTo ≠ [] || filters.modifiedFrom ≠ [] || filters.modifiedTo ≠ [] || filters.mime ≠ [] ||
    filters.inFolder

-- The defaults are those of `blankRoute`.
structure DriveRoute where
  section_  : WorkspaceSection := .drive
  folderIds : List Text := []
  panel     : Option DrivePanel := none
  query     : Text := []
  fileId    : Option Text := none
  albumId   : Option Text := none
  personId  : Option Text := none
  photosTab : PhotosTab := .timeline
  sort      : DriveSort := .name
  order     : DriveOrder := .asc
  filters   : DriveFilters := {}
  deriving DecidableEq

structure NamedEntry where
  id   : Text
  name : Text

structure PublicRoute where
  token     : Text
  folderIds : List Text
  fileId    : Option Text
  deriving DecidableEq

def isHex (c : Char) : Bool :=
  c.isDigit || ('a' ≤ c && c ≤ 'f') || ('A' ≤ c && c ≤ 'F')

-- Where `UUID_RE` has a hexadecimal digit, and where it has a hyphen.
def uuidPattern : List Bool :=
  List.intercalate [false] ([8, 4, 4, 4, 12].map fun n => List.replicate n true)

def isUuid : Text → Bool :=
  go uuidPattern
where
  go : List Bool → Text → Bool
    | [],       []      => true
    | d :: ds,  c :: cs => (if d then isHex c else c = '-') && go ds cs
    | _,        _       => false

-- The white space of `trim`, with the line terminators.
def isSpace (c : Char) : Bool :=
  let n := c.toNat
  (9 ≤ n && n ≤ 13) || n = 0x20 || n = 0xA0 || n = 0x1680 || (0x2000 ≤ n && n ≤ 0x200A) || n = 0x2028 ||
    n = 0x2029 || n = 0x202F || n = 0x205F || n = 0x3000 || n = 0xFEFF

def strip (out : Char → Bool) (text : Text) : Text :=
  ((text.dropWhile out).reverse.dropWhile out).reverse

-- The slice behind the last `--`.
def sliceAfterLast : Text → Option Text
  | []      => none
  | c :: cs =>
    match sliceAfterLast cs with
    | some slice => some slice
    | none       => if c = '-' && cs.head? = some '-' then some cs.tail else none

section

variable [Browser]

-- A row of characters that are neither letters nor numbers becomes one hyphen.
def hyphenate : Text → Text
  | []      => []
  | c :: cs =>
    if isLetterOrNumber c then c :: hyphenate cs
    else if cs.head?.any (!isLetterOrNumber ·) then hyphenate cs
    else '-' :: hyphenate cs

def slugifyName (name : Text) : Text :=
  let slug := strip (· = '-') (hyphenate (toLowerCase (strip isSpace (normalizeNFC name))))
  if slug = [] then "item".toList else slug

def segmentFor (name id : Text) : Text :=
  slugifyName name ++ "--".toList ++ toLowerCase id

def idFromSegment (segment : Text) : Option Text :=
  (sliceAfterLast segment).bind fun id => if isUuid id then some (toLowerCase id) else none

def splitPath (pathname : Text) : List Text :=
  ((pathname.splitOn '/').filter (· ≠ [])).map fun part => (decodeURIComponent part).getD part

def searchParams (search : Text) : URLSearchParams :=
  .parse (if search.head? = some '?' then search.tail else search)

def uuidOf (id : Option Text) : Option Text :=
  (id.filter isUuid).map toLowerCase

def fileIdFromSearch (params : URLSearchParams) : Option Text :=
  uuidOf (params.get "file")

def panelFromSearch (params : URLSearchParams) : Option DrivePanel :=
  [.accounts, .faces, .indexing, .googleDrive, .security, .developer].find? fun p : DrivePanel =>
    params.get "panel" = some p.text.toList

def sortFromSearch (params : URLSearchParams) : DriveSort :=
  ([.name, .updatedAt, .createdAt, .size].find? fun s : DriveSort =>
    params.get "sort" = some s.text.toList).getD .name

def orderFromSearch (params : URLSearchParams) : DriveOrder :=
  if params.get "order" = some "desc".toList then .desc else .asc

def filtersFromSearch (params : URLSearchParams) : DriveFilters where
  category     := (params.get "type").getD []
  minSize      := (params.get "min").getD []
  maxSize      := (params.get "max").getD []
  createdFrom  := (params.get "created_from").getD []
  createdTo    := (params.get "created_to").getD []
  modifiedFrom := (params.get "modified_from").getD []
  modifiedTo   := (params.get "modified_to").getD []
  mime         := (params.get "mime").getD []
  inFolder     := params.get "in" = some "folder".toList

end

-- `if (given) params.set(name, value)`
def URLSearchParams.setIf (params : URLSearchParams) (given : Bool) (name : String) (value : Text) :
    URLSearchParams :=
  if given then params.set name value else params

def writeFilters (params : URLSearchParams) (filters : DriveFilters) : URLSearchParams :=
  params
    |>.setIf (filters.category ≠ []) "type" filters.category
    |>.setIf (filters.minSize ≠ []) "min" filters.minSize
    |>.setIf (filters.maxSize ≠ []) "max" filters.maxSize
    |>.setIf (filters.createdFrom ≠ []) "created_from" filters.createdFrom
    |>.setIf (filters.createdTo ≠ []) "created_to" filters.createdTo
    |>.setIf (filters.modifiedFrom ≠ []) "modified_from" filters.modifiedFrom
    |>.setIf (filters.modifiedTo ≠ []) "modified_to" filters.modifiedTo
    |>.setIf (filters.mime ≠ []) "mime" filters.mime
    |>.setIf filters.inFolder "in" "folder".toList

variable [Browser]

def parseDriveRoute (pathname search : Text) : DriveRoute :=
  let params := searchParams search
  let parts := splitPath pathname
  let isPart := fun (i : Nat) (name : String) => parts[i]? = some name.toList
  let alone := parts.length = 1
  if isPart 0 "photos" then
    let photos : DriveRoute := { section_ := .photos, fileId := fileIdFromSearch params }
    if isPart 1 "people" then
      { photos with photosTab := .people, personId := uuidOf parts[2]? }
    else if isPart 1 "albums" then
      { photos with photosTab := .albums, albumId := uuidOf parts[2]? }
    else
      photos
  else if isPart 0 "storage" ∧ alone then { section_ := .storage }
  else if isPart 0 "settings" ∧ isPart 1 "developer" then { panel := some .developer }
  else if isPart 0 "security" ∧ alone then { panel := some .security }
  else if parts.length = 0 ∨ isPart 0 "drive" then
    match (parts.drop (if isPart 0 "drive" then 1 else 0)).mapM idFromSegment with
    | none           => {}
    | some folderIds =>
      { folderIds
        panel   := panelFromSearch params
        query   := (params.get "q").getD []
        fileId  := fileIdFromSearch params
        sort    := sortFromSearch params
        order   := orderFromSearch params
        filters := filtersFromSearch params }
  else if isPart 0 "shared" ∧ alone then { section_ := .shared }
  else if isPart 0 "trash" ∧ alone then { section_ := .trash }
  else if isPart 0 "accounts" ∧ alone then { panel := some .accounts }
  else if isPart 0 "faces" ∧ alone then { panel := some .faces }
  else if isPart 0 "indexing" ∧ alone then { panel := some .indexing }
  else if isPart 0 "google-drive" ∧ alone then { panel := some .googleDrive }
  else {}

-- An id that is there and not empty.
def given (id : Option Text) : List Text :=
  (id.filter (· ≠ [])).toList

def setFile (params : URLSearchParams) (fileId : Option Text) : URLSearchParams :=
  params.setIf (given fileId ≠ []) "file" (toLowerCase (fileId.getD []))

def joinPath (parts : List Text) : Text :=
  '/' :: List.intercalate ['/'] (parts.map encodeURIComponent)

def suffixed (query : Text) : Text :=
  if query = [] then [] else '?' :: query

-- When a panel is written to the query.
def keepsPanel (route : DriveRoute) (folderPath : List Text) : Bool :=
  folderPath.length > 0 || route.query ≠ [] || given route.fileId ≠ [] || hasActiveFilters route.filters

def driveParams (route : DriveRoute) (folderPath : List Text) : URLSearchParams :=
  let params : URLSearchParams := []
  let params := params.setIf (route.panel.isSome && keepsPanel route folderPath) "panel"
    (route.panel.elim [] (·.text.toList))
  let params := params.setIf (route.query ≠ []) "q" route.query
  let params := setFile params route.fileId
  let params := params.setIf (route.sort ≠ .name) "sort" route.sort.text.toList
  let params := params.setIf (route.order ≠ .asc) "order" route.order.text.toList
  writeFilters params route.filters

-- The address of a panel that stands alone.
def panelPath : Option DrivePanel → Text
  | some .accounts    => "/accounts".toList
  | some .faces       => "/faces".toList
  | some .indexing    => "/indexing".toList
  | some .googleDrive => "/google-drive".toList
  | some .developer   => "/settings/developer".toList
  | some .security    => "/security".toList
  | none              => "/drive".toList

def buildDrivePath (route : DriveRoute) (folders : List NamedEntry) : Text :=
  match route.section_ with
  | .shared  => "/shared".toList
  | .trash   => "/trash".toList
  | .storage => "/storage".toList
  | .photos  =>
    let parts := "photos".toList :: match route.photosTab with
      | .timeline => []
      | .people   => "people".toList :: given route.personId
      | .albums   => "albums".toList :: given route.albumId
    joinPath parts ++ suffixed (setFile [] route.fileId).toString
  | .drive   =>
    let folderPath := folders.map fun folder => segmentFor folder.name folder.id
    let query := (driveParams route folderPath).toString
    if folderPath.length = 0 ∧ query = [] then panelPath route.panel
    else joinPath ("drive".toList :: folderPath) ++ suffixed query

def parsePublicRoute (pathname search : Text) : Option PublicRoute :=
  match splitPath pathname with
  | s :: token :: parts =>
    if s ≠ "s".toList ∨ token = [] then none
    else match parts.mapM idFromSegment with
      | none           => some { token, folderIds := [], fileId := none }
      | some folderIds => some { token, folderIds, fileId := fileIdFromSearch (searchParams search) }
  | _                   => none

def buildPublicPath (token : Text) (folders : List NamedEntry) (fileId : Option Text) : Text :=
  let parts := "s".toList :: token :: folders.map fun folder => segmentFor folder.name folder.id
  joinPath parts ++ suffixed (setFile [] fileId).toString

-- `location.pathname` and `location.search` of an address.
def pathnameOf (href : Text) : Text :=
  href.takeWhile (· ≠ '?')

def searchOf (href : Text) : Text :=
  href.dropWhile (· ≠ '?')

-- The fields that the section of a route does not use are at their defaults.
def Fits (route : DriveRoute) : Prop :=
  (route.section_ = .drive ∧ route.albumId = none ∧ route.personId = none ∧ route.photosTab = .timeline) ∨
    (route.section_ = .photos ∧ route.folderIds = [] ∧ route.panel = none ∧ route.query = [] ∧ route.sort = .name ∧
      route.order = .asc ∧ route.filters = {} ∧ (route.photosTab ≠ .people → route.personId = none) ∧
      (route.photosTab ≠ .albums → route.albumId = none))

structure Proper (route : DriveRoute) (folders : List NamedEntry) : Prop where
  fits      : Fits route
  fileId    : ∀ id ∈ route.fileId, isUuid id
  albumId   : ∀ id ∈ route.albumId, isUuid id
  personId  : ∀ id ∈ route.personId, isUuid id
  entryId   : ∀ folder ∈ folders, isUuid folder.id
  folderIds : route.folderIds = folders.map fun folder => toLowerCase folder.id

def Lowered (id : Option Text) : Prop :=
  ∀ x ∈ id, toLowerCase x = x

-- A panel is lost when the query is there for the order of the entries alone.
def PanelKept (route : DriveRoute) : Prop :=
  route.panel = none ∨ route.folderIds ≠ [] ∨ route.query ≠ [] ∨ route.fileId ≠ none ∨
    hasActiveFilters route.filters ∨ (route.sort = .name ∧ route.order = .asc)

end MyDrive.Web
