import Mathlib.Algebra.Ring.Nat
import MyDrive.Drive.Requests
import MyDrive.Google.Items

-- The sync runs of the importer: `list_one_page`, which takes the folders of the runs page by page, and
-- the ticks of the worker around it. The tables are keyed by the unique keys that the inserts name in
-- `ON CONFLICT`. Names, priorities and MIME types of the items are left out, and so is everything that
-- a download writes but the state of its item and its link.

namespace MyDrive.Google.Listing

open Drive (isControl trim)
open Transfers (isHexDigit)

def failureLimit : Nat := 8

def folderMime : String := "application/vnd.google-apps.folder"

def shortcutMime : String := "application/vnd.google-apps.shortcut"

structure ShortcutDetails where
  targetId       : Option String
  targetMimeType : Option String
  deriving DecidableEq

-- `modifiedTime` is what `parse_time` makes of it.
structure RemoteFile where
  id              : String
  name            : Option String := none
  mimeType        : Option String := none
  size            : Option String := none
  md5Checksum     : Option String := none
  modifiedTime    : Option Time := none
  shortcutDetails : Option ShortcutDetails := none
  deriving DecidableEq

structure RemoteList where
  files         : List RemoteFile
  nextPageToken : Option String := none
  deriving DecidableEq

def validGoogleId (id : String) : Bool :=
  id = "root" || (1 ≤ id.utf8ByteSize && id.utf8ByteSize ≤ 128 &&
    id.toList.all fun c => c.isAlphanum || c = '_' || c = '-')

def validPageToken (token : String) : Bool :=
  1 ≤ token.utf8ByteSize && token.utf8ByteSize ≤ 1024 && !token.toList.any isControl

inductive RemoteBody
  | download
  | export (mime extension : String)
  | skipNative
  deriving DecidableEq

def remoteBody (googleMime : String) : RemoteBody :=
  if googleMime = "application/vnd.google-apps.document" then
    .export "application/vnd.openxmlformats-officedocument.wordprocessingml.document" "docx"
  else if googleMime = "application/vnd.google-apps.spreadsheet" then
    .export "application/vnd.openxmlformats-officedocument.spreadsheetml.sheet" "xlsx"
  else if googleMime = "application/vnd.google-apps.presentation" then
    .export "application/vnd.openxmlformats-officedocument.presentationml.presentation" "pptx"
  else if googleMime = "application/vnd.google-apps.drawing" then
    .export "image/png" "png"
  else if "application/vnd.google-apps.".toList.isPrefixOf googleMime.toList then
    .skipNative
  else
    .download

-- `str::parse::<i64>`, of a size that is not negative.
def parseSize (value : String) : Option Nat :=
  let digits (ds : List Char) : Option Nat :=
    if ds = [] || !ds.all Char.isDigit then none
    else some (ds.foldl (fun n c => 10 * n + (c.toNat - '0'.toNat)) 0)
  match value.toList with
  | '-' :: ds => (digits ds).filter (· = 0)
  | '+' :: ds => (digits ds).filter (· < 2 ^ 63)
  | ds        => (digits ds).filter (· < 2 ^ 63)

def normalizedMd5 (value : String) : Option String :=
  let cs := (trim value.toList).map Char.toLower
  if cs.length = 32 && cs.all isHexDigit then some (String.ofList cs) else none

-- What a listed file is for the run.
inductive Target
  | folder (id : String)
  | file (id mime : String)
  deriving DecidableEq

def RemoteFile.target (f : RemoteFile) : Option Target :=
  let mime := f.mimeType.getD "application/octet-stream"
  if mime = shortcutMime then
    ((f.shortcutDetails.bind (·.targetId)).filter validGoogleId).map fun id =>
      let targetMime := (f.shortcutDetails.bind (·.targetMimeType)).getD ""
      if targetMime = folderMime then .folder id else .file id targetMime
  else if !validGoogleId f.id then none
  else if mime = folderMime then some (.folder f.id)
  else some (.file f.id mime)

inductive RunState
  | listing
  | downloading
  | completed
  | failed
  | cancelled
  deriving DecidableEq

structure Source where
  ownerId        : Id
  googleFolderId : String
  localFolderId  : Id
  deriving DecidableEq

structure Run where
  sourceId          : Id
  ownerId           : Id
  state             : RunState := .listing
  discoveredFiles   : Nat := 0
  discoveredFolders : Nat := 0
  discoveredBytes   : Nat := 0
  skippedFiles      : Nat := 0
  deriving DecidableEq

def Run.active (r : Run) : Bool :=
  r.state = .listing || r.state = .downloading

-- A row of `google_drive_list_queue`.
structure QueueRow where
  id            : Id
  localFolderId : Option Id
  pageToken     : Option String := none
  done          : Bool := false
  deriving DecidableEq

structure Item where
  sourceId      : Id
  ownerId       : Id
  parentLocalId : Id
  sizeBytes     : Option Nat
  md5Checksum   : Option String
  modifiedAt    : Option Time
  state         : ItemState
  exportMime    : Option String
  errorCode     : Option String
  deriving DecidableEq

structure Link where
  localEntryId : Id
  md5Checksum  : Option String := none
  sizeBytes    : Option Nat := none
  modifiedAt   : Option Time := none
  deriving DecidableEq

structure Tables where
  sources : Table Id Source := .empty
  runs    : Table Id Run := .empty
  queue   : Table (Id × String) QueueRow := .empty
  items   : Table (Id × String) Item := .empty
  links   : Table (Id × String) Link := .empty
  entries : Table Id Drive.Entry := .empty
  next    : Id := 1

def contentUnchanged (link : Link) (remoteMd5 : Option String) (remoteSize : Option Nat)
    (remoteModified : Option Time) : Bool :=
  match link.md5Checksum, remoteMd5 with
  | some stored, some remote => stored.toList.map Char.toLower = remote.toList.map Char.toLower
  | _, _                     =>
    link.sizeBytes.isSome && link.sizeBytes = remoteSize &&
      link.modifiedAt.isSome && link.modifiedAt = remoteModified

-- The row that a page is taken from.
structure ListPage where
  runId          : Id
  sourceId       : Id
  ownerId        : Id
  googleFolderId : String
  localFolderId  : Option Id
  pageToken      : Option String
  deriving DecidableEq

namespace Tables

variable (t : Tables)

def updateRun (run : Id) (f : Run → Run) : Tables :=
  { t with runs := t.runs.filterMap fun id r => some (if id = run then f r else r) }

def insertEntry (e : Drive.Entry) : Tables :=
  { t with entries := t.entries.set t.next e, next := t.next + 1 }

def setLink (owner : Id) (googleFileId : String) (link : Link) : Tables :=
  { t with links := t.links.set (owner, googleFileId) link }

-- `name` is the one that `insert_named_entry` has found for the entry.
def createChildFolder (owner : Id) (parent : Option Id) (name : String) : Tables × Id :=
  (t.insertEntry { ownerId := owner, parentId := parent, kind := .folder, name }, t.next)

def linkedFolder (owner : Id) (googleFolderId : String) : Option Id :=
  (t.links.lookup (owner, googleFolderId)).bind fun link =>
    (t.entries.lookup link.localEntryId).bind fun e =>
      if e.kind = .folder && e.deletedAt = none then some link.localEntryId else none

-- The name is missing if `insert_named_entry` fails.
def ensureLinkedFolder (owner : Id) (parent : Option Id) (googleFolderId : String)
    (name : Option String) : Option (Tables × Id) :=
  match t.linkedFolder owner googleFolderId with
  | some id => some (t, id)
  | none    => name.map fun name =>
    let (t, id) := t.createChildFolder owner parent name
    (t.setLink owner googleFolderId { localEntryId := id }, id)

def rememberFolder (page : ListPage) (parent : Id) (googleFolderId : String)
    (name : Option String) : Option Tables :=
  (t.ensureLinkedFolder page.ownerId (some parent) googleFolderId name).map fun (t, id) =>
    match t.queue.lookup (page.runId, googleFolderId) with
    | some _ => t
    | none   =>
      { t with
        queue := t.queue.set (page.runId, googleFolderId) { id := t.next, localFolderId := some id }
        next  := t.next + 1 }.updateRun page.runId fun r =>
          { r with discoveredFolders := r.discoveredFolders + 1 }

-- The item that a file is recorded as.
def listedItem (page : ListPage) (parent : Id) (file : RemoteFile) (googleFileId googleMime : String) :
    Item :=
  let sizeBytes := file.size.bind parseSize
  let md5Checksum := file.md5Checksum.bind normalizedMd5
  let item (state : ItemState) (exportMime errorCode : Option String) : Item :=
    { sourceId      := page.sourceId
      ownerId       := page.ownerId
      parentLocalId := parent
      sizeBytes
      md5Checksum
      modifiedAt    := file.modifiedTime
      state
      exportMime
      errorCode }
  let unchanged := (t.links.lookup (page.ownerId, googleFileId)).any fun link =>
    contentUnchanged link md5Checksum sizeBytes file.modifiedTime
  let state := if unchanged then .skipped else .pending
  match remoteBody googleMime with
  | .skipNative    => item .skipped none (some "google_native_skipped")
  | .download      => item state none none
  | .export mime _ => item state (some mime) none

def rememberFile (page : ListPage) (parent : Id) (file : RemoteFile) (googleFileId googleMime : String) :
    Tables :=
  match t.items.lookup (page.runId, googleFileId) with
  | some _ => t
  | none   =>
    let item := t.listedItem page parent file googleFileId googleMime
    { t with items := t.items.set (page.runId, googleFileId) item }.updateRun page.runId fun r =>
      { r with
        discoveredFiles := r.discoveredFiles + 1
        discoveredBytes := r.discoveredBytes + item.sizeBytes.getD 0
        skippedFiles    := r.skippedFiles + (if item.state = ItemState.skipped then 1 else 0) }

def recordRemote (page : ListPage) (parent : Id) (file : RemoteFile) (name : Option String) :
    Option Tables :=
  match file.target with
  | none                   => some t
  | some (.folder id)      => t.rememberFolder page parent id name
  | some (.file id mime)   => some (t.rememberFile page parent file id mime)

-- A file that is stored may be a new entry, and gets a link.
def storeFile (owner : Id) (googleFileId : String) (e : Option Drive.Entry) (link : Link) :
    Option Tables :=
  let t := e.elim t t.insertEntry
  if (t.entries.lookup link.localEntryId).isSome then some (t.setLink owner googleFileId link) else none

-- `UPDATE google_drive_list_queue`.
def advance (k : Id × String) (next : Option String) : Tables :=
  { t with queue := t.queue.filterMap fun k' q => some <|
    if k' = k then { q with pageToken := next, done := next.isNone } else q }

def startRun (source : Id) (s : Source) : Tables :=
  { t with
    runs  := t.runs.set t.next { sourceId := source, ownerId := s.ownerId }
    queue := t.queue.set (t.next, s.googleFolderId)
      { id := t.next + 1, localFolderId := some s.localFolderId }
    next  := t.next + 2 }

def unlisted (run : Id) : Bool :=
  t.queue.any fun k q => k.1 = run && !q.done

def unsettled (run : Id) : Bool :=
  t.items.any fun k i => k.1 = run &&
    (i.state = .pending || i.state = .downloading || i.state = .committing)

def finishRuns : Tables :=
  { t with runs := t.runs.filterMap fun id r => some <|
    if r.active && !t.unlisted id then
      { r with state := if t.unsettled id then .downloading else .completed }
    else r }

def failActiveRuns : Tables :=
  { t with runs := t.runs.filterMap fun _ r => some (if r.active then { r with state := .failed } else r) }

end Tables

-- The target is listed on some page of the account.
def Listed (list : String → Option String → Option RemoteList) (target : Target) : Prop :=
  ∃ folder token l, ∃ file ∈ l.files, list folder token = some l ∧ file.target = some target

-- What an account sees of Google Drive: the pages of its folders, where a request without an answer is
-- one that is not successful. The graph does not change and has finitely many folders, each of which
-- has finitely many pages. What is a folder on one page is no file on another.
structure Remote where
  list    : String → Option String → Option RemoteList
  folders : List String
  left    : String → Option String → Nat
  ends    : ∀ {folder token l next}, list folder token = some l → l.nextPageToken = some next →
    left folder (some next) < left folder token
  closed  : ∀ {id}, Listed list (.folder id) → id ∈ folders
  kinds   : ∀ {id mime}, Listed list (.folder id) → ¬ Listed list (.file id mime)

-- The page that the worker is at, with the files that it has not recorded yet.
structure Work where
  page : ListPage
  todo : List RemoteFile
  next : Option String
  deriving DecidableEq

-- `read` is written when every file of the page has been recorded.
inductive Event
  | recorded (run : Id) (googleFileId : String)
  | read (run : Id) (folder : String) (token : Option String)
  | listed (run : Id) (folder : String)
  deriving DecidableEq

def Tables.newItem (t : Tables) (page : ListPage) (file : RemoteFile) : List Event :=
  match file.target with
  | some (.file id _) =>
    if (t.items.lookup (page.runId, id)).isSome then [] else [.recorded page.runId id]
  | _                 => []

def ListPage.reading (page : ListPage) (todo : List RemoteFile) : List Event :=
  if todo = [] then [.read page.runId page.googleFolderId page.pageToken] else []

-- `barred` are the runs whose source, connection or account is switched off.
structure World where
  tables   : Tables := {}
  barred   : List Id := []
  work     : Option Work := none
  failures : Nat := 0
  history  : List Event := []

inductive Action
  | addSource (owner : Id) (folder name : String)
  | start (source : Id)
  | setBarred (runs : List Id)
  | cancel (run : Id)
  | download (run : Id) (googleFileId : String) (state : ItemState)
    (stored : Option (Option Drive.Entry × Link))
  | fetch
  | record (name : Option String)
  | finish
  | fail
  | idle
  | crash

namespace World

variable (remote : Id → Remote)

def waiting (w : World) (k : Id × String) (q : QueueRow) : Bool :=
  !q.done && !w.barred.contains k.1 && (w.tables.runs.lookup k.1).any (·.active)

def first : List ((Id × String) × QueueRow) → Option ((Id × String) × QueueRow)
  | []      => none
  | r :: rs =>
    match first rs with
    | none    => some r
    | some r' => if r'.2.id < r.2.id then some r' else some r

def pick (w : World) : Option ListPage :=
  (first (w.tables.queue.rows.filter fun r => w.waiting r.1 r.2)).bind fun r =>
    (w.tables.runs.lookup r.1.1).map fun run =>
      { runId          := r.1.1
        sourceId       := run.sourceId
        ownerId        := run.ownerId
        googleFolderId := r.1.2
        localFolderId  := r.2.localFolderId
        pageToken      := r.2.pageToken }

def addSource (w : World) (owner : Id) (folder name : String) : Option World :=
  if (remote owner).folders.contains folder &&
      !w.tables.sources.any (fun _ s => s.ownerId = owner && s.googleFolderId = folder) then
    let r := w.tables.createChildFolder owner none name
    let source : Source := { ownerId := owner, googleFolderId := folder, localFolderId := r.2 }
    some { w with tables := { r.1 with
      sources := r.1.sources.set r.1.next source
      next    := r.1.next + 1 } }
  else
    none

def start (w : World) (source : Id) : Option World :=
  if w.tables.runs.any fun _ r => r.sourceId = source && r.active then none
  else (w.tables.sources.lookup source).map fun s => { w with tables := w.tables.startRun source s }

-- A download ends the failures in a row, and its file may be stored, under the id of the item.
def download (w : World) (run : Id) (id : String) (state : ItemState)
    (stored : Option (Option Drive.Entry × Link)) : Option World :=
  (w.tables.items.lookup (run, id)).bind fun item =>
    let t := { w.tables with items := w.tables.items.set (run, id) { item with state } }
    let t' := stored.elim (some t) fun s => t.storeFile item.ownerId id s.1 s.2
    t'.map fun tables => { w with failures := 0, tables }

def fetch (w : World) : Option World :=
  match w.work with
  | some _ => none
  | none   => w.pick.bind fun page =>
    ((remote page.ownerId).list page.googleFolderId page.pageToken).bind fun l =>
      page.localFolderId.map fun _ =>
        { w with
          work    := some { page, todo := l.files, next := l.nextPageToken.filter validPageToken }
          history := w.history ++ page.reading l.files }

def record (w : World) (name : Option String) : Option World :=
  match w.work with
  | some ⟨page, file :: todo, next⟩ =>
    page.localFolderId.bind fun parent =>
      (w.tables.recordRemote page parent file name).map fun tables =>
        { w with
          tables
          work    := some ⟨page, todo, next⟩
          history := w.history ++ w.tables.newItem page file ++ page.reading todo }
  | _                               => none

-- The end of a tick that has worked.
def finish (w : World) : Option World :=
  match w.work with
  | some ⟨page, [], next⟩ =>
    some { w with
      tables   := w.tables.advance (page.runId, page.googleFolderId) next
      work     := none
      failures := 0
      history  := w.history ++ if next = none then [.listed page.runId page.googleFolderId] else [] }
  | _                     => none

-- A tick that fails, at any point of `list_one_page` or elsewhere.
def fail (w : World) : World :=
  if failureLimit ≤ w.failures + 1 then
    { w with work := none, failures := 0, tables := w.tables.failActiveRuns }
  else
    { w with work := none, failures := w.failures + 1 }

-- A tick that lists nothing, because nothing waits or because the token of the account has expired.
def idle (w : World) : Option World :=
  match w.work with
  | some _ => none
  | none   => some { w with failures := 0, tables := w.tables.finishRuns }

def step (w : World) : Action → Option World
  | .addSource owner folder name     => w.addSource remote owner folder name
  | .start source                    => w.start source
  | .setBarred barred                => some { w with barred }
  | .cancel run                      => some { w with tables := w.tables.updateRun run fun r =>
      if r.active then { r with state := .cancelled } else r }
  | .download run id state stored    => w.download run id state stored
  | .fetch                           => w.fetch remote
  | .record name                     => w.record name
  | .finish                          => w.finish
  | .fail                            => some w.fail
  | .idle                            => w.idle
  | .crash                           => some { w with work := none, failures := 0 }

end World
end MyDrive.Google.Listing
