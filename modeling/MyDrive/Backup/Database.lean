import MyDrive.Drive.Database

-- `LocalDatabase` of the Windows client: the server profile, the documents of the jobs, the file index
-- and the upload queue. Both sides write hashes in lowercase, so they are compared as they are. What
-- only the UI reads (names, error texts, activity, logs, notifications) is left out.

namespace MyDrive.Backup

structure ServerProfile where
  url           : String
  allowInsecure : Bool := false
  connected     : Bool := false
  accountEmail  : Option String := none
  deviceId      : Option Id := none
  lastError     : Option String := none
  deriving DecidableEq

inductive DeletionPolicy
  | keep
  | trash
  | delay
  deriving DecidableEq

inductive BackupMode
  | continuous
  | scheduled
  | manual
  deriving DecidableEq

inductive ScheduleKind
  | minutes
  | hourly
  | daily
  | weekly
  deriving DecidableEq

inductive JobStatus
  | idle
  | scanning
  | paused
  | pausedServer
  | missingFolder
  deriving DecidableEq

-- The fields of a `BackupJob` that only the user sets.
structure JobSettings where
  sourcePath          : String := ""
  destination         : String := ""
  mode                : BackupMode := .continuous
  scheduleKind        : ScheduleKind := .daily
  scheduleEveryMinutes : Int := 60
  scheduleHour        : Int := 2
  scheduleMinute      : Int := 0
  scheduleWeekday     : Int := 1
  includeExtensions   : List String := []
  excludeExtensions   : List String := [".tmp", ".log", ".cache"]
  excludeFolders      : List String := ["node_modules", ".git", "target", "dist", ".cache", "Temp"]
  excludePatterns     : List String := ["*.tmp", "*.log", "**/.git/**", "**/node_modules/**"]
  maxFileBytes        : Option Nat := none
  minFileBytes        : Option Nat := none
  backupHidden        : Option Bool := none
  backupSystem        : Option Bool := none
  followSymlinks      : Option Bool := none
  deletionPolicy      : DeletionPolicy := .keep
  deletionDelayDays   : Int := 30
  deriving DecidableEq

structure BackupJob extends JobSettings where
  boundServer    : String := ""
  paused         : Bool := false
  status         : JobStatus := .idle
  scanGeneration : Nat := 0
  lastScanAt     : Option Time := none
  lastSuccessAt  : Option Time := none
  deriving DecidableEq

-- What a scan sees of a file without reading it.
structure Stamp where
  fileSize       : Nat
  modifiedUnixMs : Nat
  deriving DecidableEq

inductive RowStatus
  | pending
  | settling
  | backedUp
  | localMissing
  | deleteScheduled
  | deleted
  deriving DecidableEq

structure FileIndexRow extends Stamp where
  contentHash     : Option String := none
  remoteFileId    : Option Id := none
  remoteVersionId : Option Id := none
  remoteChecksum  : Option String := none
  status          : RowStatus := .pending
  seenGeneration  : Nat := 0
  deleteAfter     : Option Time := none
  deriving DecidableEq

-- The primary key of `file_index`: the job and the relative path.
abbrev FileKey := Id × String

inductive QueueState
  | waiting
  | hashing
  | checkingServer
  | uploading
  | paused
  | completed
  | skipped
  | failed
  | retrying
  deriving DecidableEq

structure UploadItem extends Stamp where
  jobId          : Id
  relativePath   : String
  state          : QueueState := .waiting
  bytesSent      : Nat := 0
  remoteUploadId : Option Id := none
  remoteParentId : Option Id := none
  existingFileId : Option Id := none
  contentHash    : Option String := none
  retryCount     : Nat := 0
  nextRetryAt    : Option Time := none
  createdAt      : Time := 0
  deriving DecidableEq

def UploadItem.key (item : UploadItem) : FileKey :=
  (item.jobId, item.relativePath)

def QueueState.terminal : QueueState → Bool
  | .completed => true
  | .skipped   => true
  | .failed    => true
  | _          => false

-- The states of an item that a worker has claimed.
def QueueState.claimed : QueueState → Bool
  | .hashing        => true
  | .checkingServer => true
  | .uploading      => true
  | _               => false

structure Database where
  server : Option ServerProfile := none
  paused : Bool := false
  jobs   : Table Id BackupJob := .empty
  index  : Table FileKey FileIndexRow := .empty
  queue  : Table Id UploadItem := .empty

-- The state of an item that `Enqueue` keeps when the content is the same.
def QueueState.renewed (new : QueueState) : QueueState → QueueState
  | .retrying       => .retrying
  | .paused         => .paused
  | .hashing        => .hashing
  | .checkingServer => .checkingServer
  | .uploading      => .waiting
  | _               => new

-- The item that `Enqueue` writes over one that is not done.
def UploadItem.renewed (item current : UploadItem) : UploadItem :=
  if current.contentHash = item.contentHash then
    { item with
      remoteUploadId := current.remoteUploadId
      bytesSent      := current.bytesSent
      retryCount     := current.retryCount
      state          := item.state.renewed current.state }
  else
    item

namespace Database

variable (db : Database)

def saveServer (profile : ServerProfile) : Database :=
  { db with server := some profile }

def saveJob (id : Id) (job : BackupJob) : Database :=
  { db with jobs := db.jobs.set id job }

def deleteJob (id : Id) : Database :=
  { db with
    queue := db.queue.filterMap fun _ item => if item.jobId = id then none else some item
    index := db.index.filterMap fun k row => if k.1 = id then none else some row
    jobs  := db.jobs.erase id }

-- `none` is the exception for a job that does not exist.
def nextScanGeneration (id : Id) : Option (Database × Nat) :=
  (db.jobs.lookup id).map fun job =>
    let generation := job.scanGeneration + 1
    (db.saveJob id { job with scanGeneration := generation }, generation)

def upsertIndex (k : FileKey) (row : FileIndexRow) : Database :=
  { db with index := db.index.set k row }

def deleteIndex (k : FileKey) : Database :=
  { db with index := db.index.erase k }

def selectIndex (p : FileKey → FileIndexRow → Bool) : List (FileKey × FileIndexRow) :=
  db.index.rows.filter fun r => p r.1 r.2

def listUnseen (job : Id) (generation : Nat) : List (FileKey × FileIndexRow) :=
  db.selectIndex fun k row => k.1 = job && row.seenGeneration < generation && row.status = .backedUp

def listByHash (job : Id) (hash : String) (size generation : Nat) : List (FileKey × FileIndexRow) :=
  db.selectIndex fun k row => k.1 = job && row.contentHash = some hash && row.fileSize = size &&
    row.seenGeneration = generation && row.status = .pending

def listDueDeletions (now : Time) : List (FileKey × FileIndexRow) :=
  db.selectIndex fun _ row => row.deleteAfter.any (· ≤ now) && row.status ≠ .deleted

def listBackedUp : List (FileKey × FileIndexRow) :=
  db.selectIndex fun _ row => row.status = .backedUp

def clearJobIndex (job : Id) : Database :=
  { db with
    index := db.index.filterMap fun k row => if k.1 = job then none else some row
    queue := db.queue.filterMap fun _ item =>
      if item.jobId = job && item.state ≠ .completed then none else some item }

def deleteSettling (job : Id) (generation : Nat) : Database :=
  { db with
    index := db.index.filterMap fun k row =>
      if k.1 = job && row.seenGeneration < generation && row.status = .settling then none
      else some row }

-- The columns that `ON CONFLICT` does not write keep their values.
def saveQueue (id : Id) (item : UploadItem) : Database :=
  let row := match db.queue.lookup id with
    | none     => item
    | some old => { item with
        jobId        := old.jobId
        relativePath := old.relativePath
        createdAt    := old.createdAt }
  { db with queue := db.queue.set id row }

def updateQueue (f : UploadItem → UploadItem) : Database :=
  { db with queue := db.queue.filterMap fun _ item => some (f item) }

def queued (k : FileKey) : List Id :=
  (db.queue.rows.filter fun r => r.2.key = k && !r.2.state.terminal).map Prod.fst

-- `existing` is the row that the `SELECT` returns, one of those that `queued` has. A new item gets
-- the id `new`.
def enqueue (existing : Option Id) (new : Id) (item : UploadItem) : Option Database :=
  match existing with
  | none    => if db.queued item.key = [] then some (db.saveQueue new item) else none
  | some id =>
    if id ∈ db.queued item.key then
      (db.queue.lookup id).map fun current => db.saveQueue id (item.renewed current)
    else
      none

def claimable (now : Time) (item : UploadItem) : Bool :=
  (item.state = .waiting || item.state = .retrying) &&
    (db.jobs.lookup item.jobId).any (!·.paused) && item.nextRetryAt.all (· ≤ now)

-- `id` is the row that `ORDER BY created_at LIMIT 1` returns.
def claimNext (now : Time) (id : Id) : Option (Database × UploadItem) :=
  (db.queue.lookup id).bind fun item =>
    if db.claimable now item &&
        !db.queue.any fun _ other => db.claimable now other && other.createdAt < item.createdAt then
      let item := { item with state := .uploading }
      some ({ db with queue := db.queue.set id item }, item)
    else
      none

def idle (now : Time) : Bool :=
  !db.queue.any fun _ item => db.claimable now item

def resetInterrupted : Database :=
  db.updateQueue fun item => if item.state.claimed then { item with state := .waiting } else item

def finishQueued (k : FileKey) (state : QueueState) : Database :=
  db.updateQueue fun item =>
    if item.key = k && !item.state.terminal then { item with state } else item

def resumePausedQueue : Database :=
  db.updateQueue fun item =>
    if item.state = .paused then { item with state := .waiting, nextRetryAt := none } else item

end Database
end MyDrive.Backup
