import MyDrive.Google.Listing
import MyDrive.Library.Sum

-- The ticks of the worker around the listing of pages, with the statements that count the items of a
-- run and those that change their states. The drive itself, of which a run reads entries and links,
-- may become anything at any time.

namespace MyDrive.Google

namespace Listing.Tables

variable (t : Tables)

-- `SELECT COUNT(*)` of the items of a run.
def number (run : Id) (p : ItemState → Bool) : Nat :=
  t.items.sum fun k i => if k.1 = run && p i.state then 1 else 0

-- An `UPDATE` of the state of an item that is in one of `states`, and whether it has affected a row.
def moveItem (k : Id × String) (states : List ItemState) (state : ItemState) : Tables :=
  { t with items := t.items.filterMap fun k' i => some <|
    if k' = k && states.contains i.state then { i with state } else i }

def holds (k : Id × String) (states : List ItemState) : Bool :=
  (t.items.lookup k).any fun i => states.contains i.state

def recoverDownloads : Tables :=
  { t with items := t.items.filterMap fun _ i => some <|
    if i.state = .downloading then { i with state := .pending } else i }

def cancelRuns (runs : List Id) : Tables :=
  { t with runs := t.runs.filterMap fun id r => some <|
    if runs.contains id && r.active then { r with state := .cancelled } else r }

def deletable (items : List (Id × String)) (k : Id × String) (i : Item) : Bool :=
  items.contains k && i.state = .pending

def deleteItems (items : List (Id × String)) : Tables :=
  { t with items := t.items.filterMap fun k i => if deletable items k i then none else some i }

-- The sources go, and take their runs with them, the pages of these, and the items of both.
def dropSources (gone : Id → Bool) : Tables :=
  let orphan (run : Id) := (t.runs.lookup run).any fun r => gone r.sourceId
  { t with
    sources := t.sources.filterMap fun id s => if gone id then none else some s
    runs    := t.runs.filterMap fun _ r => if gone r.sourceId then none else some r
    queue   := t.queue.filterMap fun k q => if orphan k.1 then none else some q
    items   := t.items.filterMap fun k i => if gone i.sourceId || orphan k.1 then none else some i }

end Listing.Tables

namespace Sync

open Listing (failureLimit Tables ListPage RemoteList Work)

def maxSources : Nat := 20

-- The columns of a run that the listing does not write.
structure Tally where
  downloadedFiles : Nat := 0
  failedFiles     : Nat := 0
  deriving DecidableEq

-- A transaction of `remove_source`, which has the rows that its statements have written, and in the end
-- whether an item of the source is being committed.
inductive Removal
  | cancelled (source : Id) (runs : List Id)
  | deleted (source : Id) (runs : List Id) (items : List (Id × String))
  | counted (source : Id) (runs : List Id) (items : List (Id × String)) (committing : Bool)
  deriving DecidableEq

-- What the worker has come to in its tick.
inductive Stage
  | tick
  | recovered
  | resuming (item : Id × String)
  | resumed
  | claimed (item : Id × String)
  | staged (item : Id × String)
  | committed (item : Id × String)
  | failing (item : Id × String)
  | failed (run : Id)
  | unclaimed
  | listing (work : Work)
  | unlisted
  deriving DecidableEq

-- `suspended` are the sources whose connection or account is switched off, and `deleted` the items that
-- removals have deleted while they kept the source.
structure World where
  tables    : Tables := {}
  tallies   : Table Id Tally := .empty
  disabled  : List Id := []
  suspended : List Id := []
  removals  : Table Nat Removal := .empty
  stage     : Stage := .tick
  failures  : Nat := 0
  deleted   : List (Id × String) := []

inductive Action
  | setDrive (entries : Table Id Drive.Entry) (links : Table (Id × String) Listing.Link)
  | suspend (sources : List Id)
  | selectSource (owner : Id) (folder name : String)
  | startRun (source : Id)
  | disconnect (owner : Id)
  | cancelRuns (request : Nat) (source : Id)
  | deleteItems (request : Nat)
  | countCommitting (request : Nat)
  | commitRemoval (request : Nat)
  | rollback (request : Nat)
  | recoverDownloads
  | resumeCommit (item : Option (Id × String))
  | finishReady
  | abandonCommit
  | postpone
  | defer
  | claimItem (item : Option (Id × String))
  | stageDownload
  | commitStaged
  | releaseItem
  | refuse (lowSpace : Bool)
  | failItem
  | countFailed
  | listPage (answer : Option RemoteList)
  | record (name : Option String)
  | advance
  | finishRuns
  | fail (marks : Bool)
  | crash

namespace World

variable (w : World)

def updateTally (run : Id) (f : Tally → Tally) : World :=
  { w with tallies := w.tallies.filterMap fun id y => some (if id = run then f y else y) }

-- The tick is over and has worked, or has found nothing to do.
def worked : World :=
  { w with stage := .tick, failures := 0 }

def withItem (k : Id × String) (states : List ItemState) (state : ItemState) : World :=
  { w with tables := w.tables.moveItem k states state }

def dropSources (gone : Id → Bool) : World :=
  let tables := w.tables.dropSources gone
  { w with
    tables
    tallies := w.tallies.filterMap fun id y => if (tables.runs.lookup id).isSome then some y else none }

-- `start_run`, where the run refers to its source.
def startRun (source : Id) : Option World :=
  (w.tables.sources.lookup source).map fun s =>
    { w with
      tables  := w.tables.startRun source s
      tallies := w.tallies.set w.tables.next {} }

def selectSource (owner : Id) (folder name : String) : Option World :=
  let known := w.tables.sources.rows.filter fun r => r.2.ownerId = owner
  if maxSources ≤ (known.filter fun r => !w.disabled.contains r.1).length then none
  else
    let (t, localFolderId) := w.tables.createChildFolder owner none name
    let source : Listing.Source := { ownerId := owner, googleFolderId := folder, localFolderId }
    match known.find? fun r => r.2.googleFolderId = folder with
    | none   =>
      let tables := { t with sources := t.sources.set t.next source, next := t.next + 1 }
      { w with tables }.startRun t.next
    | some r =>
      if w.disabled.contains r.1 then
        let tables := { t with sources := t.sources.set r.1 source }
        { w with tables, disabled := w.disabled.filter (· ≠ r.1) }.startRun r.1
      else
        none

def disconnect (owner : Id) : World :=
  w.dropSources fun id => (w.tables.sources.lookup id).any (·.ownerId = owner)

def cancelRuns (request : Nat) (source : Id) : Option World :=
  if (w.removals.lookup request).isNone && (w.tables.sources.lookup source).isSome &&
      !w.disabled.contains source then
    let runs := (w.tables.runs.rows.filter fun r => r.2.sourceId = source && r.2.active).map (·.1)
    some { w with removals := w.removals.set request (.cancelled source runs) }
  else
    none

def deleteItems (request : Nat) : Option World :=
  match w.removals.lookup request with
  | some (.cancelled source runs) =>
    let items := w.tables.items.rows.filter fun r => r.2.sourceId = source && r.2.state = .pending
    some { w with removals := w.removals.set request (.deleted source runs (items.map (·.1))) }
  | _                             => none

def countCommitting (request : Nat) : Option World :=
  match w.removals.lookup request with
  | some (.deleted source runs items) =>
    let committing := w.tables.items.any fun _ i => i.sourceId = source && i.state = .committing
    some { w with removals := w.removals.set request (.counted source runs items committing) }
  | _                                 => none

def commitRemoval (request : Nat) : Option World :=
  match w.removals.lookup request with
  | some (.counted source runs items committing) =>
    let w := { w with removals := w.removals.erase request }
    if committing then
      let gone := w.tables.items.rows.filter fun r => Tables.deletable items r.1 r.2
      some { w with
        tables   := (w.tables.cancelRuns runs).deleteItems items
        disabled := source :: w.disabled
        deleted  := w.deleted ++ gone.map (·.1) }
    else
      some (w.dropSources (· = source))
  | _                                            => none

def resumeCommit (item : Option (Id × String)) : Option World :=
  match w.stage, item with
  | .recovered, some k =>
    if w.tables.holds k [.committing] then some { w with stage := .resuming k } else none
  | .recovered, none   =>
    if w.tables.items.any fun _ i => i.state = .committing then none else some { w with stage := .resumed }
  | _, _               => none

-- The transaction of `finish_ready`.
def finishReady : Option World :=
  match w.stage with
  | .resuming k | .committed k =>
    if w.tables.holds k [.committing] then
      some ((w.withItem k [.committing] .stored).updateTally k.1 fun y =>
        { y with downloadedFiles := y.downloadedFiles + 1 }).worked
    else
      some w.worked
  | _                          => none

def abandonCommit : Option World :=
  match w.stage with
  | .resuming k =>
    if w.tables.holds k [.committing] then
      some ((w.withItem k [.committing] .failed).updateTally k.1 fun y =>
        { y with failedFiles := y.failedFiles + 1 }).worked
    else
      some w.worked
  | _           => none

-- The file stays where it is until the next tick.
def postpone : Option World :=
  match w.stage with
  | .resuming _ | .committed _ => some w.worked
  | _                          => none

def defer : Option World :=
  match w.stage with
  | .resumed => some { w with stage := .tick }
  | _        => none

def switchedOff (source : Id) : Bool :=
  w.disabled.contains source || w.suspended.contains source

def claimable (k : Id × String) : Bool :=
  w.tables.holds k [.pending] &&
    (w.tables.runs.lookup k.1).any fun r => r.active && !w.switchedOff r.sourceId

-- Without an item there may still be rows that another transaction has locked.
def claimItem (item : Option (Id × String)) : Option World :=
  match w.stage, item with
  | .resumed, some k =>
    if w.claimable k then some { w.withItem k [.pending] .downloading with stage := .claimed k } else none
  | .resumed, none   => some { w with stage := .unclaimed }
  | _, _             => none

def stageDownload : Option World :=
  match w.stage with
  | .claimed k => some { w with stage := .staged k }
  | _          => none

def commitStaged : Option World :=
  match w.stage with
  | .staged k => some { w.withItem k [.downloading] .committing with stage := .committed k }
  | _         => none

def releaseItem : Option World :=
  match w.stage with
  | .claimed k => some { w.withItem k [.downloading] .pending with stage := .tick }
  | _          => none

-- An error that is kept with the item. A commit may have been made whose answer is an error.
def refuse (lowSpace : Bool) : Option World :=
  match w.stage with
  | .claimed k                 =>
    some { w with stage := .failing k, tables := if lowSpace then w.tables.failActiveRuns else w.tables }
  | .staged k | .committed k   => some { w with stage := .failing k }
  | _                          => none

-- The two statements of `fail_item`.
def failItem : Option World :=
  match w.stage with
  | .failing k =>
    let states : List ItemState := [.pending, .downloading]
    if w.tables.holds k states then some { w.withItem k states .failed with stage := .failed k.1 }
    else some w.worked
  | _          => none

def countFailed : Option World :=
  match w.stage with
  | .failed run => some (w.updateTally run fun y => { y with failedFiles := y.failedFiles + 1 }).worked
  | _           => none

def barred : List Id :=
  (w.tables.runs.rows.filter fun r => w.switchedOff r.2.sourceId).map (·.1)

-- Without an answer there is no page, or the authorization of the account has expired.
def listPage (answer : Option RemoteList) : Option World :=
  match w.stage, answer with
  | .unclaimed, none   => some { w with stage := .unlisted }
  | .unclaimed, some l =>
    let listing : Listing.World := { tables := w.tables, barred := w.barred }
    listing.pick.bind fun page => page.localFolderId.map fun _ =>
      let work : Work := { page, todo := l.files, next := l.nextPageToken.filter Listing.validPageToken }
      { w with stage := .listing work }
  | _, _               => none

-- The rows of a file refer to its run.
def record (name : Option String) : Option World :=
  match w.stage with
  | .listing ⟨page, file :: todo, next⟩ =>
    if file.target = none || (w.tables.runs.lookup page.runId).isSome then
      page.localFolderId.bind fun parent =>
        (w.tables.recordRemote page parent file name).map fun tables =>
          { w with tables, stage := .listing ⟨page, todo, next⟩ }
    else
      none
  | _                                   => none

def advance : Option World :=
  match w.stage with
  | .listing ⟨page, [], next⟩ =>
    some { w with tables := w.tables.advance (page.runId, page.googleFolderId) next }.worked
  | _                         => none

def finishRuns : Option World :=
  match w.stage with
  | .unlisted => some { w with tables := w.tables.finishRuns }.worked
  | _         => none

-- The runs stay as they are if `fail_active_runs` fails too.
def fail (marks : Bool) : World :=
  if failureLimit ≤ w.failures + 1 then
    { w with
      stage    := .tick
      failures := 0
      tables   := if marks then w.tables.failActiveRuns else w.tables }
  else
    { w with stage := .tick, failures := w.failures + 1 }

def step : Action → Option World
  | .setDrive entries links        => some { w with tables := { w.tables with entries, links } }
  | .suspend suspended             => some { w with suspended }
  | .selectSource owner folder name => w.selectSource owner folder name
  | .startRun source               => w.startRun source
  | .disconnect owner              => some (w.disconnect owner)
  | .cancelRuns request source     => w.cancelRuns request source
  | .deleteItems request           => w.deleteItems request
  | .countCommitting request       => w.countCommitting request
  | .commitRemoval request         => w.commitRemoval request
  | .rollback request              => some { w with removals := w.removals.erase request }
  | .recoverDownloads              =>
    if w.stage = .tick then some { w with tables := w.tables.recoverDownloads, stage := .recovered }
    else none
  | .resumeCommit item             => w.resumeCommit item
  | .finishReady                   => w.finishReady
  | .abandonCommit                 => w.abandonCommit
  | .postpone                      => w.postpone
  | .defer                         => w.defer
  | .claimItem item                => w.claimItem item
  | .stageDownload                 => w.stageDownload
  | .commitStaged                  => w.commitStaged
  | .releaseItem                   => w.releaseItem
  | .refuse lowSpace               => w.refuse lowSpace
  | .failItem                      => w.failItem
  | .countFailed                   => w.countFailed
  | .listPage answer               => w.listPage answer
  | .record name                   => w.record name
  | .advance                       => w.advance
  | .finishRuns                    => w.finishRuns
  | .fail marks                    => some (w.fail marks)
  | .crash                         => some { w with stage := .tick, failures := 0, removals := .empty }

end World
end Sync
end MyDrive.Google
