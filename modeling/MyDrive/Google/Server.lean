import MyDrive.Google.Import

-- The worker of the importer next to the uploads and the requests that remove its sources. The worker
-- holds an advisory lock, so that there is one at a time, and may crash between any two of its steps.

namespace MyDrive.Google

open Transfers

inductive DownloadStage
  | claimed
  | created (key : Id)
  | keyed (key : Id)
  | staged (f : StagedFile)
  | committed (f : StagedFile)
  | located (f : StagedFile) (objectId : Id)
  | promoted (f : StagedFile) (objectId : Id)

inductive ResumeStage
  | selected
  | known (objectId : Id)
  | finishing (objectId : Id)

-- `item` is the row that the worker has read.
inductive Work
  | download (id : Id) (item : Item) (stage : DownloadStage)
  | resume (id : Id) (item : Item) (stage : ResumeStage)

inductive Progress
  | go (w : Work)
  | done
  | failed (e : SyncError)

def Progress.work : Progress → Option Work
  | .go w => some w
  | _     => none

-- A `remove_source` that has counted the items in `committing`.
structure Removal where
  owner      : Id
  source     : Id
  committing : Bool

structure Server where
  rows     : Rows := {}
  worker   : Option Work := none
  uploads  : Table Nat Finalize := .empty
  removals : Table Nat Removal := .empty

inductive Label
  | createUpload (session : Session) (bytes : List UInt8)
  | finalize (i : Nat) (owner upload : Id) (checksum : Option (Option String))
  | nextUpload (i : Nat) (env : Env)
  | dropUpload (i : Nat)
  | addSource (owner : Id)
  | list (source : Id) (googleFileId name : String) (parentLocalId : Option Id)
  | recover (removed : List Id)
  | claim (id : Id)
  | resume (id : Id)
  | work (a : Answer)
  | crash
  | loseStaging (key : Id)
  | removeSource (i : Nat) (owner source : Id)
  | nextRemoval (i : Nat)
  | dropRemoval (i : Nat)
  | disconnect (owner : Id)

section

variable [Collation] [Digest]

-- A step of `download_claimed`. Every error but a rate limit is permanent.
def Rows.download (s : Rows) (a : Answer) (id : Id) (item : Item) : DownloadStage → Rows × Progress
  | .claimed      =>
    match item.parentLocalId, a.failure with
    | none, _                   => (s.failItem id, .done)
    | some _, some .rateLimited => (s.releaseItem id, .done)
    | some _, some _            => (s.failItem id, .done)
    | some _, none              =>
      ({ s with store := { s.store.takeIds with staging := s.store.staging.set s.store.next [] } },
        .go (.download id item (.created s.store.next)))
  | .created key  =>
    (s.updateItem id fun i => { i with stagingKey := some key }, .go (.download id item (.keyed key)))
  | .keyed key    =>
    match a.failure with
    | some _ => ((s.removeStaging (some key)).failItem id, .done)
    | none   =>
      let staging := s.store.staging.filterMap fun k b => some (if k = key then a.bytes else b)
      ({ s with store.staging := staging }, .go (.download id item
        (.staged ⟨key, a.bytes.length, Digest.sha256 a.bytes⟩)))
  | .staged f     =>
    match s.commitStaged a id item f with
    | .error _ => ((s.removeStaging (some f.stagingKey)).failItem id, .done)
    | .ok s    => (s, .go (.download id item (.committed f)))
  | .committed f  =>
    match (s.items.lookup id).bind (·.storageObjectId) with
    | none   => (s, .failed .database)
    | some o =>
      if (s.store.objects.lookup o).isSome then (s, .go (.download id item (.located f o)))
      else (s, .failed .database)
  | .located f o  =>
    match s.promote f.stagingKey o with
    | .error e => (s, .failed e)
    | .ok s    => (s, .go (.download id item (.promoted f o)))
  | .promoted f o => (s.finishReady id o f.checksum f.size, .done)

-- A step of `resume_commit`. Nobody else moves the files between the look at the object's path and the
-- rename.
def Rows.resume (s : Rows) (a : Answer) (id : Id) (item : Item) :
    ResumeStage → Option (Rows × Progress)
  | .selected     =>
    match item.storageObjectId.filter fun o => (s.store.objects.lookup o).isSome with
    | none   => (s.abandonCommit id item.stagingKey none a.env.row).map fun
      | .ok s    => (s, .done)
      | .error _ => (s, .done)
    | some o => some (s, .go (.resume id item (.known o)))
  | .known o      =>
    if (s.store.payloads.lookup o).isSome then
      some (s.removeStaging item.stagingKey, .go (.resume id item (.finishing o)))
    else match item.stagingKey with
      | some key =>
        match s.promote key o with
        | .error e => some (s, .failed e)
        | .ok s    => some (s, .go (.resume id item (.finishing o)))
      | none     => (s.abandonCommit id none (some o) a.env.row).map fun
        | .ok s    => (s, .done)
        | .error e => (s, .failed e)
  | .finishing o  =>
    match item.checksum with
    | some sum => some (s.finishReady id o sum item.bytesDownloaded, .done)
    | none     => (s.abandonCommit id none (some o) a.env.row).map fun
      | .ok s    => (s, .done)
      | .error e => (s, .failed e)

def Work.next (s : Rows) (a : Answer) : Work → Option (Rows × Progress)
  | .download id item stage => some (s.download a id item stage)
  | .resume id item stage   => s.resume a id item stage

end

namespace Rows

def insertSource (s : Rows) (source : Source) : Rows :=
  { s with
    store.next := s.store.next + 1
    sources    := s.sources.set s.store.next source }

-- A file that `list_one_page` finds.
def insertItem (s : Rows) (item : Item) : Rows :=
  { s with
    store.next := s.store.next + 1
    items      := s.items.set s.store.next item }

def committing (s : Rows) (source : Id) : Bool :=
  s.items.any fun _ i => i.sourceId = source && i.state = .committing

-- The writes of `remove_source`, the pending items among them.
def removeSource (s : Rows) (r : Removal) : Rows :=
  let items := s.items.filterMap fun _ i =>
    if i.sourceId = r.source ∧ i.state = .pending then none else some i
  let s := { s with items }
  if r.committing then
    let sources := s.sources.filterMap fun id x =>
      some (if id = r.source then { x with enabled := false } else x)
    { s with sources }
  else
    s.deleteSources fun id x => id = r.source && x.ownerId = r.owner

def disconnect (s : Rows) (owner : Id) : Rows :=
  s.deleteSources fun _ x => x.ownerId = owner

end Rows

namespace Server

variable [Collation] [Digest]

def step (s : Server) : Label → Option Server
  | .createUpload session bytes        =>
    (s.rows.store.createUpload session bytes).map fun store =>
      { s with rows := s.rows.withStore store }
  | .finalize i owner upload checksum  =>
    match s.uploads.lookup i with
    | none   => some { s with uploads := s.uploads.set i { owner, upload, checksum } }
    | some _ => none
  | .nextUpload i env                  =>
    match s.uploads.lookup i with
    | none   => none
    | some c => (c.next s.rows.store env).map fun (store, c) =>
      { s with
        rows    := s.rows.withStore store
        uploads := match c with
          | none   => s.uploads.erase i
          | some c => s.uploads.set i c }
  | .dropUpload i                      => some { s with uploads := s.uploads.erase i }
  | .addSource owner                   =>
    some { s with rows := s.rows.insertSource { ownerId := owner } }
  | .list source googleFileId name parentLocalId =>
    match s.rows.sources.lookup source with
    | none   => none
    | some x => some { s with rows := s.rows.insertItem {
        sourceId := source, ownerId := x.ownerId, googleFileId, name, parentLocalId } }
  | .recover removed                   =>
    match s.worker with
    | none   => some { s with rows := s.rows.recoverDownloads removed }
    | some _ => none
  | .claim id                          =>
    match s.worker, s.rows.items.lookup id with
    | none, some item =>
      if item.state = .pending ∧ (s.rows.sources.lookup item.sourceId).any (·.enabled) then
        some { s with
          rows   := s.rows.updateItem id fun i => { i with state := .downloading }
          worker := some (.download id item .claimed) }
      else
        none
    | _, _            => none
  | .resume id                         =>
    match s.worker, s.rows.items.lookup id with
    | none, some item =>
      if item.state = .committing then
        some { s with worker := some (.resume id item .selected) }
      else
        none
    | _, _            => none
  | .work a                            =>
    match s.worker with
    | none   => none
    | some w => (w.next s.rows a).map fun (rows, p) => { s with rows, worker := p.work }
  | .crash                             => some { s with worker := none }
  | .loseStaging key                   =>
    some { s with rows := s.rows.removeStaging (some key) }
  | .removeSource i owner source       =>
    match s.removals.lookup i, s.rows.sources.lookup source with
    | none, some x =>
      if x.ownerId = owner ∧ x.enabled then
        let committing := s.rows.committing source
        some { s with removals := s.removals.set i { owner, source, committing } }
      else
        none
    | _, _         => none
  | .nextRemoval i                     =>
    match s.removals.lookup i with
    | none   => none
    | some r => some { s with
        rows     := s.rows.removeSource r
        removals := s.removals.erase i }
  | .dropRemoval i                     => some { s with removals := s.removals.erase i }
  | .disconnect owner                  => some { s with rows := s.rows.disconnect owner }

end Server
end MyDrive.Google
