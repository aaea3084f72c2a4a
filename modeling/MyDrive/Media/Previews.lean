import MyDrive.Media.Jobs
import MyDrive.Transfers.Finalize

-- What the workers of the media index publish: `publish_and_complete`, and the files below the root of
-- the previews.

namespace MyDrive.Media

open Transfers (Digest)

inductive Variant
  | card
  | viewer
  | videoPoster
  | videoPreview
  deriving DecidableEq

namespace Variant

def name : Variant → String
  | .card         => "card"
  | .viewer       => "viewer"
  | .videoPoster  => "video_poster"
  | .videoPreview => "video_preview"

def mimeType : Variant → String
  | .videoPreview => "video/mp4"
  | _             => "image/webp"

def extension : Variant → String
  | .videoPreview => "mp4"
  | _             => "webp"

def maxBytes : Variant → Nat
  | .card         => 512 * 1024
  | .viewer       => 4 * 1024 * 1024
  | .videoPoster  => 512 * 1024
  | .videoPreview => 32 * 1024 * 1024

end Variant

-- In the order in which they are published.
def Task.variants : Task → List Variant
  | .imagePreview   => [.viewer, .card]
  | .videoThumbnail => [.videoPoster]
  | .videoPreview   => [.videoPreview]
  | .faceIndex      => []

-- `{version}/{variant}-v{recipe}.{extension}`, below the root of the previews.
structure Path where
  versionId     : Id
  variant       : Variant
  recipeVersion : Nat
  extension     : String
  deriving DecidableEq

-- The primary key of `media_derivatives`.
structure DerivativeKey where
  fileVersionId : Id
  variant       : Variant
  recipeVersion : Nat
  deriving DecidableEq

structure DerivativeRow where
  storageKey     : Path
  mimeType       : String
  sizeBytes      : Nat
  width          : Option Nat
  height         : Option Nat
  checksumSha256 : String
  deriving DecidableEq

structure GeneratedDerivative where
  variant   : Variant
  mimeType  : String
  extension : String
  width     : Option Nat
  height    : Option Nat
  bytes     : List UInt8
  checksum  : String
  deriving DecidableEq

-- What the tools have made of one variant.
structure Rendered where
  bytes  : List UInt8
  width  : Option Nat
  height : Option Nat

def Rendered.fits (r : Rendered) (v : Variant) : Bool :=
  r.bytes ≠ [] && r.bytes.length ≤ v.maxBytes

-- The other columns of a job, which name the version that it is for.
structure Target where
  fileVersionId : Id
  recipeVersion : Nat
  deriving DecidableEq

-- `publishing` has the derivatives that are not published yet, and says whether `owns_lease` has been
-- asked for the first of them; `writing` is inside `publish_derivative`.
inductive Progress
  | processing
  | publishing (rest : List GeneratedDerivative) (owned : Bool)
  | writing (d : GeneratedDerivative) (rest : List GeneratedDerivative)
  | failed (failure : JobFailure)
  deriving DecidableEq

structure Publisher where
  job       : ClaimedJob
  target    : Target
  published : List GeneratedDerivative := []
  progress  : Progress := .processing
  deriving DecidableEq

def Progress.rest : Progress → List GeneratedDerivative
  | .publishing rest _ => rest
  | .writing d rest    => d :: rest
  | _                  => []

namespace Publisher

def key (p : Publisher) (d : GeneratedDerivative) : DerivativeKey where
  fileVersionId := p.target.fileVersionId
  variant       := d.variant
  recipeVersion := p.target.recipeVersion

-- Where `publish_derivative` puts the file, and the `storage_key` that the row has of it.
def destination (p : Publisher) (d : GeneratedDerivative) : Path where
  versionId     := p.target.fileVersionId
  variant       := d.variant
  recipeVersion := p.target.recipeVersion
  extension     := d.variant.extension

def storageKey (p : Publisher) (d : GeneratedDerivative) : Path where
  versionId     := p.target.fileVersionId
  variant       := d.variant
  recipeVersion := p.target.recipeVersion
  extension     := d.extension

def row (p : Publisher) (d : GeneratedDerivative) : DerivativeRow where
  storageKey     := p.storageKey d
  mimeType       := d.mimeType
  sizeBytes      := if d.bytes.length < 2 ^ 63 then d.bytes.length else 2 ^ 63 - 1
  width          := d.width
  height         := d.height
  checksumSha256 := d.checksum

def upsertDerivatives (p : Publisher) (rows : Table DerivativeKey DerivativeRow) :
    Table DerivativeKey DerivativeRow :=
  p.published.foldl (fun rows d => rows.set (p.key d) (p.row d)) rows

end Publisher

structure Previews where
  jobs       : Jobs := .empty
  targets    : Table Id Target := .empty
  paused     : Bool := false
  publishers : Table Nat Publisher := .empty
  files      : Table Path (List UInt8) := .empty
  rows       : Table DerivativeKey DerivativeRow := .empty
  next       : Id := 1

-- The actions of `State`, with what the workers have made. A write of a file may fail after it has
-- replaced the file.
inductive Publishing
  | insert (task : Task) (target : Target) (now : Time)
  | deleteVersion (version : Id)
  | setPaused (paused : Bool)
  | retryFailed (now : Time) (jobId : Option Id)
  | failExhaustedLeases (now : Time)
  | claim (worker : Nat) (now : Time) (locked : List Id)
  | heartbeat (worker : Nat) (now : Time)
  | setStage (worker : Nat) (now : Time) (stage : String) (processedBytes : Nat)
  | publish (worker : Nat) (made : Variant → Rendered)
  | ownsLease (worker : Nat) (now : Time)
  | write (worker : Nat) (synced : Bool)
  | complete (worker : Nat) (now : Time) (processedBytes : Nat)
  | fail (worker : Nat) (failure : JobFailure)
  | recordFailure (worker : Nat) (now : Time)
  | crash (worker : Nat)

def Publishing.worker : Publishing → Option Nat
  | .heartbeat i _ | .setStage i _ _ _ | .publish i _ | .ownsLease i _ | .write i _
  | .complete i _ _ | .fail i _ | .recordFailure i _ | .crash i => some i
  | _ => none

namespace Previews

def goto (s : Previews) (i : Nat) (p : Publisher) (progress : Progress) : Previews :=
  { s with publishers := s.publishers.set i { p with progress } }

def leave (s : Previews) (i : Nat) : Previews :=
  { s with publishers := s.publishers.erase i }

-- `UNIQUE (file_version_id, task, recipe_version)`.
def taken (s : Previews) (task : Task) (target : Target) : Bool :=
  s.jobs.any fun id j => j.task = task && s.targets.lookup id = some target

-- `ON DELETE CASCADE` of the jobs and of the derivatives. The files stay.
def deleteVersion (s : Previews) (version : Id) : Previews :=
  { s with
    jobs := s.jobs.filterMap fun id j =>
      if (s.targets.lookup id).any (·.fileVersionId = version) then none else some j
    rows := s.rows.filterMap fun k r => if k.fileVersionId = version then none else some r }

def claim (s : Previews) (i : Nat) (now : Time) (locked : List Id) : Option Previews :=
  (s.jobs.claimOne s.paused now locked).bind fun (jobs, job) =>
    (s.targets.lookup job.id).map fun target => { s with
      jobs
      publishers := s.publishers.set i { job, target } }

variable [Digest]

def generate (task : Task) (made : Variant → Rendered) : List GeneratedDerivative :=
  task.variants.map fun variant =>
    { variant
      mimeType  := variant.mimeType
      extension := variant.extension
      width     := (made variant).width
      height    := (made variant).height
      bytes     := (made variant).bytes
      checksum  := Digest.sha256 (made variant).bytes }

-- A step of the worker `p`, in its progress.
def work (s : Previews) (i : Nat) (p : Publisher) : Publishing → Option Previews
  | .heartbeat _ now            =>
    match p.progress with
    | .failed _ => none
    | _         => some { s with jobs := (s.jobs.renewLease p.job now).1 }
  | .setStage _ now stage bytes =>
    match p.progress with
    | .processing                  =>
      let r := s.jobs.setStage p.job now stage bytes
      some ({ s with jobs := r.1 }.goto i p (if r.2 then .processing else .failed leaseLost))
    | .publishing (d :: rest) true =>
      let r := s.jobs.setStage p.job now ("publishing_" ++ d.variant.name) bytes
      some ({ s with jobs := r.1 }.goto i p (if r.2 then .writing d rest else .failed leaseLost))
    | _                            => none
  | .publish _ made             =>
    match p.progress with
    | .processing =>
      if p.job.task.variants.all fun v => (made v).fits v then
        some (s.goto i p (.publishing (generate p.job.task made) false))
      else
        none
    | _           => none
  | .ownsLease _ now            =>
    match p.progress with
    | .publishing rest false =>
      some (s.goto i p (if s.jobs.ownsLease p.job now then .publishing rest true else .failed leaseLost))
    | _                      => none
  | .write _ synced             =>
    match p.progress with
    | .writing d rest =>
      let s := { s with files := s.files.set (p.destination d) d.bytes }
      some (if synced then s.goto i { p with published := p.published ++ [d] } (.publishing rest false)
            else s.goto i p (.failed leaseLost))
    | _               => none
  | .complete _ now bytes       =>
    match p.progress with
    | .publishing [] _ =>
      let r := s.jobs.complete p.job now bytes
      some (if r.2 then { s with jobs := r.1, rows := p.upsertDerivatives s.rows }.leave i
            else s.goto i p (.failed leaseLost))
    | _                => none
  | .fail _ failure             =>
    match p.progress with
    | .failed _ => none
    | _         => some (s.goto i p (.failed failure))
  | .recordFailure _ now        =>
    match p.progress with
    | .failed failure => some ({ s with jobs := (s.jobs.recordFailure p.job now failure).1 }.leave i)
    | _               => none
  | .crash _                    => some (s.leave i)
  | _                           => none

def step (s : Previews) : Publishing → Option Previews
  | .insert task target now  =>
    if s.taken task target then none
    else some { s with
      jobs    := s.jobs.set s.next { task, availableAt := now }
      targets := s.targets.set s.next target
      next    := s.next + 1 }
  | .deleteVersion version   => some (s.deleteVersion version)
  | .setPaused paused        => some { s with paused }
  | .retryFailed now jobId   => some { s with jobs := s.jobs.retryFailed now jobId }
  | .failExhaustedLeases now => some { s with jobs := s.jobs.failExhaustedLeases now }
  | .claim i now locked      =>
    match s.publishers.lookup i with
    | some _ => none
    | none   => s.claim i now locked
  | a                        =>
    match a.worker.bind fun i => (s.publishers.lookup i).map (i, ·) with
    | some (i, p) => s.work i p a
    | none        => none

end Previews
end MyDrive.Media
