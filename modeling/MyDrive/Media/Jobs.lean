import Mathlib.Algebra.Ring.Nat
import MyDrive.Drive.Database

-- The jobs of the media index, and the workers that claim them. A worker knows its claim by the pair of
-- the job's id and its `attempts`, which every `UPDATE` of the worker checks. `history` remembers the
-- claims by their numbers.

namespace MyDrive.Media

def leaseSeconds : Nat := 300

def maxAttempts : Nat := 5

inductive Task
  | imagePreview
  | videoThumbnail
  | videoPreview
  | faceIndex
  deriving DecidableEq

def Task.rank : Task → Nat
  | .imagePreview   => 0
  | .videoThumbnail => 1
  | .videoPreview   => 2
  | .faceIndex      => 3

inductive JobState
  | queued
  | running
  | completed
  | unsupported
  | retryWait
  | failed
  deriving DecidableEq

structure Job where
  task           : Task
  state          : JobState := .queued
  attempts       : Nat := 0
  availableAt    : Time
  leaseExpiresAt : Option Time := none
  currentStage   : Option String := none
  processedBytes : Nat := 0
  errorCode      : Option String := none
  lastErrorAt    : Option Time := none
  completedAt    : Option Time := none
  deriving DecidableEq

inductive FailureClass
  | unsupported
  | permanent
  | retryable
  deriving DecidableEq

structure JobFailure where
  kind : FailureClass
  code : String
  deriving DecidableEq

structure ClaimedJob where
  id       : Id
  task     : Task
  attempts : Nat
  deriving DecidableEq

-- `publishing` has the variants that `publish_and_complete` has not published yet, and says whether
-- `owns_lease` has been asked for the first of them.
inductive Phase
  | processing
  | publishing (todo : List String) (owned : Bool)
  | failed (failure : JobFailure)
  deriving DecidableEq

-- `beating` says that the worker's heartbeat has not missed its row yet.
structure Worker where
  job     : ClaimedJob
  claim   : Nat
  phase   : Phase := .processing
  beating : Bool := true
  deriving DecidableEq

inductive Event
  | claimed (job : Id) (claim : Nat)
  | updated (job : Id) (claim : Nat)
  deriving DecidableEq

abbrev Jobs := Table Id Job

namespace Jobs

-- The row that an `UPDATE` of a worker finds.
def held (jobs : Jobs) (c : ClaimedJob) : Bool :=
  (jobs.lookup c.id).any fun j => j.state = .running && j.attempts = c.attempts

-- `rows_affected() == 1` goes with the new table.
def updateHeld (jobs : Jobs) (c : ClaimedJob) (f : Job → Job) : Jobs × Bool :=
  (jobs.filterMap fun id j =>
    some (if id = c.id && j.state = .running && j.attempts = c.attempts then f j else j),
   jobs.held c)

def renewLease (jobs : Jobs) (c : ClaimedJob) (now : Time) : Jobs × Bool :=
  jobs.updateHeld c fun j => { j with leaseExpiresAt := some (now + leaseSeconds) }

def setStage (jobs : Jobs) (c : ClaimedJob) (now : Time) (stage : String) (processedBytes : Nat) :
    Jobs × Bool :=
  jobs.updateHeld c fun j => { j with
    currentStage   := some stage
    processedBytes
    leaseExpiresAt := some (now + leaseSeconds) }

def ownsLease (jobs : Jobs) (c : ClaimedJob) (now : Time) : Bool :=
  (jobs.lookup c.id).any fun j =>
    j.state = .running && j.attempts = c.attempts && j.leaseExpiresAt.any (now < ·)

-- The last transaction of a job.
def complete (jobs : Jobs) (c : ClaimedJob) (now : Time) (processedBytes : Nat) : Jobs × Bool :=
  if (jobs.lookup c.id).any (·.task = c.task) then
    jobs.updateHeld c fun j => { j with
      state          := .completed
      leaseExpiresAt := none
      currentStage   := none
      processedBytes
      errorCode      := none
      completedAt    := some now }
  else
    (jobs, false)

def failureState (attempts : Nat) : FailureClass → JobState × Nat
  | .unsupported => (.unsupported, 0)
  | .permanent   => (.failed, 0)
  | .retryable   =>
    if attempts ≥ maxAttempts then (.failed, 0) else (.retryWait, 10 * 2 ^ min (attempts - 1) 8)

def recordFailure (jobs : Jobs) (c : ClaimedJob) (now : Time) (failure : JobFailure) : Jobs × Bool :=
  let (state, delay) := failureState c.attempts failure.kind
  jobs.updateHeld c fun j => { j with
    state
    availableAt    := now + delay
    leaseExpiresAt := none
    currentStage   := none
    processedBytes := 0
    errorCode      := some failure.code
    lastErrorAt    := some now }

def failExhaustedLeases (jobs : Jobs) (now : Time) : Jobs :=
  jobs.filterMap fun _ j =>
    some (if j.state = .running && j.leaseExpiresAt.any (· ≤ now) && maxAttempts ≤ j.attempts then
      { j with
        state          := .failed
        leaseExpiresAt := none
        currentStage   := none
        errorCode      := some "decode_failed"
        lastErrorAt    := some now }
    else j)

-- `retry_failed`, for one job or for all of them.
def retryFailed (jobs : Jobs) (now : Time) (jobId : Option Id) : Jobs :=
  jobs.filterMap fun id j =>
    some (if j.state = .failed && jobId.all (· = id) then
      { j with
        state          := .queued
        attempts       := 0
        availableAt    := now
        leaseExpiresAt := none
        currentStage   := none
        processedBytes := 0
        errorCode      := none
        lastErrorAt    := none
        completedAt    := none }
    else j)

def candidate (now : Time) (j : Job) : Bool :=
  j.attempts < maxAttempts &&
    ((j.state = .queued || j.state = .retryWait) && j.availableAt ≤ now ||
     j.state = .running && j.leaseExpiresAt.any (· ≤ now))

-- The `ORDER BY` of `claim_one`.
def before (r r' : Id × Job) : Bool :=
  let key (r : Id × Job) := (r.2.task.rank, r.2.leaseExpiresAt.getD r.2.availableAt, r.1)
  let (rank, time, id) := key r
  let (rank', time', id') := key r'
  rank < rank' || rank = rank' && (time < time' || time = time' && id < id')

def first : List (Id × Job) → Option (Id × Job)
  | []      => none
  | r :: rs =>
    match first rs with
    | none    => some r
    | some r' => if before r' r then some r' else some r

-- `locked` are the rows that `SKIP LOCKED` passes over.
def claimOne (jobs : Jobs) (paused : Bool) (now : Time) (locked : List Id) :
    Option (Jobs × ClaimedJob) :=
  if paused then
    none
  else
    (first (jobs.rows.filter fun r => candidate now r.2 && r.1 ∉ locked)).map fun (id, j) =>
      let j := { j with
        state          := .running
        attempts       := j.attempts + 1
        availableAt    := now
        leaseExpiresAt := some (now + leaseSeconds)
        currentStage   := some "opening_source"
        processedBytes := 0
        errorCode      := none
        lastErrorAt    := none }
      (jobs.set id j, { id, task := j.task, attempts := j.attempts })

end Jobs

structure State where
  jobs    : Jobs := .empty
  paused  : Bool := false
  workers : Table Nat Worker := .empty
  next    : Id := 1
  claims  : Nat := 0
  history : List Event := []

-- A worker's heartbeat runs beside its job. A tool that fails and a crash may end the work at any
-- point.
inductive Action
  | insert (task : Task) (now : Time)
  | delete (job : Id)
  | setPaused (paused : Bool)
  | retryFailed (now : Time) (jobId : Option Id)
  | failExhaustedLeases (now : Time)
  | claim (worker : Nat) (now : Time) (locked : List Id)
  | heartbeat (worker : Nat) (now : Time)
  | setStage (worker : Nat) (now : Time) (stage : String) (processedBytes : Nat)
  | publish (worker : Nat) (variants : List String)
  | ownsLease (worker : Nat) (now : Time)
  | complete (worker : Nat) (now : Time) (processedBytes : Nat)
  | fail (worker : Nat) (failure : JobFailure)
  | recordFailure (worker : Nat) (now : Time)
  | crash (worker : Nat)

def leaseLost : JobFailure where
  kind := .retryable
  code := "preview_storage_unavailable"

namespace State

-- An `UPDATE` of the worker `w`, which is remembered when it finds its row.
def update (s : State) (w : Worker) (r : Jobs × Bool) : State :=
  { s with
    jobs    := r.1
    history := if r.2 then s.history ++ [.updated w.job.id w.claim] else s.history }

def goto (s : State) (i : Nat) (w : Worker) (phase : Phase) : State :=
  { s with workers := s.workers.set i { w with phase } }

def leave (s : State) (i : Nat) : State :=
  { s with workers := s.workers.erase i }

def claim (s : State) (i : Nat) (now : Time) (locked : List Id) : Option State :=
  (s.jobs.claimOne s.paused now locked).map fun (jobs, job) => { s with
    jobs
    workers := s.workers.set i { job, claim := s.claims }
    claims  := s.claims + 1
    history := s.history ++ [.claimed job.id s.claims] }

-- A step of the worker `w`, in its phase.
def work (s : State) (i : Nat) (w : Worker) : Action → Option State
  | .heartbeat _ now              =>
    match w.phase with
    | .failed _ => none
    | phase     =>
      let r := s.jobs.renewLease w.job now
      if w.beating then some ((s.update w r).goto i { w with beating := r.2 } phase) else none
  | .setStage _ now stage bytes   =>
    match w.phase with
    | .processing                    =>
      let r := s.jobs.setStage w.job now stage bytes
      some ((s.update w r).goto i w (if r.2 then .processing else .failed leaseLost))
    | .publishing (v :: todo) true   =>
      let r := s.jobs.setStage w.job now ("publishing_" ++ v) bytes
      some ((s.update w r).goto i w (if r.2 then .publishing todo false else .failed leaseLost))
    | _                              => none
  | .publish _ variants           =>
    match w.phase with
    | .processing => some (s.goto i w (.publishing variants false))
    | _           => none
  | .ownsLease _ now              =>
    match w.phase with
    | .publishing todo false =>
      some (s.goto i w (if s.jobs.ownsLease w.job now then .publishing todo true else .failed leaseLost))
    | _                      => none
  | .complete _ now bytes         =>
    match w.phase with
    | .publishing [] _ =>
      let r := s.jobs.complete w.job now bytes
      some (if r.2 then (s.update w r).leave i else s.goto i w (.failed leaseLost))
    | _                => none
  | .fail _ failure               =>
    match w.phase with
    | .failed _ => none
    | _         => some (s.goto i w (.failed failure))
  | .recordFailure _ now          =>
    match w.phase with
    | .failed failure => some ((s.update w (s.jobs.recordFailure w.job now failure)).leave i)
    | _               => none
  | .crash _                      => some (s.leave i)
  | _                             => none

end State

def Action.worker : Action → Option Nat
  | .heartbeat i _ | .setStage i _ _ _ | .publish i _ | .ownsLease i _ | .complete i _ _
  | .fail i _ | .recordFailure i _ | .crash i => some i
  | _ => none

def State.step (s : State) : Action → Option State
  | .insert task now         => some { s with
      jobs := s.jobs.set s.next { task, availableAt := now }
      next := s.next + 1 }
  | .delete job              => some { s with jobs := s.jobs.erase job }
  | .setPaused paused        => some { s with paused }
  | .retryFailed now jobId   => some { s with jobs := s.jobs.retryFailed now jobId }
  | .failExhaustedLeases now => some { s with jobs := s.jobs.failExhaustedLeases now }
  | .claim i now locked      =>
    match s.workers.lookup i with
    | some _ => none
    | none   => s.claim i now locked
  | a                        =>
    match a.worker.bind fun i => (s.workers.lookup i).map (i, ·) with
    | some (i, w) => s.work i w a
    | none        => none

end MyDrive.Media
