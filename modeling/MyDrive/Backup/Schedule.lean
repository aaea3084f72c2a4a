import Mathlib.Algebra.Ring.Nat

-- `SchedulePolicy`: when a backup job is due. Instants and spans are counted in ticks of 100 nanoseconds.

namespace MyDrive.Backup.Schedule

def ticksPerMinute : Int := 600000000

def ticksPerHour : Int := 60 * ticksPerMinute

def ticksPerDay : Int := 24 * ticksPerHour

-- The last tick of the year 9999.
def maxTicks : Int := 3155378975999999999

-- A clock time since 0001-01-01 with its distance from UTC. The clock time and the time in UTC are both in
-- range.
structure DateTimeOffset where
  clock       : Int
  offset      : Int
  clock_range : 0 ≤ clock ∧ clock ≤ maxTicks
  utc_range   : 0 ≤ clock - offset ∧ clock - offset ≤ maxTicks
  offset_14   : -14 * ticksPerHour ≤ offset ∧ offset ≤ 14 * ticksPerHour
  deriving DecidableEq

inductive Failure
  | argumentOutOfRange
  -- A loop that goes on after the steps that it is given here.
  | endless
  deriving DecidableEq

namespace DateTimeOffset

def utcTicks (t : DateTimeOffset) : Int :=
  t.clock - t.offset

def date (t : DateTimeOffset) : Int :=
  t.clock / ticksPerDay

-- The year 1 begins on a Monday, and Sunday is 0.
def dayOfWeek (t : DateTimeOffset) : Int :=
  (t.date + 1) % 7

-- Another clock time at the same distance from UTC.
def withClock (t : DateTimeOffset) (clock : Int) : Except Failure DateTimeOffset :=
  if h : (0 ≤ clock ∧ clock ≤ maxTicks) ∧ 0 ≤ clock - t.offset ∧ clock - t.offset ≤ maxTicks then
    .ok { t with clock, clock_range := h.left, utc_range := h.right }
  else
    .error .argumentOutOfRange

def addDays (t : DateTimeOffset) (days : Int) : Except Failure DateTimeOffset :=
  t.withClock (t.clock + days * ticksPerDay)

end DateTimeOffset

inductive BackupMode
  | continuous
  | scheduled
  | manual
  deriving DecidableEq

-- Any other text counts as `daily`.
inductive ScheduleKind
  | minutes
  | hourly
  | daily
  | weekly
  deriving DecidableEq

structure BackupJob where
  mode                 : BackupMode
  scheduleKind         : ScheduleKind
  scheduleEveryMinutes : Int := 60
  scheduleHour         : Int := 2
  scheduleMinute       : Int := 0
  scheduleWeekday      : Int := 1
  paused               : Bool := false
  lastScanAt           : Option DateTimeOffset := none

def clamp (value least most : Int) : Int :=
  max least (min value most)

-- The `while` over the days before the slot, for as many steps as it is given.
def walkBack : Nat → Int → DateTimeOffset → Except Failure DateTimeOffset
  | 0,     day, slot => if slot.dayOfWeek = clamp day 0 6 then .ok slot else .error .endless
  | n + 1, day, slot =>
    if slot.dayOfWeek = clamp day 0 6 then .ok slot else slot.addDays (-1) >>= walkBack n day

def dueSlot (last : Option DateTimeOffset) (now : DateTimeOffset) (hour minute : Int) (weekday : Option Int) :
    Except Failure Bool := do
  let slot ← now.withClock
    (now.date * ticksPerDay + clamp hour 0 23 * ticksPerHour + clamp minute 0 59 * ticksPerMinute)
  let slot ← match weekday with
    | some day => walkBack 6 day slot
    | none     => pure slot
  let slot ←
    if now.utcTicks < slot.utcTicks then slot.addDays (if weekday = none then -1 else -7) else pure slot
  return last.all (·.utcTicks < slot.utcTicks)

def isDue (job : BackupJob) (now : DateTimeOffset) (force : Bool) : Except Failure Bool :=
  if job.paused then
    .ok false
  else if force || job.mode = .manual then
    .ok force
  else if job.mode = .continuous then
    .ok (job.lastScanAt.all fun last => 30 * ticksPerMinute ≤ now.utcTicks - last.utcTicks)
  else
    let last := job.lastScanAt
    match job.scheduleKind with
    | .minutes => .ok (last.all fun last =>
      max 1 job.scheduleEveryMinutes * ticksPerMinute ≤ now.utcTicks - last.utcTicks)
    | .hourly  => .ok (last.all fun last => ticksPerHour ≤ now.utcTicks - last.utcTicks)
    | .weekly  => dueSlot last now job.scheduleHour job.scheduleMinute (some job.scheduleWeekday)
    | .daily   => dueSlot last now job.scheduleHour job.scheduleMinute none

-- One record for each check: the last scan before it, its time, and whether the job runs.
structure Check where
  last : Option DateTimeOffset
  now  : DateTimeOffset
  ran  : Bool

-- The scheduler looks at one time after another, and a run sets the time of the last scan.
def checks : BackupJob → List DateTimeOffset → List Check
  | _,   []          => []
  | job, now :: rest =>
    let due := isDue job now false = .ok true
    { last := job.lastScanAt, now, ran := due } ::
      checks (if due then { job with lastScanAt := some now } else job) rest

end MyDrive.Backup.Schedule
