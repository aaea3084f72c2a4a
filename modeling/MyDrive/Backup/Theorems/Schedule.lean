import Mathlib.Tactic.SplitIfs
import MyDrive.Backup.Schedule
import MyDrive.Library.Except

-- A job of a daily or weekly schedule is due when a slot of its schedule has come since its last scan.

namespace MyDrive.Backup.Schedule

open DateTimeOffset

variable {now slot : DateTimeOffset} {last : Option DateTimeOffset} {day hour minute t : Int} {n : Nat}
  {weekday : Option Int} {job : BackupJob}

-- The time of the day of every slot.
def slotTime (hour minute : Int) : Int :=
  clamp hour 0 23 * ticksPerHour + clamp minute 0 59 * ticksPerMinute

-- An instant, in ticks of UTC, whose clock at a distance from UTC shows a slot.
structure IsSlot (hour minute : Int) (weekday : Option Int) (offset t : Int) : Prop where
  time : (t + offset) % ticksPerDay = slotTime hour minute
  day  : ∀ day ∈ weekday, ((t + offset) / ticksPerDay + 1) % 7 = clamp day 0 6

theorem ticksPerDay_eq : ticksPerDay = 864000000000 :=
  rfl

theorem slotTime_range : 0 ≤ slotTime hour minute ∧ slotTime hour minute < ticksPerDay := by
  unfold slotTime clamp ticksPerDay ticksPerHour ticksPerMinute
  omega

theorem clamp_weekday : 0 ≤ clamp day 0 6 ∧ clamp day 0 6 ≤ 6 := by
  unfold clamp
  omega

theorem withClock_ok {clock : Int} (h : 0 ≤ clock ∧ clock ≤ maxTicks)
    (hu : 0 ≤ clock - now.offset ∧ clock - now.offset ≤ maxTicks) :
    ∃ r, now.withClock clock = .ok r ∧ r.clock = clock ∧ r.offset = now.offset := by
  rw [withClock, dif_pos ⟨h, hu⟩]
  exact ⟨_, rfl, rfl, rfl⟩

theorem withClock_eq_ok {clock : Int} {r : DateTimeOffset} (h : now.withClock clock = .ok r) :
    r.clock = clock ∧ r.offset = now.offset := by
  rw [withClock] at h
  split at h <;> cases h
  exact ⟨rfl, rfl⟩

theorem withClock_ne_endless {clock : Int} : now.withClock clock ≠ .error .endless := by
  rw [withClock]
  split <;> simp

-- How many days a slot is after its weekday.
def behind (slot : DateTimeOffset) (day : Int) : Int :=
  (slot.dayOfWeek - clamp day 0 6) % 7

theorem behind_eq_zero_iff : behind slot day = 0 ↔ slot.dayOfWeek = clamp day 0 6 := by
  have := @clamp_weekday day
  unfold behind dayOfWeek at *
  omega

theorem behind_addDays {r : DateTimeOffset} (hb : behind slot day ≠ 0) (h : slot.addDays (-1) = .ok r) :
    behind r day = behind slot day - 1 ∧ r.clock = slot.clock - ticksPerDay ∧ r.offset = slot.offset := by
  obtain ⟨clock, offset⟩ := withClock_eq_ok h
  have := @clamp_weekday day
  unfold behind dayOfWeek date at *
  unfold ticksPerDay ticksPerHour ticksPerMinute at *
  rw [clock]
  omega

theorem walkBack_ne_endless (hb : behind slot day ≤ n) : walkBack n day slot ≠ .error .endless := by
  induction n generalizing slot
  case zero =>
    have zero : behind slot day = 0 := by
      unfold behind at *
      omega
    rw [walkBack, if_pos (behind_eq_zero_iff.mp zero)]
    simp
  case succ n ih =>
    rw [walkBack]
    split
    case isTrue => simp
    case isFalse h =>
      cases hs : slot.addDays (-1)
      case error e =>
        intro he
        cases he
        exact withClock_ne_endless hs
      case ok r =>
        obtain ⟨less, -, -⟩ := behind_addDays (fun hz => h (behind_eq_zero_iff.mp hz)) hs
        exact ih (by omega)

theorem walkBack_ok (hb : behind slot day ≤ n) (hc : 0 ≤ slot.clock - behind slot day * ticksPerDay)
    (hu : 0 ≤ slot.utcTicks - behind slot day * ticksPerDay) : ∃ r, walkBack n day slot = .ok r ∧
      r.clock = slot.clock - behind slot day * ticksPerDay ∧ r.offset = slot.offset := by
  induction n generalizing slot
  case zero =>
    have zero : behind slot day = 0 := by
      unfold behind at *
      omega
    rw [walkBack, if_pos (behind_eq_zero_iff.mp zero), zero]
    exact ⟨slot, rfl, by omega, rfl⟩
  case succ n ih =>
    rw [walkBack]
    split
    case isTrue h =>
      rw [behind_eq_zero_iff.mpr h]
      exact ⟨slot, rfl, by omega, rfl⟩
    case isFalse h =>
      have pos : 0 < behind slot day := by
        have := mt behind_eq_zero_iff.mp h
        unfold behind at *
        omega
      have clock := slot.clock_range
      have utc := slot.utc_range
      unfold utcTicks at *
      rw [ticksPerDay_eq] at *
      obtain ⟨r, hr, -, -⟩ := @withClock_ok slot (slot.clock + -1 * ticksPerDay) (by rw [ticksPerDay_eq]; omega)
        (by rw [ticksPerDay_eq]; omega)
      obtain ⟨less, clock', offset⟩ := behind_addDays (fun hz => h (behind_eq_zero_iff.mp hz)) hr
      rw [ticksPerDay_eq] at clock'
      obtain ⟨r', hr', clock'', offset'⟩ := @ih r (by omega) (by rw [less]; omega) (by rw [less]; omega)
      refine ⟨r', ?_, by rw [clock'', less]; omega, offset'.trans offset⟩
      rw [addDays, hr]
      exact hr'

-- The days from one slot to the next.
def period (weekday : Option Int) : Int :=
  if weekday = none then 1 else 7

theorem isSlot_back {offset : Int} (h : IsSlot hour minute weekday offset t) :
    IsSlot hour minute weekday offset (t - period weekday * ticksPerDay) := by
  obtain ⟨time, day⟩ := h
  unfold period
  rw [ticksPerDay_eq] at *
  cases weekday
  case none =>
    refine ⟨?_, fun _ hn => by cases hn⟩
    rw [if_pos rfl, ticksPerDay_eq]
    omega
  case some d =>
    have day := day d rfl
    refine ⟨?_, fun d' hd => ?_⟩
    case refine_1 =>
      rw [if_neg (by simp), ticksPerDay_eq]
      omega
    case refine_2 =>
      cases hd
      rw [if_neg (by simp), ticksPerDay_eq]
      omega

-- Two slots are whole periods apart.
theorem isSlot_le {offset u : Int} (hs : IsSlot hour minute weekday offset t) (hu : IsSlot hour minute weekday offset u)
    (h : u < t + period weekday * ticksPerDay) : u ≤ t := by
  obtain ⟨time, day⟩ := hs
  obtain ⟨time', day'⟩ := hu
  have := @slotTime_range hour minute
  unfold period at h
  rw [ticksPerDay_eq] at *
  cases weekday
  case none =>
    rw [if_pos rfl] at h
    omega
  case some d =>
    have day := day d rfl
    have day' := day' d rfl
    rw [if_neg (by simp)] at h
    omega

-- The slot that the code starts from: the one of today, or of the weekday before.
theorem firstSlot (h8 : 8 * ticksPerDay ≤ now.utcTicks)
    (hmax : now.date * ticksPerDay + slotTime hour minute - now.offset ≤ maxTicks) : ∃ today r,
      now.withClock (now.date * ticksPerDay + clamp hour 0 23 * ticksPerHour + clamp minute 0 59 * ticksPerMinute) =
        .ok today ∧ weekday.elim (.ok today) (walkBack 6 · today) = .ok r ∧ r.offset = now.offset ∧
      IsSlot hour minute weekday now.offset r.utcTicks ∧ r.clock - period weekday * ticksPerDay ≤ now.clock ∧
      now.clock < r.clock + period weekday * ticksPerDay ∧
      (now.clock < r.clock → 0 ≤ r.clock - period weekday * ticksPerDay ∧
        0 ≤ r.utcTicks - period weekday * ticksPerDay) := by
  have clock := now.clock_range
  have offset := now.offset_14
  have time := @slotTime_range hour minute
  unfold utcTicks at h8
  unfold maxTicks at *
  unfold ticksPerHour ticksPerMinute at offset
  have shape : now.date * ticksPerDay + clamp hour 0 23 * ticksPerHour + clamp minute 0 59 * ticksPerMinute =
      now.date * ticksPerDay + slotTime hour minute := by
    rw [slotTime, Int.add_assoc]
  rw [shape]
  unfold date at *
  rw [ticksPerDay_eq] at *
  obtain ⟨today, ht, clock', offset'⟩ := @withClock_ok now (now.clock / 864000000000 * 864000000000 + slotTime hour minute)
    (by unfold maxTicks; omega) (by unfold maxTicks; omega)
  refine ⟨today, ?_⟩
  unfold period
  cases weekday
  case none =>
    refine ⟨today, ht, rfl, offset', ⟨?_, fun _ hn => by cases hn⟩, ?_⟩
    case refine_1 =>
      unfold utcTicks
      rw [ticksPerDay_eq]
      omega
    case refine_2 =>
      unfold utcTicks
      rw [if_pos rfl]
      omega
  case some d =>
    have six := @clamp_weekday d
    obtain ⟨r, hr, clock'', offset''⟩ := @walkBack_ok today d 6 (by unfold behind; omega)
      (by unfold behind; rw [ticksPerDay_eq]; omega) (by unfold behind utcTicks; rw [ticksPerDay_eq]; omega)
    have steps : 0 ≤ behind today d ∧ behind today d ≤ 6 := by
      unfold behind
      omega
    rw [ticksPerDay_eq] at clock''
    refine ⟨r, ht, hr, offset''.trans offset', ⟨?_, fun d' hd => ?_⟩, ?_⟩
    case refine_1 =>
      unfold utcTicks
      rw [ticksPerDay_eq]
      omega
    case refine_2 =>
      cases hd
      unfold utcTicks
      unfold behind dayOfWeek date at *
      rw [ticksPerDay_eq] at *
      omega
    case refine_3 =>
      unfold utcTicks
      rw [if_neg (by simp)]
      omega

theorem dueSlot_latest (h8 : 8 * ticksPerDay ≤ now.utcTicks)
    (hmax : now.date * ticksPerDay + slotTime hour minute - now.offset ≤ maxTicks) : ∃ s,
      dueSlot last now hour minute weekday = .ok (last.all (·.utcTicks < s)) ∧
      IsSlot hour minute weekday now.offset s ∧ s ≤ now.utcTicks ∧
      ∀ t, IsSlot hour minute weekday now.offset t → t ≤ now.utcTicks → t ≤ s := by
  obtain ⟨today, r, ht, hr, offset, isSlot, below, above, inside⟩ := @firstSlot now hour minute weekday h8 hmax
  have same : now.utcTicks < r.utcTicks ↔ now.clock < r.clock := by
    unfold utcTicks
    omega
  have days : (if weekday = none then (-1 : Int) else -7) = -period weekday := by
    unfold period
    split <;> rfl
  have due : dueSlot last now hour minute weekday = (do
      let slot ← if now.utcTicks < r.utcTicks then r.addDays (-period weekday) else pure r
      return last.all (·.utcTicks < slot.utcTicks)) := by
    unfold dueSlot
    rw [ht]
    cases weekday
    case none =>
      cases hr
      rfl
    case some d =>
      simp only [Option.elim_some] at hr
      change walkBack 6 d today >>= _ = _
      rw [hr]
      rfl
  rw [due]
  by_cases later : now.utcTicks < r.utcTicks
  case neg =>
    rw [if_neg later]
    refine ⟨r.utcTicks, rfl, isSlot, Int.not_lt.mp later, fun t ht hn => isSlot_le isSlot ht ?_⟩
    unfold utcTicks at *
    omega
  case pos =>
    obtain ⟨positive, positive'⟩ := inside (same.mp later)
    have clock := r.clock_range
    have utc := r.utc_range
    have forward : 0 ≤ period weekday * ticksPerDay := by
      unfold period
      split <;> decide
    obtain ⟨s, hs, clock', offset'⟩ := @withClock_ok r (r.clock + -period weekday * ticksPerDay)
      (by rw [Int.neg_mul]; omega) (by unfold utcTicks at *; rw [Int.neg_mul]; omega)
    have back : s.utcTicks = r.utcTicks - period weekday * ticksPerDay := by
      unfold utcTicks
      rw [clock', offset', Int.neg_mul]
      omega
    rw [if_pos later, addDays, hs]
    refine ⟨s.utcTicks, rfl, back ▸ isSlot_back isSlot, ?_, fun t ht hn => isSlot_le (back ▸ isSlot_back isSlot) ht ?_⟩
    case refine_1 =>
      rw [back]
      unfold utcTicks
      omega
    case refine_2 =>
      rw [back]
      omega

structure Planned (job : BackupJob) : Prop where
  mode : job.mode = .scheduled
  kind : job.scheduleKind = .daily ∨ job.scheduleKind = .weekly

def scheduleDay (job : BackupJob) : Option Int :=
  if job.scheduleKind = .weekly then some job.scheduleWeekday else none

def Slot (job : BackupJob) (offset t : Int) : Prop :=
  IsSlot job.scheduleHour job.scheduleMinute (scheduleDay job) offset t

-- Eight days after the first date, and with a slot of its own date that is not after the last one.
structure InRange (job : BackupJob) (now : DateTimeOffset) : Prop where
  late  : 8 * ticksPerDay ≤ now.utcTicks
  today : now.date * ticksPerDay + slotTime job.scheduleHour job.scheduleMinute - now.offset ≤ maxTicks

theorem isDue_planned (hj : Planned job) (hp : job.paused = false) : isDue job now false =
    dueSlot job.lastScanAt now job.scheduleHour job.scheduleMinute (scheduleDay job) := by
  unfold isDue scheduleDay
  rcases hj.kind with daily | weekly
  case inl => simp [hp, hj.mode, daily]
  case inr => simp [hp, hj.mode, weekly]

-- The last scan was before a time; a job that was never scanned is before all.
def Before (last : Option DateTimeOffset) (t : Int) : Prop :=
  ∀ scan ∈ last, scan.utcTicks < t

theorem isDue_ok (hj : Planned job) (hr : InRange job now) : ∃ due, isDue job now false = .ok due ∧
    (due ↔ job.paused = false ∧ (job.lastScanAt = none ∨
      ∃ t, Slot job now.offset t ∧ Before job.lastScanAt t ∧ t ≤ now.utcTicks)) := by
  cases hp : job.paused
  case true => exact ⟨false, by rw [isDue, if_pos hp], by simp⟩
  case false =>
    obtain ⟨s, due, slot, past, latest⟩ := dueSlot_latest hr.late hr.today
    refine ⟨_, (isDue_planned hj hp).trans due, ?_⟩
    rw [and_iff_right rfl]
    cases job.lastScanAt
    case none => simp
    case some scan =>
      simp only [Option.all_some, decide_eq_true_eq, reduceCtorEq, false_or]
      constructor
      case mp => exact fun h => ⟨s, slot, fun _ hs => by cases hs; exact h, past⟩
      case mpr =>
        rintro ⟨t, ht, before, hn⟩
        exact Int.lt_of_lt_of_le (before scan rfl) (latest t ht hn)

theorem dueSlot_ne_endless : dueSlot last now hour minute weekday ≠ .error .endless := by
  have tail (slot : DateTimeOffset) : (if now.utcTicks < slot.utcTicks then
      slot.addDays (if weekday = none then -1 else -7) >>= fun slot => .ok (last.all (·.utcTicks < slot.utcTicks))
      else .ok (last.all (·.utcTicks < slot.utcTicks))) ≠ Except.error Failure.endless := by
    split
    case isTrue  => exact Except.bind_ne_error withClock_ne_endless fun _ => by simp
    case isFalse => simp
  refine Except.bind_ne_error withClock_ne_endless fun today => ?_
  cases weekday
  case none   => exact tail today
  case some d =>
    refine Except.bind_ne_error (walkBack_ne_endless ?_) tail
    unfold behind
    omega

-- The loop over the days ends within six steps.
theorem isDue_ne_endless {force : Bool} : isDue job now force ≠ .error .endless := by
  unfold isDue
  split_ifs <;> try simp
  split
  case h_1 => simp
  case h_2 => simp
  case h_3 => exact dueSlot_ne_endless
  case h_4 => exact dueSlot_ne_endless

-- A run takes every slot between the last scan before it and its time.
def Covers (c : Check) (t : Int) : Prop :=
  c.ran ∧ Before c.last t ∧ t ≤ c.now.utcTicks

theorem not_covers {times : List DateTimeOffset} (hl : ¬ Before job.lastScanAt t) (ht : ∀ now ∈ times, t ≤ now.utcTicks) :
    ∀ c ∈ checks job times, ¬ Covers c t := by
  induction times generalizing job
  case nil =>
    intro c hc
    cases hc
  case cons now rest ih =>
    obtain ⟨first, later⟩ := List.forall_mem_cons.mp ht
    rw [checks, List.forall_mem_cons]
    refine ⟨fun h => hl h.right.left, ih ?_ later⟩
    split
    case isTrue  => exact fun h => Int.not_lt.mpr first (h now rfl)
    case isFalse => exact hl

theorem covers_iff {times : List DateTimeOffset} {offset : Int} {j : Nat} (hj : Planned job) (hp : job.paused = false)
    (ho : ∀ now ∈ times, now.offset = offset) (hr : ∀ now ∈ times, InRange job now)
    (hs : times.Pairwise (·.utcTicks ≤ ·.utcTicks)) (slot : Slot job offset t) (hb : Before job.lastScanAt t) :
    (∃ c, (checks job times)[j]? = some c ∧ Covers c t) ↔
      times.findIdx? (fun now => t ≤ now.utcTicks) = some j := by
  induction times generalizing job j
  case nil => simp [checks]
  case cons now rest ih =>
    obtain ⟨ho, hos⟩ := List.forall_mem_cons.mp ho
    obtain ⟨hr, hrs⟩ := List.forall_mem_cons.mp hr
    obtain ⟨hs, hss⟩ := List.pairwise_cons.mp hs
    obtain ⟨due, hd, iff⟩ := isDue_ok hj hr
    rw [checks, List.findIdx?_cons]
    by_cases come : t ≤ now.utcTicks
    case pos =>
      have run : due := iff.mpr ⟨hp, .inr ⟨t, ho ▸ slot, hb, come⟩⟩
      subst run
      have later := @not_covers t { job with lastScanAt := some now } rest (fun h => Int.not_lt.mpr come (h now rfl))
        fun c hc => Int.le_trans come (hs c hc)
      rw [hd, decide_eq_true come]
      cases j
      case zero =>
        refine iff_of_true ⟨_, rfl, ?_, hb, come⟩ rfl
        simp
      case succ j =>
        refine iff_of_false ?_ (by simp)
        rintro ⟨c, hc, covers⟩
        exact later c (List.mem_of_getElem? hc) covers
    case neg =>
      rw [decide_eq_false come]
      cases j
      case zero =>
        refine iff_of_false ?_ (by simp)
        rintro ⟨c, hc, covers⟩
        cases hc
        exact come covers.right.right
      case succ j =>
        have found : (if false = true then some 0 else (rest.findIdx? (t ≤ ·.utcTicks)).map (· + 1)) = some (j + 1) ↔
            rest.findIdx? (t ≤ ·.utcTicks) = some j := by
          rw [if_neg (by simp), Option.map_eq_some_iff]
          constructor
          case mp =>
            rintro ⟨i, hi, he⟩
            cases he
            exact hi
          case mpr => exact fun h => ⟨j, h, rfl⟩
        rw [found, List.getElem?_cons_succ]
        split
        case isFalse => exact ih hj hp hos hrs hss slot hb
        case isTrue =>
          refine @ih { job with lastScanAt := some now } j ⟨hj.mode, hj.kind⟩ hp hos
            (fun c hc => ⟨(hrs c hc).late, (hrs c hc).today⟩) hss slot ?_
          intro scan hscan
          cases hscan
          omega

-- What a job's schedule means for its checks, one by one and in a row.
structure ScheduleLaw (job : BackupJob) : Prop where
  due  : ∀ last now, InRange job now → ∃ due, isDue { job with lastScanAt := last } now false = .ok due ∧
    (due ↔ job.paused = false ∧ (last = none ∨ ∃ t, Slot job now.offset t ∧ Before last t ∧ t ≤ now.utcTicks))
  loop : ∀ last now force, isDue { job with lastScanAt := last } now force ≠ .error .endless
  runs : job.paused = false → ∀ last offset times, (∀ now ∈ times, now.offset = offset ∧ InRange job now) →
    times.Pairwise (·.utcTicks ≤ ·.utcTicks) → ∀ t, Slot job offset t → Before last t → ∀ j,
      ((∃ c, (checks { job with lastScanAt := last } times)[j]? = some c ∧ Covers c t) ↔
        times.findIdx? (fun now => t ≤ now.utcTicks) = some j)

theorem scheduleLaw (job : BackupJob) (hj : Planned job) : ScheduleLaw job where
  due last _ hr           := @isDue_ok _ { job with lastScanAt := last } ⟨hj.mode, hj.kind⟩ ⟨hr.late, hr.today⟩
  loop _ _ _              := isDue_ne_endless
  runs hp last _ times ht hs t slot hb _ :=
    @covers_iff t { job with lastScanAt := last } times _ _ ⟨hj.mode, hj.kind⟩ hp (fun c hc => (ht c hc).left)
      (fun c hc => ⟨(ht c hc).right.late, (ht c hc).right.today⟩) hs slot hb

def saturdays : BackupJob :=
  { mode := .scheduled, scheduleKind := .weekly, scheduleHour := 30, scheduleMinute := -5, scheduleWeekday := 9 }

-- A day of the year 2021 and its hour, one hour east of UTC; the first day is a Friday.
def during (day hour : Fin 24) : DateTimeOffset where
  clock       := (738000 + day.val) * ticksPerDay + hour.val * ticksPerHour
  offset      := ticksPerHour
  clock_range := by
    unfold maxTicks ticksPerDay ticksPerHour ticksPerMinute
    omega
  utc_range   := by
    unfold maxTicks ticksPerDay ticksPerHour ticksPerMinute
    omega
  offset_14   := by decide

theorem scheduleLaw_saturday : (∃ c,
    (checks { saturdays with lastScanAt := some (during 0 1) } [during 0 12, during 1 22, during 1 23, during 2 9])[2]? =
      some c ∧ Covers c (during 1 23).utcTicks) := by
  have planned : Planned saturdays := ⟨rfl, .inr rfl⟩
  refine ((scheduleLaw saturdays planned).runs rfl _ ticksPerHour _ ?_ ?_ _ ⟨by decide, ?_⟩ ?_ 2).mpr (by decide)
  case refine_1 =>
    simp only [List.forall_mem_cons]
    refine ⟨⟨rfl, ?_⟩, ⟨rfl, ?_⟩, ⟨rfl, ?_⟩, ⟨rfl, ?_⟩, fun _ hn => by cases hn⟩ <;> constructor <;> decide
  case refine_2 => decide
  case refine_3 =>
    intro day hd
    cases hd
    decide
  case refine_4 =>
    intro scan hs
    cases hs
    decide

-- The last day of the calendar, eight hours west of UTC, where a slot at 23 o'clock has no time in UTC.
def lastMorning : DateTimeOffset where
  clock       := maxTicks - 14 * ticksPerHour
  offset      := -8 * ticksPerHour
  clock_range := by decide
  utc_range   := by decide
  offset_14   := by decide

theorem not_due_lastMorning : ¬ ∀ job now, Planned job → 8 * ticksPerDay ≤ now.utcTicks →
    (isDue job now false = .ok true ↔ job.paused = false ∧ (job.lastScanAt = none ∨
      ∃ t, Slot job now.offset t ∧ Before job.lastScanAt t ∧ t ≤ now.utcTicks)) := by
  intro h
  have due := (h { mode := .scheduled, scheduleKind := .daily, scheduleHour := 23 } lastMorning ⟨rfl, .inl rfl⟩
    (by decide)).mpr ⟨rfl, .inl rfl⟩
  have fails : isDue { mode := .scheduled, scheduleKind := .daily, scheduleHour := 23 } lastMorning false =
      .error .argumentOutOfRange := by
    decide
  rw [fails] at due
  cases due

end MyDrive.Backup.Schedule
