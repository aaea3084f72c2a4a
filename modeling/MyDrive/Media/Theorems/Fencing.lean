import MyDrive.Library.Execution
import MyDrive.Media.Jobs

open Execution

namespace MyDrive.Media

def Event.claimOf (job : Id) : Event → Option Nat
  | .claimed job' claim => if job' = job then some claim else none
  | .updated _ _        => none

def lastClaim (job : Id) (history : List Event) : Option Nat :=
  (history.filterMap (Event.claimOf job)).getLast?

-- Whenever a worker has updated a job, its own claim was the last one of that job.
def Fenced (history : List Event) : Prop :=
  ∀ before after job claim, history = before ++ .updated job claim :: after →
    lastClaim job before = some claim

section

variable {history : List Event} {job job' : Id} {claim : Nat}

theorem lastClaim_append_updated :
    lastClaim job (history ++ [.updated job' claim]) = lastClaim job history := by
  simp [lastClaim, Event.claimOf]

theorem lastClaim_append_claimed :
    lastClaim job (history ++ [.claimed job' claim]) =
      if job' = job then some claim else lastClaim job history := by
  by_cases h : job' = job <;> simp [lastClaim, Event.claimOf, h]

theorem Fenced.append {e : Event} (h : Fenced history)
    (he : ∀ job claim, e = .updated job claim → lastClaim job history = some claim) :
    Fenced (history ++ [e]) := by
  intro before after job claim hh
  rcases List.eq_nil_or_concat after with rfl | ⟨after, e', rfl⟩
  case inl =>
    obtain ⟨rfl, rfl⟩ := List.append_inj' hh rfl |>.imp id List.singleton_inj.mp
    exact he job claim rfl
  case inr =>
    have hh : history ++ [e] = (before ++ .updated job claim :: after) ++ [e'] := by simpa using hh
    exact h before after job claim (List.append_inj' hh rfl).left

theorem Fenced.append_claimed (h : Fenced history) : Fenced (history ++ [.claimed job claim]) := by
  apply h.append
  intros
  contradiction

theorem Fenced.append_updated (h : Fenced history) (hc : lastClaim job history = some claim) :
    Fenced (history ++ [.updated job claim]) := by
  apply h.append
  intro job' claim' he
  cases he
  exact hc

end

namespace Jobs

variable {jobs jobs' : Jobs} {c : ClaimedJob}

-- A change that neither starts a job nor counts an attempt.
def Calms (jobs jobs' : Jobs) : Prop :=
  ∀ c : ClaimedJob, jobs'.held c → jobs.held c

theorem held_iff : jobs.held c ↔
    ∃ j, jobs.lookup c.id = some j ∧ j.state = .running ∧ j.attempts = c.attempts := by
  simp [held, Option.any_eq_true]

theorem Calms.refl : Calms jobs jobs :=
  fun _ h => h

theorem Calms.of_rows {f : Id → Job → Job}
    (hf : ∀ id j, (f id j).state = .running → j.state = .running ∧ (f id j).attempts = j.attempts) :
    Calms jobs (jobs.filterMap fun id j => some (f id j)) := by
  intro c h
  obtain ⟨j, hj, hs, ha⟩ := held_iff.mp h
  obtain ⟨k, hk, he⟩ := Option.bind_eq_some_iff.mp (Table.lookup_filterMap.symm.trans hj)
  cases he
  obtain ⟨hr, he⟩ := hf c.id k hs
  exact held_iff.mpr ⟨k, hk, hr, he ▸ ha⟩

theorem Calms.updateHeld {f : Job → Job}
    (hf : ∀ j, (f j).state = .running → j.state = .running ∧ (f j).attempts = j.attempts) :
    Calms jobs (jobs.updateHeld c f).1 := by
  apply Calms.of_rows
  intro id j h
  split
  case isTrue hc  => rw [if_pos hc] at h; exact hf j h
  case isFalse hc => rw [if_neg hc] at h; exact ⟨h, rfl⟩

-- The `UPDATE`s of a worker that holds its row.
structure Guards (jobs : Jobs) (c : ClaimedJob) (r : Jobs × Bool) : Prop where
  calms : Calms jobs r.1
  held  : r.2 → jobs.held c

theorem Guards.renewLease {now : Time} : Guards jobs c (jobs.renewLease c now) where
  calms  := by apply Calms.updateHeld; simp
  held h := h

theorem Guards.setStage {now : Time} {stage : String} {bytes : Nat} :
    Guards jobs c (jobs.setStage c now stage bytes) where
  calms  := by apply Calms.updateHeld; simp
  held h := h

theorem Guards.complete {now : Time} {bytes : Nat} : Guards jobs c (jobs.complete c now bytes) := by
  rw [Jobs.complete]
  split
  case isTrue  => exact ⟨by apply Calms.updateHeld; simp, id⟩
  case isFalse => exact ⟨.refl, by simp⟩

theorem Guards.recordFailure {now : Time} {failure : JobFailure} :
    Guards jobs c (jobs.recordFailure c now failure) where
  calms  := by
    apply Calms.updateHeld
    intro j
    simp only
    split <;> try simp
    split <;> simp
  held h := h

theorem Calms.failExhaustedLeases {now : Time} : Calms jobs (jobs.failExhaustedLeases now) := by
  apply Calms.of_rows
  intro id j
  split <;> simp

theorem Calms.retryFailed {now : Time} {jobId : Option Id} :
    Calms jobs (jobs.retryFailed now jobId) := by
  apply Calms.of_rows
  intro id j
  split <;> simp

theorem Calms.insert {id : Id} {task : Task} {now : Time} :
    Calms jobs (jobs.set id { task, availableAt := now }) := by
  intro c h
  obtain ⟨j, hj, hs, ha⟩ := held_iff.mp h
  rw [Table.lookup_set] at hj
  split at hj
  case isTrue  => cases hj; contradiction
  case isFalse => exact held_iff.mpr ⟨j, hj, hs, ha⟩

theorem Calms.erase {id : Id} : Calms jobs (jobs.erase id) := by
  intro c h
  obtain ⟨j, hj, hs, ha⟩ := held_iff.mp h
  rw [Table.lookup_erase] at hj
  split at hj
  case isTrue  => contradiction
  case isFalse => exact held_iff.mpr ⟨j, hj, hs, ha⟩

theorem mem_of_first {rows : List (Id × Job)} {r : Id × Job} (h : first rows = some r) : r ∈ rows := by
  induction rows
  case nil => contradiction
  case cons r' rs ih =>
    rw [first] at h
    split at h
    case h_1 => cases h; exact List.mem_cons_self
    case h_2 hf =>
      split at h <;> cases h
      case isTrue  => exact .tail _ (ih hf)
      case isFalse => exact List.mem_cons_self

-- A claim counts the attempts of its job.
theorem claimOne_some {paused : Bool} {now : Time} {locked : List Id}
    (h : jobs.claimOne paused now locked = some (jobs', c)) :
    ∃ j j', jobs.lookup c.id = some j ∧ c.attempts = j.attempts + 1 ∧ j'.state = .running ∧
      j'.attempts = c.attempts ∧ jobs' = jobs.set c.id j' := by
  rw [claimOne] at h
  split at h <;> try contradiction
  obtain ⟨⟨id, j⟩, hf, he⟩ := Option.map_eq_some_iff.mp h
  cases he
  have hm := (List.mem_filter.mp (mem_of_first hf)).left
  exact ⟨j, _, Table.lookup_eq_some_iff.mpr hm, rfl, rfl, rfl, rfl⟩

end Jobs

namespace State

structure Inv (s : State) : Prop where
  fenced : Fenced s.history
  bound {i w} : s.workers.lookup i = some w → w.claim < s.claims
  last {i w} : s.workers.lookup i = some w → s.jobs.held w.job →
    lastClaim w.job.id s.history = some w.claim

-- A step of the worker `w`, who stays with its claim.
structure Works (w : Worker) (s s' : State) : Prop where
  jobs    : Jobs.Calms s.jobs s'.jobs
  claims  : s'.claims = s.claims
  workers {k v} : s'.workers.lookup k = some v →
    ∃ u, s.workers.lookup k = some u ∧ v.job = u.job ∧ v.claim = u.claim
  history : s'.history = s.history ∨
    s.jobs.held w.job ∧ s'.history = s.history ++ [.updated w.job.id w.claim]

variable {s s' : State} {w : Worker} {i : Nat}

theorem Works.refl : Works w s s where
  jobs      := .refl
  claims    := rfl
  workers h := ⟨_, h, rfl, rfl⟩
  history   := .inl rfl

theorem Works.update {r : Jobs × Bool} (h : Jobs.Guards s.jobs w.job r) :
    Works w s (s.update w r) where
  jobs       := h.calms
  claims     := rfl
  workers hv := ⟨_, hv, rfl, rfl⟩
  history    := by
    rw [State.update]
    cases hr : r.2
    case false => exact .inl rfl
    case true  => exact .inr ⟨h.held hr, rfl⟩

theorem Works.goto {v : Worker} {phase : Phase} (h : Works w s s') (hw : s.workers.lookup i = some w)
    (hj : v.job = w.job) (hc : v.claim = w.claim) : Works w s (s'.goto i v phase) where
  jobs          := h.jobs
  claims        := h.claims
  workers {k u} hu := by
    simp only [State.goto, Table.lookup_set] at hu
    split at hu
    case isTrue hk  => cases hu; exact ⟨w, hk ▸ hw, hj, hc⟩
    case isFalse    => exact h.workers hu
  history       := h.history

theorem Works.leave (h : Works w s s') : Works w s (s'.leave i) where
  jobs          := h.jobs
  claims        := h.claims
  workers {k u} hu := by
    simp only [State.leave, Table.lookup_erase] at hu
    split at hu
    case isTrue  => contradiction
    case isFalse => exact h.workers hu
  history       := h.history

theorem work_works {a : Action} (hw : s.workers.lookup i = some w) (h : s.work i w a = some s') :
    Works w s s' := by
  cases a <;> simp only [work] at h <;> try contradiction
  case heartbeat =>
    split at h <;> try contradiction
    split at h <;> cases h
    exact (Works.update .renewLease).goto hw rfl rfl
  case setStage =>
    split at h <;> cases h
    all_goals exact (Works.update .setStage).goto hw rfl rfl
  case publish =>
    split at h <;> cases h
    exact Works.refl.goto hw rfl rfl
  case ownsLease =>
    split at h <;> cases h
    exact Works.refl.goto hw rfl rfl
  case complete =>
    split at h <;> cases h
    split
    case isTrue  => exact (Works.update .complete).leave
    case isFalse => exact Works.refl.goto hw rfl rfl
  case fail =>
    split at h <;> cases h
    exact Works.refl.goto hw rfl rfl
  case recordFailure =>
    split at h <;> cases h
    exact (Works.update .recordFailure).leave
  case crash =>
    cases h
    exact Works.refl.leave

theorem Inv.work (h : s.Inv) (hw : s.workers.lookup i = some w) (m : Works w s s') : s'.Inv := by
  have last {job} : lastClaim job s'.history = lastClaim job s.history := by
    rcases m.history with he | ⟨_, he⟩ <;> rw [he]
    rw [lastClaim_append_updated]
  refine ⟨?fenced, fun hv => ?bound, fun hv hh => ?last⟩
  case fenced =>
    rcases m.history with he | ⟨hh, he⟩ <;> rw [he]
    case inl => exact h.fenced
    case inr => exact h.fenced.append_updated (h.last hw hh)
  case bound =>
    obtain ⟨u, hu, _, hc⟩ := m.workers hv
    rw [m.claims, hc]
    exact h.bound hu
  case last =>
    obtain ⟨u, hu, hj, hc⟩ := m.workers hv
    rw [last, hj, hc]
    rw [hj] at hh
    exact h.last hu (m.jobs _ hh)

-- The rows of the jobs change, and no worker does anything.
theorem Inv.calm {jobs : Jobs} {next : Id} {paused : Bool} (h : s.Inv) (hc : Jobs.Calms s.jobs jobs) :
    Inv { s with jobs, next, paused } where
  fenced     := h.fenced
  bound      := h.bound
  last hv hh := h.last hv (hc _ hh)

-- The number that a claim gives to its worker is not the one of another worker of the job.
def Fresh (s : State) (a : Action) : Prop :=
  ∀ i now locked jobs job k w, a = .claim i now locked →
    s.jobs.claimOne s.paused now locked = some (jobs, job) → s.workers.lookup k = some w →
    w.job.id = job.id → w.job.attempts ≠ job.attempts

theorem Inv.claim {now : Time} {locked : List Id} (h : s.Inv) (hf : Fresh s (.claim i now locked))
    (hs : s.claim i now locked = some s') : s'.Inv := by
  obtain ⟨⟨jobs, job⟩, hc, rfl⟩ := Option.map_eq_some_iff.mp hs
  obtain ⟨j, j', _, _, _, _, rfl⟩ := Jobs.claimOne_some hc
  refine ⟨h.fenced.append_claimed, fun {k v} hv => ?bound, fun {k v} hv hh => ?last⟩
  all_goals
    simp only [Table.lookup_set] at hv
    split at hv
  case bound.isTrue  => cases hv; exact Nat.lt_succ_self _
  case bound.isFalse => exact Nat.lt_succ_of_lt (h.bound hv)
  case last.isTrue   => cases hv; simp [lastClaim_append_claimed]
  case last.isFalse  =>
    obtain ⟨r, hr, hs, ha⟩ := Jobs.held_iff.mp hh
    rw [Table.lookup_set] at hr
    split at hr
    case isTrue he =>
      cases hr
      exact absurd (by simp_all) (hf i now locked _ job k v rfl hc hv he)
    case isFalse he =>
      rw [lastClaim_append_claimed, if_neg (Ne.symm he)]
      exact h.last hv (Jobs.held_iff.mpr ⟨r, hr, hs, ha⟩)

def init : State := {}

theorem inv_init : init.Inv where
  fenced := by
    intro before after job claim h
    exact absurd h.symm (by simp [init])
  bound h  := by contradiction
  last h _ := by contradiction

theorem inv_step {a : Action} (h : s.Inv) (hf : Fresh s a) (hs : s.step a = some s') : s'.Inv := by
  cases a
  case insert              => cases hs; exact h.calm .insert
  case delete              => cases hs; exact h.calm .erase
  case setPaused           => cases hs; exact h.calm .refl
  case retryFailed         => cases hs; exact h.calm .retryFailed
  case failExhaustedLeases => cases hs; exact h.calm .failExhaustedLeases
  case claim =>
    simp only [step] at hs
    split at hs <;> try contradiction
    exact h.claim hf hs
  all_goals
    simp only [step] at hs
    split at hs <;> try contradiction
    case h_1 he =>
      obtain ⟨k, hk, he⟩ := Option.bind_eq_some_iff.mp he
      obtain ⟨u, hu, he⟩ := Option.map_eq_some_iff.mp he
      cases he
      exact h.work hu (work_works hu hs)

section

variable {k : Nat} {v : Worker} (hv : s.workers.lookup k = some v) (hh : s.jobs.held v.job)
  (hl : lastClaim v.job.id s.history ≠ some v.claim)
include hv hh hl

theorem unfenced_of_failed {failure : JobFailure} (hp : v.phase = .failed failure) :
    ∃ s', s.step (.recordFailure k 0) = some s' ∧ ¬Fenced s'.history := by
  refine ⟨_, by simp [step, Action.worker, hv, work, hp]; rfl, fun h => ?_⟩
  have updated : (s.jobs.recordFailure v.job 0 failure).2 = true := hh
  refine hl (h s.history [] v.job.id v.claim ?_)
  simp [State.leave, State.update, updated]

theorem unfenced_of_held : ∃ s', Reaches step s s' ∧ ¬Fenced s'.history := by
  cases hp : v.phase
  case failed =>
    obtain ⟨s', hs, hn⟩ := unfenced_of_failed hv hh hl hp
    exact ⟨s', .tail .refl trivial hs, hn⟩
  all_goals
    have fails : s.step (.fail k leaseLost) = some (s.goto k v (.failed leaseLost)) := by
      simp [step, Action.worker, hv, work, hp]
    have hv' : (s.goto k v (.failed leaseLost)).workers.lookup k =
        some { v with phase := .failed leaseLost } := by
      simp [State.goto]
    obtain ⟨s', hs, hn⟩ := unfenced_of_failed hv' hh hl rfl
    exact ⟨s', .head trivial fails (.tail .refl trivial hs), hn⟩

end

-- A worker whose number is given out again can still update the job.
theorem unfenced {a : Action} (h : s.Inv) (hs : s.step a = some s') (hn : ¬Fresh s a) :
    ∃ s'', Reaches step s' s'' ∧ ¬Fenced s''.history := by
  simp only [Fresh, not_forall, ne_eq, Decidable.not_not] at hn
  obtain ⟨i, now, locked, jobs, job, k, w, rfl, hc, hw, hj, ha⟩ := hn
  simp only [step] at hs
  split at hs <;> try contradiction
  case h_2 hi =>
    have hk : k ≠ i := by
      rintro rfl
      cases hw.symm.trans hi
    obtain ⟨j, j', _, _, running, attempts, rfl⟩ := Jobs.claimOne_some hc
    simp only [State.claim, hc, Option.map_some, Option.some.injEq] at hs
    subst hs
    apply unfenced_of_held (k := k) (v := w)
    case hv => simp [hk, hw]
    case hh => exact Jobs.held_iff.mpr ⟨j', by simp [hj], running, attempts.trans ha.symm⟩
    case hl =>
      rw [lastClaim_append_claimed, if_pos hj.symm, ne_eq, Option.some.injEq]
      exact Nat.ne_of_gt (h.bound hw)

theorem updates_fenced {s : State} (r : Steps step Fresh init s) : Fenced s.history ∧
    ∀ a s', s.step a = some s' → ¬Fresh s a →
      ∃ s'', Reaches step s' s'' ∧ ¬Fenced s''.history := by
  have inv := r.invariant inv_init inv_step
  exact ⟨inv.fenced, fun a s' hs hn => unfenced inv hs hn⟩

def fresh (s : State) : Action → Bool
  | .claim _ now locked =>
    (s.jobs.claimOne s.paused now locked).all fun (_, job) =>
      !s.workers.any fun _ w => w.job.id = job.id && w.job.attempts = job.attempts
  | _                   => true

theorem fresh_of_check {a : Action} (h : fresh s a) : Fresh s a := by
  intro i now locked jobs job k w ha hc hw hj
  subst ha
  simp only [fresh, hc, Option.all_some, Bool.not_eq_true', Bool.eq_false_iff, ne_eq, Table.any_iff,
    not_exists, not_and] at h
  simpa [hj] using h k w hw

-- The worker 0 stalls, its lease expires, and the worker 1 gives the job up.
def stalled : List Action :=
  [.insert .imagePreview 0, .claim 0 0 [], .claim 1 300 [], .setStage 1 301 "checking_dimensions" 2,
   .fail 1 { kind := .permanent, code := "decode_failed" }, .recordFailure 1 302]

-- The stalled worker comes back, and its update finds no row.
theorem updates_fenced_stalled : ∃ s, Steps step Fresh init s ∧ Fenced s.history ∧
    s.history = [.claimed 1 0, .claimed 1 1, .updated 1 1, .updated 1 1] := by
  have run : (Execution.run (fun s a => if fresh s a then step s a else none) init
      (stalled ++ [.setStage 0 303 "checking_dimensions" 2])).map (·.history) =
      some [.claimed 1 0, .claimed 1 1, .updated 1 1, .updated 1 1] := by
    decide +kernel
  obtain ⟨s, hs, history⟩ := Option.map_eq_some_iff.mp run
  have steps : Steps step Fresh init s := Execution.steps_of_run (fun _ _ => fresh_of_check) hs
  exact ⟨s, steps, (updates_fenced steps).left, history⟩

-- The owner retries the job, the worker 2 claims it, and the stalled worker updates it.
theorem update_after_retry : ∃ s, Reaches step init s ∧ ¬Fenced s.history := by
  have run : (Execution.run step init
      (stalled ++ [.retryFailed 303 (some 1), .claim 2 304 [],
        .setStage 0 305 "checking_dimensions" 2])).map (·.history) =
      some ([.claimed 1 0, .claimed 1 1, .updated 1 1, .updated 1 1, .claimed 1 2] ++
        [.updated 1 0]) := by
    decide +kernel
  obtain ⟨s, hs, history⟩ := Option.map_eq_some_iff.mp run
  refine ⟨s, Execution.reaches_of_run hs, fun h => ?_⟩
  have last := h _ _ _ _ history
  contradiction

end State
end MyDrive.Media
