import MyDrive.Shares.Theorems.Downloads

open Shared

namespace MyDrive.Shares

open Transfers Drive

def Event.serial : Event → Option Nat
  | .reserved serial _      => some serial
  | .answered serial _ _    => some serial
  | .began serial _ _ _     => some serial
  | .guessed serial _ _ _ _ => some serial
  | .failed serial _        => some serial
  | .granted serial _       => some serial
  | .refused serial _       => some serial
  | .expired _              => none
  | .locked _               => none

-- What a request has left in the history.
def own (k : Nat) (history : List Event) : List Event :=
  history.filter (·.serial = some k)

-- Events that are no part of an attempt to unlock a share, except for the refusal at its end.
def Event.idle : Event → Bool
  | .reserved _ _   => true
  | .answered _ _ _ => true
  | .refused _ _    => true
  | _               => false

def Event.resets (shareId : Id) : Event → Bool
  | .expired id   => id = shareId
  | .granted _ id => id = shareId
  | _             => false

def Event.fails (shareId : Id) : Event → Bool
  | .failed _ id => id = shareId
  | _            => false

def Event.tally (shareId : Id) (n : Nat) (e : Event) : Nat :=
  if e.resets shareId then 0 else if e.fails shareId then n + 1 else n

-- The wrong guesses that were recorded since the lock expired or a guess was right.
def streak (history : List Event) (shareId : Id) : Nat :=
  history.foldl (Event.tally shareId) 0

-- At no point were more wrong guesses recorded than the limit.
def Bounded (history : List Event) : Prop :=
  ∀ pre shareId, pre <+: history → streak pre shareId ≤ passwordFailureLimit

variable {history es : List Event} {id shareId : Id} {k : Nat} {e : Event}

theorem own_append : own k (history ++ es) = own k history ++ own k es :=
  List.filter_append ..

theorem own_of_others (h : ∀ e ∈ es, e.serial ≠ some k) : own k (history ++ es) = own k history := by
  have none : own k es = [] := List.filter_eq_nil_iff.mpr fun e he => by simpa using h e he
  rw [own_append, none, List.append_nil]

theorem mem_own : e ∈ own k history ↔ e ∈ history ∧ e.serial = some k := by
  simp [own]

theorem streak_concat : streak (history ++ [e]) id = e.tally id (streak history id) := by
  simp [streak]

theorem streak_append_of_still (h : ∀ e ∈ es, ∀ n, e.tally id n = n) :
    streak (history ++ es) id = streak history id := by
  induction es generalizing history
  case nil => rw [List.append_nil]
  case cons e es ih =>
    rw [List.append_cons, ih fun x hx => h x (List.mem_cons_of_mem _ hx), streak_concat,
      h e List.mem_cons_self]

-- Without a reset, each recorded guess counts.
theorem streak_append_of_kept (h : ∀ e ∈ es, e.resets id = false) :
    streak (history ++ es) id = streak history id + es.countP (·.fails id) := by
  induction es generalizing history
  case nil => rw [List.append_nil]; rfl
  case cons e es ih =>
    rw [List.append_cons, ih fun x hx => h x (List.mem_cons_of_mem _ hx), streak_concat,
      List.countP_cons]
    simp only [Event.tally, h e List.mem_cons_self, Bool.false_eq_true, if_false]
    split <;> omega

theorem Bounded.nil : Bounded [] := by
  intro pre id h
  rw [List.prefix_nil.mp h]
  exact Nat.zero_le _

theorem Bounded.concat (h : Bounded history)
    (he : ∀ id, e.tally id (streak history id) ≤ passwordFailureLimit) : Bounded (history ++ [e]) := by
  intro pre id hp
  obtain rfl | hp := List.prefix_concat_iff.mp hp
  case inl => rw [streak_concat]; exact he id
  case inr => exact h pre id hp

theorem Bounded.append_of_still (h : Bounded history)
    (he : ∀ e ∈ es, ∀ id n, e.tally id n = n) : Bounded (history ++ es) := by
  induction es generalizing history
  case nil => rwa [List.append_nil]
  case cons e es ih =>
    rw [List.append_cons]
    refine ih (h.concat fun id => ?_) fun x hx => he x (List.mem_cons_of_mem _ hx)
    rw [he e List.mem_cons_self]
    exact h history id List.prefix_rfl

theorem Bounded.window {pre mid post : List Event} (h : Bounded (pre ++ mid ++ post))
    (hm : ∀ e ∈ mid, e.resets id = false) : mid.countP (·.fails id) ≤ passwordFailureLimit := by
  have bound := h (pre ++ mid) id (List.prefix_append _ _)
  rw [streak_append_of_kept hm] at bound
  omega

-- The history of one attempt, up to any point. It goes on only if the lock, if there was one, had
-- elapsed when the row was read.
inductive Attempt (k : Nat) (id : Id) : List Event → Prop
  | turnedAway {lock e} {now : Time} : lock.any (· > now) = true →
    Attempt k id [.began k id lock now, .refused k e]
  | began {lock} {now : Time} : lock.all (· ≤ now) = true → Attempt k id [.began k id lock now]
  | guessed {lock lock'} {now now' : Time} {valid} : lock.all (· ≤ now) = true →
    Attempt k id [.began k id lock now, .guessed k id valid lock' now']
  | granted {lock lock'} {now now' : Time} : lock.all (· ≤ now) = true →
    Attempt k id [.began k id lock now, .guessed k id true lock' now', .granted k id]
  | failed {lock lock' e} {now now' : Time} : lock.all (· ≤ now) = true →
    Attempt k id [.began k id lock now, .guessed k id false lock' now', .failed k id, .refused k e]
  | refused {lock lock' e} {now now' : Time} {valid} : lock.all (· ≤ now) = true →
    (valid = false → e = .notFound ∨ ∃ seconds, e = .tooManyAttempts seconds) →
    Attempt k id [.began k id lock now, .guessed k id valid lock' now', .refused k e]

-- What a request that has ended, or is under way, may have left.
def Proper (k : Nat) (events : List Event) : Prop :=
  (∀ e ∈ events, e.idle = true) ∨ ∃ id, Attempt k id events

-- No attempt that reads the row of a share while its lock is set is granted access.
def LockKept (history : List Event) : Prop :=
  ∀ k id lock now, .began k id lock now ∈ history → lock.any (· > now) = true →
    ∀ id', .granted k id' ∉ history

-- Access is granted to no attempt but one that has read the row of the share and guessed right.
def Earned (history : List Event) : Prop :=
  ∀ k id, .granted k id ∈ history → ∃ lock now lock' now',
    .began k id lock now ∈ history ∧ .guessed k id true lock' now' ∈ history

-- A wrong guess is recorded, unless the share has just been locked or is no longer there.
def Recorded (history : List Event) : Prop :=
  ∀ k id lock now e, .guessed k id false lock now ∈ history → .refused k e ∈ history →
    .failed k id ∈ history ∨ e = .notFound ∨ ∃ seconds, e = .tooManyAttempts seconds

theorem lockKept_of_proper (h : ∀ k, Proper k (own k history)) : LockKept history := by
  intro k id lock now hb hl id' hg
  replace hb := mem_own.mpr ⟨hb, rfl⟩
  replace hg := mem_own.mpr ⟨hg, rfl⟩
  obtain idle | ⟨i, attempt⟩ := h k
  case inl => exact absurd (idle _ hb) (by simp [Event.idle])
  case inr =>
    generalize own k history = events at attempt hb hg
    cases attempt <;> simp only [List.mem_cons, List.not_mem_nil, reduceCtorEq, or_false, false_or,
      Event.began.injEq, Event.granted.injEq] at hb hg
    case granted elapsed =>
      obtain ⟨-, -, rfl, rfl⟩ := hb
      cases lock
      case none   => contradiction
      case some t =>
        simp only [Option.any_some, Option.all_some, decide_eq_true_eq] at hl elapsed
        exact absurd elapsed (Nat.not_le.mpr hl)

theorem earned_of_proper (h : ∀ k, Proper k (own k history)) : Earned history := by
  intro k id hg
  replace hg := mem_own.mpr ⟨hg, rfl⟩
  obtain idle | ⟨i, attempt⟩ := h k
  case inl => exact absurd (idle _ hg) (by simp [Event.idle])
  case inr =>
    have sub : ∀ e, e ∈ own k history → e ∈ history := fun e he => (mem_own.mp he).left
    generalize own k history = events at attempt hg sub
    cases attempt <;> simp only [List.mem_cons, List.not_mem_nil, reduceCtorEq, or_false, false_or,
      Event.granted.injEq] at hg
    case granted lock lock' now now' _ =>
      obtain ⟨-, rfl⟩ := hg
      exact ⟨lock, now, lock', now', sub _ (by simp), sub _ (by simp)⟩

theorem recorded_of_proper (h : ∀ k, Proper k (own k history)) : Recorded history := by
  intro k id lock now e hg hr
  replace hg := mem_own.mpr ⟨hg, rfl⟩
  replace hr := mem_own.mpr ⟨hr, rfl⟩
  obtain idle | ⟨i, attempt⟩ := h k
  case inl => exact absurd (idle _ hg) (by simp [Event.idle])
  case inr =>
    have sub : ∀ e, e ∈ own k history → e ∈ history := fun e he => (mem_own.mp he).left
    generalize own k history = events at attempt hg hr sub
    cases attempt <;> simp only [List.mem_cons, List.not_mem_nil, reduceCtorEq, or_false, false_or,
      Event.guessed.injEq, Event.refused.injEq] at hg hr
    case failed =>
      obtain ⟨-, rfl, -⟩ := hg
      exact .inl (sub _ (by simp))
    case refused valid _ hv =>
      obtain ⟨-, -, rfl, -⟩ := hg
      obtain ⟨-, rfl⟩ := hr
      exact .inr (hv rfl)

-- The columns of a share that decide about its lock.
def Share.attempts (s : Share) : Nat × Option Time :=
  (s.failedPasswordAttempts, s.passwordLockedUntil)

-- The lock is set by the last guess that may be recorded.
structure Share.Guarded (s : Share) : Prop where
  limit : s.failedPasswordAttempts ≤ passwordFailureLimit
  lock  : s.passwordLockedUntil.isSome ↔ s.failedPasswordAttempts = passwordFailureLimit

theorem Share.Guarded.of_attempts {s t : Share} (h : s.Guarded) (he : s.attempts = t.attempts) :
    t.Guarded := by
  simp only [attempts, Prod.mk.injEq] at he
  exact ⟨he.left ▸ h.limit, he.left ▸ he.right ▸ h.lock⟩

namespace World

variable {w w' : World} {now : Time} {v : Visit} {u : Unlock} {r : World × Option Call}

theorem guarded_countFailure {s : Share} (h : s.Guarded) : (countFailure now s).Guarded := by
  simp only [countFailure]
  split
  case isTrue  => exact ⟨by simp [passwordFailureLimit], by simp [passwordFailureLimit]⟩
  case isFalse hl =>
    have lt : s.failedPasswordAttempts < passwordFailureLimit :=
      Nat.lt_of_le_of_ne h.limit fun he => hl (h.lock.mpr he)
    refine ⟨lt, ?_⟩
    split
    case isTrue hr => simpa using Nat.le_antisymm lt hr
    case isFalse hr => simpa using fun he => hr (Nat.le_of_eq he.symm)

-- The wrong guesses in the history are those that the rows have counted.
structure Tallied (w : World) : Prop where
  count {i share} : w.db.shares.lookup i = some share →
    streak w.history i = share.failedPasswordAttempts
  unborn {i} : w.db.shares.lookup i = none → streak w.history i = 0
  guarded {i share} : w.db.shares.lookup i = some share → share.Guarded
  bounded : Bounded w.history

-- A step that has nothing to do with the locks.
structure Still (w w' : World) : Prop where
  history : ∃ es, w'.history = w.history ++ es ∧ ∀ e ∈ es, ∀ id n, e.tally id n = n
  shares (id : Id) :
    (w'.db.shares.lookup id).map Share.attempts = (w.db.shares.lookup id).map Share.attempts

theorem Still.streak_eq {id : Id} (q : w.Still w') : streak w'.history id = streak w.history id := by
  obtain ⟨es, he, hq⟩ := q.history
  rw [he, streak_append_of_still fun e hm n => hq e hm id n]

theorem Still.share {id : Id} {share' : Share} (q : w.Still w')
    (h : w'.db.shares.lookup id = some share') :
    ∃ share, w.db.shares.lookup id = some share ∧ share.attempts = share'.attempts := by
  have := q.shares id
  rwa [h, Option.map_some, eq_comm, Option.map_eq_some_iff] at this

theorem Tallied.still (h : w.Tallied) (q : w.Still w') : w'.Tallied where
  count hs   := by
    obtain ⟨share, hs, he⟩ := q.share hs
    rw [q.streak_eq, h.count hs]
    exact congrArg Prod.fst he
  unborn hn  := by
    rw [q.streak_eq]
    refine h.unborn (Option.map_eq_none_iff.mp ((q.shares _).symm.trans ?_))
    rw [hn, Option.map_none]
  guarded hs := by
    obtain ⟨share, hs, he⟩ := q.share hs
    exact (h.guarded hs).of_attempts he
  bounded    := by
    obtain ⟨es, he, hq⟩ := q.history
    exact he ▸ h.bounded.append_of_still hq

theorem Still.log (h : ∀ e ∈ es, ∀ id n, e.tally id n = n) : w.Still (w.log es) where
  history  := ⟨es, rfl, h⟩
  shares _ := rfl

theorem Still.update {id : Id} {f : Share → Share} (hh : w'.history = w.history)
    (hs : w'.db.shares = (w.db.updateShare id f).shares)
    (hf : ∀ s, (f s).attempts = s.attempts) : w.Still w' where
  history  := ⟨[], by simp [hh], by simp⟩
  shares i := by
    rw [hs, lookup_updateShare, Option.map_map]
    congr 1
    funext s
    simp only [Function.comp_apply]
    split
    case isTrue  => exact hf s
    case isFalse => rfl

def expiry (share : Share) (id : Id) : List Event :=
  if share.passwordLockedUntil.isSome then [.expired id] else []

def lockout (now : Time) (share : Share) (id : Id) : List Event :=
  if (countFailure now share).passwordLockedUntil.isSome then [.locked id] else []

-- The events of a wrong guess that is recorded in the row `share`.
def failure (now : Time) (share : Share) (k : Nat) (id : Id) (error : ShareError) : List Event :=
  expiry share id ++ [.failed k id] ++ lockout now share id ++ [.refused k error]

theorem tally_expired {n : Nat} :
    (Event.expired shareId).tally id n = if id = shareId then 0 else n := by
  simp [Event.tally, Event.resets, Event.fails, eq_comm]

theorem still_expiry {share : Share} {n : Nat} (h : e ∈ expiry share shareId) (hn : id ≠ shareId) :
    e.tally id n = n := by
  simp only [expiry] at h
  split at h
  case isTrue  => cases List.mem_singleton.mp h; rw [tally_expired, if_neg hn]
  case isFalse => contradiction

theorem streak_expiry {share : Share} :
    streak (history ++ expiry share id) id =
      if share.passwordLockedUntil.isSome then 0 else streak history id := by
  simp only [expiry]
  split
  case isTrue  => rw [streak_concat]; simp [Event.tally, Event.resets]
  case isFalse => rw [List.append_nil]

theorem still_lockout {share : Share} {error : ShareError} {n : Nat}
    (h : e ∈ lockout now share shareId ++ [.refused k error]) : e.tally id n = n := by
  obtain h | h := List.mem_append.mp h
  case inl =>
    simp only [lockout] at h
    split at h
    case isTrue  => cases List.mem_singleton.mp h; rfl
    case isFalse => contradiction
  case inr => cases List.mem_singleton.mp h; rfl

theorem tally_failed {n : Nat} :
    (Event.failed k shareId).tally id n = if id = shareId then n + 1 else n := by
  simp [Event.tally, Event.resets, Event.fails, eq_comm]

theorem attempts_countFailure {share : Share} :
    (countFailure now share).failedPasswordAttempts =
      (if share.passwordLockedUntil.isSome then 0 else share.failedPasswordAttempts) + 1 := by
  simp only [countFailure]
  split <;> rfl

theorem streak_failure {share : Share} {error : ShareError}
    (h : streak history shareId = share.failedPasswordAttempts) :
    streak (history ++ failure now share k shareId error) id =
      if id = shareId then (countFailure now share).failedPasswordAttempts
      else streak history id := by
  rw [failure, List.append_assoc (_ ++ _), ← List.append_assoc history,
    streak_append_of_still fun e he n => still_lockout he, ← List.append_assoc history,
    streak_concat, tally_failed]
  split
  case isTrue he =>
    subst he
    rw [streak_expiry, h, attempts_countFailure]
  case isFalse he =>
    exact streak_append_of_still fun e hm n => still_expiry hm he

theorem bounded_failure {share : Share} {error : ShareError} (h : Bounded history)
    (hs : streak history shareId = share.failedPasswordAttempts) (hg : share.Guarded) :
    Bounded (history ++ failure now share k shareId error) := by
  have expired : Bounded (history ++ expiry share shareId) := by
    simp only [expiry]
    split
    case isTrue =>
      refine h.concat fun id => ?_
      rw [tally_expired]
      split
      case isTrue  => exact Nat.zero_le _
      case isFalse => exact h history id List.prefix_rfl
    case isFalse => rwa [List.append_nil]
  rw [failure, List.append_assoc (_ ++ _), ← List.append_assoc history, ← List.append_assoc history]
  refine (expired.concat fun id => ?_).append_of_still fun e he id n => still_lockout he
  rw [tally_failed]
  split
  case isTrue he =>
    have limit : (countFailure now share).failedPasswordAttempts ≤ passwordFailureLimit :=
      (guarded_countFailure hg).limit
    rw [attempts_countFailure] at limit
    rwa [he, streak_expiry, hs]
  case isFalse => exact expired _ id List.prefix_rfl

theorem Tallied.fail {share : Share} {error : ShareError} (h : w.Tallied)
    (hs : w.db.shares.lookup shareId = some share) :
    (({ w with db := w.db.updateShare shareId (countFailure now) }).log
      (failure now share k shareId error)).Tallied where
  count {i s} hl    := by
    rw [log_db, lookup_updateShare, Option.map_eq_some_iff] at hl
    obtain ⟨s', hs', rfl⟩ := hl
    rw [history_log, streak_failure (h.count hs)]
    split
    case isTrue he =>
      subst he
      cases hs.symm.trans hs'
      rfl
    case isFalse => exact h.count hs'
  unborn {i} hl     := by
    rw [log_db, lookup_updateShare, Option.map_eq_none_iff] at hl
    have ne : i ≠ shareId := by
      rintro rfl
      simp [hs] at hl
    rw [history_log, streak_failure (h.count hs), if_neg ne]
    exact h.unborn hl
  guarded {i s} hl  := by
    rw [log_db, lookup_updateShare, Option.map_eq_some_iff] at hl
    obtain ⟨s', hs', rfl⟩ := hl
    split
    case isTrue  => exact (guarded_countFailure (h.guarded hs')).of_attempts rfl
    case isFalse => exact h.guarded hs'
  bounded           := bounded_failure h.bounded (h.count hs) (h.guarded hs)

theorem tally_granted {n : Nat} :
    (Event.granted k shareId).tally id n = if id = shareId then 0 else n := by
  simp [Event.tally, Event.resets, Event.fails, eq_comm]

theorem Tallied.grant {n : Nat} {db : Db} (h : w.Tallied)
    (hd : db.shares = (w.db.updateShare shareId fun s =>
      { s with failedPasswordAttempts := 0, passwordLockedUntil := none }).shares) :
    (({ w with db, next := n }).log [.granted k shareId]).Tallied where
  count {i s} hl    := by
    rw [log_db, hd, lookup_updateShare, Option.map_eq_some_iff] at hl
    obtain ⟨s', hs', rfl⟩ := hl
    rw [history_log, streak_concat, tally_granted]
    split
    case isTrue  => rfl
    case isFalse => exact h.count hs'
  unborn {i} hl     := by
    rw [log_db, hd, lookup_updateShare, Option.map_eq_none_iff] at hl
    rw [history_log, streak_concat, tally_granted]
    split
    case isTrue  => rfl
    case isFalse => exact h.unborn hl
  guarded {i s} hl  := by
    rw [log_db, hd, lookup_updateShare, Option.map_eq_some_iff] at hl
    obtain ⟨s', hs', rfl⟩ := hl
    split
    case isTrue  => exact ⟨Nat.zero_le _, by simp [passwordFailureLimit]⟩
    case isFalse => exact h.guarded hs'
  bounded           := by
    refine h.bounded.concat fun i => ?_
    rw [tally_granted]
    split
    case isTrue  => exact Nat.zero_le _
    case isFalse => exact h.bounded w.history i List.prefix_rfl

theorem Tallied.create {db : Db} {share : Share} (h : w.Tallied)
    (hd : w.db.insertShare w.next share = some db) (h0 : share.attempts = (0, none)) :
    ({ w with db, next := w.next + 1 } : World).Tallied where
  count {i s} hs   := by
    obtain ⟨hn, hl⟩ := lookup_insertShare (i := i) hd
    rw [hl] at hs
    split at hs
    case isTrue he => cases hs; rw [he, h.unborn hn]; exact (congrArg Prod.fst h0).symm
    case isFalse   => exact h.count hs
  unborn {i} hs    := by
    obtain ⟨-, hl⟩ := lookup_insertShare (i := i) hd
    rw [hl] at hs
    split at hs
    case isTrue  => contradiction
    case isFalse => exact h.unborn hs
  guarded {i s} hs := by
    obtain ⟨-, hl⟩ := lookup_insertShare (i := i) hd
    rw [hl] at hs
    split at hs
    case isTrue  =>
      cases hs
      simp only [Share.attempts, Prod.mk.injEq] at h0
      exact ⟨by simp [h0], by simp [h0, passwordFailureLimit]⟩
    case isFalse => exact h.guarded hs
  bounded          := h.bounded

-- What a running attempt has left so far.
def Opening (u : Unlock) (events : List Event) : Prop :=
  match u.stage with
  | .checked        => ∃ lock now, lock.all (· ≤ now) = true ∧
    events = [.began u.serial u.shareId lock now]
  | .verified valid => ∃ lock now lock' now', lock.all (· ≤ now) = true ∧
    events = [.began u.serial u.shareId lock now, .guessed u.serial u.shareId valid lock' now']

def Trail (events : List Event) : Call → Prop
  | .visit _  => ∀ e ∈ events, e.idle = true
  | .unlock u => Opening u events

structure Underway (w : World) (c : Call) : Prop where
  below : c.serial < w.next
  trail : Trail (own c.serial w.history) c

structure Attempted (w : World) : Prop extends Tallied w where
  proper (k : Nat) : Proper k (own k w.history)
  fresh {i} : w.next ≤ i → own i w.history = []

-- A step by the request `k`.
structure Extends (w : World) (k : Nat) (w' : World) : Prop where
  others {i} : i ≠ k → own i w'.history = own i w.history
  next       : w.next ≤ w'.next
  below      : k < w'.next

theorem Extends.of_log {db : Db} {n : Nat} (he : ∀ e ∈ es, ∀ i, e.serial = some i → i = k)
    (hn : w.next ≤ n) (hk : k < n) : w.Extends k (({ w with db, next := n }).log es) where
  others {i} hi := own_of_others fun e hm hs => hi (he e hm i hs)
  next          := hn
  below         := hk

abbrev KeepsAttempts :=
  KeepsApart Attempted Underway Distinct

theorem Extends.keeps {call call' : Option Call} (x : w.Extends k w') (h : w.Attempted)
    (ht : w'.Tallied) (hp : Proper k (own k w'.history))
    (hk : ∀ c, w.Underway c → (∀ d, call = some d → Distinct d c) → c.serial ≠ k)
    (own : ∀ c, call' = some c → c.serial = k ∧ Trail (own k w'.history) c) :
    KeepsAttempts w call w' call' where
  store        := {
    ht with
    proper i   := by
      by_cases hi : i = k
      case pos => exact hi ▸ hp
      case neg => rw [x.others hi]; exact h.proper i
    fresh {i} hi := by
      have ne : i ≠ k := fun he => Nat.not_lt.mpr hi (he ▸ x.below)
      rw [x.others ne]
      exact h.fresh (Nat.le_trans x.next hi) }
  own hc       := by
    obtain ⟨hs, trail⟩ := own _ hc
    exact ⟨hs ▸ x.below, hs ▸ trail⟩
  others {c} hc hd _ := by
    refine ⟨Nat.lt_of_lt_of_le hc.below x.next, ?_⟩
    rw [x.others (hk c hc hd)]
    exact hc.trail

-- A step that takes no part in any request.
theorem keepsAttempts_of_same (h : w.Attempted) (ht : w'.Tallied) (hh : w'.history = w.history)
    (hn : w.next ≤ w'.next) : KeepsAttempts w none w' none where
  store           := { ht with
    proper i := hh ▸ h.proper i
    fresh hi := hh ▸ h.fresh (Nat.le_trans hn hi) }
  own hc          := by contradiction
  others hc _ _   := ⟨Nat.lt_of_lt_of_le hc.below hn, hh ▸ hc.trail⟩

theorem still_of_idle {n : Nat} (h : e.idle = true) : e.tally id n = n := by
  cases e <;> first | rfl | contradiction

theorem Underway.idle (h : w.Underway (.visit v)) (he : e.idle = true) :
    ∀ x ∈ own v.serial (w.history ++ [e]), x.idle = true := by
  intro x hx
  rw [own_append] at hx
  obtain hx | hx := List.mem_append.mp hx
  case inl => exact h.trail x hx
  case inr => cases List.mem_singleton.mp (mem_own.mp hx).left; exact he

-- A request that opens no share logs an event of its own.
theorem keepsAttempts_visit {db : Db} {call : Option Call} (h : w.Attempted)
    (hc : w.Underway (.visit v)) (hs : w.Still { w with db }) (hi : e.idle = true)
    (he : e.serial = some v.serial)
    (own : ∀ c, call = some c → ∃ v', c = .visit v' ∧ v'.serial = v.serial) :
    KeepsAttempts w (some (.visit v)) (({ w with db }).log [e]) call := by
  have idle := hc.idle hi
  have tallied : (({ w with db }).log [e]).Tallied := by
    refine (h.toTallied.still hs).still (.log fun x hx id n => ?_)
    cases List.mem_singleton.mp hx
    exact still_of_idle hi
  refine (Extends.of_log (fun x hx i hi => ?_) (Nat.le_refl _) hc.below).keeps h tallied (.inl idle)
    (fun c _ hd => Ne.symm (hd _ rfl)) fun c hc => ?_
  case refine_1 =>
    cases List.mem_singleton.mp hx
    exact Option.some.inj (hi.symm.trans he)
  case refine_2 =>
    obtain ⟨v', rfl, hv⟩ := own c hc
    exact ⟨hv, idle⟩

theorem Moved.keepsAttempts [Digest] (m : w.Moved now v r) (h : w.Attempted)
    (hc : w.Underway (.visit v)) : KeepsAttempts w (some (.visit v)) r.1 r.2 := by
  have same : w.Still { w with db := w.db } := ⟨⟨[], by simp, by simp⟩, fun _ => rfl⟩
  cases m
  case refused  => exact keepsAttempts_visit h hc same rfl rfl (by simp [refuse])
  case answered => exact keepsAttempts_visit h hc same rfl rfl (by simp)
  case advanced => exact .read h ⟨hc.below, hc.trail⟩
  case reserved =>
    refine keepsAttempts_visit h hc (.update rfl rfl fun _ => rfl) rfl rfl fun c hc => ?_
    cases hc
    exact ⟨_, rfl, rfl⟩

-- What a step of an attempt can do.
inductive Tried (w : World) (now : Time) (u : Unlock) : World × Option Call → Prop
  | guessed {valid lock} : u.stage = .checked →
    Tried w now u (w.log [.guessed u.serial u.shareId valid lock now],
      some (.unlock { u with stage := .verified valid }))
  | refused {valid error} : u.stage = .verified valid →
    (valid = false → error = .notFound ∨ ∃ seconds, error = .tooManyAttempts seconds) →
    Tried w now u (w.refuse u.serial error)
  | failed {share error} : u.stage = .verified false → w.db.shares.lookup u.shareId = some share →
    Tried w now u (({ w with db := w.db.updateShare u.shareId (countFailure now) }).log
      (failure now share u.serial u.shareId error), none)
  | granted {db n} : u.stage = .verified true → db.shares = (w.db.updateShare u.shareId fun s =>
      { s with failedPasswordAttempts := 0, passwordLockedUntil := none }).shares → w.next ≤ n →
    Tried w now u (({ w with db, next := n }).log [.granted u.serial u.shareId], none)

theorem tried_recordPasswordFailure (hu : u.stage = .verified false) :
    w.Tried now u (w.recordPasswordFailure now u) := by
  simp only [recordPasswordFailure]
  split
  case h_1 => exact .refused hu fun _ => .inl rfl
  case h_2 share hs =>
    split
    case isTrue  => exact .refused hu fun _ => .inr ⟨_, rfl⟩
    case isFalse => exact .failed hu (Option.filter_eq_some_iff.mp hs).left

theorem tried_grant (hu : u.stage = .verified true) : w.Tried now u (w.grant now u) := by
  simp only [grant]
  split
  case h_1 => exact .refused hu (by simp)
  case h_2 => exact .granted hu rfl (Nat.le_succ _)

theorem tried_nextUnlock [PasswordVerifier] : w.Tried now u (w.nextUnlock now u) := by
  simp only [nextUnlock]
  split
  case h_1 hu => exact .guessed hu
  case h_2 hu => exact tried_recordPasswordFailure hu
  case h_3 hu => exact tried_grant hu

-- The events of a step of an attempt are its own, or name no request at all.
theorem keepsAttempts_unlock {db : Db} {n : Nat} {events es' : List Event} {call : Option Call}
    (h : w.Attempted) (hc : w.Underway (.unlock u)) (hn : w.next ≤ n)
    (ht : (({ w with db, next := n }).log es).Tallied)
    (he : ∀ e ∈ es, ∀ i, e.serial = some i → i = u.serial)
    (ho : own u.serial w.history = events) (ho' : own u.serial es = es')
    (hp : Attempt u.serial u.shareId (events ++ es'))
    (hd : ∀ c, call = some c → c.serial = u.serial ∧ Trail (events ++ es') c) :
    KeepsAttempts w (some (.unlock u)) (({ w with db, next := n }).log es) call := by
  subst ho ho'
  rw [← own_append] at hp hd
  exact (Extends.of_log he hn (Nat.lt_of_lt_of_le hc.below hn)).keeps h ht (.inr ⟨_, hp⟩)
    (fun c _ hd => Ne.symm (hd _ rfl)) hd

theorem own_self (h : e.serial = some k) : own k [e] = [e] := by
  simp [own, h]

theorem serial_failure {share : Share} {error : ShareError} {i : Nat}
    (h : e ∈ failure now share k id error) (he : e.serial = some i) : i = k := by
  simp only [failure, expiry, lockout, List.mem_append, List.mem_singleton] at h
  obtain ((h | rfl) | h) | rfl := h
  case inl.inl.inl => split at h <;> simp_all [Event.serial]
  case inl.inl.inr => exact (Option.some.inj he).symm
  case inl.inr     => split at h <;> simp_all [Event.serial]
  case inr         => exact (Option.some.inj he).symm

theorem own_failure {share : Share} {error : ShareError} :
    own k (failure now share k id error) = [.failed k id, .refused k error] := by
  simp only [failure, expiry, lockout, own_append]
  split <;> split <;> simp [own, Event.serial]

theorem Tried.keepsAttempts (m : w.Tried now u r) (h : w.Attempted)
    (hc : w.Underway (.unlock u)) : KeepsAttempts w (some (.unlock u)) r.1 r.2 := by
  have trail := hc.trail
  cases m
  case guessed valid lock' hu =>
    simp only [Trail, Opening, hu] at trail
    obtain ⟨lock, t, elapsed, ho⟩ := trail
    have tallied : (w.log [.guessed u.serial u.shareId valid lock' now]).Tallied := by
      refine h.toTallied.still (.log fun e he id n => ?_)
      cases List.mem_singleton.mp he
      rfl
    refine keepsAttempts_unlock h hc (Nat.le_refl _) tallied (by simp [Event.serial]) ho
      (own_self rfl) (.guessed elapsed) fun c he => ?_
    cases he
    exact ⟨rfl, lock, t, lock', now, elapsed, rfl⟩
  case refused valid error hu hv =>
    simp only [Trail, Opening, hu] at trail
    obtain ⟨lock, t, lock', t', elapsed, ho⟩ := trail
    have tallied : (w.log [.refused u.serial error]).Tallied := by
      refine h.toTallied.still (.log fun e he id n => ?_)
      cases List.mem_singleton.mp he
      rfl
    exact keepsAttempts_unlock h hc (Nat.le_refl _) tallied (by simp [Event.serial]) ho
      (own_self rfl) (.refused elapsed hv) (by simp [refuse])
  case failed share error hu hs =>
    simp only [Trail, Opening, hu] at trail
    obtain ⟨lock, t, lock', t', elapsed, ho⟩ := trail
    exact keepsAttempts_unlock h hc (Nat.le_refl _) (h.fail hs) (fun e he i => serial_failure he) ho
      own_failure (.failed elapsed) (by simp)
  case granted hu hd hn =>
    simp only [Trail, Opening, hu] at trail
    obtain ⟨lock, t, lock', t', elapsed, ho⟩ := trail
    exact keepsAttempts_unlock h hc hn (h.grant hd) (by simp [Event.serial]) ho (own_self rfl)
      (.granted elapsed) (by simp)

-- A new request. Its number is not in the history yet.
theorem keepsAttempts_numbered {call : Option Call} (h : w.Attempted)
    (hs : ∀ e ∈ es, e.serial = some w.next) (ht : ∀ e ∈ es, ∀ id n, e.tally id n = n)
    (hp : Proper w.next es) (hd : ∀ c, call = some c → c.serial = w.next ∧ Trail es c) :
    KeepsAttempts w none (({ w with next := w.next + 1 }).log es) call := by
  have fresh : own w.next (w.history ++ es) = es := by
    have all : own w.next es = es := List.filter_eq_self.mpr fun e he => by simp [hs e he]
    rw [own_append, h.fresh (Nat.le_refl _), List.nil_append, all]
  have tallied : (({ w with next := w.next + 1 }).log es).Tallied :=
    h.toTallied.still ⟨⟨es, rfl, ht⟩, fun _ => rfl⟩
  refine (Extends.of_log (fun e he i hi => ?_) (Nat.le_succ _) (Nat.lt_succ_self _)).keeps h tallied
    (fresh.symm ▸ hp) (fun c hc _ => Nat.ne_of_lt hc.below) (fresh.symm ▸ hd)
  exact Option.some.inj (hi.symm.trans (hs e he))

theorem keepsAttempts_refuse {error : ShareError} (h : w.Attempted) :
    KeepsAttempts w none (w.numbered (w.refuse w.next error)).1
      (w.numbered (w.refuse w.next error)).2 :=
  keepsAttempts_numbered h (by simp [Event.serial])
    (by simp [Event.tally, Event.resets, Event.fails]) (.inl (by simp [Event.idle]))
    (by simp [refuse, numbered])

theorem keepsAttempts_beginVisit {request : Request} (h : w.Attempted) :
    KeepsAttempts w none (w.numbered (w.beginVisit now request)).1
      (w.numbered (w.beginVisit now request)).2 := by
  simp only [beginVisit]
  split
  case h_1 => exact keepsAttempts_refuse h
  case h_2 shareId share _ =>
    let visit : Visit := { serial := w.next, request, shareId, share }
    have keeps : KeepsAttempts w none (({ w with next := w.next + 1 }).log []) (some (.visit visit)) := by
      refine keepsAttempts_numbered h (by simp) (by simp) (.inl (by simp)) fun c hc => ?_
      cases hc
      exact ⟨rfl, by simp [Trail]⟩
    rwa [log, List.append_nil] at keeps

theorem keepsAttempts_beginUnlock {token password : String} (h : w.Attempted) :
    KeepsAttempts w none (w.numbered (w.beginUnlock now token password)).1
      (w.numbered (w.beginUnlock now token password)).2 := by
  simp only [beginUnlock]
  split
  case h_1 => exact keepsAttempts_refuse h
  case h_2 =>
    split
    case h_1 => exact keepsAttempts_refuse h
    case h_2 =>
      split
      case isTrue => exact keepsAttempts_refuse h
      case isFalse =>
        split
        case h_1 lockedUntil hl =>
          obtain ⟨hl, late⟩ := Option.filter_eq_some_iff.mp hl
          refine keepsAttempts_numbered h (by simp [Event.serial])
            (by simp [Event.tally, Event.resets, Event.fails]) (.inr ⟨_, .turnedAway ?_⟩) (by simp [numbered])
          rw [hl]
          exact late
        case h_2 hl =>
          refine keepsAttempts_numbered h (by simp [Event.serial])
            (by simp [Event.tally, Event.resets, Event.fails]) (.inr ⟨_, .began ?_⟩) fun c hc => ?_
          all_goals have elapsed := Option.filter_eq_none_iff.mp hl
          case refine_1 => exact Option.all_eq_true _ _ |>.mpr fun t ht => by simpa using elapsed t ht
          case refine_2 =>
            cases hc
            refine ⟨rfl, _, _, ?_, rfl⟩
            exact Option.all_eq_true _ _ |>.mpr fun t ht => by simpa using elapsed t ht

theorem keepsAttempts_start {i : Incoming} (h : w.Attempted) (hs : w.start i = some r) :
    KeepsAttempts w none r.1 r.2 := by
  cases i <;> simp only [start] at hs
  case visit  => cases hs; exact keepsAttempts_beginVisit h
  case unlock => cases hs; exact keepsAttempts_beginUnlock h
  case revoke =>
    cases hs
    exact keepsAttempts_of_same h (h.toTallied.still (.update rfl rfl fun _ => rfl)) rfl (Nat.le_refl _)
  case elsewhere db =>
    split at hs <;> cases hs
    case isTrue he =>
      refine keepsAttempts_of_same h (h.toTallied.still ⟨⟨[], by simp, by simp⟩, fun i => ?_⟩) rfl
        (Nat.le_refl _)
      simp [Table.lookup, he]
  case create share =>
    obtain ⟨db, hd, rfl⟩ := Option.map_eq_some_iff.mp hs
    exact keepsAttempts_of_same h (h.create hd rfl) rfl (Nat.le_succ _)

structure Attempting (s : System World Call) : Prop where
  holds : Holds Attempted Underway s
  apart : Apart Distinct s

theorem attempting_init {db : Db} (h : db.shares.rows = []) : Attempting { store := { db } } where
  holds := {
    store   := {
      count hs   := by simp [Table.lookup, h] at hs
      unborn _   := rfl
      guarded hs := by simp [Table.lookup, h] at hs
      bounded    := .nil
      proper _   := .inl (by simp [own])
      fresh _    := rfl }
    calls h := by simp at h }
  apart := by
    intro i j c d _ h
    simp at h

variable [Digest] [Collation] [Services] [PasswordVerifier] {s s' : System World Call}
  {l : Label Incoming Time}

theorem Attempting.step (h : Attempting s) (hs : s.step program l = some s') : Attempting s' := by
  have apart : Apart Distinct s' := by
    refine h.apart.step Ne.symm h.holds (fun hr hd => ?_) (fun hr hd => ?_) hs
    case refine_1 =>
      rw [Distinct, serial_start hr]
      exact Nat.ne_of_gt hd.below
    case refine_2 => rwa [Distinct, serial_resume hr]
  refine ⟨h.holds.stepApart h.apart apart ?_ ?_ hs, apart⟩
  case refine_1 =>
    intro i r x k _ hr
    exact keepsAttempts_start h.holds.store hr
  case refine_2 =>
    intro i now c x k _ hi hc hr
    clear hi
    cases c <;> replace hr := Option.some.inj hr
    case visit v =>
      have moved : s.store.Moved now v (x, k) := hr ▸ moved_nextVisit
      exact moved.keepsAttempts h.holds.store hc
    case unlock u =>
      have tried : s.store.Tried now u (x, k) := hr ▸ tried_nextUnlock
      exact tried.keepsAttempts h.holds.store hc

-- However the attempts overlap, none that begins under the lock is granted access, and the lock is set
-- when as many wrong guesses as the limit were recorded since it expired or a guess was right.
theorem attempts_limited {db : Db} (h : db.shares.rows = [])
    (run : Execution.Reaches (System.step program) { store := { db } } s) :
    (LockKept s.store.history ∧ Earned s.store.history ∧ Recorded s.store.history) ∧
    (∀ pre mid post id, s.store.history = pre ++ mid ++ post →
      (∀ e ∈ mid, e.resets id = false) → mid.countP (·.fails id) ≤ passwordFailureLimit) ∧
    (∀ id share, s.store.db.shares.lookup id = some share →
      (share.passwordLockedUntil.isSome ↔ streak s.store.history id = passwordFailureLimit)) := by
  have attempting := run.invariant (attempting_init h) fun h _ => h.step
  have attempted := attempting.holds.store
  refine ⟨⟨?_, ?_, ?_⟩, fun pre mid post id he hm => ?_, fun id share hs => ?_⟩
  case refine_1 => exact lockKept_of_proper attempted.proper
  case refine_2 => exact earned_of_proper attempted.proper
  case refine_3 => exact recorded_of_proper attempted.proper
  case refine_4 => exact (he ▸ attempted.bounded).window hm
  case refine_5 =>
    rw [attempted.count hs]
    exact (attempted.guarded hs).lock

end World

def Event.misses (shareId : Id) : Event → Bool
  | .guessed _ id valid _ _ => id = shareId && !valid
  | _                       => false

-- No attempt that checks its password while the lock is set is granted access.
def Withheld (history : List Event) : Prop :=
  ∀ k id valid lock now, .guessed k id valid lock now ∈ history → lock.any (· > now) = true →
    .granted k id ∉ history

-- Between two expiries of the lock, the limit holds for the wrong guesses that are checked before the
-- lock is set.
def Limited (history : List Event) : Prop :=
  ∀ pre mid post id, history = pre ++ mid ++ post →
    (∀ e ∈ mid, e ≠ .expired id ∧ e ≠ .locked id) → mid.countP (·.misses id) ≤ passwordFailureLimit

section

attribute [local instance] Collation.binary Digest.hi Services.offline PasswordVerifier.plain

def secret : Share where
  ownerId      := 7
  resource     := ⟨.file, 4⟩
  token        := 0
  passwordHash := some "$p"

-- An attempt from its beginning to its end.
def attempt (password : String) : List (Label Incoming Time) :=
  [.start 1 (.unlock "AAAAAAAAAAAAAAAAAAAAAAAAAAAAAAAAAAAAAAAAAAA" password 10), .next 1 10, .next 1 10]

-- One attempt after the other, a right one among the wrong ones; and one that is overtaken by the
-- wrong ones.
theorem attempts_unlimited :
    (∃ s, Execution.Reaches (System.step World.program) { store := { db := desk } } s ∧
      ¬Limited s.store.history) ∧
    (∃ s, Execution.Reaches (System.step World.program) { store := { db := desk } } s ∧
      ¬Withheld s.store.history) := by
  constructor
  case left =>
    have run : (Execution.run (System.step World.program) { store := { db := desk } }
        (.start 0 (.create secret) :: attempt "a" ++ attempt "b" ++ attempt "c" ++ attempt "d" ++
          attempt "p" ++ attempt "e" ++ attempt "f" ++ attempt "g" ++ attempt "h")).map
        (fun s => (s.store.history.all (fun e => e ≠ .expired 0 && e ≠ .locked 0),
          s.store.history.countP (·.misses 0))) = some (true, 8) := by
      decide +kernel
    obtain ⟨s, hs, he⟩ := Option.map_eq_some_iff.mp run
    simp only [Prod.mk.injEq, List.all_eq_true, Bool.and_eq_true, decide_eq_true_eq] at he
    refine ⟨s, Execution.reaches_of_run hs, fun limited => ?_⟩
    have bound := limited [] s.store.history [] 0 (by simp) he.left
    rw [he.right] at bound
    exact absurd bound (by decide)
  case right =>
    have run : (Execution.run (System.step World.program) { store := { db := desk } }
        ([.start 0 (.create secret),
          .start 2 (.unlock "AAAAAAAAAAAAAAAAAAAAAAAAAAAAAAAAAAAAAAAAAAA" "p" 10)] ++ attempt "a" ++
          attempt "b" ++ attempt "c" ++ attempt "d" ++ attempt "e" ++ [.next 2 10, .next 2 10])).map
        (fun s => (s.store.history.any (· = .guessed 1 0 true (some 910) 10),
          s.store.history.any (· = .granted 1 0))) = some (true, true) := by
      decide +kernel
    obtain ⟨s, hs, he⟩ := Option.map_eq_some_iff.mp run
    simp only [Prod.mk.injEq, List.any_eq_true, decide_eq_true_eq, exists_eq_right] at he
    refine ⟨s, Execution.reaches_of_run hs, fun withheld => ?_⟩
    exact withheld 1 0 true (some 910) 10 he.left (by decide) he.right

theorem attempts_limited_locked :
    ∃ s, Execution.Reaches (System.step World.program) { store := { db := desk } } s ∧
      streak s.store.history 0 = 5 ∧
      ((LockKept s.store.history ∧ Earned s.store.history ∧ Recorded s.store.history) ∧
      (∀ pre mid post id, s.store.history = pre ++ mid ++ post →
        (∀ e ∈ mid, e.resets id = false) → mid.countP (·.fails id) ≤ passwordFailureLimit) ∧
      (∀ id share, s.store.db.shares.lookup id = some share →
        (share.passwordLockedUntil.isSome ↔ streak s.store.history id = passwordFailureLimit))) := by
  have run : (Execution.run (System.step World.program) { store := { db := desk } }
      (.start 0 (.create secret) :: attempt "p" ++ attempt "a" ++ attempt "b" ++ attempt "c" ++
        attempt "d" ++ attempt "e")).map (fun s => streak s.store.history 0) = some 5 := by
    decide +kernel
  obtain ⟨s, hs, he⟩ := Option.map_eq_some_iff.mp run
  have reaches : Execution.Reaches (System.step World.program) { store := { db := desk } } s :=
    Execution.reaches_of_run hs
  exact ⟨s, reaches, he, World.attempts_limited rfl reaches⟩

end
end MyDrive.Shares
