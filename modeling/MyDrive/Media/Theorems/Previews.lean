import MyDrive.Media.Previews
import MyDrive.Media.Theorems.Fencing

open Execution

namespace MyDrive.Media

open Transfers (Digest)

theorem Variant.maxBytes_lt (v : Variant) : v.maxBytes < 2 ^ 63 := by
  cases v <;> decide

theorem Task.nodup_variants (task : Task) : task.variants.Nodup := by
  cases task <;> decide

namespace Previews

-- The rows that a worker leaves are the ones of what it has published.
theorem lookup_upsertDerivatives {p : Publisher} {rows : Table DerivativeKey DerivativeRow}
    {k : DerivativeKey} {r : DerivativeRow} (h : (p.upsertDerivatives rows).lookup k = some r) :
    rows.lookup k = some r ∨ ∃ d ∈ p.published, r = p.row d := by
  unfold Publisher.upsertDerivatives at h
  generalize p.published = ds at h
  induction ds generalizing rows
  case nil => exact .inl h
  case cons d ds ih =>
    obtain hr | ⟨d', hd, hr⟩ := ih h
    case inr => exact .inr ⟨d', .tail _ hd, hr⟩
    case inl =>
      rw [Table.lookup_set] at hr
      split at hr
      case isTrue  => cases hr; exact .inr ⟨d, List.mem_cons_self, rfl⟩
      case isFalse => exact .inl hr

theorem calms_deleteVersion {s : Previews} {version : Id} :
    Jobs.Calms s.jobs (s.deleteVersion version).jobs := by
  intro c h
  obtain ⟨j, hj, hs, ha⟩ := Jobs.held_iff.mp h
  simp only [deleteVersion, Table.lookup_filterMap, Option.bind_eq_some_iff] at hj
  obtain ⟨j', hj', he⟩ := hj
  split at he <;> cases he
  exact Jobs.held_iff.mpr ⟨j, hj', hs, ha⟩

section

variable [Digest]

-- The file of a recorded derivative is there, with the size and the checksum that the row has.
def Matches (files : Table Path (List UInt8)) (r : DerivativeRow) : Prop :=
  ∃ bytes, files.lookup r.storageKey = some bytes ∧ r.sizeBytes = bytes.length ∧
    r.checksumSha256 = Digest.sha256 bytes

structure Genuine (d : GeneratedDerivative) : Prop where
  checksum  : d.checksum = Digest.sha256 d.bytes
  extension : d.extension = d.variant.extension
  bytes     : d.bytes.length < 2 ^ 63

structure Sound (p : Publisher) : Prop where
  genuine {d} : d ∈ p.published ++ p.progress.rest → Genuine d
  nodup       : ((p.published ++ p.progress.rest).map (·.variant)).Nodup
  fresh       : p.progress = .processing → p.published = []

-- What the worker `p` has published is in its place.
def InPlace (files : Table Path (List UInt8)) (p : Publisher) : Prop :=
  ∀ d ∈ p.published, files.lookup (p.destination d) = some d.bytes

structure Inv (s : Previews) : Prop where
  rows {k r}       : s.rows.lookup k = some r → Matches s.files r
  publishers {i p} : s.publishers.lookup i = some p → Sound p
  files {i p}      : s.publishers.lookup i = some p → s.jobs.held p.job → InPlace s.files p

-- A worker writes no file over one that is recorded with another size or checksum, or that the
-- worker who has the job has published with other bytes. A claim does not give its number to a job
-- whose earlier worker of that number has had a file replaced.
structure Careful (s : Previews) (a : Publishing) : Prop where
  recorded {i p d rest synced k r} : a = .write i synced → s.publishers.lookup i = some p →
    p.progress = .writing d rest → s.rows.lookup k = some r → r.storageKey = p.destination d →
    r.sizeBytes = d.bytes.length ∧ r.checksumSha256 = d.checksum
  published {i p d rest synced k q d'} : a = .write i synced → s.publishers.lookup i = some p →
    p.progress = .writing d rest → k ≠ i → s.publishers.lookup k = some q → s.jobs.held q.job →
    d' ∈ q.published → q.destination d' = p.destination d → d'.bytes = d.bytes
  claimed {i now locked jobs job k q} : a = .claim i now locked →
    s.jobs.claimOne s.paused now locked = some (jobs, job) → s.publishers.lookup k = some q →
    q.job.id = job.id → q.job.attempts = job.attempts → InPlace s.files q

variable {s s' : Previews} {p q : Publisher} {i : Nat} {d : GeneratedDerivative} {a : Publishing}

theorem Inv.calm {jobs : Jobs} {targets : Table Id Target} {paused : Bool} {next : Id} (h : s.Inv)
    (c : Jobs.Calms s.jobs jobs) : Inv { s with jobs, targets, paused, next } where
  rows        := h.rows
  publishers  := h.publishers
  files hp hh := h.files hp (c _ hh)

theorem Inv.put (h : s.Inv) (sound : Sound q) (files : s.jobs.held q.job → InPlace s.files q) :
    Inv { s with publishers := s.publishers.set i q } where
  rows := h.rows
  publishers hp := by
    simp only [Table.lookup_set] at hp
    split at hp
    case isTrue  => cases hp; exact sound
    case isFalse => exact h.publishers hp
  files hp hh := by
    simp only [Table.lookup_set] at hp
    split at hp
    case isTrue  => cases hp; exact files hh
    case isFalse => exact h.files hp hh

theorem Inv.leave (h : s.Inv) : (s.leave i).Inv where
  rows := h.rows
  publishers hp := by
    simp only [Previews.leave, Table.lookup_erase] at hp
    split at hp <;> try contradiction
    exact h.publishers hp
  files hp hh := by
    simp only [Previews.leave, Table.lookup_erase] at hp
    split at hp <;> try contradiction
    exact h.files hp hh

theorem Inv.goto {progress : Progress} (h : s.Inv) (hp : s.publishers.lookup i = some p)
    (sound : Sound { p with progress }) : (s.goto i p progress).Inv :=
  h.put sound fun hh => h.files (p := p) hp hh

-- The worker goes on with fewer derivatives to publish.
theorem Sound.shrink {progress : Progress} (h : Sound p) (hs : progress.rest.Sublist p.progress.rest)
    (hf : progress = .processing → p.published = []) : Sound { p with progress } where
  genuine hd := by
    refine h.genuine ?_
    simp only [List.mem_append] at hd ⊢
    exact hd.imp id (hs.subset ·)
  nodup := h.nodup.sublist (((List.Sublist.refl _).append hs).map _)
  fresh := hf

theorem Sound.failed {failure : JobFailure} (h : Sound p) :
    Sound { p with progress := .failed failure } :=
  h.shrink (List.nil_sublist _) (by simp)

theorem sound_generate {made : Variant → Rendered} (h : Sound p) (hp : p.progress = .processing)
    (fits : p.job.task.variants.all fun v => (made v).fits v) :
    Sound { p with progress := .publishing (generate p.job.task made) false } where
  genuine {d} hd := by
    simp only [h.fresh hp, Progress.rest, List.nil_append, generate, List.mem_map] at hd
    obtain ⟨v, hv, rfl⟩ := hd
    have hb := List.all_eq_true.mp fits v hv
    simp only [Rendered.fits, Bool.and_eq_true, decide_eq_true_eq] at hb
    exact ⟨rfl, rfl, Nat.lt_of_le_of_lt hb.right v.maxBytes_lt⟩
  nodup := by
    simp only [h.fresh hp, Progress.rest, List.nil_append, generate, List.map_map]
    exact (List.map_id _).symm ▸ p.job.task.nodup_variants
  fresh he := by contradiction

theorem Inv.complete {jobs : Jobs} (h : s.Inv) (hp : s.publishers.lookup i = some p)
    (hh : s.jobs.held p.job) (c : Jobs.Calms s.jobs jobs) :
    Inv { s with jobs, rows := p.upsertDerivatives s.rows } where
  rows hr := by
    obtain hr | ⟨d, hd, rfl⟩ := lookup_upsertDerivatives hr
    case inl => exact h.rows hr
    case inr =>
      have g := (h.publishers hp).genuine (List.mem_append_left _ hd)
      refine ⟨d.bytes, ?_, if_pos g.bytes, g.checksum⟩
      have key : (p.row d).storageKey = p.destination d := by
        simp [Publisher.row, Publisher.storageKey, Publisher.destination, g.extension]
      rw [key]
      exact h.files hp hh d hd
  publishers     := h.publishers
  files hq held  := h.files hq (c _ held)

theorem Inv.write {rest : List GeneratedDerivative} {synced : Bool} (h : s.Inv)
    (hp : s.publishers.lookup i = some p) (hw : p.progress = .writing d rest)
    (hc : s.Careful (.write i synced)) :
    Inv { s with files := s.files.set (p.destination d) d.bytes } where
  rows {k r} hr := by
    by_cases he : r.storageKey = p.destination d
    case neg =>
      obtain ⟨bytes, hb, rest⟩ := h.rows hr
      exact ⟨bytes, by simp [he, hb], rest⟩
    case pos =>
      obtain ⟨size, checksum⟩ := hc.recorded rfl hp hw hr he
      have g : Genuine d := (h.publishers hp).genuine (by simp [hw, Progress.rest])
      exact ⟨d.bytes, by simp [he], size, checksum.trans g.checksum⟩
  publishers := h.publishers
  files {k q} hq hh d' hd := by
    have before := h.files hq hh d' hd
    simp only [Table.lookup_set]
    split
    case isFalse    => exact before
    case isTrue he  =>
      by_cases hk : k = i
      case neg => rw [hc.published rfl hp hw hk hq hh hd he]
      case pos =>
        subst hk
        rw [hp] at hq
        cases hq
        -- A worker publishes each variant once.
        have apart := (h.publishers hp).nodup
        rw [hw, List.map_append, List.nodup_append] at apart
        have same : d'.variant = d.variant := congrArg Path.variant he
        exact absurd same (apart.2.2 _ (List.mem_map_of_mem hd) _ (by simp [Progress.rest]))

theorem Inv.wrote {rest : List GeneratedDerivative}
    (h : Inv { s with files := s.files.set (p.destination d) d.bytes })
    (hp : s.publishers.lookup i = some p) (hw : p.progress = .writing d rest) :
    Inv ({ s with files := s.files.set (p.destination d) d.bytes }.goto i
      { p with published := p.published ++ [d] } (.publishing rest false)) := by
  have sound := h.publishers hp
  refine h.put ⟨fun hd => ?_, ?_, fun he => by contradiction⟩ fun hh d' hd => ?_
  case refine_1 => exact sound.genuine (by simpa [hw, Progress.rest, or_assoc] using hd)
  case refine_2 => simpa [hw, Progress.rest] using sound.nodup
  case refine_3 =>
    obtain hd | hd := List.mem_append.mp hd
    case inl => exact h.files hp hh d' hd
    case inr =>
      obtain rfl := List.mem_singleton.mp hd
      simp [Publisher.destination]

theorem Inv.work (h : s.Inv) (hp : s.publishers.lookup i = some p) (ha : a.worker = some i)
    (hc : s.Careful a) (hs : s.work i p a = some s') : s'.Inv := by
  have sound := h.publishers hp
  cases a <;> simp only [Previews.work] at hs <;> cases ha
  case heartbeat now =>
    split at hs <;> cases hs
    exact h.calm Jobs.Guards.renewLease.calms
  case setStage now stage bytes =>
    split at hs <;> cases hs
    case h_1 hw =>
      refine (h.calm Jobs.Guards.setStage.calms).goto hp ?_
      split
      case isTrue  => exact sound.shrink (List.nil_sublist _) fun _ => sound.fresh hw
      case isFalse => exact sound.failed
    case h_2 d rest hw =>
      refine (h.calm Jobs.Guards.setStage.calms).goto hp ?_
      split
      case isTrue  => exact sound.shrink (by simp [hw, Progress.rest]) (by simp)
      case isFalse => exact sound.failed
  case publish made =>
    split at hs <;> try contradiction
    split at hs <;> cases hs
    case h_1.isTrue hw fits => exact h.goto hp (sound_generate sound hw fits)
  case ownsLease now =>
    split at hs <;> cases hs
    case h_1 rest hw =>
      refine h.goto hp ?_
      split
      case isTrue  => exact sound.shrink (by simp [hw, Progress.rest]) (by simp)
      case isFalse => exact sound.failed
  case write synced =>
    split at hs <;> cases hs
    case h_1 d rest hw =>
      have written := h.write hp hw hc
      split
      case isTrue  => exact written.wrote hp hw
      case isFalse => exact written.goto hp sound.failed
  case complete now bytes =>
    split at hs <;> cases hs
    have guards : Jobs.Guards s.jobs p.job (s.jobs.complete p.job now bytes) := .complete
    split
    case isTrue hr => exact (h.complete hp (guards.held hr) guards.calms).leave
    case isFalse   => exact h.goto hp sound.failed
  case fail failure =>
    split at hs <;> cases hs
    exact h.goto hp sound.failed
  case recordFailure now =>
    split at hs <;> cases hs
    exact (h.calm Jobs.Guards.recordFailure.calms).leave
  case crash =>
    cases hs
    exact h.leave

theorem Inv.claim {now : Time} {locked : List Id} (h : s.Inv) (hc : s.Careful (.claim i now locked))
    (hs : s.claim i now locked = some s') : s'.Inv := by
  simp only [Previews.claim, Option.bind_eq_some_iff, Option.map_eq_some_iff] at hs
  obtain ⟨r, hj, target, ht, rfl⟩ := hs
  obtain ⟨j, j', -, -, running, attempts, hjobs⟩ := Jobs.claimOne_some hj
  have claimed : Inv { s with jobs := r.1 } := by
    refine ⟨h.rows, h.publishers, fun {k q} hq hh => ?_⟩
    obtain ⟨row, hr, hs, ha⟩ := Jobs.held_iff.mp hh
    rw [hjobs, Table.lookup_set] at hr
    split at hr
    case isTrue he =>
      cases hr
      exact hc.claimed rfl hj hq he (ha.symm.trans attempts)
    case isFalse => exact h.files hq (Jobs.held_iff.mpr ⟨row, hr, hs, ha⟩)
  refine claimed.put ⟨fun hd => ?_, ?_, fun _ => rfl⟩ fun _ d hd => ?_
  case refine_1 => simp [Progress.rest] at hd
  case refine_2 => simp [Progress.rest]
  case refine_3 => contradiction

theorem inv_step (h : s.Inv) (hc : s.Careful a) (hs : s.step a = some s') : s'.Inv := by
  cases a
  case insert task target now =>
    simp only [step] at hs
    split at hs <;> cases hs
    exact h.calm .insert
  case deleteVersion version =>
    cases hs
    refine ⟨fun hr => ?_, h.publishers, fun hp hh => h.files hp (calms_deleteVersion _ hh)⟩
    simp only [deleteVersion, Table.lookup_filterMap, Option.bind_eq_some_iff] at hr
    obtain ⟨r', hr, he⟩ := hr
    split at he <;> cases he
    exact h.rows hr
  case setPaused             => cases hs; exact h.calm .refl
  case retryFailed now jobId => cases hs; exact h.calm .retryFailed
  case failExhaustedLeases   => cases hs; exact h.calm .failExhaustedLeases
  case claim i now locked =>
    simp only [step] at hs
    split at hs <;> try contradiction
    exact h.claim hc hs
  all_goals
    simp only [step, Publishing.worker, Option.bind_some] at hs
    split at hs <;> try contradiction
    case h_1 i p hp =>
      obtain ⟨q, hq, he⟩ := Option.map_eq_some_iff.mp hp
      cases he
      exact h.work hq rfl hc hs

theorem inv_init : Inv {} where
  rows h       := by contradiction
  publishers h := by contradiction
  files h _    := by contradiction

-- The rows match their files; and a row whose file is written again goes on matching it only if the
-- new file has the same size and checksum.
theorem derivatives_match {k : DerivativeKey} {r : DerivativeRow} (e : Steps step Careful {} s)
    (h : s.rows.lookup k = some r) :
    Matches s.files r ∧
      ∀ i p d rest synced s', s.publishers.lookup i = some p → p.progress = .writing d rest →
        r.storageKey = p.destination d → s.step (.write i synced) = some s' →
        (Matches s'.files r ↔ r.sizeBytes = d.bytes.length ∧ r.checksumSha256 = d.checksum) := by
  have inv := e.invariant inv_init inv_step
  refine ⟨inv.rows h, fun i p d rest synced s' hp hw hk hs => ?_⟩
  have g : Genuine d := (inv.publishers hp).genuine (by simp [hw, Progress.rest])
  have files : s'.files = s.files.set (p.destination d) d.bytes := by
    simp only [step, Publishing.worker, Option.bind_some, hp, Option.map_some, work, hw,
      Option.some.injEq] at hs
    rw [← hs]
    split <;> rfl
  simp [Matches, files, hk, g.checksum]

end

def careful (s : Previews) : Publishing → Bool
  | .write i _          => (s.publishers.lookup i).all fun p =>
    match p.progress with
    | .writing d _ =>
      (s.rows.rows.all fun r => r.2.storageKey ≠ p.destination d ||
        (r.2.sizeBytes = d.bytes.length && r.2.checksumSha256 = d.checksum)) &&
      (s.publishers.rows.all fun r => r.1 = i || !s.jobs.held r.2.job ||
        r.2.published.all fun d' => r.2.destination d' ≠ p.destination d || d'.bytes = d.bytes)
    | _            => true
  | .claim _ now locked => (s.jobs.claimOne s.paused now locked).all fun c =>
    s.publishers.rows.all fun r => r.2.job.id ≠ c.2.id || r.2.job.attempts ≠ c.2.attempts ||
      r.2.published.all fun d => s.files.lookup (r.2.destination d) = some d.bytes
  | _                   => true

theorem careful_of_check {s : Previews} {a : Publishing} (h : s.careful a = true) : s.Careful a where
  recorded {i p d rest synced k r} ha hp hw hr hk := by
    subst ha
    simp only [careful, hp, Option.all_some, hw, Bool.and_eq_true, List.all_eq_true] at h
    simpa [hk] using h.left _ (Table.lookup_eq_some_iff.mp hr)
  published {i p d rest synced k q d'} ha hp hw hi hq hh hd he := by
    subst ha
    simp only [careful, hp, Option.all_some, hw, Bool.and_eq_true, List.all_eq_true] at h
    have := h.right _ (Table.lookup_eq_some_iff.mp hq)
    simp only [hi, hh, decide_false, Bool.not_true, Bool.false_or, List.all_eq_true] at this
    simpa [he] using this d' hd
  claimed {i now locked jobs job k q} ha hc hq hid hn := by
    subst ha
    simp only [careful, hc, Option.all_some, List.all_eq_true] at h
    have := h _ (Table.lookup_eq_some_iff.mp hq)
    simpa [hid, hn, InPlace] using this

attribute [local instance] Digest.hi

def rendered (bytes : List UInt8) (_ : Variant) : Rendered where
  bytes  := bytes
  width  := some 4
  height := some 3

-- The worker 0 is about to write its viewer when its lease expires, and the worker 1 takes over.
def takenOver : List Publishing :=
  [.insert .imagePreview { fileVersionId := 9, recipeVersion := 1 } 0, .claim 0 0 [],
   .publish 0 (rendered [104, 105]), .ownsLease 0 1, .setStage 0 1 "" 2, .claim 1 400 [],
   .publish 1 (rendered [104]), .ownsLease 1 401, .setStage 1 401 "" 2]

def published : List Publishing :=
  [.write 1 true, .ownsLease 1 402, .setStage 1 402 "" 2, .write 1 true, .complete 1 403 2]

def viewer : DerivativeKey where
  fileVersionId := 9
  variant       := .viewer
  recipeVersion := 1

-- It writes before the worker 1 does, and then finds that it has lost the job.
theorem derivatives_match_early : ∃ (s : Previews) (r : DerivativeRow),
    s.rows.lookup viewer = some r ∧ Matches s.files r := by
  have run : (Execution.run (fun s a => if careful s a then step s a else none) ({} : Previews)
      (takenOver ++ [.write 0 true] ++ published ++ [.ownsLease 0 404, .recordFailure 0 404])).map
      (fun s => (s.rows.lookup viewer).map (·.sizeBytes)) = some (some 1) := by
    decide +kernel
  obtain ⟨s, hs, h⟩ := Option.map_eq_some_iff.mp run
  obtain ⟨r, hr, -⟩ := Option.map_eq_some_iff.mp h
  have steps := Execution.steps_of_run (fun _ _ => careful_of_check) hs
  exact ⟨s, r, hr, (derivatives_match steps hr).left⟩

-- It writes after the worker 1 has completed the job.
theorem derivative_replaced : ∃ (s : Previews) (j : Job) (r : DerivativeRow),
    Reaches step ({} : Previews) s ∧ s.publishers.rows = [] ∧
    s.jobs.lookup 1 = some j ∧ j.state = .completed ∧
    s.rows.lookup viewer = some r ∧ ¬ Matches s.files r := by
  have run : (Execution.run step ({} : Previews)
      (takenOver ++ published ++ [.write 0 true, .ownsLease 0 404, .recordFailure 0 404])).map
      (fun s => (s.publishers.rows.isEmpty, (s.jobs.lookup 1).map (·.state), (s.rows.lookup viewer).map
        fun r => (r.sizeBytes, (s.files.lookup r.storageKey).map List.length))) =
      some (true, some .completed, some (1, some 2)) := by
    decide +kernel
  obtain ⟨s, hs, h⟩ := Option.map_eq_some_iff.mp run
  simp only [Prod.mk.injEq, Option.map_eq_some_iff, List.isEmpty_iff] at h
  obtain ⟨idle, ⟨j, hj, completed⟩, r, hr, size, file, hf, length⟩ := h
  refine ⟨s, j, r, Execution.reaches_of_run hs, idle, hj, completed, hr, ?_⟩
  rintro ⟨bytes, hb, hl, -⟩
  rw [hf] at hb
  cases hb
  rw [size, length] at hl
  contradiction

end Previews
end MyDrive.Media
