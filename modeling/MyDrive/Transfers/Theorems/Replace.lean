import MyDrive.Transfers.Theorems.Turns

open Execution

namespace MyDrive.Transfers

variable {s s' : Store} {env : Env}

section

variable [Collation] [Digest]

theorem Finalize.Moves.lasts {c : Finalize} {k : Option Finalize} (m : c.Moves s env s' k)
    (h : s.Linear) (t : s.Turns) (hr : s.Recorded)
    (ha : ∀ x f, c.stage = .begun → s.sessions.lookup c.upload = some x → x.state = .active →
      x.replaceFileId = some f → s.Alone env f) : s.Lasts s' := by
  have returned {r} : s.Lasts (s.returned c.upload r) :=
    h.lasts t [.returned c.upload r] (Nat.le_refl _) rfl (by simp [Event.version]) (by simp) rfl rfl
      (fun _ => Iff.rfl) fun _ => rfl
  cases m
  case again            => exact returned
  case answer           => exact returned
  case reserve hc hx _ hs hr' => exact h.reserve t hr hx hs (fun f => ha _ f hc hx hs) hr'
  case rename           =>
    exact h.lasts t [] (Nat.le_refl _) (by simp) (by simp) (by simp) rfl rfl (fun _ => Iff.rfl)
      fun _ => rfl
  case unlink           =>
    exact h.lasts t [] (Nat.le_refl _) (by simp) (by simp) (by simp) rfl rfl (fun _ => Iff.rfl)
      fun _ => rfl
  case complete hc      => exact h.complete t hr hc
  case index s' v _ hc _ =>
    have last := h.complete t hr hc
    refine last.trans (last.linear.lasts last.turns [.enqueued c.upload v] (Nat.le_refl _) rfl
      (by simp [Event.version]) (by simp) rfl rfl (fun _ => Iff.rfl) fun _ => rfl)
  case already hc       =>
    obtain ⟨_, _, ⟨_, rfl, _⟩ | ⟨_, _, _, he, _⟩⟩ := Store.complete_ok hc
    case inl => exact returned
    case inr => cases he
  case reject hr'       =>
    obtain ⟨x, v, hu, hd⟩ := h.rejected t hr hr'
    exact h.undo t hr hu hd
  all_goals exact .refl h t

end

-- The objects that a copy is about to attach are ready.
def Call.Ready (s : Store) : Call → Prop
  | .finalize _ => True
  | .copy c     => ∀ f ∈ c.copied, ∀ o n, f.version = some (o, n) → s.Ready o
  | _           => False

theorem Call.Ready.last {c : Call} (hc : c.Ready s) (h : s.Lasts s') : c.Ready s' := by
  cases c
  case copy => exact fun f hf o n hv => h.ready (hc f hf o n hv)
  all_goals exact hc

theorem Store.copySource_some {owner : Id} {job : CopyFile} {f : CopiedFile} {o n : Id}
    (h : s.copySource owner job = some f) (hv : f.version = some (o, n)) :
    ∃ v y, s.currentVersion job.source = some v ∧ s.versions.lookup v = some y ∧ y.objectId = o := by
  rw [copySource] at h
  split at h
  case h_1 => cases h
  case h_2 file hf =>
    split at h <;> cases h
    obtain ⟨y, hy, he⟩ := Option.map_eq_some_iff.mp hv
    cases he
    obtain ⟨hy, _⟩ := Option.filter_eq_some_iff.mp hy
    obtain ⟨v, hv, hy⟩ := Option.bind_eq_some_iff.mp hy
    exact ⟨v, y, by simp [currentVersion, hf, hv], hy, rfl⟩

theorem Call.next_lasts [Collation] [Digest] {c : Call} {k : Option Call} (h : s.Linear)
    (t : s.Turns) (hr : s.Recorded) (hc : c.Ready s)
    (ha : ∀ d x f, c = .finalize d → d.stage = .begun → s.sessions.lookup d.upload = some x →
      x.state = .active → x.replaceFileId = some f → s.Alone env f)
    (hv : ∀ d job todo v, c = .copy d → d.todo = job :: todo →
      s.currentVersion job.source = some v → s.Readable v)
    (hn : c.next s env = some (s', k)) : s.Lasts s' ∧ ∀ c', k = some c' → c'.Ready s' := by
  cases c <;> simp only [Call.next] at hn
  case finalize c =>
    obtain ⟨⟨t', k'⟩, hm, he⟩ := Option.map_eq_some_iff.mp hn
    cases he
    refine ⟨(Finalize.next_moves hm).lasts h t hr fun x f => ha c x f rfl, fun c' he => ?_⟩
    obtain ⟨d, _, rfl⟩ := Option.map_eq_some_iff.mp he
    trivial
  case copy c =>
    cases hn
    rw [Copy.next]
    split
    case h_1 job todo hj =>
      split
      case h_1 => exact ⟨.refl h t, by simp⟩
      case h_2 f hf =>
        refine ⟨.refl h t, fun c' he => ?_⟩
        cases he
        intro f' hf' o n hv'
        rcases List.mem_append.mp hf' with hf' | hf'
        case inl => exact hc f' hf' o n hv'
        case inr =>
          cases List.mem_singleton.mp hf'
          obtain ⟨v, y, hcur, hy, rfl⟩ := Store.copySource_some hf hv'
          obtain ⟨y', hy', ready⟩ := hv c job todo v rfl hj hcur
          cases hy.symm.trans hy'
          exact ready
    case h_2 =>
      split
      case h_1    => exact ⟨.refl h t, by simp⟩
      case h_2 hi => exact ⟨h.insertCopies t hc hi, by simp⟩
  all_goals exact hc.elim

theorem Request.start_lasts {r : Request} {k : Option Call} (h : s.Linear) (t : s.Turns)
    (hr : s.Recorded) (hl : ∀ o p n z d, r ≠ .link o p n z d) (hp : ∀ tree, r ≠ .purge tree)
    (hc : ∀ cutoff batch, r ≠ .removeUnreferenced cutoff batch)
    (hs : r.start s = some (s', k)) : s.Lasts s' ∧ ∀ c, k = some c → c.Ready s' := by
  cases r <;> simp only [Request.start] at hs
  case upload =>
    obtain ⟨t', ht, he⟩ := Option.map_eq_some_iff.mp hs
    cases he
    obtain ⟨x, ha, _, _, _, rfl⟩ := Store.createUpload_some ht
    refine ⟨?_, by simp⟩
    refine h.lasts t [] (Nat.le_add_right _ _) (by simp) (by simp) (by simp) rfl rfl
      (fun {w y} hs => ?_) fun _ => rfl
    rw [Table.lookup_set]
    split
    case isTrue hw =>
      constructor
      case mp =>
        intro hy
        cases hy
        cases ha.symm.trans hs
      case mpr =>
        intro hy
        exact absurd (hr.ids hy).left (Nat.not_lt_of_le (hw ▸ Nat.le_succ _))
    case isFalse => exact Iff.rfl
  case entry f _ _ _ =>
    cases hs
    refine ⟨?_, by simp⟩
    refine h.lasts t [] (Nat.le_refl _) (by simp [Store.setEntry]) (by simp) (by simp) rfl rfl
      (fun _ => Iff.rfl) fun g => ?_
    simp only [Store.currentVersion, Store.setEntry, Table.lookup_filterMap]
    cases s.files.lookup g
    case none   => rfl
    case some x => by_cases hg : g = f <;> simp [hg]
  case finalize => cases hs; exact ⟨.refl h t, fun _ hc => by cases hc; trivial⟩
  case copy =>
    cases hs
    refine ⟨.refl h t, fun _ hc => ?_⟩
    cases hc
    exact fun _ hf => by cases hf
  case link o p n z d                  => exact (hl o p n z d rfl).elim
  case purge tree                      => exact (hp tree rfl).elim
  case removeUnreferenced cutoff batch => exact (hc cutoff batch rfl).elim

namespace System

structure Sound (s : Store) : Prop where
  recorded : s.Recorded
  linear   : s.Linear
  turns    : s.Turns

structure Known (s : Store) (c : Call) : Prop where
  bound : c.Bound s
  ready : c.Ready s

theorem replaces_init : Shared.Holds Sound Known init where
  store := by
    refine ⟨Store.recorded_empty, ⟨?_, ?_, ?_, ?_, ?_, ?_, ?_⟩, ⟨?_, ?_, ?_, ?_⟩⟩
    case refine_6 => exact fun _ => .nil
    case refine_7 => exact fun _ => rfl
    all_goals intros; contradiction
  calls h := by contradiction

theorem mismatched_bound {s : Store} {c : Finalize} {t : Target} {x : Session} (h : Sound s)
    (hb : c.Bound s) (ht : c.stage = .mismatched t) (hx : s.sessions.lookup c.upload = some x)
    (hs : x.state = .finalizing) :
    x.ownerId = c.owner ∧ ∃ v, s.Underway c.upload x t.objectId v t.fileId := by
  simp only [Finalize.Bound, ht] at hb
  obtain ⟨hk, v, hr⟩ := hb
  obtain ⟨o, v', f, hu⟩ := h.turns.underway hx hs
  obtain ⟨rfl, rfl, rfl⟩ := h.recorded.unique hr hu.reserved
  exact ⟨(hk.row hx).right, v, hu⟩

variable [Collation] [Digest]

-- Runs of uploads, finalizations and copies in which the replacements of a file take turns.
structure Replaces (s : System) (a : Action) : Prop where
  link {i owner parentId name size checksum} :
    a ≠ .start i (.link owner parentId name size checksum)
  purge {i tree} : a ≠ .start i (.purge tree)
  collect {i cutoff batch} : a ≠ .start i (.removeUnreferenced cutoff batch)
  reserve {i env c x f} : a = .next i env → s.calls.lookup i = some (.finalize c) →
    c.stage = .begun → s.store.sessions.lookup c.upload = some x → x.state = .active →
    x.replaceFileId = some f → s.store.Alone env f
  copy {i env c job todo v} : a = .next i env → s.calls.lookup i = some (.copy c) →
    c.todo = job :: todo → s.store.currentVersion job.source = some v → s.store.Readable v

theorem replaces_step {s s' : System} {a : Action} (h : Shared.Holds Sound Known s)
    (ha : Replaces s a) (hs : s.step a = some s') : Shared.Holds Sound Known s' := by
  obtain ⟨hr, hl, ht⟩ := h.store
  refine h.step (fun {i r t k} he hq => ?start) (fun {i e c t k} he hc hk hn => ?next) hs
  case start =>
    subst he
    obtain ⟨follow, hb⟩ := Request.start_follow hr hq
    obtain ⟨last, hc⟩ := Request.start_lasts hl ht hr (fun _ _ _ _ _ e => ha.link (by rw [e]))
      (fun _ e => ha.purge (by rw [e])) (fun _ _ e => ha.collect (by rw [e])) hq
    exact ⟨⟨follow.recorded, last.linear, last.turns⟩, fun h => ⟨hb _ h, hc _ h⟩,
      fun k => ⟨k.bound.extend follow.extend, k.ready.last last⟩⟩
  case next =>
    obtain ⟨follow, hb⟩ := Call.next_follow hr hk.bound hn
    obtain ⟨last, hd⟩ := Call.next_lasts hl ht hr hk.ready
      (fun d x f e => ha.reserve he (e ▸ hc)) (fun d job todo v e => ha.copy he (e ▸ hc)) hn
    exact ⟨⟨follow.recorded, last.linear, last.turns⟩, fun h => ⟨hb _ h, hd _ h⟩,
      fun k => ⟨k.bound.extend follow.extend, k.ready.last last⟩⟩

-- What holds of the files whenever a call for a replacement comes to an end.
structure Restores (s : System) : Prop where
  underway {u x f} : s.store.sessions.lookup u = some x → x.state = .finalizing →
    x.replaceFileId = some f →
    (∃ o v, .reserved u o v f ∈ s.store.history ∧ s.store.currentVersion f = some v) ∧
    ∃ v, s.store.heir f u = some v ∧ s.store.Readable v
  rejects {i c t x f} : s.calls.lookup i = some (.finalize c) → c.stage = .mismatched t →
    s.store.sessions.lookup c.upload = some x → x.state = .finalizing → x.replaceFileId = some f →
    ∃ env s', s.step (.next i env) = some s'
  rejected {i env c t x f s'} : s.calls.lookup i = some (.finalize c) → c.stage = .mismatched t →
    s.store.sessions.lookup c.upload = some x → x.state = .finalizing → x.replaceFileId = some f →
    s.step (.next i env) = some s' → .rejected c.upload ∈ s'.store.history ∧
      s'.store.currentVersion f = s.store.heir f c.upload ∧
      ∃ v, s'.store.currentVersion f = some v ∧ s'.store.Readable v
  idle {f v} : (∀ u x, s.store.sessions.lookup u = some x → x.state = .finalizing →
    x.finalFileId ≠ some f) → s.store.currentVersion f = some v → s.store.Readable v
  kept {u o v f} : .reserved u o v f ∈ s.store.history → .rejected u ∉ s.store.history →
    (s.store.versions.lookup v).isSome

section

variable {s : Store} {env : Env} {c : Finalize} {t : Target} {x : Session} {f v : Id}

-- A rejection commits, whichever of the rows that its query may return it gets.
theorem mismatched_next {p : Option Id} (h : Sound s) (ht : c.stage = .mismatched t)
    (hx : s.sessions.lookup c.upload = some x) (hs : x.state = .finalizing)
    (ho : x.ownerId = c.owner) (hf : x.replaceFileId = some f)
    (hu : s.Underway c.upload x t.objectId v t.fileId)
    (hp : limitOne (s.latestVersions t.fileId (some v)) env.row = some p) :
    ∃ s', s.rejectMismatchedUpload env.row c.owner c.upload t = some (.ok (some s')) ∧
      c.next s env = some (s', c.goto (.rejected t)) := by
  have reject := hu.reject_eq env.row h.linear hx hs ho hf
  obtain ⟨z, hz⟩ := hu.deleteObject (p := p) h.linear h.recorded
  rw [hp, Option.map_some, hz] at reject
  exact ⟨_, reject, by simp [Finalize.next, ht, reject, Except.map]⟩

theorem mismatched_row {r : Store × Option Finalize} (h : Sound s) (ht : c.stage = .mismatched t)
    (hx : s.sessions.lookup c.upload = some x) (hs : x.state = .finalizing)
    (ho : x.ownerId = c.owner) (hf : x.replaceFileId = some f)
    (hu : s.Underway c.upload x t.objectId v t.fileId) (hn : c.next s env = some r) :
    ∃ p, limitOne (s.latestVersions t.fileId (some v)) env.row = some p := by
  have reject := hu.reject_eq env.row h.linear hx hs ho hf
  rcases hp : limitOne (s.latestVersions t.fileId (some v)) env.row with _ | p
  case none =>
    rw [hp, Option.map_none] at reject
    simp [Finalize.next, ht, reject] at hn
  case some => exact ⟨p, rfl⟩

end

theorem replacement_undone {s : System} (r : Steps step Replaces init s) : Restores s := by
  have inv := r.invariant replaces_init replaces_step
  have sound := inv.store
  refine ⟨fun hx hs hf => ?underway, fun hc ht hx hs hf => ?rejects,
    fun {i env c t x f s'} hc ht hx hs hf he => ?rejected, fun hn hv => ?idle, fun hr hn => ?kept⟩
  case underway =>
    obtain ⟨o, v, f, hu⟩ := sound.turns.underway hx hs
    obtain ⟨rfl, _⟩ := hu.replaced hf
    obtain ⟨p, hp, _, readable⟩ := hu.heir_readable sound.linear sound.turns sound.recorded hf
    exact ⟨⟨o, v, hu.reserved, (sound.linear.current _).trans hu.last⟩, p, hp, readable⟩
  case rejects i c t x f =>
    obtain ⟨ho, v, hu⟩ := mismatched_bound sound (inv.calls hc).bound ht hx hs
    obtain ⟨l, p, hl⟩ := hu.previous sound.linear hf
    have hp : p ∈ s.store.latestVersions t.fileId (some v) :=
      (hu.mem_latestVersions sound.linear hl).mpr rfl
    let env : Env := { row := some p }
    have row : limitOne (s.store.latestVersions t.fileId (some v)) env.row = some (some p) := by
      simp [env, limitOne, hp]
    obtain ⟨z, _, hn⟩ := mismatched_next sound ht hx hs ho hf hu row
    have step : s.step (.next i env) = some (s.put i (z, (c.goto (.rejected t)).map .finalize)) := by
      rw [System.step, Shared.System.step_next hc]
      simp [program, Call.next, hn]
    exact ⟨env, _, step⟩
  case rejected =>
    obtain ⟨ho, v, hu⟩ := mismatched_bound sound (inv.calls hc).bound ht hx hs
    obtain ⟨⟨z, k⟩, hz, rfl⟩ := Option.map_eq_some_iff.mp ((Shared.System.step_next hc).symm.trans he)
    obtain ⟨⟨z', k'⟩, hn, hk⟩ := Option.map_eq_some_iff.mp hz
    cases hk
    obtain ⟨p, row⟩ := mismatched_row sound ht hx hs ho hf hu hn
    obtain ⟨w, reject, hw⟩ := mismatched_next sound ht hx hs ho hf hu row
    cases hn.symm.trans hw
    obtain ⟨x', v', hu', undone⟩ := sound.linear.rejected sound.turns sound.recorded reject
    obtain ⟨_, rfl, _⟩ := sound.recorded.unique hu.reserved hu'.reserved
    obtain ⟨rfl, _⟩ := hu.replaced hf
    have last := sound.linear.undo sound.turns sound.recorded hu undone
    obtain ⟨q, hq, hv, y, hy, ready⟩ :=
      hu.heir_readable sound.linear sound.turns sound.recorded hf
    have current : z.currentVersion t.fileId = s.store.heir t.fileId c.upload :=
      (undone.current _).trans (hu.heir_eq sound.linear sound.recorded).symm
    refine ⟨?_, current, q, current.trans hq, y, ?_, last.ready ready⟩
    case refine_1 => simp [Shared.System.put, undone.history]
    case refine_2 => simpa [Shared.System.put, undone.versions, hv] using hy
  case idle =>
    rw [sound.linear.current] at hv
    obtain ⟨y, hy, rfl⟩ := sound.linear.mem (List.mem_of_getLast? hv)
    exact sound.turns.readable sound.linear hy fun w x hx hs hf => absurd hf (hn w x hx hs)
  case kept =>
    obtain ⟨y, hy, _⟩ := sound.linear.mem (Store.Linear.mem_line hr (by simpa [Store.rejects] using hn))
    simp [hy]

end System

section

attribute [local instance] Collation.binary Digest.hi

def alone (s : Store) (env : Env) (f : Id) : Bool :=
  (s.sessions.any fun _ x => x.state = .finalizing && x.finalFileId = some f) = false &&
  (s.versions.any fun _ v => v.fileId = f && env.startedAt ≤ v.createdAt) = false &&
  (s.currentVersion f).isSome

def replaces (s : System) : Action → Bool
  | .start _ (.link _ _ _ _ _)         => false
  | .start _ (.purge _)                => false
  | .start _ (.removeUnreferenced _ _) => false
  | .next i env                        =>
    match s.calls.lookup i with
    | some (.finalize c) => (s.store.sessions.lookup c.upload).all fun x =>
      x.replaceFileId.all fun f => x.state ≠ .active || alone s.store env f
    | _                  => false
  | _                                  => true

theorem alone_iff {env : Env} {f : Id} (h : alone s env f) : s.Alone env f := by
  simp only [alone, Bool.and_eq_true, decide_eq_true_eq, Bool.eq_false_iff, ne_eq, Table.any_iff,
    not_exists, not_and] at h
  refine ⟨fun hx hs => h.left.left _ _ hx hs, fun hv hf => ?_, h.right⟩
  exact Nat.lt_of_not_le (h.left.right _ _ hv hf)

theorem replaces_of_check {s : System} {a : Action} (h : replaces s a) : System.Replaces s a where
  link he    := by subst he; contradiction
  purge he   := by subst he; contradiction
  collect he := by subst he; contradiction
  reserve he hc _ hx ha hf := by
    subst he
    simp only [replaces, hc, hx, hf, Option.all_some, ha, ne_eq, not_true_eq_false, decide_false,
      Bool.false_or] at h
    exact alone_iff h
  copy he hc := by
    subst he
    simp [replaces, hc] at h

def Call.mismatched : Call → Option Id
  | .finalize c =>
    match c.stage with
    | .mismatched _ => some c.upload
    | _             => none
  | _           => none

theorem Call.mismatched_eq_some {d : Call} {u : Id} (h : d.mismatched = some u) :
    ∃ c t, d = .finalize c ∧ c.stage = .mismatched t ∧ c.upload = u := by
  cases d <;> simp only [mismatched, reduceCtorEq] at h
  case finalize c =>
    split at h <;> cases h
    case h_1 t ht => exact ⟨c, t, rfl, ht, rfl⟩

-- The current version of a file, with the state of its object.
def Store.current (s : Store) (f : Id) : Option (Id × ObjectState) :=
  (s.currentVersion f).bind fun v => (s.versions.lookup v).bind fun x =>
    (s.objects.lookup x.objectId).map fun o => (v, o.state)

theorem Store.current_eq_some {f v : Id} {state : ObjectState} (h : s.current f = some (v, state)) :
    ∃ x o, s.currentVersion f = some v ∧ s.versions.lookup v = some x ∧
      s.objects.lookup x.objectId = some o ∧ o.state = state := by
  obtain ⟨v', hv, h⟩ := Option.bind_eq_some_iff.mp h
  obtain ⟨x, hx, h⟩ := Option.bind_eq_some_iff.mp h
  obtain ⟨o, ho, he⟩ := Option.map_eq_some_iff.mp h
  cases he
  exact ⟨x, o, hv, hx, ho, rfl⟩

-- The upload 1 of `a.txt` (object 3, version 4, file 5), and the upload 7 that replaces it, up to the
-- reservation of the version 10.
def replacing : List Action :=
  let session := {
    ownerId := 7, filename := "a.txt", stagingKey := 0, expectedSize := 2, expiresAt := 10 }
  [.start 0 (.upload session [104, 105]), .start 0 (.finalize 7 1 none)] ++
  List.replicate 11 (.next 0 {}) ++
  [.start 0 (.upload { session with replaceFileId := some 5 } [104, 106]),
   .start 0 (.finalize 7 7 (some (some (String.ofList (List.replicate 64 '0'))))),
   .next 0 { now := 1 }]

-- The checksum that the replacement declares is wrong.
theorem replacement_undone_mismatch : ∃ s, Steps System.step System.Replaces System.init s ∧
    s.store.currentVersion 5 = some 10 ∧
    (∃ env s', s.step (.next 0 env) = some s') ∧
    ∀ env s', s.step (.next 0 env) = some s' → s'.store.currentVersion 5 = some 4 := by
  have run : (Execution.run (fun s a => if replaces s a then System.step s a else none)
      System.init (replacing ++ List.replicate 8 (.next 0 {}))).map
      (fun s => ([s.store.currentVersion 5, s.store.heir 5 7, (s.calls.lookup 0).bind Call.mismatched],
        (s.store.sessions.lookup 7).map fun x => (x.state, x.replaceFileId))) =
      some ([some 10, some 4, some 7], some (.finalizing, some 5)) := by
    decide +kernel
  obtain ⟨s, hs, he⟩ := Option.map_eq_some_iff.mp run
  simp only [Prod.mk.injEq, List.cons.injEq, and_true] at he
  obtain ⟨⟨current, heir, call⟩, session⟩ := he
  have steps : Steps System.step System.Replaces System.init s :=
    Execution.steps_of_run (fun _ _ => replaces_of_check) hs
  obtain ⟨d, hd, call⟩ := Option.bind_eq_some_iff.mp call
  obtain ⟨c, t, rfl, ht, hu⟩ := Call.mismatched_eq_some call
  obtain ⟨x, hx, session⟩ := Option.map_eq_some_iff.mp session
  simp only [Prod.mk.injEq] at session
  have restores := System.replacement_undone steps
  rw [← hu] at hx heir
  refine ⟨s, steps, current, restores.rejects hd ht hx session.left session.right, fun env s' he => ?_⟩
  exact (restores.rejected hd ht hx session.left session.right he).right.left.trans heir

-- The replacement is cut off after its reservation.
theorem replacement_left_pending : ∃ s s', Reaches System.step System.init s ∧
    (∃ v, s.store.currentVersion 5 = some v ∧ s.store.Readable v) ∧ Reaches System.step s s' ∧
    s'.calls.lookup 0 = none ∧ ∃ v, s'.store.currentVersion 5 = some v ∧ ¬s'.store.Readable v := by
  have run : ((Execution.run System.step System.init (replacing.take 15)).bind fun s =>
      (Execution.run System.step s (replacing.drop 15 ++ [.drop 0])).map fun s' =>
        (s.store.current 5, s'.store.current 5, (s'.calls.lookup 0).isNone)) =
      some (some (4, .ready), some (10, .pending), true) := by
    decide +kernel
  obtain ⟨s, hs, run⟩ := Option.bind_eq_some_iff.mp run
  obtain ⟨s', hs', he⟩ := Option.map_eq_some_iff.mp run
  simp only [Prod.mk.injEq, Option.isNone_iff_eq_none] at he
  obtain ⟨ready, pending, call⟩ := he
  obtain ⟨x, o, hv, hx, ho, hr⟩ := Store.current_eq_some ready
  obtain ⟨x', o', hv', hx', ho', hp⟩ := Store.current_eq_some pending
  refine ⟨s, s', Execution.reaches_of_run hs, ⟨4, hv, x, hx, o, ho, hr⟩, Execution.reaches_of_run hs',
    call, 10, hv', ?_⟩
  rintro ⟨y, hy, z, hz, hr⟩
  cases hx'.symm.trans hy
  cases ho'.symm.trans hz
  cases hp.symm.trans hr

end
end MyDrive.Transfers
