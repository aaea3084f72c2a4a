import MyDrive.Google.Theorems.System

-- One pass of `resume_commit` over an item that a crash has left in `committing`.

namespace MyDrive.Google

open Transfers Execution

namespace Rows

-- The file of the item can be read, and its bytes are those that were downloaded.
structure Readable [Digest] (s : Rows) (x : Item) (o f : Id) (b : List UInt8) : Prop where
  object  : x.storageObjectId = some o
  file    : x.localFileId = some f
  entry   : (s.store.files.lookup f).isSome
  version : ∃ v w, s.store.versions.lookup v = some w ∧ w.objectId = o ∧ w.fileId = f
  ready   : ∃ y, s.store.objects.lookup o = some y ∧ y.state = .ready ∧ y.size = b.length ∧
    y.checksum = some (Digest.sha256 b)
  payload : s.store.payloads.lookup o = some b

-- Nothing is left of the commit: a file that had other versions has one of them again.
structure Undone (s : Rows) (x : Item) : Prop where
  object {o} : x.storageObjectId = some o → s.store.objects.lookup o = none
  version {o v w} : x.storageObjectId = some o → s.store.versions.lookup v = some w → w.objectId ≠ o
  file {f y} : x.localFileId = some f → s.store.files.lookup f = some y → y.currentVersion.isSome

-- What one pass is to come to for the item `x` in the row `id`.
def Resolves [Digest] (s : Rows) (id : Id) (x : Item) : Prop :=
  (∀ y, s.items.lookup id = some y → y.state ≠ .committing) ∧
  ((∃ o f b, s.Readable x o f b) ∨ s.Undone x)

-- A copy of the downloaded bytes is where the pass looks for it.
def Available (s : Rows) (x : Item) : Prop :=
  (∃ o, x.storageObjectId = some o ∧ (s.store.payloads.lookup o).isSome) ∨
  ∃ k, x.stagingKey = some k ∧ (s.store.staging.lookup k).isSome

end Rows

-- The steps of the worker with nobody else in between.
def Work.run [Collation] [Digest] (a : Answer) : Nat → Rows → Work → Option (Rows × Progress)
  | 0, s, w     => some (s, .go w)
  | n + 1, s, w =>
    match w.next s a with
    | some (s, .go w) => w.run a n s
    | r               => r

theorem Work.reaches_run [Collation] [Digest] {s : Server} {a : Answer} {n : Nat} {w : Work}
    {rows : Rows} {p : Progress} (h : w.run a n s.rows = some (rows, p)) :
    Reaches Server.step { s with worker := some w } { s with rows, worker := p.work } := by
  induction n generalizing s w
  case zero =>
    cases h
    exact .refl
  case succ n ih =>
    simp only [Work.run] at h
    split at h
    case h_1 rows' w' hn =>
      have step : Server.step { s with worker := some w } (.work a) =
          some { s with rows := rows', worker := some w' } := by
        simp [Server.step, hn, Progress.work]
      exact .head trivial step (ih (s := { s with rows := rows' }) h)
    case h_2 hn =>
      have step : Server.step { s with worker := some w } (.work a) =
          some { s with rows, worker := p.work } := by
        simp [Server.step, h]
      exact .tail .refl trivial step

namespace Rows

variable [Digest] {s : Rows} {x : Item} {a : Answer} {id o k f : Id} {c : String}

-- The object's row is there, so that the pass goes on to look for the bytes.
theorem Interrupted.selected (h : s.Interrupted x o k f c) :
    s.resume a id x .selected = some (s, .go (.resume id x (.known o))) := by
  obtain ⟨y, hy, -⟩ := h.row
  simp [Rows.resume, h.object, Option.filter_some, hy]

theorem Interrupted.finishing (h : s.Interrupted x o k f c) : s.resume a id x (.finishing o) =
    some (s.finishReady id o c x.bytesDownloaded, .done) := by
  simp [Rows.resume, h.checksum]

theorem Interrupted.finish {b : List UInt8} (h : s.Interrupted x o k f c)
    (hb : s.store.payloads.lookup o = some b) : (s.finishReady id o c x.bytesDownloaded).Resolves id x := by
  obtain ⟨size, sum⟩ := h.payload hb
  obtain ⟨y, hy, hp⟩ := h.row
  have store : (s.finishReady id o c x.bytesDownloaded).store = { s.store with
      objects := (readyObject s.store o c x.bytesDownloaded).objects } := readyObject_rows ..
  refine ⟨fun y hy => ?_, .inl ⟨o, f, b, h.object, h.file, ?_, ?_, ?_, ?_⟩⟩
  case refine_1 =>
    obtain ⟨z, hz, ⟨rfl, hn⟩ | ⟨-, -, rfl⟩⟩ := lookup_finishReady hy
    case inl => exact hn rfl
    case inr => simp
  case refine_2 => rw [store]; exact h.entry
  case refine_3 => rw [store]; exact h.version
  case refine_4 =>
    refine ⟨{ y with checksum := some c, size := x.bytesDownloaded, state := .ready }, ?_, rfl,
      size.symm, sum ▸ rfl⟩
    rw [store]
    simp [readyObject, hy, hp]
  case refine_5 => rw [store]; exact hb

variable [Collation]

-- The bytes are at the object's path before the last step, from wherever the pass has taken them.
theorem Sound.finish {t : Rows} {b : List UInt8} (h : t.Sound) (hx : t.items.lookup id = some x)
    (hc : x.state = .committing) (hi : s.Interrupted x o k f c)
    (hb : t.store.payloads.lookup o = some b) :
    ∃ r, Work.run a 1 t (.resume id x (.finishing o)) = some (r, .done) ∧ r.Resolves id x := by
  obtain ⟨o', k', f', c', ht⟩ := h.committing hx hc
  cases ht.object.symm.trans hi.object
  refine ⟨_, ?_, ht.finish hb⟩
  simp only [Work.run, Work.next, ht.finishing]

theorem Sound.pass (h : s.Sound) (hx : s.items.lookup id = some x) (hc : x.state = .committing) :
    ∃ r p, Work.run a 3 s (.resume id x .selected) = some (r, p) ∧
      ((p = .done ∧ r.Resolves id x) ∧ s.Available x ∨
       p = .failed .storage ∧ r = s ∧ ¬s.Available x) := by
  obtain ⟨o, k, f, c, hi⟩ := h.committing hx hc
  have start : Work.run a 3 s (.resume id x .selected) =
      Work.run a 2 s (.resume id x (.known o)) := by
    rw [Work.run, Work.next, hi.selected]
  rw [start]
  have handles : s.Handles id o k c x.bytesDownloaded := by
    refine ⟨fun hy => ?_, fun hy ho => h.objects hy hx ho hi.object,
      fun hy hk => h.keys hy hx hk hi.key, (h.object hx hi.object).left, h.key hx hi.key⟩
    cases hx.symm.trans hy
    exact ⟨hc, hi.object, hi.key, hi.checksum, rfl⟩
  cases hp : s.store.payloads.lookup o
  case some b =>
    -- The crash was after the promotion.
    have known : Work.run a 2 s (.resume id x (.known o)) =
        Work.run a 1 (s.removeStaging (some k)) (.resume id x (.finishing o)) := by
      rw [Work.run, Work.next, Rows.resume, hp, hi.key]
      rfl
    have removed : (s.removeStaging (some k)).Sound := h.removeStaging
    obtain ⟨r, hr, hd⟩ := removed.finish (a := a) hx hc hi hp
    exact ⟨r, .done, known.trans hr, .inl ⟨⟨rfl, hd⟩, .inl ⟨o, hi.object, hp ▸ rfl⟩⟩⟩
  case none =>
    cases hk : s.store.staging.lookup k
    case some b =>
      have promoted : s.promote k o = .ok { s with
          store.staging  := s.store.staging.erase k
          store.payloads := s.store.payloads.set o b } := by
        simp [Rows.promote, hk, hp]
      have known : Work.run a 2 s (.resume id x (.known o)) = Work.run a 1 { s with
          store.staging  := s.store.staging.erase k
          store.payloads := s.store.payloads.set o b } (.resume id x (.finishing o)) := by
        rw [Work.run, Work.next, Rows.resume, hp, hi.key]
        simp only [promoted]
        rfl
      obtain ⟨r, hr, hd⟩ := (h.promote handles promoted).finish (a := a) hx hc hi
        (Table.lookup_set.trans (if_pos rfl))
      exact ⟨r, .done, known.trans hr, .inl ⟨⟨rfl, hd⟩, .inr ⟨k, hi.key, hk ▸ rfl⟩⟩⟩
    case none =>
      have failed : s.promote k o = .error .storage := by
        simp [Rows.promote, hk, hp]
      have known : Work.run a 2 s (.resume id x (.known o)) = some (s, .failed .storage) := by
        rw [Work.run, Work.next, Rows.resume, hp, hi.key]
        simp only [failed]
        rfl
      refine ⟨s, .failed .storage, known, .inr ⟨rfl, rfl, ?_⟩⟩
      rintro (⟨o', ho, hb⟩ | ⟨k', hk', hb⟩)
      case inl => cases ho.symm.trans hi.object; simp [hp] at hb
      case inr => cases hk'.symm.trans hi.key; simp [hk] at hb

end Rows

namespace Server

variable [Collation] [Digest] {s : Server} {id : Id} {x : Item}

-- In every state that crashes can leave behind, one pass settles the item, and breaks no foreign key,
-- exactly when a copy of its bytes is still there.
theorem resume_commit_resolves (a : Answer) (e : Reaches Server.step {} s) (hw : s.worker = none)
    (hx : s.rows.items.lookup id = some x) (hc : x.state = .committing) :
    ∃ rows p, Work.run a 3 s.rows (.resume id x .selected) = some (rows, p) ∧
      Reaches Server.step s { s with rows, worker := none } ∧ p ≠ .failed .database ∧
      (p = .done ∧ rows.Resolves id x ↔ s.rows.Available x) := by
  obtain ⟨rows, p, hr, hp⟩ := (sound_reaches e).rows.pass (a := a) hx hc
  have begun : s.step (.resume id) = some { s with worker := some (.resume id x .selected) } := by
    simp [Server.step, hw, hx, hc]
  have ended : Reaches Server.step s { s with rows, worker := p.work } :=
    .head trivial begun (Work.reaches_run hr)
  refine ⟨rows, p, hr, ?_⟩
  obtain ⟨hd, ha⟩ | ⟨rfl, rfl, ha⟩ := hp
  case inl =>
    have done : p = .done := hd.left
    subst done
    exact ⟨ended, by simp, fun _ => ha, fun _ => hd⟩
  case inr => exact ⟨ended, by simp, fun h => by simp at h, fun h => absurd h ha⟩

end Server

section

attribute [local instance] Collation.binary Digest.hi

-- The import of a file of two bytes up to its first commit, after which the server dies.
def interruptedImport : List Label :=
  [.addSource 7, .list 0 "g" "a.txt" (some 9), .claim 1, .work {}, .work {},
    .work { bytes := [104, 105] }, .work { name := "a.txt" }, .crash]

theorem resume_commit_resolves_staged : ∃ s x, Reaches Server.step {} s ∧
    s.rows.items.lookup 1 = some x ∧ x.state = .committing ∧
    ∃ rows, Reaches Server.step s { s with rows, worker := none } ∧ rows.Resolves 1 x := by
  have run : (run Server.step {} interruptedImport).map (fun s =>
      (s.worker.isNone, (s.rows.items.lookup 1).map (·.state),
        (s.rows.items.lookup 1).bind (·.stagingKey), (s.rows.store.staging.lookup 2).isSome)) =
      some (true, some .committing, some 2, true) := by
    decide +kernel
  obtain ⟨s, hs, he⟩ := Option.map_eq_some_iff.mp run
  simp only [Prod.mk.injEq] at he
  obtain ⟨worker, state, key, staged⟩ := he
  obtain ⟨x, hx, hc⟩ := Option.map_eq_some_iff.mp state
  rw [hx, Option.bind_some] at key
  have reached : Reaches Server.step {} s := reaches_of_run hs
  obtain ⟨rows, p, -, hr, -, hd⟩ :=
    Server.resume_commit_resolves {} reached (by simpa using worker) hx hc
  exact ⟨s, x, reached, hx, hc, rows, hr, (hd.mpr (.inr ⟨2, key, staged⟩)).right⟩

-- The staging file is gone when the item is resumed: the item stays where it is, and so it is the one
-- that every later tick resumes.
theorem resume_commit_stuck : ∃ s x, Reaches Server.step {} s ∧ s.worker = none ∧
    s.rows.items.lookup 1 = some x ∧ x.state = .committing ∧
    ∃ rows, Work.run {} 3 s.rows (.resume 1 x .selected) = some (rows, .failed .storage) ∧
      rows.items.lookup 1 = some x ∧ ¬rows.Resolves 1 x := by
  have run : (run Server.step {} (interruptedImport ++ [.loseStaging 2])).map (fun s =>
      (s.worker.isNone, (s.rows.items.lookup 1).map (·.state),
        ((s.rows.items.lookup 1).bind (·.stagingKey), (s.rows.store.staging.lookup 2).isSome),
        (s.rows.items.lookup 1).bind (·.storageObjectId), (s.rows.store.payloads.lookup 5).isSome)) =
      some (true, some .committing, (some 2, false), some 5, false) := by
    decide +kernel
  obtain ⟨s, hs, he⟩ := Option.map_eq_some_iff.mp run
  simp only [Prod.mk.injEq] at he
  obtain ⟨worker, state, ⟨key, staged⟩, object, payload⟩ := he
  obtain ⟨x, hx, hc⟩ := Option.map_eq_some_iff.mp state
  rw [hx, Option.bind_some] at key object
  have lost : ¬s.rows.Available x := by
    rintro (⟨o, ho, hb⟩ | ⟨k, hk, hb⟩)
    case inl => cases object.symm.trans ho; simp [payload] at hb
    case inr => cases key.symm.trans hk; simp [staged] at hb
  have reached : Reaches Server.step {} s := reaches_of_run hs
  obtain ⟨rows, p, hp, ⟨-, ha⟩ | ⟨rfl, rfl, -⟩⟩ := (Server.sound_reaches reached).rows.pass hx hc
  case inl => exact absurd ha lost
  case inr => exact ⟨s, x, reached, by simpa using worker, hx, hc, s.rows, hp, hx, fun h => h.left x hx hc⟩

end
end MyDrive.Google
