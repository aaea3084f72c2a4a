import MyDrive.Backup.Transfer

namespace MyDrive.Backup

variable {c : Context} {db db' : Database} {t : Transfer} {item : UploadItem} {e : Failure} {a : Answer}

-- The states in which `TransferAsync` leaves an item behind.
def UploadItem.Left (item : UploadItem) : Prop :=
  item.state ∈ [QueueState.paused, .skipped, .waiting, .failed, .retrying]

theorem handleFailure_left : (handleFailure c item e).Left := by
  unfold handleFailure UploadItem.Left
  dsimp only
  split <;> split <;> simp

namespace Transfer

-- The item goes on with its content and its upload, or starts over.
structure Stays (t : Transfer) (a : Answer) (item : UploadItem) : Prop where
  key     : item.key = t.item.key
  content : item.toStamp = t.item.toStamp ∧ item.contentHash = t.item.contentHash ∨
    ∃ hash fileSize, t.stage = .hashing ∧ a = .hashed hash fileSize ∧
      item.toStamp = { t.item.toStamp with fileSize } ∧ item.contentHash = some hash
  upload  : item.remoteUploadId = t.item.remoteUploadId ∧ item.bytesSent = t.item.bytesSent ∨
    item.remoteUploadId = none ∧ item.bytesSent = 0

theorem Stays.refl : t.Stays a t.item where
  key     := rfl
  content := .inl ⟨rfl, rfl⟩
  upload  := .inl ⟨rfl, rfl⟩

theorem Stays.state (h : t.Stays a item) (state : QueueState) (nextRetryAt : Option Time) :
    t.Stays a { item with state, nextRetryAt } :=
  ⟨h.key, h.content, h.upload⟩

theorem Stays.failed (h : t.Stays a item) : t.Stays a (handleFailure c item e) := by
  obtain ⟨key, content, upload⟩ := h
  unfold handleFailure
  dsimp only
  split <;> split
  case isTrue.isTrue   => exact ⟨key, content, .inr ⟨rfl, rfl⟩⟩
  case isTrue.isFalse  => exact ⟨key, content, .inr ⟨rfl, rfl⟩⟩
  case isFalse.isTrue  => exact ⟨key, content, upload⟩
  case isFalse.isFalse => exact ⟨key, content, upload⟩

-- What a step of `TransferAsync` can do.
inductive Moves (c : Context) (db : Database) (t : Transfer) : Answer → Database → Option Transfer → Prop
  | leave {a : Answer} {item : UploadItem} : t.Stays a item → item.Left →
    Moves c db t a (db.saveQueue t.id item) none
  | save {a : Answer} {item : UploadItem} {stage} : t.Stays a item → item.state.claimed →
    stage ∈ [Stage.hashing, .locating, .reading] → (stage = .reading → item.remoteUploadId.isSome) →
    Moves c db t a (db.saveQueue t.id item) (some { t with item, stage })
  | go {a : Answer} {item : UploadItem} {stage} : t.Stays a item → item.state = t.item.state →
    t.stage ∈ [Stage.claimed, .hashing, .locating] → stage ∈ [Stage.creating, .asking] →
    (stage = .asking → item.remoteUploadId.isSome) →
    Moves c db t a db (some { t with item, stage })
  | create {id offset} {item : UploadItem} : t.stage = .creating →
    item = { t.item with remoteUploadId := some id, bytesSent := offset, state := .uploading } →
    Moves c db t (.created id offset) (db.saveQueue t.id item) (some { t with item, stage := .reading })
  | resume {bytesSent} {item : UploadItem} : t.stage = .asking →
    item = { t.item with bytesSent, state := .uploading } →
    Moves c db t (.offset bytesSent) (db.saveQueue t.id item) (some { t with item, stage := .reading })
  | read {count} : t.stage = .reading → t.item.bytesSent < t.item.fileSize → count ≠ 0 →
    Moves c db t (.slice count) db (some { t with stage := .patching count })
  | finalize {count} : t.stage = .reading →
    Moves c db t (.slice count) db (some { t with stage := .finalizing })
  | patch {count bytesSent} : t.stage = .patching count →
    Moves c db t (.offset bytesSent) (db.saveQueue t.id { t.item with bytesSent })
      (some { t with item := { t.item with bytesSent }, stage := .reading })
  | resync {count e bytesSent} : t.stage = .patching count → Failure.serverOffset e = some bytesSent →
    Moves c db t (.thrown e) (db.saveQueue t.id { t.item with bytesSent })
      (some { t with item := { t.item with bytesSent }, stage := .reading })
  | finish {r row} : t.stage = .finalizing → r.mismatches t.item.contentHash = false →
    row = (db.index.lookup t.item.key).getD { fileSize := 0, modifiedUnixMs := 0 } →
    Moves c db t (.finalized r) db (some { t with stage := .marking (row.markBackedUp r.fileId
      r.versionId (r.checksum <|> t.item.contentHash) row.seenGeneration) })
  | mark {row} : t.stage = .marking row →
    Moves c db t .done (db.upsertIndex t.item.key row) (some { t with stage := .completing })
  | complete {item : UploadItem} : t.stage = .completing →
    item = { t.item with state := .completed, bytesSent := t.item.fileSize } →
    Moves c db t .done (db.saveQueue t.id item) (some { t with item, stage := .touching })
  | gone : t.stage = .touching → db.jobs.lookup t.item.jobId = none → Moves c db t .done db none
  | touch {job} : t.stage = .touching → db.jobs.lookup t.item.jobId = some job →
    Moves c db t .done db (some { t with stage := .saving job })
  | touched {job} : t.stage = .saving job →
    Moves c db t .done
      (db.saveJob t.item.jobId { job with lastSuccessAt := some c.now, status := .idle }) none

variable {r : Database × Option Transfer} {k : Option Transfer}

theorem Moves.fail (h : t.Stays a item) (hr : { t with item }.fail c db e = r) :
    t.Moves c db a r.1 r.2 := by
  cases hr
  exact .leave h.failed handleFailure_left

theorem Moves.connect (h : t.Stays a item) (hs : item.state = t.item.state)
    (hg : t.stage ∈ [Stage.claimed, .hashing, .locating]) (hr : { t with item }.connect c db = r) : t.Moves c db a r.1 r.2 := by
  unfold Transfer.connect at hr
  split at hr
  case isTrue => exact .fail h hr
  split at hr
  case isTrue => cases hr; exact .go h hs hg (by simp) (by simp)
  case isFalse hu =>
    have started : item.remoteUploadId.isSome := by simpa [Option.isSome_iff_ne_none] using hu
    split at hr <;> cases hr
    case isTrue  => exact .go h hs hg (by simp) fun _ => started
    case isFalse => exact .save (h.state _ _) rfl (by simp) fun _ => started

theorem Moves.locate (h : t.Stays a item) (hs : item.state = t.item.state)
    (hg : t.stage ∈ [Stage.claimed, .hashing, .locating]) (hr : { t with item }.locate c db = r) : t.Moves c db a r.1 r.2 := by
  unfold Transfer.locate at hr
  split at hr
  case isTrue  => cases hr; exact .save (h.state _ _) rfl (by simp) (by simp)
  case isFalse => exact .connect h hs hg hr

theorem Moves.check {present stable : Bool} (hg : t.stage = .claimed) (hr : t.check c db present stable = r) :
    t.Moves c db a r.1 r.2 := by
  unfold Transfer.check at hr
  split at hr
  case h_1 => cases hr; exact .leave (Stays.refl.state _ _) (by simp [UploadItem.Left])
  split at hr
  case isTrue => cases hr; exact .leave (Stays.refl.state _ _) (by simp [UploadItem.Left])
  split at hr
  case isTrue => cases hr; exact .leave (Stays.refl.state _ _) (by simp [UploadItem.Left])
  split at hr
  case isTrue => cases hr; exact .leave (Stays.refl.state _ _) (by simp [UploadItem.Left])
  split at hr
  case isTrue  => cases hr; exact .save (Stays.refl.state _ _) rfl (by simp) (by simp)
  case isFalse => exact .locate .refl rfl (by simp [hg]) hr

theorem Moves.reading {count : Nat} (h : t.stage = .reading) (hr : t.read db count = r) :
    t.Moves c db (.slice count) r.1 r.2 := by
  unfold Transfer.read at hr
  split at hr
  case isFalse => cases hr; exact .finalize h
  case isTrue hl =>
    split at hr <;> cases hr
    case isTrue => exact .leave (Stays.refl.state _ _) (by simp [UploadItem.Left])
    case isFalse =>
      split
      case isTrue     => exact .finalize h
      case isFalse hn => exact .read h hl hn

theorem Moves.finished {result : FinalizeResult} (h : t.stage = .finalizing)
    (hr : t.finish c db result = r) : t.Moves c db (.finalized result) r.1 r.2 := by
  unfold Transfer.finish at hr
  split at hr
  case isTrue     => exact .fail .refl hr
  case isFalse hm => cases hr; exact .finish h (by simpa using hm) rfl

theorem next_moves (h : t.next c db t.stage a = some (db', k)) : t.Moves c db a db' k := by
  generalize hs : t.stage = stage at h
  cases stage <;> cases a <;> simp only [next, reduceCtorEq, Option.some.injEq] at h
  case claimed.checked      => exact .check hs h
  case hashing.hashed hash fileSize =>
    have stays : t.Stays (.hashed hash fileSize) { t.item with contentHash := some hash, fileSize } :=
      ⟨rfl, .inr ⟨_, _, hs, rfl, rfl, rfl⟩, .inl ⟨rfl, rfl⟩⟩
    exact .locate stays rfl (by simp [hs]) h
  case locating.folder id   =>
    have stays : t.Stays (.folder id) { t.item with remoteParentId := some id } :=
      ⟨rfl, .inl ⟨rfl, rfl⟩, .inl ⟨rfl, rfl⟩⟩
    exact .connect stays rfl (by simp [hs]) h
  case creating.created     => cases h; exact .create hs rfl
  case asking.offset        => cases h; exact .resume hs rfl
  case reading.slice        => exact .reading hs h
  case patching.offset      => cases h; exact .patch hs
  case finalizing.finalized => exact .finished hs h
  case marking.done         => cases h; exact .mark hs
  case completing.done      => cases h; exact .complete hs rfl
  case saving.done          => cases h; exact .touched hs
  case touching.done        =>
    cases h
    cases hj : db.jobs.lookup t.item.jobId
    case none => exact .gone hs hj
    case some => exact .touch hs hj
  case patching.thrown e    =>
    split at h <;> simp only [Option.some.injEq] at h
    case h_1 he => cases h; exact .resync hs he
    case h_2    => exact .fail .refl h
  all_goals
    first
    | exact .fail .refl h
    | cases h; exact .leave (Stays.refl.state _ _) (by simp [UploadItem.Left])

end Transfer
end MyDrive.Backup
