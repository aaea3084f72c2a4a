import MyDrive.Transfers.Theorems.Store

namespace MyDrive.Transfers
namespace Finalize

variable [Collation] [Digest]

-- What a step of `finalize_upload` can do.
inductive Moves (s : Store) (env : Env) (c : Finalize) : Store → Option Finalize → Prop
  | stop : Moves s env c s none
  | again {session fileId} : c.stage = .begun → s.sessions.lookup c.upload = some session →
    session.state = .completed → session.finalFileId = some fileId →
    Moves s env c (s.returned c.upload { fileId }) none
  | reserve {session s'} : c.stage = .begun → s.sessions.lookup c.upload = some session →
    session.ownerId = c.owner → session.state = .active →
    s.reserve env c.owner c.upload session = .ok s' →
    Moves s env c s' (c.goto (.committed session))
  | resume {session} : c.stage = .begun → s.sessions.lookup c.upload = some session →
    session.ownerId = c.owner → session.state = .finalizing →
    Moves s env c s (c.goto (.committed session))
  | locate {session file object} : c.stage = .committed session →
    session.finalFileId = some file → session.storageObjectId = some object →
    Moves s env c s (c.goto (.located session file object))
  | readFile {session row file} : c.stage = .committed session →
    s.sessions.lookup c.upload = some row → row.finalFileId = some file →
    Moves s env c s (c.goto (.fileRead session file))
  | readObject {session row file object} : c.stage = .fileRead session file →
    s.sessions.lookup c.upload = some row → row.storageObjectId = some object →
    Moves s env c s (c.goto (.located session file object))
  | enter {session file object} : c.stage = .located session file object →
    Moves s env c s (c.goto (.opened session file object))
  | select {session file object o} : c.stage = .opened session file object →
    s.objects.lookup object = some o →
    Moves s env c s (c.goto (.promoting ⟨file, object, session.stagingKey, o.size⟩ 25))
  | checkSource {t n} : c.stage = .promoting t (n + 1) →
    Moves s env c s (c.goto (.sourceChecked t n (s.staging.lookup t.stagingKey).isSome))
  | choose {t n} : c.stage = .sourceChecked t n true → s.payloads.lookup t.objectId = none →
    Moves s env c s (c.goto (.destinationFree t))
  | find {t n} : c.stage = .sourceChecked t n false → (s.payloads.lookup t.objectId).isSome →
    Moves s env c s (c.goto (.promoted t))
  | retry {t n} : c.stage = .sourceChecked t n false → s.payloads.lookup t.objectId = none →
    Moves s env c s (c.goto (.promoting t n))
  | rename {t bytes} : c.stage = .destinationFree t → s.staging.lookup t.stagingKey = some bytes →
    Moves s env c { s with
      staging  := s.staging.erase t.stagingKey
      payloads := s.payloads.set t.objectId bytes } (c.goto (.promoted t))
  | lose {t} : c.stage = .destinationFree t → s.staging.lookup t.stagingKey = none →
    Moves s env c s (c.goto (.renameLost t))
  | seeDestination {t} : c.stage = .renameLost t → (s.payloads.lookup t.objectId).isSome →
    Moves s env c s (c.goto (.destinationSeen t))
  | missSource {t} : c.stage = .destinationSeen t → s.staging.lookup t.stagingKey = none →
    Moves s env c s (c.goto (.promoted t))
  | hash {t bytes} : c.stage = .promoted t → s.payloads.lookup t.objectId = some bytes →
    bytes.length = t.size → Moves s env c s (c.goto (.hashed t (Digest.sha256 bytes)))
  | mismatch {t bytes sum} : c.stage = .promoted t → s.payloads.lookup t.objectId = some bytes →
    declaredChecksum c.checksum = .ok (some sum) → sum ≠ Digest.sha256 bytes →
    Moves s env c s (c.goto (.mismatched t))
  | complete {t sum s'} : c.stage = .hashed t sum →
    s.complete c.owner c.upload t sum = .ok (s', none) →
    Moves s env c s' (c.goto (.completed t sum))
  | index {t sum s' v} : c.stage = .hashed t sum →
    s.complete c.owner c.upload t sum = .ok (s', none) → s'.currentVersion t.fileId = some v →
    Moves s env c (s'.log (.enqueued c.upload v)) (c.goto (.completed t sum))
  | already {t sum s' fileId} : c.stage = .hashed t sum →
    s.complete c.owner c.upload t sum = .ok (s', some fileId) →
    Moves s env c (s'.returned c.upload { fileId }) none
  | answer {t sum} : c.stage = .completed t sum →
    Moves s env c (s.returned c.upload
      { fileId := t.fileId, versionId := s.currentVersion t.fileId, checksum := sum }) none
  | reject {t s'} : c.stage = .mismatched t →
    s.rejectMismatchedUpload env.row c.owner c.upload t = some (.ok (some s')) →
    Moves s env c s' (c.goto (.rejected t))
  | unlink {t} : c.stage = .rejected t →
    Moves s env c { s with payloads := s.payloads.erase t.objectId } none

theorem next_moves {s s' : Store} {env : Env} {c : Finalize} {k : Option Finalize}
    (h : c.next s env = some (s', k)) : c.Moves s env s' k := by
  obtain ⟨owner, upload, checksum, stage⟩ := c
  cases stage <;> simp only [next] at h
  case begun =>
    split at h
    case h_1 => cases h; exact .stop
    case h_2 session hu =>
      obtain ⟨hu, ho⟩ := Store.fetchUploadForUpdate_ok hu
      split at h
      case h_1 hc =>
        split at h <;> cases h
        case h_1    => exact .stop
        case h_2 hf => exact .again rfl hu hc hf
      case h_2 => cases h; exact .stop
      case h_3 => cases h; exact .stop
      case h_4 ha =>
        split at h <;> cases h
        case h_1    => exact .stop
        case h_2 hr => exact .reserve rfl hu ho ha hr
      case h_5 hf => cases h; exact .resume rfl hu ho hf
  case committed session =>
    split at h
    case h_1 hf ho => cases h; exact .locate rfl hf ho
    case h_2 =>
      split at h
      case isTrue => cases h; exact .stop
      case isFalse =>
        split at h <;> cases h
        case h_1        => exact .stop
        case h_2 row hu =>
          cases hf : row.finalFileId
          case none => exact .stop
          case some => exact .readFile rfl (Store.fetchUploadForUpdate_ok hu).left hf
    case h_3 => cases h; exact .stop
  case fileRead session file =>
    split at h <;> cases h
    case h_1        => exact .stop
    case h_2 row hu =>
      cases ho : row.storageObjectId
      case none => exact .stop
      case some => exact .readObject rfl (Store.fetchUploadForUpdate_ok hu).left ho
  case located =>
    split at h <;> cases h
    case isTrue  => exact .stop
    case isFalse => exact .enter rfl
  case opened session file object =>
    cases h
    cases ho : s.objects.lookup object
    case none => exact .stop
    case some => exact .select rfl ho
  case promoting t n =>
    cases n <;> cases h
    case zero => exact .stop
    case succ => exact .checkSource rfl
  case sourceChecked t n source =>
    cases source <;> cases hp : s.payloads.lookup t.objectId <;> simp only [hp] at h <;> cases h
    case false.none => exact .retry rfl hp
    case false.some => exact .find rfl (by simp [hp])
    case true.none  => exact .choose rfl hp
    case true.some  => exact .stop
  case destinationFree =>
    split at h <;> cases h
    case h_1 hb => exact .rename rfl hb
    case h_2 hn => exact .lose rfl hn
  case renameLost =>
    split at h <;> cases h
    case isTrue hp => exact .seeDestination rfl hp
    case isFalse   => exact .stop
  case destinationSeen =>
    split at h <;> cases h
    case isTrue hn => exact .missSource rfl (Option.isNone_iff_eq_none.mp hn)
    case isFalse   => exact .stop
  case promoted =>
    split at h
    case h_1 => cases h; exact .stop
    case h_2 bytes hp =>
      split at h
      case isTrue => cases h; exact .stop
      case isFalse hl =>
        simp only [ne_eq, Decidable.not_not] at hl
        split at h
        case h_1 => cases h; exact .stop
        case h_2 => cases h; exact .hash rfl hp hl
        case h_3 hd =>
          split at h <;> cases h
          case isTrue hn => exact .mismatch rfl hp hd hn
          case isFalse   => exact .hash rfl hp hl
  case hashed =>
    split at h
    case h_1    => cases h; exact .stop
    case h_2 hc => cases h; exact .already rfl hc
    case h_3 hc =>
      split at h <;> cases h
      case h_1    => exact .stop
      case h_2 hi =>
        rcases Store.enqueueMediaIndexJobs_ok hi with rfl | ⟨v, hv, rfl⟩
        case inl => exact .complete rfl hc
        case inr => exact .index rfl hc hv
  case mismatched =>
    split at h <;> cases h
    case h_2    => exact .stop
    case h_3    => exact .stop
    case h_4 hr => exact .reject rfl hr
  case completed => cases h; exact .answer rfl
  case rejected  => cases h; exact .unlink rfl

theorem Moves.mismatched {s s' : Store} {env : Env} {c : Finalize} {k : Option Finalize} {t : Target}
    (m : c.Moves s env s' k) (ht : c.stage = .mismatched t) :
    s' = s ∨ s.rejectMismatchedUpload env.row c.owner c.upload t = some (.ok (some s')) := by
  cases m <;> simp_all

end Finalize
end MyDrive.Transfers
