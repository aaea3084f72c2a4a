import MyDrive.Transfers.System
import MyDrive.Library.Except

namespace MyDrive.Transfers

theorem limitOne_mem {rows : List Id} {row : Option Id} {r : Id}
    (h : limitOne rows row = some (some r)) : r ∈ rows := by
  unfold limitOne at h
  split at h <;> split at h <;> cases h
  assumption

theorem limitOne_none {rows : List Id} {row : Option Id} (h : limitOne rows row = some none) :
    rows = [] := by
  unfold limitOne at h
  split at h <;> split at h <;> cases h
  assumption

namespace Store

variable {s s' : Store} {id owner : Id}

theorem referenced_iff : s.referenced id ↔ ∃ x v, s.versions.lookup x = some v ∧ v.objectId = id := by
  simp [referenced, Table.any_iff]

theorem finalizing_iff : s.finalizing id ↔
    ∃ x u, s.sessions.lookup x = some u ∧ u.storageObjectId = some id ∧ u.state = .finalizing := by
  simp [finalizing, Table.any_iff]

theorem insertVersion_ok {v : FileVersion} (h : s.insertVersion id v = .ok s') :
    (∃ f, s.files.lookup v.fileId = some f) ∧ (∃ o, s.objects.lookup v.objectId = some o) ∧
    s' = { s with versions := s.versions.set id v } := by
  rw [insertVersion] at h
  split at h <;> cases h
  case isFalse hn =>
    simp only [Bool.or_eq_true, Option.isNone_iff_eq_none, not_or] at hn
    exact ⟨Option.ne_none_iff_exists'.mp hn.left, Option.ne_none_iff_exists'.mp hn.right, rfl⟩

theorem insertFile_ok [Collation] {f : File} (h : s.insertFile id f = .ok s') :
    s' = { s with files := s.files.set id f } := by
  rw [insertFile] at h
  split at h <;> cases h
  rfl

theorem deleteFiles_ok {ids : List Id} (h : s.deleteFiles ids = .ok s') :
    (∀ x v, s.versions.lookup x = some v → v.fileId ∉ ids) ∧
    s' = { s with
      files    := s.files.filterMap fun id f => if id ∈ ids then none else some f
      sessions := s.sessions.filterMap fun _ u =>
        if u.finalFileId.any (· ∈ ids) then none
        else some { u with replaceFileId := u.replaceFileId.filter (· ∉ ids) } } := by
  rw [deleteFiles] at h
  split at h <;> cases h
  case isFalse hn =>
    simp only [Table.any_iff, decide_eq_true_eq, not_exists, not_and] at hn
    exact ⟨hn, rfl⟩

theorem deleteFolders_ok {ids : List Id} (h : s.deleteFolders ids = .ok s') :
    s' = { s with
      sessions := s.sessions.filterMap fun _ u =>
        some { u with parentId := u.parentId.filter (· ∉ ids) } } := by
  rw [deleteFolders] at h
  split at h <;> cases h
  rfl

theorem deleteObject_ok (h : s.deleteObject id = .ok s') :
    (∀ x v, s.versions.lookup x = some v → v.objectId ≠ id) ∧
    (∀ x u, s.sessions.lookup x = some u → u.storageObjectId = some id → u.state ≠ .finalizing) ∧
    s' = { s with
      objects  := s.objects.erase id
      sessions := s.sessions.filterMap fun _ u =>
        some { u with storageObjectId := u.storageObjectId.filter (· ≠ id) } } := by
  rw [deleteObject] at h
  split at h <;> cases h
  case isFalse hn =>
    simp only [Bool.or_eq_true, referenced_iff, finalizing_iff, not_or, not_exists, not_and] at hn
    exact ⟨hn.left, hn.right, rfl⟩

theorem fetchUploadForUpdate_ok {session : Session}
    (h : s.fetchUploadForUpdate owner id = .ok session) :
    s.sessions.lookup id = some session ∧ session.ownerId = owner := by
  rw [fetchUploadForUpdate] at h
  split at h <;> try contradiction
  case h_2 hs =>
    split at h <;> cases h
    exact ⟨hs, by assumption⟩

theorem confirmReplaceLocked_ok {fileId : Id} {session : Session} {u : Unit}
    (h : s.confirmReplaceLocked owner fileId session = .ok u) :
    ∃ f, s.files.lookup fileId = some f ∧ f.ownerId = owner := by
  rw [confirmReplaceLocked] at h
  split at h <;> try contradiction
  case h_2 f hf =>
    split at h <;> try contradiction
    case isFalse hn => exact ⟨f, hf, by_contra fun ho => hn (.inl ho)⟩

theorem createUpload_some {session : Session} {bytes : List UInt8}
    (h : s.createUpload session bytes = some s') :
    ∃ x : Session, x.state = .active ∧ x.stagingKey = s.next ∧ x.storageObjectId = none ∧
      x.finalFileId = none ∧ s' = { s with
        next     := s.next + 3
        sessions := s.sessions.set (s.next + 1) x
        staging  := s.staging.set s.next bytes } := by
  rw [createUpload] at h
  split at h <;> cases h
  exact ⟨_, rfl, rfl, rfl, rfl, rfl⟩

@[simp]
theorem lookup_updateSession {f : Session → Session} {x : Id} :
    (s.updateSession id f).sessions.lookup x =
      (s.sessions.lookup x).map fun u => if x = id then f u else u := by
  simp [updateSession, Option.map_eq_bind, Function.comp_def]

@[simp]
theorem lookup_setCurrent {v : Option Id} {x : Id} :
    (s.setCurrent id v).files.lookup x =
      (s.files.lookup x).map fun f => if x = id then { f with currentVersion := v } else f := by
  simp [setCurrent, Option.map_eq_bind, Function.comp_def]

-- The store once an upload is reserved, where `files` has the row of its file.
def reservation (s : Store) (env : Env) (upload : Id) (session : Session) (files : Table Id File)
    (fileId : Id) : Store where
  objects  := s.objects.set s.next { size := session.expectedSize, createdAt := env.startedAt }
  versions := s.versions.set (s.next + 1) {
    fileId, objectId := s.next, size := session.expectedSize, createdAt := env.startedAt }
  files    := files.filterMap fun id f =>
    some (if id = fileId then { f with currentVersion := some (s.next + 1) } else f)
  sessions := s.sessions.filterMap fun id u => some (if id = upload then
    { u with state := .finalizing, storageObjectId := some s.next, finalFileId := some fileId }
    else u)
  staging  := s.staging
  payloads := s.payloads
  next     := s.next + 3
  history  := s.history ++ [.reserved upload s.next (s.next + 1) fileId]

-- The rows of a new object with its version, the current one of its file from then on.
def intake (s : Store) (size : Nat) (createdAt : Time) (files : Table Id File) (fileId : Id) : Store :=
  { s with
    objects  := s.objects.set s.next { size, createdAt }
    versions := s.versions.set (s.next + 1) { fileId, objectId := s.next, size, createdAt }
    files    := files.filterMap fun id f =>
      some (if id = fileId then { f with currentVersion := some (s.next + 1) } else f)
    next     := s.next + 3 }

-- The table of the files when the upload of `x` goes to the file `g`.
def Goes (s : Store) (owner : Id) (x : Session) (files : Table Id File) (g : Id) : Prop :=
  x.replaceFileId = some g ∧ files = s.files ∧ (∃ f, s.files.lookup g = some f ∧ f.ownerId = owner) ∨
  x.replaceFileId = none ∧ g = s.next + 2 ∧ files = s.files.set g
    { ownerId := owner, parentId := x.parentId, name := x.filename }

theorem reserve_ok [Collation] {env : Env} {upload : Id} {session : Session}
    (h : s.reserve env owner upload session = .ok s') :
    session.receivedSize = session.expectedSize ∧ ∃ files fileId,
      s' = s.reservation env upload session files fileId ∧ s.Goes owner session files fileId := by
  simp only [reserve, Except.bind_eq_ok_iff, Except.ite_throw_eq_ok_iff] at h
  obtain ⟨_, _, hr, _, ⟨t, fileId⟩, hf, u, hv, hs⟩ := h
  obtain ⟨_, _, rfl⟩ := insertVersion_ok hv
  cases hs
  refine ⟨by simpa using hr, t.files, fileId, ?_⟩
  rw [targetFile] at hf
  split at hf
  case h_1 hr =>
    obtain ⟨_, hc, he⟩ := Except.map_eq_ok_iff.mp hf
    cases he
    exact ⟨rfl, .inl ⟨hr, rfl, confirmReplaceLocked_ok hc⟩⟩
  case h_2 hr =>
    obtain ⟨_, hc, he⟩ := Except.map_eq_ok_iff.mp hf
    cases he
    cases insertFile_ok hc
    exact ⟨rfl, .inr ⟨hr, rfl, rfl⟩⟩

theorem readied_cases (s : Store) (id : Id) (checksum : String) :
    (∀ o, s.objects.lookup id = some o → o.state ≠ .pending ∧ o.state ≠ .ready) ∧
      s.readied id checksum = s ∨
    ∃ o, s.objects.lookup id = some o ∧ (o.state = .pending ∨ o.state = .ready) ∧
      s.readied id checksum =
        { s with objects := s.objects.set id { o with checksum := some checksum, state := .ready } }.log
          (.readied id) := by
  rw [readied]
  split
  case h_1 ho => exact .inl ⟨by simp [ho], rfl⟩
  case h_2 o ho =>
    split
    case isTrue hs  => exact .inr ⟨o, ho, hs, rfl⟩
    case isFalse hs => exact .inl ⟨by simpa [ho, not_or] using hs, rfl⟩

@[simp]
theorem sessions_readied {checksum : String} : (s.readied id checksum).sessions = s.sessions := by
  rcases readied_cases s id checksum with ⟨_, he⟩ | ⟨_, _, _, he⟩ <;> rw [he]
  rfl

theorem enqueueMediaIndexJobs_ok {env : Env} {upload fileId : Id}
    (h : s.enqueueMediaIndexJobs env upload fileId = .ok s') :
    s' = s ∨ ∃ v, s.currentVersion fileId = some v ∧ s' = s.log (.enqueued upload v) := by
  rw [enqueueMediaIndexJobs] at h
  split at h
  case isTrue =>
    split at h <;> cases h
    case h_2 v hv => exact .inr ⟨v, hv, rfl⟩
  case isFalse => cases h; exact .inl rfl

theorem complete_ok {upload : Id} {t : Target} {checksum : String} {r : Option Id}
    (h : s.complete owner upload t checksum = .ok (s', r)) :
    ∃ session, s.sessions.lookup upload = some session ∧
      (session.state = .completed ∧ s' = s ∧ r = session.finalFileId ∧ r.isSome ∨
       session.state = .finalizing ∧ session.finalFileId = some t.fileId ∧
         session.storageObjectId = some t.objectId ∧ r = none ∧
         s' = (s.readied t.objectId checksum).updateSession upload
           fun u => { u with state := .completed }) := by
  simp only [complete, Except.bind_eq_ok_iff] at h
  obtain ⟨session, hs, h⟩ := h
  refine ⟨session, fetchUploadForUpdate_ok hs |>.left, ?_⟩
  split at h
  case isTrue hc =>
    split at h <;> cases h
    case h_2 hf => exact .inl ⟨hc, rfl, hf.symm, rfl⟩
  case isFalse =>
    split at h <;> cases h
    case isFalse hn =>
      simp only [ne_eq, not_or, Decidable.not_not] at hn
      exact .inr ⟨hn.left, hn.right.left, hn.right.right, rfl, rfl⟩

-- The row of a session that `reject_mismatched_upload` has closed.
def failUpload (s : Store) (upload : Id) : Store :=
  s.updateSession upload fun u =>
    { u with state := .failed, storageObjectId := none, finalFileId := none }

theorem rejectMismatchedUpload_ok {row : Option Id} {upload : Id} {t : Target}
    (h : s.rejectMismatchedUpload row owner upload t = some (.ok (some s'))) :
    ∃ session, s.sessions.lookup upload = some session ∧ session.state = .finalizing ∧
      session.finalFileId = some t.fileId ∧ session.storageObjectId = some t.objectId ∧
      ∃ u w, u.deleteObject t.objectId = .ok w ∧ s' = w.log (.rejected upload) ∧
        ((∃ previous, session.replaceFileId.isSome ∧
            limitOne (s.latestVersions t.fileId (s.currentVersion t.fileId)) row = some previous ∧
            u = (s.failUpload upload).restorePrevious t.fileId (s.currentVersion t.fileId) previous) ∨
          session.replaceFileId = none ∧ (s.failUpload upload).removeFile t.fileId = .ok u ∨
          session.replaceFileId = none ∧ s.currentVersion t.fileId = none ∧
            u = s.failUpload upload) := by
  rw [rejectMismatchedUpload] at h
  split at h
  case h_1 => cases h
  case h_2 session hs =>
    refine ⟨session, fetchUploadForUpdate_ok hs |>.left, ?_⟩
    split at h
    case isTrue => cases h
    split at h
    case isTrue => cases h
    case isFalse.isFalse hn =>
      simp only [ne_eq, not_or, Decidable.not_not] at hn
      refine ⟨hn.left, hn.right.left, hn.right.right, ?_⟩
      obtain ⟨u, hu, h⟩ := Option.map_eq_some_iff.mp h
      simp only [Except.bind_eq_ok_iff] at h
      obtain ⟨u, rfl, w, hw, h⟩ := h
      cases h
      refine ⟨u, w, hw, rfl, ?_⟩
      split at hu
      case isTrue hr =>
        obtain ⟨previous, hp, hu⟩ := Option.map_eq_some_iff.mp hu
        cases hu
        exact .inl ⟨previous, hr, hp, rfl⟩
      case isFalse hr =>
        simp only [Option.isSome_iff_ne_none, ne_eq, Decidable.not_not] at hr
        split at hu
        case isTrue     => exact .inr (.inl ⟨hr, Option.some.inj hu⟩)
        case isFalse hv => cases hu; exact .inr (.inr ⟨hr, by simpa using hv, rfl⟩)

theorem deleteMarked_ok {cutoff : Option Time} (h : s.deleteMarked cutoff id = .ok s') :
    s' = s ∨ s.deleteObject id = .ok s' := by
  rw [deleteMarked] at h
  split at h
  case h_1 => cases h; exact .inl rfl
  case h_2 =>
    split at h
    case isTrue  => exact .inr h
    case isFalse => cases h; exact .inl rfl

theorem unused_of_collectable {cutoff : Option Time} {o : StorageObject}
    (h : s.collectable cutoff id o) : s.referenced id = false ∧ s.finalizing id = false := by
  simp only [collectable, Bool.and_eq_true, Bool.not_eq_true'] at h
  exact ⟨h.left.right, h.right⟩

theorem lookup_markDeleting {cutoff : Option Time} {candidates : List Id} {o' : StorageObject}
    (h : (s.markDeleting cutoff candidates).1.objects.lookup id = some o') :
    ∃ o, s.objects.lookup id = some o ∧
      (o' = o ∨ s.referenced id = false ∧ s.finalizing id = false ∧ o'.state = .deleting) := by
  simp only [markDeleting, Table.lookup_filterMap, Option.bind_eq_some_iff, Option.some.injEq] at h
  obtain ⟨o, ho, h⟩ := h
  refine ⟨o, ho, ?_⟩
  split at h
  case isFalse => exact .inl h.symm
  case isTrue hc =>
    simp only [Bool.and_eq_true] at hc
    obtain ⟨hr, hf⟩ := unused_of_collectable hc.right
    exact .inr ⟨hr, hf, by simp [← h]⟩

-- An object that a version or a finalizing upload refers to is not marked.
theorem lookup_markDeleting_of_used {cutoff : Option Time} {candidates : List Id}
    {o : StorageObject} (ho : s.objects.lookup id = some o)
    (hu : s.referenced id ∨ s.finalizing id) :
    (s.markDeleting cutoff candidates).1.objects.lookup id = some o := by
  have : s.collectable cutoff id o = false := by
    rw [collectable]
    cases hu
    case inl h => simp [h]
    case inr h => simp [h]
  simp [markDeleting, ho, this]

theorem mem_markDeleting {cutoff : Option Time} {candidates : List Id}
    (hm : id ∈ (s.markDeleting cutoff candidates).2) :
    (∃ o, s.objects.lookup id = some o) ∧
    ∀ o, (s.markDeleting cutoff candidates).1.objects.lookup id = some o → o.state = .deleting := by
  simp only [markDeleting, List.mem_filterMap, Prod.exists, Option.ite_none_right_eq_some,
    Option.some.injEq] at hm
  obtain ⟨x, o, ho, hc, rfl⟩ := hm
  have ho := Table.lookup_eq_some_iff.mpr ho
  refine ⟨⟨o, ho⟩, fun o' h => ?_⟩
  simp only [markDeleting, Table.lookup_filterMap, ho, Option.bind_some, hc, if_true,
    Option.some.injEq] at h
  simp [← h]

section

variable [Collation]

-- The store once a version of `objectId` has been added to one of `files`.
def attachment (s : Store) (files : Table Id File) (fileId : Id) (v : FileVersion) : Store :=
  { s with
    next     := s.next + 3
    files    := files.filterMap fun id f =>
      some (if id = fileId then { f with currentVersion := some s.next } else f)
    versions := s.versions.set s.next v
    history  := s.history ++ [.attached s.next fileId] }

theorem linkObject_ok {env : Env} {c : Link} {objectId : Id}
    (h : s.linkObject env c objectId = .ok (some s')) :
    (∃ o, s.objects.lookup objectId = some o) ∧ ∃ files fileId, s' = s.attachment files fileId
      { fileId, objectId, size := c.size, createdAt := env.startedAt } ∧
      ((∃ o, s.existingFile c = some (fileId, o)) ∧ files = s.files ∨
       s.existingFile c = none ∧ fileId = s.next + 1 ∧ files = s.files.set fileId
         { ownerId := c.owner, parentId := c.parentId, name := c.name }) := by
  simp only [linkObject] at h
  split at h
  case isTrue => cases h
  case isFalse =>
    simp only [Except.bind_eq_ok_iff, Except.ite_throw_eq_ok_iff] at h
    obtain ⟨_, ⟨t, fileId⟩, hf, u, hv, hs⟩ := h
    obtain ⟨_, ho, rfl⟩ := insertVersion_ok hv
    cases hs
    rw [linkTarget] at hf
    split at hf
    case h_1 o he =>
      cases hf
      exact ⟨ho, s.files, fileId, rfl, .inl ⟨⟨o, he⟩, rfl⟩⟩
    case h_2 hn =>
      obtain ⟨_, hc, he⟩ := Except.map_eq_ok_iff.mp hf
      cases he
      cases insertFile_ok hc
      exact ⟨ho, _, _, rfl, .inr ⟨hn, rfl, rfl⟩⟩

theorem insertCopy_ok {env : Env} {f : CopiedFile} (h : insertCopy owner env s f = .ok s') :
    let files := s.files.set (s.next + 1)
      { ownerId := owner, parentId := f.parentId, name := f.name }
    f.version = none ∧ s' = { s with next := s.next + 3, files } ∨
    ∃ objectId size, f.version = some (objectId, size) ∧
      (∃ o, s.objects.lookup objectId = some o) ∧ s' = s.attachment files (s.next + 1)
        { fileId := s.next + 1, objectId, size, createdAt := env.startedAt } := by
  simp only [insertCopy, Except.bind_eq_ok_iff] at h
  obtain ⟨t, ht, h⟩ := h
  cases insertFile_ok ht
  split at h
  case h_1 hv => cases h; exact .inl ⟨hv, rfl⟩
  case h_2 objectId size hv =>
    obtain ⟨u, hu, h⟩ := Except.bind_eq_ok_iff.mp h
    obtain ⟨_, ho, rfl⟩ := insertVersion_ok hu
    cases h
    exact .inr ⟨objectId, size, hv, ho, rfl⟩

end
end Store

variable [Collation] {s s' : Store} {env : Env}

theorem Link.next_cases {c : Link} {k : Option Link} (h : c.next s env = some (s', k)) :
    s' = s ∨ ∃ id, c.object = some id ∧ s.linkObject env c id = .ok (some s') := by
  rw [Link.next] at h
  split at h
  case h_1 =>
    split at h
    case isTrue => cases h; exact .inl rfl
    case isFalse =>
      obtain ⟨_, _, he⟩ := Option.map_eq_some_iff.mp h
      cases he
      exact .inl rfl
  case h_2 id hc =>
    split at h <;> cases h
    case h_1 hl => exact .inr ⟨id, hc, hl⟩
    case h_2    => exact .inl rfl

theorem Copy.next_cases (s : Store) (env : Env) (c : Copy) :
    (c.next s env).1 = s ∨ c.todo = [] ∧ s.insertCopies env c = .ok (c.next s env).1 := by
  rw [Copy.next]
  split
  case h_1 => split <;> exact .inl rfl
  case h_2 hc =>
    split
    case h_1    => exact .inl rfl
    case h_2 hi => exact .inr ⟨hc, hi⟩

end MyDrive.Transfers
