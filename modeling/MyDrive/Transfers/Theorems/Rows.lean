import MyDrive.Transfers.Theorems.History

-- What a step does to the rows of the uploads and to the current versions of the files.

namespace MyDrive.Transfers

-- The row of an upload after a step that may delete `files` and `folders`. The row of an upload that
-- is neither active nor finalizing any more does not matter.
structure Session.Carries (files folders : List Id) (x x' : Session) : Prop where
  parent  : x'.parentId = x.parentId ∨ ∃ d ∈ folders, x.parentId = some d
  replace : x'.replaceFileId = x.replaceFileId ∨ ∃ f ∈ files, x.replaceFileId = some f
  name    : x'.filename = x.filename
  state   : x'.state = x.state ∧ x'.finalFileId = x.finalFileId ∨
    x'.state ≠ .active ∧ x'.state ≠ .finalizing

section

variable {files files' folders folders' : List Id} {x x' x'' : Session}

theorem Session.Carries.refl : Session.Carries files folders x x where
  parent  := .inl rfl
  replace := .inl rfl
  name    := rfl
  state   := .inl ⟨rfl, rfl⟩

theorem Session.Carries.trans (h₁ : Session.Carries files folders x x')
    (h₂ : Session.Carries files folders x' x'') : Session.Carries files folders x x'' where
  parent  := by
    rcases h₁.parent with he | hd
    case inl => exact he ▸ h₂.parent
    case inr => exact .inr hd
  replace := by
    rcases h₁.replace with he | hf
    case inl => exact he ▸ h₂.replace
    case inr => exact .inr hf
  name    := h₂.name.trans h₁.name
  state   := by
    rcases h₂.state with ⟨hs, hf⟩ | hn
    case inl => rw [hs, hf]; exact h₁.state
    case inr => exact .inr hn

-- A column that is set to `NULL` when the row that it refers to is deleted.
theorem filter_notMem (x : Option Id) (ids : List Id) :
    x.filter (· ∉ ids) = x ∨ ∃ d ∈ ids, x = some d := by
  rcases x with _ | d
  case none => exact .inl rfl
  case some =>
    by_cases hd : d ∈ ids
    case pos => exact .inr ⟨d, hd, rfl⟩
    case neg => exact .inl (by simp [hd])

end

-- An event that neither reserves an upload nor names the version of one.
def Event.plain : Event → Bool
  | .reserved _ _ _ _ => false
  | .enqueued _ _     => false
  | .returned _ r     => r.versionId.isNone
  | _                 => true

namespace Store

-- A step that does not reserve an upload, where only the files of `moved` may get another current
-- version.
structure Carries (files folders moved : List Id) (new : Event → Prop) (s s' : Store) : Prop where
  next : s.next ≤ s'.next
  session {w x'} : s'.sessions.lookup w = some x' →
    (∃ x, s.sessions.lookup w = some x ∧ Session.Carries files folders x x') ∨
    s.next ≤ w ∧ x'.state ≠ .finalizing
  current {g v} : g < s.next → g ∉ moved → s'.currentVersion g = some v → s.currentVersion g = some v
  file {g} : (s'.files.lookup g).isSome → (s.files.lookup g).isSome ∨ g < s'.next
  version {v y} : s'.versions.lookup v = some y → s.versions.lookup v = some y ∨ s.next ≤ v
  event {e} : e ∈ s'.history → e ∈ s.history ∨ e.plain ∨ new e

variable {s s' s'' : Store} {u w o v f : Id} {files folders moved : List Id} {new : Event → Prop}

theorem Carries.trans (h₁ : Carries files folders moved new s s')
    (h₂ : Carries files folders moved new s' s'') : Carries files folders moved new s s'' where
  next := Nat.le_trans h₁.next h₂.next
  session hx := by
    rcases h₂.session hx with ⟨x', hx', hc'⟩ | ⟨hn, hs⟩
    case inr => exact .inr ⟨Nat.le_trans h₁.next hn, hs⟩
    case inl =>
      rcases h₁.session hx' with ⟨x, hx, hc⟩ | ⟨hn, hs⟩
      case inl => exact .inl ⟨x, hx, hc.trans hc'⟩
      case inr =>
        refine .inr ⟨hn, ?_⟩
        rcases hc'.state with ⟨he, _⟩ | ⟨_, hs⟩
        case inl => exact he ▸ hs
        case inr => exact hs
  current hg hm hv := by
    exact h₁.current hg hm (h₂.current (Nat.lt_of_lt_of_le hg h₁.next) hm hv)
  file hg := by
    rcases h₂.file hg with hg | hg
    case inl => exact (h₁.file hg).imp_right (Nat.lt_of_lt_of_le · h₂.next)
    case inr => exact .inr hg
  version hv := by
    rcases h₂.version hv with hv | hv
    case inl => exact h₁.version hv
    case inr => exact .inr (Nat.le_trans h₁.next hv)
  event he := by
    rcases h₂.event he with he | he
    case inl => exact h₁.event he
    case inr => exact .inr he

theorem Carries.reserved (h : Carries files folders moved new s s')
    (hn : ¬new (.reserved u o v f)) (hr : .reserved u o v f ∈ s'.history) :
    .reserved u o v f ∈ s.history := by
  rcases h.event hr with hr | hr | hr
  case inl     => exact hr
  case inr.inl => contradiction
  case inr.inr => exact absurd hr hn

-- The uploads, the files and the versions are as before.
theorem Carries.of_rows (hn : s.next ≤ s'.next) (hx : s'.sessions = s.sessions)
    (hf : s'.files = s.files) (hv : s'.versions = s.versions)
    (he : ∀ {e}, e ∈ s'.history → e ∈ s.history ∨ e.plain ∨ new e) :
    Carries files folders moved new s s' where
  next           := hn
  session h      := .inl ⟨_, hx ▸ h, .refl⟩
  current _ _ hv := by simpa only [currentVersion, hf] using hv
  file h         := .inl (hf ▸ h)
  version h      := .inl (hv ▸ h)
  event          := he

theorem Carries.refl : Carries files folders moved new s s :=
  .of_rows (Nat.le_refl _) rfl rfl rfl .inl

theorem Carries.log {e : Event} (he : e.plain ∨ new e) :
    Carries files folders moved new s (s.log e) := by
  refine .of_rows (Nat.le_refl _) rfl rfl rfl fun hm => ?_
  simp only [Store.log, List.mem_append, List.mem_singleton] at hm
  rcases hm with hm | rfl
  case inl => exact .inl hm
  case inr => exact .inr he

theorem Carries.createUpload {session : Session} {bytes : List UInt8}
    (h : s.createUpload session bytes = some s') : Carries files folders moved new s s' := by
  obtain ⟨x, ha, _, _, _, rfl⟩ := createUpload_some h
  refine ⟨Nat.le_add_right _ _, fun {w y} hy => ?_, fun _ _ hv => hv, .inl, .inl, .inl⟩
  rcases lookup_sessions_set hy with ⟨rfl, rfl⟩ | hy
  case inl => exact .inr ⟨Nat.le_add_right _ _, by simp [ha]⟩
  case inr => exact .inl ⟨y, hy, .refl⟩

theorem Carries.setEntry {parentId : Option Id} {name : String} {deletedAt : Option Time} :
    Carries files folders moved new s (s.setEntry f parentId name deletedAt) := by
  refine ⟨Nat.le_refl _, fun h => .inl ⟨_, h, .refl⟩, fun {g v} _ _ hv => ?_, fun {g} hg => ?_, .inl, .inl⟩
  all_goals cases hx : s.files.lookup g <;> simp_all [Store.setEntry, currentVersion]
  split at hv <;> exact hv

theorem Carries.setCurrent {version : Option Id} (hf : f ∈ moved) :
    Carries files folders moved new s (s.setCurrent f version) := by
  refine ⟨Nat.le_refl _, fun h => .inl ⟨_, h, .refl⟩, fun {g v} _ hg hv => ?_, fun {g} hg => ?_, .inl, .inl⟩
  case refine_1 =>
    have hn : g ≠ f := fun e => hg (e ▸ hf)
    cases hx : s.files.lookup g <;> simp_all [currentVersion]
  case refine_2 => cases hx : s.files.lookup g <;> simp_all

theorem Carries.updateSession {h : Session → Session} (hp : ∀ x, (h x).parentId = x.parentId)
    (hr : ∀ x, (h x).replaceFileId = x.replaceFileId) (hn : ∀ x, (h x).filename = x.filename)
    (hs : ∀ x, (h x).state ≠ .active ∧ (h x).state ≠ .finalizing) :
    Carries files folders moved new s (s.updateSession u h) := by
  refine ⟨Nat.le_refl _, fun {w x'} hx => ?_, fun _ _ hv => hv, .inl, .inl, .inl⟩
  rw [lookup_updateSession] at hx
  obtain ⟨x, hy, rfl⟩ := Option.map_eq_some_iff.mp hx
  refine .inl ⟨x, hy, ?_⟩
  split
  case isTrue  => exact ⟨.inl (hp x), .inl (hr x), hn x, .inr (hs x)⟩
  case isFalse => exact .refl

theorem Carries.deleteVersions {p : Id → FileVersion → Bool} :
    Carries files folders moved new s (s.deleteVersions p) := by
  refine ⟨Nat.le_refl _, fun h => .inl ⟨_, h, .refl⟩, fun {g v} _ _ hv => ?_, fun {g} hg => ?_,
    fun hv => ?version, .inl⟩
  case version =>
    simp only [Store.deleteVersions, Table.lookup_filterMap, Option.bind_eq_some_iff] at hv
    obtain ⟨y, hy, he⟩ := hv
    split at he <;> cases he
    exact .inl hy
  all_goals cases hx : s.files.lookup g <;> simp_all [Store.deleteVersions, currentVersion]

theorem Carries.deleteFiles {ids : List Id} (hi : ids ⊆ files) (h : s.deleteFiles ids = .ok s') :
    Carries files folders moved new s s' := by
  refine ⟨?_, fun hx => ?_, fun {g v} _ _ hv => ?_, fun {g} hg => ?_, ?version, ?event⟩
  case refine_1 => obtain ⟨_, rfl⟩ := deleteFiles_ok h; exact Nat.le_refl _
  case refine_2 =>
    obtain ⟨x, hy, _, rfl⟩ := lookup_deleteFiles h hx
    refine .inl ⟨x, hy, .inl rfl, ?_, rfl, .inl ⟨rfl, rfl⟩⟩
    refine (filter_notMem x.replaceFileId ids).imp_right fun hf => ?_
    obtain ⟨f, hf, he⟩ := hf
    exact ⟨f, hi hf, he⟩
  case event   => obtain ⟨_, rfl⟩ := deleteFiles_ok h; exact .inl
  case version => obtain ⟨_, rfl⟩ := deleteFiles_ok h; exact .inl
  all_goals
    obtain ⟨_, rfl⟩ := deleteFiles_ok h
    cases hx : s.files.lookup g <;> simp_all [currentVersion]
  split at hv
  case isTrue  => contradiction
  case isFalse => exact hv

theorem Carries.deleteFolders (h : s.deleteFolders folders = .ok s') :
    Carries files folders moved new s s' := by
  refine ⟨?_, fun hx => ?_, fun {g v} _ _ hv => ?_, fun {g} hg => ?_, ?version, ?event⟩
  case refine_2 =>
    obtain ⟨x, hy, rfl⟩ := lookup_deleteFolders h hx
    exact .inl ⟨x, hy, filter_notMem _ _, .inl rfl, rfl, .inl ⟨rfl, rfl⟩⟩
  all_goals cases deleteFolders_ok h
  case refine_1 => exact Nat.le_refl _
  case refine_3 => exact hv
  case refine_4 => exact .inl hg
  case version  => exact .inl
  case event    => exact .inl

theorem Carries.deleteObject (h : s.deleteObject o = .ok s') : Carries files folders moved new s s' := by
  obtain ⟨_, _, rfl⟩ := deleteObject_ok h
  refine ⟨Nat.le_refl _, fun {w x'} hx => ?_, fun _ _ hv => hv, .inl, .inl, .inl⟩
  simp only [Table.lookup_filterMap, Option.bind_eq_some_iff, Option.some.injEq] at hx
  obtain ⟨x, hx, rfl⟩ := hx
  exact .inl ⟨x, hx, .inl rfl, .inl rfl, rfl, .inl ⟨rfl, rfl⟩⟩

-- A version on a new file, or on one of `moved`.
theorem Carries.attach {rows : Table Id File} {y : FileVersion}
    (hf : rows = s.files ∧ f ∈ moved ∨
      ∃ z, s.next ≤ f ∧ f < s.next + 3 ∧ rows = s.files.set f z) :
    Carries files folders moved new s (s.attachment rows f y) := by
  refine ⟨Nat.le_add_right _ _, fun h => .inl ⟨_, h, .refl⟩, fun {g v} hg hm hv => ?_, fun {g} hg => ?_,
    fun hv => ?version, fun he => ?event⟩
  case version =>
    simp only [attachment, Table.lookup_set] at hv
    split at hv
    case isTrue hn => exact .inr (Nat.le_of_eq hn.symm)
    case isFalse   => exact .inl hv
  case event =>
    simp only [attachment, List.mem_append, List.mem_singleton] at he
    rcases he with he | rfl
    case inl => exact .inl he
    case inr => exact .inr (.inl rfl)
  all_goals rcases hf with ⟨rfl, hf⟩ | ⟨z, hl, hu, rfl⟩
  case refine_1.inl =>
    have hn : g ≠ f := fun e => hm (e ▸ hf)
    cases hx : s.files.lookup g <;> simp_all [attachment, currentVersion]
  case refine_1.inr =>
    have hn : g ≠ f := Nat.ne_of_lt (Nat.lt_of_lt_of_le hg hl)
    cases hx : s.files.lookup g <;> simp_all [attachment, currentVersion]
  case refine_2.inl => cases hx : s.files.lookup g <;> simp_all [attachment]
  case refine_2.inr =>
    by_cases hn : g = f
    case pos => exact .inr (hn ▸ hu)
    case neg => cases hx : s.files.lookup g <;> simp_all [attachment]

theorem currentVersion_complete {g : Id} {t : Target} {checksum : String} {h : Session → Session} :
    ((s.readied t.objectId checksum).updateSession u h).currentVersion g = s.currentVersion g := by
  rcases readied_cases s t.objectId checksum with ⟨_, he⟩ | ⟨_, _, _, he⟩ <;> rw [he] <;> rfl

theorem Carries.complete {owner : Id} {t : Target} {checksum : String} {r : Option Id}
    (h : s.complete owner u t checksum = .ok (s', r)) : Carries files folders moved new s s' := by
  obtain ⟨_, _, ⟨_, rfl, _⟩ | ⟨_, _, _, _, rfl⟩⟩ := complete_ok h
  case inl => exact .refl
  case inr =>
    have readied : Carries files folders moved new s (s.readied t.objectId checksum) := by
      rcases readied_cases s t.objectId checksum with ⟨_, he⟩ | ⟨_, _, _, he⟩ <;> rw [he]
      case inl => exact .refl
      case inr =>
        refine Carries.trans ?_ (.log (.inl rfl))
        exact .of_rows (Nat.le_refl _) rfl rfl rfl .inl
    apply readied.trans
    apply Carries.updateSession <;> simp

theorem Carries.fail : Carries files folders moved new s (s.failUpload u) := by
  apply Carries.updateSession <;> simp

-- What a rejection does once it has closed the session.
theorem Carries.undo {row : Option Id} {owner : Id} {t : Target} (hm : t.fileId ∈ moved)
    (hf : ∀ x, s.sessions.lookup u = some x → x.replaceFileId = none → t.fileId ∈ files)
    (h : s.rejectMismatchedUpload row owner u t = some (.ok (some s'))) :
    Carries files folders moved new (s.failUpload u) s' := by
  obtain ⟨x, hx, _, _, _, y, z, hz, rfl, hy⟩ := rejectMismatchedUpload_ok h
  have undone : Carries files folders moved new (s.failUpload u) y := by
    rcases hy with ⟨previous, _, _, rfl⟩ | ⟨hr, hd⟩ | ⟨_, _, rfl⟩
    case inl =>
      cases s.currentVersion t.fileId
      case none => exact .setCurrent hm
      case some => exact (Carries.setCurrent hm).trans .deleteVersions
    case inr.inl =>
      have hi : [t.fileId] ⊆ files := by simpa using hf x hx hr
      exact ((Carries.setCurrent hm).trans .deleteVersions).trans (.deleteFiles hi hd)
    case inr.inr => exact .refl
  apply (undone.trans (.deleteObject hz)).trans
  exact .log (.inl rfl)

theorem reject_closes {row : Option Id} {owner : Id} {t : Target} {x : Session}
    (h : s.rejectMismatchedUpload row owner u t = some (.ok (some s')))
    (hx : s'.sessions.lookup u = some x) : x.state ≠ .finalizing := by
  have undo : Carries [t.fileId] [] [t.fileId] (fun _ => False) (s.failUpload u) s' :=
    .undo List.mem_cons_self (fun _ _ _ => List.mem_cons_self) h
  rcases undo.session hx with ⟨y, hy, hc⟩ | ⟨_, hs⟩
  case inr => exact hs
  case inl =>
    rcases hc.state with ⟨hs, _⟩ | ⟨_, hs⟩
    case inr => exact hs
    case inl =>
      rw [failUpload, lookup_updateSession] at hy
      obtain ⟨z, _, rfl⟩ := Option.map_eq_some_iff.mp hy
      simp [hs]

theorem Carries.purgeTree {tree : Subtree} (h : s.purgeTree tree = .ok s') :
    Carries tree.files tree.folders moved new s s' := by
  obtain ⟨t, ht, h⟩ := Except.bind_eq_ok_iff.mp h
  exact (Carries.deleteVersions.trans (.deleteFiles (List.Subset.refl _) ht)).trans (.deleteFolders h)

theorem Carries.sweep {env : Env} {c : Sweep} : Carries files folders moved new s (c.next s env).1 := by
  rw [Sweep.next]
  split
  case h_1 => exact .refl
  case h_2 =>
    split
    case isTrue  => exact .of_rows (Nat.le_refl _) rfl rfl rfl .inl
    case isFalse => split <;> exact .refl
  case h_3 =>
    split
    case h_1 => exact .refl
    case h_2 hd =>
      rcases deleteMarked_ok hd with rfl | hd
      case inl => exact .refl
      case inr => exact .deleteObject hd

theorem Carries.insertCopies [Collation] {env : Env} {c : Copy}
    (h : s.insertCopies env c = .ok s') : Carries files folders moved new s s' := by
  refine Except.foldlM_invariant (P := Carries files folders moved new s) h .refl
    fun t f t' _ ht hf => ht.trans ?_
  have new : t.next ≤ t.next + 1 ∧ t.next + 1 < t.next + 3 :=
    ⟨Nat.le_add_right _ _, Nat.add_lt_add_left (by decide : 1 < 3) _⟩
  obtain ⟨_, rfl⟩ | ⟨_, _, _, _, rfl⟩ := insertCopy_ok hf
  case inr => exact .attach (.inr ⟨_, new.left, new.right, rfl⟩)
  case inl =>
    refine ⟨Nat.le_add_right _ _, fun h => .inl ⟨_, h, .refl⟩, fun {g v} hg _ hv => ?_, fun {g} hg => ?_, .inl, .inl⟩
    case refine_1 =>
      have hn : g ≠ t.next + 1 := Nat.ne_of_lt (Nat.lt_add_right 1 hg)
      simpa [currentVersion, hn] using hv
    case refine_2 =>
      by_cases hn : g = t.next + 1
      case pos => exact .inr (hn ▸ new.right)
      case neg => simp_all

end Store

-- The files and the folders that a step of the call deletes.
def Call.files (s : Store) : Call → List Id
  | .finalize c          =>
    match c.stage with
    | .mismatched t => if (s.sessions.lookup c.upload).any (·.replaceFileId.isNone) then [t.fileId] else []
    | _             => []
  | .purgeObjects tree _ => tree.files
  | _                    => []

def Call.folders : Call → List Id
  | .purgeObjects tree _ => tree.folders
  | _                    => []

-- The files that a step of the call gives another current version, apart from reservations.
def Call.moved [Collation] (s : Store) : Call → List Id
  | .finalize c =>
    match c.stage with
    | .mismatched t =>
      if (s.sessions.lookup c.upload).any fun x => x.state = .finalizing && x.finalFileId = some t.fileId
      then [t.fileId] else []
    | _             => []
  | .link c     => if c.object.isSome then ((s.existingFile c).map Prod.fst).toList else []
  | _           => []

-- The events by which a step of the call names a version: the media index jobs and the response.
inductive Call.Reports (s : Store) : Call → Event → Prop
  | enqueued {c t sum x v} : c.stage = .hashed t sum → s.sessions.lookup c.upload = some x →
    x.state = .finalizing → x.finalFileId = some t.fileId → s.currentVersion t.fileId = some v →
    Call.Reports s (.finalize c) (.enqueued c.upload v)
  | returned {c t} {sum : String} : c.stage = .completed t sum → Call.Reports s (.finalize c)
    (.returned c.upload { fileId := t.fileId, versionId := s.currentVersion t.fileId, checksum := sum })

theorem Call.Reports.not_reserved {s : Store} {c : Call} {u o v f : Id} :
    ¬c.Reports s (.reserved u o v f) := by
  intro h
  cases h

-- A step that reserves the upload of `c`, whose row is `x`.
structure Finalize.Reserves [Collation] (s : Store) (env : Env) (c : Finalize) (x : Session)
    (s' : Store) : Prop where
  stage   : c.stage = .begun
  session : s.sessions.lookup c.upload = some x
  active  : x.state = .active
  reserve : s.reserve env c.owner c.upload x = .ok s'

theorem Request.start_carries {s s' : Store} {r : Request} {k : Option Call} (h : r.start s = some (s', k)) :
    Store.Carries [] [] [] (fun _ => False) s s' := by
  cases r <;> simp only [Request.start] at h
  case upload =>
    obtain ⟨t, ht, he⟩ := Option.map_eq_some_iff.mp h
    cases he
    exact .createUpload ht
  case entry => cases h; exact .setEntry
  case link  => split at h <;> cases h <;> exact .refl
  all_goals
    cases h
    exact .refl

theorem System.recorded_init : Shared.Holds Store.Recorded (fun s c => c.Bound s) System.init where
  store   := Store.recorded_empty
  calls h := by contradiction

section

variable [Collation] [Digest] {s s' : Store} {env : Env}

theorem Finalize.Moves.carries {c : Finalize} {k : Option Finalize} (m : c.Moves s env s' k) :
    (∃ x, c.Reserves s env x s') ∨
    Store.Carries (Call.files s (.finalize c)) [] (Call.moved s (.finalize c))
      (Call.Reports s (.finalize c)) s s' := by
  cases m
  case reserve x hc hx _ ha hr => exact .inl ⟨x, hc, hx, ha, hr⟩
  case complete hc             => exact .inr (.complete hc)
  case index t sum s' v hc hi hv =>
    obtain ⟨x, hx, ⟨_, _, _, hr⟩ | ⟨hs, hf, _, _, he⟩⟩ := Store.complete_ok hi
    case inl => contradiction
    case inr =>
      have current : s'.currentVersion t.fileId = s.currentVersion t.fileId := by
        rw [he, Store.currentVersion_complete]
      exact .inr ((Store.Carries.complete hi).trans
        (.log (.inr (.enqueued hc hx hs hf (current ▸ hv)))))
  case already hc              => exact .inr ((Store.Carries.complete hc).trans (.log (.inl rfl)))
  case reject t hc hr          =>
    refine .inr (Store.Carries.fail.trans (.undo ?_ (fun x hx hn => ?_) hr))
    case refine_1 =>
      obtain ⟨x, hx, hs, hf, _⟩ := Store.rejectMismatchedUpload_ok hr
      simp [Call.moved, hc, hx, hs, hf]
    case refine_2 => simp [Call.files, hc, hx, hn]
  case again                   => exact .inr (.log (.inl rfl))
  case answer hc               => exact .inr (.log (.inr (.returned hc)))
  all_goals exact .inr (.of_rows (Nat.le_refl _) rfl rfl rfl .inl)

theorem Call.next_carries {c : Call} {k : Option Call} (h : c.next s env = some (s', k)) :
    (∃ d x, c = .finalize d ∧ d.Reserves s env x s') ∨
    Store.Carries (c.files s) c.folders (c.moved s) (c.Reports s) s s' := by
  cases c <;> simp only [Call.next] at h
  case finalize c =>
    obtain ⟨⟨t, k'⟩, hm, he⟩ := Option.map_eq_some_iff.mp h
    cases he
    refine (Finalize.next_moves hm).carries.imp_left fun hr => ?_
    obtain ⟨x, hr⟩ := hr
    exact ⟨c, x, rfl, hr⟩
  case link c =>
    obtain ⟨⟨t, k'⟩, hm, he⟩ := Option.map_eq_some_iff.mp h
    cases he
    rcases Link.next_cases hm with rfl | ⟨o, hc, hl⟩
    case inl => exact .inr .refl
    case inr =>
      obtain ⟨_, rows, f, rfl, hf⟩ := Store.linkObject_ok hl
      refine .inr (.attach ?_)
      rcases hf with ⟨⟨o', ho⟩, rfl⟩ | ⟨-, rfl, rfl⟩
      case inl => exact .inl ⟨rfl, by simp [Call.moved, hc, ho]⟩
      case inr => exact .inr ⟨_, Nat.le_add_right _ _, Nat.add_lt_add_left (by decide : 1 < 3) _, rfl⟩
  case copy c =>
    cases h
    rcases Copy.next_cases s env c with he | ⟨_, hi⟩
    case inl => rw [he]; exact .inr .refl
    case inr => exact .inr (.insertCopies hi)
  case purge => cases h; exact .inr .refl
  case purgeObjects tree objects =>
    split at h <;> cases h
    case h_1    => exact .inr .refl
    case h_2 hp => exact .inr (.purgeTree hp)
  case mark => cases h; exact .inr (.of_rows (Nat.le_refl _) rfl rfl rfl .inl)
  case sweep => cases h; exact .inr .sweep

namespace System

variable {s s' : System} {a : Action}

-- A step of a request, of a reservation, or of another call.
theorem step_carries (hs : s.step a = some s') :
    Store.Carries [] [] [] (fun _ => False) s.store s'.store ∨
    (∃ i env c x, a = .next i env ∧ s.calls.lookup i = some (.finalize c) ∧
      c.Reserves s.store env x s'.store) ∨
    ∃ i env c, a = .next i env ∧ s.calls.lookup i = some c ∧
      Store.Carries (c.files s.store) c.folders (c.moved s.store) (c.Reports s.store) s.store
        s'.store := by
  cases a <;> simp only [System.step, Shared.System.step] at hs
  case start =>
    split at hs <;> try contradiction
    obtain ⟨r, hr, rfl⟩ := Option.map_eq_some_iff.mp hs
    exact .inl (Request.start_carries hr)
  case next i env =>
    split at hs <;> try contradiction
    case h_1 c hc =>
      obtain ⟨r, hr, rfl⟩ := Option.map_eq_some_iff.mp hs
      rcases Call.next_carries hr with ⟨d, x, rfl, hd⟩ | hr
      case inl => exact .inr (.inl ⟨i, env, d, x, rfl, hc, hd⟩)
      case inr => exact .inr (.inr ⟨i, env, c, rfl, hc, hr⟩)
  case drop =>
    split at hs <;> cases hs
    exact .inl .refl

theorem extends_step (h : Shared.Holds Store.Recorded (fun s c => c.Bound s) s)
    (hs : s.step a = some s') : s.store.Extends s'.store := by
  cases a <;> simp only [System.step, Shared.System.step] at hs
  case start =>
    split at hs <;> try contradiction
    obtain ⟨r, hr, rfl⟩ := Option.map_eq_some_iff.mp hs
    exact (Request.start_follow h.store hr).left.extend
  case next =>
    split at hs <;> try contradiction
    case h_1 hc =>
      obtain ⟨r, hr, rfl⟩ := Option.map_eq_some_iff.mp hs
      exact (Call.next_follow h.store (h.calls hc) hr).left.extend
  case drop =>
    split at hs <;> cases hs
    exact .refl

theorem recorded_step (h : Shared.Holds Store.Recorded (fun s c => c.Bound s) s)
    (hs : s.step a = some s') : Shared.Holds Store.Recorded (fun s c => c.Bound s) s' := by
  refine h.step (fun {i r t k} _ hq => ?start) (fun {i e c t k} _ hc hb hn => ?next) hs
  case start =>
    obtain ⟨follow, hb⟩ := Request.start_follow h.store hq
    exact ⟨follow.recorded, fun h => hb _ h, fun hb => hb.extend follow.extend⟩
  case next =>
    obtain ⟨follow, hb⟩ := Call.next_follow h.store hb hn
    exact ⟨follow.recorded, fun h => hb _ h, fun hb => hb.extend follow.extend⟩

end System
end
end MyDrive.Transfers
