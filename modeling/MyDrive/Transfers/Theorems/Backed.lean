import MyDrive.Transfers.Theorems.Proper
import MyDrive.Transfers.Theorems.History

-- The object of an upload that is being finalized belongs to the file of that upload alone.

namespace MyDrive.Transfers

-- A row of an upload that a step has closed, or has only taken references from.
structure Session.Recedes (x x' : Session) : Prop where
  owner : x'.ownerId = x.ownerId
  size  : x'.expectedSize = x.expectedSize
  object {o} : x'.storageObjectId = some o → x.storageObjectId = some o
  file {f} : x'.finalFileId = some f → x.finalFileId = some f
  replace {g} : x'.replaceFileId = some g → x.replaceFileId = some g
  state : x'.state = .finalizing → x.state = .finalizing ∧ x'.finalFileId = x.finalFileId

theorem Session.Recedes.refl {x : Session} : Session.Recedes x x :=
  ⟨rfl, rfl, id, id, id, fun h => ⟨h, rfl⟩⟩

theorem Session.Recedes.trans {x x' x'' : Session} (h₁ : x.Recedes x') (h₂ : x'.Recedes x'') :
    x.Recedes x'' where
  owner     := h₂.owner.trans h₁.owner
  size      := h₂.size.trans h₁.size
  object h  := h₁.object (h₂.object h)
  file h    := h₁.file (h₂.file h)
  replace h := h₁.replace (h₂.replace h)
  state h   :=
    let h' := h₂.state h
    ⟨(h₁.state h'.left).left, h'.right.trans (h₁.state h'.left).right⟩

-- A row of an upload that is closed.
theorem Session.Recedes.close {x x' : Session} (ho : x'.ownerId = x.ownerId)
    (he : x'.expectedSize = x.expectedSize) (hr : x'.replaceFileId = x.replaceFileId)
    (hs : x'.state ≠ .finalizing)
    (hi : x'.storageObjectId = x.storageObjectId ∧ x'.finalFileId = x.finalFileId ∨
      x'.storageObjectId = none ∧ x'.finalFileId = none) : x.Recedes x' where
  owner     := ho
  size      := he
  replace h := hr ▸ h
  object h  := by
    obtain ⟨hi, -⟩ | ⟨hi, -⟩ := hi <;> rw [hi] at h
    case inl => exact h
    case inr => contradiction
  file h    := by
    obtain ⟨-, hi⟩ | ⟨-, hi⟩ := hi <;> rw [hi] at h
    case inl => exact h
    case inr => contradiction
  state h   := absurd h hs

namespace Store

-- A step that adds neither a version nor a file, and no upload.
structure Recedes (s s' : Store) : Prop where
  next : s.next ≤ s'.next
  session {u x'} : s'.sessions.lookup u = some x' → ∃ x, s.sessions.lookup u = some x ∧ x.Recedes x'
  version {v w} : s'.versions.lookup v = some w → s.versions.lookup v = some w
  file {f y'} : s'.files.lookup f = some y' → ∃ y, s.files.lookup f = some y ∧ y'.ownerId = y.ownerId

variable {s s' s'' : Store} {u f o : Id}

theorem Recedes.trans (h₁ : s.Recedes s') (h₂ : s'.Recedes s'') : s.Recedes s'' where
  next       := Nat.le_trans h₁.next h₂.next
  version h  := h₁.version (h₂.version h)
  session hx := by
    obtain ⟨x', hx', hr'⟩ := h₂.session hx
    obtain ⟨x, hx, hr⟩ := h₁.session hx'
    exact ⟨x, hx, hr.trans hr'⟩
  file hy    := by
    obtain ⟨y', hy', ho'⟩ := h₂.file hy
    obtain ⟨y, hy, ho⟩ := h₁.file hy'
    exact ⟨y, hy, ho'.trans ho⟩

theorem Recedes.of_rows (hn : s.next ≤ s'.next) (hx : s'.sessions = s.sessions)
    (hv : s'.versions = s.versions) (hf : s'.files = s.files) : s.Recedes s' where
  next      := hn
  session h := ⟨_, hx ▸ h, .refl⟩
  version h := hv ▸ h
  file h    := ⟨_, hf ▸ h, rfl⟩

theorem Recedes.refl : s.Recedes s :=
  .of_rows (Nat.le_refl _) rfl rfl rfl

theorem Recedes.updateSession {g : Session → Session}
    (hg : ∀ x, s.sessions.lookup u = some x → x.Recedes (g x)) : s.Recedes (s.updateSession u g) where
  next       := Nat.le_refl _
  version h  := h
  file h     := ⟨_, h, rfl⟩
  session hx := by
    rw [lookup_updateSession] at hx
    obtain ⟨y, hy, rfl⟩ := Option.map_eq_some_iff.mp hx
    refine ⟨y, hy, ?_⟩
    split
    case isTrue hu => exact hg y (hu ▸ hy)
    case isFalse   => exact .refl

theorem Recedes.setCurrent {v : Option Id} : s.Recedes (s.setCurrent f v) where
  next      := Nat.le_refl _
  session h := ⟨_, h, .refl⟩
  version h := h
  file hy   := by
    rw [lookup_setCurrent] at hy
    obtain ⟨z, hz, rfl⟩ := Option.map_eq_some_iff.mp hy
    refine ⟨z, hz, ?_⟩
    split <;> rfl

theorem Recedes.deleteVersions {p : Id → FileVersion → Bool} : s.Recedes (s.deleteVersions p) where
  next       := Nat.le_refl _
  session h  := ⟨_, h, .refl⟩
  version hv := by
    simp only [Store.deleteVersions, Table.lookup_filterMap, Option.bind_eq_some_iff] at hv
    obtain ⟨w, hw, he⟩ := hv
    split at he <;> cases he
    exact hw
  file hy    := by
    simp only [Store.deleteVersions, Table.lookup_filterMap, Option.bind_eq_some_iff] at hy
    obtain ⟨y, hy, he⟩ := hy
    cases he
    exact ⟨y, hy, rfl⟩

theorem Recedes.deleteFiles {ids : List Id} (h : s.deleteFiles ids = .ok s') : s.Recedes s' := by
  constructor
  case next    => obtain ⟨-, rfl⟩ := deleteFiles_ok h; exact Nat.le_refl _
  case version => obtain ⟨-, rfl⟩ := deleteFiles_ok h; exact id
  case session =>
    intro u x' hx'
    obtain ⟨x, hx, -, rfl⟩ := lookup_deleteFiles h hx'
    exact ⟨x, hx, rfl, rfl, id, id, fun h => (Option.filter_eq_some_iff.mp h).left, fun h => ⟨h, rfl⟩⟩
  case file =>
    intro f y hy
    obtain ⟨-, rfl⟩ := deleteFiles_ok h
    simp only [Table.lookup_filterMap, Option.bind_eq_some_iff] at hy
    obtain ⟨z, hz, he⟩ := hy
    split at he <;> cases he
    exact ⟨y, hz, rfl⟩

theorem Recedes.deleteObject (h : s.deleteObject o = .ok s') : s.Recedes s' := by
  constructor
  case next    => obtain ⟨-, -, rfl⟩ := deleteObject_ok h; exact Nat.le_refl _
  case version => obtain ⟨-, -, rfl⟩ := deleteObject_ok h; exact id
  case file    => obtain ⟨-, -, rfl⟩ := deleteObject_ok h; exact fun h => ⟨_, h, rfl⟩
  case session =>
    intro u x' hx'
    obtain ⟨x, hx, rfl⟩ := lookup_deleteObject h hx'
    exact ⟨x, hx, rfl, rfl, fun h => (Option.filter_eq_some_iff.mp h).left, id, id, fun h => ⟨h, rfl⟩⟩

theorem Recedes.readied {checksum : String} : s.Recedes (s.readied o checksum) := by
  obtain ⟨-, he⟩ | ⟨x, -, -, he⟩ := readied_cases s o checksum
  case inl => rw [he]; exact .refl
  case inr => rw [he]; exact .of_rows (Nat.le_refl _) rfl rfl rfl

section

variable {owner upload : Id} {t : Target}

theorem Recedes.complete {checksum : String} {r : Option Id}
    (h : s.complete owner upload t checksum = .ok (s', r)) : s.Recedes s' := by
  obtain ⟨x, -, ⟨-, rfl, -⟩ | ⟨-, -, -, -, rfl⟩⟩ := complete_ok h
  case inl => exact .refl
  case inr =>
    refine Recedes.readied.trans (.updateSession fun x _ => ?_)
    exact .close rfl rfl rfl (by simp) (.inl ⟨rfl, rfl⟩)

theorem Recedes.reject {row : Option Id}
    (h : s.rejectMismatchedUpload row owner upload t = some (.ok (some s'))) : s.Recedes s' := by
  obtain ⟨x, -, -, -, -, y, z, hz, rfl, hy⟩ := rejectMismatchedUpload_ok h
  have failed : s.Recedes (s.failUpload upload) :=
    .updateSession fun x _ => .close rfl rfl rfl (by simp) (.inr ⟨rfl, rfl⟩)
  have undone : (s.failUpload upload).Recedes y := by
    obtain ⟨previous, -, -, rfl⟩ | ⟨-, hy⟩ | ⟨-, -, rfl⟩ := hy
    case inl =>
      cases s.currentVersion t.fileId
      case none => exact .setCurrent
      case some => exact Recedes.setCurrent.trans .deleteVersions
    case inr.inl => exact (Recedes.setCurrent.trans .deleteVersions).trans (.deleteFiles hy)
    case inr.inr => exact .refl
  have deleted := (failed.trans undone).trans (.deleteObject hz)
  exact deleted.trans (.of_rows (Nat.le_refl _) rfl rfl rfl)

end

structure Backed (s : Store) : Prop where
  objectIds {u x o} : s.sessions.lookup u = some x → x.storageObjectId = some o → o < s.next
  fileIds {u x f} : s.sessions.lookup u = some x → x.finalFileId = some f → f < s.next
  version {u x o v w} : s.sessions.lookup u = some x → x.state = .finalizing →
    x.storageObjectId = some o → s.versions.lookup v = some w → w.objectId = o →
    w.size = x.expectedSize ∧ x.finalFileId = some w.fileId
  owner {u x f y} : s.sessions.lookup u = some x → x.state = .finalizing →
    x.finalFileId = some f → s.files.lookup f = some y → y.ownerId = x.ownerId

namespace Backed

theorem recede (h : s.Backed) (r : s.Recedes s') : s'.Backed where
  objectIds hx ho          := by
    obtain ⟨x, hx, hr⟩ := r.session hx
    exact Nat.lt_of_lt_of_le (h.objectIds hx (hr.object ho)) r.next
  fileIds hx hf            := by
    obtain ⟨x, hx, hr⟩ := r.session hx
    exact Nat.lt_of_lt_of_le (h.fileIds hx (hr.file hf)) r.next
  version hx' hs ho hv he  := by
    obtain ⟨x, hx, hr⟩ := r.session hx'
    obtain ⟨hs, hf⟩ := hr.state hs
    rw [hr.size, hf]
    exact h.version hx hs (hr.object ho) (r.version hv) he
  owner hx' hs hf hy'      := by
    obtain ⟨x, hx, hr⟩ := r.session hx'
    obtain ⟨y, hy, ho⟩ := r.file hy'
    rw [hr.owner, ho]
    exact h.owner hx (hr.state hs).left (hr.file hf) hy

theorem createUpload {session : Session} {bytes : List UInt8} (h : s.Backed)
    (hs : s.createUpload session bytes = some s') : s'.Backed := by
  obtain ⟨x, ha, -, ho, hf, rfl⟩ := createUpload_some hs
  constructor
  case objectIds =>
    intro u y o hy hi
    obtain ⟨rfl, rfl⟩ | hy := lookup_sessions_set hy
    case inl => rw [ho] at hi; contradiction
    case inr => exact Nat.lt_add_right 3 (h.objectIds hy hi)
  case fileIds =>
    intro u y f hy hi
    obtain ⟨rfl, rfl⟩ | hy := lookup_sessions_set hy
    case inl => rw [hf] at hi; contradiction
    case inr => exact Nat.lt_add_right 3 (h.fileIds hy hi)
  case version =>
    intro u y o v w hy hz
    obtain ⟨rfl, rfl⟩ | hy := lookup_sessions_set hy
    case inl => rw [ha] at hz; contradiction
    case inr => exact h.version hy hz
  case owner =>
    intro u y f z hy hz
    obtain ⟨rfl, rfl⟩ | hy := lookup_sessions_set hy
    case inl => rw [ha] at hz; contradiction
    case inr => exact h.owner hy hz

-- The version and the object of a reservation are new, and so is its file unless it is replaced.
theorem reserve [Collation] {env : Env} {owner upload : Id} {session : Session} (h : s.Backed)
    (hp : s.Proper) (hx : s.sessions.lookup upload = some session) (ho : session.ownerId = owner)
    (hs : s.reserve env owner upload session = .ok s') : s'.Backed := by
  obtain ⟨-, files, f, rfl, hg⟩ := reserve_ok hs
  constructor
  case objectIds =>
    intro u y o hy hi
    obtain ⟨-, rfl⟩ | ⟨-, hy⟩ := lookup_sessions_reservation hx hy
    case inl => cases hi; exact Nat.lt_add_of_pos_right (by decide)
    case inr => exact Nat.lt_add_right 3 (h.objectIds hy hi)
  case fileIds =>
    intro u y g hy hi
    obtain ⟨-, rfl⟩ | ⟨-, hy⟩ := lookup_sessions_reservation hx hy
    case inr => exact Nat.lt_add_right 3 (h.fileIds hy hi)
    case inl =>
      cases hi
      obtain ⟨-, -, z, hz, -⟩ | ⟨-, rfl, -⟩ := hg
      case inl => exact Nat.lt_add_right 3 (hp.fileIds hz)
      case inr => exact Nat.add_lt_add_left (by decide : 2 < 3) s.next
  case version =>
    intro u y o v w hy hf hi hv he
    simp only [reservation, Table.lookup_set] at hv
    obtain ⟨-, rfl⟩ | ⟨-, hy⟩ := lookup_sessions_reservation hx hy
    case inl =>
      cases hi
      split at hv
      case isTrue  => cases hv; exact ⟨rfl, rfl⟩
      case isFalse =>
        obtain ⟨z, hz⟩ := hp.object hv
        exact absurd (hp.objectIds hz) (he ▸ Nat.lt_irrefl _)
    case inr =>
      split at hv
      case isFalse => exact h.version hy hf hi hv he
      case isTrue  =>
        cases hv
        exact absurd (h.objectIds hy hi) (he ▸ Nat.lt_irrefl _)
  case owner =>
    intro u y g z hy hf hi hz
    simp only [reservation, Table.lookup_filterMap, Option.bind_eq_some_iff, Option.some.injEq] at hz
    obtain ⟨z', hz, hz'⟩ := hz
    have same : z.ownerId = z'.ownerId := by rw [← hz']; split <;> rfl
    rw [same]
    obtain ⟨-, rfl⟩ | ⟨-, old⟩ := lookup_sessions_reservation hx hy
    case inl =>
      cases hi
      obtain ⟨-, rfl, w, hw, hw'⟩ | ⟨-, rfl, rfl⟩ := hg
      case inl => cases hz.symm.trans hw; exact hw'.trans ho.symm
      case inr =>
        rw [Table.lookup_set, if_pos rfl] at hz
        cases hz
        exact ho.symm
    case inr =>
      obtain ⟨-, rfl, -⟩ | ⟨-, rfl, rfl⟩ := hg
      case inl => exact h.owner old hf hi hz
      case inr =>
        rw [Table.lookup_set] at hz
        split at hz
        case isFalse => exact h.owner old hf hi hz
        case isTrue he =>
          have bound : g < s.next := h.fileIds old hi
          exact absurd (he ▸ bound) (Nat.not_lt_of_le (Nat.le_add_right _ _))

end Backed
end Store

theorem Finalize.Moves.backed [Collation] [Digest] {s s' : Store} {env : Env} {c : Finalize}
    {k : Option Finalize} (h : s.Backed) (hp : s.Proper) (m : c.Moves s env s' k) : s'.Backed := by
  cases m
  case reserve hx ho _ hr => exact h.reserve hp hx ho hr
  case complete hc        => exact h.recede (.complete hc)
  case index hc _         => exact h.recede ((Store.Recedes.complete hc).trans
    (.of_rows (Nat.le_refl _) rfl rfl rfl))
  case already hc         => exact h.recede ((Store.Recedes.complete hc).trans
    (.of_rows (Nat.le_refl _) rfl rfl rfl))
  case reject hr          => exact h.recede (.reject hr)
  all_goals exact h.recede (.of_rows (Nat.le_refl _) rfl rfl rfl)

end MyDrive.Transfers
