import MyDrive.Transfers.Theorems.Proper
import MyDrive.Quota.Usage

namespace MyDrive.Transfers
namespace Store

-- What a file adds to the used bytes of `a`, and a session to the reserved ones.
def held (s : Store) (a f : Id) : Nat :=
  s.files.weight (fun _ x => if x.ownerId = a then s.currentBytes x else 0) f

def pledged (s : Store) (a : Id) (now : Time) (u : Id) : Nat :=
  s.sessions.weight (fun _ x => if x.ownerId = a ∧ x.reserves now then x.expectedSize else 0) u

variable {s s' : Store} {a f u v : Id} {now : Time}

theorem used_of_file (f : Id) (h : ∀ g ≠ f, s'.held a g = s.held a g) :
    s'.usedBytes a + s.held a f = s.usedBytes a + s'.held a f :=
  Table.sum_eq_of_ne f h

theorem used_congr (h : ∀ g, s'.held a g = s.held a g) : s'.usedBytes a = s.usedBytes a :=
  Table.sum_congr h

theorem reserved_of_session (u : Id) (h : ∀ w ≠ u, s'.pledged a now w = s.pledged a now w) :
    s'.reservedBytes a now + s.pledged a now u = s.reservedBytes a now + s'.pledged a now u :=
  Table.sum_eq_of_ne u h

theorem reserved_congr (h : ∀ w, s'.pledged a now w = s.pledged a now w) :
    s'.reservedBytes a now = s.reservedBytes a now :=
  Table.sum_congr h

theorem held_of_lookup {x : File} (h : s.files.lookup f = some x) :
    s.held a f = if x.ownerId = a then s.currentBytes x else 0 :=
  Table.weight_of_lookup h

theorem held_of_none (h : s.files.lookup f = none) : s.held a f = 0 :=
  Table.weight_of_none h

theorem held_of_fresh (h : s.Proper) (hf : s.next ≤ f) : s.held a f = 0 := by
  apply held_of_none
  apply Option.eq_none_iff_forall_ne_some.mpr
  intro x hx
  exact absurd (h.fileIds hx) (Nat.not_lt_of_le hf)

theorem pledged_of_lookup {x : Session} (h : s.sessions.lookup u = some x) :
    s.pledged a now u = if x.ownerId = a ∧ x.reserves now then x.expectedSize else 0 :=
  Table.weight_of_lookup h

-- A version and its object that are as they were.
theorem readyBytes_congr (hv : s'.versions.lookup v = s.versions.lookup v)
    (ho : ∀ x, s.versions.lookup v = some x →
      s'.objects.lookup x.objectId = s.objects.lookup x.objectId) :
    s'.readyBytes v = s.readyBytes v := by
  unfold readyBytes
  rw [hv]
  cases hx : s.versions.lookup v
  case none   => rfl
  case some x => simp only [ho x hx]

theorem held_congr {g : Id} (hf : s'.files.lookup g = s.files.lookup g)
    (hv : ∀ x v, s.files.lookup g = some x → x.currentVersion = some v →
      s'.readyBytes v = s.readyBytes v) : s'.held a g = s.held a g := by
  unfold held Table.weight
  rw [hf]
  cases hx : s.files.lookup g
  case none   => rfl
  case some x =>
    have : s'.currentBytes x = s.currentBytes x := by
      unfold currentBytes
      cases hc : x.currentVersion
      case none   => rfl
      case some v => exact hv x v hx hc
    simp [this]

-- A step that only adds versions and objects leaves what the other files hold.
theorem held_of_old {g : Id} (h : s.Proper) (hf : s'.files.lookup g = s.files.lookup g)
    (hv : ∀ v < s.next, s'.versions.lookup v = s.versions.lookup v)
    (ho : ∀ o < s.next, s'.objects.lookup o = s.objects.lookup o) : s'.held a g = s.held a g := by
  apply held_congr hf
  intro x v hx hc
  obtain ⟨w, hw, -⟩ := h.current hx hc
  apply readyBytes_congr (hv v (h.versionIds hw))
  intro y hy
  obtain ⟨o, hy⟩ := h.object hy
  exact ho _ (h.objectIds hy)

theorem lookup_set_of_lt {κ : Type} {t : Table Id κ} {x : κ} {i j : Id} (h : i < j) :
    (t.set j x).lookup i = t.lookup i := by
  simp [Nat.ne_of_lt h]

theorem used_reservation {env : Env} {upload : Id} {session : Session} {files : Table Id File}
    (h : s.Proper) (hf : ∀ g ≠ f, files.lookup g = s.files.lookup g) :
    (s.reservation env upload session files f).usedBytes a + s.held a f = s.usedBytes a := by
  have others (g : Id) (hg : g ≠ f) :
      (s.reservation env upload session files f).held a g = s.held a g := by
    apply held_of_old h
    case hf => simp [reservation, hg, hf g hg]
    case hv => exact fun v hv => lookup_set_of_lt (Nat.lt_succ_of_lt hv)
    case ho => exact fun o ho => lookup_set_of_lt ho
  have own : (s.reservation env upload session files f).held a f = 0 := by
    cases hx : files.lookup f
    case none   => exact held_of_none (by simp [reservation, hx])
    case some x =>
      have row : (s.reservation env upload session files f).files.lookup f =
          some { x with currentVersion := some (s.next + 1) } := by
        simp [reservation, hx]
      rw [held_of_lookup row]
      simp [currentBytes, readyBytes, reservation]
  have := used_of_file f others
  omega

theorem used_attachment {files : Table Id File} {v : FileVersion} (h : s.Proper)
    (hf : ∀ g ≠ f, files.lookup g = s.files.lookup g) :
    (s.attachment files f v).usedBytes a + s.held a f =
      s.usedBytes a + (s.attachment files f v).held a f := by
  apply used_of_file
  intro g hg
  apply held_of_old h
  case hf => simp [attachment, hg, hf g hg]
  case hv => exact fun v hv => lookup_set_of_lt hv
  case ho => exact fun _ _ => rfl

theorem held_attachment {files : Table Id File} {v : FileVersion} {x : File} {o : StorageObject}
    (hx : files.lookup f = some x) (ho : s.objects.lookup v.objectId = some o) :
    (s.attachment files f v).held a f =
      if x.ownerId = a ∧ o.state = .ready then v.size else 0 := by
  have row : (s.attachment files f v).files.lookup f =
      some { x with currentVersion := some s.next } := by
    simp [attachment, hx]
  rw [held_of_lookup row]
  by_cases ha : x.ownerId = a <;> by_cases hr : o.state = .ready <;>
    simp [currentBytes, readyBytes, attachment, ho, ha, hr]

theorem used_attached {files : Table Id File} {v : FileVersion} {x : File} {o : StorageObject}
    (h : s.Proper) (hf : ∀ g ≠ f, files.lookup g = s.files.lookup g) (hx : files.lookup f = some x)
    (ho : s.objects.lookup v.objectId = some o) :
    (s.attachment files f v).usedBytes a + s.held a f =
      s.usedBytes a + if x.ownerId = a ∧ o.state = .ready then v.size else 0 := by
  rw [← held_attachment hx ho]
  exact used_attachment h hf

section

variable [Collation] {env : Env} {owner upload : Id} {session : Session}

theorem used_reserve (h : s.Proper) (hs : s.reserve env owner upload session = .ok s') :
    s'.usedBytes a + session.replaceFileId.elim 0 (s.held a) = s.usedBytes a := by
  obtain ⟨-, files, f, rfl, ⟨hr, rfl, -⟩ | ⟨hr, rfl, rfl⟩⟩ := reserve_ok hs
  case inl => simpa [hr] using used_reservation h (fun _ _ => rfl)
  case inr =>
    have fresh : s.held a (s.next + 2) = 0 := held_of_fresh h (Nat.le_add_right _ _)
    rw [hr, show (none : Option Id).elim 0 (s.held a) = s.held a (s.next + 2) from fresh.symm]
    exact used_reservation h fun g hg => by simp [hg]

theorem reserved_reserve (a : Id) (now : Time) (hu : s.sessions.lookup upload = some session)
    (hs : s.reserve env owner upload session = .ok s') :
    s'.reservedBytes a now + s.pledged a now upload =
      s.reservedBytes a now + if session.ownerId = a then session.expectedSize else 0 := by
  obtain ⟨-, files, f, rfl, -⟩ := reserve_ok hs
  have own : (s.reservation env upload session files f).pledged a now upload =
      if session.ownerId = a then session.expectedSize else 0 := by
    have row : (s.reservation env upload session files f).sessions.lookup upload = some { session with
        state := .finalizing, storageObjectId := some s.next, finalFileId := some f } := by
      simp [reservation, hu]
    rw [pledged_of_lookup row]
    simp [Session.reserves]
  rw [← own]
  apply reserved_of_session
  intro w hw
  simp [pledged, Table.weight, reservation, hw]

end

-- What the object `o` adds to the used bytes of `a` when it gets ready.
def waitingBytes (s : Store) (o v : Id) : Nat :=
  match s.versions.lookup v with
  | none   => 0
  | some x => if x.objectId = o then x.size else 0

def waiting (s : Store) (a o : Id) : Nat :=
  s.files.sum fun _ x => if x.ownerId = a then x.currentVersion.elim 0 (s.waitingBytes o) else 0

theorem readyBytes_setObject {o : Id} {x y : StorageObject} (ho : s.objects.lookup o = some x)
    (hx : x.state ≠ .ready) (hy : y.state = .ready) :
    readyBytes { s with objects := s.objects.set o y } v = s.readyBytes v + s.waitingBytes o v := by
  unfold readyBytes waitingBytes
  cases hv : s.versions.lookup v
  case none => rfl
  case some w =>
    by_cases he : w.objectId = o
    case pos => simp [he, ho, hx, hy]
    case neg => simp [he]

theorem used_readied {o : Id} {checksum : String} {x : StorageObject} (ho : s.objects.lookup o = some x)
    (hx : x.state = .pending) :
    (s.readied o checksum).usedBytes a = s.usedBytes a + s.waiting a o := by
  obtain ⟨hn, -⟩ | ⟨y, hy, -, he⟩ := readied_cases s o checksum
  case inl => exact absurd hx (hn x ho).left
  case inr =>
    rw [ho] at hy
    cases hy
    rw [he, usedBytes, usedBytes, waiting, ← Table.sum_add]
    congr 1
    funext f y
    split
    case isFalse => rfl
    case isTrue =>
      cases hc : y.currentVersion
      case none   => simp [currentBytes, hc]
      case some v =>
        simp only [currentBytes, hc, Option.elim_some]
        exact readyBytes_setObject ho (by simp [hx]) rfl

-- An object that is ready, or can not get ready any more, adds nothing.
theorem used_readied_of_ne {o : Id} {checksum : String}
    (h : ∀ x, s.objects.lookup o = some x → x.state ≠ .pending) :
    (s.readied o checksum).usedBytes a = s.usedBytes a := by
  obtain ⟨-, he⟩ | ⟨x, hx, hs, he⟩ := readied_cases s o checksum
  case inl => rw [he]
  case inr =>
    have hs := hs.resolve_left (h x hx)
    rw [he, usedBytes, usedBytes]
    congr 1
    funext f y
    let ready : StorageObject := { x with checksum := some checksum, state := .ready }
    have same : readyBytes { s with objects := s.objects.set o ready } = s.readyBytes := by
      funext v
      unfold readyBytes
      cases hv : s.versions.lookup v
      case none => rfl
      case some w =>
        by_cases he : w.objectId = o
        case pos => simp [he, hx, hs, ready]
        case neg => simp [he]
    simp only [currentBytes, ← same]
    rfl

-- The session's reservation ends.
theorem reserved_close {g : Session → Session} {x : Session} (hu : s.sessions.lookup u = some x)
    (hx : x.state = .finalizing) (hg : ∀ y, (g y).reserves now = false) :
    (s.updateSession u g).reservedBytes a now + (if x.ownerId = a then x.expectedSize else 0) =
      s.reservedBytes a now := by
  have own : s.pledged a now u = if x.ownerId = a then x.expectedSize else 0 := by
    rw [pledged_of_lookup hu]
    simp [Session.reserves, hx]
  have closed : (s.updateSession u g).pledged a now u = 0 := by
    rw [pledged_of_lookup (by rw [lookup_updateSession, hu]; rfl)]
    simp [hg]
  have others (w : Id) (hw : w ≠ u) : (s.updateSession u g).pledged a now w = s.pledged a now w := by
    unfold pledged Table.weight
    rw [lookup_updateSession]
    cases s.sessions.lookup w <;> simp [hw]
  have := reserved_of_session u others
  omega

def gained (s : Store) (a o : Id) : Nat :=
  if (s.objects.lookup o).any (·.state = .pending) then s.waiting a o else 0

section

variable {owner upload : Id} {t : Target} {checksum : String}

theorem used_complete (hs : s.complete owner upload t checksum = .ok (s', none)) :
    s'.usedBytes a = s.usedBytes a + s.gained a t.objectId := by
  obtain ⟨x, -, ⟨-, -, -, hr⟩ | ⟨-, -, -, -, rfl⟩⟩ := complete_ok hs
  case inl => contradiction
  case inr =>
    change (s.readied t.objectId checksum).usedBytes a = _
    unfold gained
    split
    case isTrue hp =>
      obtain ⟨o, ho, hp⟩ := (Option.any_eq_true _ _).mp hp
      exact used_readied ho (by simpa using hp)
    case isFalse hp =>
      apply used_readied_of_ne
      intro o ho hs
      exact hp (by simp [ho, hs])

theorem reserved_complete (a : Id) (now : Time) (hs : s.complete owner upload t checksum = .ok (s', none)) :
    ∃ x, s.sessions.lookup upload = some x ∧ x.state = .finalizing ∧
      x.finalFileId = some t.fileId ∧ x.storageObjectId = some t.objectId ∧
      s'.reservedBytes a now + (if x.ownerId = a then x.expectedSize else 0) = s.reservedBytes a now := by
  obtain ⟨x, hx, ⟨-, -, -, hr⟩ | ⟨hf, hi, ho, -, rfl⟩⟩ := complete_ok hs
  case inl => contradiction
  case inr =>
    refine ⟨x, hx, hf, hi, ho, ?_⟩
    have same : (s.readied t.objectId checksum).reservedBytes a now = s.reservedBytes a now := by
      rw [reservedBytes, sessions_readied]
      rfl
    rw [← same]
    refine reserved_close ?_ hf fun _ => rfl
    rw [sessions_readied]
    exact hx

end

section

variable {g : Id} {new previous : Option Id}

theorem lookup_restorePrevious (h : ∀ x, s.versions.lookup v = some x → some v ≠ new ∨ x.fileId ≠ f) :
    (s.restorePrevious f new previous).versions.lookup v = s.versions.lookup v := by
  cases new
  case none   => rfl
  case some w =>
    simp only [restorePrevious, deleteVersions, Table.lookup_filterMap, setCurrent]
    cases hx : s.versions.lookup v
    case none => rfl
    case some x =>
      have := h x hx
      simp only [ne_eq, Option.some.injEq] at this
      simp only [Option.bind_some, Bool.and_eq_true, decide_eq_true_eq, ite_eq_right_iff, reduceCtorEq, imp_false]
      rintro ⟨hv, hf⟩
      exact this.elim (· hv) (· hf)

theorem readyBytes_restorePrevious
    (h : ∀ x, s.versions.lookup v = some x → some v ≠ new ∨ x.fileId ≠ f) :
    (s.restorePrevious f new previous).readyBytes v = s.readyBytes v := by
  apply readyBytes_congr (lookup_restorePrevious h)
  intro x _
  cases new <;> rfl

theorem lookup_files_restorePrevious :
    (s.restorePrevious f new previous).files.lookup g = (s.files.lookup g).map fun x =>
      { x with currentVersion := (if g = f then previous else x.currentVersion).filter fun v =>
        !(s.versions.lookup v).any fun w => some v = new && w.fileId = f } := by
  cases new
  case none   =>
    have all (v : Option Id) : v.filter (fun _ => true) = v := by cases v <;> rfl
    simp only [restorePrevious, lookup_setCurrent]
    cases s.files.lookup g
    case none => rfl
    case some x => by_cases hg : g = f <;> simp [hg, all]
  case some n =>
    simp only [restorePrevious, deleteVersions, Table.lookup_filterMap, lookup_setCurrent]
    cases s.files.lookup g
    case none => rfl
    case some x => by_cases hg : g = f <;> simp [hg, setCurrent]

theorem held_restorePrevious_of_ne (h : s.Proper) (hg : g ≠ f) :
    (s.restorePrevious f new previous).held a g = s.held a g := by
  have current (x : File) (v : Id) (hx : s.files.lookup g = some x) (hv : x.currentVersion = some v)
      (w : FileVersion) (hw : s.versions.lookup v = some w) : w.fileId ≠ f := by
    obtain ⟨w', hw', rfl⟩ := h.current hx hv
    rw [hw] at hw'
    cases hw'
    exact hg
  apply held_congr
  case hv =>
    intro x v hx hv
    exact readyBytes_restorePrevious fun w hw => .inr (current x v hx hv w hw)
  case hf =>
    rw [lookup_files_restorePrevious]
    cases hx : s.files.lookup g
    case none => rfl
    case some x =>
      have kept : (x.currentVersion.filter fun v =>
          !(s.versions.lookup v).any fun w => some v = new && w.fileId = f) = x.currentVersion := by
        cases hv : x.currentVersion
        case none   => rfl
        case some v =>
          apply Option.filter_eq_some_iff.mpr
          refine ⟨rfl, ?_⟩
          obtain ⟨w, hw, -⟩ := h.current hx hv
          simp [hw, current x v hx hv w hw]
      simp only [Option.map_some, if_neg hg, kept]

theorem held_restorePrevious {x : File} (hx : s.files.lookup f = some x)
    (hp : ∀ v, previous = some v → some v ≠ new) :
    (s.restorePrevious f new previous).held a f =
      if x.ownerId = a then previous.elim 0 s.readyBytes else 0 := by
  have row : (s.restorePrevious f new previous).files.lookup f =
      some { x with currentVersion := previous } := by
    rw [lookup_files_restorePrevious, hx]
    cases previous
    case none   => simp
    case some v => simp [hp v rfl]
  rw [held_of_lookup row]
  cases previous
  case none   => rfl
  case some v => simp [currentBytes, readyBytes_restorePrevious fun x _ => .inl (hp v rfl)]

end
-- Rows that go, and files that lose their current version, hold no more than before.
theorem used_le (hf : ∀ g x', s'.files.lookup g = some x' → ∃ x, s.files.lookup g = some x ∧
      x'.ownerId = x.ownerId ∧ (x'.currentVersion = x.currentVersion ∨ x'.currentVersion = none))
    (hv : ∀ v, s'.readyBytes v ≤ s.readyBytes v) : s'.usedBytes a ≤ s.usedBytes a := by
  apply Table.sum_le_sum
  intro g
  change s'.held a g ≤ s.held a g
  cases hx' : s'.files.lookup g
  case none => rw [held_of_none hx']; exact Nat.zero_le _
  case some x' =>
    obtain ⟨x, hx, ho, hc⟩ := hf g x' hx'
    rw [held_of_lookup hx', held_of_lookup hx, ho]
    split
    case isFalse => exact Nat.le_refl _
    case isTrue =>
      unfold currentBytes
      obtain hc | hc := hc
      case inr => rw [hc]; exact Nat.zero_le _
      case inl =>
        rw [hc]
        cases x.currentVersion
        case none   => exact Nat.le_refl _
        case some v => exact hv v

theorem readyBytes_le {p : Id → FileVersion → Bool} : (s.deleteVersions p).readyBytes v ≤ s.readyBytes v := by
  unfold readyBytes
  simp only [deleteVersions, Table.lookup_filterMap]
  cases s.versions.lookup v
  case none => exact Nat.le_refl _
  case some x =>
    simp only [Option.bind_some]
    by_cases hp : p v x
    case pos => simp only [hp, if_true]; exact Nat.zero_le _
    case neg => simp only [hp]; exact Nat.le_refl _

theorem used_deleteVersions {p : Id → FileVersion → Bool} :
    (s.deleteVersions p).usedBytes a ≤ s.usedBytes a := by
  apply used_le
  case hv => intro v; exact readyBytes_le
  case hf =>
    intro g x' hx'
    simp only [deleteVersions, Table.lookup_filterMap, Option.bind_eq_some_iff, Option.some.injEq] at hx'
    obtain ⟨x, hx, rfl⟩ := hx'
    refine ⟨x, hx, rfl, ?_⟩
    cases x.currentVersion
    case none   => exact .inl rfl
    case some v =>
      rw [Option.filter_some]
      split
      case isTrue  => exact .inl rfl
      case isFalse => exact .inr rfl

theorem used_setCurrent_none : (s.setCurrent f none).usedBytes a ≤ s.usedBytes a := by
  apply used_le
  case hv => exact fun _ => Nat.le_refl _
  case hf =>
    intro g x' hx'
    rw [lookup_setCurrent] at hx'
    obtain ⟨x, hx, rfl⟩ := Option.map_eq_some_iff.mp hx'
    refine ⟨x, hx, ?_⟩
    split
    case isTrue  => exact ⟨rfl, .inr rfl⟩
    case isFalse => exact ⟨rfl, .inl rfl⟩

theorem used_deleteFiles {ids : List Id} (hs : s.deleteFiles ids = .ok s') :
    s'.usedBytes a ≤ s.usedBytes a := by
  obtain ⟨-, rfl⟩ := deleteFiles_ok hs
  apply used_le
  case hv => exact fun _ => Nat.le_refl _
  case hf =>
    intro g x' hx'
    simp only [Table.lookup_filterMap, Option.bind_eq_some_iff] at hx'
    obtain ⟨x, hx, he⟩ := hx'
    split at he <;> cases he
    exact ⟨x', hx, rfl, .inl rfl⟩

theorem reserved_deleteFiles {ids : List Id} (hs : s.deleteFiles ids = .ok s') :
    s'.reservedBytes a now ≤ s.reservedBytes a now := by
  obtain ⟨-, rfl⟩ := deleteFiles_ok hs
  apply Table.sum_le_sum
  intro u
  unfold Table.weight
  simp only [Table.lookup_filterMap]
  cases s.sessions.lookup u
  case none => exact Nat.le_refl _
  case some x =>
    simp only [Option.bind_some]
    split
    case isTrue  => exact Nat.zero_le _
    case isFalse => exact Nat.le_refl _

theorem used_deleteObject {o : Id} (hs : s.deleteObject o = .ok s') : s'.usedBytes a = s.usedBytes a := by
  obtain ⟨hn, -, rfl⟩ := deleteObject_ok hs
  apply used_congr
  intro g
  refine held_congr rfl fun x v _ _ => readyBytes_congr rfl ?_
  intro w hw
  simp [hn v w hw]

theorem reserved_deleteObject {o : Id} (hs : s.deleteObject o = .ok s') :
    s'.reservedBytes a now = s.reservedBytes a now := by
  obtain ⟨-, -, rfl⟩ := deleteObject_ok hs
  apply reserved_congr
  intro u
  unfold pledged Table.weight
  simp only [Table.lookup_filterMap]
  cases s.sessions.lookup u <;> rfl

section

variable {owner upload : Id} {row : Option Id} {t : Target}

theorem held_restored {previous : Option Id}
    (hp : limitOne (s.latestVersions t.fileId (s.currentVersion t.fileId)) row = some previous) :
    ((s.failUpload upload).restorePrevious t.fileId (s.currentVersion t.fileId) previous).held a
        t.fileId =
      s.files.weight (fun _ f => if f.ownerId = a then previous.elim 0 s.readyBytes else 0)
        t.fileId := by
  cases hx : s.files.lookup t.fileId
  case none =>
    rw [Table.weight_of_none hx]
    apply held_of_none
    rw [lookup_files_restorePrevious]
    change (s.files.lookup t.fileId).map _ = none
    rw [hx]
    rfl
  case some x =>
    have other (v : Id) (hv : previous = some v) : some v ≠ s.currentVersion t.fileId := by
      subst hv
      exact (version_of_mem_latestVersions (limitOne_mem hp)).left
    rw [Table.weight_of_lookup hx]
    exact held_restorePrevious (s := s.failUpload upload) hx other

-- What a rejection does to the account: the reservation ends, and the file gets back an earlier
-- version or goes.
theorem reject_usage (a : Id) (now : Time) (h : s.Proper)
    (hs : s.rejectMismatchedUpload row owner upload t = some (.ok (some s'))) :
    ∃ x, s.sessions.lookup upload = some x ∧ x.state = .finalizing ∧
      x.finalFileId = some t.fileId ∧
      s'.reservedBytes a now + (if x.ownerId = a then x.expectedSize else 0) ≤ s.reservedBytes a now ∧
      ((∃ previous, x.replaceFileId.isSome ∧
          limitOne (s.latestVersions t.fileId (s.currentVersion t.fileId)) row = some previous ∧
          s'.reservedBytes a now + (if x.ownerId = a then x.expectedSize else 0) =
            s.reservedBytes a now ∧
          s'.usedBytes a + s.held a t.fileId = s.usedBytes a +
            (s.files.weight (fun _ f => if f.ownerId = a then previous.elim 0 s.readyBytes else 0)
              t.fileId)) ∨
        x.replaceFileId = none ∧ s'.usedBytes a ≤ s.usedBytes a) := by
  obtain ⟨x, hx, hf, hi, -, u, w, hw, rfl, hu⟩ := rejectMismatchedUpload_ok hs
  have close : (s.failUpload upload).reservedBytes a now +
      (if x.ownerId = a then x.expectedSize else 0) = s.reservedBytes a now :=
    reserved_close hx hf fun _ => rfl
  have used : w.usedBytes a = u.usedBytes a := used_deleteObject hw
  have reserved : w.reservedBytes a now = u.reservedBytes a now := reserved_deleteObject hw
  refine ⟨x, hx, hf, hi, ?_⟩
  rw [show (w.log (.rejected upload)).usedBytes a = u.usedBytes a from used,
    show (w.log (.rejected upload)).reservedBytes a now = u.reservedBytes a now from reserved]
  obtain ⟨previous, hr, hp, rfl⟩ | ⟨hr, hu⟩ | ⟨hr, -, rfl⟩ := hu
  case inl =>
    have same : ((s.failUpload upload).restorePrevious t.fileId (s.currentVersion t.fileId)
        previous).reservedBytes a now = (s.failUpload upload).reservedBytes a now := by
      cases s.currentVersion t.fileId <;> rfl
    rw [same]
    refine ⟨close.le, .inl ⟨previous, hr, hp, close, ?_⟩⟩
    have failed : (s.failUpload upload).Proper := h.updateSession
    rw [← held_restored hp]
    exact used_of_file t.fileId fun g hg => held_restorePrevious_of_ne failed hg
  case inr.inl =>
    rw [removeFile] at hu
    have sessions : u.reservedBytes a now ≤ (s.failUpload upload).reservedBytes a now :=
      Nat.le_trans (reserved_deleteFiles hu) (Nat.le_of_eq rfl)
    have files : u.usedBytes a ≤ s.usedBytes a :=
      calc
        _ ≤ _ := used_deleteFiles hu
        _ ≤ _ := used_deleteVersions
        _ ≤ _ := used_setCurrent_none
        _ = _ := rfl
    exact ⟨by omega, .inr ⟨hr, files⟩⟩
  case inr.inr => exact ⟨close.le, .inr ⟨hr, Nat.le_refl _⟩⟩

end
end Store
end MyDrive.Transfers
