import MyDrive.Transfers.Theorems.Rows
import MyDrive.Transfers.Theorems.Proper

-- An object that is ready has the size and the checksum of its payload, and every version has the size
-- of its object.

open Execution

namespace MyDrive.Transfers
namespace Store

-- As long as the staged bytes of the key `k` have not been moved, the object `o` that they go to has no
-- payload.
structure Pending (s : Store) (k o : Id) : Prop where
  key    : k < s.next
  object : o < s.next
  moved {b} : s.staging.lookup k = some b → s.payloads.lookup o = none
  ready {b x} : s.staging.lookup k = some b → s.objects.lookup o = some x → x.state ≠ .ready

variable [Digest]

structure Filled (s : Store) : Prop where
  versions {v w x} : s.versions.lookup v = some w → s.objects.lookup w.objectId = some x →
    w.size = x.size
  payloads {o b} : s.payloads.lookup o = some b → o < s.next
  ready {o x b} : s.objects.lookup o = some x → x.state = .ready → s.payloads.lookup o = some b →
    x.checksum = some (Digest.sha256 b) ∧ b.length = x.size
  keys {u x} : s.sessions.lookup u = some x → u = x.stagingKey + 1 ∧ x.stagingKey < s.next
  pending {u x o} : s.sessions.lookup u = some x → x.storageObjectId = some o →
    s.Pending x.stagingKey o

-- A step that neither moves staged bytes nor readies an object. The versions that it adds are `added`.
structure Tames (added : FileVersion → Prop) (s s' : Store) : Prop where
  next    : s.next ≤ s'.next
  objects {o x'} : s'.objects.lookup o = some x' →
    (∃ x, s.objects.lookup o = some x ∧ x.size = x'.size ∧
      (x'.state = .ready → x.state = .ready ∧ x.checksum = x'.checksum)) ∨
    s.next ≤ o ∧ x'.state ≠ .ready
  versions {v w} : s'.versions.lookup v = some w → s.versions.lookup v = some w ∨ added w
  payloads {o b} : s'.payloads.lookup o = some b → s.payloads.lookup o = some b
  staging {k b} : s'.staging.lookup k = some b → s.staging.lookup k = some b ∨ s.next ≤ k
  keys {u x'} : s'.sessions.lookup u = some x' →
    (∃ x, s.sessions.lookup u = some x ∧ x.stagingKey = x'.stagingKey) ∨
    u = x'.stagingKey + 1 ∧ x'.stagingKey < s'.next
  storage {u x' o} : s'.sessions.lookup u = some x' → x'.storageObjectId = some o →
    (∃ x, s.sessions.lookup u = some x ∧ x.storageObjectId = some o) ∨ s.next ≤ o ∧ o < s'.next

-- A step of any kind.
structure Alters (added : FileVersion → Prop) (s s' : Store) : Prop where
  next    : s.next ≤ s'.next
  sizes {o x'} : s'.objects.lookup o = some x' →
    (∃ x, s.objects.lookup o = some x ∧ x.size = x'.size) ∨ s.next ≤ o
  ready {o x'} : s'.objects.lookup o = some x' → x'.state = .ready →
    (∃ x, s.objects.lookup o = some x ∧ x.size = x'.size ∧ x.state = .ready ∧
      x.checksum = x'.checksum) ∨
    (∃ k v f, .reserved (k + 1) o v f ∈ s.history ∧ s.staging.lookup k = none) ∧
      ∀ b, s'.payloads.lookup o = some b → x'.checksum = some (Digest.sha256 b) ∧ b.length = x'.size
  versions {v w} : s'.versions.lookup v = some w → s.versions.lookup v = some w ∨ added w
  payloads {o b} : s'.payloads.lookup o = some b → s.payloads.lookup o = some b ∨
    ∃ k v f, .reserved (k + 1) o v f ∈ s.history ∧ s.staging.lookup k = some b ∧ s.Pending k o ∧
      s'.staging.lookup k = none
  staging {k b} : s'.staging.lookup k = some b → s.staging.lookup k = some b ∨ s.next ≤ k
  keys {u x'} : s'.sessions.lookup u = some x' →
    (∃ x, s.sessions.lookup u = some x ∧ x.stagingKey = x'.stagingKey) ∨
    u = x'.stagingKey + 1 ∧ x'.stagingKey < s'.next
  storage {u x' o} : s'.sessions.lookup u = some x' → x'.storageObjectId = some o →
    (∃ x, s.sessions.lookup u = some x ∧ x.storageObjectId = some o) ∨ s.next ≤ o ∧ o < s'.next

variable {s s' s'' : Store} {added : FileVersion → Prop} {u k o : Id}

theorem Tames.alters (t : Tames added s s') : Alters added s s' where
  next     := t.next
  sizes ho := (t.objects ho).imp (fun ⟨x, hx, hs, _⟩ => ⟨x, hx, hs⟩) And.left
  ready ho hr := by
    rcases t.objects ho with ⟨x, hx, hs, hr'⟩ | ⟨_, hn⟩
    case inl => exact .inl ⟨x, hx, hs, hr' hr⟩
    case inr => exact absurd hr hn
  versions    := t.versions
  payloads hp := .inl (t.payloads hp)
  staging     := t.staging
  keys        := t.keys
  storage     := t.storage

theorem Alters.log {e : Event} (a : Alters added s s') : Alters added s (s'.log e) where
  next     := a.next
  sizes    := a.sizes
  ready    := a.ready
  versions := a.versions
  payloads := a.payloads
  staging  := a.staging
  keys     := a.keys
  storage  := a.storage

omit [Digest] in
-- The upload that an object has been reserved for gives the key of its staged bytes.
theorem Recorded.key_unique {k' v v' f f' : Id} (h : s.Recorded)
    (hr : .reserved (k + 1) o v f ∈ s.history) (hr' : .reserved (k' + 1) o v' f' ∈ s.history) :
    k = k' :=
  Nat.succ.inj (h.object hr hr')

theorem Pending.alter {v f : Id} (h : s.Pending k o) (hr : s.Recorded)
    (reserved : .reserved (k + 1) o v f ∈ s.history) (a : Alters added s s') : s'.Pending k o where
  key    := Nat.lt_of_lt_of_le h.key a.next
  object := Nat.lt_of_lt_of_le h.object a.next
  moved {b} hs := by
    have staged := (a.staging hs).resolve_right (Nat.not_le_of_lt h.key)
    rw [Option.eq_none_iff_forall_ne_some]
    intro b' hb
    rcases a.payloads hb with hb | ⟨k', v', f', hr', _, _, none⟩
    case inl => cases (h.moved staged).symm.trans hb
    case inr =>
      cases hr.key_unique reserved hr'
      cases none.symm.trans hs
  ready hs hx hn := by
    have staged := (a.staging hs).resolve_right (Nat.not_le_of_lt h.key)
    rcases a.ready hx hn with ⟨x, hx, _, hn, _⟩ | ⟨⟨k', v', f', hr', none⟩, _⟩
    case inl => exact h.ready staged hx hn
    case inr =>
      cases hr.key_unique reserved hr'
      cases none.symm.trans staged

theorem Alters.key {x' : Session} (a : Alters added s s') (h : s.Filled)
    (hx : s'.sessions.lookup u = some x') : u = x'.stagingKey + 1 ∧ x'.stagingKey < s'.next := by
  rcases a.keys hx with ⟨x, hx, key⟩ | key
  case inl => exact key ▸ ⟨(h.keys hx).left, Nat.lt_of_lt_of_le (h.keys hx).right a.next⟩
  case inr => exact key

theorem Filled.alter (h : s.Filled) (hp : s.Proper) (hr : s.Recorded) (a : Alters added s s')
    (ha : ∀ w, added w → ∀ x, s'.objects.lookup w.objectId = some x → w.size = x.size) :
    s'.Filled where
  versions hv hx := by
    rcases a.versions hv with hv | hw
    case inr => exact ha _ hw _ hx
    case inl =>
      obtain ⟨y, hy⟩ := hp.object hv
      obtain ⟨x, hx, size⟩ := (a.sizes hx).resolve_right (Nat.not_le_of_lt (hp.objectIds hy))
      exact (h.versions hv hx).trans size
  payloads hb := by
    rcases a.payloads hb with hb | ⟨k, v, f, _, _, pending, _⟩
    case inl => exact Nat.lt_of_lt_of_le (h.payloads hb) a.next
    case inr => exact Nat.lt_of_lt_of_le pending.object a.next
  ready hx hn hb := by
    rcases a.ready hx hn with ⟨x, hx, size, hn, sum⟩ | ⟨_, hw⟩
    case inr => exact hw _ hb
    case inl =>
      rcases a.payloads hb with hb | ⟨k, v, f, _, staged, pending, _⟩
      case inl => exact sum ▸ size ▸ h.ready hx hn hb
      case inr => exact absurd hn (pending.ready staged hx)
  keys := a.key h
  pending {u x' o} hx ho := by
    have key := a.key h hx
    rcases a.storage hx ho with ⟨x, hx, ho⟩ | ⟨fresh, bound⟩
    case inl =>
      have same : x.stagingKey = x'.stagingKey :=
        Nat.succ.inj ((h.keys hx).left.symm.trans key.left)
      obtain ⟨v, f, reserved⟩ := hr.storage hx ho
      rw [(h.keys hx).left] at reserved
      exact same ▸ (h.pending hx ho).alter hr reserved a
    -- Nothing has been said about the object before.
    case inr =>
      refine ⟨key.right, bound, fun {b} _ => ?_, fun {b y} _ hy hn => ?_⟩
      case refine_1 =>
        rw [Option.eq_none_iff_forall_ne_some]
        intro b hb
        rcases a.payloads hb with hb | ⟨_, _, _, _, _, pending, _⟩
        case inl => exact absurd (h.payloads hb) (Nat.not_lt_of_le fresh)
        case inr => exact absurd pending.object (Nat.not_lt_of_le fresh)
      case refine_2 =>
        rcases a.ready hy hn with ⟨y, hy, _⟩ | ⟨⟨_, _, _, reserved, _⟩, _⟩
        case inl => exact absurd (hp.objectIds hy) (Nat.not_lt_of_le fresh)
        case inr => exact absurd (hr.bound reserved).right (Nat.not_lt_of_le fresh)

section

omit [Digest]

theorem Tames.of_rows (hn : s.next ≤ s'.next) (ho : s'.objects = s.objects)
    (hv : ∀ {v w}, s'.versions.lookup v = some w → s.versions.lookup v = some w ∨ added w)
    (hp : ∀ {o b}, s'.payloads.lookup o = some b → s.payloads.lookup o = some b)
    (hs : s'.staging = s.staging) (hx : s'.sessions = s.sessions) : Tames added s s' where
  next         := hn
  objects h    := .inl ⟨_, ho ▸ h, rfl, fun h => ⟨h, rfl⟩⟩
  versions     := hv
  payloads     := hp
  staging h    := .inl (hs ▸ h)
  keys h       := .inl ⟨_, hx ▸ h, rfl⟩
  storage h ho := .inl ⟨_, hx ▸ h, ho⟩

theorem Tames.refl : Tames added s s :=
  .of_rows (Nat.le_refl _) rfl .inl id rfl rfl

theorem Tames.trans (t : Tames added s s') (t' : Tames added s' s'') : Tames added s s'' where
  next := Nat.le_trans t.next t'.next
  objects ho := by
    rcases t'.objects ho with ⟨x', hx', size', ready'⟩ | ⟨fresh, hn⟩
    case inr => exact .inr ⟨Nat.le_trans t.next fresh, hn⟩
    case inl =>
      rcases t.objects hx' with ⟨x, hx, size, ready⟩ | ⟨fresh, hn⟩
      case inr => exact .inr ⟨fresh, fun hr => hn (ready' hr).left⟩
      case inl =>
        refine .inl ⟨x, hx, size.trans size', fun hr => ?_⟩
        obtain ⟨hr, sum'⟩ := ready' hr
        exact ⟨(ready hr).left, (ready hr).right.trans sum'⟩
  versions hv := (t'.versions hv).elim t.versions .inr
  payloads hp := t.payloads (t'.payloads hp)
  staging hs  := (t'.staging hs).elim t.staging fun fresh => .inr (Nat.le_trans t.next fresh)
  keys hx := by
    rcases t'.keys hx with ⟨x', hx', key'⟩ | key
    case inr => exact .inr key
    case inl =>
      rcases t.keys hx' with ⟨x, hx, key⟩ | key
      case inl => exact .inl ⟨x, hx, key.trans key'⟩
      case inr => exact .inr (key' ▸ ⟨key.left, Nat.lt_of_lt_of_le key.right t'.next⟩)
  storage hx ho := by
    rcases t'.storage hx ho with ⟨x', hx', ho'⟩ | ⟨fresh, bound⟩
    case inr => exact .inr ⟨Nat.le_trans t.next fresh, bound⟩
    case inl =>
      exact (t.storage hx' ho').imp_right fun h => ⟨h.left, Nat.lt_of_lt_of_le h.right t'.next⟩

theorem Tames.mono {added' : FileVersion → Prop} (t : Tames added s s')
    (h : ∀ w, added w → added' w) : Tames added' s s' where
  next        := t.next
  objects     := t.objects
  versions hv := (t.versions hv).imp_right (h _)
  payloads    := t.payloads
  staging     := t.staging
  keys        := t.keys
  storage     := t.storage

-- The rows of the uploads that are left say no more than before.
theorem Tames.of_sessions {s' : Store} (hn : s.next ≤ s'.next)
    (ho : ∀ {o x}, s'.objects.lookup o = some x → s.objects.lookup o = some x)
    (hv : s'.versions = s.versions) (hp : s'.payloads = s.payloads) (hs : s'.staging = s.staging)
    (hx : ∀ {u x'}, s'.sessions.lookup u = some x' → ∃ x, s.sessions.lookup u = some x ∧
      x.stagingKey = x'.stagingKey ∧
      ∀ o, x'.storageObjectId = some o → x.storageObjectId = some o) : Tames added s s' where
  next        := hn
  objects h   := .inl ⟨_, ho h, rfl, fun h => ⟨h, rfl⟩⟩
  versions h  := .inl (hv ▸ h)
  payloads h  := hp ▸ h
  staging h   := .inl (hs ▸ h)
  keys h      := by
    obtain ⟨x, hx, key, _⟩ := hx h
    exact .inl ⟨x, hx, key⟩
  storage h ho := by
    obtain ⟨x, hx, _, storage⟩ := hx h
    exact .inl ⟨x, hx, storage _ ho⟩

theorem Tames.updateSession {g : Session → Session} (hk : ∀ x, (g x).stagingKey = x.stagingKey)
    (ho : ∀ x o, (g x).storageObjectId = some o → x.storageObjectId = some o) :
    Tames added s (s.updateSession u g) := by
  refine .of_sessions (Nat.le_refl _) id rfl rfl rfl fun {w x'} hx => ?_
  rw [lookup_updateSession] at hx
  obtain ⟨x, row, rfl⟩ := Option.map_eq_some_iff.mp hx
  refine ⟨x, row, ?_⟩
  split
  case isTrue  => exact ⟨(hk x).symm, ho x⟩
  case isFalse => exact ⟨rfl, fun _ => id⟩

theorem Tames.deleteVersions {p : Id → FileVersion → Bool} : Tames added s (s.deleteVersions p) := by
  refine .of_rows (Nat.le_refl _) rfl (fun {v w} hv => ?_) id rfl rfl
  simp only [Store.deleteVersions, Table.lookup_filterMap, Option.bind_eq_some_iff] at hv
  obtain ⟨y, hy, he⟩ := hv
  split at he <;> cases he
  exact .inl hy

theorem Tames.deleteFiles {ids : List Id} (h : s.deleteFiles ids = .ok s') : Tames added s s' := by
  obtain ⟨_, rfl⟩ := deleteFiles_ok h
  refine .of_sessions (Nat.le_refl _) id rfl rfl rfl fun {w x'} hx => ?_
  simp only [Table.lookup_filterMap, Option.bind_eq_some_iff] at hx
  obtain ⟨x, hx, he⟩ := hx
  split at he <;> cases he
  exact ⟨x, hx, rfl, fun _ => id⟩

theorem Tames.deleteFolders {ids : List Id} (h : s.deleteFolders ids = .ok s') :
    Tames added s s' := by
  cases deleteFolders_ok h
  refine .of_sessions (Nat.le_refl _) id rfl rfl rfl fun {w x'} hx => ?_
  simp only [Table.lookup_filterMap, Option.bind_eq_some_iff, Option.some.injEq] at hx
  obtain ⟨x, hx, rfl⟩ := hx
  exact ⟨x, hx, rfl, fun _ => id⟩

theorem Tames.deleteObject (h : s.deleteObject o = .ok s') : Tames added s s' := by
  obtain ⟨_, _, rfl⟩ := deleteObject_ok h
  refine .of_sessions (Nat.le_refl _) (fun {i x} ho => ?_) rfl rfl rfl fun {w x'} hx => ?_
  case refine_1 =>
    rw [Table.lookup_erase] at ho
    split at ho
    case isTrue  => contradiction
    case isFalse => exact ho
  case refine_2 =>
    simp only [Table.lookup_filterMap, Option.bind_eq_some_iff, Option.some.injEq] at hx
    obtain ⟨x, hx, rfl⟩ := hx
    exact ⟨x, hx, rfl, fun _ hi => (Option.filter_eq_some_iff.mp hi).left⟩

theorem Tames.markDeleting {cutoff : Option Time} {candidates : List Id} :
    Tames added s (s.markDeleting cutoff candidates).1 := by
  refine { Tames.refl (s := s) with objects := fun {o x'} ho => ?_ }
  simp only [Store.markDeleting, Table.lookup_filterMap, Option.bind_eq_some_iff,
    Option.some.injEq] at ho
  obtain ⟨x, hx, rfl⟩ := ho
  refine .inl ⟨x, hx, ?_⟩
  split
  case isTrue  => exact ⟨rfl, fun h => by contradiction⟩
  case isFalse => exact ⟨rfl, fun h => ⟨h, rfl⟩⟩

theorem Tames.unlink : Tames added s { s with payloads := s.payloads.erase o } := by
  refine .of_rows (Nat.le_refl _) rfl .inl (fun {i b} hp => ?_) rfl rfl
  rw [Table.lookup_erase] at hp
  split at hp
  case isTrue  => contradiction
  case isFalse => exact hp

theorem Tames.log {e : Event} : Tames added s (s.log e) :=
  .of_rows (Nat.le_refl _) rfl .inl id rfl rfl

theorem Tames.setCurrent {f : Id} {v : Option Id} : Tames added s (s.setCurrent f v) :=
  .of_rows (Nat.le_refl _) rfl .inl id rfl rfl

theorem Tames.createUpload {session : Session} {bytes : List UInt8}
    (h : s.createUpload session bytes = some s') : Tames added s s' := by
  obtain ⟨y, _, key, none, _, rfl⟩ := createUpload_some h
  refine { Tames.refl (s := s) with
    next := Nat.le_add_right _ _, staging := fun {k b} hk => ?_, keys := fun {u x'} hx => ?_
    storage := fun {u x' o} hx ho => ?_ }
  case refine_1 =>
    rw [Table.lookup_set] at hk
    split at hk
    case isTrue he => exact .inr (Nat.le_of_eq he.symm)
    case isFalse   => exact .inl hk
  case refine_2 =>
    rw [Table.lookup_set] at hx
    split at hx
    case isTrue he => cases hx; exact .inr ⟨key ▸ he, key ▸ Nat.lt_add_of_pos_right (by decide)⟩
    case isFalse   => exact .inl ⟨x', hx, rfl⟩
  case refine_3 =>
    rw [Table.lookup_set] at hx
    split at hx
    case isTrue  => cases hx; cases none.symm.trans ho
    case isFalse => exact .inl ⟨x', hx, ho⟩

theorem Tames.attach {files : Table Id File} {f : Id} {w : FileVersion} :
    Tames (· = w) s (s.attachment files f w) := by
  refine .of_rows (Nat.le_add_right _ _) rfl (fun {v w'} hv => ?_) id rfl rfl
  simp only [attachment, Table.lookup_set] at hv
  split at hv
  case isTrue  => exact .inr (Option.some.inj hv).symm
  case isFalse => exact .inl hv

theorem Tames.reserve {env : Env} {upload : Id} {session : Session} {files : Table Id File} {f : Id} :
    Tames (fun w => w.objectId = s.next ∧ w.size = session.expectedSize) s
      (s.reservation env upload session files f) where
  next := Nat.le_add_right _ _
  objects ho := by
    simp only [reservation, Table.lookup_set] at ho
    split at ho
    case isTrue he => cases ho; exact .inr ⟨Nat.le_of_eq he.symm, by simp⟩
    case isFalse   => exact .inl ⟨_, ho, rfl, fun h => ⟨h, rfl⟩⟩
  versions hv := by
    simp only [reservation, Table.lookup_set] at hv
    split at hv
    case isTrue  => cases hv; exact .inr ⟨rfl, rfl⟩
    case isFalse => exact .inl hv
  payloads := id
  staging  := .inl
  keys hx := by
    simp only [reservation, Table.lookup_filterMap, Option.bind_eq_some_iff, Option.some.injEq] at hx
    obtain ⟨x, hx, rfl⟩ := hx
    refine .inl ⟨x, hx, ?_⟩
    split <;> rfl
  storage hx ho := by
    simp only [reservation, Table.lookup_filterMap, Option.bind_eq_some_iff, Option.some.injEq] at hx
    obtain ⟨x, hx, rfl⟩ := hx
    split at ho
    case isTrue  =>
      cases ho
      exact .inr ⟨Nat.le_refl _, Nat.lt_add_of_pos_right (by decide)⟩
    case isFalse => exact .inl ⟨x, hx, ho⟩

theorem Tames.reject {row : Option Id} {owner : Id} {t : Target}
    (h : s.rejectMismatchedUpload row owner u t = some (.ok (some s'))) : Tames added s s' := by
  obtain ⟨session, _, _, _, _, y, z, hz, rfl, hy⟩ := rejectMismatchedUpload_ok h
  have failed : Tames added s (s.failUpload u) := .updateSession (fun _ => rfl) (by simp)
  have undone : Tames added (s.failUpload u) y := by
    rcases hy with ⟨previous, _, _, rfl⟩ | ⟨_, hy⟩ | ⟨_, _, rfl⟩
    case inl =>
      simp only [restorePrevious]
      split
      case h_1 => exact .setCurrent
      case h_2 => exact Tames.setCurrent.trans .deleteVersions
    case inr.inl => exact (Tames.setCurrent.trans .deleteVersions).trans (.deleteFiles hy)
    case inr.inr => exact .refl
  exact ((failed.trans undone).trans (.deleteObject hz)).trans .log

end

theorem Alters.rename {v f : Id} {bytes : List UInt8} (reserved : .reserved (k + 1) o v f ∈ s.history)
    (pending : s.Pending k o) (staged : s.staging.lookup k = some bytes) : Alters added s
      { s with staging := s.staging.erase k, payloads := s.payloads.set o bytes } where
  next         := Nat.le_refl _
  sizes ho     := .inl ⟨_, ho, rfl⟩
  ready ho hr  := .inl ⟨_, ho, rfl, hr, rfl⟩
  versions     := .inl
  payloads hb  := by
    rw [Table.lookup_set] at hb
    split at hb
    case isTrue he =>
      cases hb
      exact .inr ⟨k, v, f, he ▸ reserved, staged, he ▸ pending, by simp⟩
    case isFalse => exact .inl hb
  staging hk   := by
    rw [Table.lookup_erase] at hk
    split at hk
    case isTrue  => contradiction
    case isFalse => exact .inl hk
  keys hx      := .inl ⟨_, hx, rfl⟩
  storage h ho := .inl ⟨_, h, ho⟩

theorem Alters.readied {v f : Id} {checksum : String}
    (reserved : .reserved (k + 1) o v f ∈ s.history) (none : s.staging.lookup k = none)
    (hashed : ∀ b x, s.payloads.lookup o = some b → s.objects.lookup o = some x →
      checksum = Digest.sha256 b ∧ b.length = x.size) :
    Alters added s ((s.readied o checksum).updateSession u fun x => { x with state := .completed }) := by
  rcases readied_cases s o checksum with ⟨_, he⟩ | ⟨x, hx, _, he⟩ <;> rw [he]
  case inl => exact (Tames.updateSession (by simp) (by simp)).alters
  case inr =>
    have rows : Alters added s (s.updateSession u fun x => { x with state := .completed }) :=
      (Tames.updateSession (by simp) (by simp)).alters
    refine { rows with sizes := fun {i y} hy => ?_, ready := fun {i y} hy hn => ?_ }
    case refine_1 =>
      simp only [Store.updateSession, Store.log, Table.lookup_set] at hy
      split at hy
      case isTrue he => cases hy; exact .inl ⟨x, he ▸ hx, rfl⟩
      case isFalse   => exact .inl ⟨y, hy, rfl⟩
    case refine_2 =>
      simp only [Store.updateSession, Store.log, Table.lookup_set] at hy
      split at hy
      case isTrue he =>
        cases hy
        cases he
        refine .inr ⟨⟨k, v, f, reserved, none⟩, fun b hb => ?_⟩
        obtain ⟨sum, size⟩ := hashed b x hb hx
        exact ⟨sum ▸ rfl, size⟩
      case isFalse => exact .inl ⟨y, hy, rfl, hn, rfl⟩

-- What a call holds about the object that its bytes go to, or that it adds a version of.
structure Aims (s : Store) (upload : Id) (t : Target) : Prop where
  upload  : upload = t.stagingKey + 1
  pending : s.Pending t.stagingKey t.objectId
  size {x} : s.objects.lookup t.objectId = some x → x.size = t.size

def Hashed (s : Store) (upload : Id) (t : Target) (checksum : String) : Prop :=
  s.Aims upload t ∧ s.staging.lookup t.stagingKey = none ∧
    ∀ b, s.payloads.lookup t.objectId = some b → checksum = Digest.sha256 b ∧ b.length = t.size

def Sizes (s : Store) (o size : Nat) : Prop :=
  o < s.next ∧ ∀ x, s.objects.lookup o = some x → size = x.size

end Store

open Store

variable [Digest]

def Finalize.Fits (s : Store) (c : Finalize) : Prop :=
  match c.stage with
  | .begun | .mismatched _ | .completed _ _ | .rejected _ => True
  | .committed session                                    =>
    c.upload = session.stagingKey + 1 ∧
    ∀ o, session.storageObjectId = some o → s.Pending session.stagingKey o
  | .fileRead session _                                   => c.upload = session.stagingKey + 1
  | .located session _ o | .opened session _ o            =>
    c.upload = session.stagingKey + 1 ∧ s.Pending session.stagingKey o
  | .promoting t _ | .sourceChecked t _ _ | .destinationFree t | .renameLost t
  | .destinationSeen t                                    => s.Aims c.upload t
  | .promoted t                                           =>
    s.Aims c.upload t ∧ s.staging.lookup t.stagingKey = none
  | .hashed t sum                                         => s.Hashed c.upload t sum

def Call.Fits (s : Store) : Call → Prop
  | .finalize c => c.Fits s
  | .link c     => ∀ o, c.object = some o → s.Sizes o c.size
  | .copy c     => ∀ f ∈ c.copied, ∀ o size, f.version = some (o, size) → s.Sizes o size
  | _           => True

variable {s s' : Store} {added : FileVersion → Prop} {env : Env}

theorem Store.Sizes.alter {o size : Nat} (h : s.Sizes o size) (a : Alters added s s') :
    s'.Sizes o size := by
  refine ⟨Nat.lt_of_lt_of_le h.left a.next, fun x' hx => ?_⟩
  obtain ⟨x, hx, same⟩ := (a.sizes hx).resolve_right (Nat.not_le_of_lt h.left)
  exact (h.right x hx).trans same

theorem Store.Aims.alter {t : Target} {u v f : Id} (h : s.Aims u t) (hr : s.Recorded)
    (reserved : .reserved u t.objectId v f ∈ s.history) (a : Alters added s s') : s'.Aims u t where
  upload  := h.upload
  pending := h.pending.alter hr (h.upload ▸ reserved) a
  size hx := by
    obtain ⟨x, hx, same⟩ := (a.sizes hx).resolve_right (Nat.not_le_of_lt h.pending.object)
    exact same ▸ h.size hx

theorem Store.Alters.emptied {k : Id} (a : Alters added s s') (hk : k < s.next)
    (h : s.staging.lookup k = none) : s'.staging.lookup k = none := by
  rw [Option.eq_none_iff_forall_ne_some]
  intro b hb
  cases h.symm.trans ((a.staging hb).resolve_right (Nat.not_le_of_lt hk))

theorem Finalize.Fits.alter {c : Finalize} (h : c.Fits s) (hr : s.Recorded) (hb : c.Bound s)
    (a : Alters added s s') : c.Fits s' := by
  obtain ⟨_, u, _, stage⟩ := c
  cases stage <;> simp only [Fits, Bound] at h hb ⊢
  case committed session =>
    refine ⟨h.left, fun o ho => ?_⟩
    obtain ⟨v, f, reserved⟩ := hb.right.right o ho
    exact (h.right o ho).alter hr (h.left ▸ reserved) a
  case fileRead => exact h
  case located | opened =>
    obtain ⟨_, v, reserved⟩ := hb
    exact ⟨h.left, h.right.alter hr (h.left ▸ reserved) a⟩
  case promoting | sourceChecked | destinationFree | renameLost | destinationSeen =>
    obtain ⟨_, v, reserved⟩ := hb
    exact h.alter hr reserved a
  case promoted =>
    obtain ⟨_, v, reserved⟩ := hb
    exact ⟨h.left.alter hr reserved a, a.emptied h.left.pending.key h.right⟩
  case hashed t sum =>
    obtain ⟨_, v, reserved⟩ := hb
    refine ⟨h.left.alter hr reserved a, a.emptied h.left.pending.key h.right.left, fun b hp => ?_⟩
    rcases a.payloads hp with hp | ⟨k, v', f', hr', staged, _⟩
    case inl => exact h.right.right b hp
    case inr =>
      rw [h.left.upload] at reserved
      cases hr.key_unique reserved hr'
      cases h.right.left.symm.trans staged

theorem Call.Fits.alter {c : Call} (h : c.Fits s) (hr : s.Recorded) (hb : c.Bound s)
    (a : Alters added s s') : c.Fits s' := by
  cases c
  case finalize => exact Finalize.Fits.alter h hr hb a
  case link     => exact fun o ho => (h o ho).alter a
  case copy     => exact fun f hf o size hv => (h f hf o size hv).alter a
  all_goals trivial

theorem Store.Alters.complete {u owner v f : Id} {t : Target} {checksum : String} {r : Option Id}
    (h : s.complete owner u t checksum = .ok (s', r))
    (reserved : .reserved u t.objectId v f ∈ s.history) (hf : s.Hashed u t checksum) :
    Alters added s s' := by
  obtain ⟨aims, none, hashed⟩ := hf
  obtain ⟨session, _, ⟨_, rfl, _⟩ | ⟨_, _, _, _, rfl⟩⟩ := complete_ok h
  case inl => exact Tames.refl.alters
  case inr =>
    refine .readied (aims.upload ▸ reserved) none fun b x hb hx => ?_
    exact ⟨(hashed b hb).left, (hashed b hb).right.trans (aims.size hx).symm⟩

-- What a step makes of the store and of what its call knows.
structure Store.Refills (s s' : Store) (knows : Store → Prop) : Prop where
  alters : ∃ added, Alters added s s' ∧
    ∀ w, added w → ∀ x, s'.objects.lookup w.objectId = some x → w.size = x.size
  own    : knows s'

theorem Store.Tames.refills {knows : Store → Prop} (t : Tames (fun _ => False) s s')
    (h : knows s') : s.Refills s' knows :=
  ⟨⟨_, t.alters, fun _ hw => hw.elim⟩, h⟩

variable [Collation]

theorem Finalize.Moves.refills {c : Finalize} {k : Option Finalize} (m : c.Moves s env s' k)
    (h : s.Filled) (hp : s.Proper) (hr : s.Recorded) (hb : c.Bound s) (hf : c.Fits s) :
    s.Refills s' fun s' => ∀ c', k = some c' → c'.Fits s' := by
  have same {stage} (h : Finalize.Fits s { c with stage }) :
      s.Refills s fun s' => ∀ c', c.goto stage = some c' → c'.Fits s' :=
    Tames.refl.refills fun _ he => Option.some.inj he ▸ h
  have upload {session : Session} (hx : s.sessions.lookup c.upload = some session) :
      c.upload = session.stagingKey + 1 := (h.keys hx).left
  cases m <;> simp only [Fits, Bound, *] at hf hb
  case stop                  => exact Tames.refl.refills (by simp)
  case again                 => exact Tames.log.refills (by simp)
  case answer                => exact Tames.log.refills (by simp)
  case resume hx _ _         => exact same ⟨upload hx, fun o ho => h.pending hx ho⟩
  case readFile              => exact same hf.left
  case locate                => exact same ⟨hf.left, hf.right _ rfl⟩
  case readObject session row _ o _ hx ho =>
    have key : row.stagingKey = session.stagingKey := Nat.succ.inj ((upload hx).symm.trans hf)
    exact same ⟨hf, key ▸ h.pending hx ho⟩
  case select session _ _ o _ ho =>
    refine same ⟨hf.left, hf.right, fun hx => ?_⟩
    cases ho.symm.trans hx
    rfl
  case find t _ _ hp         =>
    refine same ⟨hf, Option.eq_none_iff_forall_ne_some.mpr fun b hs => ?_⟩
    simp [hf.pending.moved hs] at hp
  case missSource none       => exact same ⟨hf, none⟩
  case hash t bytes _ hs hl  =>
    refine same ⟨hf.left, hf.right, fun b hs' => ?_⟩
    cases hs.symm.trans hs'
    exact ⟨rfl, hl⟩
  case mismatch              => exact same trivial
  case reserve session _ hx _ _ hs =>
    obtain ⟨_, files, f, rfl, _⟩ := reserve_ok hs
    refine ⟨⟨_, Tames.reserve.alters, ?_⟩, fun c' he => ?_⟩
    case refine_1 =>
      rintro w ⟨ho, size⟩ x hx
      rw [ho] at hx
      simp only [reservation, Table.lookup_set, if_true, Option.some.injEq] at hx
      rw [size, ← hx]
    case refine_2 =>
      cases he
      refine ⟨upload hx, fun o ho => ?_⟩
      obtain ⟨v, f', reserved⟩ := hr.storage hx ho
      exact (h.pending hx ho).alter hr (upload hx ▸ reserved) (Tames.reserve.alters (s := s))
  case rename t bytes _ staged =>
    obtain ⟨_, v, reserved⟩ := hb
    have reserved := hf.upload ▸ reserved
    have moved : Alters (fun _ => False) s _ := Alters.rename reserved hf.pending staged
    refine ⟨⟨_, moved, fun _ hw => hw.elim⟩, fun c' he => ?_⟩
    cases he
    exact ⟨hf.alter hr (hf.upload ▸ reserved) moved, by simp⟩
  case complete hc           =>
    obtain ⟨_, v, reserved⟩ := hb
    exact ⟨⟨fun _ => False, .complete hc reserved hf, fun _ hw => hw.elim⟩,
      fun c' he => by cases he; trivial⟩
  case index hc _            =>
    obtain ⟨_, v, reserved⟩ := hb
    exact ⟨⟨fun _ => False, .log (.complete hc reserved hf), fun _ hw => hw.elim⟩,
      fun c' he => by cases he; trivial⟩
  case already hc            =>
    obtain ⟨session, _, ⟨_, rfl, _⟩ | ⟨_, _, _, he, _⟩⟩ := complete_ok hc
    case inl => exact Tames.log.refills (by simp)
    case inr => cases he
  case reject hj             =>
    exact (Tames.reject hj).refills fun c' he => by cases he; trivial
  case unlink                => exact Tames.unlink.refills (by simp)
  all_goals exact same hf

omit [Digest] in
theorem Store.Tames.insertCopies {c : Copy} (h : s.insertCopies env c = .ok s') :
    Tames (fun w => ∃ f ∈ c.copied, f.version = some (w.objectId, w.size)) s s' := by
  refine Except.foldlM_invariant (P := Tames _ s) h .refl fun t f t' hf ht hc => ht.trans ?_
  obtain ⟨_, rfl⟩ | ⟨o, size, hv, _, rfl⟩ := insertCopy_ok hc
  case inl => exact .of_rows (Nat.le_add_right _ _) rfl .inl id rfl rfl
  case inr => exact Tames.attach.mono fun w hw => ⟨f, hf, hw ▸ hv⟩

omit [Digest] [Collation] in
theorem Store.Tames.sweep {c : Sweep} : Tames added s (c.next s env).1 := by
  rw [Sweep.next]
  split
  case h_1 => exact .refl
  case h_2 =>
    split
    case isTrue  => exact .unlink
    case isFalse => split <;> exact .refl
  case h_3 =>
    split
    case h_1 => exact .refl
    case h_2 hd =>
      obtain rfl | hd := deleteMarked_ok hd
      case inl => exact .refl
      case inr => exact .deleteObject hd

omit [Digest] [Collation] in
-- What a link and a copy hold has been read from the rows.
theorem sizes_of_matchingObjects {o size : Nat} {checksum : String} (hp : s.Proper)
    (h : o ∈ s.matchingObjects checksum size) : s.Sizes o size := by
  simp only [matchingObjects, List.mem_filterMap, Prod.exists, Option.ite_none_right_eq_some,
    Option.some.injEq] at h
  obtain ⟨_, x, hm, ⟨_, _, hs⟩, rfl⟩ := h
  have hx := Table.lookup_eq_some_iff.mpr hm
  refine ⟨hp.objectIds hx, fun y hy => ?_⟩
  cases hx.symm.trans hy
  exact hs.symm

omit [Collation] in
theorem sizes_of_copySource {owner o size : Nat} {job : CopyFile} {f : CopiedFile} (h : s.Filled)
    (hp : s.Proper) (hc : s.copySource owner job = some f) (hv : f.version = some (o, size)) :
    s.Sizes o size := by
  simp only [copySource] at hc
  split at hc <;> try contradiction
  split at hc <;> cases hc
  case h_2.isFalse.refl =>
    obtain ⟨w, hw, he⟩ := Option.map_eq_some_iff.mp hv
    cases he
    obtain ⟨hw, hx⟩ := Option.filter_eq_some_iff.mp hw
    obtain ⟨v, _, hw⟩ := Option.bind_eq_some_iff.mp hw
    obtain ⟨x, hx⟩ := Option.isSome_iff_exists.mp hx
    exact ⟨hp.objectIds hx, fun y hy => h.versions hw hy⟩

theorem Link.next_refills {c : Link} {k : Option Link} (hp : s.Proper)
    (hf : (Call.link c).Fits s) (hn : c.next s env = some (s', k)) :
    s.Refills s' fun s' => ∀ c', k.map Call.link = some c' → c'.Fits s' := by
  rw [Link.next] at hn
  split at hn
  case h_1 hc =>
    split at hn
    case isTrue => cases hn; exact Tames.refl.refills (by simp)
    case isFalse =>
      obtain ⟨object, hl, he⟩ := Option.map_eq_some_iff.mp hn
      cases he
      refine Tames.refl.refills fun c' he => ?_
      obtain ⟨_, hd, rfl⟩ := Option.map_eq_some_iff.mp he
      obtain ⟨o, rfl, rfl⟩ := Option.map_eq_some_iff.mp hd
      rintro _ ⟨⟩
      exact sizes_of_matchingObjects hp (limitOne_mem hl)
  case h_2 o hc =>
    split at hn <;> cases hn
    case h_2 => exact Tames.refl.refills (by simp)
    case h_1 hl =>
      obtain ⟨_, files, f, rfl, _⟩ := linkObject_ok hl
      refine ⟨⟨_, Tames.attach.alters, ?_⟩, by simp⟩
      rintro _ rfl x hx
      exact (hf o hc).right x hx

theorem Copy.next_refills {c : Copy} (h : s.Filled) (hp : s.Proper) (hf : (Call.copy c).Fits s) :
    s.Refills (c.next s env).1 fun s' =>
      ∀ c', (c.next s env).2.map Call.copy = some c' → c'.Fits s' := by
  rw [Copy.next]
  split
  case h_1 job todo _ =>
    split
    case h_1 => exact Tames.refl.refills (by simp)
    case h_2 f hs =>
      refine Tames.refl.refills fun c' he => ?_
      cases he
      intro g hg o size hv
      rcases List.mem_append.mp hg with hg | hg
      case inl => exact hf g hg o size hv
      case inr =>
        cases List.mem_singleton.mp hg
        exact sizes_of_copySource h hp hs hv
  case h_2 =>
    split
    case h_1 => exact Tames.refl.refills (by simp)
    case h_2 t ht =>
      have alters := (Tames.insertCopies ht).alters
      refine ⟨⟨_, alters, ?_⟩, by simp⟩
      rintro w ⟨f, hm, hv⟩ x hx
      exact ((hf f hm _ _ hv).alter alters).right x hx

theorem Call.next_refills {c : Call} {k : Option Call} (h : s.Filled) (hp : s.Proper)
    (hr : s.Recorded) (hb : c.Bound s) (hf : c.Fits s) (hn : c.next s env = some (s', k)) :
    s.Refills s' fun s' => ∀ c', k = some c' → c'.Fits s' := by
  have same {c' : Call} (hf : c'.Fits s) :
      s.Refills s fun s' => ∀ d, some c' = some d → d.Fits s' :=
    Tames.refl.refills fun _ he => Option.some.inj he ▸ hf
  cases c <;> simp only [Call.next] at hn
  case finalize c =>
    obtain ⟨⟨t, k'⟩, hm, he⟩ := Option.map_eq_some_iff.mp hn
    cases he
    obtain ⟨alters, own⟩ := (Finalize.next_moves hm).refills h hp hr hb hf
    refine ⟨alters, fun c' he => ?_⟩
    obtain ⟨d, rfl, rfl⟩ := Option.map_eq_some_iff.mp he
    exact own d rfl
  case link c =>
    obtain ⟨⟨t, k'⟩, hm, he⟩ := Option.map_eq_some_iff.mp hn
    cases he
    exact Link.next_refills hp hf hm
  case copy c =>
    cases hn
    exact Copy.next_refills h hp hf
  case purge => cases hn; exact same trivial
  case purgeObjects tree objects =>
    split at hn <;> cases hn
    case h_1 => exact Tames.refl.refills (by simp)
    case h_2 hd =>
      obtain ⟨t, ht, hd⟩ := Except.bind_eq_ok_iff.mp hd
      refine Tames.refills ?_ fun _ he => by cases he; trivial
      exact (Tames.deleteVersions.trans (.deleteFiles ht)).trans (.deleteFolders hd)
  case mark cutoff candidates =>
    cases hn
    exact Tames.markDeleting.refills fun _ he => by cases he; trivial
  case sweep c =>
    cases hn
    refine Tames.sweep.refills fun c' he => ?_
    obtain ⟨d, _, rfl⟩ := Option.map_eq_some_iff.mp he
    trivial

omit [Collation] in
theorem Request.start_refills {r : Request} {k : Option Call} (hr : r.start s = some (s', k)) :
    s.Refills s' fun s' => ∀ c, k = some c → c.Fits s' := by
  cases r <;> simp only [Request.start] at hr
  case upload =>
    obtain ⟨t, ht, he⟩ := Option.map_eq_some_iff.mp hr
    cases he
    exact (Tames.createUpload ht).refills fun _ he => by contradiction
  case entry =>
    cases hr
    refine Tames.refills ?_ fun _ he => by contradiction
    exact .of_rows (Nat.le_refl _) rfl .inl id rfl rfl
  case link =>
    split at hr <;> cases hr
    case h_1 => exact Tames.refl.refills fun _ he => by cases he; exact fun _ ho => by contradiction
    case h_2 => exact Tames.refl.refills (by simp)
  case copy =>
    cases hr
    exact Tames.refl.refills fun _ he => by cases he; exact fun _ hf => by contradiction
  all_goals
    cases hr
    exact Tames.refl.refills fun _ he => by cases he; trivial

-- The invariants of the rows, and of what has been put into the objects.
structure Store.Whole (s : Store) : Prop where
  recorded : s.Recorded
  proper   : s.Proper
  filled   : s.Filled

namespace System

variable {s s' : System} {a : Action}

theorem whole_init : Shared.Holds Store.Whole (fun s c => c.Bound s ∧ c.Fits s) init where
  store   := ⟨recorded_init.store, proper_reaches .refl, by constructor <;> intros <;> contradiction⟩
  calls h := by contradiction

theorem whole_step (h : Shared.Holds Store.Whole (fun s c => c.Bound s ∧ c.Fits s) s)
    (hs : s.step a = some s') : Shared.Holds Store.Whole (fun s c => c.Bound s ∧ c.Fits s) s' := by
  obtain ⟨recorded, proper, filled⟩ := h.store
  have whole {t : Store} {knows : Store → Prop} (hr : t.Recorded) (hp : t.Proper)
      (r : s.store.Refills t knows) : t.Whole := by
    obtain ⟨added, alters, sizes⟩ := r.alters
    exact ⟨hr, hp, filled.alter proper recorded alters sizes⟩
  have others {t : Store} {knows : Store → Prop} {c : Call} (g : s.store.Extends t)
      (r : s.store.Refills t knows) (hc : c.Bound s.store ∧ c.Fits s.store) : c.Bound t ∧ c.Fits t := by
    obtain ⟨added, alters, _⟩ := r.alters
    exact ⟨hc.left.extend g, hc.right.alter recorded hc.left alters⟩
  refine h.step (fun {i r t k} _ hq => ?start) (fun {i e c t k} _ hc hb hn => ?next) hs
  case start =>
    obtain ⟨follow, hb⟩ := Request.start_follow recorded hq
    have r := Request.start_refills hq
    exact ⟨whole follow.recorded (Request.start_proper proper hq) r, fun h => ⟨hb _ h, r.own _ h⟩,
      others follow.extend r⟩
  case next =>
    obtain ⟨follow, hb'⟩ := Call.next_follow recorded hb.left hn
    have r := Call.next_refills filled proper recorded hb.left hb.right hn
    exact ⟨whole follow.recorded (Call.next_proper proper hn) r, fun h => ⟨hb' _ h, r.own _ h⟩,
      others follow.extend r⟩

theorem filled_reaches (e : Reaches step init s) : s.store.Filled :=
  (e.invariant whole_init fun h _ hs => whole_step h hs).store.filled

end System
end MyDrive.Transfers
