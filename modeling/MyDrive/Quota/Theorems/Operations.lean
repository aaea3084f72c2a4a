import MyDrive.Quota.Operations
import MyDrive.Quota.Theorems.Agreement
import MyDrive.Quota.Theorems.Usage

namespace MyDrive.Transfers.Store

variable {s s' : Store} {a owner : Id} {now : Time} {env : Env}

theorem createUpload_frame {session : Session} {bytes : List UInt8}
    (hs : s.createUpload session bytes = some s') :
    s'.files = s.files ∧ s'.versions = s.versions ∧ s'.objects = s.objects := by
  obtain ⟨x, -, -, -, -, rfl⟩ := createUpload_some hs
  exact ⟨rfl, rfl, rfl⟩

theorem reserved_createUpload {session : Session} {bytes : List UInt8} (h : s.Proper)
    (hs : s.createUpload session bytes = some s') :
    s'.reservedBytes a now = s.reservedBytes a now +
      if session.ownerId = a ∧ now < session.expiresAt then session.expectedSize else 0 := by
  have fresh : s.pledged a now (s.next + 1) = 0 := by
    apply Table.weight_of_none
    apply Option.eq_none_iff_forall_ne_some.mpr
    intro x hx
    exact absurd (h.sessionIds hx) (Nat.not_lt_of_le (Nat.le_add_right _ _))
  rw [createUpload] at hs
  split at hs <;> try contradiction
  have own : s'.pledged a now (s.next + 1) =
      if session.ownerId = a ∧ now < session.expiresAt then session.expectedSize else 0 := by
    cases hs
    rw [pledged_of_lookup (Table.lookup_set.trans (if_pos rfl))]
    simp [Session.reserves]
  have others (w : Id) (hw : w ≠ s.next + 1) : s'.pledged a now w = s.pledged a now w := by
    cases hs
    simp [pledged, Table.weight, hw]
  have sum := reserved_of_session (s.next + 1) others
  rwa [fresh, Nat.add_zero, own] at sum

variable [Collation]

-- The bytes of a copied file, if its object is ready.
def copiedBytes (s : Store) (f : CopiedFile) : Nat :=
  f.version.elim 0 fun v => if (s.objects.lookup v.1).any (·.state = .ready) then v.2 else 0

theorem used_insertCopy {f : CopiedFile} (h : s.Proper) (hs : insertCopy owner env s f = .ok s') :
    s'.usedBytes a = s.usedBytes a + (if owner = a then s.copiedBytes f else 0) := by
  have fresh : s.held a (s.next + 1) = 0 := held_of_fresh h (Nat.le_add_right _ _)
  obtain ⟨hv, rfl⟩ | ⟨o, n, hv, ⟨x, hx⟩, rfl⟩ := insertCopy_ok hs
  case inl =>
    simp only [copiedBytes, hv, Option.elim_none, ite_self, Nat.add_zero]
    apply used_congr
    intro g
    by_cases hg : g = s.next + 1
    case neg => exact held_of_old h (by simp [hg]) (fun _ _ => rfl) fun _ _ => rfl
    case pos =>
      subst hg
      rw [fresh, held_of_lookup (by simp; rfl)]
      simp [currentBytes]
  case inr =>
    let file : File := { ownerId := owner, parentId := f.parentId, name := f.name }
    have grown := used_attached (a := a) (f := s.next + 1) (x := file) (o := x)
      (v := { fileId := s.next + 1, objectId := o, size := n, createdAt := env.startedAt }) h
      (fun g hg => Table.lookup_set.trans (if_neg hg)) (Table.lookup_set.trans (if_pos rfl)) hx
    rw [fresh] at grown
    simp only [copiedBytes, hv, Option.elim_some, hx, Option.any_some, decide_eq_true_eq, ← ite_and]
    exact grown

theorem insertCopy_frame {f : CopiedFile} (hs : insertCopy owner env s f = .ok s') :
    s'.objects = s.objects ∧ s'.sessions = s.sessions := by
  obtain ⟨-, rfl⟩ | ⟨o, n, -, -, rfl⟩ := insertCopy_ok hs <;> exact ⟨rfl, rfl⟩

theorem used_insertCopies {c : Copy} (h : s.Proper) (hs : s.insertCopies env c = .ok s') :
    s'.usedBytes a = s.usedBytes a +
      (if c.owner = a then (c.copied.map s.copiedBytes).sum else 0) ∧ s'.sessions = s.sessions := by
  obtain ⟨owner, todo, copied⟩ := c
  simp only [insertCopies] at hs ⊢
  induction copied generalizing s
  case nil => cases hs; simp
  case cons f fs ih =>
    rw [List.foldlM_cons] at hs
    obtain ⟨t, ht, hs⟩ := Except.bind_eq_ok_iff.mp hs
    obtain ⟨objects, sessions⟩ := insertCopy_frame ht
    have copied : t.copiedBytes = s.copiedBytes := by
      funext f
      simp [copiedBytes, objects]
    obtain ⟨hu, hr⟩ := ih (h.insertCopy ht) hs
    refine ⟨?_, hr.trans sessions⟩
    rw [hu, used_insertCopy h ht, copied]
    split
    case isTrue  => simp only [List.map_cons, List.sum_cons]; omega
    case isFalse => rfl

theorem owner_of_existingFile {c : Link} {f : Id} {o : StorageObject}
    (h : s.existingFile c = some (f, o)) : ∃ x, s.files.lookup f = some x ∧ x.ownerId = c.owner := by
  obtain ⟨⟨g, x⟩, hm, hx⟩ := List.exists_of_findSome?_eq_some h
  dsimp only at hx
  split at hx <;> try contradiction
  case isTrue hn =>
    obtain ⟨v, -, hv⟩ := Option.bind_eq_some_iff.mp hx
    obtain ⟨w, -, he⟩ := Option.map_eq_some_iff.mp hv
    cases he
    simp only [sameName, Bool.and_eq_true, decide_eq_true_eq] at hn
    exact ⟨x, Table.lookup_eq_some_iff.mpr hm, hn.left.left.left.left⟩

theorem used_linkObject {c : Link} {objectId : Id} (h : s.Proper)
    (hs : s.linkObject env c objectId = .ok (some s')) :
    s'.usedBytes a + (s.existingFile c).elim 0 (fun f => s.held a f.1) = s.usedBytes a +
      (if c.owner = a ∧ (s.objects.lookup objectId).any (·.state = .ready) then c.size else 0) := by
  obtain ⟨⟨o, ho⟩, files, f, rfl, ⟨⟨w, he⟩, rfl⟩ | ⟨he, rfl, rfl⟩⟩ := linkObject_ok hs
  case inl =>
    obtain ⟨x, hx, hw⟩ := owner_of_existingFile he
    have grown := used_attached (a := a) (f := f) (o := o)
      (v := { fileId := f, objectId, size := c.size, createdAt := env.startedAt }) h
      (fun _ _ => rfl) hx ho
    simpa [he, ho, hw] using grown
  case inr =>
    let file : File := { ownerId := c.owner, parentId := c.parentId, name := c.name }
    have grown := used_attached (a := a) (f := s.next + 1) (x := file) (o := o)
      (v := { fileId := s.next + 1, objectId, size := c.size, createdAt := env.startedAt }) h
      (fun g hg => Table.lookup_set.trans (if_neg hg)) (Table.lookup_set.trans (if_pos rfl)) ho
    rw [held_of_fresh h (Nat.le_add_right _ _)] at grown
    simpa [he, ho, file] using grown

theorem sessions_linkObject {c : Link} {objectId : Id}
    (hs : s.linkObject env c objectId = .ok (some s')) : s'.sessions = s.sessions := by
  obtain ⟨-, files, f, rfl, -⟩ := linkObject_ok hs
  rfl

end MyDrive.Transfers.Store

namespace MyDrive.Quota.Books

open Transfers

variable {b : Books} {ownerQuota : UInt64} {id : Id} {now : Time} {a : Account} {s' : Store}

-- Used and reserved bytes, as `create_upload` counts them.
def total (b : Books) (id : Id) (now : Time) : Nat :=
  b.store.usedBytes id + (b.store.reservedBytes id now + b.committingBytes id)

def Within (b : Books) (ownerQuota : UInt64) (id : Id) (now : Time) (a : Account) : Prop :=
  b.total id now ≤ limit ownerQuota a

def expected (s : Store) (id upload : Id) : Nat :=
  s.sessions.weight (fun _ u => if u.ownerId = id then u.expectedSize else 0) upload

theorem expected_of_lookup {s : Store} {upload : Id} {u : Session}
    (h : s.sessions.lookup upload = some u) :
    expected s id upload = if u.ownerId = id then u.expectedSize else 0 :=
  Table.weight_of_lookup h

theorem replacement_some {s : Store} {owner upload : Id} {u : Session}
    (h : replacement s owner upload = some u) :
    s.sessions.lookup upload = some u ∧ u.replaceFileId.isSome := by
  obtain ⟨h, hr⟩ := Option.filter_eq_some_iff.mp h
  cases hf : s.fetchUploadForUpdate owner upload <;> rw [hf] at h <;> cases h
  exact ⟨(Store.fetchUploadForUpdate_ok hf).left, hr⟩

theorem limitOne_row {rows : List Id} {row r : Option Id} (h : limitOne rows row = some r) : row = r := by
  unfold limitOne at h
  split at h <;> split at h <;> cases h <;> rfl

section

variable [Collation] {op : Operation}

-- The bytes that an operation adds to the account.
def added (b : Books) (id : Id) (now : Time) : Operation → Nat
  | .copy _ c              => if c.owner = id then (c.copied.map b.store.copiedBytes).sum else 0
  | .link _ c objectId     =>
    if c.owner = id ∧ (b.store.objects.lookup objectId).any (·.state = .ready) then c.size else 0
  | .create session _      =>
    if session.ownerId = id ∧ now < session.expiresAt then session.expectedSize else 0
  | .reserve _ _ upload    => expected b.store id upload
  | .complete _ _ t _      => b.store.gained id t.objectId
  | .reject row _ _ t      =>
    b.store.files.weight (fun _ f => if f.ownerId = id then row.elim 0 b.store.readyBytes else 0) t.fileId

-- The bytes that it takes away again.
def freed (b : Books) (id : Id) (now : Time) : Operation → Nat
  | .copy _ _              => 0
  | .link _ c _            => (b.store.existingFile c).elim 0 fun f => b.store.held id f.1
  | .create _ _            => 0
  | .reserve _ _ upload    => b.store.pledged id now upload +
    (b.store.sessions.lookup upload).elim 0 fun u => u.replaceFileId.elim 0 (b.store.held id)
  | .complete _ upload _ _ => expected b.store id upload
  | .reject _ _ upload t   => expected b.store id upload + b.store.held id t.fileId

section

variable {u : Session} {owner upload : Id} {env : Env} {t : Target} {sum : String} {row : Option Id}

theorem total_reserve (h : b.store.Proper) (hu : b.store.sessions.lookup upload = some u)
    (hs : b.store.reserve env owner upload u = .ok s') :
    total { b with store := s' } id now + b.freed id now (.reserve env owner upload) =
      b.total id now + b.added id now (.reserve env owner upload) := by
  have used := Store.used_reserve (a := id) h hs
  have reserved := Store.reserved_reserve id now hu hs
  simp only [total, freed, added, hu, Option.elim_some, expected_of_lookup hu, committingBytes]
  omega

theorem total_complete (hs : b.store.complete owner upload t sum = .ok (s', none)) :
    total { b with store := s' } id now + b.freed id now (.complete owner upload t sum) =
      b.total id now + b.added id now (.complete owner upload t sum) := by
  have used := Store.used_complete (a := id) hs
  obtain ⟨u, hu, -, -, -, reserved⟩ := Store.reserved_complete id now hs
  simp only [total, freed, added, expected_of_lookup hu, committingBytes]
  omega

theorem total_reject (h : b.store.Proper) (hu : b.store.sessions.lookup upload = some u)
    (hr : u.replaceFileId.isSome)
    (hs : b.store.rejectMismatchedUpload row owner upload t = some (.ok (some s'))) :
    total { b with store := s' } id now + b.freed id now (.reject row owner upload t) =
      b.total id now + b.added id now (.reject row owner upload t) := by
  obtain ⟨u', hu', -, -, -, ⟨previous, -, hp, reserved, used⟩ | ⟨hn, -⟩⟩ :=
    Store.reject_usage id now h hs
  all_goals
    rw [hu] at hu'
    cases hu'
  case inr => simp [hn] at hr
  case inl =>
    cases limitOne_row hp
    simp only [total, freed, added, expected_of_lookup hu, committingBytes]
    omega

end

theorem total_perform (id : Id) (h : b.store.Proper) (hs : b.perform ownerQuota now op = some s') :
    total { b with store := s' } id now + b.freed id now op = b.total id now + b.added id now op := by
  cases op <;> simp only [perform, Option.bind_eq_some_iff] at hs
  case copy env c =>
    cases hc : b.store.insertCopies env c <;> rw [hc] at hs <;> cases hs
    obtain ⟨used, sessions⟩ := Store.used_insertCopies (a := id) h hc
    simp only [total, freed, added, used, committingBytes, Store.reservedBytes, sessions]
    omega
  case link env c objectId =>
    obtain ⟨r, hr, rfl⟩ := hs
    cases hl : b.linkContent ownerQuota now env c objectId <;> rw [hl] at hr <;> cases hr
    have used := Store.used_linkObject (a := id) h hl
    have sessions := Store.sessions_linkObject hl
    simp only [total, freed, added, committingBytes, Store.reservedBytes, sessions]
    omega
  case create session bytes =>
    split at hs <;> try contradiction
    obtain ⟨files, versions, objects⟩ := Store.createUpload_frame hs
    have used : s'.usedBytes id = b.store.usedBytes id := by
      unfold Store.usedBytes Store.currentBytes Store.readyBytes
      rw [files, versions, objects]
    simp only [total, freed, added, used, committingBytes, Store.reserved_createUpload h hs]
    omega
  case reserve env owner upload =>
    obtain ⟨u, hu, hs⟩ := hs
    split at hs <;> try contradiction
    cases hc : b.store.reserve env owner upload u <;> rw [hc] at hs <;> cases hs
    exact total_reserve h (replacement_some hu).left hc
  case complete owner upload t sum =>
    obtain ⟨u, -, ⟨w, r⟩, hr, hs⟩ := hs
    cases hc : b.store.complete owner upload t sum <;> rw [hc] at hr <;> cases hr
    split at hs <;> try contradiction
    case isTrue hn =>
      cases hs
      cases Option.isNone_iff_eq_none.mp hn
      exact total_complete hc
  case reject row owner upload t =>
    obtain ⟨u, hu, r, hr, w, hw, hs⟩ := hs
    obtain ⟨hu, hn⟩ := replacement_some hu
    cases r <;> cases hw
    cases hs
    exact total_reject h hu hn hr

-- What `create_upload` lets in fits. Nothing checks that what the other operations add does.
def Fits (b : Books) (ownerQuota : UInt64) (id : Id) (now : Time) (a : Account) : Operation → Prop
  | .create _ _ => True
  | op          => b.total id now + b.added id now op ≤ limit ownerQuota a + b.freed id now op

theorem create_fits {session : Session} {bytes : List UInt8} (ha : b.accounts.lookup id = some a)
    (hw : b.Within ownerQuota id now a)
    (hs : b.perform ownerQuota now (.create session bytes) = some s') :
    b.total id now + b.added id now (.create session bytes) ≤ limit ownerQuota a := by
  rw [perform] at hs
  split at hs <;> try contradiction
  case isTrue hc =>
    by_cases ho : session.ownerId = id
    case neg => simpa [added, ho, Within] using hw
    case pos =>
      have checked : b.createUpload ownerQuota id now session.expectedSize = .ok () := by
        rw [← ho]
        cases hk : b.createUpload ownerQuota session.ownerId now session.expectedSize
        case error => rw [hk] at hc; cases hc.right
        case ok    => rfl
      obtain ⟨-, -, -, hl⟩ := (createUpload_ok ha).mp checked
      simp only [added, total]
      split <;> omega

theorem within_perform_iff (h : b.store.Proper) (ha : b.accounts.lookup id = some a)
    (hw : b.Within ownerQuota id now a) (hs : b.perform ownerQuota now op = some s') :
    Within { b with store := s' } ownerQuota id now a ↔ b.Fits ownerQuota id now a op := by
  have total := total_perform id h hs
  cases op
  case create =>
    have room := create_fits ha hw hs
    simp only [Within, Fits, freed, iff_true] at *
    omega
  all_goals
    simp only [Within, Fits]
    omega

end

section

attribute [local instance] Collation.binary Digest.hi

def threeBytes : Account where
  role         := .member
  quotaBytes   := some 3
  member_quota := fun _ => rfl
  quota_le     := by rintro _ ⟨⟩; decide

-- A member uploads a file of two bytes, and copies it.
def uploaded : List Action :=
  let session := {
    ownerId := 7, filename := "a.txt", stagingKey := 0, expectedSize := 2, expiresAt := 10 }
  [.start 0 (.upload session [104, 105]), .start 0 (.finalize 7 1 none)] ++
  List.replicate 11 (.next 0 {})

def booksOf (a : Account) (s : System) : Books where
  accounts := Table.empty.set 7 a
  store    := s.store
  items    := .empty

def copyOf (s : System) : Operation :=
  .copy {} {
    owner  := 7
    todo   := []
    copied := (s.store.copySource 7 { source := 5, parentId := none, name := "b.txt" }).toList }

theorem copied (a : Account) : ∃ s s', Execution.Reaches System.step System.init s ∧
    (booksOf a s).perform 0 0 (copyOf s) = some s' ∧ (booksOf a s).total 7 0 = 2 ∧
    (booksOf a s).added 7 0 (copyOf s) = 2 ∧ total { booksOf a s with store := s' } 7 0 = 4 := by
  have run : (Execution.run System.step System.init uploaded).bind (fun s =>
      ((booksOf threeBytes s).perform 0 0 (copyOf s)).map fun s' =>
        [(booksOf threeBytes s).total 7 0, (booksOf threeBytes s).added 7 0 (copyOf s),
          total { booksOf threeBytes s with store := s' } 7 0]) = some [2, 2, 4] := by
    decide +kernel
  obtain ⟨s, hs, hp⟩ := Option.bind_eq_some_iff.mp run
  obtain ⟨s', hp, he⟩ := Option.map_eq_some_iff.mp hp
  simp only [List.cons.injEq, and_true] at he
  exact ⟨s, s', Execution.reaches_of_run hs, hp, he⟩

theorem within_perform_iff_copy : ∃ s s', (booksOf tenBytes s).perform 0 0 (copyOf s) = some s' ∧
    Within { booksOf tenBytes s with store := s' } 0 7 0 tenBytes := by
  obtain ⟨s, s', hr, hp, ht, ha, -⟩ := copied tenBytes
  have ten : limit 0 tenBytes = 10 := rfl
  have within : (booksOf tenBytes s).Within 0 7 0 tenBytes := by
    rw [Within, ht, ten]
    decide
  have fits : (booksOf tenBytes s).Fits 0 7 0 tenBytes (copyOf s) := by
    change _ + _ ≤ limit 0 tenBytes + 0
    rw [ht, ha, ten]
    decide
  exact ⟨s, s', hp, (within_perform_iff (System.proper_reaches hr) rfl within hp).mpr fits⟩

theorem copy_exceeds_quota : ∃ s s', Execution.Reaches System.step System.init s ∧
    (booksOf threeBytes s).Within 0 7 0 threeBytes ∧
    (booksOf threeBytes s).perform 0 0 (copyOf s) = some s' ∧
    ¬Within { booksOf threeBytes s with store := s' } 0 7 0 threeBytes := by
  obtain ⟨s, s', hr, hp, ht, -, ht'⟩ := copied threeBytes
  have three : limit 0 threeBytes = 3 := rfl
  refine ⟨s, s', hr, ?_, hp, ?_⟩
  case refine_1 => rw [Within, ht, three]; decide
  case refine_2 => rw [Within, ht', three]; decide

end
end MyDrive.Quota.Books
