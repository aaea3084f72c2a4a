import MyDrive.Quota.System
import MyDrive.Quota.Theorems.Agreement
import MyDrive.Quota.Theorems.Operations
import MyDrive.Transfers.Theorems.Backed

namespace MyDrive.Transfers.Store

variable {s s' : Store} {a u f o : Id} {now now' : Time}

def spent (s : Store) (a : Id) (now : Time) : Nat :=
  s.usedBytes a + s.reservedBytes a now

-- No account holds or reserves more than before.
def Shrinks (now : Time) (s s' : Store) : Prop :=
  ∀ a, s'.spent a now ≤ s.spent a now

theorem used_of_rows (hf : s'.files = s.files) (hv : s'.versions = s.versions)
    (ho : s'.objects = s.objects) : s'.usedBytes a = s.usedBytes a := by
  unfold usedBytes currentBytes readyBytes
  rw [hf, hv, ho]

theorem Shrinks.of_sessions (hf : s'.files = s.files) (hv : s'.versions = s.versions)
    (ho : s'.objects = s.objects) (hp : ∀ a u, s'.pledged a now u ≤ s.pledged a now u) :
    Shrinks now s s' := by
  intro a
  have used : s'.usedBytes a = s.usedBytes a := used_of_rows hf hv ho
  have reserved : s'.reservedBytes a now ≤ s.reservedBytes a now := Table.sum_le_sum (hp a)
  exact Nat.add_le_add used.le reserved

theorem Shrinks.of_rows (hf : s'.files = s.files) (hv : s'.versions = s.versions)
    (ho : s'.objects = s.objects) (hx : s'.sessions = s.sessions) : Shrinks now s s' := by
  apply Shrinks.of_sessions hf hv ho
  intro a u
  unfold pledged
  rw [hx]

-- Time only ends reservations.
theorem reserved_antitone (h : now ≤ now') : s.reservedBytes a now' ≤ s.reservedBytes a now := by
  apply Table.sum_le_sum
  intro u
  unfold Table.weight
  cases s.sessions.lookup u
  case none   => exact Nat.le_refl _
  case some x =>
    simp only [Option.elim_some]
    split
    case isFalse => exact Nat.zero_le _
    case isTrue hx =>
      have before : x.reserves now := by
        have := hx.right
        simp only [Session.reserves, Bool.or_eq_true, Bool.and_eq_true, decide_eq_true_eq] at this ⊢
        exact this.imp_right fun hl => ⟨hl.left, Nat.lt_of_le_of_lt h hl.right⟩
      rw [if_pos ⟨hx.left, before⟩]

section

variable {x : Session}

theorem waitingBytes_le (h : s.Proper) (hb : s.Backed) (hx : s.sessions.lookup u = some x)
    (hs : x.state = .finalizing) (ho : x.storageObjectId = some o) (hf : x.finalFileId = some f)
    {g : Id} {y : File} (hy : s.files.lookup g = some y) :
    y.currentVersion.elim 0 (s.waitingBytes o) ≤ if g = f then x.expectedSize else 0 := by
  cases hv : y.currentVersion
  case none   => exact Nat.zero_le _
  case some v =>
    obtain ⟨w, hw, hg⟩ := h.current hy hv
    simp only [Option.elim_some, waitingBytes, hw]
    split
    case isFalse => exact Nat.zero_le _
    case isTrue he =>
      obtain ⟨hz, hi⟩ := hb.version hx hs ho hw he
      have same : g = f := by
        rw [hf] at hi
        cases hi
        exact hg.symm
      rw [if_pos same, hz]

-- What an upload that is being finalized waits for is what it has reserved.
theorem waiting_le (h : s.Proper) (hb : s.Backed) (hx : s.sessions.lookup u = some x)
    (hs : x.state = .finalizing) (ho : x.storageObjectId = some o) (hf : x.finalFileId = some f) :
    s.waiting a o ≤ if x.ownerId = a then x.expectedSize else 0 := by
  let bytes (_ : Id) (y : File) : Nat :=
    if y.ownerId = a then y.currentVersion.elim 0 (s.waitingBytes o) else 0
  have others (g : Id) (hg : g ≠ f) : s.files.weight bytes g = 0 := by
    cases hy : s.files.lookup g
    case none   => rw [Table.weight_of_none hy]
    case some y =>
      rw [Table.weight_of_lookup hy]
      have := waitingBytes_le h hb hx hs ho hf hy
      rw [if_neg hg] at this
      simp only [bytes, Nat.le_zero.mp this, ite_self]
  have own : s.files.weight bytes f ≤ if x.ownerId = a then x.expectedSize else 0 := by
    cases hy : s.files.lookup f
    case none   => rw [Table.weight_of_none hy]; exact Nat.zero_le _
    case some y =>
      rw [Table.weight_of_lookup hy]
      have := waitingBytes_le h hb hx hs ho hf hy
      rw [if_pos rfl] at this
      simp only [bytes, hb.owner hx hs hf hy]
      split <;> omega
  exact Nat.le_trans (Table.sum_le_weight f others) own

theorem Shrinks.complete {owner upload : Id} {t : Target} {checksum : String} {r : Option Id}
    (h : s.Proper) (hb : s.Backed) (hs : s.complete owner upload t checksum = .ok (s', r)) :
    Shrinks now s s' := by
  cases r
  case some =>
    obtain ⟨x, -, ⟨-, rfl, -⟩ | ⟨-, -, -, hr, -⟩⟩ := complete_ok hs
    case inl => exact fun _ => Nat.le_refl _
    case inr => contradiction
  case none =>
    intro a
    have used := used_complete (a := a) hs
    obtain ⟨x, hx, hf, hi, ho, reserved⟩ := reserved_complete a now hs
    have gain : s.gained a t.objectId ≤ if x.ownerId = a then x.expectedSize else 0 := by
      unfold gained
      split
      case isTrue  => exact waiting_le h hb hx hf ho hi
      case isFalse => exact Nat.zero_le _
    unfold spent
    omega

theorem Shrinks.reserve [Collation] {env : Env} {owner upload : Id} (h : s.Proper)
    (hx : s.sessions.lookup upload = some x) (ha : x.state = .active) (he : now < x.expiresAt)
    (hs : s.reserve env owner upload x = .ok s') : Shrinks now s s' := by
  intro a
  have used := used_reserve (a := a) h hs
  have reserved := reserved_reserve a now hx hs
  have own : s.pledged a now upload = if x.ownerId = a then x.expectedSize else 0 := by
    rw [pledged_of_lookup hx]
    simp [Session.reserves, ha, he]
  unfold spent
  omega

-- The bytes that the rejection of a replacement brings back.
theorem restored_le {upload : Id} {previous : Option Id} (hb : s.Backed)
    (hx : s.sessions.lookup upload = some x) (hf : x.state = .finalizing) (hi : x.finalFileId = some f)
    (hp : previous.elim 0 s.readyBytes ≤
      x.expectedSize + (s.currentVersion f).elim 0 s.readyBytes) :
    s.files.weight (fun _ y => if y.ownerId = a then previous.elim 0 s.readyBytes else 0) f ≤
      (if x.ownerId = a then x.expectedSize else 0) + s.held a f := by
  cases hy : s.files.lookup f
  case none   => rw [Table.weight_of_none hy]; exact Nat.zero_le _
  case some y =>
    have current : s.currentVersion f = y.currentVersion := by simp [currentVersion, hy]
    rw [Table.weight_of_lookup hy, held_of_lookup hy, hb.owner hx hf hi hy]
    rw [current] at hp
    split
    case isTrue  => exact hp
    case isFalse => exact Nat.zero_le _

theorem Shrinks.reject {row : Option Id} {owner upload : Id} {t : Target} (h : s.Proper) (hb : s.Backed)
    (hr : ∀ x, s.sessions.lookup upload = some x → x.replaceFileId.isSome → row.elim 0 s.readyBytes ≤
      x.expectedSize + (s.currentVersion t.fileId).elim 0 s.readyBytes)
    (hs : s.rejectMismatchedUpload row owner upload t = some (.ok (some s'))) : Shrinks now s s' := by
  intro a
  obtain ⟨x, hx, hf, hi, le, ⟨previous, hn, hp, eq, used⟩ | ⟨-, used⟩⟩ :=
    reject_usage a now h hs
  case inl =>
    cases Quota.Books.limitOne_row hp
    have := restored_le (a := a) hb hx hf hi (hr x hx hn)
    unfold spent
    omega
  case inr =>
    unfold spent
    omega

end
end MyDrive.Transfers.Store

namespace MyDrive.Quota

open Transfers Books

-- The bytes that a transaction may still reserve.
def Transaction.pending (t : Transaction) : Nat :=
  match t.checked, t.job with
  | true, .create session => session.expectedSize
  | _, _                  => 0

namespace Ledger

def pending (s : Ledger) (id : Id) : Nat :=
  s.locks.weight (fun _ t => t.pending) id

def spent (s : Ledger) (id : Id) : Nat :=
  s.books.store.spent id s.clock

structure Sound (ownerQuota : UInt64) (s : Ledger) : Prop where
  proper : s.books.store.Proper
  backed : s.books.store.Backed
  started {id t} : s.locks.lookup id = some t → t.startedAt ≤ s.clock
  own {id t session} : s.locks.lookup id = some t → t.job = .create session → session.ownerId = id
  quota {id a} : s.books.accounts.lookup id = some a → s.spent id + s.pending id ≤ limit ownerQuota a
  update {id t u q} : s.locks.lookup id = some t → t.checked → t.job = .update u → u.quota = some q →
    s.spent id ≤ q.val

variable {ownerQuota : UInt64} {s : Ledger} {id : Id} {t : Transaction}

namespace Sound

theorem init {accounts : Table Id Account} {items : Table Id Google.Item} :
    Sound ownerQuota (init accounts items) where
  proper       := by constructor <;> intros <;> contradiction
  backed       := by constructor <;> intros <;> contradiction
  started h    := by contradiction
  own h        := by contradiction
  quota _      := Nat.zero_le _
  update h     := by contradiction

-- A step of the store that gives no account more.
theorem shrink {store : Store} (h : s.Sound ownerQuota) (hp : store.Proper) (hb : store.Backed)
    (hs : Store.Shrinks s.clock s.books.store store) : (s.withStore store).Sound ownerQuota where
  proper             := hp
  backed             := hb
  started            := h.started
  own                := h.own
  quota ha           := Nat.le_trans (Nat.add_le_add_right (hs _) _) (h.quota ha)
  update ht hc hj hq := Nat.le_trans (hs _) (h.update ht hc hj hq)

theorem calls {calls : Table Nat Finalize} (h : s.Sound ownerQuota) :
    Sound ownerQuota { s with calls := calls } :=
  ⟨h.proper, h.backed, h.started, h.own, h.quota, h.update⟩

theorem tick {now : Time} (h : s.Sound ownerQuota) (hn : s.clock ≤ now) :
    Sound ownerQuota { s with clock := now } := by
  have less (id : Id) : spent { s with clock := now } id ≤ s.spent id :=
    Nat.add_le_add_left (Store.reserved_antitone hn) _
  constructor
  case proper  => exact h.proper
  case backed  => exact h.backed
  case started => exact fun ht => Nat.le_trans (h.started ht) hn
  case own     => exact h.own
  case quota   => exact fun ha => Nat.le_trans (Nat.add_le_add_right (less _) _) (h.quota ha)
  case update  => exact fun ht hc hj hq => Nat.le_trans (less _) (h.update ht hc hj hq)

theorem pending_set {locks : Table Id Transaction} {i : Id} :
    (locks.set i t).weight (fun _ t => t.pending) id =
      if id = i then t.pending else locks.weight (fun _ t => t.pending) id := by
  unfold Table.weight
  rw [Table.lookup_set]
  split <;> rfl

theorem lock {startedAt : Time} {job : Job} (h : s.Sound ownerQuota) (hs : startedAt ≤ s.clock)
    (ho : ∀ session, job = .create session → session.ownerId = id) :
    Sound ownerQuota { s with locks := s.locks.set id { job, startedAt } } where
  proper       := h.proper
  backed       := h.backed
  started ht   := by
    rw [Table.lookup_set] at ht
    split at ht
    case isTrue  => cases ht; exact hs
    case isFalse => exact h.started ht
  own ht hj    := by
    rw [Table.lookup_set] at ht
    split at ht
    case isTrue he => cases ht; exact he ▸ ho _ hj
    case isFalse   => exact h.own ht hj
  quota ha     := by
    rw [pending, pending_set]
    split
    case isTrue  => exact Nat.le_trans (Nat.le_add_right _ _) (h.quota ha)
    case isFalse => exact h.quota ha
  update ht hc := by
    rw [Table.lookup_set] at ht
    split at ht
    case isTrue  => cases ht; contradiction
    case isFalse => exact h.update ht hc

-- The reservations that the check has counted are at least those of the present.
theorem spent_le (id : Id) {startedAt : Time} (hs : startedAt ≤ s.clock) :
    s.spent id ≤ s.books.store.usedBytes id + s.books.store.reservedBytes id startedAt :=
  Nat.add_le_add_left (Store.reserved_antitone hs) _

theorem check_create {session : Session} {a : Account} (h : s.Sound ownerQuota)
    (ht : s.locks.lookup id = some t) (hj : t.job = .create session)
    (hp : passes s.books ownerQuota id t) (ha : s.books.accounts.lookup id = some a) :
    s.spent id + session.expectedSize ≤ limit ownerQuota a := by
  simp only [passes, hj] at hp
  cases hc : s.books.createUpload ownerQuota id t.startedAt session.expectedSize
  case error => rw [hc] at hp; contradiction
  case ok =>
    obtain ⟨-, -, -, room⟩ := (createUpload_ok ha).mp hc
    have := spent_le id (h.started ht)
    omega

theorem check_update {u : Update} {q : QuotaBytes} (h : s.Sound ownerQuota)
    (ht : s.locks.lookup id = some t) (hj : t.job = .update u) (hq : u.quota = some q)
    (hp : passes s.books ownerQuota id t) : s.spent id ≤ q.val := by
  obtain ⟨quota, disabled⟩ := u
  cases hq
  simp only [passes, hj] at hp
  cases ha : s.books.accounts.lookup id
  case none   =>
    simp [Books.updateAccount, ha, Nat.not_lt.mpr q.property, Except.isOk, Except.toBool, throw,
      throwThe, MonadExceptOf.throw] at hp
  case some a =>
    cases hc : s.books.updateAccount id t.startedAt q
    case error => rw [hc] at hp; contradiction
    case ok =>
      obtain ⟨-, -, -, -, room⟩ := (updateAccount_ok ha).mp hc
      exact Nat.le_trans (spent_le id (h.started ht)) room

theorem check (h : s.Sound ownerQuota) (ht : s.locks.lookup id = some t)
    (hp : passes s.books ownerQuota id t) :
    Sound ownerQuota { s with locks := s.locks.set id { t with checked := true } } where
  proper             := h.proper
  backed             := h.backed
  started hy         := by
    have before := h.started ht
    rw [Table.lookup_set] at hy
    split at hy
    case isTrue  => cases hy; exact before
    case isFalse => exact h.started hy
  own hy hj          := by
    rw [Table.lookup_set] at hy
    split at hy
    case isTrue he => cases hy; exact he ▸ h.own ht hj
    case isFalse   => exact h.own hy hj
  quota {i a} ha     := by
    rw [pending, pending_set]
    split
    case isFalse => exact h.quota ha
    case isTrue he =>
      subst he
      cases hj : t.job
      case create session => exact h.check_create ht hj hp ha
      case update         => exact Nat.le_trans (Nat.le_add_right _ _) (h.quota ha)
  update hy hc hj hq := by
    rw [Table.lookup_set] at hy
    split at hy
    case isFalse => exact h.update hy hc hj hq
    case isTrue he =>
      cases hy
      have room := h.check_update ht hj hq hp
      exact he ▸ room

-- A transaction that ends without a write.
theorem release (h : s.Sound ownerQuota) : Sound ownerQuota { s with locks := s.locks.erase id } := by
  have old {i : Id} {t : Transaction} (ht : (s.locks.erase id).lookup i = some t) :
      s.locks.lookup i = some t := by
    rw [Table.lookup_erase] at ht
    split at ht
    case isTrue  => contradiction
    case isFalse => exact ht
  constructor
  case proper  => exact h.proper
  case backed  => exact h.backed
  case started => exact fun ht => h.started (old ht)
  case own     => exact fun ht => h.own (old ht)
  case update  => exact fun ht => h.update (old ht)
  case quota   =>
    intro i a ha
    have less : pending { s with locks := s.locks.erase id } i ≤ s.pending i := by
      unfold pending Table.weight
      rw [Table.lookup_erase]
      split
      case isTrue  => exact Nat.zero_le _
      case isFalse => exact Nat.le_refl _
    exact Nat.le_trans (Nat.add_le_add_left less _) (h.quota ha)

theorem pending_of_lookup (ht : s.locks.lookup id = some t) : s.pending id = t.pending :=
  Table.weight_of_lookup ht

-- The reservation that the check has left room for.
theorem commit_create {session : Session} {store : Store} (h : s.Sound ownerQuota)
    (ht : s.locks.lookup id = some t) (hc : t.checked) (hj : t.job = .create session)
    (hs : s.books.store.createUpload session [] = some store) :
    Sound ownerQuota { s with
      books := { s.books with store }, locks := s.locks.erase id } := by
  obtain ⟨files, versions, objects⟩ := Store.createUpload_frame hs
  have held : t.pending = session.expectedSize := by simp [Transaction.pending, hc, hj]
  have spent (i : Id) : store.spent i s.clock ≤
      s.spent i + if id = i then session.expectedSize else 0 := by
    have used : store.usedBytes i = s.books.store.usedBytes i :=
      Store.used_of_rows files versions objects
    rw [Store.spent, used, Store.reserved_createUpload h.proper hs, h.own ht hj, Ledger.spent, Store.spent]
    by_cases hi : id = i
    case neg => simp [hi]
    case pos =>
      simp only [hi, true_and, if_true]
      split <;> omega
  constructor
  case proper  => exact h.proper.createUpload hs
  case backed  => exact h.backed.createUpload hs
  case started => exact h.release.started
  case own     => exact h.release.own
  case quota =>
    intro i a ha
    have room := h.quota ha
    have grown := spent i
    simp only [pending, Table.weight, Table.lookup_erase]
    by_cases hi : id = i
    case pos =>
      subst hi
      rw [pending_of_lookup ht, held] at room
      rw [if_pos rfl] at grown ⊢
      exact Nat.le_trans grown room
    case neg =>
      rw [if_neg hi] at grown
      rw [if_neg (Ne.symm hi)]
      exact Nat.le_trans (Nat.add_le_add_right grown _) room
  case update =>
    intro i y u q hy hd hj' hq
    have grown := spent i
    simp only [Table.lookup_erase] at hy
    split at hy <;> try contradiction
    case isFalse hi =>
      rw [if_neg (Ne.symm hi)] at grown
      exact Nat.le_trans grown (h.update hy hd hj' hq)

theorem limit_update (ownerQuota : UInt64) (a : Account) (u : Update) :
    limit ownerQuota (a.update u) = limit ownerQuota a ∨
      ∃ q, u.quota = some q ∧ limit ownerQuota (a.update u) = q.val := by
  obtain ⟨quota, disabled⟩ := u
  cases quota
  case none   => exact .inl rfl
  case some q =>
    by_cases hm : a.role = .member
    case neg => simp [limit, Account.update, hm]
    case pos => exact .inr ⟨q, rfl, by simp [limit, Account.update, hm]⟩

theorem commit_update {u : Update} {a : Account} (h : s.Sound ownerQuota)
    (ht : s.locks.lookup id = some t) (hc : t.checked) (hj : t.job = .update u)
    (ha : s.books.accounts.lookup id = some a) :
    Sound ownerQuota { s with
      books := { s.books with accounts := s.books.accounts.set id (a.update u) }
      locks := s.locks.erase id } where
  proper      := h.proper
  backed      := h.backed
  started     := h.release.started
  own         := h.release.own
  update      := h.release.update
  quota {i b} hb := by
    have released : Sound ownerQuota { s with locks := s.locks.erase id } := h.release
    rw [Table.lookup_set] at hb
    split at hb
    case isFalse => exact released.quota hb
    case isTrue hi =>
      subst hi
      cases hb
      obtain he | ⟨q, hq, he⟩ := limit_update ownerQuota a u
      case inl => rw [he]; exact released.quota ha
      case inr =>
        rw [he]
        simp only [pending, Table.weight, Table.lookup_erase, if_true, Option.elim_none, Nat.add_zero]
        exact h.update ht hc hj hq

end Sound

-- A step that neither adds bytes nor rows.
structure Lessens (now : Time) (s s' : Store) : Prop where
  shrinks : Store.Shrinks now s s'
  recedes : s.Recedes s'
  proper  : s.Proper → s'.Proper

section

variable {store store' : Store} {owner upload : Id} {now : Time}

theorem Lessens.of_rows (hn : store.next ≤ store'.next) (hf : store'.files = store.files)
    (hv : store'.versions = store.versions) (ho : store'.objects = store.objects)
    (hx : store'.sessions = store.sessions) : Lessens now store store' where
  shrinks  := .of_rows hf hv ho hx
  recedes  := .of_rows hn hx hv hf
  proper h := {
    fileIds    := fun h' => Nat.lt_of_lt_of_le (h.fileIds (hf ▸ h')) hn
    versionIds := fun h' => Nat.lt_of_lt_of_le (h.versionIds (hv ▸ h')) hn
    objectIds  := fun h' => Nat.lt_of_lt_of_le (h.objectIds (ho ▸ h')) hn
    sessionIds := fun h' => Nat.lt_of_lt_of_le (h.sessionIds (hx ▸ h')) hn
    object     := fun h' => ho ▸ h.object (hv ▸ h')
    current    := fun h' => hv ▸ h.current (hf ▸ h') }

theorem Lessens.sessions {g : Id → Session → Session} (hx : ∀ u (x : Session), x.Recedes (g u x))
    (hr : ∀ u x, (g u x).reserves now → x.reserves now) :
    Lessens now store { store with sessions := store.sessions.filterMap fun u x => some (g u x) } := by
  constructor
  case proper =>
    intro h
    refine ⟨h.fileIds, h.versionIds, h.objectIds, fun hy => ?_, h.object, h.current⟩
    simp only [Table.lookup_filterMap, Option.bind_eq_some_iff] at hy
    obtain ⟨x, hy, -⟩ := hy
    exact h.sessionIds hy
  case recedes =>
    refine ⟨Nat.le_refl _, fun hy => ?_, id, fun hy => ⟨_, hy, rfl⟩⟩
    simp only [Table.lookup_filterMap, Option.bind_eq_some_iff] at hy
    obtain ⟨x, hy, he⟩ := hy
    cases he
    exact ⟨x, hy, hx _ x⟩
  case shrinks =>
    apply Store.Shrinks.of_sessions (by rfl) (by rfl) (by rfl)
    intro a w
    unfold Store.pledged Table.weight
    rw [Table.lookup_filterMap]
    cases store.sessions.lookup w
    case none   => exact Nat.le_refl _
    case some x =>
      simp only [Option.bind_some, Option.elim_some, (hx w x).owner, (hx w x).size]
      split
      case isFalse   => exact Nat.zero_le _
      case isTrue hs => rw [if_pos ⟨hs.left, hr w x hs.right⟩]

theorem Lessens.updateSession {g : Session → Session} (hx : ∀ x : Session, x.Recedes (g x))
    (hr : ∀ x, (g x).reserves now → x.reserves now) :
    Lessens now store (store.updateSession upload g) := by
  apply Lessens.sessions
  case hx =>
    intro u x
    split
    case isTrue  => exact hx x
    case isFalse => exact .refl
  case hr =>
    intro u x h
    split at h
    case isTrue  => exact hr x h
    case isFalse => exact h

theorem Lessens.trans {store'' : Store} (h₁ : Lessens now store store') (h₂ : Lessens now store' store'') :
    Lessens now store store'' where
  shrinks a := Nat.le_trans (h₂.shrinks a) (h₁.shrinks a)
  recedes   := h₁.recedes.trans h₂.recedes
  proper h  := h₂.proper (h₁.proper h)

theorem patch_lessens {headers : PatchHeaders} {body : List UInt8} {checkedAt : Time} {commits : Bool}
    (hs : patchUpload store owner upload headers body checkedAt commits = some store') :
    Lessens now store store' := by
  rw [patchUpload] at hs
  split at hs <;> try contradiction
  split at hs <;> try contradiction
  split at hs <;> try contradiction
  split at hs
  case isFalse => cases hs; exact .of_rows (Nat.le_refl _) rfl rfl rfl rfl
  case isTrue =>
    cases hs
    refine Lessens.trans ?write (.updateSession ?row fun _ => id)
    case write => exact .of_rows (Nat.le_refl _) rfl rfl rfl rfl
    case row   => exact fun _ => ⟨rfl, rfl, id, id, id, fun h => ⟨h, rfl⟩⟩

theorem close_recedes {x : Session} : x.Recedes { x with state := .expired } :=
  .close rfl rfl rfl (by simp) (.inl ⟨rfl, rfl⟩)

theorem cancel_lessens (hs : cancelUpload store owner upload = some store') :
    Lessens now store store' := by
  have expired : Lessens now store (store.updateSession upload fun u => { u with state := .expired }) :=
    .updateSession (fun _ => close_recedes) fun x hx => by simp [Session.reserves] at hx
  rw [cancelUpload] at hs
  split at hs <;> try contradiction
  split at hs <;> cases hs
  case h_5 => exact .of_rows (Nat.le_refl _) rfl rfl rfl rfl
  all_goals exact expired

theorem expire_lessens {uploads : List Id} {startedAt : Time} :
    Lessens now store (expireUploads store uploads startedAt) := by
  apply Lessens.sessions
  case hx =>
    intro u x
    split
    case isTrue  => exact close_recedes
    case isFalse => exact .refl
  case hr =>
    intro u x h
    split at h
    case isTrue  => simp [Session.reserves] at h
    case isFalse => exact h

theorem clean_lessens (hs : cleanUpload store upload = some store') : Lessens now store store' := by
  rw [cleanUpload] at hs
  split at hs <;> try contradiction
  split at hs <;> cases hs
  exact .of_rows (Nat.le_refl _) rfl rfl rfl rfl

theorem Sound.lessen (h : s.Sound ownerQuota) (hl : Lessens s.clock s.books.store store) :
    (s.withStore store).Sound ownerQuota :=
  h.shrink (hl.proper h.proper) (h.backed.recede hl.recedes) hl.shrinks

end

theorem Sound.commit {b : Books} (h : s.Sound ownerQuota) (ht : s.locks.lookup id = some t)
    (hc : t.checked) (hs : write s.books id t.job = some b) :
    Sound ownerQuota { s with books := b, locks := s.locks.erase id } := by
  cases hj : t.job <;> rw [hj] at hs
  case create session =>
    obtain ⟨store, hw, rfl⟩ := Option.map_eq_some_iff.mp hs
    exact h.commit_create ht hc hj hw
  case update u =>
    obtain ⟨a, ha, rfl⟩ := Option.map_eq_some_iff.mp hs
    exact h.commit_update ht hc hj ha

-- No upload expires between the check and the commit of its finalization, and no rejected replacement
-- gives back more than it had reserved.
structure Careful (s : Ledger) (l : Label) : Prop where
  unexpired {i env c x} : l = .next i env → s.calls.lookup i = some c → c.stage = .begun →
    s.books.store.sessions.lookup c.upload = some x → x.state = .active → env.now < x.expiresAt →
    s.clock < x.expiresAt
  restored {i env c t x} : l = .next i env → s.calls.lookup i = some c → c.stage = .mismatched t →
    s.books.store.sessions.lookup c.upload = some x → x.replaceFileId.isSome →
    env.row.elim 0 s.books.store.readyBytes ≤
      x.expectedSize + (s.books.store.currentVersion t.fileId).elim 0 s.books.store.readyBytes

section

variable [Collation]

theorem unexpired_of_reserve {store store' : Store} {env : Env} {owner upload : Id} {x : Session}
    (h : store.reserve env owner upload x = .ok store') : env.now < x.expiresAt := by
  simp only [Store.reserve, Except.bind_eq_ok_iff] at h
  obtain ⟨_, h, -⟩ := h
  rw [requireNotExpired] at h
  split at h
  case isTrue     => contradiction
  case isFalse hn => exact Nat.lt_of_not_le hn

variable [Digest]

theorem Sound.moves {i : Nat} {env : Env} {c : Finalize} {k : Option Finalize} {store : Store}
    (h : s.Sound ownerQuota) (hk : s.Careful (.next i env)) (hc : s.calls.lookup i = some c)
    (m : c.Moves s.books.store env store k) : (s.withStore store).Sound ownerQuota := by
  apply h.shrink (m.proper h.proper) (m.backed h.backed h.proper)
  cases m
  case reserve hb hx ho ha hr =>
    exact .reserve h.proper hx ha (hk.unexpired rfl hc hb hx ha (unexpired_of_reserve hr)) hr
  case complete hs  => exact .complete h.proper h.backed hs
  case index hs _   =>
    have shrinks : Store.Shrinks s.clock s.books.store _ := .complete h.proper h.backed hs
    exact shrinks
  case already hs   =>
    have shrinks : Store.Shrinks s.clock s.books.store _ := .complete h.proper h.backed hs
    exact shrinks
  case reject hm hs =>
    exact .reject h.proper h.backed (fun x hx hn => hk.restored rfl hc hm hx hn) hs
  all_goals exact .of_rows rfl rfl rfl rfl

theorem Sound.step {s' : Ledger} {l : Label} (h : s.Sound ownerQuota) (hk : s.Careful l)
    (hs : s.step ownerQuota l = some s') : s'.Sound ownerQuota := by
  cases l <;> simp only [Ledger.step] at hs
  case tick =>
    split at hs <;> cases hs
    case isTrue hn => exact h.tick hn
  case lock account job startedAt =>
    split at hs <;> try contradiction
    case h_1 session _ =>
      split at hs <;> cases hs
      case isTrue hn => exact h.lock hn.right fun _ he => by cases he; exact hn.left
    case h_2 u _ =>
      split at hs <;> cases hs
      case isTrue hn => exact h.lock hn fun _ he => by cases he
  case check account =>
    split at hs <;> try contradiction
    split at hs <;> cases hs
    case h_2.isTrue ht hp => exact h.check ht hp
  case commit account =>
    split at hs <;> try contradiction
    split at hs <;> try contradiction
    case h_2.isTrue ht hc =>
      obtain ⟨b, hb, rfl⟩ := Option.map_eq_some_iff.mp hs
      exact h.commit ht hc hb
  case abort => cases hs; exact h.release
  case patch =>
    split at hs <;> try contradiction
    obtain ⟨store, hl, rfl⟩ := Option.map_eq_some_iff.mp hs
    exact h.lessen (patch_lessens hl)
  case cancel =>
    obtain ⟨store, hl, rfl⟩ := Option.map_eq_some_iff.mp hs
    exact h.lessen (cancel_lessens hl)
  case expire =>
    split at hs <;> cases hs
    exact h.lessen expire_lessens
  case clean =>
    obtain ⟨store, hl, rfl⟩ := Option.map_eq_some_iff.mp hs
    exact h.lessen (clean_lessens hl)
  case finalize =>
    split at hs <;> cases hs
    exact h.calls
  case next i env =>
    split at hs <;> try contradiction
    case h_2 c hc =>
      split at hs <;> try contradiction
      obtain ⟨⟨store, k⟩, hn, rfl⟩ := Option.map_eq_some_iff.mp hs
      exact (h.moves hk hc (Finalize.next_moves hn)).calls
  case drop => cases hs; exact h.calls

theorem quota_kept {accounts : Table Id Account} {items : Table Id Google.Item} {a : Account} {q : Nat}
    (e : Execution.Steps (step ownerQuota) Careful (init accounts items) s)
    (ha : s.books.accounts.lookup id = some a) (hm : a.role = .member) (hq : a.quotaBytes = some q) :
    s.books.store.usedBytes id + s.books.store.reservedBytes id s.clock ≤ q := by
  have sound : s.Sound ownerQuota := e.invariant .init fun h hk hs => h.step hk hs
  have room := sound.quota ha
  have whole : limit ownerQuota a = q := by simp [limit, hm, hq]
  rw [whole] at room
  exact Nat.le_trans (Nat.le_add_right _ _) room

end
end Ledger

section

attribute [local instance] Collation.binary Digest.hi

def careful (s : Ledger) : Label → Bool
  | .next i env =>
    match s.calls.lookup i with
    | none   => true
    | some c =>
      match c.stage, s.books.store.sessions.lookup c.upload with
      | .begun, some x        => s.clock < x.expiresAt
      | .mismatched t, some x => env.row.elim 0 s.books.store.readyBytes ≤
        x.expectedSize + (s.books.store.currentVersion t.fileId).elim 0 s.books.store.readyBytes
      | _, _                  => true
  | _           => true

theorem careful_of_check {s : Ledger} {l : Label} (h : careful s l) : s.Careful l where
  unexpired hl hc hb hx _ _ := by
    subst hl
    simpa [careful, hc, hb, hx] using h
  restored hl hc hm hx _    := by
    subst hl
    simpa [careful, hc, hm, hx] using h

def member : Ledger :=
  .init (Table.empty.set 7 threeBytes) .empty

def upload (size : Nat) (filename : String) (replaceFileId : Option Id) (startedAt : Time) : List Label :=
  let session := {
    ownerId := 7, filename, replaceFileId, stagingKey := 0, expectedSize := size
    expiresAt := startedAt + 10 }
  [.lock 7 (.create session) startedAt, .check 7, .commit 7]

def patchHeaders : PatchHeaders where
  contentType  := some "application/offset+octet-stream"
  uploadOffset := some (some 0)

-- A file of two of the three bytes of the account.
def stored : List Label :=
  upload 2 "a.txt" none 0 ++ [.patch 7 1 patchHeaders [104, 105] 0 true, .finalize 0 7 1 none] ++
  List.replicate 11 (.next 0 {})

-- It is replaced by one of a single byte, whose checksum is wrong. Between the reservation of the
-- replacement and its rejection, another upload takes the two bytes.
def outbid : List Label :=
  stored ++ upload 1 "a.txt" (some 5) 0 ++
  [.patch 7 7 patchHeaders [104] 0 true,
    .finalize 1 7 7 (some (some (.ofList (List.replicate 64 '0')))), .next 1 {}] ++
  upload 2 "b.txt" none 0 ++ List.replicate 8 (.next 1 {}) ++ [.next 1 { row := some 4 }]

-- A finalization finds its upload unexpired at 9 and commits at 10, where another upload has been let in.
def overtaken : List Label :=
  upload 2 "a.txt" none 0 ++
  [.patch 7 1 patchHeaders [104, 105] 0 true, .finalize 0 7 1 none, .tick 10] ++
  upload 3 "b.txt" none 10 ++ [.next 0 { now := 9 }]

def spentBytes (s : Ledger) : Nat × Nat :=
  (s.books.store.usedBytes 7, s.books.store.reservedBytes 7 s.clock)

theorem quota_kept_stored : ∃ s, Execution.Steps (Ledger.step 0) Ledger.Careful member s ∧
    spentBytes s = (2, 0) ∧ s.books.store.usedBytes 7 + s.books.store.reservedBytes 7 s.clock ≤ 3 := by
  have run : (Execution.run (fun s l => if careful s l then Ledger.step 0 s l else none) member
      stored).map (fun s => (spentBytes s, (s.books.accounts.lookup 7).map (·.quotaBytes),
        (s.books.accounts.lookup 7).map (·.role))) =
      some ((2, 0), some (some 3), some .member) := by
    decide +kernel
  obtain ⟨s, hs, he⟩ := Option.map_eq_some_iff.mp run
  simp only [Prod.mk.injEq] at he
  obtain ⟨spent, quota, role⟩ := he
  obtain ⟨a, ha, hq⟩ := Option.map_eq_some_iff.mp quota
  rw [ha, Option.map_some, Option.some.injEq] at role
  have steps : Execution.Steps (Ledger.step 0) Ledger.Careful member s :=
    Execution.steps_of_run (fun _ _ => careful_of_check) hs
  exact ⟨s, steps, spent, Ledger.quota_kept steps ha role hq⟩

theorem exceeded_of_run (ls : List Label) {used reserved : Nat}
    (run : (Execution.run (Ledger.step 0) member ls).map (fun s => (spentBytes s,
      (s.books.accounts.lookup 7).map (·.quotaBytes), (s.books.accounts.lookup 7).map (·.role))) =
        some ((used, reserved), some (some 3), some .member)) (hr : 3 < used + reserved) :
    ∃ s a, Execution.Reaches (Ledger.step 0) member s ∧
      s.books.accounts.lookup 7 = some a ∧ a.role = .member ∧ a.quotaBytes = some 3 ∧
      ¬s.books.store.usedBytes 7 + s.books.store.reservedBytes 7 s.clock ≤ 3 := by
  obtain ⟨s, hs, he⟩ := Option.map_eq_some_iff.mp run
  simp only [Prod.mk.injEq] at he
  obtain ⟨spent, quota, role⟩ := he
  obtain ⟨a, ha, hq⟩ := Option.map_eq_some_iff.mp quota
  rw [ha, Option.map_some, Option.some.injEq] at role
  simp only [spentBytes, Prod.mk.injEq] at spent
  refine ⟨s, a, Execution.reaches_of_run hs, ha, role, hq, ?_⟩
  rw [spent.left, spent.right]
  exact Nat.not_le_of_lt hr

theorem quota_exceeded_outbid : ∃ s a, Execution.Reaches (Ledger.step 0) member s ∧
    s.books.accounts.lookup 7 = some a ∧ a.role = .member ∧ a.quotaBytes = some 3 ∧
    ¬s.books.store.usedBytes 7 + s.books.store.reservedBytes 7 s.clock ≤ 3 :=
  exceeded_of_run outbid (by decide +kernel) (by decide : 3 < 2 + 2)

theorem quota_exceeded_overtaken : ∃ s a, Execution.Reaches (Ledger.step 0) member s ∧
    s.books.accounts.lookup 7 = some a ∧ a.role = .member ∧ a.quotaBytes = some 3 ∧
    ¬s.books.store.usedBytes 7 + s.books.store.reservedBytes 7 s.clock ≤ 3 :=
  exceeded_of_run overtaken (by decide +kernel) (by decide : 3 < 0 + 5)

end
end MyDrive.Quota
