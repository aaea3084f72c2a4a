import MyDrive.Library.Execution
import MyDrive.Shares.Server
import MyDrive.Shares.Theorems.Originals

open Shared

namespace MyDrive.Shares

open Transfers Drive

def Event.reservation : Event → Option (Nat × Id)
  | .reserved serial shareId => some (serial, shareId)
  | _                        => none

def Event.answer : Event → Option Nat
  | .answered serial _ _ => some serial
  | _                    => none

-- The requests that have reserved a download of the share.
def reservations (history : List Event) (shareId : Id) : List Nat :=
  history.filterMap fun e => (e.reservation.filter (·.2 = shareId)).map Prod.fst

def answers (history : List Event) : List Nat :=
  history.filterMap Event.answer

def Event.original (shareId : Id) : Event → Option Nat
  | .answered serial id a => if id = shareId ∧ a.derived = false then some serial else none
  | _                     => none

-- The requests that were answered with a payload through the share.
def originals (history : List Event) (shareId : Id) : List Nat :=
  history.filterMap (Event.original shareId)

-- No response carries a payload without a reservation of its own.
def Preceded (history : List Event) : Prop :=
  ∀ pre post serial shareId a, history = pre ++ .answered serial shareId a :: post →
    a.derived = false → .reserved serial shareId ∈ pre

variable {history es : List Event} {shareId : Id} {serial : Nat} {e : Event}

theorem reservations_append :
    reservations (history ++ es) shareId = reservations history shareId ++ reservations es shareId :=
  List.filterMap_append

theorem answers_append : answers (history ++ es) = answers history ++ answers es :=
  List.filterMap_append

theorem answers_reserved : answers (history ++ [.reserved serial shareId]) = answers history :=
  answers_append.trans (List.append_nil _)

theorem mem_reservations : serial ∈ reservations history shareId ↔ .reserved serial shareId ∈ history := by
  simp only [reservations, List.mem_filterMap, Option.map_eq_some_iff, Option.filter_eq_some_iff,
    decide_eq_true_eq]
  constructor
  case mp =>
    rintro ⟨e, hm, ⟨s, i⟩, ⟨he, rfl⟩, rfl⟩
    cases e <;> cases he
    exact hm
  case mpr =>
    intro hm
    exact ⟨_, hm, _, ⟨rfl, rfl⟩, rfl⟩

theorem mem_originals : serial ∈ originals history shareId ↔
    ∃ a, .answered serial shareId a ∈ history ∧ a.derived = false := by
  simp only [originals, List.mem_filterMap]
  constructor
  case mp =>
    rintro ⟨e, hm, he⟩
    cases e <;> simp only [Event.original, reduceCtorEq, Option.ite_none_right_eq_some,
      Option.some.injEq] at he
    obtain ⟨⟨rfl, ha⟩, rfl⟩ := he
    exact ⟨_, hm, ha⟩
  case mpr =>
    rintro ⟨a, hm, ha⟩
    exact ⟨_, hm, by simp [Event.original, ha]⟩

theorem originals_sublist : List.Sublist (originals history shareId) (answers history) := by
  induction history
  case nil => exact .slnil
  case cons e history ih =>
    simp only [originals, answers, List.filterMap_cons] at ih ⊢
    cases e <;> simp only [Event.original, Event.answer]
    case answered =>
      split
      case h_1     => exact ih.cons _
      case h_2 h   => split at h <;> cases h; exact ih.cons_cons _
    all_goals exact ih

-- A request is answered only once, so that its reservation counts for one payload.
theorem originals_length_le (hn : (answers history).Nodup) (hp : Preceded history) :
    (originals history shareId).length ≤ (reservations history shareId).length := by
  refine (List.subperm_of_subset (hn.sublist originals_sublist) fun serial h => ?_).length_le
  obtain ⟨a, hm, ha⟩ := mem_originals.mp h
  obtain ⟨pre, post, rfl⟩ := List.append_of_mem hm
  exact mem_reservations.mpr (List.mem_append_left _ (hp pre post serial shareId a rfl ha))

-- Events that neither reserve a download nor answer a request.
def Event.quiet (e : Event) : Bool :=
  e.reservation.isNone && e.answer.isNone

theorem reservations_of_quiet (h : ∀ e ∈ es, e.quiet = true) : reservations es shareId = [] := by
  refine List.filterMap_eq_nil_iff.mpr fun e he => ?_
  have := h e he
  simp_all [Event.quiet]

theorem answers_of_quiet (h : ∀ e ∈ es, e.quiet = true) : answers es = [] := by
  refine List.filterMap_eq_nil_iff.mpr fun e he => ?_
  have := h e he
  simp_all [Event.quiet]

theorem Preceded.append (h : Preceded history)
    (he : ∀ serial shareId a, .answered serial shareId a ∈ es → a.derived = false →
      .reserved serial shareId ∈ history) : Preceded (history ++ es) := by
  intro pre post serial shareId a hs ha
  obtain ⟨mid, rfl, hm⟩ | ⟨mid, rfl, hm⟩ := List.append_eq_append_iff.mp hs
  case inl =>
    refine List.mem_append_left _ (he serial shareId a ?_ ha)
    exact hm ▸ List.mem_append_right _ List.mem_cons_self
  case inr =>
    cases mid
    case nil =>
      rw [List.append_nil] at he
      exact he serial shareId a (List.nil_append es ▸ hm ▸ List.mem_cons_self) ha
    case cons e mid =>
      obtain ⟨rfl, -⟩ := List.cons.inj hm
      exact h pre mid serial shareId a rfl ha

-- The columns of a share that decide about its downloads.
def Share.downloads (s : Share) : Nat × Option Nat :=
  (s.downloadCount, s.maxDownloads)

namespace World

variable {w w' : World} {now : Time} {v : Visit} {u : Unlock} {r : World × Option Call}

@[simp]
theorem history_log : (w.log es).history = w.history ++ es :=
  rfl

@[simp]
theorem log_db : (w.log es).db = w.db :=
  rfl

@[simp]
theorem log_next : (w.log es).next = w.next :=
  rfl

-- What the downloads of the shares rest on: every reservation is counted in its row, and no count
-- goes above the limit.
structure Counted (w : World) : Prop where
  count {id share} : w.db.shares.lookup id = some share →
    (reservations w.history id).length = share.downloadCount
  unborn {id} : w.db.shares.lookup id = none → reservations w.history id = []
  limit {id share n} : w.db.shares.lookup id = some share → share.maxDownloads = some n →
    share.downloadCount ≤ n
  preceded : Preceded w.history
  once : (answers w.history).Nodup
  below {k} : k ∈ answers w.history → k < w.next

-- A request that is under way has not been answered, and has its reservation behind it where it
-- needs one.
structure Pending (w : World) (c : Call) : Prop where
  below      : c.serial < w.next
  unanswered : c.serial ∉ answers w.history
  reserved {d} : c = .visit d → d.stage = .reserved → .reserved d.serial d.shareId ∈ w.history

def Distinct (c d : Call) : Prop :=
  c.serial ≠ d.serial

-- A step that has nothing to do with downloads.
structure Quiet (w w' : World) : Prop where
  history : ∃ es, w'.history = w.history ++ es ∧ ∀ e ∈ es, e.quiet = true
  next    : w.next ≤ w'.next
  shares (id : Id) :
    (w'.db.shares.lookup id).map Share.downloads = (w.db.shares.lookup id).map Share.downloads

theorem Quiet.refl : w.Quiet w where
  history   := ⟨[], by simp, by simp⟩
  next      := Nat.le_refl _
  shares _  := rfl

theorem Quiet.log (h : ∀ e ∈ es, e.quiet = true) : w.Quiet (w.log es) where
  history   := ⟨es, rfl, h⟩
  next      := Nat.le_refl _
  shares _  := rfl

theorem Quiet.trans {w'' : World} (h : w.Quiet w') (h' : w'.Quiet w'') : w.Quiet w'' where
  history   := by
    obtain ⟨es, he, hq⟩ := h.history
    obtain ⟨es', he', hq'⟩ := h'.history
    refine ⟨es ++ es', by rw [he', he, List.append_assoc], fun e hm => ?_⟩
    exact (List.mem_append.mp hm).elim (hq e) (hq' e)
  next      := Nat.le_trans h.next h'.next
  shares id := (h'.shares id).trans (h.shares id)

theorem lookup_updateShare {db : Db} {id i : Id} {f : Share → Share} :
    (db.updateShare id f).shares.lookup i =
      (db.shares.lookup i).map fun s => if i = id then { f s with token := s.token } else s := by
  simp [Db.updateShare, Db.setShares, Option.map_eq_bind]

-- An `UPDATE` of other columns.
theorem Quiet.update {id : Id} {f : Share → Share} (hh : w'.history = w.history)
    (hn : w.next ≤ w'.next) (hs : w'.db.shares = (w.db.updateShare id f).shares)
    (hf : ∀ s, (f s).downloads = s.downloads) : w.Quiet w' where
  history  := ⟨[], by simp [hh], by simp⟩
  next     := hn
  shares i := by
    rw [hs, lookup_updateShare, Option.map_map]
    congr 1
    funext s
    simp only [Function.comp_apply]
    split
    case isTrue  => exact hf s
    case isFalse => rfl

theorem Quiet.updateLog {id : Id} {f : Share → Share} (hh : w'.history = w.history)
    (hn : w.next ≤ w'.next) (hs : w'.db.shares = (w.db.updateShare id f).shares)
    (hf : ∀ s, (f s).downloads = s.downloads) (he : ∀ e ∈ es, e.quiet = true) :
    w.Quiet (w'.log es) :=
  (Quiet.update hh hn hs hf).trans (.log he)

theorem quiet_refuse {e : ShareError} : w.Quiet (w.refuse serial e).1 :=
  .log (by simp [Event.quiet, Event.reservation, Event.answer])

theorem downloads_countFailure {s : Share} : (countFailure now s).downloads = s.downloads := by
  simp only [countFailure]
  split <;> rfl

theorem quiet_recordPasswordFailure : w.Quiet (w.recordPasswordFailure now u).1 := by
  simp only [recordPasswordFailure]
  split
  case h_1 => exact quiet_refuse
  case h_2 share hs =>
    split
    case isTrue => exact quiet_refuse
    case isFalse =>
      refine .updateLog rfl (Nat.le_refl _) rfl (fun _ => downloads_countFailure) ?_
      intro e he
      simp only [List.mem_append, List.mem_singleton] at he
      obtain ((he | rfl) | he) | rfl := he
      case inl.inl.inl => split at he <;> simp_all [Event.quiet, Event.reservation, Event.answer]
      case inl.inl.inr => rfl
      case inl.inr     => split at he <;> simp_all [Event.quiet, Event.reservation, Event.answer]
      case inr         => rfl

theorem quiet_grant : w.Quiet (w.grant now u).1 := by
  simp only [grant]
  split
  case h_1 => exact quiet_refuse
  case h_2 =>
    let f (s : Share) : Share := { s with failedPasswordAttempts := 0, passwordLockedUntil := none }
    refine .updateLog (f := f) rfl (Nat.le_succ _) rfl (fun _ => rfl) ?_
    simp [Event.quiet, Event.reservation, Event.answer]

theorem quiet_beginVisit {request : Request} : w.Quiet (w.beginVisit now request).1 := by
  simp only [beginVisit]
  split
  case h_1 => exact quiet_refuse
  case h_2 => exact .refl

theorem quiet_beginUnlock {token password : String} :
    w.Quiet (w.beginUnlock now token password).1 := by
  simp only [beginUnlock]
  split
  case h_1 => exact quiet_refuse
  case h_2 =>
    split
    case h_1 => exact quiet_refuse
    case h_2 =>
      split
      case isTrue => exact quiet_refuse
      case isFalse =>
        split <;> exact .log (by simp [Event.quiet, Event.reservation, Event.answer])

theorem quiet_numbered (h : w.Quiet r.1) : w.Quiet (w.numbered r).1 :=
  ⟨h.history, Nat.le_succ _, h.shares⟩

theorem quiet_nextUnlock [PasswordVerifier] : w.Quiet (w.nextUnlock now u).1 := by
  simp only [nextUnlock]
  split
  case h_1 => exact .log (by simp [Event.quiet, Event.reservation, Event.answer])
  case h_2 => exact quiet_recordPasswordFailure
  case h_3 => exact quiet_grant

theorem Quiet.reservations_eq (q : w.Quiet w') {id : Id} :
    reservations w'.history id = reservations w.history id := by
  obtain ⟨es, he, hq⟩ := q.history
  rw [he, reservations_append, reservations_of_quiet hq, List.append_nil]

theorem Quiet.answers_eq (q : w.Quiet w') : answers w'.history = answers w.history := by
  obtain ⟨es, he, hq⟩ := q.history
  rw [he, answers_append, answers_of_quiet hq, List.append_nil]

theorem Quiet.share (q : w.Quiet w') {id : Id} {share' : Share}
    (h : w'.db.shares.lookup id = some share') :
    ∃ share, w.db.shares.lookup id = some share ∧ share.downloadCount = share'.downloadCount ∧
      share.maxDownloads = share'.maxDownloads := by
  have := q.shares id
  rw [h, Option.map_some, eq_comm, Option.map_eq_some_iff] at this
  obtain ⟨share, hs, hd⟩ := this
  simp only [Share.downloads, Prod.mk.injEq] at hd
  exact ⟨share, hs, hd⟩

theorem Counted.quiet (h : w.Counted) (q : w.Quiet w') : w'.Counted where
  count hs     := by
    obtain ⟨share, hs, hd, -⟩ := q.share hs
    rw [q.reservations_eq, h.count hs, hd]
  unborn hn    := by
    rw [q.reservations_eq]
    refine h.unborn (Option.map_eq_none_iff.mp ((q.shares _).symm.trans ?_))
    rw [hn, Option.map_none]
  limit hs hn  := by
    obtain ⟨share, hs, hd, hm⟩ := q.share hs
    exact hd ▸ h.limit hs (hm.trans hn)
  preceded     := by
    obtain ⟨es, he, hq⟩ := q.history
    rw [he]
    refine h.preceded.append fun serial shareId a hm => ?_
    simpa [Event.quiet, Event.reservation, Event.answer] using hq _ hm
  once         := q.answers_eq ▸ h.once
  below hk     := Nat.lt_of_lt_of_le (h.below (q.answers_eq ▸ hk)) q.next

theorem Quiet.mem (q : w.Quiet w') (h : e ∈ w.history) : e ∈ w'.history := by
  obtain ⟨es, he, -⟩ := q.history
  exact he ▸ List.mem_append_left _ h

theorem Pending.quiet {c : Call} (h : w.Pending c) (q : w.Quiet w') : w'.Pending c where
  below         := Nat.lt_of_lt_of_le h.below q.next
  unanswered    := q.answers_eq ▸ h.unanswered
  reserved hc hs := q.mem (h.reserved hc hs)

abbrev Keeps :=
  KeepsApart Counted Pending Distinct

theorem keeps_of_quiet {call call' : Option Call} (h : w.Counted) (q : w.Quiet w')
    (own : ∀ c, call' = some c → w'.Pending c) : Keeps w call w' call' where
  store        := h.quiet q
  own          := own _
  others h _ _ := h.quiet q

-- A new request with the next serial number.
theorem keeps_numbered (h : w.Counted) (q : w.Quiet r.1)
    (hc : ∀ c, r.2 = some c → c.serial = w.next ∧ ∀ v, c = .visit v → v.stage ≠ .reserved) :
    Keeps w none (w.numbered r).1 (w.numbered r).2 := by
  have quiet := quiet_numbered q
  refine keeps_of_quiet h quiet fun c he => ?_
  obtain ⟨hs, hv⟩ := hc c he
  refine ⟨hs ▸ Nat.lt_succ_self _, ?_, fun he hr => absurd hr (hv _ he)⟩
  rw [quiet.answers_eq, hs]
  exact fun hm => Nat.lt_irrefl _ (h.below hm)

theorem serial_beginVisit {request : Request} {c : Call}
    (h : (w.beginVisit now request).2 = some c) :
    c.serial = w.next ∧ ∀ v, c = .visit v → v.stage ≠ .reserved := by
  simp only [beginVisit] at h
  split at h <;> cases h
  exact ⟨rfl, by simp⟩

theorem serial_beginUnlock {token password : String} {c : Call}
    (h : (w.beginUnlock now token password).2 = some c) :
    c.serial = w.next ∧ ∀ v, c = .visit v → v.stage ≠ .reserved := by
  simp only [beginUnlock] at h
  split at h
  case h_1 => contradiction
  case h_2 =>
    split at h
    case h_1 => contradiction
    case h_2 =>
      split at h
      case isTrue => contradiction
      case isFalse =>
        split at h <;> cases h
        exact ⟨rfl, by simp⟩

theorem lookup_insertShare {db db' : Db} {id i : Id} {share : Share}
    (h : db.insertShare id share = some db') :
    db.shares.lookup id = none ∧
      db'.shares.lookup i = if i = id then some share else db.shares.lookup i := by
  simp only [Db.insertShare] at h
  split at h <;> cases h
  case isFalse hn =>
    simp only [Table.any_iff, not_exists, not_and, Bool.or_eq_true, decide_eq_true_eq, not_or] at hn
    refine ⟨Option.eq_none_iff_forall_ne_some.mpr fun s hs => (hn _ s hs).left rfl, ?_⟩
    simp [Db.setShares]

theorem Counted.create {db : Db} {share : Share} (h : w.Counted)
    (hd : w.db.insertShare w.next share = some db) (h0 : share.downloadCount = 0) :
    ({ w with db, next := w.next + 1 } : World).Counted where
  count {id s} hs   := by
    obtain ⟨hn, hl⟩ := lookup_insertShare (i := id) hd
    rw [hl] at hs
    split at hs
    case isTrue he => cases hs; rw [h0, he, h.unborn hn]; rfl
    case isFalse   => exact h.count hs
  unborn {id} hs    := by
    obtain ⟨-, hl⟩ := lookup_insertShare (i := id) hd
    rw [hl] at hs
    split at hs
    case isTrue  => contradiction
    case isFalse => exact h.unborn hs
  limit {id s n} hs hm := by
    obtain ⟨-, hl⟩ := lookup_insertShare (i := id) hd
    rw [hl] at hs
    split at hs
    case isTrue  => cases hs; rw [h0]; exact Nat.zero_le _
    case isFalse => exact h.limit hs hm
  preceded          := h.preceded
  once              := h.once
  below hk          := Nat.lt_succ_of_lt (h.below hk)

theorem keeps_start {i : Incoming} (h : w.Counted) (hs : w.start i = some r) :
    Keeps w none r.1 r.2 := by
  cases i <;> simp only [start] at hs
  case visit  => cases hs; exact keeps_numbered h quiet_beginVisit fun _ => serial_beginVisit
  case unlock => cases hs; exact keeps_numbered h quiet_beginUnlock fun _ => serial_beginUnlock
  case revoke =>
    cases hs
    exact keeps_of_quiet h (.update rfl (Nat.le_refl _) rfl fun _ => rfl) (by simp)
  case elsewhere db =>
    split at hs <;> cases hs
    case isTrue he =>
      refine keeps_of_quiet h ⟨⟨[], by simp, by simp⟩, Nat.le_refl _, fun id => ?_⟩ (by simp)
      simp [Table.lookup, he]
  case create share =>
    obtain ⟨db, hd, rfl⟩ := Option.map_eq_some_iff.mp hs
    refine ⟨h.create hd rfl, by simp, fun hc _ _ => ?_⟩
    exact ⟨Nat.lt_succ_of_lt hc.below, hc.unanswered, hc.reserved⟩

theorem serial_start {i : Incoming} {c : Call} (h : w.start i = some (w', some c)) :
    c.serial = w.next := by
  cases i <;> simp only [start] at h
  case visit  => exact (serial_beginVisit (congrArg Prod.snd (Option.some.inj h))).left
  case unlock => exact (serial_beginUnlock (congrArg Prod.snd (Option.some.inj h))).left
  case revoke => cases h
  case elsewhere => split at h <;> cases h
  case create =>
    obtain ⟨db, -, h⟩ := Option.map_eq_some_iff.mp h
    cases h

theorem Counted.reserve {share : Share} (h : w.Counted)
    (hs : w.db.shares.lookup v.shareId = some share) (hr : Db.reserves share now = true) :
    (({ w with
        db := w.db.updateShare v.shareId fun s => { s with downloadCount := s.downloadCount + 1 } }).log
        [.reserved v.serial v.shareId]).Counted where
  count {id s} hl      := by
    rw [log_db, lookup_updateShare, Option.map_eq_some_iff] at hl
    obtain ⟨s', hs', rfl⟩ := hl
    rw [history_log, reservations_append, List.length_append, h.count hs']
    by_cases he : id = v.shareId
    case pos => simp [he, reservations, Event.reservation]
    case neg =>
      have : ¬v.shareId = id := fun hc => he hc.symm
      simp [he, this, reservations, Event.reservation, Option.filter_some]
  unborn {id} hl       := by
    rw [log_db, lookup_updateShare, Option.map_eq_none_iff] at hl
    have : ¬v.shareId = id := by
      rintro rfl
      simp [hs] at hl
    rw [history_log, reservations_append, h.unborn hl]
    simp [this, reservations, Event.reservation, Option.filter_some]
  limit {id s n} hl hn := by
    rw [log_db, lookup_updateShare, Option.map_eq_some_iff] at hl
    obtain ⟨s', hs', rfl⟩ := hl
    by_cases he : id = v.shareId
    case pos =>
      subst he
      cases hs.symm.trans hs'
      simp only [if_true] at hn ⊢
      simp only [Db.reserves, hn, Option.all_some, Bool.and_eq_true, decide_eq_true_eq] at hr
      exact hr.right
    case neg =>
      simp only [he, if_false] at hn ⊢
      exact h.limit hs' hn
  preceded             := h.preceded.append fun _ _ _ hm => by simp at hm
  once                 := answers_reserved.symm ▸ h.once
  below hk             := h.below (answers_reserved ▸ hk)

theorem Counted.answer {a : Answer} (h : w.Counted) (hp : w.Pending (.visit v))
    (ha : a.derived = false → v.stage = .reserved) :
    (w.log [.answered v.serial v.shareId a]).Counted where
  count hs     := by
    rw [history_log, reservations_append, List.length_append, h.count hs]
    rfl
  unborn hn    := by rw [history_log, reservations_append, h.unborn hn]; rfl
  limit        := h.limit
  preceded     := by
    refine h.preceded.append fun serial shareId b hm hb => ?_
    simp only [List.mem_singleton, Event.answered.injEq] at hm
    obtain ⟨rfl, rfl, rfl⟩ := hm
    exact hp.reserved rfl (ha hb)
  once         := by
    rw [history_log, answers_append]
    refine h.once.append (List.nodup_singleton _) fun k hk hs => ?_
    cases List.mem_singleton.mp hs
    exact hp.unanswered hk
  below {k} hk := by
    rw [history_log, answers_append, List.mem_append] at hk
    obtain hk | hk := hk
    case inl => exact h.below hk
    case inr => cases List.mem_singleton.mp hk; exact hp.below

theorem call_nextUnlock [PasswordVerifier] {c : Call} (h : (w.nextUnlock now u).2 = some c) :
    c.serial = u.serial ∧ ∀ v, c ≠ .visit v := by
  simp only [nextUnlock] at h
  split at h
  case h_1 => cases h; exact ⟨rfl, by simp⟩
  case h_2 =>
    simp only [recordPasswordFailure] at h
    split at h
    case h_1 => contradiction
    case h_2 => split at h <;> contradiction
  case h_3 =>
    simp only [grant] at h
    split at h <;> contradiction

theorem keeps_nextUnlock [PasswordVerifier] (h : w.Counted) (hp : w.Pending (.unlock u)) :
    Keeps w (some (.unlock u)) (w.nextUnlock now u).1 (w.nextUnlock now u).2 := by
  refine keeps_of_quiet h quiet_nextUnlock fun c hc => ?_
  have serial := call_nextUnlock hc
  have quiet : Quiet w (w.nextUnlock now u).1 := quiet_nextUnlock
  refine ⟨serial.left ▸ (hp.quiet quiet).below, serial.left ▸ (hp.quiet quiet).unanswered, ?_⟩
  exact fun hd => absurd hd (serial.right _)

structure Reserving (s : System World Call) : Prop where
  holds : Holds Counted Pending s
  apart : Apart Distinct s

theorem reserving_init {db : Db} (h : db.shares.rows = []) :
    Reserving { store := { db } } where
  holds := {
    store   := {
      count hs   := by simp [Table.lookup, h] at hs
      unborn _   := rfl
      limit hs   := by simp [Table.lookup, h] at hs
      preceded   := by simp [Preceded]
      once       := List.nodup_nil
      below hk   := by contradiction }
    calls h := by simp at h }
  apart := by
    intro i j c d _ h
    simp at h

variable [Digest]

-- The step does not answer a preview with the payload.
def derives (w : World) (c : Call) : Bool :=
  match c with
  | .unlock _ => true
  | .visit v  =>
    match v.stage, v.request.endpoint with
    | .inScope, .preview entryId =>
      !w.db.files.previewsOriginal v.share.ownerId entryId v.share.allowDownload
    | _, _                       => true

-- What a step of a visit can do. Only a visit with a reservation is answered with a payload.
inductive Moved (w : World) (now : Time) (v : Visit) : World × Option Call → Prop
  | refused {error} : Moved w now v (w.refuse v.serial error)
  | advanced {stage} : stage ≠ .reserved → Moved w now v (w, some (.visit { v with stage }))
  | reserved {share} : w.db.shares.lookup v.shareId = some share → Db.reserves share now = true →
    Moved w now v (({ w with
        db := w.db.updateShare v.shareId fun s => { s with downloadCount := s.downloadCount + 1 } }).log
        [.reserved v.serial v.shareId], some (.visit { v with stage := .reserved }))
  | answered {a} : (w.derives (.visit v) = true → a.derived = false → v.stage = .reserved) →
    Moved w now v (w.log [.answered v.serial v.shareId a], none)

theorem moved_inScope {entryId : Id} : w.Moved now v (w.inScope v entryId) := by
  simp only [inScope]
  split
  case isTrue  => exact .advanced (by simp)
  case isFalse => exact .refused

theorem moved_reserveDownload : w.Moved now v (w.reserveDownload now v) := by
  simp only [reserveDownload]
  split
  case h_1 => exact .refused
  case h_2 hs =>
    split
    case isTrue hr => exact .reserved hs hr
    case isFalse   => exact .refused

theorem moved_answer {a : Except ShareError Answer}
    (h : w.derives (.visit v) = true → ∀ b, a = .ok b → b.derived = false → v.stage = .reserved) :
    w.Moved now v (w.answer v a) := by
  cases a
  case error => exact .refused
  case ok b  => exact .answered fun hd => h hd b rfl

theorem moved_payload {r : Except ResponseError Response}
    (h : w.derives (.visit v) = true → ∀ response, r = .ok response →
      response.body.derived = true ∨ v.stage = .reserved) :
    w.Moved now v (w.answer v ((Db.transfer r).map .payload)) := by
  refine moved_answer fun hw b hb hd => ?_
  obtain ⟨response, hr, rfl⟩ := Except.map_eq_ok_iff.mp hb
  refine (h hw response (Db.transfer_ok hr)).resolve_left fun hc => ?_
  simp [Answer.derived, hc] at hd

theorem Moved.keeps (m : w.Moved now v r) (h : w.Counted) (hp : w.Pending (.visit v))
    (hd : w.derives (.visit v) = true) : Keeps w (some (.visit v)) r.1 r.2 := by
  cases m
  case refused => exact keeps_of_quiet h quiet_refuse (by simp [refuse])
  case advanced stage hs =>
    refine .read h ⟨hp.below, hp.unanswered, fun hc hr => ?_⟩
    cases hc
    exact absurd hr hs
  case reserved hs hr =>
    refine ⟨h.reserve hs hr, fun hc => ?_, fun hc _ _ => ?_⟩
    case refine_1 =>
      cases hc
      refine ⟨hp.below, answers_reserved.symm ▸ hp.unanswered, fun hd _ => ?_⟩
      cases hd
      exact List.mem_append_right _ List.mem_cons_self
    case refine_2 =>
      exact ⟨hc.below, answers_reserved.symm ▸ hc.unanswered,
        fun hd hr => List.mem_append_left _ (hc.reserved hd hr)⟩
  case answered ha =>
    refine ⟨h.answer hp (ha hd), by simp, fun hc hd _ => ?_⟩
    refine ⟨hc.below, ?_, fun he hr => List.mem_append_left _ (hc.reserved he hr)⟩
    rw [history_log, answers_append, List.mem_append]
    rintro (hm | hm)
    case inl => exact hc.unanswered hm
    case inr => exact hd _ rfl (List.mem_singleton.mp hm).symm

theorem Moved.serial_eq {c : Call} (m : w.Moved now v r) (h : r.2 = some c) :
    c.serial = v.serial := by
  cases m <;> cases h <;> rfl

variable [Collation] [Services]

theorem moved_nextVisit : w.Moved now v (w.nextVisit now v) := by
  simp only [nextVisit]
  split
  case h_1 =>
    split
    case h_1 => exact .refused
    case h_2 => exact .advanced (by simp)
  case h_2 =>
    split
    case h_1 =>
      refine moved_answer fun _ b hb hd => ?_
      obtain ⟨view, -, rfl⟩ := Except.map_eq_ok_iff.mp hb
      contradiction
    case h_2 =>
      split
      case isTrue  => exact moved_inScope
      case isFalse => exact .refused
    all_goals exact moved_inScope
  case h_3 hs =>
    split
    case h_1 => exact .refused
    case h_2 => exact moved_reserveDownload
    case h_3 he =>
      refine moved_payload fun h response hr => .inl ?_
      simp only [derives, hs, he, Bool.not_eq_true'] at h
      split at hr
      case isTrue ha => exact Files.previewResponseInner_derived hr (ha ▸ h)
      case isFalse ha =>
        exact Files.previewResponseInner_derived hr (Bool.eq_false_iff.mpr ha ▸ h)
    case h_4 =>
      exact moved_payload fun _ response hr => .inl (Files.thumbnailResponse_derived hr)
  case h_4 hs =>
    split
    case h_1 => exact moved_payload fun _ _ _ => .inr hs
    case h_2 => exact .refused

variable [PasswordVerifier]

-- No preview is answered with the payload in this step.
def derivesStep (s : System World Call) : Label Incoming Time → Bool
  | .next i _ => (s.calls.lookup i).all s.store.derives
  | _         => true

variable {s s' : System World Call} {l : Label Incoming Time}

theorem serial_resume {c c' : Call} (h : w.resume now c = some (w', some c')) :
    c'.serial = c.serial := by
  cases c <;> replace h := congrArg Prod.snd (Option.some.inj h)
  case visit  => exact moved_nextVisit.serial_eq h
  case unlock => exact (call_nextUnlock h).left

theorem Reserving.step (h : Reserving s) (hl : derivesStep s l = true)
    (hs : s.step program l = some s') : Reserving s' := by
  have apart : Apart Distinct s' := by
    refine h.apart.step Ne.symm h.holds (fun hr hd => ?_) (fun hr hd => ?_) hs
    case refine_1 =>
      rw [Distinct, serial_start hr]
      exact Nat.ne_of_gt hd.below
    case refine_2 => rwa [Distinct, serial_resume hr]
  refine ⟨h.holds.stepApart h.apart apart ?_ ?_ hs, apart⟩
  case refine_1 =>
    intro i r x k _ hr
    exact keeps_start h.holds.store hr
  case refine_2 =>
    intro i now c x k he hi hc hr
    subst he
    cases c <;> replace hr := Option.some.inj hr
    case visit v =>
      have derives : s.store.derives (.visit v) = true := by simpa [derivesStep, hi] using hl
      have moved : s.store.Moved now v (s.store.nextVisit now v) := moved_nextVisit
      have keeps := moved.keeps h.holds.store hc derives
      rwa [hr] at keeps
    case unlock u =>
      have keeps : Keeps s.store (some (.unlock u)) (s.store.nextUnlock now u).1
          (s.store.nextUnlock now u).2 := keeps_nextUnlock h.holds.store hc
      rwa [hr] at keeps

end World

section

attribute [local instance] Collation.binary Digest.hi Services.offline PasswordVerifier.plain

-- The text file `a.txt`, which nobody has shared yet.
def desk : Db where
  files  := {
    entries  := ⟨[(4, ⟨7, none, .file, "a.txt", none, none⟩)], by decide⟩
    files    := ⟨[(4, some 5)], by decide⟩
    versions := ⟨[(5, ⟨4, 6, 2, 0⟩)], by decide⟩
    objects  := ⟨[(6, ⟨⟨2, some "5e", .ready, 0⟩, none⟩)], by decide⟩
    payloads := ⟨[(6, [104, 105])], by decide⟩ }
  index  := .empty
  albums := .empty
  items  := .empty
  shares := .empty
  access := .empty
  linked := linked_of_all (by decide)
  owner  := by
    intro x e r _ hr
    cases hr
  unique := by
    intro i j s t hs
    cases hs

-- The file, for one download.
def once : Share where
  ownerId      := 7
  resource     := ⟨.file, 4⟩
  token        := 0
  maxDownloads := some 1

def fetch (endpoint : Endpoint) : Request where
  token    := "AAAAAAAAAAAAAAAAAAAAAAAAAAAAAAAAAAAAAAAAAAA"
  endpoint := endpoint

end
end MyDrive.Shares
