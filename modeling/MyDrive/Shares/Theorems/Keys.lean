import MyDrive.Shares.Keys
import MyDrive.Shares.Theorems.Downloads

open Shared Locks

namespace MyDrive.Shares

open Transfers Drive

namespace Db

variable {db db' : Db} {i : Id} {p : Id → Share → Bool} {f : Share → Share} {q : Id → Bool} {s' : Share}

theorem lookup_updateShares : (db.updateShares p f).shares.lookup i =
    (db.shares.lookup i).map fun s => if p i s then { f s with token := s.token } else s := by
  simp [updateShares, setShares, Option.map_eq_bind]

theorem shares_deleteAccess : (db.deleteAccess q).shares = db.shares :=
  rfl

-- A row of the shares as a step that is not its insertion leaves it.
structure Stays (s s' : Share) : Prop where
  owner   : s'.ownerId = s.ownerId
  key     : s'.createdByApiKeyId = s.createdByApiKeyId
  revoked : s.revokedAt.isSome → s'.revokedAt.isSome

theorem stays_revoke {s : Share} {now : Time} :
    Stays s { revoke now s with token := s.token } where
  owner     := rfl
  key       := rfl
  revoked h := by
    obtain ⟨t, ht⟩ := Option.isSome_iff_exists.mp h
    simp [revoke, ht]

theorem stays_of_updateShares {now : Time}
    (h : (db.updateShares p (revoke now)).shares.lookup i = some s') :
    ∃ s, db.shares.lookup i = some s ∧ Stays s s' := by
  rw [lookup_updateShares, Option.map_eq_some_iff] at h
  obtain ⟨s, hs, rfl⟩ := h
  refine ⟨s, hs, ?_⟩
  split
  case isTrue  => exact stays_revoke
  case isFalse => exact ⟨rfl, rfl, id⟩

theorem stays_of_follows (hf : db.follows db' = true) (h : db'.shares.lookup i = some s') :
    ∃ s, db.shares.lookup i = some s ∧ Stays s s' := by
  have row := List.all_eq_true.mp hf _ (Table.lookup_eq_some_iff.mp h)
  obtain ⟨s, hs, hp⟩ := (Option.any_eq_true _ _).mp row
  simp only [Bool.and_eq_true, Bool.or_eq_true, decide_eq_true_eq] at hp
  obtain ⟨⟨owner, key⟩, revoked⟩ := hp
  refine ⟨s, hs, owner.symm, key.symm, fun hr => revoked.resolve_left ?_⟩
  simpa [Option.isSome_iff_ne_none] using hr

end Db

namespace Registry

variable {w w' : Registry} {now : Time} {c : KeyCall}

-- A revocation that is over has left no share of the key open, and there will be none: `create_share`
-- refuses a key that is revoked.
structure Closed (w : Registry) : Prop where
  owned {i s k} : w.db.shares.lookup i = some s → s.createdByApiKeyId = some k →
    ∃ key, w.keys.lookup k = some key ∧ key.ownerId = s.ownerId
  revoked {actor k n} : .apiKeyRevocation actor k true true n ∈ w.outcomes →
    ∃ key, w.keys.lookup k = some key ∧ key.revokedAt.isSome
  swept {actor k n i s} : .apiKeyRevocation actor k true true n ∈ w.outcomes →
    w.db.shares.lookup i = some s → s.createdByApiKeyId = some k → s.revokedAt.isSome
  below {k key} : w.keys.lookup k = some key → k < w.next

-- What a transaction knows between two of its statements, by the lock that it holds.
def Knows (w : Registry) : KeyCall → Prop
  | .create user _ (.drafted _ share)    =>
    share.ownerId = user.id ∧ share.createdByApiKeyId = user.apiKeyId
  | .create user _ (.keyed _ share)      =>
    (share.ownerId = user.id ∧ share.createdByApiKeyId = user.apiKeyId) ∧
      ∀ k, user.apiKeyId = some k →
        ∃ key, w.keys.lookup k = some key ∧ key.ownerId = user.id ∧ key.revokedAt = none
  | .revoke user keyId _ _ .locked       => ∃ key, w.keys.lookup keyId = some key ∧ key.ownerId = user
  | .revoke user keyId _ revokeShares (.swept shareIds) =>
    (∃ key, w.keys.lookup keyId = some key ∧ key.ownerId = user) ∧
      (revokeShares = true → ∀ i s, w.db.shares.lookup i = some s →
        s.createdByApiKeyId = some keyId → s.revokedAt = none → i ∈ shareIds)
  | _                                    => True

-- A step that revokes no key but `revoked`, and inserts no share but with the key `inserted`.
structure Moves (w : Registry) (revoked inserted : Option Id) (w' : Registry) : Prop where
  keys {k key} : w.keys.lookup k = some key → ∃ key', w'.keys.lookup k = some key' ∧
    key'.ownerId = key.ownerId ∧ (some k ≠ revoked → key'.revokedAt = key.revokedAt)
  shares {i s'} : w'.db.shares.lookup i = some s' →
    s'.createdByApiKeyId = inserted ∨ ∃ s, w.db.shares.lookup i = some s ∧ Db.Stays s s'

theorem Knows.move {revoked inserted : Option Id} (h : w.Knows c) (m : w.Moves revoked inserted w')
    (hr : ∀ k, (k, Mode.share) ∈ c.locks → some k ≠ revoked)
    (hi : ∀ k, (k, Mode.update) ∈ c.locks → some k ≠ inserted) : w'.Knows c := by
  cases c
  case create user request stage =>
    cases stage
    case keyed id share =>
      refine ⟨h.left, fun k hk => ?_⟩
      obtain ⟨key, hl, ho, hn⟩ := h.right k hk
      obtain ⟨key', hl', ho', hn'⟩ := m.keys hl
      refine ⟨key', hl', ho'.trans ho, (hn' (hr k ?_)).trans hn⟩
      simp [KeyCall.locks, hk]
    all_goals exact h
  case revoke user keyId revokeKey revokeShares stage =>
    cases stage
    case received => trivial
    case locked =>
      obtain ⟨key, hl, ho⟩ := h
      obtain ⟨key', hl', ho', -⟩ := m.keys hl
      exact ⟨key', hl', ho'.trans ho⟩
    case swept shareIds =>
      obtain ⟨⟨key, hl, ho⟩, hs⟩ := h
      obtain ⟨key', hl', ho', -⟩ := m.keys hl
      refine ⟨⟨key', hl', ho'.trans ho⟩, fun he i s' hs' hk hn => ?_⟩
      obtain new | ⟨s, hl, stays⟩ := m.shares hs'
      case inl => exact absurd (hk.symm.trans new) (hi keyId List.mem_cons_self)
      case inr =>
        refine hs he i s hl (stays.key ▸ hk) ?_
        by_contra hc
        have := stays.revoked (Option.isSome_iff_ne_none.mpr hc)
        simp [hn] at this

abbrev Keeps :=
  Locks.Keeps KeyCall.locks Closed Knows

-- A step without a lock: it revokes no key and inserts no share with one.
theorem Moves.keeps {call call' : Option KeyCall} (m : w.Moves none none w') (h : w.Closed)
    (ho : ∀ {a k n}, .apiKeyRevocation a k true true n ∈ w'.outcomes →
      .apiKeyRevocation a k true true n ∈ w.outcomes)
    (hb : ∀ {k key}, w'.keys.lookup k = some key → k < w'.next)
    (own : ∀ d, call' = some d → w'.Knows d) : Keeps w call w' call' where
  store := {
    owned {i s' k} hs hk := by
      obtain new | ⟨s, hs, stays⟩ := m.shares hs
      case inl => exact absurd (hk.symm.trans new) (by simp)
      case inr =>
        obtain ⟨key, hl, he⟩ := h.owned hs (stays.key ▸ hk)
        obtain ⟨key', hl', he', -⟩ := m.keys hl
        exact ⟨key', hl', he'.trans (he.trans stays.owner.symm)⟩
    revoked {a k n} hr   := by
      obtain ⟨key, hl, hr⟩ := h.revoked (ho hr)
      obtain ⟨key', hl', -, he⟩ := m.keys hl
      exact ⟨key', hl', (he (by simp)).symm ▸ hr⟩
    swept {a k n i s'} hr hs hk := by
      obtain new | ⟨s, hs, stays⟩ := m.shares hs
      case inl => exact absurd (hk.symm.trans new) (by simp)
      case inr => exact stays.revoked (h.swept (ho hr) hs (stays.key ▸ hk))
    below                := hb }
  own          := own _
  others h _ _ := h.move m (by simp) (by simp)

theorem Moves.refl {revoked inserted : Option Id} : w.Moves revoked inserted w where
  keys {_ key} hl := ⟨key, hl, rfl, fun _ => rfl⟩
  shares hs       := .inr ⟨_, hs, rfl, rfl, id⟩

-- A step that only takes a note, or goes on with its transaction.
theorem keeps_of_same {call call' : Option KeyCall} (h : w.Closed) (hd : w'.db = w.db)
    (hk : w'.keys = w.keys) (hn : w.next ≤ w'.next)
    (ho : ∀ {a k n}, .apiKeyRevocation a k true true n ∈ w'.outcomes →
      .apiKeyRevocation a k true true n ∈ w.outcomes)
    (own : ∀ d, call' = some d → w'.Knows d) : Keeps w call w' call' := by
  have moves : w.Moves none none w' := by
    refine ⟨fun {k key} hl => ⟨key, hk ▸ hl, rfl, fun _ => rfl⟩, fun hs => .inr ⟨_, hd ▸ hs, ?_⟩⟩
    exact ⟨rfl, rfl, id⟩
  refine moves.keeps h ho (fun hl => ?_) own
  exact Nat.lt_of_lt_of_le (h.below (hk ▸ hl)) hn

theorem keeps_log {call : Option KeyCall} {o : Outcome} (h : w.Closed)
    (ho : ∀ a k n, .apiKeyRevocation a k true true n ≠ o) : Keeps w call (w.log o) none := by
  refine keeps_of_same h rfl rfl (Nat.le_refl _) (fun hm => ?_) (by simp)
  simpa [log, ho] using hm

theorem keeps_createKey {user : Id} {input : NewKey} (h : w.Closed) :
    Keeps w none (w.createKey user input now).1 (w.createKey user input now).2 := by
  simp only [createKey]
  split
  case isTrue => exact keeps_log h (by simp)
  case isFalse =>
    split
    case isTrue => exact keeps_log h (by simp)
    case isFalse =>
      have fresh {k key} (hl : w.keys.lookup k = some key) : k ≠ w.next := Nat.ne_of_lt (h.below hl)
      refine Moves.keeps ⟨fun {k key} hl => ⟨key, ?_, rfl, fun _ => rfl⟩, fun hs => ?_⟩ h
        (fun hm => by simpa [log] using hm) (fun {k key} hl => ?_) (by simp)
      case refine_1 => simp [log, fresh hl, hl]
      case refine_2 => exact .inr ⟨_, hs, rfl, rfl, id⟩
      case refine_3 =>
        simp only [log, Table.lookup_set] at hl ⊢
        split at hl
        case isTrue he => exact he ▸ Nat.lt_succ_self _
        case isFalse   => exact Nat.lt_succ_of_lt (h.below hl)

theorem keeps_revokeShare {user shareId : Id} (h : w.Closed) :
    Keeps w none (w.revokeShare user shareId now).1 (w.revokeShare user shareId now).2 := by
  simp only [revokeShare]
  split
  case isTrue =>
    refine Moves.keeps ⟨fun {k key} hl => ⟨key, hl, rfl, fun _ => rfl⟩, fun hs => .inr ?_⟩ h
      (fun hm => by simpa [log] using hm) h.below (by simp)
    exact Db.stays_of_updateShares hs
  case isFalse => exact keeps_log h (by simp)

theorem keeps_start {r : KeyRequest} {x : Registry × Option KeyCall} (h : w.Closed)
    (hs : w.start r = some x) : Keeps w none x.1 x.2 := by
  cases r <;> simp only [start, Option.some.injEq] at hs
  case createKey       => exact hs ▸ keeps_createKey h
  case revokeShare     => exact hs ▸ keeps_revokeShare h
  case createShare     => exact hs ▸ .read h trivial
  case revokeKey       => exact hs ▸ .read h trivial
  case revokeKeyShares => exact hs ▸ .read h trivial
  case elsewhere =>
    split at hs <;> cases hs
    case isTrue hf =>
      refine Moves.keeps ⟨fun {k key} hl => ⟨key, hl, rfl, fun _ => rfl⟩, fun hs => .inr ?_⟩ h
        id h.below (by simp)
      exact Db.stays_of_follows hf hs

theorem keeps_findResource {user : AuthenticatedUser} {request : CreateShare} {call : Option KeyCall}
    (h : w.Closed) :
    Keeps w call (w.findResource now user request).1 (w.findResource now user request).2 := by
  simp only [findResource]
  split
  case isTrue => exact keeps_log h (by simp)
  case isFalse =>
    split
    case h_1 =>
      split
      case isTrue  => exact .read h trivial
      case isFalse => exact keeps_log h (by simp)
    case h_2 =>
      split
      case h_1 => exact keeps_log h (by simp)
      case h_2 => exact .read h trivial

theorem keeps_draftShare [PasswordHasher] {user : AuthenticatedUser} {request : CreateShare}
    {call : Option KeyCall} (h : w.Closed) :
    Keeps w call (w.draftShare user request).1 (w.draftShare user request).2 := by
  simp only [draftShare]
  split
  case isTrue => exact keeps_log h (by simp)
  case isFalse =>
    refine keeps_of_same h rfl rfl (Nat.le_succ _) id fun d hd => ?_
    cases hd
    exact ⟨rfl, rfl⟩

theorem keeps_lockKey {user : AuthenticatedUser} {request : CreateShare} {call : Option KeyCall}
    {shareId : Id} {share : Share} (h : w.Closed)
    (hk : w.Knows (.create user request (.drafted shareId share))) :
    Keeps w call (w.lockKey now user request shareId share).1
      (w.lockKey now user request shareId share).2 := by
  simp only [lockKey]
  split
  case isFalse => exact keeps_log h (by simp)
  case isTrue usable =>
    refine .read h ⟨hk, fun k he => ?_⟩
    simp only [he, Option.all_some, Option.any_eq_true, Bool.and_eq_true, decide_eq_true_eq,
      Option.isNone_iff_eq_none] at usable
    obtain ⟨key, hl, ⟨owner, unrevoked⟩, -⟩ := usable
    exact ⟨key, hl, owner, unrevoked⟩

theorem keeps_insertShare {user : AuthenticatedUser} {request : CreateShare} {shareId : Id}
    {share : Share} {x : Registry × Option KeyCall} (h : w.Closed)
    (hk : w.Knows (.create user request (.keyed shareId share)))
    (hs : w.insertShare user shareId share = some x) :
    Keeps w (some (.create user request (.keyed shareId share))) x.1 x.2 := by
  obtain ⟨db, hd, rfl⟩ := Option.map_eq_some_iff.mp hs
  obtain ⟨⟨owner, made⟩, usable⟩ := hk
  have rows {i s} (hl : db.shares.lookup i = some s) :
      s = share ∨ w.db.shares.lookup i = some s := by
    rw [(World.lookup_insertShare hd).right] at hl
    split at hl
    case isTrue  => exact .inl (Option.some.inj hl).symm
    case isFalse => exact .inr hl
  have outcomes {a k n} (hm : .apiKeyRevocation a k true true n ∈
      (({ w with db }).log (.shareCreated user.id shareId)).outcomes) :
      .apiKeyRevocation a k true true n ∈ w.outcomes := by
    simpa [log] using hm
  refine ⟨⟨fun {i s k} hl he => ?_, fun hr => h.revoked (outcomes hr), fun {a k n i s} hr hl he => ?_,
    h.below⟩, by simp, fun {c} hc hf _ => ?_⟩
  case refine_1 =>
    obtain rfl | hl := rows hl
    case inl =>
      obtain ⟨key, hl, ho, -⟩ := usable k (made.symm.trans he)
      exact ⟨key, hl, ho.trans owner.symm⟩
    case inr => exact h.owned hl he
  case refine_2 =>
    obtain rfl | hl := rows hl
    case inl =>
      obtain ⟨key, hl, -, unrevoked⟩ := usable k (made.symm.trans he)
      obtain ⟨key', hl', revoked⟩ := h.revoked (outcomes hr)
      cases hl.symm.trans hl'
      simp [unrevoked] at revoked
    case inr => exact h.swept (outcomes hr) hl he
  case refine_3 =>
    have moves : w.Moves none user.apiKeyId (({ w with db }).log (.shareCreated user.id shareId)) := by
      refine ⟨fun {k key} hl => ⟨key, hl, rfl, fun _ => rfl⟩, fun hl => (rows hl).imp ?_ fun hl => ?_⟩
      case refine_1 => rintro rfl; exact made
      case refine_2 => exact ⟨_, hl, rfl, rfl, id⟩
    refine hc.move moves (by simp) fun k hm he => ?_
    have shared : (k, Mode.share) ∈
        (KeyCall.create user request (.keyed shareId share)).locks := by
      simp [KeyCall.locks, ← he]
    exact ne_of_free' (hf _ rfl) shared hm rfl

section

variable {user keyId : Id} {revokeKey revokeShares : Bool} {shareIds : List Id}

theorem key_of_commit {k : Id} {key : ApiKey} (hl : w.keys.lookup k = some key) :
    ∃ key', (w.commitRevocation now user keyId revokeKey revokeShares shareIds).1.keys.lookup k =
        some key' ∧ key'.ownerId = key.ownerId ∧ (k ≠ keyId → key'.revokedAt = key.revokedAt) ∧
      (key.revokedAt.isSome ∨ k = keyId ∧ revokeKey = true → key'.revokedAt.isSome) := by
  simp only [commitRevocation, log]
  split
  case isTrue =>
    rw [Table.lookup_filterMap, hl]
    by_cases he : k = keyId
    case pos =>
      refine ⟨{ key with revokedAt := key.revokedAt.or now }, by simp [he], rfl, ?_, fun _ => by simp⟩
      exact fun hn => absurd he hn
    case neg => exact ⟨key, by simp [he], rfl, fun _ => rfl, fun h => h.resolve_right (by simp [he])⟩
  case isFalse hr => exact ⟨key, hl, rfl, fun _ => rfl, fun h => h.resolve_right (by simp [hr])⟩

theorem share_of_commit {i : Id} {s' : Share}
    (hl : (w.commitRevocation now user keyId revokeKey revokeShares shareIds).1.db.shares.lookup i =
      some s') :
    ∃ s, w.db.shares.lookup i = some s ∧ Db.Stays s s' ∧
      (revokeShares = true → i ∈ shareIds → s'.revokedAt.isSome) := by
  simp only [commitRevocation, log] at hl
  split at hl
  case isFalse hr => exact ⟨s', hl, ⟨rfl, rfl, id⟩, fun he => absurd he hr⟩
  case isTrue =>
    rw [Db.shares_deleteAccess] at hl
    obtain ⟨s, hs, stays⟩ := Db.stays_of_updateShares hl
    refine ⟨s, hs, stays, fun _ hi => ?_⟩
    rw [Db.lookup_updateShares, hs, Option.map_some, if_pos (by simpa using hi)] at hl
    cases hl
    simp [Db.revoke]

theorem keeps_commitRevocation (h : w.Closed)
    (hk : w.Knows (.revoke user keyId revokeKey revokeShares (.swept shareIds))) :
    Keeps w (some (.revoke user keyId revokeKey revokeShares (.swept shareIds)))
      (w.commitRevocation now user keyId revokeKey revokeShares shareIds).1
      (w.commitRevocation now user keyId revokeKey revokeShares shareIds).2 := by
  obtain ⟨⟨key, hl, ho⟩, all⟩ := hk
  refine ⟨⟨fun {i s' k} hs he => ?_, fun {a k n} hr => ?_, fun {a k n i s'} hr hs he => ?_,
    fun {k key} hl => ?_⟩, by simp [commitRevocation], fun {c} hc hf _ => ?_⟩
  case refine_1 =>
    obtain ⟨s, hs, stays, -⟩ := share_of_commit hs
    obtain ⟨key, hl, owner⟩ := h.owned hs (stays.key ▸ he)
    obtain ⟨key', hl', owner', -⟩ := key_of_commit hl
    exact ⟨key', hl', owner'.trans (owner.trans stays.owner.symm)⟩
  case refine_2 =>
    obtain hr | hr := List.mem_append.mp hr
    case inl =>
      obtain ⟨key, hl, hr⟩ := h.revoked hr
      obtain ⟨key', hl', -, -, revoked⟩ := key_of_commit hl
      exact ⟨key', hl', revoked (.inl hr)⟩
    case inr =>
      cases List.mem_singleton.mp hr
      obtain ⟨key', hl', -, -, revoked⟩ := key_of_commit hl
      exact ⟨key', hl', revoked (.inr ⟨rfl, rfl⟩)⟩
  case refine_3 =>
    obtain ⟨s, hw, stays, closed⟩ := share_of_commit hs
    have made : s.createdByApiKeyId = some k := stays.key ▸ he
    obtain hr | hr := List.mem_append.mp hr
    case inl => exact stays.revoked (h.swept hr hw made)
    case inr =>
      cases List.mem_singleton.mp hr
      cases hn : s.revokedAt
      case some => exact stays.revoked (by simp [hn])
      case none => exact closed rfl (all rfl i s hw made hn)
  case refine_4 =>
    simp only [commitRevocation, log] at hl
    split at hl
    case isTrue =>
      rw [Table.lookup_filterMap] at hl
      obtain ⟨key', hl', -⟩ := Option.bind_eq_some_iff.mp hl
      exact h.below hl'
    case isFalse => exact h.below hl
  case refine_5 =>
    have moves : w.Moves (some keyId) none
        (w.commitRevocation now user keyId revokeKey revokeShares shareIds).1 := by
      refine ⟨fun hl => ?_, fun hs => .inr ?_⟩
      case refine_1 =>
        obtain ⟨key', hl', owner, same, -⟩ := key_of_commit hl
        exact ⟨key', hl', owner, fun hn => same (by simpa using hn)⟩
      case refine_2 =>
        obtain ⟨s, hs, stays, -⟩ := share_of_commit hs
        exact ⟨s, hs, stays⟩
    refine hc.move moves (fun k hm he => ?_) (by simp)
    cases he
    exact ne_of_free (hf _ rfl) List.mem_cons_self hm rfl

theorem keeps_nextRevoke {stage : RevokeStage} (h : w.Closed)
    (hk : w.Knows (.revoke user keyId revokeKey revokeShares stage)) :
    Keeps w (some (.revoke user keyId revokeKey revokeShares stage))
      (w.nextRevoke now user keyId revokeKey revokeShares stage).1
      (w.nextRevoke now user keyId revokeKey revokeShares stage).2 := by
  cases stage <;> simp only [nextRevoke]
  case received =>
    split
    case isTrue found => exact .read h (by simpa [Knows] using (Option.any_eq_true _ _).mp found)
    case isFalse      => exact keeps_log h (by simp)
  case locked =>
    refine .read h ⟨hk, fun hr i s hs he hn => ?_⟩
    obtain ⟨key, hl, ho⟩ := hk
    obtain ⟨key', hl', owner⟩ := h.owned hs he
    cases hl.symm.trans hl'
    -- Nobody but the owner of a key has shares with it, so that the sweep finds them all.
    have found : ofKey user keyId s = true := by simp [ofKey, he, ← owner, ho]
    rw [if_pos hr, List.mem_map]
    refine ⟨(i, s), List.mem_filter.mpr ⟨Table.lookup_eq_some_iff.mp hs, ?_⟩, rfl⟩
    simp [found, hn]
  case swept => exact keeps_commitRevocation h hk

end

theorem closed_init {db : Db} (h : db.shares.rows = []) :
    Locks.Holds KeyCall.locks Closed Knows { store := { db } } where
  store := {
    owned hs   := by simp [Table.lookup, h] at hs
    revoked hr := by simp at hr
    swept hr   := by simp at hr
    below hl   := by simp at hl }
  calls h := by simp at h
  apart i j c d _ hc := by simp at hc

variable [PasswordHasher] {s s' : System Registry KeyCall} {l : Label KeyRequest Time}

theorem keeps_resume {x : Registry × Option KeyCall} (h : w.Closed) (hk : w.Knows c)
    (hs : w.resume now c = some x) : Keeps w (some c) x.1 x.2 := by
  cases c <;> simp only [resume, Option.some.injEq] at hs
  case revoke => exact hs ▸ keeps_nextRevoke h hk
  case create user request stage =>
    cases stage <;> simp only [nextCreate, Option.some.injEq] at hs
    case received => exact hs ▸ keeps_findResource h
    case found    => exact hs ▸ keeps_draftShare h
    case drafted  => exact hs ▸ keeps_lockKey h hk
    case keyed    => exact keeps_insertShare h hk hs

theorem closed_step (h : Locks.Holds KeyCall.locks Closed Knows s) (hs : step s l = some s') :
    Locks.Holds KeyCall.locks Closed Knows s' :=
  h.step (fun _ hr => keeps_start h.store hr) (fun _ _ hk hr => keeps_resume h.store hk hr) hs

-- Once a key was revoked together with its shares, every share that was made with it is revoked,
-- and stays so, whatever the requests to create one that overlap with the revocation.
theorem key_shares_revoked {db : Db} {actor keyId i : Id} {n : Nat} {share : Share}
    (h : db.shares.rows = []) (run : Execution.Reaches step { store := { db } } s)
    (hr : .apiKeyRevocation actor keyId true true n ∈ s.store.outcomes)
    (hs : s.store.db.shares.lookup i = some share) (hk : share.createdByApiKeyId = some keyId) :
    share.revokedAt.isSome :=
  (run.invariant (closed_init h) fun h _ => closed_step h).store.swept hr hs hk

end Registry

section

attribute [local instance] PasswordHasher.plain

-- The key is revoked while a share is being created with it.
theorem key_shares_revoked_overlap :
    ∃ s share, Execution.Reaches Registry.step { store := { db := desk } } s ∧
      Outcome.apiKeyRevocation 7 0 true true 1 ∈ s.store.outcomes ∧
      (s.store.db.shares.lookup 1 = some share ∧ share.createdByApiKeyId = some 0) ∧
      share.revokedAt.isSome := by
  have run : (Execution.run Registry.step { store := { db := desk } }
      [.start 0 (.createKey 7 { name := "k", scopes := ["shares:write"] } 10),
       .start 1 (.createShare ⟨7, some 0⟩ { resource := ⟨.file, 4⟩ }), .start 2 (.revokeKey 7 0 true),
       .next 1 10, .next 1 10, .next 1 10, .next 1 10, .next 2 20, .next 2 20, .next 2 20]).map
      (fun s => (s.store.outcomes.any (· = .apiKeyRevocation 7 0 true true 1),
        (s.store.db.shares.lookup 1).map (·.createdByApiKeyId))) = some (true, some (some 0)) := by
    decide +kernel
  obtain ⟨s, hs, he⟩ := Option.map_eq_some_iff.mp run
  simp only [Prod.mk.injEq, List.any_eq_true, decide_eq_true_eq, exists_eq_right,
    Option.map_eq_some_iff] at he
  obtain ⟨revoked, share, found, made⟩ := he
  have reaches : Execution.Reaches Registry.step { store := { db := desk } } s :=
    Execution.reaches_of_run hs
  exact ⟨s, share, reaches, revoked, ⟨found, made⟩,
    Registry.key_shares_revoked rfl reaches revoked found made⟩

end
end MyDrive.Shares
