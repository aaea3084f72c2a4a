import Mathlib.Data.List.Induction
import MyDrive.Accounts.Sessions

open Shared Locks

namespace MyDrive.Accounts

-- The account whose credentials the event has changed, with the session that is left open.
def Event.secures : Event → Option (Id × Option Id)
  | .passwordChanged user session _ => some (user, some session)
  | .passwordReset user _           => some (user, none)
  | .accountDisabled user _         => some (user, none)
  | _                               => none

def Event.hash (user : Id) : Event → Option String
  | .passwordChanged id _ hash => if id = user then some hash else none
  | .passwordReset id hash     => if id = user then some hash else none
  | .accountDisabled id hash   => if id = user then some hash else none
  | _                          => none

-- The hash that the last change of its credentials has left the account with.
def currentHash (history : List Event) (user : Id) : Option String :=
  history.foldl (fun h e => (e.hash user).or h) none

-- The session `x` was opened after `pre`, by a login that verified its password against the hash of
-- that time.
def OpenedAfter [Passwords] (pre post : List Event) (user x : Id) : Prop :=
  ∃ before after hash password, post = before ++ .loggedIn x user hash password :: after ∧
    Passwords.verifyPassword hash password = true ∧ currentHash (pre ++ before) user = some hash

-- Each change of the credentials has closed all sessions but its own and those that were opened later.
def Secured [Passwords] (history : List Event) (sessions : Table Id BrowserSession) : Prop :=
  ∀ pre e post user maker x session, history = pre ++ e :: post → e.secures = some (user, maker) →
    sessions.lookup x = some session → session.userId = user → session.revokedAt = none →
    maker = some x ∨ OpenedAfter (pre ++ [e]) post user x

variable {history pre post : List Event} {e : Event} {user x : Id} {h : String}

theorem currentHash_concat : currentHash (history ++ [e]) user =
    (e.hash user).or (currentHash history user) := by
  simp [currentHash]

theorem currentHash_of_secures {maker : Option Id} (he : e.secures = some (user, maker)) :
    ∃ h, e.hash user = some h := by
  cases e <;> cases he <;> exact ⟨_, if_pos rfl⟩

theorem currentHash_isSome {maker : Option Id} (he : e.secures = some (user, maker)) :
    (currentHash (pre ++ e :: post) user).isSome := by
  induction post using List.reverseRecOn
  case nil =>
    obtain ⟨h, hh⟩ := currentHash_of_secures he
    rw [currentHash_concat, hh]
    rfl
  case append_singleton post e' ih =>
    rw [← List.cons_append, ← List.append_assoc, currentHash_concat, Option.isSome_or, ih,
      Bool.or_true]

-- The last event of a history is the one that is looked at, or comes after it.
theorem concat_eq_append_cons {e' : Event} (heq : history ++ [e'] = pre ++ e :: post) :
    (history = pre ∧ e' = e ∧ post = []) ∨ ∃ post', post = post' ++ [e'] ∧ history = pre ++ e :: post' := by
  obtain rfl | ⟨post', last, rfl⟩ := List.eq_nil_or_concat post
  case inl =>
    obtain ⟨hh, hl⟩ := List.append_inj' heq rfl
    exact .inl ⟨hh, List.singleton_inj.mp hl, rfl⟩
  case inr =>
    rw [List.concat_eq_append, ← List.cons_append, ← List.append_assoc] at heq
    obtain ⟨hh, hl⟩ := List.append_inj' heq rfl
    refine .inr ⟨post', ?_, hh⟩
    rw [List.concat_eq_append, List.singleton_inj.mp hl]

section

variable [Passwords] {sessions sessions' : Table Id BrowserSession}

theorem OpenedAfter.concat {e' : Event} (ho : OpenedAfter pre post user x) :
    OpenedAfter pre (post ++ [e']) user x := by
  obtain ⟨before, after, hash, password, rfl, hv, hc⟩ := ho
  exact ⟨before, after ++ [e'], hash, password, by simp, hv, hc⟩

-- The sessions that are open now were open before, and belong to the same accounts.
def Shrinks (sessions sessions' : Table Id BrowserSession) : Prop :=
  ∀ x s', sessions'.lookup x = some s' → s'.revokedAt = none →
    ∃ s, sessions.lookup x = some s ∧ s.userId = s'.userId ∧ s.revokedAt = none

theorem Secured.shrink (hs : Secured history sessions) (hr : Shrinks sessions sessions') :
    Secured history sessions' := by
  intro pre e post user maker x s' heq he hl hu hn
  obtain ⟨s, hl, hu', hn⟩ := hr x s' hl hn
  exact hs pre e post user maker x s heq he hl (hu'.trans hu) hn

theorem Secured.concat {e' : Event} (hs : Secured history sessions)
    (he' : ∀ user maker, e'.secures = some (user, maker) → ∀ x s, sessions.lookup x = some s →
      s.userId = user → s.revokedAt = none → maker = some x) :
    Secured (history ++ [e']) sessions := by
  intro pre e post user maker x s heq he hl hu hn
  obtain ⟨rfl, rfl, rfl⟩ | ⟨post', rfl, hh⟩ := concat_eq_append_cons heq
  case inl => exact .inl (he' user maker he x s hl hu hn)
  case inr =>
    exact (hs pre e post' user maker x s hh he hl hu hn).imp_right OpenedAfter.concat

theorem Secured.login {password : String} {ttl : Time} (hs : Secured history sessions)
    (hv : Passwords.verifyPassword h password = true)
    (hc : ∀ hash, currentHash history user = some hash → hash = h) :
    Secured (history ++ [.loggedIn x user h password])
      (sessions.set x { userId := user, expiresAt := ttl }) := by
  intro pre e post user' maker y s heq he hl hu hn
  obtain ⟨-, rfl, -⟩ | ⟨post', rfl, hh⟩ := concat_eq_append_cons heq
  case inl => cases he
  case inr =>
    rw [Table.lookup_set] at hl
    split at hl
    case isTrue hy =>
      cases hl
      subst hy hu
      refine .inr ⟨post', [], h, password, rfl, hv, ?_⟩
      rw [List.append_assoc, List.singleton_append, ← hh]
      obtain ⟨hash, known⟩ := Option.isSome_iff_exists.mp (hh ▸ currentHash_isSome he)
      rw [known, hc hash known]
    case isFalse =>
      exact (hs pre e post' user' maker y s hh he hl hu hn).imp_right OpenedAfter.concat

end

namespace World

variable {w w' : World} {t : Tick} {c : Call} {ids : List Id}

theorem lookup_updateUser {f : User → User} {i : Id} :
    (w.updateUser user f).users.lookup i =
      (w.users.lookup i).map fun u => if i = user then f u else u := by
  simp only [updateUser, Table.lookup_filterMap, Option.map_eq_bind]
  rfl

theorem lookup_revokeSessions {now : Time} {p : Id → BrowserSession → Bool} :
    (w.revokeSessions now p).sessions.lookup x = (w.sessions.lookup x).map fun s =>
      if p x s && s.revokedAt.isNone then { s with revokedAt := some now } else s := by
  simp only [revokeSessions, Table.lookup_filterMap, Option.map_eq_bind]
  rfl

theorem open_of_revokeSessions {now : Time} {p : Id → BrowserSession → Bool} {s : BrowserSession}
    (hl : (w.revokeSessions now p).sessions.lookup x = some s) (hn : s.revokedAt = none) :
    w.sessions.lookup x = some s ∧ p x s = false := by
  rw [lookup_revokeSessions, Option.map_eq_some_iff] at hl
  obtain ⟨s', hl, rfl⟩ := hl
  split at hn
  case isTrue => contradiction
  case isFalse hp =>
    rw [if_neg hp]
    exact ⟨hl, by simpa [hn] using hp⟩

-- The list has all open sessions of the account, apart from the current one.
def Swept (w : World) (user : Id) (current : Option Id) (ids : List Id) : Prop :=
  ∀ x s, w.sessions.lookup x = some s → s.userId = user → s.revokedAt = none →
    x ∈ ids ∨ current = some x

theorem swept_openSessions {current : Option Id} :
    w.Swept user current (w.openSessions user current) := by
  intro x s hl hu hn
  by_cases hc : current = some x
  case pos => exact .inr hc
  case neg =>
    refine .inl (List.mem_map.mpr ⟨(x, s), List.mem_filter.mpr ⟨?_, ?_⟩, rfl⟩)
    case refine_1 => exact Table.lookup_eq_some_iff.mp hl
    case refine_2 => simp [hu, hn, Ne.symm hc]

section

variable [Passwords]

structure Sound (w : World) : Prop where
  secured : Secured w.history w.sessions
  hashed {u h} : currentHash w.history u = some h →
    ∃ row, w.users.lookup u = some row ∧ row.passwordHash = h
  below {u row} : w.users.lookup u = some row → u < w.next

-- What a transaction knows between two of its statements, by the lock that it holds.
def Knows (w : World) : Call → Prop
  | .login _ password (.verified _ hash)      =>
    Passwords.verifyPassword hash password = true
  | .login _ password (.locked user hash)     =>
    Passwords.verifyPassword hash password = true ∧
      ∃ row, w.users.lookup user = some row ∧ row.passwordHash = hash
  | .change user _ _ _ (.updated _)           => ∃ row, w.users.lookup user = some row
  | .change user sessionId _ _ (.swept _ ids) =>
    (∃ row, w.users.lookup user = some row) ∧ w.Swept user (some sessionId) ids
  | .update _ account _ disabled (.swept ids) => disabled = some true → w.Swept account none ids
  | .reset _ account _ (.updated _)           => ∃ row, w.users.lookup account = some row
  | .reset _ account _ (.swept _ ids)         =>
    (∃ row, w.users.lookup account = some row) ∧ w.Swept account none ids
  | _                                         => True

-- A step that writes no account but `written`, and opens no session but for the account `opened`.
structure Moves (w : World) (written opened : Option Id) (w' : World) : Prop where
  users {u row} : w.users.lookup u = some row →
    ∃ row', w'.users.lookup u = some row' ∧ (some u ≠ written → row' = row)
  sessions {i s'} : w'.sessions.lookup i = some s' → s'.revokedAt = none →
    some s'.userId = opened ∨
      ∃ s, w.sessions.lookup i = some s ∧ s.userId = s'.userId ∧ s.revokedAt = none

omit [Passwords] in
theorem Swept.move {written opened current : Option Id} (h : w.Swept user current ids)
    (m : w.Moves written opened w') (ho : some user ≠ opened) : w'.Swept user current ids := by
  intro x s' hl hu hn
  obtain new | ⟨s, hl, hu', hn⟩ := m.sessions hl hn
  case inl => exact absurd (hu ▸ new) ho
  case inr => exact h x s hl (hu'.trans hu) hn

omit [Passwords] in
theorem Moves.exists_user {written opened : Option Id} (m : w.Moves written opened w')
    (h : ∃ row, w.users.lookup user = some row) : ∃ row, w'.users.lookup user = some row := by
  obtain ⟨row, hl⟩ := h
  obtain ⟨row', hl', -⟩ := m.users hl
  exact ⟨row', hl'⟩

theorem Knows.move {written opened : Option Id} (h : w.Knows c) (m : w.Moves written opened w')
    (hw : ∀ u, (u, Mode.share) ∈ c.locks → some u ≠ written)
    (ho : ∀ u, (u, Mode.update) ∈ c.locks → some u ≠ opened) : w'.Knows c := by
  cases c <;> rename_i stage <;> cases stage <;> try exact h
  case login.locked user hash =>
    obtain ⟨hv, row, hl, hh⟩ := h
    obtain ⟨row', hl', same⟩ := m.users hl
    exact ⟨hv, row', hl', same (hw user List.mem_cons_self) ▸ hh⟩
  case change.updated => exact m.exists_user h
  case change.swept   => exact ⟨m.exists_user h.left, h.right.move m (ho _ List.mem_cons_self)⟩
  case update.swept   => exact fun hd => (h hd).move m (ho _ List.mem_cons_self)
  case reset.updated  => exact m.exists_user h
  case reset.swept    => exact ⟨m.exists_user h.left, h.right.move m (ho _ List.mem_cons_self)⟩

abbrev Keeps :=
  Locks.Keeps Call.locks Sound Knows

-- A step without a lock, after which there are the same accounts or a new one, and no new sessions.
theorem Moves.keeps {call call' : Option Call} (m : w.Moves none none w') (h : w.Sound)
    (hh : w'.history = w.history) (hb : ∀ {u row}, w'.users.lookup u = some row → u < w'.next)
    (own : ∀ d, call' = some d → w'.Knows d) : Keeps w call w' call' where
  store := {
    secured  := by
      rw [hh]
      refine h.secured.shrink fun x s' hl hn => ?_
      exact (m.sessions hl hn).resolve_left (by simp)
    hashed hc := by
      obtain ⟨row, hl, he⟩ := h.hashed (hh ▸ hc)
      obtain ⟨row', hl', same⟩ := m.users hl
      exact ⟨row', hl', same (by simp) ▸ he⟩
    below    := hb }
  own          := own _
  others h _ _ := h.move m (by simp) (by simp)

theorem keeps_refuse {call : Option Call} {e : AccountError} (h : w.Sound) :
    Keeps w call (w.refuse e).1 (w.refuse e).2 where
  store := {
    secured  := h.secured.concat fun _ _ he => by contradiction
    hashed hc := h.hashed (by rwa [refuse, log, currentHash_concat] at hc)
    below    := h.below }
  own he       := by contradiction
  others hc _ _ := by
    have moves : w.Moves none none (w.refuse e).1 :=
      ⟨fun hl => ⟨_, hl, fun _ => rfl⟩, fun hl hn => .inr ⟨_, hl, rfl, hn⟩⟩
    exact hc.move moves (by simp) (by simp)

theorem keeps_insertUser {row : User} (h : w.Sound) :
    Keeps w none (w.insertUser row).1 (w.insertUser row).2 := by
  have moves : w.Moves none none (w.insertUser row).1 := by
    refine ⟨fun {u row} hl => ⟨row, ?_, fun _ => rfl⟩, fun hl hn => .inr ⟨_, hl, rfl, hn⟩⟩
    have ne : u ≠ w.next := Nat.ne_of_lt (h.below hl)
    simp [insertUser, ne, hl]
  refine moves.keeps h rfl (fun {u row} hl => ?_) (by simp [insertUser])
  simp only [insertUser, Table.lookup_set] at hl ⊢
  split at hl
  case isTrue he => exact he ▸ Nat.lt_succ_self _
  case isFalse   => exact Nat.lt_succ_of_lt (h.below hl)

theorem keeps_revokeSessions {now : Time} {p : Id → BrowserSession → Bool} (h : w.Sound) :
    Keeps w none (w.revokeSessions now p) none := by
  have moves : w.Moves none none (w.revokeSessions now p) := by
    refine ⟨fun hl => ⟨_, hl, fun _ => rfl⟩, fun hl hn => .inr ⟨_, ?_, rfl, hn⟩⟩
    exact (open_of_revokeSessions hl hn).left
  exact moves.keeps h rfl h.below (by simp)

-- A transaction goes on, and takes a number for the salt of a new hash.
theorem keeps_numbered {call : Option Call} {n : Nat} (h : w.Sound) (hn : w.next ≤ n) (hc : w.Knows c) :
    Keeps w call { w with next := n } (some c) := by
  have moves : w.Moves none none { w with next := n } :=
    ⟨fun hl => ⟨_, hl, fun _ => rfl⟩, fun hl hn => .inr ⟨_, hl, rfl, hn⟩⟩
  refine moves.keeps h rfl (fun hl => Nat.lt_of_lt_of_le (h.below hl) hn) fun d hd => ?_
  cases hd
  cases c <;> rename_i stage <;> cases stage <;> exact hc

theorem keeps_login {password email hash : String} {expiresAt : Time} (h : w.Sound)
    (hc : w.Knows (.login email password (.locked user hash))) :
    Keeps w (some (.login email password (.locked user hash)))
      (({ w with sessions := w.sessions.set w.next { userId := user, expiresAt := expiresAt },
                 next := w.next + 1 }).log (.loggedIn w.next user hash password)) none := by
  obtain ⟨hv, row, hl, hh⟩ := hc
  refine ⟨⟨?_, fun {u hash'} hc => ?_, fun hl => Nat.lt_succ_of_lt (h.below hl)⟩, by simp,
    fun hc hf _ => ?_⟩
  case refine_1 =>
    refine h.secured.login hv fun hash' hc => ?_
    obtain ⟨row', hl', hh'⟩ := h.hashed hc
    cases hl.symm.trans hl'
    exact hh'.symm.trans hh
  case refine_2 =>
    rw [log, currentHash_concat] at hc
    exact h.hashed hc
  case refine_3 =>
    have moves : w.Moves none (some user)
        (({ w with sessions := w.sessions.set w.next { userId := user, expiresAt := expiresAt },
                   next := w.next + 1 }).log (.loggedIn w.next user hash password)) := by
      refine ⟨fun hl => ⟨_, hl, fun _ => rfl⟩, fun {x s'} hl hn => ?_⟩
      simp only [log, Table.lookup_set] at hl
      split at hl
      case isTrue  => cases hl; exact .inl rfl
      case isFalse => exact .inr ⟨s', hl, rfl, hn⟩
    refine hc.move moves (by simp) fun u hm he => ?_
    cases he
    exact ne_of_free' (hf _ rfl) List.mem_cons_self hm rfl

-- The row of the account, and the sessions of the list.
def commit (w : World) (now : Time) (user : Id) (f : User → User) (ids : List Id) : World :=
  (w.updateUser user f).revokeSessions now fun i _ => i ∈ ids

section

variable {now : Time} {f : User → User} {d : Call} {current : Option Id}

omit [Passwords] in
theorem lookup_commit {i : Id} : (w.commit now user f ids).users.lookup i =
    (w.users.lookup i).map fun u => if i = user then f u else u :=
  lookup_updateUser

omit [Passwords] in
theorem moves_commit {es : List Event} : w.Moves (some user) none
    { w.commit now user f ids with history := w.history ++ es } where
  users {u row} hl := by
    refine ⟨if u = user then f row else row, ?_, fun hn => if_neg (by simpa using hn)⟩
    rw [lookup_commit, hl]
    rfl
  sessions hl hn   := .inr ⟨_, (open_of_revokeSessions hl hn).left, rfl, hn⟩

theorem others_commit {es : List Event} (hd : (user, Mode.update) ∈ d.locks) (hc : w.Knows c)
    (hf : Free Call.locks d c) :
    ({ w.commit now user f ids with history := w.history ++ es } : World).Knows c := by
  refine hc.move moves_commit (fun u hm he => ?_) (by simp)
  cases he
  exact ne_of_free hf hd hm rfl

theorem below_updateUser (h : w.Sound) {u : Id} {row : User}
    (hl : (w.updateUser user f).users.lookup u = some row) : u < w.next := by
  rw [lookup_updateUser, Option.map_eq_some_iff] at hl
  obtain ⟨row', hl, -⟩ := hl
  exact h.below hl

-- A commit that changes the credentials of the account.
theorem keeps_commit (h : w.Sound) (hd : (user, Mode.update) ∈ d.locks)
    (hs : w.Swept user current ids) (he : e.secures = some (user, current))
    (hh : ∃ row, w.users.lookup user = some row ∧ e.hash user = some (f row).passwordHash)
    (ho : ∀ u, u ≠ user → e.hash u = none) :
    Keeps w (some d) { w.commit now user f ids with history := w.history ++ [e] } none := by
  refine ⟨⟨?_, fun {u hash} hc => ?_, fun hl => below_updateUser h hl⟩, by simp,
    fun hc hf _ => others_commit hd hc (hf _ rfl)⟩
  case refine_1 =>
    refine (h.secured.shrink fun x s hl hn => ?_).concat fun user' maker he' x s hl hu hn => ?_
    case refine_1 => exact ⟨s, (open_of_revokeSessions hl hn).left, rfl, hn⟩
    case refine_2 =>
      obtain ⟨rfl, rfl⟩ := Prod.mk.inj (Option.some.inj (he.symm.trans he'))
      obtain ⟨hl, hp⟩ := open_of_revokeSessions hl hn
      exact (hs x s hl hu hn).resolve_left (by simpa using hp)
  case refine_2 =>
    rw [currentHash_concat] at hc
    rw [lookup_commit]
    by_cases hu : u = user
    case pos =>
      subst hu
      obtain ⟨row, hl, hash'⟩ := hh
      rw [hash', Option.some_or] at hc
      exact ⟨f row, by simp [hl], Option.some.inj hc⟩
    case neg =>
      rw [ho u hu, Option.none_or] at hc
      obtain ⟨row, hl, hash'⟩ := h.hashed hc
      exact ⟨row, by simp [hl, hu], hash'⟩

-- A commit that leaves the credentials as they are.
theorem keeps_commit_same (h : w.Sound) (hd : (user, Mode.update) ∈ d.locks)
    (hf : ∀ row, (f row).passwordHash = row.passwordHash) :
    Keeps w (some d) { w.commit now user f ids with history := w.history ++ [] } none := by
  refine ⟨⟨?_, fun {u hash} hc => ?_, fun hl => below_updateUser h hl⟩, by simp,
    fun hc hf _ => others_commit hd hc (hf _ rfl)⟩
  case refine_1 =>
    rw [List.append_nil]
    exact h.secured.shrink fun x s hl hn => ⟨s, (open_of_revokeSessions hl hn).left, rfl, hn⟩
  case refine_2 =>
    rw [List.append_nil] at hc
    obtain ⟨row, hl, hash'⟩ := h.hashed hc
    rw [lookup_commit]
    refine ⟨if u = user then f row else row, by simp [hl], ?_⟩
    split
    case isTrue  => exact (hf row).trans hash'
    case isFalse => exact hash'

end

theorem keeps_nextChange {sessionId : Id} {current new : String} {stage : ChangeStage} (h : w.Sound)
    (hc : w.Knows (.change user sessionId current new stage)) :
    Keeps w (some (.change user sessionId current new stage))
      (w.nextChange t user sessionId current new stage).1
      (w.nextChange t user sessionId current new stage).2 := by
  cases stage <;> simp only [nextChange]
  case received =>
    split
    case isTrue => exact keeps_refuse h
    case isFalse =>
      split
      case h_1 => exact keeps_refuse h
      case h_2 =>
        split
        case isTrue  => exact keeps_numbered h (Nat.le_succ _) trivial
        case isFalse => exact keeps_refuse h
  case checked =>
    split
    case isTrue hp =>
      obtain ⟨row, hl, -⟩ := (Option.any_eq_true _ _).mp hp
      exact .read h ⟨row, hl⟩
    case isFalse => exact keeps_refuse h
  case updated => exact .read h ⟨hc, swept_openSessions⟩
  case swept =>
    obtain ⟨⟨row, hl⟩, hs⟩ := hc
    refine keeps_commit h List.mem_cons_self hs rfl ⟨row, hl, if_pos rfl⟩ fun u hu => if_neg ?_
    exact Ne.symm hu

theorem keeps_nextUpdate {admin account : Id} {quotaBytes : Option Nat} {disabled : Option Bool}
    {stage : UpdateStage} (h : w.Sound)
    (hc : w.Knows (.update admin account quotaBytes disabled stage)) :
    Keeps w (some (.update admin account quotaBytes disabled stage))
      (w.nextUpdate t admin account quotaBytes disabled stage).1
      (w.nextUpdate t admin account quotaBytes disabled stage).2 := by
  cases stage <;> simp only [nextUpdate]
  case received =>
    split
    case h_1 => exact keeps_refuse h
    case h_2 => exact .read h trivial
  case locked =>
    split
    case isTrue => exact keeps_refuse h
    case isFalse =>
      refine .read h fun hd => ?_
      rw [if_pos (by simp [hd])]
      exact swept_openSessions
  case swept =>
    cases hl : (w.users.lookup account).filter fun _ => disabled = some true
    case none   => exact keeps_commit_same h List.mem_cons_self fun _ => rfl
    case some row =>
      obtain ⟨hl, hd⟩ := Option.filter_eq_some_iff.mp hl
      refine keeps_commit h List.mem_cons_self (hc (by simpa using hd)) rfl ⟨row, hl, if_pos rfl⟩
        fun u hu => if_neg (Ne.symm hu)

theorem keeps_nextReset {admin account : Id} {temporary : String} {stage : ResetStage} (h : w.Sound)
    (hc : w.Knows (.reset admin account temporary stage)) :
    Keeps w (some (.reset admin account temporary stage))
      (w.nextReset t admin account temporary stage).1
      (w.nextReset t admin account temporary stage).2 := by
  cases stage <;> simp only [nextReset]
  case received =>
    split
    case h_1 => exact keeps_refuse h
    case h_2 row hm =>
      obtain ⟨hl, -⟩ := Option.filter_eq_some_iff.mp hm
      exact keeps_numbered h (Nat.le_succ _) ⟨row, hl⟩
  case updated => exact .read h ⟨hc, swept_openSessions⟩
  case swept =>
    obtain ⟨⟨row, hl⟩, hs⟩ := hc
    refine keeps_commit h List.mem_cons_self hs rfl ⟨row, hl, if_pos rfl⟩ fun u hu => if_neg ?_
    exact Ne.symm hu

theorem keeps_revokeSession {current session : Id} {now : Time} (h : w.Sound) :
    Keeps w none (w.revokeSession user current session now).1
      (w.revokeSession user current session now).2 := by
  simp only [revokeSession]
  split
  case isTrue => exact keeps_refuse h
  case isFalse =>
    split
    case isTrue  => exact keeps_revokeSessions h
    case isFalse => exact keeps_refuse h

theorem sound_init : Locks.Holds Call.locks Sound Knows { store := {} } where
  store := {
    secured pre e post user maker x session heq := by simp at heq
    hashed hc := by contradiction
    below hl  := by simp at hl }
  calls h := by simp at h
  apart i j c d _ hc := by simp at hc

variable [Collation]

theorem keeps_beginLogin {limited : Bool} {email password : String} {call : Option Call}
    (h : w.Sound) :
    Keeps w call (w.beginLogin limited email password).1 (w.beginLogin limited email password).2 := by
  simp only [beginLogin]
  split
  case isTrue => exact keeps_refuse h
  case isFalse =>
    split
    case h_1 => exact keeps_refuse h
    case h_2 =>
      split
      case isTrue hp  =>
        simp only [Bool.and_eq_true] at hp
        exact .read h hp.right
      case isFalse => exact keeps_refuse h

theorem keeps_nextLogin {ttl : Nat} {email password : String} {stage : LoginStage} (h : w.Sound)
    (hc : w.Knows (.login email password stage)) :
    Keeps w (some (.login email password stage)) (w.nextLogin ttl t email password stage).1
      (w.nextLogin ttl t email password stage).2 := by
  cases stage <;> simp only [nextLogin]
  case received => exact keeps_beginLogin h
  case verified =>
    split
    case isTrue hp =>
      simp only [Option.any_eq_true, Bool.and_eq_true, decide_eq_true_eq] at hp
      obtain ⟨row, hl, -, hh⟩ := hp
      exact .read h ⟨hc, row, hl, hh⟩
    case isFalse => exact keeps_refuse h
  case locked => exact keeps_login h hc

theorem keeps_createAccount {admin : Id} {role : Role} {email temporary : String} {quotaBytes : Nat}
    (h : w.Sound) :
    Keeps w none (w.createAccount admin role email temporary quotaBytes).1
      (w.createAccount admin role email temporary quotaBytes).2 := by
  simp only [createAccount]
  split
  case isTrue => exact keeps_refuse h
  case isFalse =>
    split
    case isTrue => exact keeps_refuse h
    case isFalse =>
      split
      case isTrue  => exact keeps_refuse h
      case isFalse => exact keeps_insertUser h

theorem keeps_start {r : Request} {y : World × Option Call} (h : w.Sound)
    (hs : w.start r = some y) : Keeps w none y.1 y.2 := by
  cases r <;> simp only [start, Option.some.injEq] at hs
  case login               => exact hs ▸ .read h trivial
  case changePassword      => exact hs ▸ .read h trivial
  case createAccount       => exact hs ▸ keeps_createAccount h
  case logout              => exact hs ▸ keeps_revokeSessions h
  case revokeSession       => exact hs ▸ keeps_revokeSession h
  case revokeOtherSessions => exact hs ▸ keeps_revokeSessions h
  case updateAccount =>
    split at hs
    case isTrue => cases hs; exact keeps_refuse h
    case isFalse =>
      split at hs <;> cases hs
      case isTrue  => exact keeps_refuse h
      case isFalse => exact .read h trivial
  case resetPassword =>
    split at hs <;> cases hs
    case isTrue  => exact keeps_refuse h
    case isFalse => exact .read h trivial
  case bootstrapOwner =>
    simp only [bootstrapOwner] at hs
    split at hs
    case isTrue => cases hs; exact .refl h
    case isFalse =>
      split at hs <;> cases hs
      exact keeps_insertUser h

variable {ttl : Nat} {s s' : System World Call} {l : Label Request Tick}

theorem keeps_resume {y : World × Option Call} (h : w.Sound) (hc : w.Knows c)
    (hs : w.resume ttl t c = some y) : Keeps w (some c) y.1 y.2 := by
  cases c <;> cases hs
  case login  => exact keeps_nextLogin h hc
  case change => exact keeps_nextChange h hc
  case update => exact keeps_nextUpdate h hc
  case reset  => exact keeps_nextReset h hc

theorem sound_step (h : Locks.Holds Call.locks Sound Knows s) (hs : step ttl s l = some s') :
    Locks.Holds Call.locks Sound Knows s' :=
  h.step (fun _ hr => keeps_start h.store hr) (fun _ _ hk hr => keeps_resume h.store hk hr) hs

-- After a change of the credentials of an account, each session of it that is open is the one that made
-- the change, or was opened later with a password that fits the hash which the account had then.
theorem sessions_revoked {maker : Option Id} {session : BrowserSession}
    (run : Execution.Reaches (step ttl) { store := {} } s)
    (hh : s.store.history = pre ++ e :: post) (he : e.secures = some (user, maker))
    (hl : s.store.sessions.lookup x = some session) (hu : session.userId = user)
    (hn : session.revokedAt = none) : maker = some x ∨ OpenedAfter (pre ++ [e]) post user x :=
  (run.invariant sound_init fun h _ => sound_step h).store.secured pre e post user maker x session hh
    he hl hu hn

end

end World

section

attribute [local instance] Passwords.plain Collation.binary

-- A login that has verified the old password is overtaken by a change of it.
theorem sessions_revoked_overtaken :
    ∃ s, Execution.Reaches (World.step 100) { store := {} } s ∧
      (s.store.history = [.loggedIn 1 0 "$aaaaaaaaaaaa" "aaaaaaaaaaaa"] ++
        .passwordChanged 0 1 "$bbbbbbbbbbbb" :: [.refused .invalidCredentials,
          .loggedIn 3 0 "$bbbbbbbbbbbb" "bbbbbbbbbbbb"] ∧
      s.store.sessions.lookup 3 = some { userId := 0, expiresAt := 110 }) ∧
      (some 1 = some 3 ∨ OpenedAfter ([.loggedIn 1 0 "$aaaaaaaaaaaa" "aaaaaaaaaaaa"] ++
        [.passwordChanged 0 1 "$bbbbbbbbbbbb"]) [.refused .invalidCredentials,
          .loggedIn 3 0 "$bbbbbbbbbbbb" "bbbbbbbbbbbb"] 0 3) := by
  have run : (Execution.run (World.step 100) { store := {} }
      [.start 0 (.bootstrapOwner "a@b.c" "aaaaaaaaaaaa"), .start 1 (.login "a@b.c" "aaaaaaaaaaaa"),
       .next 1 ⟨10, false, true⟩, .next 1 ⟨10, false, true⟩, .next 1 ⟨10, false, true⟩,
       .start 2 (.login "a@b.c" "aaaaaaaaaaaa"), .next 2 ⟨10, false, true⟩,
       .start 3 (.changePassword 0 1 "aaaaaaaaaaaa" "bbbbbbbbbbbb"), .next 3 ⟨10, false, true⟩,
       .next 3 ⟨10, false, true⟩, .next 3 ⟨10, false, true⟩, .next 3 ⟨10, false, true⟩,
       .next 2 ⟨10, false, true⟩, .start 4 (.login "a@b.c" "bbbbbbbbbbbb"), .next 4 ⟨10, false, true⟩,
       .next 4 ⟨10, false, true⟩, .next 4 ⟨10, false, true⟩]).map
      (fun s => (s.store.history, s.store.sessions.lookup 3)) =
      some ([.loggedIn 1 0 "$aaaaaaaaaaaa" "aaaaaaaaaaaa"] ++
        .passwordChanged 0 1 "$bbbbbbbbbbbb" :: [.refused .invalidCredentials,
          .loggedIn 3 0 "$bbbbbbbbbbbb" "bbbbbbbbbbbb"], some { userId := 0, expiresAt := 110 }) := by
    decide +kernel
  obtain ⟨s, hs, he⟩ := Option.map_eq_some_iff.mp run
  obtain ⟨history, session⟩ := Prod.mk.inj he
  have reaches : Execution.Reaches (World.step 100) { store := {} } s := Execution.reaches_of_run hs
  exact ⟨s, reaches, ⟨history, session⟩,
    World.sessions_revoked reaches history rfl session rfl rfl⟩

end
end MyDrive.Accounts
