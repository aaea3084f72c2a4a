import MyDrive.Library.Execution
import MyDrive.Devices.Client

open Execution

namespace MyDrive.Devices

namespace Server

-- The server takes the refresh token until it expires.
structure Live (s : Server) (token : Token) (x : Credential) : Prop where
  kind       : token.kind = .refresh
  credential : s.credentials.lookup token = some x
  unrevoked  : x.revokedAt = none
  owner      : ∃ device user, s.owner x = some (device, user) ∧ device.revokedAt = none ∧
    user.disabledAt = none

variable {s : Server} {token : Token} {x : Credential}

-- Either the token has expired, and nothing changes, or it is replaced by a new one.
theorem Live.refreshToken (h : s.Live token x) (now : Time) :
    (x.refreshExpiresAt ≤ now ∧
      s.refreshToken now ⟨"refresh_token", token⟩ = (s, .error .invalidGrant)) ∨
    now < x.refreshExpiresAt ∧ ∃ s' tokens y,
      s.refreshToken now ⟨"refresh_token", token⟩ = (s', .ok tokens) ∧
      s'.Live tokens.refreshToken y ∧ s'.reuses = s.reuses := by
  obtain ⟨device, user, ho, hd, hu⟩ := h.owner
  have answer : s.refreshToken now ⟨"refresh_token", token⟩ =
      if x.refreshExpiresAt ≤ now then (s, .error .invalidGrant)
      else
        let t := s.revokeCredentials now fun token' c => token' = token && c.revokedAt.isNone
        ((t.issueCredentials now x.deviceId).1, .ok (t.issueCredentials now x.deviceId).2) := by
    simp only [Server.refreshToken, h.kind, h.credential, ho, Option.bind_some, Option.map_some,
      h.unrevoked, hd, hu, ne_eq, not_true_eq_false, if_false, Option.isSome_none, false_or,
      Bool.false_eq_true]
  rw [answer]
  by_cases he : x.refreshExpiresAt ≤ now
  case pos => exact .inl ⟨he, if_pos he⟩
  case neg =>
    have live : (s.revokeCredentials now fun token' c => token' = token && c.revokedAt.isNone
        ).issueCredentials now x.deviceId |>.1.Live ⟨.refresh, s.next + 1⟩ {
          deviceId         := x.deviceId
          accessToken      := ⟨.access, s.next⟩
          accessExpiresAt  := now + accessTokenTtlSeconds
          refreshExpiresAt := now + refreshTokenTtlSeconds } :=
      ⟨rfl, Table.lookup_set.trans (if_pos rfl), rfl, device, user, ho, hd, hu⟩
    exact .inr ⟨Nat.lt_of_not_le he, _, _, _, if_neg he, live, rfl⟩

end Server

-- The secrets once `Store` is done.
def saveAll (values : Secrets) (todo : List (SecretKey × Token)) : Secrets :=
  todo.foldl (fun t r => t.set r.1 r.2) values

def Client.Stored (c : Client) (token : Token) : Prop :=
  c.values.lookup .refresh = some token ∧ c.file = some c.values

def Phase.inside : Phase → Bool
  | .calling _    => false
  | .awaiting _ _ => false
  | .queued       => false
  | _             => true

-- Where the token that the server takes is to be found while a caller is in `RefreshStored`.
def Phase.Keeps (s : System) (token : Token) : Phase → Prop
  | .refreshing exchange =>
    match s.exchanges.lookup exchange with
    | some (.refresh request)        => request = ⟨"refresh_token", token⟩ ∧ s.client.Stored token
    | some (.refreshed (.ok tokens)) =>
      tokens.refreshToken = token ∧ s.client.file = some s.client.values
    | some (.call _)                 => False
    | some (.called _)               => False
    | _                              => s.client.Stored token
  | .saving todo         =>
    s.client.file = some s.client.values ∧
      (saveAll s.client.values todo).lookup .refresh = some token
  | .persisting todo     => (saveAll s.client.values todo).lookup .refresh = some token
  | _                    => s.client.Stored token

namespace System

-- The caller `i` has not saved the tokens that the server has given it.
def Rotated (s : System) (i : Nat) : Prop :=
  match s.client.callers.lookup i with
  | some (.refreshing exchange) =>
    ∃ tokens, s.exchanges.lookup exchange = some (.refreshed (.ok tokens))
  | some (.saving (_ :: _))     => True
  | some (.persisting _)        => True
  | _                           => False

-- The tokens of every refresh that the server answers reach the caller, which gets to save them.
structure Completes (s : System) (a : Action) : Prop where
  serve {m now request} : a = .serve m now → s.exchanges.lookup m = some (.refresh request) →
    ∃ i, s.client.callers.lookup i = some (.refreshing m)
  lose {m tokens} : a = .lose m → s.exchanges.lookup m ≠ some (.refreshed (.ok tokens))
  fail {i} : a = .fail i → ¬s.Rotated i
  crash {i} : a = .crash → ¬s.Rotated i

-- The token that the server takes is stored, or the holder of the semaphore is about to store it.
structure Kept (s : System) (token : Token) : Prop where
  live     : ∃ x, s.server.Live token x
  idle     : s.client.refresh = none → s.client.Stored token
  holder {i} : s.client.refresh = some i → ∃ phase, s.client.callers.lookup i = some phase ∧
    phase.inside ∧ phase.Keeps s token
  inside {i phase} : s.client.callers.lookup i = some phase → phase.inside → s.client.refresh = some i
  sent {i m} : s.client.callers.lookup i = some (.refreshing m) → m < s.sent

structure Sound (s : System) : Prop where
  reuses : s.server.reuses = []
  kept   : ∃ token, s.Kept token

variable {s s' : System} {token : Token} {i m : Nat} {phase : Phase}

theorem sound_init (now : Time) : Sound (init now) where
  reuses := rfl
  kept   := by
    refine ⟨⟨.refresh, 1⟩, ⟨_, rfl, rfl, rfl, _, _, rfl, rfl, rfl⟩, fun _ => ⟨rfl, rfl⟩, ?_, ?_, ?_⟩
    all_goals intros; contradiction

-- What the holder of the semaphore keeps depends on the secrets and on its own exchange.
theorem Keeps.congr (h : phase.Keeps s token) (hc : s'.client.values = s.client.values)
    (hf : s'.client.file = s.client.file)
    (he : ∀ m, phase = .refreshing m → s'.exchanges.lookup m = s.exchanges.lookup m) :
    phase.Keeps s' token := by
  cases phase <;> simp only [Phase.Keeps, Client.Stored, hc, hf] at h ⊢ <;> try exact h
  case refreshing m => rw [he m rfl]; exact h

-- A step that leaves the callers in `RefreshStored` and what they wait for alone.
theorem Kept.outside (h : s.Kept token) (hs : s'.server = s.server)
    (hr : s'.client.refresh = s.client.refresh) (hv : s'.client.values = s.client.values)
    (hf : s'.client.file = s.client.file) (hn : s.sent ≤ s'.sent)
    (he : ∀ j m, s.client.callers.lookup j = some (.refreshing m) →
      s'.exchanges.lookup m = s.exchanges.lookup m)
    (hc : ∀ j p, p.inside = true →
      (s'.client.callers.lookup j = some p ↔ s.client.callers.lookup j = some p)) :
    s'.Kept token where
  live       := hs ▸ h.live
  idle hn    := by
    have := h.idle (hr ▸ hn)
    exact ⟨hv ▸ this.left, by rw [hf, hv]; exact this.right⟩
  holder hi  := by
    obtain ⟨p, hp, hin, hk⟩ := h.holder (hr ▸ hi)
    refine ⟨p, (hc _ p hin).mpr hp, hin, Keeps.congr hk hv hf fun m e => ?_⟩
    exact he _ m (e ▸ hp)
  inside hp hin := hr ▸ h.inside ((hc _ _ hin).mp hp) hin
  sent hp    := Nat.lt_of_lt_of_le (h.sent ((hc _ _ rfl).mp hp)) hn

-- The caller `i` goes on in `RefreshStored`, where it is alone.
theorem Kept.enter {token' : Token} (phase : Phase) (h : s.Kept token)
    (hi : s.client.refresh = none ∨ s.client.refresh = some i)
    (live : ∃ x, s'.server.Live token' x) (hr : s'.client.refresh = some i)
    (hc : ∀ j, s'.client.callers.lookup j = if j = i then some phase else s.client.callers.lookup j)
    (hp : phase.inside) (hk : phase.Keeps s' token')
    (hm : ∀ m, phase = .refreshing m → m < s'.sent) : s'.Kept token' := by
  have others {j p} (hj : s'.client.callers.lookup j = some p) (hin : p.inside) : j = i ∧ p = phase := by
    rw [hc] at hj
    split at hj
    case isTrue he => exact ⟨he, (Option.some.inj hj).symm⟩
    case isFalse hn =>
      have := h.inside hj hin
      rcases hi with hi | hi
      case inl => cases hi.symm.trans this
      case inr => exact absurd (Option.some.inj (this.symm.trans hi)) hn
  refine ⟨live, fun hn => ?idle, fun hj => ?holder, fun hj hin => ?inside, fun hj => ?sent⟩
  case idle => cases hr.symm.trans hn
  case holder =>
    cases hr.symm.trans hj
    exact ⟨phase, by simp [hc], hp, hk⟩
  case inside => rw [(others hj hin).left, hr]
  case sent => exact hm _ (others hj rfl).right.symm

-- The holder of the semaphore leaves `RefreshStored`.
theorem Kept.exit (h : s.Kept token) (hi : s.client.refresh = some i) (hs : s'.server = s.server)
    (hr : s'.client.refresh = none)
    (hc : ∀ j p, s'.client.callers.lookup j = some p → p.inside = true →
      j ≠ i ∧ s.client.callers.lookup j = some p) (hst : s'.client.Stored token) :
    s'.Kept token := by
  have none_inside {j p} (hj : s'.client.callers.lookup j = some p) (hin : p.inside) : False := by
    obtain ⟨hn, hp⟩ := hc j p hj hin
    exact hn (Option.some.inj ((h.inside hp hin).symm.trans hi))
  refine ⟨hs ▸ h.live, fun _ => hst, fun hj => ?_, fun hj hin => ?_, fun hj => ?_⟩
  case refine_1 => cases hr.symm.trans hj
  case refine_2 => exact (none_inside hj hin).elim
  case refine_3 => exact (none_inside hj rfl).elim

theorem leave_refresh : (s.leave i).client.refresh =
    if s.client.refresh = some i then none else s.client.refresh := by
  simp only [leave, Client.leave]
  split <;> rfl

theorem leave_values : (s.leave i).client.values = s.client.values := by
  simp only [leave, Client.leave]
  split <;> rfl

theorem leave_file : (s.leave i).client.file = s.client.file := by
  simp only [leave, Client.leave]
  split <;> rfl

theorem leave_callers {j : Nat} : (s.leave i).client.callers.lookup j =
    if j = i then none else s.client.callers.lookup j := by
  simp only [leave, Client.leave]
  split <;> simp [Client.release]

theorem Kept.leave (h : s.Kept token) (hp : s.client.callers.lookup i = some phase)
    (hst : phase.inside → s.client.Stored token) : (s.leave i).Kept token := by
  cases hin : phase.inside
  case true =>
    have hi := h.inside hp hin
    refine h.exit hi rfl (by rw [leave_refresh, if_pos hi]) (fun j p hj hin => ?_) ?_
    case refine_1 =>
      rw [leave_callers] at hj
      split at hj
      case isTrue     => cases hj
      case isFalse hn => exact ⟨hn, hj⟩
    case refine_2 =>
      rw [Client.Stored, leave_values, leave_file]
      exact hst hin
  case false =>
    have hi : s.client.refresh ≠ some i := by
      intro hi
      obtain ⟨p, hp', hin', _⟩ := h.holder hi
      cases hp.symm.trans hp'
      cases hin.symm.trans hin'
    refine h.outside rfl (by rw [leave_refresh, if_neg hi]) leave_values leave_file (Nat.le_refl _)
      (fun _ _ _ => rfl) fun j p hin' => ?_
    rw [leave_callers]
    split
    case isTrue he =>
      subst he
      rw [hp]
      simp only [reduceCtorEq, Option.some.injEq, false_iff]
      rintro rfl
      cases hin.symm.trans hin'
    case isFalse => exact Iff.rfl

-- A caller outside of `RefreshStored` moves on, and stays outside.
theorem Kept.goto (h : s.Kept token) (hp : ∀ p, s.client.callers.lookup i = some p → p.inside = false)
    (hn : phase.inside = false) : (s.goto i phase).Kept token := by
  refine h.outside rfl rfl rfl rfl (Nat.le_refl _) (fun _ _ _ => rfl) fun j p hin => ?_
  simp only [System.goto, Client.goto, Table.lookup_set]
  split
  case isTrue he =>
    subst he
    constructor
    case mp =>
      intro he
      cases he
      cases hn.symm.trans hin
    case mpr => exact fun he => by cases (hp p he).symm.trans hin
  case isFalse => exact Iff.rfl

theorem Kept.send {x : Exchange} (h : s.Kept token) : (s.send x).Kept token := by
  refine h.outside rfl rfl rfl rfl (Nat.le_succ _) (fun j m hj => ?_) fun _ _ _ => Iff.rfl
  simp [System.send, Nat.ne_of_lt (h.sent hj)]

-- An exchange that the holder of the semaphore does not wait for goes away.
theorem Kept.receive (h : s.Kept token)
    (hm : ∀ j, s.client.callers.lookup j ≠ some (.refreshing m)) : (s.receive m).Kept token := by
  refine h.outside rfl rfl rfl rfl (Nat.le_refl _) (fun j m' hj => ?_) fun _ _ _ => Iff.rfl
  have : m' ≠ m := by
    rintro rfl
    exact hm j hj
  simp [System.receive, this]

theorem Kept.keeps (h : s.Kept token) (hp : s.client.callers.lookup i = some phase)
    (hin : phase.inside) : s.client.refresh = some i ∧ phase.Keeps s token := by
  have hi := h.inside hp hin
  obtain ⟨p, hp', _, hk⟩ := h.holder hi
  cases hp.symm.trans hp'
  exact ⟨hi, hk⟩

theorem Kept.lose (h : s.Kept token)
    (hm : ∀ tokens, s.exchanges.lookup m ≠ some (.refreshed (.ok tokens))) :
    (s.receive m).Kept token := by
  by_cases hw : ∃ i, s.client.callers.lookup i = some (.refreshing m)
  case neg => exact h.receive fun j hj => hw ⟨j, hj⟩
  case pos =>
    obtain ⟨i, hp⟩ := hw
    obtain ⟨hi, hk⟩ := h.keeps hp rfl
    refine h.enter (.refreshing m) (.inr hi) h.live hi (fun j => ?callers) rfl ?keeps
      fun _ e => ?sent
    case callers =>
      split
      case isTrue he => exact he ▸ hp
      case isFalse   => rfl
    case keeps =>
      have : (s.receive m).exchanges.lookup m = none := by
        simp [System.receive]
      simp only [Phase.Keeps, this]
      simp only [Phase.Keeps] at hk
      split at hk
      case h_1          => exact hk.right
      case h_2 tokens e => exact absurd e (hm tokens)
      case h_3          => exact hk.elim
      case h_4          => exact hk.elim
      case h_5          => exact hk
    case sent => cases e; exact h.sent hp

theorem Kept.next (h : s.Kept token) (hp : s.client.callers.lookup i = some phase)
    (hn : s.next i phase = some s') : s'.Kept token := by
  cases phase <;> simp only [System.next] at hn
  case calling =>
    cases hn
    exact h.send.goto (fun p hp' => by cases hp.symm.trans hp'; rfl) rfl
  case awaiting m retried =>
    split at hn
    case h_2 => cases hn
    case h_1 authorized he =>
      have received : (s.receive m).Kept token := h.receive fun j hj => by
        obtain ⟨_, hk⟩ := h.keeps hj rfl
        simp [Phase.Keeps, he] at hk
      split at hn <;> cases hn
      case isTrue  => exact received.leave hp fun hin => by cases hin
      case isFalse => exact received.goto (fun p hp' => by cases hp.symm.trans hp'; rfl) rfl
  case queued =>
    split at hn <;> cases hn
    case isFalse hr =>
      have hr : s.client.refresh = none := by simpa using hr
      refine h.enter .entered (.inl hr) h.live rfl (fun j => ?_) rfl (h.idle hr) (by simp)
      simp [System.goto, Client.goto]
  case entered =>
    obtain ⟨hi, hk⟩ := h.keeps hp rfl
    split at hn <;> cases hn
    case h_1 he => cases he.symm.trans hk.left
    case h_2 token' he =>
      cases he.symm.trans hk.left
      refine h.enter (.refreshing s.sent) (.inr hi) h.live hi (fun j => ?_) rfl ?_ fun _ e => ?_
      case refine_1 => simp [System.goto, Client.goto, System.send]
      case refine_2 =>
        have : ((s.send (.refresh ⟨"refresh_token", token⟩)).goto i
            (.refreshing s.sent)).exchanges.lookup s.sent = some (.refresh ⟨"refresh_token", token⟩) := by
          simp [System.goto, System.send]
        simp only [Phase.Keeps, this]
        exact ⟨trivial, hk⟩
      case refine_3 => cases e; exact Nat.lt_succ_self _
  case refreshing m =>
    obtain ⟨hi, hk⟩ := h.keeps hp rfl
    split at hn <;> cases hn
    case h_1 tokens he =>
      simp only [Phase.Keeps, he] at hk
      let todo := [(SecretKey.access, tokens.accessToken), (.refresh, tokens.refreshToken)]
      refine h.enter (.saving todo) (.inr hi) h.live hi (fun j => ?_) rfl ⟨hk.right, ?_⟩ (by simp)
      case refine_1 => simp [System.goto, Client.goto, System.receive, todo]
      case refine_2 => simp [saveAll, hk.left, todo]
    case h_2 he =>
      simp only [Phase.Keeps, he] at hk
      exact (h.lose fun tokens e => by cases he.symm.trans e).leave hp fun _ => hk
  case saving todo =>
    obtain ⟨hi, hf, hk⟩ := h.keeps hp rfl
    cases todo <;> cases hn
    case nil =>
      refine h.exit hi rfl rfl (fun j p hj hin => ?_) ⟨hk, hf⟩
      simp only [System.goto, Client.goto, Client.release, Table.lookup_set] at hj
      split at hj
      case isTrue     => cases hj; cases hin
      case isFalse hn => exact ⟨hn, hj⟩
    case cons r todo =>
      refine h.enter (.persisting todo) (.inr hi) h.live hi (fun j => ?_) rfl hk (by simp)
      simp [System.goto, Client.goto]
  case persisting todo =>
    obtain ⟨hi, hk⟩ := h.keeps hp rfl
    cases hn
    refine h.enter (.saving todo) (.inr hi) h.live hi (fun j => ?_) rfl ⟨rfl, hk⟩ (by simp)
    simp [System.goto, Client.goto]

theorem next_server (hn : s.next i phase = some s') : s'.server = s.server := by
  cases phase <;> simp only [System.next] at hn
  case calling    => cases hn; rfl
  case awaiting   =>
    split at hn
    case h_1 => split at hn <;> cases hn <;> rfl
    case h_2 => cases hn
  case queued     => split at hn <;> cases hn; rfl
  case entered    => split at hn <;> cases hn <;> rfl
  case refreshing => split at hn <;> cases hn <;> rfl
  case saving     => cases ‹List _› <;> cases hn <;> rfl
  case persisting => cases hn; rfl

-- Whoever is cut off before the server has given it new tokens leaves the old ones in place.
theorem Kept.stored_of_not_rotated (h : s.Kept token) (hp : s.client.callers.lookup i = some phase)
    (hin : phase.inside) (hr : ¬s.Rotated i) : s.client.Stored token := by
  obtain ⟨_, hk⟩ := h.keeps hp hin
  cases phase <;> simp only [Rotated, hp] at hr <;> simp only [Phase.Keeps] at hk
  case refreshing =>
    split at hk
    case h_1      => exact hk.right
    case h_2 he   => exact absurd ⟨_, he⟩ hr
    case h_3      => exact hk.elim
    case h_4      => exact hk.elim
    case h_5      => exact hk
  case saving todo =>
    cases todo
    case nil  => exact ⟨hk.right, hk.left⟩
    case cons => exact absurd trivial hr
  case persisting => exact absurd trivial hr
  all_goals exact hk

theorem Sound.serve {now : Time} (h : Sound s)
    (hw : ∀ request, s.exchanges.lookup m = some (.refresh request) →
      ∃ i, s.client.callers.lookup i = some (.refreshing m))
    (hs : s.serve now m = some s') : Sound s' := by
  obtain ⟨hu, token, hk⟩ := h
  simp only [System.serve] at hs
  split at hs
  case h_1 he =>
    cases hs
    refine ⟨hu, token, hk.outside rfl rfl rfl rfl (Nat.le_refl _) (fun j m' hj => ?_) fun _ _ _ => Iff.rfl⟩
    have : m' ≠ m := by
      rintro rfl
      obtain ⟨_, keeps⟩ := hk.keeps hj rfl
      simp [Phase.Keeps, he] at keeps
    simp [this]
  case h_2 request he =>
    cases hs
    obtain ⟨i, hp⟩ := hw request he
    obtain ⟨hi, keeps⟩ := hk.keeps hp rfl
    obtain ⟨x, live⟩ := hk.live
    simp only [Phase.Keeps, he] at keeps
    obtain ⟨rfl, stored⟩ := keeps
    have callers j : s.client.callers.lookup j =
        if j = i then some (.refreshing m) else s.client.callers.lookup j := by
      split
      case isTrue he => exact he ▸ hp
      case isFalse   => rfl
    obtain ⟨_, answer⟩ | ⟨_, server, tokens, y, answer, live', reuses⟩ := live.refreshToken now
    case inl =>
      rw [answer]
      refine ⟨hu, token, hk.enter (.refreshing m) (.inr hi) hk.live hi callers rfl ?_ fun _ e => ?_⟩
      case refine_1 => simpa [Phase.Keeps] using stored
      case refine_2 => cases e; exact hk.sent hp
    case inr =>
      rw [answer]
      refine ⟨reuses.trans hu, tokens.refreshToken,
        hk.enter (.refreshing m) (.inr hi) ⟨y, live'⟩ hi callers rfl ?_ fun _ e => ?_⟩
      case refine_1 => simpa [Phase.Keeps] using stored.right
      case refine_2 => cases e; exact hk.sent hp
  case h_3 => cases hs

theorem sound_step {a : Action} (h : Sound s) (ha : Completes s a) (hs : s.step a = some s') :
    Sound s' := by
  obtain ⟨hu, token, hk⟩ := h
  cases a <;> simp only [step] at hs
  case start i =>
    split at hs <;> cases hs
    case h_2 hp => exact ⟨hu, token, hk.goto (fun p hp' => by cases hp.symm.trans hp') rfl⟩
  case next i =>
    obtain ⟨phase, hp, hn⟩ := Option.bind_eq_some_iff.mp hs
    exact ⟨(next_server hn) ▸ hu, token, hk.next hp hn⟩
  case fail i =>
    split at hs <;> cases hs
    case h_1 phase hp =>
      exact ⟨hu, token, hk.leave hp fun hin => hk.stored_of_not_rotated hp hin (ha.fail rfl)⟩
  case serve m now => exact Sound.serve ⟨hu, token, hk⟩ (fun _ => ha.serve rfl) hs
  case lose m =>
    split at hs <;> cases hs
    exact ⟨hu, token, hk.lose fun _ => ha.lose rfl⟩
  case crash =>
    cases hs
    have stored : s.client.Stored token := by
      cases hi : s.client.refresh
      case none   => exact hk.idle hi
      case some i =>
        obtain ⟨phase, hp, hin, _⟩ := hk.holder hi
        exact hk.stored_of_not_rotated hp hin (ha.crash rfl)
    have values : s.client.restart.values = s.client.values := by
      simp [Client.restart, stored.right]
    refine ⟨hu, token, hk.live, fun _ => ⟨values ▸ stored.left, rfl⟩, ?_, ?_, ?_⟩
    all_goals intros; contradiction

end System

def Phase.awaits (m : Nat) : Phase → Bool
  | .refreshing m' => m' = m
  | _              => false

def completes (s : System) : Action → Bool
  | .start _   => true
  | .next _    => true
  | .serve m _ =>
    match s.exchanges.lookup m with
    | some (.refresh _) => s.client.callers.any fun _ p => p.awaits m
    | _                 => true
  | _          => false

theorem completes_of_check {s : System} {a : Action} (h : completes s a) : s.Completes a where
  lose he    := by subst he; contradiction
  fail he    := by subst he; contradiction
  crash he   := by subst he; contradiction
  serve he hm := by
    subst he
    simp only [completes, hm, Table.any_iff] at h
    obtain ⟨i, p, hp, ha⟩ := h
    refine ⟨i, ?_⟩
    cases p <;> simp only [Phase.awaits, decide_eq_true_eq, Bool.false_eq_true] at ha
    exact ha ▸ hp

-- The caller `i` finds that the access token has expired and asks for new tokens, which the server
-- gives it in the exchange `m + 1`.
def refreshes (i m : Nat) : List Action :=
  [.start i, .next i, .serve m 4000, .next i, .next i, .next i, .serve (m + 1) 4000]

end MyDrive.Devices
