import MyDrive.Devices.Authorization

open Shared Locks

namespace MyDrive.Devices

def Event.exchange : Event → Option Nat
  | .exchanged code _ _ => some code
  | _                   => none

-- The device codes that have yielded credentials.
def exchanges (history : List Event) : List Nat :=
  history.filterMap Event.exchange

-- A token of the device is accepted, or read while the device is not revoked.
def Event.uses (deviceId : Id) : Event → Bool
  | .authenticated id _    => id = deviceId
  | .presented _ _ id seen => id = deviceId && !seen
  | _                      => false

theorem exchanges_concat {history : List Event} {e : Event} :
    exchanges (history ++ [e]) = exchanges history ++ e.exchange.toList := by
  rw [exchanges, List.filterMap_append]
  cases e <;> rfl

namespace Hub

variable {h h' : Hub} {now : Time} {c : Call} {e : Event}

-- The requests, the credentials that they have yielded and those that these were rotated into.
structure Booked (h : Hub) : Prop where
  fresh {code r d t x} : h.requests.lookup code = some r → r.status = .approved →
    r.deviceId = some d → h.credentials.lookup t = some x → x.deviceId ≠ d
  paired {code code' r r' d} : h.requests.lookup code = some r → h.requests.lookup code' = some r' →
    r.deviceId = some d → r'.deviceId = some d → code = code'
  spent {code} : code ∈ exchanges h.history →
    ∃ r, h.requests.lookup code = some r ∧ r.status = .consumed
  once : (exchanges h.history).Nodup
  single {t t' x x'} : h.credentials.lookup t = some x → h.credentials.lookup t' = some x' →
    x.deviceId = x'.deviceId → x.revokedAt = none → x'.revokedAt = none → t = t'
  below_request {code r} : h.requests.lookup code = some r → code < h.next
  below_paired {code r d} : h.requests.lookup code = some r → r.deviceId = some d → d < h.next
  below_token {t x} : h.credentials.lookup t = some x → t.serial < h.next
  below_credential {t x} : h.credentials.lookup t = some x → x.deviceId < h.next
  below_device {d dev} : h.devices.lookup d = some dev → d < h.next

-- What the history says about the devices that are revoked.
structure Logged (h : Hub) : Prop where
  gone {d} : .revoked d ∈ h.history → ∃ dev, h.devices.lookup d = some dev ∧ dev.revokedAt.isSome
  ordered : h.history.Pairwise fun e e' => ∀ d, e = .revoked d → e'.uses d = false
  rotated {k d ts} : .rotated k d ts ∈ h.history → ∃ t, .presented k t d false ∈ h.history
  unique {k t d f t' d' f'} : .presented k t d f ∈ h.history → .presented k t' d' f' ∈ h.history →
    t = t' ∧ d = d' ∧ f = f'
  below {k t d f} : .presented k t d f ∈ h.history → k < h.next

structure Sound (h : Hub) : Prop extends Booked h, Logged h

-- What a transaction knows between two of its statements.
def Knows (h : Hub) : Call → Prop
  | .exchange _ (.locked code grant)     => grant.status = .approved →
    ∃ r, h.requests.lookup code = some r ∧ r.status = .approved ∧ r.deviceId = grant.deviceId
  | .refresh token (.read k d revoked _) => .presented k token d revoked ∈ h.history ∧
    (∃ x, h.credentials.lookup token = some x ∧ x.deviceId = d) ∧ ∃ dev, h.devices.lookup d = some dev
  | .refresh token (.locked k x revoked _) =>
    .presented k token x.deviceId revoked ∈ h.history ∧ h.credentials.lookup token = some x ∧
      ∃ dev, h.devices.lookup x.deviceId = some dev
  | .refresh _ (.reused d _)             => ∃ dev, h.devices.lookup d = some dev
  | .revoke _ d .found                   => ∃ dev, h.devices.lookup d = some dev
  | .revoke _ d (.sweep _)               => ∃ dev, h.devices.lookup d = some dev
  | _                                    => True

-- A step that consumes no request but `spent`, and writes no credential but those of `touched`.
structure Moves (h : Hub) (spent : Option Nat) (touched : List Token) (h' : Hub) : Prop where
  requests {code r} : h.requests.lookup code = some r → r.status = .approved → some code ≠ spent →
    ∃ r', h'.requests.lookup code = some r' ∧ r'.status = .approved ∧ r'.deviceId = r.deviceId
  credentials {t x} : h.credentials.lookup t = some x →
    ∃ x', h'.credentials.lookup t = some x' ∧ x'.deviceId = x.deviceId ∧ (t ∉ touched → x' = x)
  devices {d dev} : h.devices.lookup d = some dev → ∃ dev', h'.devices.lookup d = some dev' ∧
    (dev.revokedAt.isSome → dev'.revokedAt.isSome)
  history {x} : x ∈ h.history → x ∈ h'.history

theorem Moves.device {spent : Option Nat} {touched : List Token} {d : Id}
    (m : h.Moves spent touched h') (hd : ∃ dev, h.devices.lookup d = some dev) :
    ∃ dev, h'.devices.lookup d = some dev := by
  obtain ⟨dev, hl⟩ := hd
  obtain ⟨dev', hl', -⟩ := m.devices hl
  exact ⟨dev', hl'⟩

theorem Knows.move {spent : Option Nat} {touched : List Token} (hk : h.Knows c)
    (m : h.Moves spent touched h')
    (hr : ∀ code, (Row.request code, Mode.update) ∈ c.locks → some code ≠ spent)
    (hc : ∀ t, (Row.credential t, Mode.update) ∈ c.locks → t ∉ touched) : h'.Knows c := by
  cases c
  case exchange _ stage =>
    cases stage <;> try trivial
    case locked code grant =>
      intro ha
      obtain ⟨r, hl, hs, hd⟩ := hk ha
      obtain ⟨r', hl', hs', hd'⟩ := m.requests hl hs (hr code List.mem_cons_self)
      exact ⟨r', hl', hs', hd'.trans hd⟩
  case approve => trivial
  case deny    => trivial
  case refresh token stage =>
    cases stage <;> try trivial
    case read k d revoked enabled =>
      obtain ⟨hp, ⟨x, hl, hx⟩, hd⟩ := hk
      obtain ⟨x', hl', hx', -⟩ := m.credentials hl
      exact ⟨m.history hp, ⟨x', hl', hx'.trans hx⟩, m.device hd⟩
    case locked k x revoked enabled =>
      obtain ⟨hp, hl, hd⟩ := hk
      obtain ⟨x', hl', -, same⟩ := m.credentials hl
      exact ⟨m.history hp, same (hc token List.mem_cons_self) ▸ hl', m.device hd⟩
    case reused => exact m.device hk
  case revoke owner d stage =>
    cases stage
    case received => trivial
    all_goals exact m.device hk

-- A step that adds no row, and takes back neither a revocation nor a consumption.
structure Calms (h h' : Hub) : Prop where
  requests {code r'} : h'.requests.lookup code = some r' → ∃ r, h.requests.lookup code = some r ∧
    r'.deviceId = r.deviceId ∧ (r'.status = .approved → r.status = .approved)
  consumed {code r} : h.requests.lookup code = some r → r.status = .consumed →
    ∃ r', h'.requests.lookup code = some r' ∧ r'.status = .consumed
  credentials {t x'} : h'.credentials.lookup t = some x' → ∃ x, h.credentials.lookup t = some x ∧
    x'.deviceId = x.deviceId ∧ (x'.revokedAt = none → x.revokedAt = none)
  devices {d dev'} : h'.devices.lookup d = some dev' → ∃ dev, h.devices.lookup d = some dev
  exchanges : exchanges h'.history = exchanges h.history
  next : h.next ≤ h'.next

theorem Booked.calm (hb : h.Booked) (m : h.Calms h') : h'.Booked where
  fresh hr ha hd hx := by
    obtain ⟨r, hr, hd', ha'⟩ := m.requests hr
    obtain ⟨x, hx, hx', -⟩ := m.credentials hx
    exact hx' ▸ hb.fresh hr (ha' ha) (hd' ▸ hd) hx
  paired hr hr' hd hd' := by
    obtain ⟨r, hr, he, -⟩ := m.requests hr
    obtain ⟨r', hr', he', -⟩ := m.requests hr'
    exact hb.paired hr hr' (he ▸ hd) (he' ▸ hd')
  spent hc := by
    obtain ⟨r, hr, hs⟩ := hb.spent (m.exchanges ▸ hc)
    exact m.consumed hr hs
  once := m.exchanges ▸ hb.once
  single hx hx' he hn hn' := by
    obtain ⟨x, hx, hd, hr⟩ := m.credentials hx
    obtain ⟨x', hx', hd', hr'⟩ := m.credentials hx'
    exact hb.single hx hx' (hd.symm.trans (he.trans hd')) (hr hn) (hr' hn')
  below_request hr := by
    obtain ⟨r, hr, -⟩ := m.requests hr
    exact Nat.lt_of_lt_of_le (hb.below_request hr) m.next
  below_paired hr hd := by
    obtain ⟨r, hr, he, -⟩ := m.requests hr
    exact Nat.lt_of_lt_of_le (hb.below_paired hr (he ▸ hd)) m.next
  below_token hx := by
    obtain ⟨x, hx, -⟩ := m.credentials hx
    exact Nat.lt_of_lt_of_le (hb.below_token hx) m.next
  below_credential hx := by
    obtain ⟨x, hx, he, -⟩ := m.credentials hx
    exact he ▸ Nat.lt_of_lt_of_le (hb.below_credential hx) m.next
  below_device hd := by
    obtain ⟨dev, hd⟩ := m.devices hd
    exact Nat.lt_of_lt_of_le (hb.below_device hd) m.next

theorem Logged.move {spent : Option Nat} {touched : List Token} (hl : h.Logged)
    (m : h.Moves spent touched h') (hh : h'.history = h.history) (hn : h.next ≤ h'.next) :
    h'.Logged where
  gone hg := by
    obtain ⟨dev, hd, hr⟩ := hl.gone (hh ▸ hg)
    obtain ⟨dev', hd', hr'⟩ := m.devices hd
    exact ⟨dev', hd', hr' hr⟩
  ordered := hh ▸ hl.ordered
  rotated hr := hh ▸ hl.rotated (hh ▸ hr)
  unique hp hp' := hl.unique (hh ▸ hp) (hh ▸ hp')
  below hp := Nat.lt_of_lt_of_le (hl.below (hh ▸ hp)) hn

theorem Logged.concat {spent : Option Nat} {touched : List Token} (hl : h.Logged)
    (m : h.Moves spent touched h') (hh : h'.history = h.history ++ [e]) (hn : h.next ≤ h'.next)
    (used : ∀ d, .revoked d ∈ h.history → e.uses d = false)
    (revoked : ∀ d, e = .revoked d →
      ∃ dev, h'.devices.lookup d = some dev ∧ dev.revokedAt.isSome)
    (rotated : ∀ k d ts, e = .rotated k d ts → ∃ t, .presented k t d false ∈ h.history)
    (presented : ∀ k t d f, e = .presented k t d f → h.next ≤ k ∧ k < h'.next) : h'.Logged where
  gone {d} hg := by
    rw [hh, List.mem_append, List.mem_singleton] at hg
    obtain hg | hg := hg
    case inl =>
      obtain ⟨dev, hd, hr⟩ := hl.gone hg
      obtain ⟨dev', hd', hr'⟩ := m.devices hd
      exact ⟨dev', hd', hr' hr⟩
    case inr => exact revoked d hg.symm
  ordered := by
    rw [hh, List.pairwise_append]
    refine ⟨hl.ordered, List.pairwise_singleton _ _, fun x hx e' he' d hd => ?_⟩
    cases List.mem_singleton.mp he'
    exact used d (hd ▸ hx)
  rotated {k d ts} hr := by
    rw [hh, List.mem_append, List.mem_singleton] at hr
    have before : ∃ t, .presented k t d false ∈ h.history := by
      obtain hr | hr := hr
      case inl => exact hl.rotated hr
      case inr => exact rotated k d ts hr.symm
    obtain ⟨t, ht⟩ := before
    exact ⟨t, hh ▸ List.mem_append_left _ ht⟩
  unique {k t d f t' d' f'} hp hp' := by
    rw [hh, List.mem_append, List.mem_singleton] at hp hp'
    obtain hp | hp := hp <;> obtain hp' | hp' := hp'
    case inl.inl => exact hl.unique hp hp'
    case inl.inr =>
      exact absurd (hl.below hp) (Nat.not_lt.mpr (presented _ _ _ _ hp'.symm).left)
    case inr.inl =>
      exact absurd (hl.below hp') (Nat.not_lt.mpr (presented _ _ _ _ hp.symm).left)
    case inr.inr =>
      cases hp.trans hp'.symm
      exact ⟨rfl, rfl, rfl⟩
  below {k t d f} hp := by
    rw [hh, List.mem_append, List.mem_singleton] at hp
    obtain hp | hp := hp
    case inl => exact Nat.lt_of_lt_of_le (hl.below hp) hn
    case inr => exact (presented k t d f hp.symm).right

abbrev Keeps :=
  Locks.Keeps Call.locks Sound Knows

theorem Moves.refl {spent : Option Nat} {touched : List Token} : h.Moves spent touched h where
  requests hl hs _ := ⟨_, hl, hs, rfl⟩
  credentials hl   := ⟨_, hl, rfl, fun _ => rfl⟩
  devices hl       := ⟨_, hl, id⟩
  history hx       := hx

theorem Moves.log {spent : Option Nat} {touched : List Token} (m : h.Moves spent touched h') :
    h.Moves spent touched (h'.log e) where
  requests    := m.requests
  credentials := m.credentials
  devices     := m.devices
  history hx  := List.mem_append_left _ (m.history hx)

theorem Calms.refl : h.Calms h where
  requests hl    := ⟨_, hl, rfl, id⟩
  consumed hl hs := ⟨_, hl, hs⟩
  credentials hl := ⟨_, hl, rfl, id⟩
  devices hl     := ⟨_, hl⟩
  exchanges      := rfl
  next           := Nat.le_refl _

theorem Calms.log (m : h.Calms h') (he : e.exchange = none) : h.Calms (h'.log e) where
  requests    := m.requests
  consumed    := m.consumed
  credentials := m.credentials
  devices     := m.devices
  exchanges   := by rw [Hub.log, exchanges_concat, he]; simpa using m.exchanges
  next        := m.next

-- A step without a lock that matters to anybody else.
theorem keeps_of_calm {call call' : Option Call} (hs : h.Sound) (calms : h.Calms h')
    (moves : h.Moves none [] h') (hl : h'.Logged) (own : ∀ d, call' = some d → h'.Knows d) :
    Keeps h call h' call' where
  store         := { toBooked := hs.toBooked.calm calms, toLogged := hl }
  own           := own _
  others hc _ _ := hc.move moves (by simp) (by simp)

theorem keeps_refuse {call : Option Call} {error : DeviceError} (hs : h.Sound) (calms : h.Calms h')
    (moves : h.Moves none [] h') (hh : h'.history = h.history) :
    Keeps h call (h'.refuse error).1 (h'.refuse error).2 := by
  have logged : (h'.refuse error).1.history = h.history ++ [.refused error] := by
    rw [refuse, log, hh]
  refine keeps_of_calm hs (calms.log rfl) moves.log ?_ (by simp [refuse])
  exact hs.toLogged.concat moves.log logged calms.next (fun _ _ => rfl) (by simp) (by simp) (by simp)

section

variable {code : Nat} {f : AuthorizationRequest → AuthorizationRequest}

theorem lookup_updateRequest {i : Nat} : (h.updateRequest code f).requests.lookup i =
    (h.requests.lookup i).map fun r => if i = code then f r else r := by
  simp only [updateRequest, Table.lookup_filterMap, Option.map_eq_bind]
  rfl

-- An `UPDATE` of a request that neither approves it nor has anything to do with one that is approved
-- or consumed.
structure Mild (f : AuthorizationRequest → AuthorizationRequest) : Prop where
  device r   : (f r).deviceId = r.deviceId
  approved r : (f r).status = .approved ↔ r.status = .approved
  consumed r : r.status = .consumed → (f r).status = .consumed

theorem calms_updateRequest (hf : Mild f) : h.Calms (h.updateRequest code f) where
  requests hl := by
    rw [lookup_updateRequest, Option.map_eq_some_iff] at hl
    obtain ⟨r, hl, rfl⟩ := hl
    refine ⟨r, hl, ?_⟩
    split
    case isTrue  => exact ⟨hf.device r, (hf.approved r).mp⟩
    case isFalse => exact ⟨rfl, id⟩
  consumed {i r} hl hs := by
    refine ⟨if i = code then f r else r, by rw [lookup_updateRequest, hl]; rfl, ?_⟩
    split
    case isTrue  => exact hf.consumed r hs
    case isFalse => exact hs
  credentials hl := ⟨_, hl, rfl, id⟩
  devices hl     := ⟨_, hl⟩
  exchanges      := rfl
  next           := Nat.le_refl _

theorem moves_updateRequest (hf : Mild f) : h.Moves none [] (h.updateRequest code f) where
  requests {i r} hl hs _ := by
    refine ⟨if i = code then f r else r, by rw [lookup_updateRequest, hl]; rfl, ?_⟩
    split
    case isTrue  => exact ⟨(hf.approved r).mpr hs, hf.device r⟩
    case isFalse => exact ⟨hs, rfl⟩
  credentials hl := ⟨_, hl, rfl, fun _ => rfl⟩
  devices hl     := ⟨_, hl, id⟩
  history hx     := hx

theorem mild_expire : Mild expire where
  device r     := by simp only [expire]; split <;> rfl
  approved r   := by simp only [expire]; split <;> simp_all
  consumed r h := by simp [expire, h]

theorem mild_of_same (hf : ∀ r, (f r).deviceId = r.deviceId ∧ (f r).status = r.status) : Mild f where
  device r     := (hf r).left
  approved r   := by rw [(hf r).right]
  consumed r h := (hf r).right.trans h

theorem keeps_updated {call : Option Call} {error : DeviceError} (hs : h.Sound) (hf : Mild f) :
    Keeps h call ((h.updateRequest code f).refuse error).1
      ((h.updateRequest code f).refuse error).2 :=
  keeps_refuse hs (calms_updateRequest hf) (moves_updateRequest hf) rfl

theorem keeps_invalidGrant {call : Option Call} (hs : h.Sound) :
    Keeps h call h.invalidGrant.1 h.invalidGrant.2 :=
  keeps_refuse hs .refl .refl rfl

theorem Booked.insertRequest {r : AuthorizationRequest} {n : Nat} (hb : h.Booked)
    (hr : r.status = .pending) (hd : r.deviceId = none) (hn : h.next < n) :
    ({ h with requests := h.requests.set h.next r, next := n } : Hub).Booked where
  fresh {i r' d t x} hl ha hd' hx := by
    rw [Table.lookup_set] at hl
    split at hl
    case isTrue  => cases hl; simp [hr] at ha
    case isFalse => exact hb.fresh hl ha hd' hx
  paired {i j r₁ r₂ d} hl hl' hd₁ hd₂ := by
    rw [Table.lookup_set] at hl hl'
    split at hl
    case isTrue => cases hl; simp [hd] at hd₁
    case isFalse =>
      split at hl'
      case isTrue  => cases hl'; simp [hd] at hd₂
      case isFalse => exact hb.paired hl hl' hd₁ hd₂
  spent {i} hc := by
    obtain ⟨r', hl, hs⟩ := hb.spent hc
    have ne : i ≠ h.next := Nat.ne_of_lt (hb.below_request hl)
    exact ⟨r', by simp [ne, hl], hs⟩
  once   := hb.once
  single := hb.single
  below_request {i r'} hl := by
    rw [Table.lookup_set] at hl
    split at hl
    case isTrue he => exact he ▸ hn
    case isFalse   => exact Nat.lt_trans (hb.below_request hl) hn
  below_paired {i r' d} hl hd' := by
    rw [Table.lookup_set] at hl
    split at hl
    case isTrue  => cases hl; simp [hd] at hd'
    case isFalse => exact Nat.lt_trans (hb.below_paired hl hd') hn
  below_token hx      := Nat.lt_trans (hb.below_token hx) hn
  below_credential hx := Nat.lt_trans (hb.below_credential hx) hn
  below_device hl     := Nat.lt_trans (hb.below_device hl) hn

theorem Moves.trans {h'' : Hub} {spent : Option Nat} {touched : List Token} (m : h.Moves none [] h')
    (m' : h'.Moves spent touched h'') : h.Moves spent touched h'' where
  requests hl ha hn := by
    obtain ⟨r, hl, ha, hd⟩ := m.requests hl ha (by simp)
    obtain ⟨r', hl, ha, hd'⟩ := m'.requests hl ha hn
    exact ⟨r', hl, ha, hd'.trans hd⟩
  credentials hl := by
    obtain ⟨x, hl, hd, same⟩ := m.credentials hl
    obtain ⟨x', hl, hd', same'⟩ := m'.credentials hl
    exact ⟨x', hl, hd'.trans hd, fun ht => (same' ht).trans (same (by simp))⟩
  devices hl := by
    obtain ⟨dev, hl, hr⟩ := m.devices hl
    obtain ⟨dev', hl, hr'⟩ := m'.devices hl
    exact ⟨dev', hl, fun hs => hr' (hr hs)⟩
  history hx := m'.history (m.history hx)

-- The requests whose time is over.
def sweepExpired (h : Hub) (now : Time) : Hub :=
  { h with requests := h.requests.filterMap fun _ r => some (if r.expiresAt ≤ now then expire r else r) }

theorem lookup_sweepExpired : (h.sweepExpired now).requests.lookup code =
    (h.requests.lookup code).map fun r => if r.expiresAt ≤ now then expire r else r := by
  simp only [sweepExpired, Table.lookup_filterMap, Option.map_eq_bind]
  rfl

theorem calms_sweepExpired : h.Calms (h.sweepExpired now) where
  requests hl := by
    rw [lookup_sweepExpired, Option.map_eq_some_iff] at hl
    obtain ⟨r, hl, rfl⟩ := hl
    refine ⟨r, hl, ?_⟩
    split
    case isTrue  => exact ⟨mild_expire.device r, (mild_expire.approved r).mp⟩
    case isFalse => exact ⟨rfl, id⟩
  consumed {i r} hl hs := by
    refine ⟨if r.expiresAt ≤ now then expire r else r, by rw [lookup_sweepExpired, hl]; rfl, ?_⟩
    split
    case isTrue  => exact mild_expire.consumed r hs
    case isFalse => exact hs
  credentials hl := ⟨_, hl, rfl, id⟩
  devices hl     := ⟨_, hl⟩
  exchanges      := rfl
  next           := Nat.le_refl _

theorem moves_sweepExpired : h.Moves none [] (h.sweepExpired now) where
  requests {i r} hl hs _ := by
    refine ⟨if r.expiresAt ≤ now then expire r else r, by rw [lookup_sweepExpired, hl]; rfl, ?_⟩
    split
    case isTrue  => exact ⟨(mild_expire.approved r).mpr hs, mild_expire.device r⟩
    case isFalse => exact ⟨hs, rfl⟩
  credentials hl := ⟨_, hl, rfl, fun _ => rfl⟩
  devices hl     := ⟨_, hl, id⟩
  history hx     := hx

theorem moves_insertRequest {r : AuthorizationRequest} {n : Nat} (hb : h.Booked) :
    h.Moves none [] { h with requests := h.requests.set h.next r, next := n } where
  requests {i r'} hl ha _ := by
    have ne : i ≠ h.next := Nat.ne_of_lt (hb.below_request hl)
    exact ⟨r', by simp [ne, hl], ha, rfl⟩
  credentials hl := ⟨_, hl, rfl, fun _ => rfl⟩
  devices hl     := ⟨_, hl, id⟩
  history hx     := hx

theorem keeps_createCode (hs : h.Sound) :
    Keeps h none (h.createCode now).1 (h.createCode now).2 := by
  simp only [createCode]
  split
  case isTrue => exact keeps_refuse hs .refl .refl rfl
  case isFalse =>
    have swept : (h.sweepExpired now).Booked := hs.toBooked.calm calms_sweepExpired
    have next : h.next < h.next + 2 := Nat.lt_add_of_pos_right Nat.two_pos
    refine ⟨⟨swept.insertRequest rfl rfl next, ?_⟩, by simp, fun hc _ _ => ?_⟩
    case refine_1 =>
      exact hs.toLogged.move (moves_sweepExpired.trans (moves_insertRequest swept)) rfl
        (Nat.le_of_lt next)
    case refine_2 =>
      exact hc.move (moves_sweepExpired.trans (moves_insertRequest swept)) (by simp) (by simp)

-- The new device of an approval.
def withDevice (h : Hub) (user : Id) : Hub :=
  { h with devices := h.devices.set h.next { ownerId := user }, next := h.next + 1 }

theorem Booked.approve {user : Id} (hb : h.Booked) (hf : ∀ r, f r =
      if r.status = .pending
      then { r with status := .approved, ownerId := some user, deviceId := some h.next } else r) :
    ((h.withDevice user).updateRequest code f).Booked := by
  have rows {i r'} (hl : ((h.withDevice user).updateRequest code f).requests.lookup i = some r') :
      h.requests.lookup i = some r' ∨ i = code ∧ r'.deviceId = some h.next ∧
        ∃ r, h.requests.lookup i = some r := by
    rw [lookup_updateRequest, Option.map_eq_some_iff] at hl
    obtain ⟨r, hl, rfl⟩ := hl
    split
    case isFalse => exact .inl hl
    case isTrue hi =>
      rw [hf]
      split
      case isTrue  => exact .inr ⟨hi, rfl, r, hl⟩
      case isFalse => exact .inl hl
  refine ⟨fun hl ha hd hx => ?_, fun hl hl' hd hd' => ?_, fun {i} hc => ?_, hb.once, hb.single,
    fun hl => ?_, fun hl hd => ?_, fun hx => Nat.lt_succ_of_lt (hb.below_token hx),
    fun hx => Nat.lt_succ_of_lt (hb.below_credential hx), fun {d dev} hl => ?_⟩
  case refine_1 =>
    obtain hl | ⟨-, he, -⟩ := rows hl
    case inl => exact hb.fresh hl ha hd hx
    case inr =>
      cases he.symm.trans hd
      exact Nat.ne_of_lt (hb.below_credential hx)
  case refine_2 =>
    obtain hl | ⟨hi, he, -⟩ := rows hl <;> obtain hl' | ⟨hi', he', -⟩ := rows hl'
    case inl.inl => exact hb.paired hl hl' hd hd'
    case inl.inr =>
      cases he'.symm.trans hd'
      exact absurd (hb.below_paired hl hd) (Nat.lt_irrefl _)
    case inr.inl =>
      cases he.symm.trans hd
      exact absurd (hb.below_paired hl' hd') (Nat.lt_irrefl _)
    case inr.inr => exact hi.trans hi'.symm
  case refine_3 =>
    obtain ⟨r, hl, hs⟩ := hb.spent hc
    refine ⟨r, ?_, hs⟩
    rw [lookup_updateRequest]
    simp [withDevice, hl, hf, hs]
  case refine_4 =>
    obtain hl | ⟨-, -, r, hl⟩ := rows hl <;> exact Nat.lt_succ_of_lt (hb.below_request hl)
  case refine_5 =>
    obtain hl | ⟨-, he, -⟩ := rows hl
    case inl => exact Nat.lt_succ_of_lt (hb.below_paired hl hd)
    case inr =>
      cases he.symm.trans hd
      exact Nat.lt_succ_self _
  case refine_6 =>
    simp only [updateRequest, withDevice, Table.lookup_set] at hl ⊢
    split at hl
    case isTrue he => exact he ▸ Nat.lt_succ_self _
    case isFalse   => exact Nat.lt_succ_of_lt (hb.below_device hl)

theorem moves_approve {user : Id} (hb : h.Booked) (hf : ∀ r, f r =
      if r.status = .pending
      then { r with status := .approved, ownerId := some user, deviceId := some h.next } else r) :
    h.Moves none [] ((h.withDevice user).updateRequest code f) where
  requests {i r} hl ha _ := by
    refine ⟨r, ?_, ha, rfl⟩
    rw [lookup_updateRequest]
    simp [withDevice, hl, hf, ha]
  credentials hl := ⟨_, hl, rfl, fun _ => rfl⟩
  devices {d dev} hl := by
    have ne : d ≠ h.next := Nat.ne_of_lt (hb.below_device hl)
    exact ⟨dev, by simp [updateRequest, withDevice, ne, hl], id⟩
  history hx     := hx

theorem keeps_commitApproval {user : Id} {pending : AuthorizationRequest} {call : Option Call}
    (hs : h.Sound) :
    Keeps h call (h.commitApproval now user code pending).1
      (h.commitApproval now user code pending).2 := by
  simp only [commitApproval]
  split
  case isTrue => exact keeps_updated hs mild_expire
  case isFalse =>
    split
    case isTrue => exact keeps_refuse hs .refl .refl rfl
    case isFalse =>
      refine ⟨⟨hs.toBooked.approve fun _ => rfl, ?_⟩, by simp, fun hc _ _ => ?_⟩
      case refine_1 =>
        exact hs.toLogged.move (moves_approve hs.toBooked fun _ => rfl) rfl (Nat.le_succ _)
      case refine_2 => exact hc.move (moves_approve hs.toBooked fun _ => rfl) (by simp) (by simp)

theorem keeps_nextApprove {user : Id} {userCode : Nat} {stage : GrantStage} (hs : h.Sound) :
    Keeps h (some (.approve user userCode stage)) (h.nextApprove now user userCode stage).1
      (h.nextApprove now user userCode stage).2 := by
  cases stage <;> simp only [nextApprove]
  case locked => exact keeps_commitApproval hs
  case received =>
    split
    case h_1 => exact keeps_refuse hs .refl .refl rfl
    case h_2 => exact .read hs trivial

theorem keeps_nextDeny {userCode : Nat} {stage : GrantStage} (hs : h.Sound) :
    Keeps h (some (.deny userCode stage)) (h.nextDeny now userCode stage).1
      (h.nextDeny now userCode stage).2 := by
  cases stage <;> simp only [nextDeny]
  case received =>
    split
    case h_1 => exact keeps_refuse hs .refl .refl rfl
    case h_2 => exact .read hs trivial
  case locked =>
    have mild : Mild fun r => if r.status = .pending then { r with status := .denied } else r := by
      refine ⟨fun r => ?_, fun r => ?_, fun r h => ?_⟩ <;> split <;> simp_all
    refine keeps_of_calm hs (calms_updateRequest mild) (moves_updateRequest mild) ?_ (by simp)
    exact hs.toLogged.move (moves_updateRequest mild) rfl (Nat.le_refl _)

def consume (r : AuthorizationRequest) : AuthorizationRequest :=
  if r.status = .approved then { r with status := .consumed } else r

-- The end of an exchange that was approved.
def exchanged (h : Hub) (now : Time) (code : Nat) (d : Id) : Hub :=
  ((h.issueCredentials now d).1.updateRequest code consume).log
    (.exchanged code d (h.issueCredentials now d).2)

theorem lookup_exchanged {d : Id} {i : Nat} : (h.exchanged now code d).requests.lookup i =
    (h.requests.lookup i).map fun r => if i = code then consume r else r :=
  lookup_updateRequest

theorem lookup_issueCredentials {d : Id} {t : Token} {x : Credential}
    (hl : (h.issueCredentials now d).1.credentials.lookup t = some x) :
    t = ⟨.refresh, h.next + 1⟩ ∧ x.deviceId = d ∨ h.credentials.lookup t = some x := by
  simp only [issueCredentials, Table.lookup_set] at hl
  split at hl
  case isTrue he => cases hl; exact .inl ⟨he, rfl⟩
  case isFalse   => exact .inr hl

theorem Booked.exchange {d : Id} {r : AuthorizationRequest} (hb : h.Booked)
    (hr : h.requests.lookup code = some r) (ha : r.status = .approved) (hd : r.deviceId = some d) :
    (h.exchanged now code d).Booked := by
  have requests {i r'} (hl : (h.exchanged now code d).requests.lookup i = some r') :
      ∃ r, h.requests.lookup i = some r ∧ r'.deviceId = r.deviceId ∧
        (r'.status = .approved → i ≠ code ∧ r.status = .approved) := by
    rw [lookup_exchanged, Option.map_eq_some_iff] at hl
    obtain ⟨r, hl, rfl⟩ := hl
    refine ⟨r, hl, ?_⟩
    split
    case isFalse hi => exact ⟨rfl, fun ha => ⟨hi, ha⟩⟩
    case isTrue hi =>
      simp only [consume]
      split
      case isTrue     => exact ⟨rfl, by simp⟩
      case isFalse hn => exact ⟨rfl, fun ha => absurd ha hn⟩
  have credentials {t x} (hl : (h.exchanged now code d).credentials.lookup t = some x) :
      t = ⟨.refresh, h.next + 1⟩ ∧ x.deviceId = d ∨ h.credentials.lookup t = some x :=
    lookup_issueCredentials hl
  have consumed {i} (hi : ∃ r, h.requests.lookup i = some r ∧ (r.status = .consumed ∨ i = code)) :
      ∃ r, (h.exchanged now code d).requests.lookup i = some r ∧ r.status = .consumed := by
    obtain ⟨r', hl, hc⟩ := hi
    rw [lookup_exchanged, hl]
    refine ⟨_, rfl, ?_⟩
    by_cases he : i = code
    case pos =>
      subst he
      cases hr.symm.trans hl
      simp [consume, ha]
    case neg => simpa [he] using hc
  have exchanges_eq : exchanges (h.exchanged now code d).history = exchanges h.history ++ [code] :=
    exchanges_concat
  have unspent : code ∉ exchanges h.history := by
    intro hm
    obtain ⟨r', hl, hc⟩ := hb.spent hm
    cases hr.symm.trans hl
    simp [ha] at hc
  refine ⟨fun hl ha' hd' hx => ?_, fun hl hl' hd₁ hd₂ => ?_, fun {i} hc => ?_, ?_,
    fun {t t' x x'} hx hx' he hn hn' => ?_, fun hl => ?_, fun hl hd' => ?_, fun hx => ?_, fun hx => ?_,
    fun hl => Nat.lt_add_right 2 (hb.below_device hl)⟩
  case refine_1 =>
    obtain ⟨r', hl, he, approved⟩ := requests hl
    obtain ⟨ne, ha'⟩ := approved ha'
    obtain ⟨-, hx⟩ | hx := credentials hx
    case inl =>
      rw [hx]
      rintro rfl
      exact ne (hb.paired hl hr (he ▸ hd') hd)
    case inr => exact hb.fresh hl ha' (he ▸ hd') hx
  case refine_2 =>
    obtain ⟨r₁, hl, he, -⟩ := requests hl
    obtain ⟨r₂, hl', he', -⟩ := requests hl'
    exact hb.paired hl hl' (he ▸ hd₁) (he' ▸ hd₂)
  case refine_3 =>
    rw [exchanges_eq, List.mem_append, List.mem_singleton] at hc
    refine consumed ?_
    obtain hc | rfl := hc
    case inl =>
      obtain ⟨r', hl, hc⟩ := hb.spent hc
      exact ⟨r', hl, .inl hc⟩
    case inr => exact ⟨r, hr, .inr rfl⟩
  case refine_4 =>
    rw [exchanges_eq]
    refine hb.once.append (List.nodup_singleton _) fun i hi hc => ?_
    exact unspent (List.mem_singleton.mp hc ▸ hi)
  case refine_5 =>
    -- The device has had no credential before.
    obtain ⟨ht, hd₁⟩ | hx := credentials hx <;> obtain ⟨ht', hd₂⟩ | hx' := credentials hx'
    case inl.inl => exact ht.trans ht'.symm
    case inl.inr => exact absurd (he.symm.trans hd₁) (hb.fresh hr ha hd hx')
    case inr.inl => exact absurd (he.trans hd₂) (hb.fresh hr ha hd hx)
    case inr.inr => exact hb.single hx hx' he hn hn'
  case refine_6 =>
    obtain ⟨r', hl, -⟩ := requests hl
    exact Nat.lt_add_right 2 (hb.below_request hl)
  case refine_7 =>
    obtain ⟨r', hl, he, -⟩ := requests hl
    exact Nat.lt_add_right 2 (hb.below_paired hl (he ▸ hd'))
  case refine_8 =>
    obtain ⟨rfl, -⟩ | hx := credentials hx
    case inl => exact Nat.lt_succ_self _
    case inr => exact Nat.lt_add_right 2 (hb.below_token hx)
  case refine_9 =>
    obtain ⟨-, hx⟩ | hx := credentials hx
    case inl => rw [hx]; exact Nat.lt_add_right 2 (hb.below_paired hr hd)
    case inr => exact Nat.lt_add_right 2 (hb.below_credential hx)

theorem moves_exchanged {d : Id} (hb : h.Booked) :
    h.Moves (some code) [] (h.exchanged now code d) where
  requests {i r} hl ha hn := by
    refine ⟨r, ?_, ha, rfl⟩
    have ne : i ≠ code := fun he => hn (congrArg some he)
    simp [lookup_exchanged, hl, ne]
  credentials {t x} hl := by
    refine ⟨x, ?_, rfl, fun _ => rfl⟩
    have ne : t ≠ ⟨.refresh, h.next + 1⟩ := by
      rintro rfl
      exact absurd (hb.below_token hl) (Nat.not_lt.mpr (Nat.le_succ _))
    simp [exchanged, log, updateRequest, issueCredentials, ne, hl]
  devices hl := ⟨_, hl, id⟩
  history hx := List.mem_append_left _ hx

theorem keeps_exchanged {d : Id} {r : AuthorizationRequest} {c : Call} (hs : h.Sound)
    (hc : (Row.request code, Mode.update) ∈ c.locks) (hf : Mild f)
    (hr : h.requests.lookup code = some r) (ha : r.status = .approved) (hd : r.deviceId = some d) :
    Keeps h (some c) ((h.updateRequest code f).exchanged now code d) none := by
  have booked : (h.updateRequest code f).Booked := hs.toBooked.calm (calms_updateRequest hf)
  have row : (h.updateRequest code f).requests.lookup code = some (f r) := by
    rw [lookup_updateRequest, hr]
    simp
  have moves : h.Moves (some code) [] ((h.updateRequest code f).exchanged now code d) :=
    (moves_updateRequest hf).trans (moves_exchanged booked)
  refine ⟨⟨booked.exchange row ((hf.approved r).mpr ha) ((hf.device r).trans hd), ?_⟩, by simp,
    fun hk hl _ => hk.move moves (fun i hm he => ?_) (by simp)⟩
  case refine_1 =>
    exact hs.toLogged.concat moves rfl (Nat.le_add_right _ 2) (fun _ _ => rfl) (by simp) (by simp)
      (by simp)
  case refine_2 =>
    cases he
    exact ne_of_free (hl _ rfl) hc hm rfl

theorem keeps_nextExchange {stage : GrantStage} (hs : h.Sound) (hk : h.Knows (.exchange code stage)) :
    Keeps h (some (.exchange code stage)) (h.nextExchange now code stage).1
      (h.nextExchange now code stage).2 := by
  cases stage <;> simp only [nextExchange]
  case received =>
    split
    case h_1 => exact keeps_invalidGrant hs
    case h_2 grant hl => exact .read hs fun ha => ⟨grant, hl, ha, rfl⟩
  case locked code grant =>
    have polled : Mild fun r => { r with pollAfter := now + r.pollIntervalSeconds } :=
      mild_of_same fun _ => ⟨rfl, rfl⟩
    simp only [commitExchange]
    split
    case isTrue => exact keeps_updated hs mild_expire
    case isFalse =>
      split
      case isTrue => exact keeps_updated hs (mild_of_same fun _ => ⟨rfl, rfl⟩)
      case isFalse =>
        split
        case h_1 => exact keeps_updated hs polled
        case h_2 => exact keeps_updated hs polled
        case h_4 => exact keeps_updated hs polled
        case h_3 ha =>
          split
          case h_1 => exact keeps_refuse hs .refl .refl rfl
          case h_2 d hd =>
            obtain ⟨r, hr, ha, he⟩ := hk ha
            exact keeps_exchanged hs List.mem_cons_self polled hr ha (he.trans hd)

end

section

variable {d : Id} {p : Token → Bool}

theorem calms_revokeDevice : h.Calms (h.revokeDevice now d p) where
  requests hl    := ⟨_, hl, rfl, id⟩
  consumed hl hs := ⟨_, hl, hs⟩
  credentials {t x'} hl := by
    simp only [revokeDevice, Table.lookup_filterMap, Option.bind_eq_some_iff, Option.some.injEq] at hl
    obtain ⟨x, hl, rfl⟩ := hl
    refine ⟨x, hl, ?_⟩
    split
    case isTrue  => exact ⟨rfl, by simp⟩
    case isFalse => exact ⟨rfl, id⟩
  devices hl     := by
    simp only [revokeDevice, Table.lookup_filterMap, Option.bind_eq_some_iff] at hl
    obtain ⟨dev, hl, -⟩ := hl
    exact ⟨dev, hl⟩
  exchanges      := rfl
  next           := Nat.le_refl _

theorem lookup_revokeDevice {i : Id} : (h.revokeDevice now d p).devices.lookup i =
    (h.devices.lookup i).map fun dev =>
      if i = d then { dev with revokedAt := dev.revokedAt.or now } else dev := by
  simp only [revokeDevice, Table.lookup_filterMap, Option.map_eq_bind]
  rfl

theorem moves_revokeDevice {done : List Token} :
    h.Moves none done (h.revokeDevice now d (· ∈ done)) where
  requests hl ha _ := ⟨_, hl, ha, rfl⟩
  credentials {t x} hl := by
    refine ⟨if t ∈ done then { x with revokedAt := x.revokedAt.or now } else x, ?_, ?_, fun ht => if_neg ht⟩
    case refine_1 => simp [revokeDevice, hl]
    case refine_2 => split <;> rfl
  devices {i dev} hl := by
    refine ⟨_, by rw [lookup_revokeDevice, hl]; rfl, fun hr => ?_⟩
    split
    case isTrue  => simp
    case isFalse => exact hr
  history hx := hx

theorem keeps_nextSweep (goOn : SweepStage → Call) {stage : SweepStage} (hs : h.Sound)
    (hl : ∀ stage x, x ∈ stage.locks d → x ∈ (goOn stage).locks)
    (hd : ∃ dev, h.devices.lookup d = some dev) (hk : ∀ stage, h.Knows (goOn stage)) :
    Keeps h (some (goOn stage)) (h.nextSweep now d goOn stage).1 (h.nextSweep now d goOn stage).2 := by
  cases stage <;> simp only [nextSweep]
  case marked => exact .read hs (hk _)
  case sweeping todo done =>
    cases todo <;> simp only
    case cons => exact .read hs (hk _)
    case nil =>
      have moves : h.Moves none done ((h.revokeDevice now d (· ∈ done)).log (.revoked d)) :=
        moves_revokeDevice.log
      obtain ⟨dev, hd⟩ := hd
      refine ⟨⟨hs.toBooked.calm (calms_revokeDevice.log rfl), ?_⟩, by simp,
        fun hc hf _ => hc.move moves (by simp) fun t hm ht => ?_⟩
      case refine_1 =>
        refine hs.toLogged.concat moves rfl (Nat.le_refl _) (fun _ _ => rfl) (fun i hi => ?_) (by simp)
          (by simp)
        cases hi
        exact ⟨_, by rw [log, lookup_revokeDevice, hd]; rfl, by simp⟩
      case refine_2 =>
        refine ne_of_free (hf _ rfl) (hl _ (.credential t, .update) ?_) hm rfl
        simp [SweepStage.locks, ht]

theorem keeps_readCredential {token : Token} {call : Option Call} (hs : h.Sound) :
    Keeps h call (h.readCredential token).1 (h.readCredential token).2 := by
  simp only [readCredential]
  split
  case h_1 => exact keeps_invalidGrant hs
  case h_2 x device user hr =>
    obtain ⟨x', hx, ho⟩ := Option.bind_eq_some_iff.mp hr
    obtain ⟨o, ho, he⟩ := Option.map_eq_some_iff.mp ho
    cases he
    obtain ⟨device, hd, ho⟩ := Option.bind_eq_some_iff.mp ho
    obtain ⟨user, hu, ho⟩ := Option.map_eq_some_iff.mp ho
    cases ho
    let e := Event.presented h.next token x.deviceId device.revokedAt.isSome
    have moves : h.Moves none [] (({ h with next := h.next + 1 }).log e) :=
      ⟨fun hl ha _ => ⟨_, hl, ha, rfl⟩, fun hl => ⟨_, hl, rfl, fun _ => rfl⟩, fun hl => ⟨_, hl, id⟩,
        fun hx => List.mem_append_left _ hx⟩
    have calms : h.Calms { h with next := h.next + 1 } :=
      { Calms.refl with next := Nat.le_succ _ }
    refine keeps_of_calm hs (calms.log rfl) moves ?_ fun c hc => ?_
    case refine_1 =>
      refine hs.toLogged.concat moves rfl (Nat.le_succ _) (fun i hi => ?_) (by simp) (by simp) ?_
      case refine_1 =>
        by_cases hi' : x.deviceId = i
        case neg => simp [Event.uses, hi']
        case pos =>
          obtain ⟨dev, hl, revoked⟩ := hs.gone hi
          cases (hi' ▸ hd).symm.trans hl
          simp [Event.uses, revoked]
      case refine_2 =>
        intro k t i f he
        cases he
        exact ⟨Nat.le_refl _, Nat.lt_succ_self _⟩
    case refine_2 =>
      cases hc
      exact ⟨List.mem_append_right _ List.mem_cons_self, ⟨x, hx, rfl⟩, device, hd⟩

-- The end of a refresh: the old credential goes, and the new one comes.
theorem lookup_commitRefresh {token t : Token} {k : Nat} {x x' : Credential}
    (hl : (h.commitRefresh now token k x).1.credentials.lookup t = some x') :
    t = ⟨.refresh, h.next + 1⟩ ∧ x'.deviceId = x.deviceId ∨
      ∃ y, h.credentials.lookup t = some y ∧ x'.deviceId = y.deviceId ∧
        (x'.revokedAt = none → t ≠ token ∧ y.revokedAt = none) := by
  obtain hl | hl := lookup_issueCredentials hl
  case inl => exact .inl hl
  case inr =>
    simp only [Table.lookup_filterMap, Option.bind_eq_some_iff, Option.some.injEq] at hl
    obtain ⟨y, hy, rfl⟩ := hl
    refine .inr ⟨y, hy, ?_⟩
    split
    case isTrue => exact ⟨rfl, by simp⟩
    case isFalse hf =>
      refine ⟨rfl, fun hr => ⟨fun ht => hf ?_, hr⟩⟩
      simp [ht, hr]

theorem Booked.refresh {token : Token} {k : Nat} {x : Credential} (hb : h.Booked)
    (hx : h.credentials.lookup token = some x) (hn : x.revokedAt = none) :
    (h.commitRefresh now token k x).1.Booked := by
  have exchanges_eq : exchanges (h.commitRefresh now token k x).1.history = exchanges h.history := by
    simp [commitRefresh, log, exchanges_concat, Event.exchange, issueCredentials]
  refine ⟨fun hl ha hd hy => ?_, hb.paired, fun hc => hb.spent (exchanges_eq ▸ hc),
    exchanges_eq ▸ hb.once, fun {t t' y y'} hy hy' he hr hr' => ?_,
    fun hl => Nat.lt_add_right 2 (hb.below_request hl),
    fun hl hd => Nat.lt_add_right 2 (hb.below_paired hl hd), fun hy => ?_, fun hy => ?_,
    fun hl => Nat.lt_add_right 2 (hb.below_device hl)⟩
  case refine_1 =>
    obtain ⟨-, he⟩ | ⟨y', hy', he, -⟩ := lookup_commitRefresh hy
    case inl => exact he ▸ hb.fresh hl ha hd hx
    case inr => exact he ▸ hb.fresh hl ha hd hy'
  case refine_2 =>
    -- Nothing but the old credential was open, and that one is not any more.
    have closed {s y} (hy : h.credentials.lookup s = some y) (hs : s ≠ token)
        (hd : y.deviceId = x.deviceId) (hr : y.revokedAt = none) : False :=
      hs (hb.single hy hx hd hr hn)
    obtain ⟨ht, hd⟩ | ⟨z, hz, hd, open'⟩ := lookup_commitRefresh hy <;>
      obtain ⟨ht', hd'⟩ | ⟨z', hz', hd', open''⟩ := lookup_commitRefresh hy'
    case inl.inl => exact ht.trans ht'.symm
    case inl.inr =>
      obtain ⟨hs, hr⟩ := open'' hr'
      exact absurd hr fun hr => closed hz' hs (hd'.symm.trans (he.symm.trans hd)) hr
    case inr.inl =>
      obtain ⟨hs, hr⟩ := open' hr
      exact absurd hr fun hr => closed hz hs (hd.symm.trans (he.trans hd')) hr
    case inr.inr =>
      exact hb.single hz hz' (hd.symm.trans (he.trans hd')) (open' hr).right (open'' hr').right
  case refine_3 =>
    obtain ⟨rfl, -⟩ | ⟨y', hy', -⟩ := lookup_commitRefresh hy
    case inl => exact Nat.lt_succ_self _
    case inr => exact Nat.lt_add_right 2 (hb.below_token hy')
  case refine_4 =>
    obtain ⟨-, he⟩ | ⟨y', hy', he, -⟩ := lookup_commitRefresh hy
    case inl => rw [he]; exact Nat.lt_add_right 2 (hb.below_credential hx)
    case inr => rw [he]; exact Nat.lt_add_right 2 (hb.below_credential hy')

theorem moves_commitRefresh {token : Token} {k : Nat} {x : Credential} (hb : h.Booked) :
    h.Moves none [token] (h.commitRefresh now token k x).1 where
  requests hl ha _ := ⟨_, hl, ha, rfl⟩
  credentials {t y} hl := by
    have ne : t ≠ ⟨.refresh, h.next + 1⟩ := by
      rintro rfl
      exact absurd (hb.below_token hl) (Nat.not_lt.mpr (Nat.le_succ _))
    refine ⟨if t = token && y.revokedAt.isNone then { y with revokedAt := some now } else y, ?_, ?_,
      fun ht => ?_⟩
    case refine_1 => simp [commitRefresh, log, issueCredentials, ne, hl]
    case refine_2 => split <;> rfl
    case refine_3 => simp [List.mem_singleton.not.mp ht]
  devices hl := ⟨_, hl, id⟩
  history hx := List.mem_append_left _ hx

theorem keeps_commitRefresh {token : Token} {k : Nat} {x : Credential} {enabled : Bool} (hs : h.Sound)
    (hk : h.Knows (.refresh token (.locked k x false enabled))) (hn : x.revokedAt = none) :
    Keeps h (some (.refresh token (.locked k x false enabled))) (h.commitRefresh now token k x).1
      none := by
  obtain ⟨presented, hx, -⟩ := hk
  have moves : h.Moves none [token] (h.commitRefresh now token k x).1 := moves_commitRefresh hs.toBooked
  refine ⟨⟨hs.toBooked.refresh hx hn, ?_⟩, by simp,
    fun hc hf _ => hc.move moves (by simp) fun t hm ht => ?_⟩
  case refine_1 =>
    refine hs.toLogged.concat moves rfl (Nat.le_add_right _ 2) (fun _ _ => rfl) (by simp) ?_ (by simp)
    intro k' i ts he
    cases he
    exact ⟨token, presented⟩
  case refine_2 =>
    cases List.mem_singleton.mp ht
    exact ne_of_free (hf _ rfl) List.mem_cons_self hm rfl

theorem keeps_nextRefresh {token : Token} {stage : RefreshStage} (hs : h.Sound)
    (hk : h.Knows (.refresh token stage)) :
    Keeps h (some (.refresh token stage)) (h.nextRefresh now token stage).1
      (h.nextRefresh now token stage).2 := by
  cases stage <;> simp only [nextRefresh]
  case received => exact keeps_readCredential hs
  case read k i revoked enabled =>
    obtain ⟨presented, ⟨x, hx, rfl⟩, hd⟩ := hk
    simp only [hx]
    exact .read hs ⟨presented, hx, hd⟩
  case locked k x revoked enabled =>
    split
    case isTrue => exact .read hs hk.right.right
    case isFalse hn =>
      split
      case isTrue => exact keeps_invalidGrant hs
      case isFalse hr =>
        simp only [not_or, Bool.not_eq_true] at hr
        obtain ⟨rfl, -⟩ := hr
        exact keeps_commitRefresh hs hk (by simpa using hn)
  case reused i stage =>
    refine keeps_nextSweep (fun s => .refresh token (.reused i s)) hs (fun stage y hy => ?_) hk
      fun _ => hk
    exact List.mem_cons_of_mem _ hy

theorem keeps_nextRevoke {owner : Id} {stage : RevokeStage} (hs : h.Sound)
    (hk : h.Knows (.revoke owner d stage)) :
    Keeps h (some (.revoke owner d stage)) (h.nextRevoke now owner d stage).1
      (h.nextRevoke now owner d stage).2 := by
  cases stage <;> simp only [nextRevoke]
  case received =>
    split
    case isTrue hd =>
      obtain ⟨dev, hl, -⟩ := (Option.any_eq_true _ _).mp hd
      exact .read hs ⟨dev, hl⟩
    case isFalse => exact keeps_refuse hs .refl .refl rfl
  case found => exact .read hs hk
  case sweep =>
    exact keeps_nextSweep (fun s => .revoke owner d (.sweep s)) hs (fun _ _ hy => hy) hk fun _ => hk

end

-- A token authenticates a device only while the device is not revoked.
theorem device_of_authenticate {token : Token} {d : Id}
    (ha : h.authenticateAccessToken now token = some d) :
    ∃ dev, h.devices.lookup d = some dev ∧ dev.revokedAt = none := by
  obtain ⟨row, hf, rfl⟩ := Option.map_eq_some_iff.mp ha
  have found := List.find?_some hf
  simp only [Bool.and_eq_true, Option.any_eq_true, Option.isNone_iff_eq_none] at found
  obtain ⟨-, o, ho, hn, -⟩ := found
  obtain ⟨dev, hd, ho⟩ := Option.bind_eq_some_iff.mp ho
  obtain ⟨user, -, rfl⟩ := Option.map_eq_some_iff.mp ho
  exact ⟨dev, hd, hn⟩

theorem keeps_start {r : Request} {y : Hub × Option Call} (hs : h.Sound) (hr : h.start r = some y) :
    Keeps h none y.1 y.2 := by
  cases r <;> simp only [start, Option.some.injEq] at hr
  case createCode => exact hr ▸ keeps_createCode hs
  case revoke     => exact hr ▸ .read hs trivial
  case exchange =>
    split at hr <;> cases hr
    case isTrue  => exact keeps_refuse hs .refl .refl rfl
    case isFalse => exact .read hs trivial
  case approve =>
    split at hr
    case isTrue => cases hr; exact keeps_refuse hs .refl .refl rfl
    case isFalse =>
      split at hr <;> cases hr
      case isTrue  => exact keeps_refuse hs .refl .refl rfl
      case isFalse => exact .read hs trivial
  case deny =>
    split at hr <;> cases hr
    case isTrue  => exact keeps_refuse hs .refl .refl rfl
    case isFalse => exact .read hs trivial
  case refresh =>
    split at hr
    case isTrue => cases hr; exact keeps_refuse hs .refl .refl rfl
    case isFalse =>
      split at hr <;> cases hr
      case isTrue  => exact keeps_invalidGrant hs
      case isFalse => exact .read hs trivial
  case authenticate =>
    split at hr <;> cases hr
    case h_1 => exact .refl hs
    case h_2 token now _ d ha =>
      refine keeps_of_calm hs (Calms.refl.log rfl) Moves.refl.log ?_ (by simp)
      have moves : h.Moves none [] (h.log (.authenticated d token)) := Moves.refl.log
      refine hs.toLogged.concat moves rfl (Nat.le_refl _) (fun i hi => ?_) (by simp) (by simp) (by simp)
      simp only [Event.uses, decide_eq_false_iff_not]
      rintro rfl
      obtain ⟨dev, hl, hn⟩ := device_of_authenticate ha
      obtain ⟨dev', hl', revoked⟩ := hs.gone hi
      cases hl.symm.trans hl'
      simp [hn] at revoked
  case elsewhere users =>
    cases hr
    have moves : h.Moves none [] { h with users } :=
      ⟨fun hl ha _ => ⟨_, hl, ha, rfl⟩, fun hl => ⟨_, hl, rfl, fun _ => rfl⟩, fun hl => ⟨_, hl, id⟩, id⟩
    have calms : h.Calms { h with users } := { Calms.refl with exchanges := rfl }
    exact keeps_of_calm hs calms moves (hs.toLogged.move moves rfl (Nat.le_refl _)) (by simp)

theorem keeps_resume {y : Hub × Option Call} (hs : h.Sound) (hk : h.Knows c)
    (hr : h.resume now c = some y) : Keeps h (some c) y.1 y.2 := by
  cases c <;> cases hr
  case exchange => exact keeps_nextExchange hs hk
  case approve  => exact keeps_nextApprove hs
  case deny     => exact keeps_nextDeny hs
  case refresh  => exact keeps_nextRefresh hs hk
  case revoke   => exact keeps_nextRevoke hs hk

variable {s s' : Shared.System Hub Call} {l : Shared.Label Request Time}

theorem sound_step (hs : Locks.Holds Call.locks Sound Knows s) (ht : step s l = some s') :
    Locks.Holds Call.locks Sound Knows s' :=
  hs.step (fun _ hr => keeps_start hs.store hr) (fun _ _ hk hr => keeps_resume hs.store hk hr) ht

theorem sound_init : Locks.Holds Call.locks Sound Knows { store := {} } where
  store := {
    fresh hl            := by simp at hl
    paired hl           := by simp at hl
    spent hc            := by simp [exchanges] at hc
    once                := List.nodup_nil
    single hx           := by simp at hx
    below_request hl    := by simp at hl
    below_paired hl     := by simp at hl
    below_token hx      := by simp at hx
    below_credential hx := by simp at hx
    below_device hl     := by simp at hl
    gone hg             := by simp at hg
    ordered             := .nil
    rotated hr          := by simp at hr
    unique hp           := by simp at hp
    below hp            := by simp at hp }
  calls h := by simp at h
  apart i j c d _ hc := by simp at hc

-- Every device code is exchanged once, and one credential of a device at most is open. When a device has
-- been revoked, no token of it is accepted from then on, and no credential of it, be it a new one, can
-- be used.
theorem devices_revoked (run : Execution.Reaches step { store := {} } s) :
    (exchanges s.store.history).Nodup ∧
    (∀ t t' x x', s.store.credentials.lookup t = some x → s.store.credentials.lookup t' = some x' →
      x.deviceId = x'.deviceId → x.revokedAt = none → x'.revokedAt = none → t = t') ∧
    ∀ pre d post, s.store.history = pre ++ .revoked d :: post →
      (∀ token, .authenticated d token ∉ post) ∧
      (∀ k token i seen tokens, .presented k token i seen ∈ post →
        .rotated k d tokens ∉ s.store.history) ∧
      (∀ now token, s.store.authenticateAccessToken now token ≠ some d) ∧
      (∀ token x o, s.store.credentials.lookup token = some x → x.deviceId = d →
        s.store.owner x = some o → o.1.revokedAt.isSome) := by
  have sound := (run.invariant sound_init fun h _ => sound_step h).store
  refine ⟨sound.once, fun t t' x x' => sound.single, fun pre d post hh => ?_⟩
  have later : ∀ e ∈ post, e.uses d = false := by
    have ordered := hh ▸ sound.ordered
    have after := (List.pairwise_cons.mp (List.pairwise_append.mp ordered).right.left).left
    exact fun e he => after e he d rfl
  obtain ⟨dev, hl, revoked⟩ := sound.gone (hh ▸ List.mem_append_right _ List.mem_cons_self)
  refine ⟨fun token hm => ?_, fun k token i seen tokens hm hr => ?_, fun now token ha => ?_,
    fun token x o hx hd ho => ?_⟩
  case refine_1 => simpa [Event.uses] using later _ hm
  case refine_2 =>
    obtain ⟨t, hp⟩ := sound.rotated hr
    have hm' : .presented k token i seen ∈ s.store.history :=
      hh ▸ List.mem_append_right _ (List.mem_cons_of_mem _ hm)
    obtain ⟨rfl, rfl, rfl⟩ := sound.unique hm' hp
    simpa [Event.uses] using later _ hm
  case refine_3 =>
    obtain ⟨dev', hl', hn⟩ := device_of_authenticate ha
    cases hl.symm.trans hl'
    simp [hn] at revoked
  case refine_4 =>
    subst hd
    obtain ⟨dev', hl', ho⟩ := Option.bind_eq_some_iff.mp ho
    obtain ⟨user, -, rfl⟩ := Option.map_eq_some_iff.mp ho
    cases hl.symm.trans hl'
    exact revoked

end Hub

-- No token of a device is accepted once the device has been revoked.
def Final (history : List Event) : Prop :=
  ∀ pre d post, history = pre ++ .revoked d :: post →
    (∀ token, .authenticated d token ∉ post) ∧ ∀ k tokens, .rotated k d tokens ∉ post

-- The code 0 is approved by the account 7, as the device 2.
def pairing : List (Shared.Label Request Time) :=
  [.start 0 (.elsewhere ⟨[(7, {})], by decide⟩), .start 0 (.createCode 0),
   .start 0 (.approve 7 false false 1), .next 0 5, .next 0 5]

def exchanging : Shared.Label Request Time :=
  .start 0 (.exchange "urn:ietf:params:oauth:grant-type:device_code" 0)

def refreshing : Shared.Label Request Time :=
  .start 2 (.refresh ⟨"refresh_token", ⟨.refresh, 4⟩⟩)

-- The revocation finds no credentials yet. The first one comes before it commits, and a refresh with
-- it has read the device by then.
theorem rotated_after_revoked :
    ∃ s, Execution.Reaches Hub.step { store := {} } s ∧ ¬Final s.store.history := by
  have run : (Execution.run Hub.step { store := {} } (pairing ++ [exchanging, .next 0 10,
      .start 1 (.revoke 7 2), .next 1 20, .next 1 20, .next 1 20, .next 0 20,
      refreshing, .next 2 20, .next 2 20, .next 1 20, .next 2 20])).map (·.store.history) =
      some ([.exchanged 0 2 ⟨⟨.access, 3⟩, ⟨.refresh, 4⟩⟩, .presented 5 ⟨.refresh, 4⟩ 2 false] ++
        .revoked 2 :: [.rotated 5 2 ⟨⟨.access, 6⟩, ⟨.refresh, 7⟩⟩]) := by
    decide +kernel
  obtain ⟨s, hs, he⟩ := Option.map_eq_some_iff.mp run
  refine ⟨s, Execution.reaches_of_run hs, fun final => ?_⟩
  exact (final _ 2 _ he).right 5 _ List.mem_cons_self

theorem devices_revoked_refresh :
    ∃ s, Execution.Reaches Hub.step { store := {} } s ∧
      s.store.history = [.exchanged 0 2 ⟨⟨.access, 3⟩, ⟨.refresh, 4⟩⟩] ++
        .revoked 2 :: [.presented 5 ⟨.refresh, 4⟩ 2 true, .revoked 2] ∧
      ((exchanges s.store.history).Nodup ∧
      (∀ t t' x x', s.store.credentials.lookup t = some x → s.store.credentials.lookup t' = some x' →
        x.deviceId = x'.deviceId → x.revokedAt = none → x'.revokedAt = none → t = t') ∧
      ∀ pre d post, s.store.history = pre ++ .revoked d :: post →
        (∀ token, .authenticated d token ∉ post) ∧
        (∀ k token i seen tokens, .presented k token i seen ∈ post →
          .rotated k d tokens ∉ s.store.history) ∧
        (∀ now token, s.store.authenticateAccessToken now token ≠ some d) ∧
        (∀ token x o, s.store.credentials.lookup token = some x → x.deviceId = d →
          s.store.owner x = some o → o.1.revokedAt.isSome)) := by
  have run : (Execution.run Hub.step { store := {} } (pairing ++ [exchanging, .next 0 10, .next 0 10,
      .start 1 (.revoke 7 2), .next 1 20, .next 1 20, .next 1 20, .next 1 20, .next 1 20,
      .start 1 (.authenticate ⟨.access, 3⟩ 20), refreshing, .next 2 20, .next 2 20, .next 2 20,
      .next 2 20, .next 2 20, .next 2 20])).map (·.store.history) =
      some ([.exchanged 0 2 ⟨⟨.access, 3⟩, ⟨.refresh, 4⟩⟩] ++
        .revoked 2 :: [.presented 5 ⟨.refresh, 4⟩ 2 true, .revoked 2]) := by
    decide +kernel
  obtain ⟨s, hs, he⟩ := Option.map_eq_some_iff.mp run
  have reaches : Execution.Reaches Hub.step { store := {} } s := Execution.reaches_of_run hs
  exact ⟨s, reaches, he, Hub.devices_revoked reaches⟩

end MyDrive.Devices
