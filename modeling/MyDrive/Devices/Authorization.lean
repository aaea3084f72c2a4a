import MyDrive.Devices.Credentials
import MyDrive.Library.Locks

-- The device endpoints, with every transaction interleaved with the others. What a transaction writes
-- takes effect when it commits. The rows that it has locked stay locked until then.

namespace MyDrive.Devices

open Locks

inductive Status
  | pending
  | approved
  | denied
  | consumed
  | expired
  deriving DecidableEq

-- A row of `device_authorization_requests`, whose key is the device code.
structure AuthorizationRequest where
  userCode            : Nat
  expiresAt           : Time
  pollIntervalSeconds : Nat
  pollAfter           : Time
  status              : Status
  ownerId             : Option Id := none
  deviceId            : Option Id := none
  createdAt           : Time
  deriving DecidableEq

inductive DeviceError
  | grant (e : GrantError)
  | expiredToken
  | slowDown (interval : Nat)
  | authorizationPending (interval : Nat)
  | accessDenied
  | serviceUnavailable
  | tooManyAttempts
  | insufficientScope
  | passwordChangeRequired
  | notFound
  | conflict
  deriving DecidableEq

-- What has happened, in this order. `presented` is the first read of a refresh, with the device as it
-- saw it, and `rotated` its success. `revoked` is the commit by which a device becomes revoked.
inductive Event
  | exchanged (code : Nat) (deviceId : Id) (tokens : TokenSet)
  | presented (serial : Nat) (token : Token) (deviceId : Id) (deviceRevoked : Bool)
  | rotated (serial : Nat) (deviceId : Id) (tokens : TokenSet)
  | authenticated (deviceId : Id) (token : Token)
  | revoked (deviceId : Id)
  | refused (e : DeviceError)
  deriving DecidableEq

-- Every code, token, id and serial number below `next` has been given out.
structure Hub where
  users       : Table Id User := .empty
  devices     : Table Id Device := .empty
  requests    : Table Nat AuthorizationRequest := .empty
  credentials : Table Token Credential := .empty
  history     : List Event := []
  next        : Nat := 0

inductive Row
  | request (code : Nat)
  | device (id : Id)
  | credential (token : Token)
  deriving DecidableEq

inductive GrantStage
  | received
  | locked (code : Nat) (grant : AuthorizationRequest)

-- The `UPDATE` of the device comes first. The one of its credentials finds `todo` and then takes them
-- one after the other.
inductive SweepStage
  | marked
  | sweeping (todo done : List Token)

inductive RefreshStage
  | received
  | read (serial : Nat) (deviceId : Id) (deviceRevoked accountEnabled : Bool)
  | locked (serial : Nat) (credential : Credential) (deviceRevoked accountEnabled : Bool)
  | reused (deviceId : Id) (stage : SweepStage)

inductive RevokeStage
  | received
  | found
  | sweep (stage : SweepStage)

inductive Call
  | exchange (code : Nat) (stage : GrantStage)
  | approve (user : Id) (userCode : Nat) (stage : GrantStage)
  | deny (userCode : Nat) (stage : GrantStage)
  | refresh (token : Token) (stage : RefreshStage)
  | revoke (owner deviceId : Id) (stage : RevokeStage)

def GrantStage.locks : GrantStage → List (Row × Mode)
  | .received      => []
  | .locked code _ => [(.request code, .update)]

def SweepStage.locks (deviceId : Id) : SweepStage → List (Row × Mode)
  | .marked          => [(.device deviceId, .update)]
  | .sweeping _ done => (.device deviceId, .update) :: done.map (.credential ·, .update)

-- A new credential locks its device against deletion only, which conflicts with none of these.
def Call.locks : Call → List (Row × Mode)
  | .exchange _ stage                   => stage.locks
  | .approve _ _ stage                  => stage.locks
  | .deny _ stage                       => stage.locks
  | .refresh token (.locked _ _ _ _)    => [(.credential token, .update)]
  | .refresh token (.reused id stage)   => (.credential token, .update) :: stage.locks id
  | .refresh _ _                        => []
  | .revoke _ id (.sweep stage)         => stage.locks id
  | .revoke _ _ _                       => []

-- `elsewhere` is any change of the accounts.
inductive Request
  | createCode (now : Time)
  | exchange (grantType : String) (code : Nat)
  | approve (user : Id) (byDevice mustChangePassword : Bool) (userCode : Nat)
  | deny (byDevice : Bool) (userCode : Nat)
  | refresh (request : RefreshRequest)
  | revoke (owner deviceId : Id)
  | authenticate (token : Token) (now : Time)
  | elsewhere (users : Table Id User)

def deviceCodeTtlSeconds : Nat := 600

def defaultPollSeconds : Nat := 5

def maxPollSeconds : Nat := 30

namespace Hub

def log (h : Hub) (e : Event) : Hub :=
  { h with history := h.history ++ [e] }

def refuse (h : Hub) (e : DeviceError) : Hub × Option Call :=
  (h.log (.refused e), none)

def invalidGrant (h : Hub) : Hub × Option Call :=
  h.refuse (.grant .invalidGrant)

def owner (h : Hub) (credential : Credential) : Option (Device × User) :=
  (h.devices.lookup credential.deviceId).bind fun device =>
    (h.users.lookup device.ownerId).map (device, ·)

-- The device that the token authenticates.
def authenticateAccessToken (h : Hub) (now : Time) (token : Token) : Option Id :=
  let row := h.credentials.rows.find? fun r =>
    token.kind = .access && r.2.accessToken = token && r.2.revokedAt.isNone &&
      r.2.accessExpiresAt > now && (h.owner r.2).any fun o =>
        o.1.revokedAt.isNone && o.2.disabledAt.isNone
  row.map (·.2.deviceId)

def updateRequest (h : Hub) (code : Nat) (f : AuthorizationRequest → AuthorizationRequest) : Hub :=
  { h with requests := h.requests.filterMap fun i r => some (if i = code then f r else r) }

def expire (r : AuthorizationRequest) : AuthorizationRequest :=
  if r.status = .pending then { r with status := .expired } else r

-- The rows that have expired, and the new one. Its codes are drawn until they are new.
def createCode (h : Hub) (now : Time) : Hub × Option Call :=
  let recent := h.requests.rows.filter fun r => r.2.createdAt + 60 > now
  if recent.length ≥ 30 then
    h.refuse .tooManyAttempts
  else
    let swept := h.requests.filterMap fun _ r => some (if r.expiresAt ≤ now then expire r else r)
    ({ h with
        requests := swept.set h.next {
          userCode            := h.next + 1
          expiresAt           := now + deviceCodeTtlSeconds
          pollIntervalSeconds := defaultPollSeconds
          pollAfter           := now
          status              := .pending
          createdAt           := now }
        next     := h.next + 2 }, none)

def issueCredentials (h : Hub) (now : Time) (deviceId : Id) : Hub × TokenSet :=
  let accessToken := { kind := .access, serial := h.next }
  let refreshToken := { kind := .refresh, serial := h.next + 1 }
  ({ h with
      next        := h.next + 2
      credentials := h.credentials.set refreshToken {
        deviceId, accessToken
        accessExpiresAt  := now + accessTokenTtlSeconds
        refreshExpiresAt := now + refreshTokenTtlSeconds } },
    { accessToken, refreshToken })

-- The rest of `exchange_token`, once it has the row of the request.
def commitExchange (h : Hub) (now : Time) (code : Nat) (grant : AuthorizationRequest) :
    Hub × Option Call :=
  if grant.expiresAt ≤ now ∨ grant.status = .expired then
    (h.updateRequest code expire).refuse .expiredToken
  else if now < grant.pollAfter then
    let interval := min (grant.pollIntervalSeconds + 5) maxPollSeconds
    (h.updateRequest code fun r =>
      { r with pollIntervalSeconds := interval, pollAfter := now + interval }).refuse (.slowDown interval)
  else
    let polled := h.updateRequest code fun r =>
      { r with pollAfter := now + r.pollIntervalSeconds }
    match grant.status with
    | .pending  => polled.refuse (.authorizationPending grant.pollIntervalSeconds)
    | .denied   => polled.refuse .accessDenied
    | .approved =>
      match grant.deviceId with
      | none          => h.refuse .serviceUnavailable
      | some deviceId =>
        let issued := polled.issueCredentials now deviceId
        let consumed := issued.1.updateRequest code fun r =>
          if r.status = .approved then { r with status := .consumed } else r
        (consumed.log (.exchanged code deviceId issued.2), none)
    | _         => polled.invalidGrant

def nextExchange (h : Hub) (now : Time) (code : Nat) : GrantStage → Hub × Option Call
  | .received          =>
    match h.requests.lookup code with
    | none       => h.invalidGrant
    | some grant => (h, some (.exchange code (.locked code grant)))
  | .locked code grant => h.commitExchange now code grant

def findUserCode (h : Hub) (userCode : Nat) : Option (Nat × AuthorizationRequest) :=
  h.requests.rows.find? (·.2.userCode = userCode)

def commitApproval (h : Hub) (now : Time) (user : Id) (code : Nat) (pending : AuthorizationRequest) :
    Hub × Option Call :=
  if pending.expiresAt ≤ now ∨ pending.status = .expired then
    (h.updateRequest code expire).refuse .expiredToken
  else if pending.status ≠ .pending then
    h.refuse .conflict
  else
    let paired : Hub :=
      { h with devices := h.devices.set h.next { ownerId := user }, next := h.next + 1 }
    (paired.updateRequest code fun r =>
      if r.status = .pending
      then { r with status := .approved, ownerId := some user, deviceId := some h.next } else r, none)

def nextApprove (h : Hub) (now : Time) (user : Id) (userCode : Nat) : GrantStage → Hub × Option Call
  | .received            =>
    match h.findUserCode userCode with
    | none                 => h.refuse .notFound
    | some (code, pending) => (h, some (.approve user userCode (.locked code pending)))
  | .locked code pending => h.commitApproval now user code pending

def nextDeny (h : Hub) (now : Time) (userCode : Nat) : GrantStage → Hub × Option Call
  | .received      =>
    match (h.findUserCode userCode).filter fun r => r.2.status = .pending && r.2.expiresAt > now with
    | none                 => h.refuse .notFound
    | some (code, pending) => (h, some (.deny userCode (.locked code pending)))
  | .locked code _ =>
    (h.updateRequest code fun r => if r.status = .pending then { r with status := .denied } else r, none)

-- `revoked_at = COALESCE(revoked_at, now())` for the device and the credentials.
def revokeDevice (h : Hub) (now : Time) (deviceId : Id) (p : Token → Bool) : Hub :=
  { h with
    devices     := h.devices.filterMap fun id d =>
      some (if id = deviceId then { d with revokedAt := d.revokedAt.or now } else d)
    credentials := h.credentials.filterMap fun token c =>
      some (if p token then { c with revokedAt := c.revokedAt.or now } else c) }

def ofDevice (h : Hub) (deviceId : Id) : List Token :=
  (h.credentials.rows.filter (·.2.deviceId = deviceId)).map Prod.fst

-- A step of the sweep, and of the commit after it.
def nextSweep (h : Hub) (now : Time) (deviceId : Id) (goOn : SweepStage → Call) :
    SweepStage → Hub × Option Call
  | .marked                       => (h, some (goOn (.sweeping (h.ofDevice deviceId) [])))
  | .sweeping (token :: todo) done => (h, some (goOn (.sweeping todo (token :: done))))
  | .sweeping [] done             => ((h.revokeDevice now deviceId (· ∈ done)).log (.revoked deviceId), none)

-- The row with its joins. `FOR UPDATE` of the credential reads that row again, but not the others.
def readCredential (h : Hub) (token : Token) : Hub × Option Call :=
  let row := (h.credentials.lookup token).bind fun credential =>
    (h.owner credential).map (credential, ·)
  match row with
  | none                            => h.invalidGrant
  | some (credential, device, user) =>
    let revoked := device.revokedAt.isSome
    ({ h with next := h.next + 1 }.log (.presented h.next token credential.deviceId revoked),
      some (.refresh token (.read h.next credential.deviceId revoked user.disabledAt.isNone)))

def commitRefresh (h : Hub) (now : Time) (token : Token) (serial : Nat) (credential : Credential) :
    Hub × Option Call :=
  let credentials := h.credentials.filterMap fun t c =>
    some (if t = token && c.revokedAt.isNone then { c with revokedAt := some now } else c)
  let issued := { h with credentials }.issueCredentials now credential.deviceId
  (issued.1.log (.rotated serial credential.deviceId issued.2), none)

def nextRefresh (h : Hub) (now : Time) (token : Token) : RefreshStage → Hub × Option Call
  | .received                                                  => h.readCredential token
  | .read serial _ deviceRevoked accountEnabled                =>
    match h.credentials.lookup token with
    | none            => h.invalidGrant
    | some credential =>
      (h, some (.refresh token (.locked serial credential deviceRevoked accountEnabled)))
  | .locked serial credential deviceRevoked accountEnabled     =>
    if credential.revokedAt.isSome then
      (h, some (.refresh token (.reused credential.deviceId .marked)))
    else if deviceRevoked ∨ accountEnabled = false ∨ credential.refreshExpiresAt ≤ now then
      h.invalidGrant
    else
      h.commitRefresh now token serial credential
  | .reused deviceId stage                                     =>
    h.nextSweep now deviceId (fun s => .refresh token (.reused deviceId s)) stage

def nextRevoke (h : Hub) (now : Time) (owner deviceId : Id) : RevokeStage → Hub × Option Call
  | .received    =>
    if (h.devices.lookup deviceId).any (·.ownerId = owner)
    then (h, some (.revoke owner deviceId .found))
    else h.refuse .notFound
  | .found       => (h, some (.revoke owner deviceId (.sweep .marked)))
  | .sweep stage => h.nextSweep now deviceId (fun s => .revoke owner deviceId (.sweep s)) stage

def start (h : Hub) : Request → Option (Hub × Option Call)
  | .createCode now                         => some (h.createCode now)
  | .exchange grantType code                =>
    if grantType ≠ "urn:ietf:params:oauth:grant-type:device_code"
    then some (h.refuse (.grant .unsupportedGrantType))
    else some (h, some (.exchange code .received))
  | .approve user byDevice mustChange userCode =>
    if byDevice then some (h.refuse .insufficientScope)
    else if mustChange then some (h.refuse .passwordChangeRequired)
    else some (h, some (.approve user userCode .received))
  | .deny byDevice userCode                 =>
    if byDevice then some (h.refuse .insufficientScope)
    else some (h, some (.deny userCode .received))
  | .refresh request                        =>
    if request.grantType ≠ "refresh_token" then some (h.refuse (.grant .unsupportedGrantType))
    else if request.refreshToken.kind ≠ .refresh then some h.invalidGrant
    else some (h, some (.refresh request.refreshToken .received))
  | .revoke owner deviceId                  => some (h, some (.revoke owner deviceId .received))
  | .authenticate token now                 =>
    match h.authenticateAccessToken now token with
    | none          => some (h, none)
    | some deviceId => some (h.log (.authenticated deviceId token), none)
  | .elsewhere users                        => some ({ h with users }, none)

def resume (h : Hub) (now : Time) : Call → Option (Hub × Option Call)
  | .exchange code stage         => some (h.nextExchange now code stage)
  | .approve user userCode stage => some (h.nextApprove now user userCode stage)
  | .deny userCode stage         => some (h.nextDeny now userCode stage)
  | .refresh token stage         => some (h.nextRefresh now token stage)
  | .revoke owner deviceId stage => some (h.nextRevoke now owner deviceId stage)

def program : Shared.Program Hub Call Request Time where
  start := Hub.start
  next  := Hub.resume

abbrev step :=
  Locks.step program Call.locks

end Hub
end MyDrive.Devices
