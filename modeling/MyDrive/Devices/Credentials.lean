import MyDrive.Drive.Database
import MyDrive.Library.Table

-- The tokens of a backup device, as the server keeps them. SHA-256 tells any two tokens apart, so a
-- credential is found by its refresh token.

namespace MyDrive.Devices

inductive TokenKind
  | access
  | refresh
  deriving DecidableEq

-- The string of a `random_token`: what it starts with gives its kind, and no two are the same.
structure Token where
  kind   : TokenKind
  serial : Nat
  deriving DecidableEq

structure TokenSet where
  accessToken  : Token
  refreshToken : Token
  deriving DecidableEq

structure RefreshRequest where
  grantType    : String
  refreshToken : Token
  deriving DecidableEq

inductive GrantError
  | unsupportedGrantType
  | invalidGrant
  deriving DecidableEq

structure Credential where
  deviceId         : Id
  accessToken      : Token
  accessExpiresAt  : Time
  refreshExpiresAt : Time
  revokedAt        : Option Time := none
  deriving DecidableEq

structure Device where
  ownerId   : Id
  revokedAt : Option Time := none
  deriving DecidableEq

structure User where
  disabledAt : Option Time := none
  deriving DecidableEq

-- `reuses` are the devices of the audit events `device_refresh_reuse`.
structure Server where
  users       : Table Id User := .empty
  devices     : Table Id Device := .empty
  credentials : Table Token Credential := .empty
  next        : Nat := 0
  reuses      : List Id := []

def accessTokenTtlSeconds : Nat := 3600

def refreshTokenTtlSeconds : Nat := 90 * 24 * 3600

namespace Server

-- The device of a credential and the account that owns it.
def owner (s : Server) (credential : Credential) : Option (Device × User) :=
  (s.devices.lookup credential.deviceId).bind fun device =>
    (s.users.lookup device.ownerId).map (device, ·)

def authenticateAccessToken (s : Server) (now : Time) (token : Token) : Bool :=
  token.kind = .access && s.credentials.any fun _ c =>
    c.accessToken = token && c.revokedAt.isNone && c.accessExpiresAt > now &&
      (s.owner c).any fun (device, user) => device.revokedAt.isNone && user.disabledAt.isNone

def issueCredentials (s : Server) (now : Time) (deviceId : Id) : Server × TokenSet :=
  let accessToken := { kind := .access, serial := s.next }
  let refreshToken := { kind := .refresh, serial := s.next + 1 }
  ({ s with
      next        := s.next + 2
      credentials := s.credentials.set refreshToken {
        deviceId, accessToken
        accessExpiresAt  := now + accessTokenTtlSeconds
        refreshExpiresAt := now + refreshTokenTtlSeconds } },
    { accessToken, refreshToken })

def revokeCredentials (s : Server) (now : Time) (p : Token → Credential → Bool) : Server :=
  { s with
    credentials := s.credentials.filterMap fun token c =>
      some (if p token c then { c with revokedAt := c.revokedAt.or now } else c) }

-- A refresh token that has been used before is taken as stolen.
def revokeReused (s : Server) (now : Time) (deviceId : Id) : Server :=
  let devices := s.devices.filterMap fun id d =>
    some (if id = deviceId then { d with revokedAt := d.revokedAt.or now } else d)
  let s := { s with devices }.revokeCredentials now fun _ c => c.deviceId = deviceId
  { s with reuses := s.reuses ++ [deviceId] }

-- The lock on the credential's row makes the transaction one step.
def refreshToken (s : Server) (now : Time) (request : RefreshRequest) :
    Server × Except GrantError TokenSet :=
  if request.grantType ≠ "refresh_token" then
    (s, .error .unsupportedGrantType)
  else if request.refreshToken.kind ≠ .refresh then
    (s, .error .invalidGrant)
  else
    let row := (s.credentials.lookup request.refreshToken).bind fun credential =>
      (s.owner credential).map (credential, ·)
    match row with
    | none                             => (s, .error .invalidGrant)
    | some (credential, device, user) =>
      if credential.revokedAt.isSome then
        (s.revokeReused now credential.deviceId, .error .invalidGrant)
      else if device.revokedAt.isSome ∨ user.disabledAt.isSome ∨ credential.refreshExpiresAt ≤ now then
        (s, .error .invalidGrant)
      else
        let s := s.revokeCredentials now fun token c =>
          token = request.refreshToken && c.revokedAt.isNone
        let (s, tokens) := s.issueCredentials now credential.deviceId
        (s, .ok tokens)

end Server
end MyDrive.Devices
