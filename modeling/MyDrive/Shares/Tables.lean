import MyDrive.Transfers.Responses

-- The tables around a share. SHA-256 tells any two tokens apart, so that a row with a
-- `token_digest` is found by its token.

namespace MyDrive.Shares

open Transfers

inductive ShareError
  | badRequest
  | notFound
  | forbidden
  | passwordRequired
  | invalidPassword
  | tooManyAttempts (seconds : Nat)
  | gone
  | drive (e : Drive.DriveError)
  | transfer (e : ResponseError)
  deriving DecidableEq

inductive ResourceType
  | file
  | folder
  | album
  deriving DecidableEq

-- `resource_type` with the id in `resource_id` or in `album_id`: by `shares_resource_target_check`
-- the one that belongs to the type is set, and the other one is not.
structure Resource where
  type : ResourceType
  id   : Id
  deriving DecidableEq

-- The 256 bits of a `secure_token`.
abbrev Token := Nat

structure Share where
  ownerId                : Id
  resource               : Resource
  token                  : Token
  passwordHash           : Option String := none
  expiresAt              : Option Time := none
  revokedAt              : Option Time := none
  allowDownload          : Bool := true
  maxDownloads           : Option Nat := none
  downloadCount          : Nat := 0
  failedPasswordAttempts : Nat := 0
  passwordLockedUntil    : Option Time := none
  createdByApiKeyId      : Option Id := none
  deriving DecidableEq

-- A row of `share_access_sessions`, whose key is its token.
structure AccessSession where
  shareId   : Id
  expiresAt : Time
  deriving DecidableEq

structure Album where
  ownerId : Id
  name    : String
  deriving DecidableEq

structure ApiKey where
  ownerId   : Id
  expiresAt : Option Time := none
  revokedAt : Option Time := none
  deriving DecidableEq

def accessGrantTtlSeconds : Nat := 30 * 60

def passwordMinBytes : Nat := 8

def passwordMaxBytes : Nat := 128

def passwordFailureLimit : Nat := 5

def passwordLockoutSeconds : Nat := 15 * 60

-- `revoked_at IS NULL AND (expires_at IS NULL OR expires_at > now())`.
def Share.active (s : Share) (now : Time) : Bool :=
  s.revokedAt.isNone && s.expiresAt.all (· > now)

def base64Value (c : Char) : Option Nat :=
  if 'A' ≤ c ∧ c ≤ 'Z' then some (c.toNat - 'A'.toNat)
  else if 'a' ≤ c ∧ c ≤ 'z' then some (c.toNat - 'a'.toNat + 26)
  else if '0' ≤ c ∧ c ≤ '9' then some (c.toNat - '0'.toNat + 52)
  else if c = '-' then some 62
  else if c = '_' then some 63
  else none

-- `URL_SAFE_NO_PAD.decode` for the strings that encode 32 bytes: 43 digits, of which the last has two
-- bits too many.
def decodeToken (token : List Char) : Option Token :=
  let value := token.foldl (fun n c => n.bind fun n => (base64Value c).map (64 * n + ·)) (some 0)
  (value.filter fun n => token.length = 43 && n % 4 = 0).map (· / 4)

-- `none` is also a cookie without a value, or one that is sent twice.
def cookieValue (header wanted : String) : Option (List Char) :=
  go none (header.toList.splitOn ';')
where
  go (found : Option (List Char)) : List (List Char) → Option (List Char)
    | []              => found
    | cookie :: rest  =>
      let (name, value) := (Drive.trim cookie).span (· ≠ '=')
      if value = [] then none
      else if name = wanted.toList then
        if found.isSome then none else go (some value.tail) rest
      else go found rest

end MyDrive.Shares
