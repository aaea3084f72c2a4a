import Mathlib.Algebra.Ring.Nat
import MyDrive.Library.Locks
import MyDrive.Shares.Server

-- The API keys, with the transactions that create a share and that revoke a key. What a transaction
-- writes takes effect when it commits. The rows of the keys that it has locked stay locked until then.

namespace MyDrive.Shares

open Transfers Drive Locks

inductive ApiError
  | invalidRequest
  | keyLimitReached
  | notFound
  deriving DecidableEq

class PasswordHasher where
  passwordHash : String → String

abbrev PasswordHasher.plain : PasswordHasher where
  passwordHash password := "$" ++ password

def scopes : List String :=
  ["drive:read", "drive:write", "photos:read", "photos:write", "shares:read", "shares:write"]

structure NewKey where
  name      : String
  scopes    : List String
  expiresAt : Option Time := none

def NewKey.valid (input : NewKey) (now : Time) : Bool :=
  let name := Drive.trim input.name.toList
  !name.isEmpty && name.length ≤ 100 && !input.scopes.isEmpty && input.scopes.length ≤ 6 &&
    input.scopes.all (Shares.scopes.contains ·) && input.expiresAt.all (· > now)

-- `apiKeyId` is the key that the request was made with.
structure AuthenticatedUser where
  id       : Id
  apiKeyId : Option Id := none

structure CreateShare where
  resource      : Resource
  password      : Option String := none
  expiresAt     : Option Time := none
  allowDownload : Option Bool := none
  maxDownloads  : Option Nat := none

-- The checks of a request that come before its first statement.
def CreateShare.valid (request : CreateShare) (now : Time) : Bool :=
  request.expiresAt.all (· > now) &&
    request.password.all (fun password =>
      passwordMinBytes ≤ password.utf8ByteSize && password.utf8ByteSize ≤ passwordMaxBytes) &&
    request.maxDownloads.all (fun count => 0 < count && count < 2 ^ 63)

def ResourceType.kind : ResourceType → Option Kind
  | .file   => some .file
  | .folder => some .folder
  | .album  => none

-- The rows of `audit_events`, and the errors that requests were answered with.
inductive Outcome
  | apiKeyCreated (actor keyId : Id)
  | shareCreated (actor shareId : Id)
  | shareRevoked (actor shareId : Id)
  | apiKeyRevocation (actor keyId : Id) (revokeKey revokeShares : Bool) (sharesRevoked : Nat)
  | shareRefused (e : ShareError)
  | keyRefused (e : ApiError)
  deriving DecidableEq

structure Registry where
  db       : Db
  keys     : Table Id ApiKey := .empty
  outcomes : List Outcome := []
  next     : Nat := 0

inductive CreateStage
  | received
  | found
  | drafted (shareId : Id) (share : Share)
  | keyed (shareId : Id) (share : Share)

inductive RevokeStage
  | received
  | locked
  | swept (shareIds : List Id)

inductive KeyCall
  | create (user : AuthenticatedUser) (request : CreateShare) (stage : CreateStage)
  | revoke (user keyId : Id) (revokeKey revokeShares : Bool) (stage : RevokeStage)

-- `FOR SHARE` in `create_share` and `FOR UPDATE` in `revoke`.
def KeyCall.locks : KeyCall → List (Id × Mode)
  | .create user _ (.keyed _ _)           => user.apiKeyId.toList.map (·, .share)
  | .revoke _ keyId _ _ .locked           => [(keyId, .update)]
  | .revoke _ keyId _ _ (.swept _)        => [(keyId, .update)]
  | _                                     => []

-- `elsewhere` is whatever the other endpoints do.
inductive KeyRequest
  | createKey (user : Id) (input : NewKey) (now : Time)
  | createShare (user : AuthenticatedUser) (request : CreateShare)
  | revokeKey (user keyId : Id) (revokeShares : Bool)
  | revokeKeyShares (user keyId : Id)
  | revokeShare (user shareId : Id) (now : Time)
  | elsewhere (db : Db)

namespace Db

-- `UPDATE shares .. WHERE ..`.
def updateShares (db : Db) (p : Id → Share → Bool) (f : Share → Share) : Db :=
  db.setShares (db.shares.filterMap fun i s =>
      some (if p i s then { f s with token := s.token } else s)) <| by
    intro i j s t hs ht he
    rw [Table.lookup_filterMap] at hs ht
    obtain ⟨s', hs', h⟩ := Option.bind_eq_some_iff.mp hs
    obtain ⟨t', ht', h'⟩ := Option.bind_eq_some_iff.mp ht
    have token : s'.token = t'.token := by
      split at h <;> split at h' <;> cases h <;> cases h' <;> exact he
    exact db.unique hs' ht' token

def revoke (now : Time) (s : Share) : Share :=
  { s with revokedAt := s.revokedAt.or now }

def deleteAccess (db : Db) (p : Id → Bool) : Db :=
  { db with access := db.access.filterMap fun _ s => if p s.shareId then none else some s }

-- What the statements on `shares` that are not modelled here leave of a row: none of them writes the
-- owner or the key, and none takes a revocation back. Rows may be deleted with their resource.
def follows (db db' : Db) : Bool :=
  db'.shares.rows.all fun r => (db.shares.lookup r.1).any fun s =>
    s.ownerId = r.2.ownerId && s.createdByApiKeyId = r.2.createdByApiKeyId &&
      (s.revokedAt.isNone || r.2.revokedAt.isSome)

end Db

namespace Registry

def log (w : Registry) (o : Outcome) : Registry :=
  { w with outcomes := w.outcomes ++ [o] }

def refuseShare (w : Registry) (e : ShareError) : Registry × Option KeyCall :=
  (w.log (.shareRefused e), none)

def refuseKey (w : Registry) (e : ApiError) : Registry × Option KeyCall :=
  (w.log (.keyRefused e), none)

-- An advisory lock on the account holds from the count to the insert.
def createKey (w : Registry) (user : Id) (input : NewKey) (now : Time) : Registry × Option KeyCall :=
  let live := w.keys.rows.filter fun r =>
    r.2.ownerId = user && r.2.revokedAt.isNone && r.2.expiresAt.all (· > now)
  if !input.valid now then
    w.refuseKey .invalidRequest
  else if live.length ≥ 50 then
    w.refuseKey .keyLimitReached
  else
    let keys := w.keys.set w.next { ownerId := user, expiresAt := input.expiresAt }
    ({ w with keys, next := w.next + 1 }.log (.apiKeyCreated user w.next), none)

def revokeShare (w : Registry) (user shareId : Id) (now : Time) : Registry × Option KeyCall :=
  if (w.db.shares.lookup shareId).any (·.ownerId = user) then
    let db := w.db.updateShares (fun i _ => i = shareId) (Db.revoke now)
    ({ w with db := db.deleteAccess (· = shareId) }.log (.shareRevoked user shareId), none)
  else
    w.refuseShare .notFound

def start (w : Registry) : KeyRequest → Option (Registry × Option KeyCall)
  | .createKey user input now          => some (w.createKey user input now)
  | .createShare user request          => some (w, some (.create user request .received))
  | .revokeKey user keyId revokeShares => some (w, some (.revoke user keyId true revokeShares .received))
  | .revokeKeyShares user keyId        => some (w, some (.revoke user keyId false true .received))
  | .revokeShare user shareId now      => some (w.revokeShare user shareId now)
  | .elsewhere db                      =>
    if w.db.follows db then some ({ w with db }, none) else none

def findResource (w : Registry) (now : Time) (user : AuthenticatedUser) (request : CreateShare) :
    Registry × Option KeyCall :=
  let resource := request.resource
  if !request.valid now then
    w.refuseShare .badRequest
  else
    match resource.type with
    | .album =>
      if (w.db.albums.lookup resource.id).any (·.ownerId = user.id)
      then (w, some (.create user request .found))
      else w.refuseShare .notFound
    | type   =>
      match ensureActiveEntry w.db.entries user.id resource.id (type = .folder) with
      | .error e => w.refuseShare (.drive e)
      | .ok _    => (w, some (.create user request .found))

variable [PasswordHasher]

-- The kind of the entry is read by a statement of its own. The share gets its id and its token.
def draftShare (w : Registry) (user : AuthenticatedUser) (request : CreateShare) :
    Registry × Option KeyCall :=
  let resource := request.resource
  let kind := (w.db.entries.lookup resource.id).filter (·.ownerId = user.id) |>.map (·.kind)
  if resource.type ≠ .album && kind ≠ resource.type.kind then
    w.refuseShare .badRequest
  else
    let share := {
      ownerId           := user.id
      resource          := resource
      token             := w.next
      passwordHash      := request.password.map PasswordHasher.passwordHash
      expiresAt         := request.expiresAt
      allowDownload     := request.allowDownload.getD true
      maxDownloads      := request.maxDownloads
      createdByApiKeyId := user.apiKeyId }
    ({ w with next := w.next + 1 }, some (.create user request (.drafted w.next share)))

def lockKey (w : Registry) (now : Time) (user : AuthenticatedUser) (request : CreateShare)
    (shareId : Id) (share : Share) : Registry × Option KeyCall :=
  let usable := user.apiKeyId.all fun keyId => (w.keys.lookup keyId).any fun key =>
    key.ownerId = user.id && key.revokedAt.isNone && key.expiresAt.all (· > now)
  if usable then (w, some (.create user request (.keyed shareId share))) else w.refuseShare .forbidden

-- The `INSERT`, and the commit.
def insertShare (w : Registry) (user : AuthenticatedUser) (shareId : Id) (share : Share) :
    Option (Registry × Option KeyCall) :=
  (w.db.insertShare shareId share).map fun db =>
    ({ w with db }.log (.shareCreated user.id shareId), none)

def nextCreate (w : Registry) (now : Time) (user : AuthenticatedUser) (request : CreateShare) :
    CreateStage → Option (Registry × Option KeyCall)
  | .received              => some (w.findResource now user request)
  | .found                 => some (w.draftShare user request)
  | .drafted shareId share => some (w.lockKey now user request shareId share)
  | .keyed shareId share   => w.insertShare user shareId share

-- `created_by_api_key_id=$1 AND owner_id=$2`.
def ofKey (user keyId : Id) (s : Share) : Bool :=
  s.createdByApiKeyId = some keyId && s.ownerId = user

def commitRevocation (w : Registry) (now : Time) (user keyId : Id) (revokeKey revokeShares : Bool)
    (shareIds : List Id) : Registry × Option KeyCall :=
  let keys := if revokeKey
    then w.keys.filterMap fun id key => some <|
      if id = keyId then { key with revokedAt := key.revokedAt.or now } else key
    else w.keys
  let swept := w.db.updateShares (fun i _ => i ∈ shareIds) (Db.revoke now)
  let db := if revokeShares
    then swept.deleteAccess fun i => (w.db.shares.lookup i).any (ofKey user keyId)
    else w.db
  ({ w with keys, db }.log (.apiKeyRevocation user keyId revokeKey revokeShares shareIds.length), none)

def nextRevoke (w : Registry) (now : Time) (user keyId : Id) (revokeKey revokeShares : Bool) :
    RevokeStage → Registry × Option KeyCall
  | .received       =>
    if (w.keys.lookup keyId).any (·.ownerId = user)
    then (w, some (.revoke user keyId revokeKey revokeShares .locked))
    else w.refuseKey .notFound
  -- The rows that the `UPDATE` of the shares finds.
  | .locked         =>
    let found := w.db.shares.rows.filter fun r => ofKey user keyId r.2 && r.2.revokedAt.isNone
    let shareIds := if revokeShares then found.map Prod.fst else []
    (w, some (.revoke user keyId revokeKey revokeShares (.swept shareIds)))
  | .swept shareIds => w.commitRevocation now user keyId revokeKey revokeShares shareIds

def resume (w : Registry) (now : Time) : KeyCall → Option (Registry × Option KeyCall)
  | .create user request stage                      => w.nextCreate now user request stage
  | .revoke user keyId revokeKey revokeShares stage =>
    some (w.nextRevoke now user keyId revokeKey revokeShares stage)

def program : Shared.Program Registry KeyCall KeyRequest Time where
  start := Registry.start
  next  := Registry.resume

abbrev step :=
  Locks.step program KeyCall.locks

end Registry
end MyDrive.Shares
