import MyDrive.Google.Items
import MyDrive.Library.Sum

-- The five places that compute how much of its quota an account has left.

namespace MyDrive.Transfers

def Session.reserves (u : Session) (now : Time) : Bool :=
  u.state = .finalizing || (u.state = .active && now < u.expiresAt)

namespace Store

def readyBytes (s : Store) (versionId : Id) : Nat :=
  match s.versions.lookup versionId with
  | none   => 0
  | some v =>
    match s.objects.lookup v.objectId with
    | none   => 0
    | some o => if o.state = .ready then v.size else 0

def currentBytes (s : Store) (f : File) : Nat :=
  f.currentVersion.elim 0 s.readyBytes

-- The join of `drive_entries`, `files`, `file_versions` and `storage_objects`.
def usedBytes (s : Store) (owner : Id) : Nat :=
  s.files.sum fun _ f => if f.ownerId = owner then s.currentBytes f else 0

def reservedBytes (s : Store) (owner : Id) (now : Time) : Nat :=
  s.sessions.sum fun _ u => if u.ownerId = owner ∧ u.reserves now then u.expectedSize else 0

end Store
end MyDrive.Transfers

namespace MyDrive.Quota

open Transfers Google

inductive Role
  | owner
  | admin
  | member
  deriving DecidableEq

def maxAccountQuotaBytes : Nat := 8000000000000000

-- A row of `users`. `users_member_quota_check` gives a member a quota, and no account gets one that
-- `create_account` and `update_account` refuse.
structure Account where
  role         : Role
  quotaBytes   : Option Nat := none
  enabled      : Bool := true
  member_quota : role = .member → quotaBytes.isSome
  quota_le     : ∀ q, quotaBytes = some q → q ≤ maxAccountQuotaBytes

structure Books where
  accounts : Table Id Account
  store    : Store
  items    : Table Id Item

inductive QuotaError
  | authenticationRequired
  | accountDisabled
  | inconsistent
  | quotaExceeded
  | quotaBelowCurrentUsage
  | badRequest
  | notFound
  | database
  deriving DecidableEq

-- `::BIGINT` of a sum, which is an error when it does not fit.
def bigint (n : Nat) : Except QuotaError Nat :=
  if n < 2 ^ 63 then .ok n else .error .database

def checkedAdd (a b : Nat) : Except QuotaError Nat :=
  if a + b < 2 ^ 64 then .ok (a + b) else .error .quotaExceeded

def saturatingAdd (a b : Nat) : Nat :=
  min (a + b) (2 ^ 64 - 1)

namespace Books

variable (b : Books) (ownerQuota : UInt64) (id : Id) (now : Time)

def used : Except QuotaError Nat :=
  bigint (b.store.usedBytes id)

def reserved : Except QuotaError Nat :=
  bigint (b.store.reservedBytes id now)

def committingBytes : Nat :=
  b.items.sum fun _ i => if i.ownerId = id ∧ i.state = .committing then i.bytesDownloaded else 0

-- The sum of two `BIGINT`s, which is one again.
def reservedWithImports : Except QuotaError Nat := do
  let uploads ← b.reserved id now
  let imports ← bigint (b.committingBytes id)
  bigint (uploads + imports)

def limitOf (a : Account) (missing : QuotaError) : Except QuotaError Nat :=
  if a.role = .member then
    match a.quotaBytes with
    | none   => .error missing
    | some q => .ok q
  else
    .ok ownerQuota.toNat

-- The check of `create_upload`.
def createUpload (expectedSize : Nat) : Except QuotaError Unit :=
  match b.accounts.lookup id with
  | none         => .error .authenticationRequired
  | some account => do
    if !account.enabled then
      throw .authenticationRequired
    let limit ← limitOf ownerQuota account .inconsistent
    let used ← b.used id
    let reserved ← b.reservedWithImports id now
    let required ← checkedAdd (← checkedAdd used reserved) expectedSize
    if required > limit then
      throw .quotaExceeded

def quotaRoomTx : Except QuotaError Nat :=
  match b.accounts.lookup id with
  | none         => .error .database
  | some account => do
    if !account.enabled then
      throw .accountDisabled
    let limit ← limitOf ownerQuota account .accountDisabled
    let used ← b.used id
    let reserved ← b.reservedWithImports id now
    return limit - saturatingAdd used reserved

-- The check of `commit_staged`.
def commitStaged (size : Nat) : Except QuotaError Unit := do
  if size > (← b.quotaRoomTx ownerQuota id now) then
    throw .quotaExceeded

def ensureQuota (additional : Nat) : Except QuotaError Unit :=
  match b.accounts.lookup id with
  | none         => .error .authenticationRequired
  | some account => do
    if !account.enabled then
      throw .authenticationRequired
    let limit ← limitOf ownerQuota account .inconsistent
    let used ← b.used id
    let reserved ← b.reserved id now
    if saturatingAdd (saturatingAdd used reserved) additional > limit then
      throw .quotaExceeded

-- The check of `update_account`. A member is managed by the account that calls it.
def updateAccount (quota : Nat) : Except QuotaError Unit := do
  if quota > maxAccountQuotaBytes then
    throw .badRequest
  match b.accounts.lookup id with
  | none         => throw .notFound
  | some account =>
    if account.role ≠ .member then
      throw .notFound
    let used ← b.used id
    let reserved ← b.reserved id now
    if used + reserved > quota then
      throw .quotaBelowCurrentUsage

-- `available_bytes` of `storage_summary`, for the account's own request.
def availableBytes : Except QuotaError (Option Int) :=
  match b.accounts.lookup id with
  | none         => .error .notFound
  | some account => do
    let used ← b.used id
    let reserved ← b.reserved id now
    let quota :=
      if account.role = .member then account.quotaBytes
      else if ownerQuota.toNat < 2 ^ 63 then some ownerQuota.toNat
      else none
    let committed := min (used + reserved) (2 ^ 63 - 1)
    return match quota with
      | some quota => if 0 < quota then some (quota - committed : Int) else none
      | none       => none

end Books
end MyDrive.Quota
