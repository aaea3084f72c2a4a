import MyDrive.Quota.Usage
import MyDrive.Transfers.System

-- The requests that move the bytes of an account between its reservations and its files, side by side
-- with the updates of its quota. `create_upload` and `update_account` hold the advisory lock of the
-- account from their first statement to their commit, and nobody else takes it.

namespace MyDrive.Quota

open Transfers

abbrev QuotaBytes := { q : Nat // q ≤ maxAccountQuotaBytes }

-- The body of `update_account`, once its quota has been validated.
structure Update where
  quota    : Option QuotaBytes := none
  disabled : Option Bool := none

inductive Job
  | create (session : Session)
  | update (u : Update)

-- `startedAt` is `now()` of the transaction, which may have waited for its lock.
structure Transaction where
  job       : Job
  startedAt : Time
  checked   : Bool := false

structure Ledger where
  books : Books
  clock : Time := 0
  locks : Table Id Transaction := .empty
  calls : Table Nat Finalize := .empty

inductive Label
  | tick (now : Time)
  | lock (account : Id) (job : Job) (startedAt : Time)
  | check (account : Id)
  | commit (account : Id)
  | abort (account : Id)
  | patch (owner upload : Id) (headers : PatchHeaders) (body : List UInt8) (now : Time) (commits : Bool)
  | cancel (owner upload : Id)
  | expire (uploads : List Id) (now : Time)
  | clean (upload : Id)
  | finalize (i : Nat) (owner upload : Id) (checksum : Option (Option String))
  | next (i : Nat) (env : Env)
  | drop (i : Nat)

def Account.update (a : Account) (u : Update) : Account where
  role         := a.role
  quotaBytes   := (u.quota.map (·.val)).or a.quotaBytes
  enabled      := (u.disabled.map (!·)).getD a.enabled
  member_quota := fun h => by simp [a.member_quota h]
  quota_le     := by
    intro q hq
    obtain h | ⟨-, h⟩ := Option.or_eq_some_iff.mp hq
    case inl =>
      obtain ⟨p, -, rfl⟩ := Option.map_eq_some_iff.mp h
      exact p.property
    case inr => exact a.quota_le q h

namespace Ledger

def init (accounts : Table Id Account) (items : Table Id Google.Item) : Ledger where
  books := { accounts, store := {}, items }

def withStore (s : Ledger) (store : Store) : Ledger :=
  { s with books := { s.books with store } }

-- What the transaction reads before it writes. The lock keeps the row of the account, so that it
-- does not matter when that row is read.
def passes (b : Books) (ownerQuota : UInt64) (account : Id) (t : Transaction) : Bool :=
  match t.job with
  | .create session                 =>
    (b.createUpload ownerQuota account t.startedAt session.expectedSize).isOk
  | .update { quota := some q, .. } => (b.updateAccount account t.startedAt q).isOk
  | .update { quota := none, .. }   => (b.accounts.lookup account).any (·.role = .member)

def write (b : Books) (account : Id) : Job → Option Books
  | .create session => (b.store.createUpload session []).map ({ b with store := · })
  | .update u       => (b.accounts.lookup account).map fun a =>
    { b with accounts := b.accounts.set account (a.update u) }

-- A `PATCH` that holds the row lock of the session, and commits or fails after it has written.
def patchUpload (s : Store) (owner upload : Id) (headers : PatchHeaders) (body : List UInt8) (now : Time)
    (commits : Bool) : Option Store :=
  match s.fetchUploadForUpdate owner upload with
  | .error _    => none
  | .ok session =>
    match admitPatch session.toUploadSession headers now, s.staging.lookup session.stagingKey with
    | .ok p, some bytes =>
      if body = [] ∨ p.maxBytes < body.length ∨ bytes.length < p.currentOffset then
        none
      else
        let bytes := writeAt (bytes.take p.currentOffset) p.currentOffset body
        let s := { s with staging := s.staging.set session.stagingKey bytes }
        if commits then
          some (s.updateSession upload fun u => { u with receivedSize := p.currentOffset + body.length })
        else
          some s
    | _, _              => none

def cancelUpload (s : Store) (owner upload : Id) : Option Store :=
  match s.fetchUploadForUpdate owner upload with
  | .error _    => none
  | .ok session =>
    match session.state with
    | .completed | .finalizing => none
    | .active | .expired       => some (s.updateSession upload fun u => { u with state := .expired })
    | .failed                  => some s

-- `uploads` is a batch of `clean_expired_uploads`.
def expireUploads (s : Store) (uploads : List Id) (now : Time) : Store :=
  { s with
    sessions := s.sessions.filterMap fun id u =>
      some (if id ∈ uploads ∧ u.state = .active ∧ u.expiresAt ≤ now then { u with state := .expired }
        else u) }

-- The staging file of an upload that is over, for `cancel_upload` and `clean_expired_uploads`.
def cleanUpload (s : Store) (upload : Id) : Option Store :=
  match s.sessions.lookup upload with
  | none         => none
  | some session =>
    if session.state = .expired ∨ session.state = .failed then
      some { s with staging := s.staging.erase session.stagingKey }
    else
      none

variable [Collation] [Digest]

def step (ownerQuota : UInt64) (s : Ledger) : Label → Option Ledger
  | .tick now                                       =>
    if s.clock ≤ now then some { s with clock := now } else none
  | .lock account job startedAt                     =>
    match s.locks.lookup account, job with
    | none, .create session =>
      if session.ownerId = account ∧ startedAt ≤ s.clock then
        some { s with locks := s.locks.set account { job, startedAt } }
      else
        none
    | none, .update _       =>
      if startedAt ≤ s.clock then
        some { s with locks := s.locks.set account { job, startedAt } }
      else
        none
    | some _, _             => none
  | .check account                                  =>
    match s.locks.lookup account with
    | none   => none
    | some t =>
      if passes s.books ownerQuota account t then
        some { s with locks := s.locks.set account { t with checked := true } }
      else
        none
  | .commit account                                 =>
    match s.locks.lookup account with
    | none   => none
    | some t =>
      if t.checked then
        (write s.books account t.job).map fun books => { s with books, locks := s.locks.erase account }
      else
        none
  | .abort account                                  => some { s with locks := s.locks.erase account }
  | .patch owner upload headers body now commits    =>
    if now ≤ s.clock then
      (patchUpload s.books.store owner upload headers body now commits).map s.withStore
    else
      none
  | .cancel owner upload                            =>
    (cancelUpload s.books.store owner upload).map s.withStore
  | .expire uploads now                             =>
    if now ≤ s.clock then some (s.withStore (expireUploads s.books.store uploads now)) else none
  | .clean upload                                   =>
    (cleanUpload s.books.store upload).map s.withStore
  | .finalize i owner upload checksum               =>
    match s.calls.lookup i with
    | none   => some { s with calls := s.calls.set i { owner, upload, checksum } }
    | some _ => none
  | .next i env                                     =>
    match s.calls.lookup i with
    | none   => none
    | some c =>
      if env.now ≤ s.clock then
        (c.next s.books.store env).map fun (store, c) =>
          { s.withStore store with
            calls := match c with
              | none   => s.calls.erase i
              | some c => s.calls.set i c }
      else
        none
  | .drop i                                         => some { s with calls := s.calls.erase i }

end Ledger
end MyDrive.Quota
