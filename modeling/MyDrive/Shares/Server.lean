import MyDrive.Library.Shared
import MyDrive.Shares.Public

-- The public endpoints of the shares, with every request interleaved with the others. Each statement
-- on the row of a share is one step. `now` is the time that a step sees: a transaction that has waited
-- for a row lock still sees the time at which it began.

namespace MyDrive.Shares

open Transfers Drive

-- Argon2.
class PasswordVerifier where
  verifyPassword : String → String → Bool

abbrev PasswordVerifier.plain : PasswordVerifier where
  verifyPassword hash password := hash = "$" ++ password

-- What has happened, for the statements about whole runs. `began` and `guessed` are an attempt to
-- unlock a share that reads its row, and that has checked its password, with the lock at that moment.
inductive Event
  | reserved (serial : Nat) (shareId : Id)
  | answered (serial : Nat) (shareId : Id) (a : Answer)
  | began (serial : Nat) (shareId : Id) (lockedUntil : Option Time) (now : Time)
  | guessed (serial : Nat) (shareId : Id) (valid : Bool) (lockedUntil : Option Time) (now : Time)
  | expired (shareId : Id)
  | failed (serial : Nat) (shareId : Id)
  | locked (shareId : Id)
  | granted (serial : Nat) (shareId : Id)
  | refused (serial : Nat) (e : ShareError)
  deriving DecidableEq

-- Every id, token and serial number below `next` has been given out.
structure World where
  db      : Db
  next    : Nat := 0
  history : List Event := []

inductive VisitStage
  | fetched
  | granted
  | inScope
  | reserved
  deriving DecidableEq

-- `share` is the row as `fetch_active_share` has read it.
structure Visit where
  serial  : Nat
  request : Request
  shareId : Id
  share   : Share
  stage   : VisitStage := .fetched

inductive UnlockStage
  | checked
  | verified (valid : Bool)
  deriving DecidableEq

structure Unlock where
  serial   : Nat
  shareId  : Id
  share    : Share
  hash     : String
  password : String
  stage    : UnlockStage := .checked

inductive Call
  | visit (v : Visit)
  | unlock (u : Unlock)

def Call.serial : Call → Nat
  | .visit v  => v.serial
  | .unlock u => u.serial

-- `elsewhere` is any change of the other tables.
inductive Incoming
  | visit (request : Request) (now : Time)
  | unlock (token password : String) (now : Time)
  | create (share : Share)
  | revoke (shareId : Id) (now : Time)
  | elsewhere (db : Db)

namespace Db

def setShares (db : Db) (shares : Table Id Share)
    (unique : ∀ {i j s t}, shares.lookup i = some s → shares.lookup j = some t →
      s.token = t.token → i = j) : Db :=
  { db with shares, unique }

-- `UPDATE shares .. WHERE id = $1`. No statement writes `token_digest`.
def updateShare (db : Db) (id : Id) (f : Share → Share) : Db :=
  db.setShares (db.shares.filterMap fun i s =>
      some (if i = id then { f s with token := s.token } else s)) <| by
    intro i j s t hs ht he
    rw [Table.lookup_filterMap] at hs ht
    obtain ⟨s', hs', h⟩ := Option.bind_eq_some_iff.mp hs
    obtain ⟨t', ht', h'⟩ := Option.bind_eq_some_iff.mp ht
    have token : s'.token = t'.token := by
      split at h <;> split at h' <;> cases h <;> cases h' <;> exact he
    exact db.unique hs' ht' token

def grantAccess (db : Db) (token : Token) (session : AccessSession) : Db :=
  { db with access := db.access.set token session }

-- `none` is a token that is taken, which the unique index refuses.
def insertShare (db : Db) (id : Id) (share : Share) : Option Db :=
  if h : db.shares.any (fun i s => i = id || s.token = share.token) = true then
    none
  else
    some <| db.setShares (db.shares.set id share) <| by
      simp only [Table.any_iff, not_exists, not_and, Bool.or_eq_true, decide_eq_true_eq, not_or] at h
      intro i j s t hs ht he
      rw [Table.lookup_set] at hs ht
      split at hs <;> split at ht
      case isTrue.isTrue hi hj   => exact hi.trans hj.symm
      case isTrue.isFalse        => cases hs; exact absurd he.symm (h _ _ ht).right
      case isFalse.isTrue        => cases ht; exact absurd he (h _ _ hs).right
      case isFalse.isFalse       => exact db.unique hs ht he

end Db

namespace World

def log (w : World) (es : List Event) : World :=
  { w with history := w.history ++ es }

def refuse (w : World) (serial : Nat) (e : ShareError) : World × Option Call :=
  (w.log [.refused serial e], none)

-- The step of an endpoint that ends in a response.
def answer (w : World) (v : Visit) : Except ShareError Answer → World × Option Call
  | .ok a    => (w.log [.answered v.serial v.shareId a], none)
  | .error e => w.refuse v.serial e

def reserveDownload (w : World) (now : Time) (v : Visit) : World × Option Call :=
  match w.db.shares.lookup v.shareId with
  | none       => w.refuse v.serial .gone
  | some share =>
    if Db.reserves share now then
      let db := w.db.updateShare v.shareId fun s => { s with downloadCount := s.downloadCount + 1 }
      ({ w with db }.log [.reserved v.serial v.shareId], some (.visit { v with stage := .reserved }))
    else
      w.refuse v.serial .gone

def inScope (w : World) (v : Visit) (entryId : Id) : World × Option Call :=
  if w.db.fileInShare v.share.ownerId v.share.resource entryId then
    (w, some (.visit { v with stage := .inScope }))
  else
    w.refuse v.serial .notFound

-- What `record_password_failure` leaves of the row.
def countFailure (now : Time) (share : Share) : Share :=
  if share.passwordLockedUntil.isSome then
    { share with failedPasswordAttempts := 1, passwordLockedUntil := none }
  else
    { share with
      failedPasswordAttempts := share.failedPasswordAttempts + 1
      passwordLockedUntil    :=
        if share.failedPasswordAttempts + 1 ≥ passwordFailureLimit
        then some (now + passwordLockoutSeconds) else none }

def recordPasswordFailure (w : World) (now : Time) (u : Unlock) : World × Option Call :=
  match (w.db.shares.lookup u.shareId).filter (·.active now) with
  | none       => w.refuse u.serial .notFound
  | some share =>
    if share.passwordLockedUntil.any (· > now) then
      w.refuse u.serial (.tooManyAttempts (max (share.passwordLockedUntil.getD 0 - now) 1))
    else
      let share' := countFailure now share
      let db := w.db.updateShare u.shareId (countFailure now)
      let expired := if share.passwordLockedUntil.isSome then [Event.expired u.shareId] else []
      let locked := if share'.passwordLockedUntil.isSome then [Event.locked u.shareId] else []
      let error := if share'.passwordLockedUntil.isSome
        then ShareError.tooManyAttempts passwordLockoutSeconds else .invalidPassword
      let events := expired ++ [Event.failed u.serial u.shareId] ++ locked ++ [.refused u.serial error]
      ({ w with db }.log events, none)

-- The two statements of the transaction that grants access. Only the one of `record_password_failure`
-- looks at the lock.
def grant (w : World) (now : Time) (u : Unlock) : World × Option Call :=
  let open? := (w.db.shares.lookup u.shareId).filter fun s =>
    s.token = u.share.token && s.active now && s.passwordHash.isSome
  match open? with
  | none       => w.refuse u.serial .notFound
  | some share =>
    let db := w.db.updateShare u.shareId fun s =>
      { s with failedPasswordAttempts := 0, passwordLockedUntil := none }
    let until' := now + accessGrantTtlSeconds
    let session := { shareId := u.shareId, expiresAt := min (share.expiresAt.getD until') until' }
    ({ w with db := db.grantAccess w.next session, next := w.next + 1 }.log
      [.granted u.serial u.shareId], none)

def beginUnlock (w : World) (now : Time) (token password : String) : World × Option Call :=
  match w.db.fetchActiveShare now token with
  | .error e              => w.refuse w.next e
  | .ok (shareId, share) =>
    match share.passwordHash with
    | none      => w.refuse w.next .badRequest
    | some hash =>
      if password.utf8ByteSize > passwordMaxBytes then
        w.refuse w.next .badRequest
      else
        let began := Event.began w.next shareId share.passwordLockedUntil now
        match share.passwordLockedUntil.filter (· > now) with
        | some lockedUntil =>
          (w.log [began, .refused w.next (.tooManyAttempts (max (lockedUntil - now) 1))], none)
        | none             =>
          (w.log [began], some (.unlock { serial := w.next, shareId, share, hash, password }))

def beginVisit (w : World) (now : Time) (request : Request) : World × Option Call :=
  match w.db.fetchActiveShare now request.token with
  | .error e             => w.refuse w.next e
  | .ok (shareId, share) => (w, some (.visit { serial := w.next, request, shareId, share }))

-- A request takes a serial number of its own.
def numbered (w : World) (r : World × Option Call) : World × Option Call :=
  ({ r.1 with next := w.next + 1 }, r.2)

def start (w : World) : Incoming → Option (World × Option Call)
  | .visit request now         => some (w.numbered (w.beginVisit now request))
  | .unlock token password now => some (w.numbered (w.beginUnlock now token password))
  | .create share              =>
    (w.db.insertShare w.next { share with
      revokedAt := none, downloadCount := 0, failedPasswordAttempts := 0
      passwordLockedUntil := none }).map fun db => ({ w with db, next := w.next + 1 }, none)
  | .revoke shareId now        =>
    let db := w.db.updateShare shareId fun s => { s with revokedAt := s.revokedAt.or now }
    some ({ w with db }, none)
  | .elsewhere db              =>
    if db.shares.rows = w.db.shares.rows then some ({ w with db }, none) else none

variable [Collation] [Digest] [Services]

def nextVisit (w : World) (now : Time) (v : Visit) : World × Option Call :=
  match v.stage with
  | .fetched  =>
    match w.db.requirePasswordGrant now v.request.headers v.shareId v.share with
    | .error e => w.refuse v.serial e
    | .ok _    => (w, some (.visit { v with stage := .granted }))
  | .granted  =>
    match v.request.endpoint with
    | .view query        => w.answer v ((w.db.publicShare v.shareId v.share query).map .view)
    | .download entryId  =>
      if v.share.allowDownload then w.inScope v entryId else w.refuse v.serial .forbidden
    | .preview entryId   => w.inScope v entryId
    | .thumbnail entryId => w.inScope v entryId
  | .inScope  =>
    match v.request.endpoint with
    | .view _            => w.refuse v.serial .badRequest
    | .download _        => w.reserveDownload now v
    | .preview entryId   =>
      let response :=
        if v.share.allowDownload
        then w.db.files.previewResponse v.share.ownerId entryId v.request.headers false
        else w.db.files.previewDerivativeResponse v.share.ownerId entryId v.request.headers false
      w.answer v ((Db.transfer response).map .payload)
    | .thumbnail entryId =>
      let response := w.db.files.thumbnailResponse v.share.ownerId entryId v.request.headers false
      w.answer v ((Db.transfer response).map .payload)
  | .reserved =>
    match v.request.endpoint with
    | .download entryId =>
      let response := w.db.files.downloadResponse v.share.ownerId entryId v.request.headers false
      w.answer v ((Db.transfer response).map .payload)
    | _                 => w.refuse v.serial .badRequest

variable [PasswordVerifier]

def nextUnlock (w : World) (now : Time) (u : Unlock) : World × Option Call :=
  match u.stage with
  | .checked        =>
    let valid := PasswordVerifier.verifyPassword u.hash u.password
    let lockedUntil := (w.db.shares.lookup u.shareId).bind (·.passwordLockedUntil)
    (w.log [.guessed u.serial u.shareId valid lockedUntil now],
      some (.unlock { u with stage := .verified valid }))
  | .verified false => w.recordPasswordFailure now u
  | .verified true  => w.grant now u

def resume (w : World) (now : Time) : Call → Option (World × Option Call)
  | .visit v  => some (w.nextVisit now v)
  | .unlock u => some (w.nextUnlock now u)

def program : Shared.Program World Call Incoming Time where
  start := World.start
  next  := World.resume

end World
end MyDrive.Shares
