import MyDrive.Drive.Requests
import MyDrive.Library.Locks

-- The accounts and their browser sessions. What a transaction writes takes effect when it commits. The
-- rows of `users` that it has locked stay locked until then.

namespace MyDrive.Accounts

open Locks

-- Argon2id, with the salt of a new hash, and Rust's `to_lowercase`.
class Passwords where
  passwordHash   : Nat → String → String
  verifyPassword : String → String → Bool
  toLowercase    : String → String

abbrev Passwords.plain : Passwords where
  passwordHash _ password      := "$" ++ password
  verifyPassword hash password := hash = "$" ++ password
  toLowercase s                := s

inductive Role
  | owner
  | member
  deriving DecidableEq

structure User where
  email              : String
  passwordHash       : String
  role               : Role
  managedBy          : Option Id := none
  quotaBytes         : Option Nat := none
  mustChangePassword : Bool := false
  disabledAt         : Option Time := none
  deriving DecidableEq

structure BrowserSession where
  userId    : Id
  expiresAt : Time
  revokedAt : Option Time := none
  deriving DecidableEq

inductive AccountError
  | tooManyAttempts
  | invalidCredentials
  | passwordRequirements
  | authenticationRequired
  | currentPasswordIncorrect
  | credentialsChanged
  | cannotRevokeCurrentSession
  | sessionNotFound
  | forbidden
  | badRequest
  | emailExists
  | notFound
  | quotaBelowCurrentUsage
  deriving DecidableEq

-- What has been committed, in this order. `hash` is the one that a login has verified its password
-- against, and the one that the account has after a change of its credentials.
inductive Event
  | loggedIn (session user : Id) (hash password : String)
  | passwordChanged (user session : Id) (hash : String)
  | passwordReset (user : Id) (hash : String)
  | accountDisabled (user : Id) (hash : String)
  | refused (e : AccountError)
  deriving DecidableEq

-- Every id below `next` has been given out.
structure World where
  users    : Table Id User := .empty
  sessions : Table Id BrowserSession := .empty
  history  : List Event := []
  next     : Nat := 0

-- What a statement sees: the time, and the answers of the login rate limiter and of the check of a new
-- quota against the usage.
structure Tick where
  now     : Time
  limited : Bool := false
  fits    : Bool := true

inductive LoginStage
  | received
  | verified (user : Id) (hash : String)
  | locked (user : Id) (hash : String)

inductive ChangeStage
  | received
  | checked (currentHash newHash : String)
  | updated (newHash : String)
  | swept (newHash : String) (sessions : List Id)

inductive UpdateStage
  | received
  | locked (existingDisabled : Bool)
  | swept (sessions : List Id)

inductive ResetStage
  | received
  | updated (hash : String)
  | swept (hash : String) (sessions : List Id)

-- `sessionId` is what the request was authenticated with.
inductive Call
  | login (email password : String) (stage : LoginStage)
  | change (user sessionId : Id) (current new : String) (stage : ChangeStage)
  | update (admin account : Id) (quotaBytes : Option Nat) (disabled : Option Bool) (stage : UpdateStage)
  | reset (admin account : Id) (temporary : String) (stage : ResetStage)

-- `FOR SHARE` in `login`; `FOR UPDATE` in `update_account`; and the `UPDATE` of the row elsewhere.
def Call.locks : Call → List (Id × Mode)
  | .login _ _ (.locked user _)       => [(user, .share)]
  | .change user _ _ _ (.updated _)   => [(user, .update)]
  | .change user _ _ _ (.swept _ _)   => [(user, .update)]
  | .update _ account _ _ (.locked _) => [(account, .update)]
  | .update _ account _ _ (.swept _)  => [(account, .update)]
  | .reset _ account _ (.updated _)   => [(account, .update)]
  | .reset _ account _ (.swept _ _)   => [(account, .update)]
  | _                                 => []

inductive Request
  | login (email password : String)
  | changePassword (user sessionId : Id) (current new : String)
  | updateAccount (admin : Id) (role : Role) (account : Id) (quotaBytes : Option Nat)
      (disabled : Option Bool)
  | resetPassword (admin : Id) (role : Role) (account : Id) (temporary : String)
  | createAccount (admin : Id) (role : Role) (email temporary : String) (quotaBytes : Nat)
  | bootstrapOwner (email password : String)
  | logout (sessionId : Id) (now : Time)
  | revokeSession (user current session : Id) (now : Time)
  | revokeOtherSessions (user current : Id) (now : Time)

def maxPasswordBytes : Nat := 1024

def minPasswordChars : Nat := 12

def maxAccountQuotaBytes : Nat := 8000000000000000

def validEmail (email : String) : Bool :=
  let (mailbox, rest) := email.toList.span (· ≠ '@')
  let domain := rest.tail
  !rest.isEmpty && !mailbox.isEmpty && !domain.isEmpty && domain.contains '.' &&
    email.utf8ByteSize ≤ 320 && !email.toList.any Drive.isWhitespace

def validPassword (password : String) : Bool :=
  password.utf8ByteSize ≤ maxPasswordBytes && password.length ≥ minPasswordChars

namespace World

variable [Collation] [Passwords]

def log (w : World) (e : Event) : World :=
  { w with history := w.history ++ [e] }

def refuse (w : World) (e : AccountError) : World × Option Call :=
  (w.log (.refused e), none)

def normalizeEmail (email : String) : String :=
  Passwords.toLowercase (String.ofList (Drive.trim email.toList))

-- `UPDATE users SET .. WHERE id = $1`.
def updateUser (w : World) (id : Id) (f : User → User) : World :=
  { w with users := w.users.filterMap fun i u => some (if i = id then f u else u) }

-- `UPDATE sessions SET revoked_at = now() WHERE ..`.
def revokeSessions (w : World) (now : Time) (p : Id → BrowserSession → Bool) : World :=
  let revoked i s := if p i s && s.revokedAt.isNone then { s with revokedAt := some now } else s
  { w with sessions := w.sessions.filterMap fun i s => some (revoked i s) }

-- The rows that the `UPDATE` of the sessions finds, apart from the current session.
def openSessions (w : World) (user : Id) (current : Option Id) : List Id :=
  (w.sessions.rows.filter fun r =>
    r.2.userId = user && r.2.revokedAt.isNone && some r.1 ≠ current).map Prod.fst

def beginLogin (w : World) (limited : Bool) (email password : String) : World × Option Call :=
  let email := normalizeEmail email
  let user := w.users.rows.find? fun r =>
    Collation.lower r.2.email = email && r.2.disabledAt.isNone
  if limited then
    w.refuse .tooManyAttempts
  else
    match user with
    | none            => w.refuse .invalidCredentials
    | some (id, user) =>
      if validEmail email && password.utf8ByteSize ≤ maxPasswordBytes &&
          Passwords.verifyPassword user.passwordHash password
      then (w, some (.login email password (.verified id user.passwordHash)))
      else w.refuse .invalidCredentials

def nextLogin (w : World) (ttl : Nat) (t : Tick) (email password : String) :
    LoginStage → World × Option Call
  | .received           => w.beginLogin t.limited email password
  | .verified user hash =>
    if (w.users.lookup user).any fun u => u.disabledAt.isNone && u.passwordHash = hash
    then (w, some (.login email password (.locked user hash)))
    else w.refuse .invalidCredentials
  | .locked user hash   =>
    let session := { userId := user, expiresAt := t.now + ttl }
    ({ w with sessions := w.sessions.set w.next session, next := w.next + 1 }.log
      (.loggedIn w.next user hash password), none)

def nextChange (w : World) (t : Tick) (user sessionId : Id) (current new : String) :
    ChangeStage → World × Option Call
  | .received                    =>
    if current.utf8ByteSize > maxPasswordBytes || new.utf8ByteSize > maxPasswordBytes ||
        new.length < minPasswordChars || current = new then
      w.refuse .passwordRequirements
    else
      match (w.users.lookup user).filter (·.disabledAt.isNone) with
      | none   => w.refuse .authenticationRequired
      | some u =>
        if Passwords.verifyPassword u.passwordHash current then
          let newHash := Passwords.passwordHash w.next new
          ({ w with next := w.next + 1 },
            some (.change user sessionId current new (.checked u.passwordHash newHash)))
        else
          w.refuse .currentPasswordIncorrect
  | .checked currentHash newHash =>
    if (w.users.lookup user).any fun u => u.passwordHash = currentHash && u.disabledAt.isNone
    then (w, some (.change user sessionId current new (.updated newHash)))
    else w.refuse .credentialsChanged
  | .updated newHash             =>
    let sessions := w.openSessions user (some sessionId)
    (w, some (.change user sessionId current new (.swept newHash sessions)))
  | .swept newHash sessions      =>
    (((w.updateUser user fun u =>
        { u with passwordHash := newHash, mustChangePassword := false }).revokeSessions t.now
      fun i _ => i ∈ sessions).log (.passwordChanged user sessionId newHash), none)

-- `WHERE id = $1 AND managed_by = $2 AND role = 'member'`.
def manages (w : World) (admin account : Id) : Option User :=
  (w.users.lookup account).filter fun u => u.managedBy = some admin && u.role = .member

-- The last value of `disabled_at`.
def disable (now : Time) (disabled : Option Bool) (disabledAt : Option Time) : Option Time :=
  match disabled with
  | none       => disabledAt
  | some true  => disabledAt.or now
  | some false => none

def nextUpdate (w : World) (t : Tick) (admin account : Id) (quotaBytes : Option Nat)
    (disabled : Option Bool) : UpdateStage → World × Option Call
  | .received                =>
    match w.manages admin account with
    | none   => w.refuse .notFound
    | some u =>
      (w, some (.update admin account quotaBytes disabled (.locked u.disabledAt.isSome)))
  | .locked existingDisabled =>
    if quotaBytes.isSome && !t.fits then
      w.refuse .quotaBelowCurrentUsage
    else
      let sweeps := disabled = some true || (existingDisabled && disabled.isNone)
      let sessions := if sweeps then w.openSessions account none else []
      (w, some (.update admin account quotaBytes disabled (.swept sessions)))
  | .swept sessions          =>
    let w' := (w.updateUser account fun u => { u with
      quotaBytes := quotaBytes.or u.quotaBytes
      disabledAt := disable t.now disabled u.disabledAt }).revokeSessions t.now fun i _ => i ∈ sessions
    let row := (w.users.lookup account).filter fun _ => disabled = some true
    let events := row.toList.map fun u => Event.accountDisabled account u.passwordHash
    ({ w' with history := w'.history ++ events }, none)

def nextReset (w : World) (t : Tick) (admin account : Id) (temporary : String) :
    ResetStage → World × Option Call
  | .received            =>
    match w.manages admin account with
    | none   => w.refuse .notFound
    | some _ =>
      let hash := Passwords.passwordHash w.next temporary
      ({ w with next := w.next + 1 }, some (.reset admin account temporary (.updated hash)))
  | .updated hash        =>
    (w, some (.reset admin account temporary (.swept hash (w.openSessions account none))))
  | .swept hash sessions =>
    (((w.updateUser account fun u =>
        { u with passwordHash := hash, mustChangePassword := true }).revokeSessions t.now
      fun i _ => i ∈ sessions).log (.passwordReset account hash), none)

def insertUser (w : World) (user : User) : World × Option Call :=
  ({ w with users := w.users.set w.next user, next := w.next + 1 }, none)

def createAccount (w : World) (admin : Id) (role : Role) (email temporary : String)
    (quotaBytes : Nat) : World × Option Call :=
  let email := normalizeEmail email
  if role ≠ .owner then
    w.refuse .forbidden
  else if !validEmail email || quotaBytes > maxAccountQuotaBytes then
    w.refuse .badRequest
  else if w.users.any fun _ u => Collation.lower u.email = Collation.lower email then
    w.refuse .emailExists
  else
    w.insertUser {
      email              := email
      passwordHash       := Passwords.passwordHash w.next temporary
      role               := .member
      managedBy          := some admin
      quotaBytes         := some quotaBytes
      mustChangePassword := true }

-- The server does not start without an owner.
def bootstrapOwner (w : World) (email password : String) : Option (World × Option Call) :=
  let email := normalizeEmail email
  if w.users.any fun _ u => u.role = .owner then
    some (w, none)
  else if validEmail email && validPassword password then
    some (w.insertUser { email, passwordHash := Passwords.passwordHash w.next password, role := .owner })
  else
    none

def revokeSession (w : World) (user current session : Id) (now : Time) : World × Option Call :=
  if session = current then
    w.refuse .cannotRevokeCurrentSession
  else if (w.sessions.lookup session).any fun s =>
      s.userId = user && s.revokedAt.isNone && s.expiresAt > now then
    (w.revokeSessions now fun i _ => i = session, none)
  else
    w.refuse .sessionNotFound

def start (w : World) : Request → Option (World × Option Call)
  | .login email password                => some (w, some (.login email password .received))
  | .changePassword user session current new =>
    some (w, some (.change user session current new .received))
  | .updateAccount admin role account quotaBytes disabled =>
    if role ≠ .owner then some (w.refuse .forbidden)
    else if (quotaBytes.isNone && disabled.isNone) || quotaBytes.any (· > maxAccountQuotaBytes) then
      some (w.refuse .badRequest)
    else some (w, some (.update admin account quotaBytes disabled .received))
  | .resetPassword admin role account temporary =>
    if role ≠ .owner then some (w.refuse .forbidden)
    else some (w, some (.reset admin account temporary .received))
  | .createAccount admin role email temporary quotaBytes =>
    some (w.createAccount admin role email temporary quotaBytes)
  | .bootstrapOwner email password       => w.bootstrapOwner email password
  | .logout session now                  => some (w.revokeSessions now fun i _ => i = session, none)
  | .revokeSession user current session now => some (w.revokeSession user current session now)
  | .revokeOtherSessions user current now =>
    some (w.revokeSessions now fun i s => s.userId = user && i ≠ current && s.expiresAt > now, none)

def resume (ttl : Nat) (w : World) (t : Tick) : Call → Option (World × Option Call)
  | .login email password stage                   => some (w.nextLogin ttl t email password stage)
  | .change user session current new stage        => some (w.nextChange t user session current new stage)
  | .update admin account quotaBytes disabled stage =>
    some (w.nextUpdate t admin account quotaBytes disabled stage)
  | .reset admin account temporary stage          => some (w.nextReset t admin account temporary stage)

-- `ttl` is the `SESSION_TTL` of the configuration.
def program (ttl : Nat) : Shared.Program World Call Request Tick where
  start := World.start
  next  := World.resume ttl

abbrev step (ttl : Nat) :=
  Locks.step (program ttl) Call.locks

end World
end MyDrive.Accounts
