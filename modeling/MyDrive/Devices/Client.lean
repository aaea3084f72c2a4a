import MyDrive.Devices.Credentials

-- `RefreshingDriveApi` with any number of callers, its secret store, and the network between it and
-- the server. Requests and responses may get lost, a caller may be cut off by an exception, and the
-- client may crash between any two steps.

namespace MyDrive.Devices

inductive SecretKey
  | access
  | refresh
  deriving DecidableEq

abbrev Secrets := Table SecretKey Token

-- `retried` says that the call has refreshed the tokens before. `todo` is what `Store` still has to
-- save, and `persisting` stands for the file being written.
inductive Phase
  | calling (retried : Bool)
  | awaiting (exchange : Nat) (retried : Bool)
  | queued
  | entered
  | refreshing (exchange : Nat)
  | saving (todo : List (SecretKey × Token))
  | persisting (todo : List (SecretKey × Token))

-- A request that is on its way, or its response.
inductive Exchange
  | call (access : Option Token)
  | called (authorized : Bool)
  | refresh (request : RefreshRequest)
  | refreshed (answer : Except GrantError TokenSet)

-- `values` and `file` are the dictionary of `AesSecretStore` and `secrets.bin`, which is `none` while
-- it is being written. `refresh` is the caller that holds the semaphore.
structure Client where
  access  : Option Token := none
  values  : Secrets := .empty
  file    : Option Secrets := some .empty
  refresh : Option Nat := none
  callers : Table Nat Phase := .empty

structure System where
  server    : Server
  client    : Client
  exchanges : Table Nat Exchange := .empty
  sent      : Nat := 0

inductive Action
  | start (i : Nat)
  | next (i : Nat)
  | fail (i : Nat)
  | serve (exchange : Nat) (now : Time)
  | lose (exchange : Nat)
  | crash

namespace Client

def goto (c : Client) (i : Nat) (phase : Phase) : Client :=
  { c with callers := c.callers.set i phase }

def release (c : Client) : Client :=
  { c with refresh := none }

-- The end of a call, by way of the `finally` of `RefreshStored` when it is in there.
def leave (c : Client) (i : Nat) : Client :=
  let c := { c with callers := c.callers.erase i }
  if c.refresh = some i then c.release else c

-- The start of the client, where a file that has not been written in full counts as an empty one.
def restart (c : Client) : Client :=
  let values := c.file.getD .empty
  { access := values.lookup .access, values, file := some values }

end Client

namespace System

def goto (s : System) (i : Nat) (phase : Phase) : System :=
  { s with client := s.client.goto i phase }

def leave (s : System) (i : Nat) : System :=
  { s with client := s.client.leave i }

def send (s : System) (request : Exchange) : System :=
  { s with exchanges := s.exchanges.set s.sent request, sent := s.sent + 1 }

def receive (s : System) (exchange : Nat) : System :=
  { s with exchanges := s.exchanges.erase exchange }

-- One step of `Call`, `RefreshStored` and `Store`.
def next (s : System) (i : Nat) : Phase → Option System
  | .calling retried           => some ((s.send (.call s.client.access)).goto i (.awaiting s.sent retried))
  | .awaiting exchange retried =>
    match s.exchanges.lookup exchange with
    | some (.called authorized) =>
      if authorized || retried then some ((s.receive exchange).leave i)
      else some ((s.receive exchange).goto i .queued)
    | _                         => none
  | .queued                    =>
    if s.client.refresh.isSome then none
    else some ({ s with client := { s.client with refresh := some i } }.goto i .entered)
  | .entered                   =>
    match s.client.values.lookup .refresh with
    | none              => some (s.leave i)
    | some refreshToken =>
      let request := { grantType := "refresh_token", refreshToken }
      some ((s.send (.refresh request)).goto i (.refreshing s.sent))
  | .refreshing exchange       =>
    match s.exchanges.lookup exchange with
    | some (.refreshed (.ok tokens)) =>
      let client := { s.client with access := some tokens.accessToken }
      some (({ s with client }.receive exchange).goto i
        (.saving [(.access, tokens.accessToken), (.refresh, tokens.refreshToken)]))
    | some (.refreshed (.error _))   => some ((s.receive exchange).leave i)
    | _                              => none
  | .saving []                 => some ({ s with client := s.client.release }.goto i (.calling true))
  | .saving ((key, value) :: todo) =>
    let client := { s.client with values := s.client.values.set key value, file := none }
    some ({ s with client }.goto i (.persisting todo))
  | .persisting todo           =>
    some ({ s with client := { s.client with file := some s.client.values } }.goto i (.saving todo))

def serve (s : System) (now : Time) (exchange : Nat) : Option System :=
  match s.exchanges.lookup exchange with
  | some (.call access)     =>
    let authorized := access.any (s.server.authenticateAccessToken now)
    some { s with exchanges := s.exchanges.set exchange (.called authorized) }
  | some (.refresh request) =>
    let (server, answer) := s.server.refreshToken now request
    some { s with server, exchanges := s.exchanges.set exchange (.refreshed answer) }
  | _                       => none

def step (s : System) : Action → Option System
  | .start i            =>
    match s.client.callers.lookup i with
    | some _ => none
    | none   => some (s.goto i (.calling false))
  | .next i             => (s.client.callers.lookup i).bind (s.next i)
  | .fail i             =>
    match s.client.callers.lookup i with
    | some _ => some (s.leave i)
    | none   => none
  | .serve exchange now => s.serve now exchange
  | .lose exchange      =>
    match s.exchanges.lookup exchange with
    | some _ => some (s.receive exchange)
    | none   => none
  | .crash              => some { s with client := s.client.restart }

-- The device 0 of the user 0 has just been given its first tokens, and the client has saved them.
def init (now : Time) : System :=
  let users := (Table.empty : Table Id User).set 0 {}
  let devices := (Table.empty : Table Id Device).set 0 { ownerId := 0 }
  let (server, tokens) := ({ users, devices } : Server).issueCredentials now 0
  let values := (Table.empty : Secrets).set .access tokens.accessToken |>.set .refresh tokens.refreshToken
  { server, client := { access := some tokens.accessToken, values, file := some values } }

end System
end MyDrive.Devices
