import MyDrive.Backup.Transfer
import MyDrive.Transfers.System

-- `TransferAsync` against the handlers of the uploads, for one file whose bytes do not change. Requests
-- and responses may get lost on their way, the client may give a request up that the server still
-- works on, and both sides may stop at any moment.

namespace MyDrive.Backup.Wire

open Transfers (Store Session Upload Patch Finalize Label Env UploadFinalized TransferError Digest)

inductive Request
  | create
  | head (upload : Id)
  | patch (upload : Id) (offset : Nat) (body : List UInt8)
  | finalize (upload : Id)
  deriving DecidableEq

-- The responses that the client goes on with. `conflict` is a 409 with an `Upload-Offset`.
inductive Reply
  | created (upload : Id)
  | offset (offset : Nat)
  | conflict (offset : Nat)
  | finalized (result : UploadFinalized)
  deriving DecidableEq

-- A `PATCH` that holds the row lock of its upload, with the part of its body that is still to come.
structure Receiving where
  ticket  : Nat
  request : Request
  patch   : Patch
  rest    : List UInt8

-- `accepted` are the bodies of the requests that have committed, by upload, and `cleaning` the uploads
-- whose staging files are about to be removed, with the keys of these.
structure Server where
  store    : Store := {}
  patches  : Table Id Receiving := .empty
  accepted : Table Id (List (List UInt8)) := .empty
  calls    : Table Nat Finalize := .empty
  cleaning : List (Id × Id) := []

-- What is left of the body after a label, which cannot take bytes that have not been sent.
def Receiving.feed (r : Receiving) : Label → Option (List UInt8)
  | .begin _ _   => none
  | .frame data  => if data.isPrefixOf r.rest then some (r.rest.drop data.length) else none
  | .torn data _ => if data.isPrefixOf r.rest then some (r.rest.drop data.length) else none
  | .endBody     => if r.rest = [] then some [] else none
  | _            => some r.rest

def headers (offset : Nat) (body : List UInt8) : Transfers.PatchHeaders where
  contentType   := some "application/offset+octet-stream"
  uploadOffset  := some (some offset)
  contentLength := some (some body.length)

namespace Server

variable (s : Server)

-- One upload with its staging file.
def upload (id : Id) : Option Upload :=
  (s.store.sessions.lookup id).bind fun x =>
    (s.store.staging.lookup x.stagingKey).map fun staging =>
      { session  := x.toUploadSession
        staging
        patch    := (s.patches.lookup id).map (·.patch)
        accepted := (s.accepted.lookup id).getD [] }

def put (id key : Id) (u : Upload) : Server :=
  { s with
    store := { s.store.updateSession id fun x => { x with toUploadSession := u.session } with
      staging := s.store.staging.set key u.staging }
    accepted := s.accepted.set id u.accepted }

def headUpload (owner id : Id) (now : Time) : Except TransferError Nat := do
  let session ← s.store.fetchUploadForUpdate owner id
  if session.state = .expired ∨ session.state = .failed then
    throw .gone
  if session.state = .active ∧ session.expiresAt ≤ now then
    throw .gone
  return session.receivedSize

-- `patch_upload` up to the staging file.
def beginPatch (ticket : Nat) (owner id offset : Id) (body : List UInt8) (now : Time) :
    Except TransferError Server := do
  let session ← s.store.fetchUploadForUpdate owner id
  let patch ← Transfers.admitPatch session.toUploadSession (headers offset body) now
  let request := .patch id offset body
  return { s with patches := s.patches.set id { ticket, request, patch, rest := body } }

-- The rest of it, by the labels of the upload.
def stepPatch (id : Id) (l : Label) : Option (Receiving × Upload × Server) :=
  (s.patches.lookup id).bind fun r =>
    (s.store.sessions.lookup id).bind fun x =>
      (s.upload id).bind fun u =>
        (r.feed l).bind fun rest =>
          (u.step l).map fun u' =>
            let patches := match u'.patch with
              | none       => s.patches.erase id
              | some patch => s.patches.set id { r with patch, rest }
            (r, u', { s.put id x.stagingKey u' with patches })

def close (id key : Id) : Server :=
  { s with
    store    := s.store.updateSession id fun x => { x with state := .expired }
    cleaning := s.cleaning ++ [(id, key)] }

-- The `UPDATE` of `clean_expired_uploads`, on one of its rows. Rows that are locked are skipped.
def cleanExpired (id : Id) (now : Time) : Option Server :=
  (s.store.sessions.lookup id).bind fun x =>
    if (s.patches.lookup id).isSome then
      none
    else match x.state with
      | .active  => if x.expiresAt ≤ now then some (s.close id x.stagingKey) else none
      | .expired => some (s.close id x.stagingKey)
      | .failed  => some { s with cleaning := s.cleaning ++ [(id, x.stagingKey)] }
      | _        => none

-- `cancel_upload` up to its commit.
def cancelUpload (owner id : Id) : Option Server :=
  if (s.patches.lookup id).isSome then
    none
  else match s.store.fetchUploadForUpdate owner id with
    | .error _    => some s
    | .ok session => match session.state with
      | .active  => some (s.close id session.stagingKey)
      | .expired => some (s.close id session.stagingKey)
      | .failed  => some { s with cleaning := s.cleaning ++ [(id, session.stagingKey)] }
      | _        => some s

def removeStagingFile (id key : Id) : Option Server :=
  if (id, key) ∈ s.cleaning then
    some { s with
      store    := { s.store with staging := s.store.staging.erase key }
      cleaning := s.cleaning.erase (id, key) }
  else
    none

end Server

def result (s s' : Store) : Option UploadFinalized :=
  (s'.history.drop s.history.length).findSome? fun e =>
    match e with
    | .returned _ r => some r
    | _             => none

-- A finalization that begins waits for the row lock.
def waits (s : Server) (c : Finalize) : Bool :=
  match c.stage with
  | .begun => (s.patches.lookup c.upload).isSome
  | _      => false

section

variable [Collation] [Digest]

def Server.stepFinalize (s : Server) (i : Nat) (env : Env) :
    Option (Finalize × Option UploadFinalized × Server) :=
  (s.calls.lookup i).bind fun c =>
    if waits s c then
      none
    else
      (c.next s.store env).map fun r =>
        let calls := match r.2 with
          | none   => s.calls.erase i
          | some c => s.calls.set i c
        (c, result s.store r.1, { s with store := r.1, calls })

end

-- What the client sends, what the offset of its upload goes up by, and the uploads that it has stored.
inductive Event
  | sent (upload : Id) (offset : Nat) (body : List UInt8)
  | moved (upload : Id) (before after : Nat)
  | stored (upload : Id)
  deriving DecidableEq

-- A ticket joins a request to its response. `ticket` is the one that the client waits for.
structure Exchange where
  db       : Database := {}
  client   : Option Transfer := none
  ticket   : Option Nat := none
  requests : Table Nat Request := .empty
  replies  : Table Nat (Request × Reply) := .empty
  server   : Server := {}
  next     : Nat := 0
  history  : List Event := []

-- The file, the user it is uploaded for, and the settings of the client. The server reads the hash that
-- the client has computed as its own digest of the file.
structure Setting [Digest] where
  file         : List UInt8
  hash         : String
  owner        : Id
  settings     : ClientSettings := {}
  capabilities : ServerCapabilities := {}
  declares     : Transfers.declaredChecksum (some (some hash)) = .ok (some (Digest.sha256 file))

def Setting.context [Digest] (g : Setting) (now : Time) : Context where
  settings     := g.settings
  capabilities := g.capabilities
  now          := now

-- `scan` enqueues the file again. `control` is anything that happens to the jobs and their pauses.
inductive Action
  | scan (existing : Option Id) (new : Id) (item : UploadItem)
  | control (jobs : Table Id BackupJob) (paused : Bool)
  | reset
  | claim (id : Id) (now : Time)
  | work (a : Answer) (now : Time)
  | read (now : Time)
  | send
  | receive (now : Time)
  | fail (e : Failure) (now : Time)
  | cancel (now : Time)
  | stop
  | lose (i : Nat)
  | create (i : Nat) (session : Session)
  | head (i : Nat) (now : Time)
  | begin (i : Nat) (now : Time)
  | patch (upload : Id) (l : Label)
  | finalize (i : Nat) (env : Env)
  | cleanExpired (upload : Id) (now : Time)
  | cancelUpload (owner upload : Id)
  | removeStagingFile (upload stagingKey : Id)
  | crash

-- The answers that do not come from the server.
def inside : Answer → Bool
  | .checked _ _ => true
  | .folder _    => true
  | .done        => true
  | _            => false

def Request.sent : Request → List Event
  | .patch id offset body => [.sent id offset body]
  | _                     => []

def Reply.answer : Reply → Answer
  | .created id   => .created id 0
  | .offset n     => .offset n
  | .conflict n   => .thrown (.api 409 "offset_mismatch" none (some n))
  | .finalized r  => .finalized { fileId := r.fileId, versionId := r.versionId, checksum := r.checksum }

def Reply.received : Request → Reply → List Event
  | .patch id start _, .offset n    => [.moved id start n]
  | .patch id start _, .conflict n  => [.moved id start n]
  | .finalize id,      .finalized _ => [.stored id]
  | _,                 _            => []

namespace Exchange

variable [Collation] [Digest] (g : Setting) (s : Exchange)

-- The request that the client makes where it is.
def outgoing (t : Transfer) : Option Request :=
  match t.stage with
  | .creating       => some .create
  | .asking         => t.item.remoteUploadId.map .head
  | .patching count => t.item.remoteUploadId.map fun id =>
    .patch id t.item.bytesSent ((g.file.drop t.item.bytesSent).take count)
  | .finalizing     => t.item.remoteUploadId.map .finalize
  | _               => none

def advance (a : Answer) (now : Time) : Option Exchange :=
  s.client.bind fun t =>
    (t.next (g.context now) s.db t.stage a).map fun r =>
      { s with db := r.1, client := r.2, ticket := none }

def send : Option Exchange :=
  s.client.bind fun t =>
    (outgoing g t).bind fun request =>
      if s.ticket = none then
        some { s with
          ticket   := some s.next
          next     := s.next + 1
          requests := s.requests.set s.next request
          history  := s.history ++ request.sent }
      else
        none

def receive (now : Time) : Option Exchange :=
  s.ticket.bind fun i =>
    (s.replies.lookup i).bind fun r =>
      (s.advance g r.2.answer now).map fun s' =>
        { s' with replies := s.replies.erase i, history := s.history ++ r.2.received r.1 }

def reply (i : Nat) (request : Request) (server : Server) (reply : Option Reply) : Exchange :=
  { s with
    server
    requests := s.requests.erase i
    replies  := match reply with
      | none   => s.replies
      | some r => s.replies.set i (request, r) }

def scan (existing : Option Id) (new : Id) (item : UploadItem) : Option Exchange :=
  if s.client.isNone && (s.db.queue.lookup new).isNone && item.fileSize = g.file.length &&
      item.contentHash = some g.hash && item.state = .waiting && item.bytesSent = 0 &&
      item.remoteUploadId = none then
    (s.db.enqueue existing new item).map fun db => { s with db }
  else
    none

-- The bytes that are read at the offset of the upload, as many as the buffer takes.
def read (now : Time) : Option Exchange :=
  s.client.bind fun t =>
    if t.stage = .reading then
      let slice := (g.file.drop t.item.bytesSent).take (chunkBytes g.settings g.capabilities)
      s.advance g (.slice slice.length) now
    else
      none

def step : Action → Option Exchange
  | .scan existing new item => s.scan g existing new item
  | .control jobs paused    => some { s with db := { s.db with jobs, paused } }
  | .reset                  => if s.client.isNone then some { s with db := s.db.resetInterrupted } else none
  | .claim id now           =>
    if s.client.isNone then
      (s.db.claimNext now id).map fun r => { s with db := r.1, client := some { id, item := r.2 } }
    else
      none
  | .work a now             => if s.ticket = none && inside a then s.advance g a now else none
  | .read now               => s.read g now
  | .send                   => s.send g
  | .receive now            => s.receive g now
  | .fail e now             => if e.serverOffset = none then s.advance g (.thrown e) now else none
  | .cancel now             => s.advance g .cancelled now
  | .stop                   => some { s with client := none, ticket := none }
  | .lose i                 => some { s with
      requests := s.requests.erase i, replies := s.replies.erase i }
  | .create i session       =>
    if s.requests.lookup i = some .create then
      let session := { session with ownerId := g.owner, expectedSize := g.file.length }
      (s.server.store.createUpload session []).map fun store =>
        s.reply i .create { s.server with store } (some (.created (s.server.store.next + 1)))
    else
      none
  | .head i now             =>
    match s.requests.lookup i with
    | some (.head id) =>
      some <| s.reply i (.head id) s.server ((s.server.headUpload g.owner id now).toOption.map .offset)
    | _               => none
  | .begin i now            =>
    match s.requests.lookup i with
    | some (.patch id offset body) =>
      if (s.server.patches.lookup id).isSome then
        none
      else
        match s.server.beginPatch i g.owner id offset body now with
        | .ok server                => some (s.reply i (.patch id offset body) server none)
        | .error (.offsetConflict n) =>
          some (s.reply i (.patch id offset body) s.server (some (.conflict n)))
        | .error _                  => some (s.reply i (.patch id offset body) s.server none)
    | _                            => none
  | .patch id l             =>
    (s.server.stepPatch id l).map fun r =>
      s.reply r.1.ticket r.1.request r.2.2 <|
        match l with
        | .commit => some (.offset r.2.1.session.receivedSize)
        | _       => none
  | .finalize i env         =>
    match s.requests.lookup i with
    | some (.finalize id) =>
      if (s.server.calls.lookup i).isSome then
        none
      else
        let c := { owner := g.owner, upload := id, checksum := some (some g.hash) }
        let server := { s.server with calls := s.server.calls.set i c }
        some (s.reply i (.finalize id) server none)
    | _                   =>
      (s.server.stepFinalize i env).map fun r =>
        s.reply i (.finalize r.1.upload) r.2.2 (r.2.1.map .finalized)
  | .cleanExpired id now    => (s.server.cleanExpired id now).map fun server => { s with server }
  | .cancelUpload owner id  => (s.server.cancelUpload owner id).map fun server => { s with server }
  | .removeStagingFile id k => (s.server.removeStagingFile id k).map fun server => { s with server }
  | .crash                  => some { s with
      server := { s.server with patches := .empty, calls := .empty, cleaning := [] } }

end Exchange
end MyDrive.Backup.Wire
