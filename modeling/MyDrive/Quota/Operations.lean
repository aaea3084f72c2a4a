import MyDrive.Transfers.System
import MyDrive.Quota.Usage

-- The operations that make the files of an account refer to more bytes.

namespace MyDrive.Quota

open Transfers

variable [Collation]

-- A replacement is an upload with `replace_file_id`. Of its requests, `reserve` and `complete` are the
-- two transactions of `finalize_upload`, and `reject` is `reject_mismatched_upload`.
inductive Operation
  | copy (env : Env) (c : Copy)
  | link (env : Env) (c : Link) (objectId : Id)
  | create (session : Session) (bytes : List UInt8)
  | reserve (env : Env) (owner upload : Id)
  | complete (owner upload : Id) (t : Target) (checksum : String)
  | reject (row : Option Id) (owner upload : Id) (t : Target)

namespace Books

-- `additional` of `link_content`: what the file grows by, or all of a new one.
def additional (s : Store) (c : Link) : Nat :=
  match s.existingFile c with
  | some (_, o) => c.size - o.size
  | none        => c.size

def linkContent (b : Books) (ownerQuota : UInt64) (now : Time) (env : Env) (c : Link) (objectId : Id) :
    Except TransferError (Option Store) :=
  let quota := b.ensureQuota ownerQuota c.owner now (additional b.store c)
  b.store.linkObject { env with withinQuota := quota.isOk } c objectId

-- The session of an upload that replaces a file.
def replacement (s : Store) (owner upload : Id) : Option Session :=
  ((s.fetchUploadForUpdate owner upload).toOption).filter (·.replaceFileId.isSome)

-- The store after an operation that succeeds.
def perform (b : Books) (ownerQuota : UInt64) (now : Time) : Operation → Option Store
  | .copy env c                    => (b.store.insertCopies env c).toOption
  | .link env c objectId           =>
    (b.linkContent ownerQuota now env c objectId).toOption.bind id
  | .create session bytes          =>
    if session.replaceFileId.isSome ∧
        (b.createUpload ownerQuota session.ownerId now session.expectedSize).isOk then
      b.store.createUpload session bytes
    else
      none
  | .reserve env owner upload      =>
    (replacement b.store owner upload).bind fun session =>
      if session.state = .active then (b.store.reserve env owner upload session).toOption else none
  | .complete owner upload t sum   =>
    (replacement b.store owner upload).bind fun _ =>
      (b.store.complete owner upload t sum).toOption.bind fun (s, r) => if r.isNone then some s else none
  | .reject row owner upload t     =>
    (replacement b.store owner upload).bind fun _ =>
      (b.store.rejectMismatchedUpload row owner upload t).bind fun r => r.toOption.bind id

end Books
end MyDrive.Quota
