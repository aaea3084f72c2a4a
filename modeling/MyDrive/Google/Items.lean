import MyDrive.Transfers.Finalize

-- The rows of the Google importer that its commits, the removals of a source and the quota read.

namespace MyDrive.Google

open Transfers

inductive ItemState
  | pending
  | downloading
  | committing
  | stored
  | skipped
  | failed
  deriving DecidableEq

structure Item where
  sourceId        : Id
  ownerId         : Id
  googleFileId    : String
  name            : String
  parentLocalId   : Option Id := none
  state           : ItemState := .pending
  bytesDownloaded : Nat := 0
  stagingKey      : Option Id := none
  storageObjectId : Option Id := none
  localFileId     : Option Id := none
  checksum        : Option String := none
  deriving DecidableEq

-- A row of `google_drive_sources`. An account has one connection, so that `disconnect` takes all the
-- sources of the account with it.
structure Source where
  ownerId : Id
  enabled : Bool := true
  deriving DecidableEq

end MyDrive.Google
