import MyDrive.Library.Execution
import MyDrive.Library.Except
import MyDrive.Library.Table
import MyDrive.Library.Merge
import MyDrive.Library.Forest
import MyDrive.Library.Recursive
import MyDrive.Drive.Database
import MyDrive.Drive.Queries
import MyDrive.Drive.Triggers
import MyDrive.Drive.Statements
import MyDrive.Drive.Requests
import MyDrive.Drive.Concurrent
import MyDrive.Drive.Theorems.Queries
import MyDrive.Drive.Theorems.Triggers
import MyDrive.Drive.Theorems.Statements
import MyDrive.Drive.Theorems.Index
import MyDrive.Drive.Theorems.Requests
import MyDrive.Drive.Theorems.Concurrent
import MyDrive.Drive.Theorems.Hiding
import MyDrive.Transfers.Patch
import MyDrive.Transfers.Theorems.Patch
import MyDrive.Library.Shared
import MyDrive.Transfers.Store
import MyDrive.Transfers.Finalize
import MyDrive.Transfers.System
import MyDrive.Transfers.Theorems.Store
import MyDrive.Transfers.Theorems.Collect
import MyDrive.Transfers.Theorems.Finalize
import MyDrive.Transfers.Theorems.History
import MyDrive.Transfers.Theorems.Retry
import MyDrive.Transfers.Theorems.Rows
import MyDrive.Transfers.Theorems.Choice
import MyDrive.Transfers.Theorems.Own
import MyDrive.Transfers.Theorems.Replace
import MyDrive.Transfers.Theorems.Line
import MyDrive.Transfers.Theorems.Turns
import MyDrive.Devices.Client
import MyDrive.Devices.Theorems.Tokens
import MyDrive.Devices.Credentials
import MyDrive.Media.Jobs
import MyDrive.Media.Theorems.Fencing
import MyDrive.Restore.Script
import MyDrive.Restore.Theorems.Rollback
import MyDrive.Restore.Theorems.Interrupted
import MyDrive.Library.Sum
import MyDrive.Google.Items
import MyDrive.Quota.Usage
import MyDrive.Quota.Theorems.Agreement
import MyDrive.Transfers.Theorems.Proper
import MyDrive.Transfers.Theorems.Backed
import MyDrive.Transfers.Theorems.Carried
import MyDrive.Quota.Theorems.Usage
import MyDrive.Quota.Operations
import MyDrive.Quota.Theorems.Operations
import MyDrive.Quota.System
import MyDrive.Quota.Theorems.Ledger
import MyDrive.Google.Import
import MyDrive.Google.Server
import MyDrive.Google.Theorems.Sound
import MyDrive.Google.Theorems.Worker
import MyDrive.Google.Theorems.Commit
import MyDrive.Google.Theorems.System
import MyDrive.Google.Theorems.Resume
import MyDrive.Google.Theorems.Owned
import MyDrive.Transfers.Responses
import MyDrive.Library.Locks
import MyDrive.Shares.Tables
import MyDrive.Shares.Public
import MyDrive.Transfers.Theorems.Responses
import MyDrive.Shares.Theorems.Scope
import MyDrive.Shares.Theorems.Originals
import MyDrive.Shares.Server
import MyDrive.Shares.Theorems.Downloads
import MyDrive.Shares.Theorems.Attempts
import MyDrive.Shares.Keys
import MyDrive.Shares.Theorems.Keys
import MyDrive.Accounts.Sessions
import MyDrive.Accounts.Theorems.Sessions
import MyDrive.Devices.Authorization
import MyDrive.Devices.Theorems.Authorization
import MyDrive.Devices.Content
import MyDrive.Devices.Theorems.Content
import MyDrive.Drive.Copy
import MyDrive.Drive.Theorems.Batch
import MyDrive.Drive.Theorems.Copy
import MyDrive.Drive.Theorems.Purge
import MyDrive.Drive.Photos
import MyDrive.Drive.Theorems.Photos
import MyDrive.Shares.Trash
import MyDrive.Shares.Theorems.Trash
import MyDrive.Index.Refresh
import MyDrive.Index.Theorems.Refresh
import MyDrive.Media.Theorems.Previews
import MyDrive.Google.Listing
import MyDrive.Google.Theorems.Listing
import MyDrive.Google.Theorems.Termination
import MyDrive.Backup.Database
import MyDrive.Backup.Transfer
import MyDrive.Backup.Exchange
import MyDrive.Backup.Theorems.Transfer
import MyDrive.Backup.Theorems.Server
import MyDrive.Backup.Theorems.Handlers
import MyDrive.Backup.Theorems.Exchange
import MyDrive.Archive.Keys
import MyDrive.Archive.Members
import MyDrive.Archive.Theorems.Keys
import MyDrive.Archive.Theorems.Members
import MyDrive.Archive.Theorems.Extract
import MyDrive.Archive.Theorems.Validate
import MyDrive.Archive.Theorems.Tree
import MyDrive.Filtering.Globs
import MyDrive.Filtering.Theorems.Globs
import MyDrive.Filtering.Scanner
import MyDrive.Filtering.Theorems.Scanner
import MyDrive.Transfers.Theorems.Filled
import MyDrive.Transfers.Resume
import MyDrive.Transfers.Theorems.Resume
import MyDrive.Google.Sync
import MyDrive.Google.Theorems.Sync
import MyDrive.Drive.Names
import MyDrive.Drive.Theorems.Names
import MyDrive.Google.Names
import MyDrive.Google.Theorems.Names
import MyDrive.Accounts.Limiter
import MyDrive.Accounts.Theorems.Limiter
import MyDrive.Library.Bytes
import MyDrive.Media.Webp
import MyDrive.Media.Theorems.Webp
import MyDrive.Library.Clustering
import MyDrive.Media.Clusters
import MyDrive.Media.Theorems.Clusters
import MyDrive.Browse.Photos
import MyDrive.Library.Keyset
import MyDrive.Browse.Theorems.Photos
import MyDrive.Browse.Stats
import MyDrive.Browse.Theorems.Stats
import MyDrive.Browse.People
import MyDrive.Browse.Theorems.People
import MyDrive.Devices.Folders
import MyDrive.Devices.Theorems.Folders
import MyDrive.Library.Percent
import MyDrive.Web.Routes
import MyDrive.Web.Theorems.Routes
import MyDrive.Media.Sniffing
import MyDrive.Library.Rules
import MyDrive.Media.Theorems.Sniffing
import MyDrive.Transfers.Theorems.Ranges
import MyDrive.Devices.Theorems.UserCodes
import MyDrive.Library.Like
import MyDrive.Browse.Labels
import MyDrive.Browse.Theorems.Labels
import MyDrive.Library.Calendar
import MyDrive.Browse.Search
import MyDrive.Browse.Theorems.Search
import MyDrive.Backup.Schedule
import MyDrive.Backup.Theorems.Schedule
import MyDrive.Library.Replace
import MyDrive.Backup.Redactor
import MyDrive.Backup.Theorems.Redactor
import MyDrive.Backup.Theorems.Messages
import MyDrive.Backup.Theorems.Redaction
import MyDrive.Backup.Theorems.Noninterference
import MyDrive.Google.Encoding
import MyDrive.Google.Theorems.Encoding
import MyDrive.Google.Theorems.TokenKey
import MyDrive.Library.Greedy
import MyDrive.Media.Faces
import MyDrive.Media.Theorems.Faces
import MyDrive.Media.Pgm
import MyDrive.Media.Theorems.Pgm
import MyDrive.Web.FaceCrop
import MyDrive.Web.Theorems.FaceCrop
import MyDrive.Web.PhotoLayout
import MyDrive.Web.Theorems.PhotoLayout
import MyDrive.Library.Split
import MyDrive.Storage.Mount
import MyDrive.Storage.Theorems.Mount
import MyDrive.Installer.Config
import MyDrive.Installer.Theorems.Paths
import MyDrive.Backup.Control
import MyDrive.Backup.Theorems.Control
import MyDrive.Backup.SecretStore
import MyDrive.Backup.Theorems.SecretStore
