import MyDrive.Library.Bytes
import MyDrive.Library.Fragments
import MyDrive.Backup.Redactor

-- `ControlServer.HandleAsync` and `PipeProtocol`: requests and responses between the window and the service.

namespace MyDrive.Backup.Control

open Bytes Fragments

abbrev Text := List Char

-- The JSON library. A `Value` is a `JsonElement`; the errors are the texts of its exceptions.
structure Json where
  Value      : Type
  text       : Value → List UInt8
  parse      : List UInt8 → Option Value
  object     : List (String × Value) → Value
  string     : Text → Value
  bool       : Bool → Value
  property   : Value → String → Except Text (Option Value)
  getString  : Value → Except Text (Option Text)
  isString   : Value → Bool
  isTrue     : Value → Bool
  missing    : String → Text
  parse_text : ∀ v, parse (text v) = some v
  parse_nil  : parse [] = none

variable (J : Json)

-- What the server asks of the engine.
inductive Call
  | ping
  | status
  | jobs
  | upsert (job : J.Value)
  | delete (id : Text)
  | pause (id : Text)
  | resume (id : Text)
  | pauseAll
  | resumeAll
  | backupNow (id : Option Text)
  | queue
  | activity (filter : Option Text)
  | settings
  | saveSettings (settings : J.Value)
  | logs
  | clearLogs
  | exportLogs
  | testServer (url : Text) (allowInsecure : Bool)
  | setServer (url : Text) (allowInsecure confirm : Bool)
  | beginAuthorization
  | authorization
  | logout
  | rebuild (confirm : Bool)
  | verify (confirm : Bool)
  | versions (fileId : Text)
  | notifications

inductive Problem
  | confirmationRequired (message : Text)
  | incompatibleServer (message : Text)
  | insecureConnection (message : Text)
  | other (message : Text)

abbrev Engine := Call J → Except Problem J.Value

namespace Json

def lookUp (request : J.Value) (name : String) : Except Problem (Option J.Value) :=
  (J.property request name).mapError .other

def readString (v : J.Value) : Except Problem (Option Text) :=
  (J.getString v).mapError .other

def required (request : J.Value) (name : String) : Except Problem Text := do
  match ← J.lookUp request name with
  | some v => return (← J.readString v).getD []
  | none   => return []

def optional (request : J.Value) (name : String) : Except Problem (Option Text) := do
  match ← J.lookUp request name with
  | some v => if J.isString v then J.readString v else return none
  | none   => return none

def flag (request : J.Value) (name : String) : Except Problem Bool := do
  return (← J.lookUp request name).any J.isTrue

def getProperty (request : J.Value) (name : String) : Except Problem J.Value := do
  match ← J.lookUp request name with
  | some v => return v
  | none   => throw (.other (J.missing name))

def ok (result : J.Value) : J.Value :=
  J.object [("ok", J.bool true), ("result", result)]

def fail (error : String) (message : Text) : J.Value :=
  J.object [("ok", J.bool false), ("error", J.string error.toList), ("message", J.string message)]

end Json

def confirmed (request : J.Value) (message : String) : Except Problem Unit := do
  if !(← J.flag request "confirm") then throw (.confirmationRequired message.toList)

-- The result of a method. What the engine answers to a call becomes `done` where the source drops it.
def dispatch (engine : Engine J) (request : J.Value) : Except Problem J.Value := do
  let method ← match ← J.lookUp request "method" with
    | some v => J.readString v
    | none   => pure none
  let done (call : Call J) (name : String) (value : Bool) : Except Problem J.Value := do
    let _ ← engine call
    return J.object [(name, J.bool value)]
  match method.map String.ofList with
  | some "ping"                => engine .ping
  | some "status"              => engine .status
  | some "jobs.list"           => engine .jobs
  | some "jobs.upsert"         => engine (.upsert (← J.getProperty request "job"))
  | some "jobs.delete"         =>
    confirmed J request "Removing a backup job does not delete files already stored on the server."
    done (.delete (← J.required request "id")) "removed" true
  | some "pause"               => done (.pause (← J.required request "id")) "paused" true
  | some "resume"              => done (.resume (← J.required request "id")) "paused" false
  | some "pauseAll"            => done .pauseAll "paused" true
  | some "resumeAll"           => done .resumeAll "paused" false
  | some "backup.now"          => done (.backupNow (← J.optional request "id")) "queued" true
  | some "queue"               => engine .queue
  | some "activity"            =>
    match ← J.lookUp request "filter" with
    | some v => engine (.activity (← J.readString v))
    | none   => engine (.activity (some "All".toList))
  | some "settings.get"        => engine .settings
  | some "settings.set"        => engine (.saveSettings (← J.getProperty request "settings"))
  | some "logs.list"           => engine .logs
  | some "logs.clear"          =>
    confirmed J request "Clear the local troubleshooting log?"
    done .clearLogs "cleared" true
  | some "logs.export"         => return J.object [("text", ← engine .exportLogs)]
  | some "server.test"         =>
    engine (.testServer (← J.required request "url") (← J.flag request "allowInsecure"))
  | some "server.set"          =>
    engine (.setServer (← J.required request "url") (← J.flag request "allowInsecure") (← J.flag request "confirm"))
  | some "auth.begin"          => engine .beginAuthorization
  | some "auth.status"         => engine .authorization
  | some "auth.logout"         =>
    confirmed J request ("Disconnect this device from the server? Backup jobs stay on this computer, and " ++
      "cloud files stay on the server.")
    done .logout "disconnected" true
  | some "index.rebuild"       => done (.rebuild (← J.flag request "confirm")) "rebuilt" true
  | some "integrity.verify"    => done (.verify (← J.flag request "confirm")) "verified" true
  | some "versions"            => engine (.versions (← J.required request "fileId"))
  | some "notifications.drain" => engine .notifications
  | _                          => throw (.other "Unknown control method.".toList)

def handle (C : Redactor.Culture) (engine : Engine J) (request : J.Value) : J.Value :=
  match dispatch J engine request with
  | .ok result                             => J.ok result
  | .error (.confirmationRequired message) => J.fail "confirmation_required" message
  | .error (.incompatibleServer message)   => J.fail "incompatible_server" message
  | .error (.insecureConnection message)   => J.fail "insecure_connection" message
  | .error (.other message)                => J.fail "error" (C.redact (some message))

def maxBytes : Nat := 2000000

-- The longest array of the runtime.
def maxArray : Nat := 2147483591

-- `BitConverter` uses the byte order of the machine.
def getBytes (littleEndian : Bool) (n : Nat) : List UInt8 :=
  if littleEndian then toLe 4 n else (toLe 4 n).reverse

def toInt32 (littleEndian : Bool) (bytes : List UInt8) : Int :=
  let n := fromLe (if littleEndian then bytes else bytes.reverse)
  if n < 2147483648 then n else n - 4294967296

inductive PipeError
  | closed
  | tooLarge
  | json
  deriving DecidableEq

-- `none` is a text that fits into no array.
def writeAsync (littleEndian : Bool) (payload : J.Value) : Option (List UInt8) :=
  let bytes := J.text payload
  if maxArray < bytes.length then none
  else
    let length := getBytes littleEndian bytes.length
    some ((if littleEndian then length else length.reverse) ++ bytes)

def readFully (n : Nat) (stream : List (List UInt8)) : Except PipeError (List UInt8 × List (List UInt8)) :=
  match readExact n stream with
  | some r => .ok r
  | none   => .error .closed

def parseDocument (payload : List UInt8 × List (List UInt8)) : Except PipeError (J.Value × List (List UInt8)) :=
  match J.parse payload.1 with
  | some v => .ok (v, payload.2)
  | none   => .error .json

def readAsync (littleEndian : Bool) (stream : List (List UInt8)) : Except PipeError (J.Value × List (List UInt8)) := do
  let (lengthBytes, stream) ← readFully 4 stream
  let length := toInt32 littleEndian (if littleEndian then lengthBytes else lengthBytes.reverse)
  if length ≤ 0 || length > maxBytes then throw .tooLarge
  parseDocument J (← readFully length.toNat stream)

end MyDrive.Backup.Control
