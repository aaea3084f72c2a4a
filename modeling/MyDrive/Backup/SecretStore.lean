import MyDrive.Library.Table

-- `SecretStore.cs`: the secrets of a device, in one file that every change rewrites.

namespace MyDrive.Backup.Secrets

abbrev Dictionary := Table String String

-- `JsonSerializer` on dictionaries. `none` is an exception, `some none` the text `null`.
structure Json where
  serialize             : Dictionary → List UInt8
  deserialize           : List UInt8 → Option (Option Dictionary)
  deserialize_serialize : ∀ d, ∃ d', deserialize (serialize d) = some (some d') ∧ ∀ k, d'.lookup k = d.lookup k
  deserialize_cut       : ∀ d bytes, bytes <+: serialize d → bytes ≠ serialize d → deserialize bytes = none

-- `AesGcm` with tags of 16 bytes: the cipher and the tag of a key, a nonce and a text.
structure AesGcm where
  encrypt         : List UInt8 → List UInt8 → List UInt8 → List UInt8 × List UInt8
  decrypt         : List UInt8 → List UInt8 → List UInt8 × List UInt8 → Option (List UInt8)
  length_tag      : ∀ key nonce plain, (encrypt key nonce plain).2.length = 16
  decrypt_encrypt : ∀ key nonce plain, decrypt key nonce (encrypt key nonce plain) = some plain
  decrypt_cut     : ∀ key nonce plain cipher, cipher <+: (encrypt key nonce plain).1 →
    cipher ≠ (encrypt key nonce plain).1 → decrypt key nonce (cipher, (encrypt key nonce plain).2) = none

-- `ProtectedData` and Base64. What protects a text is random.
structure Dpapi where
  protect           : List UInt8 → String → String
  unprotect         : String → Option String
  unprotect_protect : ∀ noise text, unprotect (protect noise text) = some text

inductive Error
  | cryptographic
  | json

inductive Call
  | save (key value : String)
  | delete (key : String)

namespace Call

def apply (d : Dictionary) : Call → Dictionary
  | save key value => d.set key value
  | delete key     => d.erase key

-- Deleting what is not there writes nothing.
def persists (d : Dictionary) : Call → Bool
  | save ..    => true
  | delete key => (d.lookup key).isSome

-- The same call with another value.
def withValue (f : String → String) : Call → Call
  | save key value => .save key (f value)
  | delete key     => .delete key

end Call

-- `File.WriteAllBytes`, for a call that throws, writes nothing or writes new contents.
def written (file : Option (List UInt8)) : Except Error (Option (List UInt8)) → Option (List UInt8)
  | .ok (some payload) => some payload
  | _                  => file

-- A crash after so many bytes, or before the file is touched.
def interrupted (file : Option (List UInt8)) (cut : Option Nat) :
    Except Error (Option (List UInt8)) → Option (List UInt8)
  | .ok (some payload) => cut.elim file fun n => some (payload.take n)
  | _                  => file

namespace AesSecretStore

abbrev Key := { bytes : List UInt8 // bytes.length = 32 }

abbrev Nonce := { bytes : List UInt8 // bytes.length = 12 }

structure Directory where
  key : Option (List UInt8)
  bin : Option (List UInt8)

structure Store where
  key    : List UInt8
  values : Dictionary

-- The sizes that the constructor of `AesGcm` takes.
def validSize (key : List UInt8) : Bool :=
  key.length = 16 || key.length = 24 || key.length = 32

variable (J : Json) (A : AesGcm)

-- The values in a decrypted text.
def values : Option (List UInt8) → Except Error Dictionary
  | none       => .error .cryptographic
  | some plain =>
    match J.deserialize plain with
    | none   => .error .json
    | some d => .ok (d.getD .empty)

def load (key : List UInt8) : Option (List UInt8) → Except Error Dictionary
  | none         => .ok .empty
  | some payload =>
    if payload.length < 12 + 16 then .ok .empty
    else if !validSize key then .error .cryptographic
    else values J (A.decrypt key (payload.take 12) (payload.drop 28, (payload.drop 12).take 16))

-- The constructor. A new key is random.
def new (random : Key) (dir : Directory) : Directory × Except Error Store :=
  let key := dir.key.getD random.val
  ({ dir with key }, (load J A key dir.bin).map fun values => { key, values })

def persist (s : Store) (nonce : Nonce) : Except Error (List UInt8) :=
  if !validSize s.key then .error .cryptographic
  else
    let (cipher, tag) := A.encrypt s.key nonce.val (J.serialize s.values)
    .ok (nonce.val ++ tag ++ cipher)

-- What a call leaves in memory and what it writes. The memory changes also where the call throws.
def perform (s : Store) (call : Call) (nonce : Nonce) : Store × Except Error (Option (List UInt8)) :=
  let s' := { s with values := call.apply s.values }
  (s', if call.persists s.values then (persist J A s' nonce).map some else .ok none)

def Store.load (s : Store) (key : String) : Option String :=
  s.values.lookup key

def run (s : Store) (file : Option (List UInt8)) : List (Call × Nonce) → Store × Option (List UInt8)
  | []            => (s, file)
  | (c, n) :: cs =>
    let (s', w) := perform J A s c n
    run s' (written file w) cs

end AesSecretStore

namespace DpapiSecretStore

variable (J : Json) (P : Dpapi)

-- The constructor, on Windows. A store holds the protected values.
def new : Option (List UInt8) → Except Error Dictionary
  | none       => .ok .empty
  | some bytes =>
    match J.deserialize bytes with
    | none          => .error .json
    | some envelope => .ok (envelope.getD .empty)

def perform (s : Dictionary) (call : Call) (noise : List UInt8) : Dictionary × Except Error (Option (List UInt8)) :=
  let s' := (call.withValue (P.protect noise)).apply s
  (s', .ok (if call.persists s then some (J.serialize s') else none))

-- `none` is an exception.
def load (s : Dictionary) (key : String) : Option (Option String) :=
  match s.lookup key with
  | none         => some none
  | some encoded => (P.unprotect encoded).map some

def run (s : Dictionary) (file : Option (List UInt8)) : List (Call × List UInt8) → Dictionary × Option (List UInt8)
  | []            => (s, file)
  | (c, n) :: cs =>
    let (s', w) := perform J P s c n
    run s' (written file w) cs

end DpapiSecretStore

end MyDrive.Backup.Secrets
