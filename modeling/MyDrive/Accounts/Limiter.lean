import MyDrive.Library.Execution
import MyDrive.Library.Table

-- `LoginRateLimiter`, whose calls take a lock one after the other. An identity stands for its digest,
-- and an `Instant` is a number of nanoseconds.

namespace MyDrive.Accounts.Limiter

def loginFailureLimit : Nat := 10

def second : Nat := 1000000000

def loginFailureWindow : Nat := 15 * 60 * second

def maxLoginIdentities : Nat := 10000

variable {κ : Type} [DecidableEq κ]

-- What is in the window before `now`.
def inWindow (now : Nat) (failedAt : List Nat) : List Nat :=
  failedAt.filter fun t => now - t < loginFailureWindow

-- Each identity with the instants of its failures, the oldest in front.
abbrev Buckets (κ : Type) := Table κ (List Nat)

namespace Buckets

variable (b : Buckets κ)

def prune (now : Nat) : Buckets κ :=
  b.filterMap fun _ failedAt =>
    let kept := inWindow now failedAt
    if kept = [] then none else some kept

def retryAfter (identity : κ) (now : Nat) : Option Nat :=
  ((b.prune now).lookup identity).bind fun failedAt =>
    if failedAt.length < loginFailureLimit then none
    else failedAt.head?.map fun oldest =>
      max ((loginFailureWindow - (now - oldest)) / second) 1

-- No bucket has a latest failure that is older. A bucket without failures comes first.
def isOldest (identity : κ) : Bool :=
  (b.lookup identity).any fun failedAt =>
    !b.any fun _ other => failedAt.getLast?.any fun t => other.getLast?.all (· < t)

-- The bucket that has to go is one of the oldest.
def recordFailure (identity : κ) (now : Nat) (victim : κ) : Option (Buckets κ × List κ) :=
  let b := b.prune now
  let add (b : Buckets κ) := b.set identity ((b.lookup identity).getD [] ++ [now])
  if (b.lookup identity).isNone && maxLoginIdentities ≤ b.rows.length then
    if b.isOldest victim then some (add (b.erase victim), [victim]) else none
  else
    some (add b, [])

end Buckets

inductive Event (κ : Type)
  | failed (identity : κ) (now : Nat)
  | cleared (identity : κ)
  | evicted (identity : κ)
  deriving DecidableEq

-- `history` has the latest event first.
structure State (κ : Type) where
  buckets : Buckets κ := .empty
  clock   : Nat := 0
  history : List (Event κ) := []

inductive Call (κ : Type)
  | recordFailure (identity : κ) (now : Nat) (victim : κ)
  | clear (identity : κ)
  | retryAfter (identity : κ) (now : Nat)

-- The times do not decrease.
def State.step (s : State κ) : Call κ → Option (State κ)
  | .recordFailure identity now victim =>
    if s.clock ≤ now then
      (s.buckets.recordFailure identity now victim).map fun p =>
        { buckets := p.1
          clock   := now
          history := .failed identity now :: p.2.map .evicted ++ s.history }
    else
      none
  | .clear identity                    =>
    some { s with buckets := s.buckets.erase identity, history := .cleared identity :: s.history }
  | .retryAfter _ now                  =>
    if s.clock ≤ now then some { s with buckets := s.buckets.prune now, clock := now } else none

-- The failures of an identity since it was cleared or evicted.
def failures (identity : κ) : List (Event κ) → List Nat
  | []                      => []
  | .failed other now :: es =>
    if other = identity then failures identity es ++ [now] else failures identity es
  | .cleared other :: es    => if other = identity then [] else failures identity es
  | .evicted other :: es    => if other = identity then [] else failures identity es

def Blocked (history : List (Event κ)) (identity : κ) (now : Nat) : Prop :=
  loginFailureLimit ≤ (inWindow now (failures identity history)).length

-- What holds of a limiter when it is asked about an identity.
structure Lawful (s : State κ) (identity : κ) (now : Nat) : Prop where
  blocked : (s.buckets.retryAfter identity now).isSome ↔ Blocked s.history identity now
  bounded : s.buckets.rows.length ≤ maxLoginIdentities
  evicts  : ∀ other t victim b gone, s.clock ≤ t →
    s.buckets.recordFailure other t victim = some (b, gone) →
      ∀ evicted ∈ gone, ∀ kept failedAt, b.lookup kept = some failedAt →
        ∀ latest ∈ (failures evicted s.history).getLast?, ∀ latest' ∈ failedAt.getLast?, latest ≤ latest'
  delay   : ∀ n, s.buckets.retryAfter identity now = some n →
    ¬ Blocked s.history identity (now + n * second)

-- The failure after which no more are left than may be, when it leaves the window.
def decisive (failedAt : List Nat) : Option Nat :=
  failedAt[failedAt.length - loginFailureLimit]?

-- It does so within a second, or together with the oldest and after a whole number of seconds.
def Prompt (history : List (Event κ)) (identity : κ) (now : Nat) : Prop :=
  let failedAt := inWindow now (failures identity history)
  loginFailureLimit ≤ failedAt.length → ∀ t ∈ decisive failedAt,
    loginFailureWindow - (now - t) ≤ second ∨
      (failedAt.head? = some t ∧ second ∣ loginFailureWindow - (now - t))

end MyDrive.Accounts.Limiter
