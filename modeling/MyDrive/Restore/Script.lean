import Mathlib.Logic.Function.Basic
import MyDrive.Library.Table

-- `restore.sh` from the point where the services are stopped up to `restore_committed=1`, and the
-- `cleanup` that runs when it is cut off. `α` is what a directory holds, and `δ` a database.

namespace MyDrive.Restore

variable {α δ : Type}

inductive Child
  | objects
  | uploads
  | trash
  | secrets
  deriving DecidableEq

def children : List Child :=
  [.objects, .uploads, .trash, .secrets]

-- `mv` puts a directory inside another one that already has its name.
structure Dir (α : Type) where
  content : α
  inside  : List α := []
  deriving DecidableEq

def Dir.nest (d e : Dir α) : Dir α :=
  { d with inside := d.inside ++ e.content :: e.inside }

abbrev Roots (α : Type) := Child → Option (Dir α)

-- `mv -- "$src/$child" "$dst/$child"`.
def Roots.mv (src dst : Roots α) (c : Child) : Option (Roots α × Roots α) :=
  (src c).map fun d =>
    (Function.update src c none, Function.update dst c (some ((dst c).elim d (·.nest d))))

abbrev Previews (α : Type) := Table String α

-- `mv -- "$src/$child" "$dst/"`, which does not replace a directory that has something in it.
def Previews.mv (src dst : Previews α) (child : String) : Option (Previews α × Previews α) :=
  match src.lookup child, dst.lookup child with
  | some a, none => some (src.erase child, dst.set child a)
  | _, _         => none

-- `blank` is the database that `createdb` makes.
structure Backup (α δ : Type) where
  blank    : δ
  database : δ
  storage  : Child → α
  previews : Previews α

-- `restore_work`: the staging directory, and the `.failed-restore` in it.
structure Work (α : Type) where
  stage  : Roots α := fun _ => none
  failed : Roots α := fun _ => none

structure PreviewWork (α : Type) where
  stage  : Previews α := .empty
  failed : Previews α := .empty

-- `target`, `previous` and `scratch` are the databases of these names, and `live` and `previews` are
-- the children of the two data roots. The directories that do not exist are `none`.
structure State (α δ : Type) where
  target                : Option δ
  previous              : Option δ := none
  scratch               : Option δ := none
  live                  : Roots α
  work                  : Option (Work α) := none
  rollback              : Option (Roots α) := none
  previews              : Previews α
  previewWork           : Option (PreviewWork α) := none
  previewRollback       : Option (Previews α) := none
  scratchCreated        : Bool := false
  storageCutover        : Bool := false
  previewCutover        : Bool := false
  databaseCutover       : Bool := false
  databaseConfirmed     : Bool := false
  storageConfirmed      : Bool := false
  previewConfirmed      : Bool := false
  keepServicesStopped   : Bool := false

-- The state when the services are stopped.
def stopped (target : δ) (live : Roots α) (previews : Previews α) : State α δ :=
  { target := some target, live, previews }

inductive Command
  | createScratch
  | setScratchCreated
  | loadScratch
  | makeWork
  | extract (c : Child)
  | makePreviewWork
  | extractPreview (child : String)
  | makeRollback
  | setStorageCutover
  | moveOut (c : Child)
  | moveIn (c : Child)
  | makePreviewRollback
  | setPreviewCutover
  | previewOut (child : String)
  | previewIn (child : String)
  | setDatabaseCutover
  | renameTarget
  | renameScratch

-- Up to `preview_cutover_started=1`.
def opening (b : Backup α δ) : List Command :=
  [.createScratch, .setScratchCreated, .loadScratch, .makeWork] ++ children.map .extract ++
  [.makePreviewWork] ++ b.previews.keys.map .extractPreview ++ [.makeRollback, .setStorageCutover] ++
  children.map .moveOut ++ children.map .moveIn ++ [.makePreviewRollback]

def script (s : State α δ) (b : Backup α δ) : List Command :=
  opening b ++ [.setPreviewCutover] ++ s.previews.keys.map .previewOut ++
  b.previews.keys.map .previewIn ++ [.setDatabaseCutover, .renameTarget, .renameScratch]

-- Commands in a row, up to the first one that fails.
def each {β γ : Type} (f : γ → β → γ × Bool) : List β → γ → γ × Bool
  | [], s      => (s, true)
  | x :: xs, s =>
    match f s x with
    | (s, true)  => each f xs s
    | (s, false) => (s, false)

namespace State

def moved (s : State α δ) (r : Option (State α δ)) : State α δ × Bool :=
  match r with
  | some s' => (s', true)
  | none    => (s, false)

def exec (b : Backup α δ) (s : State α δ) : Command → State α δ × Bool
  | .createScratch       => ({ s with scratch := some b.blank }, true)
  | .setScratchCreated   => ({ s with scratchCreated := true }, true)
  | .loadScratch         => ({ s with scratch := some b.database }, true)
  | .makeWork            => ({ s with work := some {} }, true)
  | .extract c           =>
    s.moved (s.work.map fun w =>
      { s with work := some { w with stage := Function.update w.stage c (some ⟨b.storage c, []⟩) } })
  | .makePreviewWork     => ({ s with previewWork := some {} }, true)
  | .extractPreview name =>
    s.moved (s.previewWork.bind fun w => (b.previews.lookup name).map fun a =>
      { s with previewWork := some { w with stage := w.stage.set name a } })
  | .makeRollback        => ({ s with rollback := some fun _ => none }, true)
  | .setStorageCutover   => ({ s with storageCutover := true }, true)
  | .moveOut c           =>
    if (s.live c).isSome then
      s.moved (s.rollback.bind fun r => (s.live.mv r c).map fun (live, r) =>
        { s with live, rollback := some r })
    else
      (s, true)
  | .moveIn c            =>
    s.moved (s.work.bind fun w => (w.stage.mv s.live c).map fun (stage, live) =>
      { s with live, work := some { w with stage } })
  | .makePreviewRollback => ({ s with previewRollback := some .empty }, true)
  | .setPreviewCutover   => ({ s with previewCutover := true }, true)
  | .previewOut name     =>
    s.moved (s.previewRollback.bind fun r => (s.previews.mv r name).map fun (previews, r) =>
      { s with previews, previewRollback := some r })
  | .previewIn name      =>
    s.moved (s.previewWork.bind fun w => (w.stage.mv s.previews name).map fun (stage, previews) =>
      { s with previews, previewWork := some { w with stage } })
  | .setDatabaseCutover  => ({ s with databaseCutover := true }, true)
  | .renameTarget        =>
    match s.target, s.previous with
    | some d, none => ({ s with target := none, previous := some d }, true)
    | _, _         => (s, false)
  | .renameScratch       =>
    match s.scratch, s.target with
    | some d, none => ({ s with scratch := none, target := some d }, true)
    | _, _         => (s, false)

-- The state when the script is cut off with `n` of its commands done. A command that fails once it has
-- taken effect counts as done.
def interrupted (s : State α δ) (b : Backup α δ) (n : Nat) : State α δ :=
  (each (exec b) ((script s b).take n) s).1

def rollbackDatabase (s : State α δ) : State α δ × Bool :=
  match s.previous, s.target, s.scratch with
  | some old, some new, none => ({ s with target := some old, previous := none, scratch := some new }, true)
  | some _, some _, some _   => (s, false)
  | some old, none, _        => ({ s with target := some old, previous := none }, true)
  | none, target, _          => (s, target.isSome)

-- The old directory of a child comes back, and the one of the backup goes to `.failed-restore`.
def rollbackChild (s : State α δ) (c : Child) : State α δ × Bool :=
  let (s, ok) :=
    if (s.live c).isSome && (s.work.bind (·.stage c)).isNone then
      s.moved (s.work.bind fun w => (s.live.mv w.failed c).map fun (live, failed) =>
        { s with live, work := some { w with failed } })
    else
      (s, true)
  if !ok then
    (s, false)
  else if (s.rollback.bind (· c)).isSome then
    s.moved (s.rollback.bind fun r => (r.mv s.live c).map fun (r, live) =>
      { s with live, rollback := some r })
  else
    (s, true)

def rollbackStorage (s : State α δ) : State α δ × Bool :=
  if s.rollback.isNone then (s, true) else each rollbackChild children.reverse s

def failPreview (s : State α δ) (name : String) : State α δ × Bool :=
  s.moved (s.previewWork.bind fun w => (s.previews.mv w.failed name).map fun (previews, failed) =>
    { s with previews, previewWork := some { w with failed } })

def returnPreview (s : State α δ) (name : String) : State α δ × Bool :=
  s.moved (s.previewRollback.bind fun r => (r.mv s.previews name).map fun (r, previews) =>
    { s with previews, previewRollback := some r })

def rollbackPreviews (s : State α δ) : State α δ × Bool :=
  match s.previewRollback with
  | none   => (s, true)
  | some r =>
    match each failPreview s.previews.keys s with
    | (s, true)  => each returnPreview r.keys s
    | (s, false) => (s, false)

-- One of the rollbacks of `cleanup`.
def attempt (f : State α δ → State α δ × Bool) (confirm : State α δ → State α δ) (s : State α δ) :
    State α δ :=
  match f s with
  | (s, true)  => confirm s
  | (s, false) => { s with keepServicesStopped := true }

def cleanupDatabase (s : State α δ) : State α δ :=
  if s.databaseCutover then
    s.attempt rollbackDatabase ({ · with databaseConfirmed := true })
  else
    s

def cleanupStorage (s : State α δ) : State α δ :=
  if !s.storageCutover then
    s
  else if s.databaseCutover && !s.databaseConfirmed then
    { s with keepServicesStopped := true }
  else
    s.attempt rollbackStorage ({ · with storageConfirmed := true })

def cleanupPreviews (s : State α δ) : State α δ :=
  if !s.previewCutover then
    s
  else if s.databaseCutover && !s.databaseConfirmed then
    { s with keepServicesStopped := true }
  else
    s.attempt rollbackPreviews ({ · with previewConfirmed := true })

def removeWork (s : State α δ) : State α δ :=
  { s with
    scratch     :=
      if s.scratchCreated && (!s.databaseCutover || s.databaseConfirmed) then none else s.scratch
    work        := if !s.storageCutover || s.storageConfirmed then none else s.work
    previewWork := if !s.previewCutover || s.previewConfirmed then none else s.previewWork }

-- `cleanup` with a status that is not zero, before the restore is committed.
def cleanup (s : State α δ) : State α δ :=
  s.cleanupDatabase.cleanupStorage.cleanupPreviews.removeWork

end State
end MyDrive.Restore
