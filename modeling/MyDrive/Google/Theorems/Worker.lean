import MyDrive.Google.Theorems.Sound

-- What the worker knows of its item while it works on it. The row may go at any time, with its source.

namespace MyDrive.Google

open Transfers

def Item.Commits (x : Item) (o k : Id) (c : String) (n : Nat) : Prop :=
  x.state = .committing ∧ x.storageObjectId = some o ∧ x.stagingKey = some k ∧
  x.checksum = some c ∧ x.bytesDownloaded = n

namespace Rows

def Claimed (s : Rows) (id : Id) : Prop :=
  ∀ x, s.items.lookup id = some x → x.state = .downloading

def Unkeyed (s : Rows) (k : Id) : Prop :=
  k < s.store.next ∧ ∀ i x, s.items.lookup i = some x → x.stagingKey ≠ some k

-- The worker downloads to the staging file `k`.
structure Fetches (s : Rows) (id k : Id) : Prop where
  claimed : s.Claimed id
  row {x} : s.items.lookup id = some x → x.stagingKey = some k
  key {i x} : s.items.lookup i = some x → x.stagingKey = some k → i = id
  bound : k < s.store.next

-- The worker finishes the commit of the object `o`.
structure Handles (s : Rows) (id o k : Id) (c : String) (n : Nat) : Prop where
  row {x} : s.items.lookup id = some x → x.Commits o k c n
  object {i x} : s.items.lookup i = some x → x.storageObjectId = some o → i = id
  key {i x} : s.items.lookup i = some x → x.stagingKey = some k → i = id
  objectBound : o < s.store.next
  keyBound : k < s.store.next

-- A step of somebody else, as the worker sees it.
structure Aside (s s' : Rows) : Prop where
  next : s.store.next ≤ s'.store.next
  staging {k b} : s'.store.staging.lookup k = some b →
    s.store.staging.lookup k = some b ∨ s.store.next ≤ k
  item {i x'} : s'.items.lookup i = some x' →
    (∃ x, s.items.lookup i = some x ∧ x.Fades x' ∧ x'.state = x.state ∧ x'.stagingKey = x.stagingKey) ∨
    s.store.next ≤ i ∧ x'.stagingKey = none ∧ x'.storageObjectId = none

variable {s s' : Rows} {id o k n : Id} {c : String}

-- A row that the worker knows is not a new one.
theorem Aside.known {x' : Item} (h : s.Aside s') (hi : id < s.store.next)
    (hx' : s'.items.lookup id = some x') :
    ∃ x, s.items.lookup id = some x ∧ x.Fades x' ∧ x'.state = x.state ∧
      x'.stagingKey = x.stagingKey := by
  obtain hx | ⟨hn, -⟩ := h.item hx'
  case inl => exact hx
  case inr => exact absurd hi (Nat.not_lt_of_le hn)

theorem Claimed.aside (h : s.Claimed id) (ha : s.Aside s') (hi : id < s.store.next) :
    s'.Claimed id := by
  intro x' hx'
  obtain ⟨x, hx, -, hs, -⟩ := ha.known hi hx'
  exact hs.trans (h x hx)

theorem Unkeyed.aside (h : s.Unkeyed k) (ha : s.Aside s') : s'.Unkeyed k := by
  refine ⟨Nat.lt_of_lt_of_le h.left ha.next, fun i x' hx' => ?_⟩
  obtain ⟨x, hx, -, -, hk⟩ | ⟨-, hk, -⟩ := ha.item hx'
  case inl => exact hk ▸ h.right i x hx
  case inr => simp [hk]

theorem Aside.key {i : Id} {x' : Item} (ha : s.Aside s') (hx' : s'.items.lookup i = some x')
    (hk : x'.stagingKey = some k) : ∃ x, s.items.lookup i = some x ∧ x.stagingKey = some k := by
  obtain ⟨x, hx, -, -, he⟩ | ⟨-, he, -⟩ := ha.item hx'
  case inl => exact ⟨x, hx, he.symm.trans hk⟩
  case inr => cases he.symm.trans hk

theorem Fetches.aside (h : s.Fetches id k) (ha : s.Aside s') (hi : id < s.store.next) :
    s'.Fetches id k where
  claimed    := h.claimed.aside ha hi
  bound      := Nat.lt_of_lt_of_le h.bound ha.next
  row hx'    := by
    obtain ⟨x, hx, -, -, hk⟩ := ha.known hi hx'
    exact hk.trans (h.row hx)
  key hx' hk := by
    obtain ⟨x, hx, hk⟩ := ha.key hx' hk
    exact h.key hx hk

theorem Handles.aside (h : s.Handles id o k c n) (ha : s.Aside s') (hi : id < s.store.next) :
    s'.Handles id o k c n where
  objectBound := Nat.lt_of_lt_of_le h.objectBound ha.next
  keyBound    := Nat.lt_of_lt_of_le h.keyBound ha.next
  row hx'     := by
    obtain ⟨x, hx, hf, hs, -⟩ := ha.known hi hx'
    have commits := h.row hx
    rw [hf.committing (hs.trans commits.left)]
    exact commits
  object hx' ho := by
    obtain ⟨x, hx, hf, -, -⟩ | ⟨-, -, he⟩ := ha.item hx'
    case inl => exact h.object hx (hf.object ho)
    case inr => cases he.symm.trans ho
  key hx' hk  := by
    obtain ⟨x, hx, hk⟩ := ha.key hx' hk
    exact h.key hx hk

end Rows

variable [Digest]

def StagedFile.Staged (f : StagedFile) (s : Rows) : Prop :=
  ∀ b, s.store.staging.lookup f.stagingKey = some b → Rows.Content f.size f.checksum b

def DownloadStage.Holds (s : Rows) (id : Id) : DownloadStage → Prop
  | .claimed      => s.Claimed id
  | .created k    => s.Claimed id ∧ s.Unkeyed k
  | .keyed k      => s.Fetches id k
  | .staged f     => s.Fetches id f.stagingKey ∧ f.Staged s
  | .committed f  => ∃ o, s.Handles id o f.stagingKey f.checksum f.size
  | .located f o  => s.Handles id o f.stagingKey f.checksum f.size
  | .promoted f o => s.Handles id o f.stagingKey f.checksum f.size

def ResumeStage.At (o : Id) : ResumeStage → Prop
  | .selected    => True
  | .known o'    => o' = o
  | .finishing o' => o' = o

def Work.Holds (s : Rows) : Work → Prop
  | .download id _ stage  => id < s.store.next ∧ stage.Holds s id
  | .resume id item stage => id < s.store.next ∧ ∃ o k c, item.storageObjectId = some o ∧
    item.stagingKey = some k ∧ item.checksum = some c ∧
    s.Handles id o k c item.bytesDownloaded ∧ stage.At o

theorem StagedFile.Staged.aside {s s' : Rows} {f : StagedFile} (h : f.Staged s) (ha : s.Aside s')
    (hk : f.stagingKey < s.store.next) : f.Staged s' := by
  intro b hb
  obtain hb | hn := ha.staging hb
  case inl => exact h b hb
  case inr => exact absurd hk (Nat.not_lt_of_le hn)

theorem Work.Holds.aside {s s' : Rows} {w : Work} (h : w.Holds s) (ha : s.Aside s') : w.Holds s' := by
  cases w
  case download id item stage =>
    obtain ⟨hi, h⟩ := h
    refine ⟨Nat.lt_of_lt_of_le hi ha.next, ?_⟩
    cases stage <;> simp only [DownloadStage.Holds] at h ⊢
    case claimed   => exact h.aside ha hi
    case created   => exact ⟨h.left.aside ha hi, h.right.aside ha⟩
    case keyed     => exact h.aside ha hi
    case staged    => exact ⟨h.left.aside ha hi, h.right.aside ha h.left.bound⟩
    case committed =>
      obtain ⟨o, h⟩ := h
      exact ⟨o, h.aside ha hi⟩
    case located   => exact h.aside ha hi
    case promoted  => exact h.aside ha hi
  case resume id item stage =>
    obtain ⟨hi, o, k, c, ho, hk, hc, h, hs⟩ := h
    exact ⟨Nat.lt_of_lt_of_le hi ha.next, o, k, c, ho, hk, hc, h.aside ha hi, hs⟩

end MyDrive.Google
