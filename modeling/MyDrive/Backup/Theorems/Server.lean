import MyDrive.Backup.Exchange
import MyDrive.Transfers.Theorems.History
import MyDrive.Transfers.Theorems.Patch

-- The server's side: an upload never holds anything but the first bytes of the file, and an object of
-- an upload is the file.

namespace MyDrive.Backup.Wire

open Transfers

namespace Server

variable {s s' : Server} {u w k : Id} {x : Session} {up : Upload} {r : Receiving}

-- The offsets of the uploads only go up.
def Grows (store store' : Store) : Prop :=
  ∀ {u x}, store.sessions.lookup u = some x →
    ∃ x', store'.sessions.lookup u = some x' ∧ x.receivedSize ≤ x'.receivedSize

theorem Grows.refl {store : Store} : Grows store store :=
  fun hx => ⟨_, hx, Nat.le_refl _⟩

theorem upload_eq_some (hu : s.upload u = some up) :
    ∃ x, s.store.sessions.lookup u = some x ∧ s.store.staging.lookup x.stagingKey = some up.staging ∧
      up.session = x.toUploadSession ∧ up.patch = (s.patches.lookup u).map (·.patch) := by
  simp only [upload, Option.bind_eq_some_iff, Option.map_eq_some_iff] at hu
  obtain ⟨x, hx, staging, hs, rfl⟩ := hu
  exact ⟨x, hx, hs, rfl, rfl⟩

@[simp]
theorem lookup_sessions_put : (s.put u k up).store.sessions.lookup w =
    (s.store.sessions.lookup w).map fun x =>
      if w = u then { x with toUploadSession := up.session } else x := by
  simp [put]

@[simp]
theorem history_put : (s.put u k up).store.history = s.store.history :=
  rfl

@[simp]
theorem payloads_put : (s.put u k up).store.payloads = s.store.payloads :=
  rfl

theorem upload_put_self {patches : Table Id Receiving} (hx : s.store.sessions.lookup u = some x)
    (hp : (patches.lookup u).map (·.patch) = up.patch) :
    { s.put u x.stagingKey up with patches }.upload u = some up := by
  simp only [upload, lookup_sessions_put, hx, Option.map_some, if_true, Option.bind_some]
  simp [put, hp]

theorem upload_put_of_ne {patches : Table Id Receiving} (h : s.store.Recorded)
    (hx : s.store.sessions.lookup u = some x) (hw : w ≠ u)
    (hp : patches.lookup w = s.patches.lookup w) :
    { s.put u x.stagingKey up with patches }.upload w = s.upload w := by
  simp only [upload, lookup_sessions_put]
  cases hy : s.store.sessions.lookup w
  case none => rfl
  case some y =>
    have key : y.stagingKey ≠ x.stagingKey := fun he => hw (h.keys hy hx he)
    simp [put, hw, key, hp]

-- What a label does to an upload, when the server is given the upload back.
structure Fed (s : Server) (u : Id) (l : Label) (r : Receiving) (x : Session) (up : Upload)
    (rest : List UInt8) (up' : Upload) : Prop where
  patch : s.patches.lookup u = some r
  row   : s.store.sessions.lookup u = some x
  view  : s.upload u = some up
  held  : up.patch = some r.patch
  same  : up.session = x.toUploadSession
  fed   : r.feed l = some rest
  step  : up.step l = some up'

theorem stepPatch_eq_some {l : Label} {q : Receiving × Upload × Server}
    (h : s.stepPatch u l = some q) : ∃ r x up rest up' patches, s.Fed u l r x up rest up' ∧
      (∀ w, w ≠ u → patches.lookup w = s.patches.lookup w) ∧
      patches.lookup u = up'.patch.map (fun patch => { r with patch, rest }) ∧
      q = (r, up', { s.put u x.stagingKey up' with patches }) := by
  simp only [stepPatch, Option.bind_eq_some_iff, Option.map_eq_some_iff] at h
  obtain ⟨r, hr, x, hx, up, hu, rest, hf, up', hs, rfl⟩ := h
  obtain ⟨_, hx', _, same, held⟩ := upload_eq_some hu
  cases hx.symm.trans hx'
  rw [hr] at held
  refine ⟨r, x, up, rest, up', _, ⟨hr, hx, hu, held, same, hf, hs⟩, fun w hw => ?_, ?_, rfl⟩
  case refine_1 => split <;> simp [hw]
  case refine_2 => split <;> simp [*]

end Server

variable {up up' : Upload} {l : Label}

-- A label either leaves the bodies that have committed, or adds that of the request.
theorem accepted_of_step (hs : up.step l = some up') :
    up'.accepted = up.accepted ∧ up'.session = up.session ∧ l ≠ .commit ∨ ∃ p, up.patch = some p ∧
      p.phase = .updated ∧ up'.accepted = up.accepted ++ [p.body] ∧ up'.patch = none ∧
      up'.session = { up.session with receivedSize := p.currentOffset + p.body.length } ∧
      l = .commit := by
  rcases hp : up.patch with _ | p
  case none =>
    cases l <;> simp only [Upload.step, hp, reduceCtorEq] at hs
    split at hs <;> cases hs <;> exact .inl ⟨rfl, rfl, (by simp)⟩
  case some =>
    cases l <;> rcases hf : p.phase <;> simp only [Upload.step, hp, hf, reduceCtorEq] at hs
    case frame.streaming =>
      cases hs
      rw [Upload.writeFrame]
      split <;> exact .inl ⟨rfl, rfl, (by simp)⟩
    case commit.updated => cases hs; exact .inr ⟨p, rfl, hf, rfl, rfl, rfl, rfl⟩
    case open.locked    => split at hs <;> cases hs <;> exact .inl ⟨rfl, rfl, (by simp)⟩
    case torn.streaming => split at hs <;> cases hs; exact .inl ⟨rfl, rfl, (by simp)⟩
    all_goals cases hs; exact .inl ⟨rfl, rfl, (by simp)⟩

variable [Digest]

-- A `PATCH` on an upload that is active, of which what has come in is where it belongs in the file.
structure Receives (g : Setting) (store : Store) (u : Id) (r : Receiving) : Prop where
  active  : ∃ x, store.sessions.lookup u = some x ∧ x.state = .active
  request : ∃ body, r.request = .patch u r.patch.currentOffset body
  body    : r.patch.body <+: g.file.drop r.patch.currentOffset
  rest    : r.patch.phase = .locked ∨ r.patch.phase = .streaming →
    r.patch.body ++ r.rest <+: g.file.drop r.patch.currentOffset
  filled  : r.patch.phase = .ended ∨ r.patch.phase = .synced ∨ r.patch.phase = .updated →
    r.patch.body ≠ []

def Stored (g : Setting) (store : Store) (u : Id) : Prop :=
  ∃ x o, store.sessions.lookup u = some x ∧ x.state = .completed ∧ x.storageObjectId = some o ∧
    store.payloads.lookup o = some g.file

-- What a finalization knows. As the hash is that of the file, no upload is rejected.
def Knows (g : Setting) (store : Store) (c : Finalize) : Prop :=
  match c.stage with
  | .hashed t _                 => store.payloads.lookup t.objectId = some g.file
  | .completed _ _              => Stored g store c.upload
  | .mismatched _ | .rejected _ => False
  | _                           => True

-- The bytes of an upload that is not closed are in its staging file, or in its object.
def Live (store : Store) (x : Session) : Prop :=
  (x.state = .active → (store.staging.lookup x.stagingKey).isSome) ∧
  (x.state = .finalizing → ∃ o, x.storageObjectId = some o ∧
    ((store.staging.lookup x.stagingKey).isSome ∨ (store.payloads.lookup o).isSome))

namespace Server

structure Sound (g : Setting) (s : Server) : Prop where
  recorded : s.store.Recorded
  size {u x} : s.store.sessions.lookup u = some x → x.expectedSize = g.file.length
  upload {u up} : s.upload u = some up → up.Inv ∧ up.accepted.flatten <+: g.file
  patch {u r} : s.patches.lookup u = some r → Receives g s.store u r
  full {u o v f} : .reserved u o v f ∈ s.store.history →
    ∃ x, s.store.sessions.lookup u = some x ∧ x.state ≠ .active ∧ x.receivedSize = x.expectedSize
  payload {o bytes} : s.store.payloads.lookup o = some bytes → bytes = g.file ∧ o < s.store.next
  completed {u x} : s.store.sessions.lookup u = some x → x.state = .completed → Stored g s.store u
  returned {u r} : .returned u r ∈ s.store.history → Stored g s.store u
  call {i c} : s.calls.lookup i = some c →
    c.checksum = some (some g.hash) ∧ c.Bound s.store ∧ Knows g s.store c
  fresh {u bodies} : s.accepted.lookup u = some bodies → u < s.store.next
  live {u x} : s.store.sessions.lookup u = some x → Live s.store x
  cleaning {u k} : (u, k) ∈ s.cleaning →
    ∃ x, s.store.sessions.lookup u = some x ∧ x.stagingKey = k ∧ (x.state = .expired ∨ x.state = .failed)

variable {g : Setting} {s s' : Server} {u w k : Id} {x : Session} {up : Upload} {r : Receiving}

-- The staging file of an upload that is complete is the file.
theorem Sound.staged {o v f : Id} {bytes : List UInt8} (h : s.Sound g)
    (hr : .reserved u o v f ∈ s.store.history) (hx : s.store.sessions.lookup u = some x)
    (hb : s.store.staging.lookup x.stagingKey = some bytes) : bytes = g.file := by
  obtain ⟨x', hx', -, full⟩ := h.full hr
  cases hx.symm.trans hx'
  have view : s.upload u = some {
      session  := x.toUploadSession
      staging  := bytes
      patch    := (s.patches.lookup u).map (·.patch)
      accepted := (s.accepted.lookup u).getD [] } := by
    simp [Server.upload, hx, hb]
  obtain ⟨inv, content⟩ := h.upload view
  have size := h.size hx
  have length : bytes.length = x.receivedSize := (inv.complete full).trans full.symm
  have whole := inv.prefixed
  dsimp only at whole content
  rw [← length, List.take_length] at whole
  rw [← whole] at content
  exact content.eq_of_length (by omega)

end Server

variable {g : Setting} {store store' : Store} {u : Id} {r : Receiving} {p : Patch}
  {rest : List UInt8}

-- What a label does to the body of the request.
theorem Receives.body_step (h : Receives g store u r) (hu : up.patch = some r.patch)
    (hf : r.feed l = some rest) (hs : up.step l = some up') (hp : up'.patch = some p) :
    p.currentOffset = r.patch.currentOffset ∧ p.body <+: g.file.drop p.currentOffset ∧
      (p.phase = .locked ∨ p.phase = .streaming → p.body ++ rest <+: g.file.drop p.currentOffset) ∧
      (p.phase = .ended ∨ p.phase = .synced ∨ p.phase = .updated → p.body ≠ []) := by
  have whole := h.filled
  cases l <;> rcases hr : r.patch.phase <;> simp only [Upload.step, hu, hr, reduceCtorEq] at hs
  case open.locked =>
    split at hs
    case isTrue  => cases hs; contradiction
    case isFalse => cases hs; cases hp; cases hf; exact ⟨rfl, h.body, fun _ => h.rest (.inl hr), by simp⟩
  case frame.streaming data =>
    simp only [Receiving.feed, List.isPrefixOf_iff_prefix, Option.ite_none_right_eq_some] at hf
    obtain ⟨⟨tail, ht⟩, hf⟩ := hf
    cases hf
    cases hs
    unfold Upload.writeFrame at hp
    split at hp
    case isTrue => cases hp; exact ⟨rfl, h.body, by simp, by simp⟩
    case isFalse =>
      cases hp
      have all := h.rest (.inr hr)
      rw [← ht, ← List.append_assoc] at all
      refine ⟨rfl, (List.prefix_append _ _).trans all, fun _ => ?_, by simp [hr]⟩
      rw [← ht, List.drop_left]
      exact all
  case torn.streaming data n =>
    split at hs <;> cases hs
    cases hp
    exact ⟨rfl, h.body, by simp, by simp⟩
  case bodyError.streaming => cases hs; cases hp; exact ⟨rfl, h.body, by simp, by simp⟩
  case endBody.streaming =>
    cases hs
    cases hp
    refine ⟨rfl, h.body, ?_, ?_⟩ <;> dsimp only <;> split <;> simp [*]
  case sync.ended    => cases hs; cases hp; exact ⟨rfl, h.body, by simp, fun _ => whole (by simp [hr])⟩
  case update.synced => cases hs; cases hp; exact ⟨rfl, h.body, by simp, fun _ => whole (by simp [hr])⟩
  all_goals cases hs; contradiction

theorem Stored.mono (h : Stored g store u)
    (hs : ∀ {x}, store.sessions.lookup u = some x → x.state = .completed → ∃ x',
      store'.sessions.lookup u = some x' ∧ x'.state = .completed ∧ x'.storageObjectId = x.storageObjectId)
    (hp : ∀ {o}, store.payloads.lookup o = some g.file → store'.payloads.lookup o = some g.file) :
    Stored g store' u := by
  obtain ⟨x, o, hx, hc, ho, hb⟩ := h
  obtain ⟨x', hx', hc', ho'⟩ := hs hx hc
  exact ⟨x', o, hx', hc', ho'.trans ho, hp hb⟩

namespace Server

-- The bytes of a request that commits are the next ones of the file.
theorem Sound.commit {s : Server} {x : Session} (h : s.Sound g) (f : s.Fed u l r x up rest up')
    (hl : l = .commit) : up'.accepted.flatten <+: g.file ∧
      r.patch.currentOffset < up'.session.receivedSize := by
  obtain ⟨inv, content⟩ := h.upload f.view
  rcases accepted_of_step f.step with ⟨_, _, hn⟩ | ⟨p, hp, hu, ha, _, hx, _⟩
  case inl => exact absurd hl hn
  case inr =>
    cases f.held.symm.trans hp
    have receives := h.patch f.patch
    have holds := inv.patch f.held
    have size := inv.size
    have whole := receives.filled (.inr (.inr hu))
    refine ⟨?_, ?_⟩
    case refine_1 =>
      obtain ⟨tail, ht⟩ := content
      have body := receives.body
      rw [holds.offset, ← size, ← ht, List.drop_left] at body
      rw [ha, List.flatten_append, List.flatten_singleton, ← ht]
      exact (List.prefix_append_right_inj _).mpr body
    case refine_2 =>
      rw [hx]
      exact Nat.lt_add_of_pos_right (List.length_pos_iff.mpr whole)

end Server
end MyDrive.Backup.Wire
