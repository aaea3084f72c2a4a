import MyDrive.Transfers.Patch
import MyDrive.Library.Except

open Execution

namespace MyDrive.Transfers

theorem writeAt_length (file data : List UInt8) :
    writeAt file file.length data = file ++ data := by
  simp [writeAt]

theorem admitPatch_ok {session : UploadSession} {headers : PatchHeaders} {now : Time} {p : Patch}
    (h : admitPatch session headers now = .ok p) :
    patchOffset headers = .ok session.receivedSize ∧
    session.receivedSize < session.expectedSize ∧
    p = {
      currentOffset := session.receivedSize
      maxBytes      := min (session.expectedSize - session.receivedSize) maxPatchBytes } := by
  simp only [admitPatch, Except.bind_eq_ok_iff, Except.ite_throw_eq_ok_iff] at h
  obtain ⟨offset, ho, _, _, he, hlt, hp⟩ := h
  simp only [ne_eq, Decidable.not_not] at he
  refine ⟨he ▸ ho, by omega, ?_⟩
  cases hp
  rfl

namespace Upload

-- The staging file may run ahead of the row, by the bytes of a request that did not commit.
structure Intact (s : Upload) : Prop where
  prefixed : s.staging.take s.session.receivedSize = s.accepted.flatten
  size     : s.accepted.flatten.length = s.session.receivedSize
  bound    : s.session.receivedSize ≤ s.session.expectedSize

-- What a request that holds the row lock relies on.
structure Holds (s : Upload) (p : Patch) : Prop where
  offset  : p.currentOffset = s.session.receivedSize
  opening : s.session.receivedSize < s.session.expectedSize
  room    : s.session.receivedSize + p.maxBytes ≤ s.session.expectedSize
  body    : p.body.length ≤ p.maxBytes
  locked  : p.phase = .locked → p.body = []
  written : p.phase ≠ .locked → p.phase ≠ .broken → s.staging = s.accepted.flatten ++ p.body

structure Inv (s : Upload) : Prop extends Intact s where
  complete : s.session.receivedSize = s.session.expectedSize →
    s.staging.length = s.session.expectedSize
  patch {p} : s.patch = some p → s.Holds p

variable {s s' : Upload} {p : Patch}

theorem Intact.received_le_length (h : s.Intact) : s.session.receivedSize ≤ s.staging.length := by
  have := congrArg List.length h.prefixed
  have := h.size
  simp only [List.length_take] at *
  omega

theorem Intact.with_staging {staging : List UInt8} (h : s.Intact)
    (ht : staging.take s.session.receivedSize = s.staging.take s.session.receivedSize)
    (patch : Option Patch) : Intact { s with staging, patch } where
  prefixed := ht.trans h.prefixed
  size     := h.size
  bound    := h.bound

theorem Inv.init (expectedSize : Nat) (expiresAt : Time) : (init expectedSize expiresAt).Inv where
  prefixed   := rfl
  size       := rfl
  bound      := Nat.zero_le _
  complete h := h
  patch h    := by contradiction

-- A request gives up the lock, or keeps it, with the row as it was.
theorem Inv.of_holds {staging : List UInt8} (h : s.Inv) (hp : s.Holds p)
    (ht : staging.take s.session.receivedSize = s.staging.take s.session.receivedSize)
    (patch : Option Patch) (hn : ∀ {q}, patch = some q → Holds { s with staging, patch } q) :
    Inv { s with staging, patch } where
  toIntact   := h.with_staging ht patch
  complete e := absurd e (Nat.ne_of_lt hp.opening)
  patch e    := hn e

theorem Inv.release (h : s.Inv) (hp : s.Holds p) : s.release.Inv :=
  h.of_holds hp rfl none (by simp)

theorem Inv.advance {phase : Phase} (h : s.Inv) (hp : s.Holds p) (hl : phase ≠ .locked)
    (hs : phase = .broken ∨ p.phase ≠ .locked ∧ p.phase ≠ .broken) : (s.advance p phase).Inv := by
  refine h.of_holds hp rfl _ fun e => ?_
  cases e
  refine ⟨hp.offset, hp.opening, hp.room, hp.body, fun e => absurd e hl, fun _ hb => ?_⟩
  cases hs
  case inl hs => exact absurd hs hb
  case inr hs => exact hp.written hs.left hs.right

theorem Inv.truncate (h : s.Inv) (hp : s.Holds p) :
    Inv { s.release with staging := s.staging.take p.currentOffset } :=
  h.of_holds hp (by simp [hp.offset, List.take_take]) none (by simp)

theorem Inv.open (h : s.Inv) (hp : s.Holds p) (hs : p.phase = .locked) :
    ({ s with staging := s.staging.take p.currentOffset }.advance p .streaming).Inv := by
  refine h.of_holds hp (by simp [hp.offset, List.take_take]) _ fun e => ?_
  cases e
  refine ⟨hp.offset, hp.opening, hp.room, hp.body, by simp, fun _ _ => ?_⟩
  simp [hp.offset, h.prefixed, hp.locked hs]

theorem Inv.end_eq_length (h : s.Inv) (hp : s.Holds p) (hs : p.phase = .streaming) :
    p.currentOffset + p.body.length = s.staging.length := by
  have hw := hp.written (by simp [hs]) (by simp [hs])
  rw [hw, List.length_append, h.size, hp.offset]

theorem Inv.writeFrame (h : s.Inv) (hp : s.Holds p) (hs : p.phase = .streaming)
    (data : List UInt8) : (s.writeFrame p data).Inv := by
  rw [Upload.writeFrame]
  split
  case isTrue => exact h.advance hp (by simp) (.inl rfl)
  case isFalse hl =>
    rw [h.end_eq_length hp hs, writeAt_length]
    refine h.of_holds hp ?prefixed _ fun e => ?_
    case prefixed => exact List.take_append_of_le_length h.received_le_length
    cases e
    have hw := hp.written (by simp [hs]) (by simp [hs])
    exact ⟨hp.offset, hp.opening, hp.room, by simp; omega, by simp [hs], fun _ _ => by simp [hw]⟩

theorem Inv.torn (h : s.Inv) (hp : s.Holds p) (hs : p.phase = .streaming) (data : List UInt8) :
    ({ s with staging := writeAt s.staging (p.currentOffset + p.body.length) data }.advance p
      .broken).Inv := by
  rw [h.end_eq_length hp hs, writeAt_length]
  refine h.of_holds hp (List.take_append_of_le_length h.received_le_length) _ fun e => ?_
  cases e
  exact ⟨hp.offset, hp.opening, hp.room, hp.body, by simp, by simp⟩

theorem Inv.commit (h : s.Inv) (hp : s.Holds p) (hs : p.phase = .updated) :
    Inv {
      session  := { s.session with receivedSize := p.currentOffset + p.body.length }
      staging  := s.staging
      accepted := s.accepted ++ [p.body] } := by
  have hw := hp.written (by simp [hs]) (by simp [hs])
  have hl : s.staging.length = p.currentOffset + p.body.length := by
    rw [hw, List.length_append, h.size, hp.offset]
  have hr := hp.room
  have hb := hp.body
  refine ⟨⟨?prefixed, ?size, ?bound⟩, ?complete, by simp⟩
  case prefixed =>
    simp only [← hl, List.take_length, hw, List.flatten_append, List.flatten_singleton]
  case size     => simp only [← hl, hw, List.flatten_append, List.flatten_singleton]
  case bound    => simp only [hp.offset]; omega
  case complete => intro e; exact hl.trans e

theorem Inv.begin {headers : PatchHeaders} {now : Time} (h : s.Inv)
    (ha : admitPatch s.session headers now = .ok p) : Inv { s with patch := some p } := by
  obtain ⟨_, hlt, hp⟩ := admitPatch_ok ha
  refine ⟨h.toIntact.with_staging rfl _, h.complete, fun e => ?_⟩
  cases e
  cases hp
  exact ⟨rfl, hlt, by simp only; omega, Nat.zero_le _, by simp, by simp⟩

theorem Inv.step {l : Label} (h : s.Inv) (hs : s.step l = some s') : s'.Inv := by
  rcases hp : s.patch with _ | p
  case none =>
    cases l <;> simp only [Upload.step, hp] at hs
    case begin =>
      split at hs <;> cases hs
      case h_1    => exact h
      case h_2 ha => exact h.begin ha
    all_goals contradiction
  case some =>
    have hp' := h.patch hp
    cases l <;> rcases hf : p.phase <;> simp only [Upload.step, hp, hf] at hs <;>
      try contradiction
    case open.locked =>
      split at hs <;> cases hs
      case isTrue  => exact h.release hp'
      case isFalse => exact h.open hp' hf
    case torn.streaming data n =>
      split at hs <;> cases hs
      exact h.torn hp' hf (data.take n)
    all_goals cases hs
    case frame.streaming data => exact h.writeFrame hp' hf data
    case bodyError.streaming  => exact h.advance hp' (by simp) (.inl rfl)
    case endBody.streaming    => exact h.advance hp' (by split <;> simp) (.inr (by simp [hf]))
    case sync.ended           => exact h.advance hp' (by simp) (.inr (by simp [hf]))
    case update.synced        => exact h.advance hp' (by simp) (.inr (by simp [hf]))
    case commit.updated       => exact h.commit hp' hf
    case fail.streaming       => exact h.truncate hp'
    case fail.broken          => exact h.truncate hp'
    case fail.ended           => exact h.truncate hp'
    all_goals exact h.release hp'

theorem Inv.of_reaches {size : Nat} {expiresAt : Time}
    (r : Reaches Upload.step (.init size expiresAt) s) : s.Inv :=
  r.invariant (Inv.init size expiresAt) fun h _ hs => h.step hs

-- Only a commit writes the row.
theorem session_of_step {l : Label} (hs : s.step l = some s') :
    s'.session = s.session ∨ ∃ p, s.patch = some p ∧
      s'.session = { s.session with receivedSize := p.currentOffset + p.body.length } := by
  rcases hp : s.patch with _ | p
  case none =>
    cases l <;> simp only [step, hp] at hs <;> try contradiction
    split at hs <;> cases hs <;> exact .inl rfl
  case some =>
    cases l <;> rcases hf : p.phase <;> simp only [step, hp, hf] at hs <;> try contradiction
    case frame.streaming =>
      cases hs
      rw [writeFrame]
      split <;> exact .inl rfl
    case commit.updated => cases hs; exact .inr ⟨p, rfl, rfl⟩
    case open.locked    => split at hs <;> cases hs <;> exact .inl rfl
    case torn.streaming => split at hs <;> cases hs; exact .inl rfl
    all_goals cases hs; exact .inl rfl

theorem Inv.session_step {l : Label} (h : s.Inv) (hs : s.step l = some s') :
    s.session.receivedSize ≤ s'.session.receivedSize ∧
    s'.session.expectedSize = s.session.expectedSize := by
  rcases session_of_step hs with hs | ⟨p, hp, hs⟩ <;> rw [hs]
  case inl => exact ⟨Nat.le_refl _, rfl⟩
  case inr => exact ⟨(h.patch hp).offset ▸ Nat.le_add_right _ _, rfl⟩

theorem Inv.session_reaches (h : s.Inv) (r : Reaches Upload.step s s') :
    s.session.receivedSize ≤ s'.session.receivedSize ∧
    s'.session.expectedSize = s.session.expectedSize := by
  have := r.invariant (I := fun t => t.Inv ∧ s.session.receivedSize ≤ t.session.receivedSize ∧
    t.session.expectedSize = s.session.expectedSize) ⟨h, Nat.le_refl _, rfl⟩ fun h _ hs =>
    have hs' := h.left.session_step hs
    ⟨h.left.step hs, Nat.le_trans h.right.left hs'.left, hs'.right.trans h.right.right⟩
  exact this.right

theorem begin_of_offset_ne {headers : PatchHeaders} {now : Time} {offset : Nat}
    (hp : s.patch = none) (ho : patchOffset headers = .ok offset)
    (hn : offset ≠ s.session.receivedSize) : s.step (.begin headers now) = some s := by
  simp only [step, hp]
  split
  case h_1    => rfl
  case h_2 ha =>
    have := ho.symm.trans (admitPatch_ok ha).left
    cases this
    contradiction

theorem staging_eq_accepted {size : Nat} {expiresAt : Time}
    (r : Reaches step (.init size expiresAt) s) :
    s.staging.take s.session.receivedSize = s.accepted.flatten ∧
    s.accepted.flatten.length = s.session.receivedSize ∧
    s.session.expectedSize = size ∧
    s.session.receivedSize ≤ size ∧
    (s.session.receivedSize = size → s.staging.length = size) ∧
    (∀ s', Reaches step s s' → s.session.receivedSize ≤ s'.session.receivedSize) ∧
    ∀ headers now offset, patchOffset headers = .ok offset → offset ≠ s.session.receivedSize →
      s.patch = none → s.step (.begin headers now) = some s := by
  have h := Inv.of_reaches r
  have he : s.session.expectedSize = size := (Inv.init size expiresAt).session_reaches r |>.right
  refine ⟨h.prefixed, h.size, he, he ▸ h.bound, he ▸ h.complete, ?_, ?_⟩
  case refine_1 => exact fun _ r' => h.session_reaches r' |>.left
  case refine_2 => exact fun _ _ _ ho hn hp => begin_of_offset_ne hp ho hn

end Upload

-- A body that breaks off, a crash between the file and the row, and the retries.
def retries : List Label := [
  .begin { contentType := some "application/offset+octet-stream", uploadOffset := some (some 0) } 0,
  .open, .frame [1, 2], .torn [3, 4] 1, .drop,
  .begin { contentType := some "application/offset+octet-stream", uploadOffset := some (some 0) } 1,
  .open, .frame [1, 2], .endBody, .sync, .update, .commit,
  .begin { contentType := some "application/offset+octet-stream", uploadOffset := some (some 2) } 2,
  .open, .frame [5], .endBody, .sync, .drop]

theorem staging_eq_accepted_retries : ∃ s : Upload,
    Reaches Upload.step (.init 4 10) s ∧ s.staging = [1, 2, 5] ∧ s.accepted = [[1, 2]] ∧
    s.staging.take s.session.receivedSize = [1, 2] := by
  have run : (Execution.run Upload.step (.init 4 10) retries).map
      (fun s => (s.staging, s.accepted)) = some ([1, 2, 5], [[1, 2]]) := by
    decide +kernel
  obtain ⟨s, hs, he⟩ := Option.map_eq_some_iff.mp run
  obtain ⟨h₁, h₂⟩ := Prod.mk.inj he
  have r := Execution.reaches_of_run hs
  exact ⟨s, r, h₁, h₂, (Upload.staging_eq_accepted r).left.trans (by simp [h₂])⟩

end MyDrive.Transfers
