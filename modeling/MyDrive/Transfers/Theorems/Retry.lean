import MyDrive.Transfers.Theorems.History

open Execution

namespace MyDrive.Transfers
namespace Store

-- An upload whose bytes are in place.
structure Placed (s : Store) (u o : Id) : Prop where
  payload : (s.payloads.lookup o).isSome
  staging {x} : s.sessions.lookup u = some x → s.staging.lookup x.stagingKey = none

structure Done (s : Store) (u o : Id) : Prop extends s.Placed u o where
  ready : ∃ x, s.objects.lookup o = some x ∧ x.state = .ready

-- The rows of the upload `u` while no collector and no mismatch interferes with it.
structure Settles (s : Store) (u : Id) : Prop where
  object {o v f} : .reserved u o v f ∈ s.history →
    ∃ x, s.objects.lookup o = some x ∧ (x.state = .pending ∨ x.state = .ready)
  completed {x o v f} : s.sessions.lookup u = some x → x.state = .completed →
    .reserved u o v f ∈ s.history → s.Done u o
  returned {r o v f} : .returned u r ∈ s.history → .reserved u o v f ∈ s.history → s.Done u o

-- What a step leaves of the bytes and the object of the upload `u`.
structure Grows (u : Id) (s s' : Store) : Prop extends s.Extends s' where
  staging {k} : k < s.next → s.staging.lookup k = none → s'.staging.lookup k = none
  payload {o v f} : .reserved u o v f ∈ s.history → (s.payloads.lookup o).isSome →
    (s'.payloads.lookup o).isSome
  ready {o v f x} : .reserved u o v f ∈ s.history → s.objects.lookup o = some x →
    x.state = .ready → ∃ x', s'.objects.lookup o = some x' ∧ x'.state = .ready

-- A step that does not reserve the upload `u`.
structure Passes (u : Id) (s s' : Store) : Prop extends s.Extends s' where
  reserved {o v f} : .reserved u o v f ∈ s'.history → .reserved u o v f ∈ s.history
  returned {r o v f} : .returned u r ∈ s'.history → .reserved u o v f ∈ s.history →
    .returned u r ∈ s.history ∨ s'.Done u o
  completed {x' o v f} : s'.sessions.lookup u = some x' → x'.state = .completed →
    .reserved u o v f ∈ s.history →
    (∃ x, s.sessions.lookup u = some x ∧ x.state = .completed) ∨ s'.Done u o
  staging {k} : k < s.next → s.staging.lookup k = none → s'.staging.lookup k = none
  payload {o v f} : .reserved u o v f ∈ s.history → (s.payloads.lookup o).isSome →
    (s'.payloads.lookup o).isSome
  object {o v f x} : .reserved u o v f ∈ s.history → s.objects.lookup o = some x →
    ∃ x', s'.objects.lookup o = some x' ∧ (x'.state = x.state ∨ x'.state = .ready)

structure Steady (u : Id) (s s' : Store) : Prop where
  settles : s'.Settles u
  grows   : s.Grows u s'

variable {s s' s'' : Store} {u w o v f : Id}

theorem Grows.refl : s.Grows u s where
  toExtends     := .refl
  staging _ h   := h
  payload _ h   := h
  ready _ h hr  := ⟨_, h, hr⟩

theorem Grows.trans (h₁ : s.Grows u s') (h₂ : s'.Grows u s'') : s.Grows u s'' where
  toExtends     := h₁.toExtends.trans h₂.toExtends
  staging hk h  := h₂.staging (Nat.lt_of_lt_of_le hk h₁.next) (h₁.staging hk h)
  payload hr h  := h₂.payload (h₁.history hr) (h₁.payload hr h)
  ready hr h hx := by
    obtain ⟨x', hx', hr'⟩ := h₁.ready hr h hx
    exact h₂.ready (h₁.history hr) hx' hr'

theorem Grows.placed (g : s.Grows u s') (h : s.Recorded) (hr : .reserved u o v f ∈ s.history)
    (hp : s.Placed u o) : s'.Placed u o where
  payload := g.payload hr hp.payload
  staging hx := by
    obtain ⟨x, hx, hk, _⟩ := g.sessions (h.bound hr).left hx
    exact g.staging (hk ▸ (h.ids hx).right) (hk ▸ hp.staging hx)

theorem Grows.done (g : s.Grows u s') (h : s.Recorded) (hr : .reserved u o v f ∈ s.history)
    (hd : s.Done u o) : s'.Done u o where
  toPlaced := g.placed h hr hd.toPlaced
  ready    := by
    obtain ⟨x, hx, hs⟩ := hd.ready
    exact g.ready hr hx hs

theorem Steady.refl (hu : s.Settles u) : s.Steady u s :=
  ⟨hu, .refl⟩

theorem Steady.trans (h₁ : s.Steady u s') (h₂ : s'.Steady u s'') : s.Steady u s'' :=
  ⟨h₂.settles, h₁.grows.trans h₂.grows⟩

theorem Passes.grows (p : s.Passes u s') : s.Grows u s' where
  toExtends     := p.toExtends
  staging       := p.staging
  payload       := p.payload
  ready hr h hx := by
    obtain ⟨x', hx', hs⟩ := p.object hr h
    exact ⟨x', hx', hs.elim (·.trans hx) id⟩

theorem Settles.pass (hu : s.Settles u) (h : s.Recorded) (p : s.Passes u s') : s.Steady u s' where
  grows   := p.grows
  settles := {
    object hr := by
      obtain ⟨x, hx, hs⟩ := hu.object (p.reserved hr)
      obtain ⟨x', hx', hs'⟩ := p.object (p.reserved hr) hx
      refine ⟨x', hx', ?_⟩
      cases hs'
      case inl hs' => exact hs' ▸ hs
      case inr hs' => exact .inr hs'
    completed hx' hc hr := by
      have hr := p.reserved hr
      obtain ⟨x, hx, hc⟩ | hd := p.completed hx' hc hr
      case inl => exact p.grows.done h hr (hu.completed hx hc hr)
      case inr => exact hd
    returned ht hr := by
      have hr := p.reserved hr
      cases p.returned ht hr
      case inl ht => exact p.grows.done h hr (hu.returned ht hr)
      case inr hd => exact hd }

-- The rows of `u`, the bytes and the objects are as before.
theorem Passes.of_rows (he : s.Extends s')
    (hr : ∀ {e}, e ∈ s'.history → e ∈ s.history ∨ (∀ o v f, e ≠ .reserved u o v f) ∧
      ∀ r, e ≠ .returned u r)
    (hx : ∀ {x'}, s'.sessions.lookup u = some x' → x'.state = .completed →
      ∃ x, s.sessions.lookup u = some x ∧ x.state = .completed)
    (hs : ∀ {k}, k < s.next → s.staging.lookup k = none → s'.staging.lookup k = none)
    (hp : s'.payloads = s.payloads)
    (ho : ∀ {o v f}, .reserved u o v f ∈ s.history → s'.objects.lookup o = s.objects.lookup o) :
    s.Passes u s' where
  toExtends        := he
  reserved h       := (hr h).resolve_right fun h => h.left _ _ _ rfl
  returned h _     := .inl ((hr h).resolve_right fun h => h.right _ rfl)
  completed h hc _ := .inl (hx h hc)
  staging          := hs
  payload _ h      := hp ▸ h
  object hr h      := ⟨_, (ho hr).trans h, .inl rfl⟩

theorem Settles.createUpload {session : Session} {bytes : List UInt8} (hu : s.Settles u)
    (h : s.Recorded) (hc : s.createUpload session bytes = some s') : s.Steady u s' := by
  have he := (h.createUpload hc).extend
  obtain ⟨x, ha, _, _, _, rfl⟩ := createUpload_some hc
  refine hu.pass h (.of_rows he .inl (fun hy hs => ?_) (fun hk hn => ?_) rfl fun _ => rfl)
  case refine_1 =>
    rcases lookup_sessions_set hy with ⟨_, rfl⟩ | hy
    case inl => cases ha.symm.trans hs
    case inr => exact ⟨_, hy, hs⟩
  case refine_2 => simpa [Nat.ne_of_lt hk] using hn

theorem Settles.reserve {env : Env} {x : Session} {files : Table Id File} {fileId : Id}
    (hu : s.Settles u) (h : s.Recorded) (hx : s.sessions.lookup w = some x)
    (ha : x.state = .active) : s.Steady u (s.reservation env w x files fileId) := by
  have he : s.Extends (s.reservation env w x files fileId) := (h.reserve hx ha).extend
  have object {o v f} (hr : .reserved u o v f ∈ s.history) :
      (s.reservation env w x files fileId).objects.lookup o = s.objects.lookup o := by
    simp [reservation, Nat.ne_of_lt (h.bound hr).right]
  by_cases hw : u = w
  case neg =>
    refine hu.pass h (.of_rows he (fun {e} hm => ?_) (fun hy hs => ?_) (fun _ h => h) rfl object)
    case refine_1 =>
      simp only [reservation, List.mem_append, List.mem_singleton] at hm
      rcases hm with hm | rfl
      case inl => exact .inl hm
      case inr => exact .inr ⟨by simp [Ne.symm hw], by simp⟩
    case refine_2 =>
      rcases lookup_sessions_reservation hx hy with ⟨hw', _⟩ | ⟨_, hy⟩
      case inl => exact absurd hw' hw
      case inr => exact ⟨_, hy, hs⟩
  case pos =>
    -- Nothing has been reserved for `u` before.
    subst hw
    have fresh {o v f} : .reserved u o v f ∉ s.history := h.not_reserved_of_active hx ha
    refine ⟨⟨fun hr => ?_, fun hy hs _ => ?_, fun ht _ => ?_⟩,
      ⟨he, fun _ h => h, fun hr => absurd hr fresh, fun hr => absurd hr fresh⟩⟩
    case refine_1 =>
      obtain ⟨_, rfl, _⟩ := (mem_reservation.mp hr).resolve_left fresh
      simp [reservation]
    case refine_2 =>
      rcases lookup_sessions_reservation hx hy with ⟨_, rfl⟩ | ⟨hw, _⟩
      case inl => cases hs
      case inr => exact absurd rfl hw
    case refine_3 =>
      obtain ⟨o, v, hr⟩ := h.returned ((List.mem_append.mp ht).resolve_right (by simp))
      exact absurd hr fresh

theorem Settles.log_returned {r : UploadFinalized} (hu : s.Settles u) (h : s.Recorded)
    (hr : ∃ o v, .reserved w o v r.fileId ∈ s.history)
    (hd : w = u → ∀ o v f, .reserved u o v f ∈ s.history → s.Done u o) :
    s.Steady u (s.returned w r) := by
  refine hu.pass h ⟨(h.log_returned hr).extend, fun hm => ?_, fun ht hr' => ?_,
    fun hx hc _ => .inl ⟨_, hx, hc⟩, fun _ => id, fun _ => id, fun _ hx => ⟨_, hx, .inl rfl⟩⟩
  case refine_1 => exact (List.mem_append.mp hm).resolve_right (by simp)
  case refine_2 =>
    refine (List.mem_append.mp ht).imp_right fun ht => ?_
    simp only [List.mem_singleton, Event.returned.injEq] at ht
    have done := hd ht.left.symm _ _ _ hr'
    exact ⟨⟨done.payload, done.staging⟩, done.ready⟩

theorem Settles.promote (hu : s.Settles u) (h : s.Recorded) (o' key : Id) (bytes : List UInt8) :
    s.Steady u { s with
      staging  := s.staging.erase key
      payloads := s.payloads.set o' bytes } := by
  refine hu.pass h ⟨⟨Nat.le_refl _, id, fun _ hx => ⟨_, hx, rfl, rfl⟩⟩, id, fun ht _ => .inl ht,
    fun hx hc _ => .inl ⟨_, hx, hc⟩, fun _ hn => ?_, fun _ hp => ?_,
    fun _ hx => ⟨_, hx, .inl rfl⟩⟩
  case refine_1 => simp [hn]
  case refine_2 =>
    rw [Table.lookup_set]
    split
    case isTrue  => rfl
    case isFalse => exact hp

theorem Settles.complete {owner : Id} {t : Target} {checksum : String} {r : Option Id}
    (hu : s.Settles u) (h : s.Recorded) (hp : w = u → s.Placed u t.objectId)
    (hc : s.complete owner w t checksum = .ok (s', r)) : s.Steady u s' := by
  have he := (h.complete hc).extend
  obtain ⟨session, hx, ⟨_, rfl, _⟩ | ⟨_, _, ho, _, rfl⟩⟩ := complete_ok hc
  case inl => exact .refl hu
  case inr =>
    obtain ⟨v', f', hr'⟩ := h.storage hx ho
    have completed {x'} (hw : w ≠ u) (hx' : ((s.readied t.objectId checksum).updateSession w
        fun x => { x with state := .completed }).sessions.lookup u = some x')
        (hs : x'.state = .completed) :
        ∃ x, s.sessions.lookup u = some x ∧ x.state = .completed := by
      obtain ⟨x, hx, ⟨he, _⟩ | ⟨_, rfl⟩⟩ := lookup_completed hx'
      case inl => exact absurd he.symm hw
      case inr => exact ⟨_, hx, hs⟩
    rcases readied_cases s t.objectId checksum with ⟨hn, hq⟩ | ⟨x, _, _, hq⟩
    case inl =>
      have hw : w ≠ u := by
        rintro rfl
        obtain ⟨x, hx, hs⟩ := hu.object hr'
        exact hs.elim (hn x hx).left (hn x hx).right
      refine hu.pass h (.of_rows he (fun hm => .inl ?_) (completed hw) (fun _ hn => ?_) ?_
        fun _ => ?_) <;> rw [hq] at *
      case refine_1 => exact hm
      case refine_2 => exact hn
      case refine_3 => rfl
      case refine_4 => rfl
    case inr =>
      refine hu.pass h ⟨he, fun hm => ?_, fun hm _ => .inl ?_, fun hx' hs hr => ?_,
        fun _ hn => ?_, fun _ hp => ?_, fun {o _ _ y} _ hy => ?_⟩
      case refine_3 =>
        by_cases hw : w = u
        case neg => exact .inl (completed hw hx' hs)
        case pos =>
          subst hw
          obtain ⟨rfl, _, _⟩ := h.unique hr hr'
          refine .inr ⟨⟨?_, fun hx' => ?_⟩, ⟨{ x with checksum := some checksum, state := .ready }, ?_, rfl⟩⟩
          case refine_1 => rw [hq]; exact (hp rfl).payload
          case refine_2 =>
            obtain ⟨y, hy, hx'⟩ := lookup_completed hx'
            have hn := (hp rfl).staging hy
            rcases hx' with ⟨_, rfl⟩ | ⟨_, rfl⟩ <;> rw [hq] <;> exact hn
          case refine_3 => rw [hq]; simp [updateSession, Store.log]
      all_goals rw [hq] at *
      case refine_1 => simpa [updateSession, Store.log] using hm
      case refine_2 => simpa [updateSession, Store.log] using hm
      case refine_4 => exact hn
      case refine_5 => exact hp
      case refine_6 =>
        simp only [updateSession, Store.log, Table.lookup_set]
        split
        case isTrue  => exact ⟨_, rfl, .inr rfl⟩
        case isFalse => exact ⟨y, hy, .inl rfl⟩

theorem Settles.files {files : Table Id File} {versions : Table Id FileVersion} (hu : s.Settles u)
    (h : s.Recorded) : s.Steady u { s with files, versions } :=
  hu.pass h (.of_rows h.files.extend .inl (fun hx hc => ⟨_, hx, hc⟩) (fun _ h => h) rfl fun _ => rfl)

-- What the completion leaves of the upload that it completes.
theorem Settles.completed_done {owner k : Id} {t : Target} {checksum : String} (hu : s.Settles u)
    (h : s.Recorded) (hk : s.Key w k owner) (hr : ∃ v, .reserved w t.objectId v t.fileId ∈ s.history)
    (hp : w = u → (s.payloads.lookup t.objectId).isSome ∧ s.staging.lookup k = none)
    (hc : s.complete owner w t checksum = .ok (s', none)) :
    s.Steady u s' ∧ (w = u → s'.Done w t.objectId) := by
  have placed (e : w = u) : s.Placed u t.objectId :=
    ⟨(hp e).left, fun hx => (hk.row (e ▸ hx)).left ▸ (hp e).right⟩
  have steady := hu.complete h placed hc
  refine ⟨steady, fun e => ?_⟩
  obtain ⟨v, hr⟩ := hr
  obtain ⟨session, hx, ⟨_, _, he, hf⟩ | ⟨_, _, _, _, rfl⟩⟩ := complete_ok hc
  case inl => simp at hf
  case inr =>
    have hy : ((s.readied t.objectId checksum).updateSession w
        fun x => { x with state := .completed }).sessions.lookup u =
        some { session with state := .completed } := by
      simp [← e, hx]
    exact e ▸ steady.settles.completed hy rfl (e ▸ steady.grows.history hr)

theorem Settles.log_enqueued (hu : s.Settles u) (h : s.Recorded) :
    s.Steady u (s.log (.enqueued w v)) := by
  refine hu.pass h (.of_rows h.log_enqueued.extend (fun he => ?_) (fun hx hs => ⟨_, hx, hs⟩)
    (fun _ hk => hk) rfl fun _ => rfl)
  simp only [Store.log, List.mem_append, List.mem_singleton] at he
  exact he.imp_right fun he => ⟨by simp [he], by simp [he]⟩

theorem Done.log_enqueued (hd : s.Done u o) : (s.log (.enqueued w v)).Done u o :=
  ⟨⟨hd.payload, hd.staging⟩, hd.ready⟩

theorem Settles.deleteFiles {ids : List Id} (hu : s.Settles u) (h : s.Recorded)
    (hd : s.deleteFiles ids = .ok s') : s.Steady u s' := by
  refine hu.pass h (.of_rows (h.deleteFiles hd).extend ?_ (fun hx hs => ?_) ?_ ?_ ?_)
  case refine_2 =>
    obtain ⟨x, hy, _, rfl⟩ := lookup_deleteFiles hd hx
    exact ⟨x, hy, hs⟩
  all_goals obtain ⟨_, rfl⟩ := deleteFiles_ok hd
  case refine_1 => exact .inl
  case refine_3 => exact fun _ h => h
  case refine_4 => rfl
  case refine_5 => exact fun _ => rfl

theorem Settles.deleteObject {o' : Id} (hu : s.Settles u) (h : s.Recorded)
    (hn : ∀ v f, .reserved u o' v f ∉ s.history) (hd : s.deleteObject o' = .ok s') :
    s.Steady u s' := by
  refine hu.pass h (.of_rows (h.deleteObject hd).extend ?_ (fun hx hs => ?_) ?_ ?_
    fun {o _ _} hr => ?_)
  case refine_2 =>
    obtain ⟨x, hy, rfl⟩ := lookup_deleteObject hd hx
    exact ⟨x, hy, hs⟩
  all_goals obtain ⟨_, _, rfl⟩ := deleteObject_ok hd
  case refine_1 => exact .inl
  case refine_3 => exact fun _ h => h
  case refine_4 => rfl
  case refine_5 =>
    have hne : o ≠ o' := by
      rintro rfl
      exact hn _ _ hr
    simp [hne]

-- The rejection of another upload.
theorem Settles.reject {row : Option Id} {owner : Id} {t : Target} (hu : s.Settles u)
    (h : s.Recorded) (hw : w ≠ u)
    (hr : s.rejectMismatchedUpload row owner w t = some (.ok (some s'))) : s.Steady u s' := by
  obtain ⟨session, hx, _, _, ho, y, z, hz, rfl, hy⟩ := rejectMismatchedUpload_ok hr
  obtain ⟨v', f', hr'⟩ := h.storage hx ho
  have failed : s.Follows (s.failUpload w) := h.failUpload
  have failed' : s.Steady u (s.failUpload w) := by
    refine hu.pass h (.of_rows failed.extend .inl (fun hx hs => ?_) (fun _ h => h) rfl fun _ => rfl)
    rw [failUpload, lookup_updateSession] at hx
    obtain ⟨x, hy, rfl⟩ := Option.map_eq_some_iff.mp hx
    exact ⟨x, hy, by simpa [hw.symm] using hs⟩
  have undone : s.Follows y ∧ s.Steady u y := by
    rcases hy with ⟨previous, _, _, rfl⟩ | ⟨_, hy⟩ | ⟨_, _, rfl⟩
    case inl =>
      refine ⟨failed.trans failed.recorded.restorePrevious, ?_⟩
      simp only [restorePrevious]
      split
      case h_1 => exact failed'.trans (failed'.settles.files failed.recorded)
      case h_2 => exact failed'.trans (failed'.settles.files failed.recorded)
    case inr.inl =>
      refine ⟨failed.trans (failed.recorded.removeFile hy), ?_⟩
      have files : (s.failUpload w).Steady u (((s.failUpload w).setCurrent t.fileId
          none).deleteVersions fun _ v => v.fileId = t.fileId) :=
        failed'.settles.files failed.recorded
      exact failed'.trans (files.trans (files.settles.deleteFiles failed.recorded.files.recorded hy))
    case inr.inr => exact ⟨failed, failed'⟩
  have hn v f : .reserved u t.objectId v f ∉ y.history := by
    intro hr
    exact hw (undone.left.recorded.object (undone.left.extend.history hr') hr)
  have deleted := undone.left.trans (undone.left.recorded.deleteObject hz)
  have deleted' := undone.right.trans (undone.right.settles.deleteObject undone.left.recorded hn hz)
  refine deleted'.trans (deleted'.settles.pass deleted.recorded (.of_rows ?_ (fun {e} hm => ?_)
    (fun hx hc => ⟨_, hx, hc⟩) (fun _ h => h) rfl fun _ => rfl))
  case refine_1 => exact ⟨Nat.le_refl _, (List.mem_append_left _ ·), fun _ hx => ⟨_, hx, rfl, rfl⟩⟩
  case refine_2 =>
    simp only [Store.log, List.mem_append, List.mem_singleton] at hm
    exact hm.imp_right fun he => ⟨by simp [he], by simp [he]⟩

end Store

namespace Finalize

-- What it knows of the bytes, unless its upload is rejected.
def Promoted (s : Store) (c : Finalize) : Prop :=
  match c.stage with
  | .sourceChecked t _ source   => source = false → s.staging.lookup t.stagingKey = none
  | .renameLost t               => s.staging.lookup t.stagingKey = none
  | .destinationSeen t          => (s.payloads.lookup t.objectId).isSome
  | .promoted t | .hashed t _   =>
    (s.payloads.lookup t.objectId).isSome ∧ s.staging.lookup t.stagingKey = none
  | .completed t _              => s.Done c.upload t.objectId
  | .mismatched _ | .rejected _ => False
  | _                           => True

variable {s s' : Store} {u : Id} {c : Finalize}

theorem Promoted.grow (hp : c.Promoted s) (hb : c.Bound s) (h : s.Recorded)
    (g : s.Grows c.upload s') : c.Promoted s' := by
  obtain ⟨_, w, _, stage⟩ := c
  cases stage <;> simp only [Promoted] at hp ⊢
  all_goals
    simp only [Bound] at hb
    obtain ⟨hk, v, hr⟩ := hb
  case sourceChecked   => exact fun he => g.staging hk.bound (hp he)
  case renameLost      => exact g.staging hk.bound hp
  case destinationSeen => exact g.payload hr hp
  case completed       => exact g.done h hr hp
  all_goals exact ⟨g.payload hr hp.left, g.staging hk.bound hp.right⟩

variable [Collation] [Digest] {env : Env} {k : Option Finalize}

-- The checksum that the request declares is the one of the bytes that are about to be hashed.
def Agrees (s : Store) (c : Finalize) : Prop :=
  ∀ t bytes sum, c.stage = .promoted t → s.payloads.lookup t.objectId = some bytes →
    declaredChecksum c.checksum = .ok (some sum) → sum = Digest.sha256 bytes

theorem Moves.steady (m : c.Moves s env s' k) (h : s.Recorded) (hu : s.Settles u) (hb : c.Bound s)
    (hp : c.upload = u → c.Promoted s) (ha : c.upload = u → c.Agrees s) :
    s.Steady u s' ∧ ∀ c', k = some c' → c'.upload = u → c'.Promoted s' := by
  have same {stage} (hp : c.upload = u → Promoted s { c with stage }) :
      s.Steady u s ∧ ∀ c', c.goto stage = some c' → c'.upload = u → c'.Promoted s :=
    ⟨.refl hu, fun _ he => Option.some.inj he ▸ hp⟩
  cases m <;> simp only [Bound, Promoted, *] at hb hp
  case stop => exact ⟨.refl hu, by simp⟩
  case again session fileId _ hx hs hf =>
    refine ⟨hu.log_returned h (h.file hx hf) fun e o v f hr => ?_, by simp⟩
    exact hu.completed (e ▸ hx) hs hr
  case reserve session _ hx _ hs hr =>
    obtain ⟨_, files, fileId, rfl, _⟩ := Store.reserve_ok hr
    exact ⟨hu.reserve h hx hs, fun c' hc _ => by cases hc; trivial⟩
  case checkSource t n _ => exact same fun _ he => by simpa using he
  case find hs => exact same fun e => ⟨hs, hp e trivial⟩
  case rename t bytes _ hs =>
    refine ⟨hu.promote h t.objectId t.stagingKey bytes, fun c' hc _ => ?_⟩
    cases hc
    exact ⟨by simp, by simp⟩
  case lose hn => exact same fun _ => hn
  case seeDestination hs => exact same fun _ => hs
  case missSource hn => exact same fun e => ⟨hp e, hn⟩
  case hash hy _ => exact same fun e => ⟨by simp [hy], (hp e).right⟩
  case mismatch t bytes sum hs hy hd hn => exact same fun e => hn (ha e t bytes sum hs hy hd)
  case complete t sum hs hc =>
    obtain ⟨steady, done⟩ := hu.completed_done h hb.left hb.right hp hc
    exact ⟨steady, fun c' hc' e => by cases hc'; exact done e⟩
  case index t sum s' v hs hc hv =>
    obtain ⟨steady, done⟩ := hu.completed_done h hb.left hb.right hp hc
    have logged := steady.settles.log_enqueued (u := u) (w := c.upload) (v := v) (h.complete hc).recorded
    refine ⟨steady.trans logged, fun c' hc' e => ?_⟩
    cases hc'
    exact (done e).log_enqueued
  case already t sum fileId _ hc =>
    obtain ⟨session, hx, ⟨hs, rfl, hf, _⟩ | ⟨_, _, _, he, _⟩⟩ := Store.complete_ok hc
    case inl =>
      refine ⟨hu.log_returned h (h.file hx hf.symm) fun e o v f hr => ?_, by simp⟩
      exact hu.completed (e ▸ hx) hs hr
    case inr => cases he
  case answer t sum _ =>
    obtain ⟨hk, v, hr⟩ := hb
    refine ⟨hu.log_returned h ⟨_, v, hr⟩ fun e o v' f hr' => ?_, by simp⟩
    obtain ⟨rfl, _, _⟩ := h.unique hr' (e ▸ hr)
    exact e ▸ hp e
  case reject t _ hr =>
    have hw : c.upload ≠ u := hp
    exact ⟨hu.reject h hw hr, fun c' hc e => by cases hc; exact absurd e hw⟩
  case unlink t _ =>
    have hw : c.upload ≠ u := hp
    obtain ⟨hk, v, hr⟩ := hb
    refine ⟨hu.pass h ⟨h.objects.extend, id, fun ht _ => .inl ht, fun hx hc _ => .inl ⟨_, hx, hc⟩,
      fun _ => id, fun {o _ _} hr' hy => ?_, fun _ hx => ⟨_, hx, .inl rfl⟩⟩, by simp⟩
    have hne : o ≠ t.objectId := by
      rintro rfl
      exact hw (h.object hr hr')
    simpa [hne] using hy
  all_goals exact same fun _ => trivial

end Finalize

variable {s s' : Store} {u : Id} {env : Env}

-- What the programs that leave `u` alone and its finalizers know of the store.
def Call.Promoted (u : Id) (s : Store) : Call → Prop
  | .finalize c => c.upload = u → c.Promoted s
  | .link _     => True
  | .copy _     => True
  | _           => False

structure Call.Known (u : Id) (s : Store) (c : Call) : Prop where
  bound    : c.Bound s
  promoted : c.Promoted u s

theorem Call.Known.grow {c : Call} (k : c.Known u s) (h : s.Recorded) (g : s.Grows u s') :
    c.Known u s' := by
  obtain ⟨hb, hp⟩ := k
  refine ⟨hb.extend g.toExtends, ?_⟩
  cases c
  case finalize => exact fun e => (hp e).grow hb h (e ▸ g)
  all_goals exact hp

theorem Store.Settles.attach {files : Table Id File} {f : Id} {v : FileVersion}
    (hu : s.Settles u) (h : s.Recorded) : s.Steady u (s.attachment files f v) := by
  refine hu.pass h (.of_rows h.attach.extend (fun {e} hm => ?_) (fun hx hc => ⟨_, hx, hc⟩)
    (fun _ h => h) rfl fun _ => rfl)
  simp only [attachment, List.mem_append, List.mem_singleton] at hm
  exact hm.imp_right fun he => ⟨by simp [he], by simp [he]⟩

theorem Store.Settles.insertCopies [Collation] {c : Copy} (hu : s.Settles u) (h : s.Recorded)
    (hc : s.insertCopies env c = .ok s') : s.Steady u s' := by
  refine And.right <| Except.foldlM_invariant (P := fun t => s.Follows t ∧ s.Steady u t) hc
    ⟨.refl h, .refl hu⟩ fun t f t' _ ht hf => ?_
  obtain ⟨ht, hs⟩ := ht
  obtain ⟨_, rfl⟩ | ⟨_, _, _, _, rfl⟩ := insertCopy_ok hf
  case inl =>
    have follow : t.Follows { t with
        next := t.next + 3, files := t.files.set (t.next + 1) { ownerId := c.owner, parentId := f.parentId, name := f.name } } :=
      ht.recorded.follow []
        (.of_rows _ (Nat.le_add_right _ _) (by simp) rfl (by simp) (by simp))
    exact ⟨ht.trans follow, hs.trans (hs.settles.pass ht.recorded (.of_rows follow.extend .inl
      (fun hx hc => ⟨_, hx, hc⟩) (fun _ h => h) rfl fun _ => rfl))⟩
  case inr => exact ⟨ht.trans ht.recorded.attach, hs.trans (hs.settles.attach ht.recorded)⟩

theorem Request.start_steady {r : Request} {k : Option Call} (h : s.Recorded) (hu : s.Settles u)
    (hp : ∀ tree, r ≠ .purge tree) (hc : ∀ cutoff batch, r ≠ .removeUnreferenced cutoff batch)
    (hr : r.start s = some (s', k)) : s.Steady u s' ∧ ∀ c, k = some c → c.Promoted u s' := by
  cases r <;> simp only [Request.start] at hr
  case upload =>
    obtain ⟨t, ht, he⟩ := Option.map_eq_some_iff.mp hr
    cases he
    exact ⟨hu.createUpload h ht, by simp⟩
  case entry =>
    cases hr
    exact ⟨hu.files h, by simp⟩
  case link =>
    split at hr <;> cases hr
    case h_1 => exact ⟨.refl hu, fun _ hc => by cases hc; trivial⟩
    case h_2 => exact ⟨.refl hu, by simp⟩
  case finalize => cases hr; exact ⟨.refl hu, fun _ hc => by cases hc; exact fun _ => trivial⟩
  case copy => cases hr; exact ⟨.refl hu, fun _ hc => by cases hc; trivial⟩
  case purge tree => exact (hp tree rfl).elim
  case removeUnreferenced cutoff batch => exact (hc cutoff batch rfl).elim

theorem System.finalizes_init :
    Shared.Holds (fun s => s.Recorded ∧ s.Settles u) (fun s c => Call.Known u s c) System.init where
  store := by
    refine ⟨Store.recorded_empty, ⟨?_, ?_, ?_⟩⟩
    all_goals intros; contradiction
  calls h := by contradiction

section

variable [Collation] [Digest]

theorem Call.next_steady {c : Call} {k : Option Call} (h : s.Recorded) (hu : s.Settles u)
    (hk : c.Known u s) (ha : ∀ d, c = .finalize d → d.upload = u → d.Agrees s)
    (hn : c.next s env = some (s', k)) : s.Steady u s' ∧ ∀ c', k = some c' → c'.Promoted u s' := by
  obtain ⟨hb, hp⟩ := hk
  cases c <;> simp only [Call.next] at hn
  case finalize c =>
    obtain ⟨⟨t, k'⟩, hm, he⟩ := Option.map_eq_some_iff.mp hn
    cases he
    obtain ⟨steady, hc⟩ := (Finalize.next_moves hm).steady h hu hb hp (ha c rfl)
    refine ⟨steady, fun c' he => ?_⟩
    obtain ⟨d, rfl, rfl⟩ := Option.map_eq_some_iff.mp he
    exact hc d rfl
  case link c =>
    obtain ⟨⟨t, k'⟩, hm, he⟩ := Option.map_eq_some_iff.mp hn
    cases he
    refine ⟨?_, fun c' hc => ?_⟩
    case refine_1 =>
      obtain rfl | ⟨id, hc, hl⟩ := Link.next_cases hm
      case inl => exact .refl hu
      case inr =>
        obtain ⟨_, files, fileId, rfl, _⟩ := Store.linkObject_ok hl
        exact hu.attach h
    case refine_2 =>
      obtain ⟨d, _, rfl⟩ := Option.map_eq_some_iff.mp hc
      trivial
  case copy c =>
    cases hn
    refine ⟨?_, fun c' hc => ?_⟩
    case refine_1 =>
      obtain he | ⟨hc, hn⟩ := Copy.next_cases s env c
      case inl => rw [he]; exact .refl hu
      case inr => exact hu.insertCopies h hn
    case refine_2 =>
      obtain ⟨d, _, rfl⟩ := Option.map_eq_some_iff.mp hc
      trivial
  all_goals exact hp.elim

namespace System

-- The upload `u` gets no purge, no collector and no checksum mismatch in its way.
structure Finalizes (u : Id) (s : System) (a : Action) : Prop where
  purge {i tree} : a ≠ .start i (.purge tree)
  collect {i cutoff batch} : a ≠ .start i (.removeUnreferenced cutoff batch)
  agrees {i env c} : a = .next i env → s.calls.lookup i = some (.finalize c) → c.upload = u →
    c.Agrees s.store

theorem finalizes_step {u : Id} {s s' : System} {a : Action}
    (h : Shared.Holds (fun s => s.Recorded ∧ s.Settles u) (fun s c => c.Known u s) s)
    (ha : Finalizes u s a) (hs : s.step a = some s') :
    Shared.Holds (fun s => s.Recorded ∧ s.Settles u) (fun s c => c.Known u s) s' := by
  obtain ⟨hr, hu⟩ := h.store
  refine h.step (fun {i r t k} he hq => ?start) (fun {i e c t k} he hc hk hn => ?next) hs
  case start =>
    subst he
    obtain ⟨follow, hb⟩ := Request.start_follow hr hq
    obtain ⟨steady, hk⟩ := Request.start_steady hr hu (fun _ e => ha.purge (by rw [e]))
      (fun _ _ e => ha.collect (by rw [e])) hq
    exact ⟨⟨follow.recorded, steady.settles⟩, fun h => ⟨hb _ h, hk _ h⟩, (·.grow hr steady.grows)⟩
  case next =>
    obtain ⟨follow, hb⟩ := Call.next_follow hr hk.bound hn
    obtain ⟨steady, hk⟩ := Call.next_steady hr hu hk (fun d hd => ha.agrees he (hd ▸ hc)) hn
    exact ⟨⟨follow.recorded, steady.settles⟩, fun h => ⟨hb _ h, hk _ h⟩, (·.grow hr steady.grows)⟩

theorem finalize_converges {u : Id} {s : System} (r : Steps step (Finalizes u) init s) :
    s.store.history.countP (·.reserves u) ≤ 1 ∧
    (∀ r r', .returned u r ∈ s.store.history → .returned u r' ∈ s.store.history →
      r.fileId = r'.fileId) ∧
    ∀ r, .returned u r ∈ s.store.history → ∃ o v, .reserved u o v r.fileId ∈ s.store.history ∧
      (∃ x, s.store.objects.lookup o = some x ∧ x.state = .ready) ∧
      (s.store.payloads.lookup o).isSome ∧
      ∀ x, s.store.sessions.lookup u = some x → s.store.staging.lookup x.stagingKey = none := by
  obtain ⟨h, hu⟩ := r.invariant finalizes_init finalizes_step |>.store
  refine ⟨h.count u, fun r r' hr hr' => ?same, fun r hr => ?done⟩
  case same =>
    obtain ⟨o, v, hr⟩ := h.returned hr
    obtain ⟨o', v', hr'⟩ := h.returned hr'
    exact (h.unique hr hr').right.right
  case done =>
    obtain ⟨o, v, hr'⟩ := h.returned hr
    have done := hu.returned hr hr'
    exact ⟨o, v, hr', done.ready, done.payload, fun _ => done.staging⟩

end System
end

section

attribute [local instance] Collation.binary Digest.hi

def finalizes (s : System) : Action → Bool
  | .start _ (.purge _)                => false
  | .start _ (.removeUnreferenced _ _) => false
  | .next i _                          =>
    match s.calls.lookup i with
    | some (.finalize c) => c.checksum = none
    | _                  => true
  | _                                  => true

theorem finalizes_of_check {u : Id} {s : System} {a : Action} (h : finalizes s a) :
    System.Finalizes u s a where
  purge he     := by subst he; contradiction
  collect he   := by subst he; contradiction
  agrees he hc := by
    subst he
    simp only [finalizes, hc, decide_eq_true_eq] at h
    intro _ t bytes sum _ _ hd
    rw [h] at hd
    cases hd

-- The first call crashes after its reservation, and two calls then race for the rename.
def racingCalls : List Action :=
  let session := {
    ownerId := 7, filename := "a.txt", stagingKey := 0, expectedSize := 2, expiresAt := 10 }
  [.start 0 (.upload session [104, 105]), .start 0 (.finalize 7 1 none), .next 0 {}, .drop 0,
   .start 1 (.finalize 7 1 none), .start 2 (.finalize 7 1 none)] ++
  List.replicate 6 (.next 1 {}) ++ List.replicate 6 (.next 2 {}) ++
  [.next 1 {}, .next 2 {}, .next 1 {}, .next 2 {}, .next 2 {}, .next 2 {}] ++
  [.next 1 {}, .next 2 {}, .next 1 {}]

theorem finalize_converges_race : ∃ s r r', Steps System.step (System.Finalizes 1) System.init s ∧
    .returned 1 r ∈ s.store.history ∧ .returned 1 r' ∈ s.store.history ∧ r ≠ r' ∧
    r.fileId = r'.fileId ∧ (s.store.payloads.lookup 3).isSome := by
  have run : (Execution.run (fun s a => if finalizes s a then System.step s a else none)
      System.init racingCalls).map (·.store.history) = some [
        .reserved 1 3 4 5, .readied 3, .returned 1 { fileId := 5 },
        .returned 1 { fileId := 5, versionId := some 4, checksum := Digest.sha256 [104, 105] }] := by
    decide +kernel
  obtain ⟨s, hs, he⟩ := Option.map_eq_some_iff.mp run
  have steps : Steps System.step (System.Finalizes 1) System.init s :=
    Execution.steps_of_run (fun _ _ => finalizes_of_check) hs
  obtain ⟨_, same, done⟩ := System.finalize_converges steps
  have h₁ : .returned 1 { fileId := 5 } ∈ s.store.history := by simp [he]
  have h₂ : .returned 1 { fileId := 5, versionId := some 4, checksum := Digest.sha256 [104, 105] } ∈
      s.store.history := by simp [he]
  obtain ⟨o, v, hr, _, hp, _⟩ := done _ h₁
  have ho : o = 3 ∧ v = 4 := by simpa [he] using hr
  exact ⟨s, _, _, steps, h₁, h₂, by simp, same _ _ h₁ h₂, ho.left ▸ hp⟩

end
end MyDrive.Transfers
