import MyDrive.Transfers.Theorems.Finalize

namespace MyDrive.Transfers

-- The upload that an event reserves rows for.
def Event.reserves (u : Id) : Event → Bool
  | .reserved upload _ _ _ => upload = u
  | _                      => false

theorem eq_of_countP_le_one {α : Type} {p : α → Bool} {xs : List α} {a b : α}
    (h : xs.countP p ≤ 1) (ha : a ∈ xs) (hb : b ∈ xs) (hpa : p a) (hpb : p b) : a = b := by
  induction xs
  case nil => contradiction
  case cons x xs ih =>
    have none_left (hx : p x) {c} (hc : c ∈ xs) (hpc : p c) : False := by
      have := List.countP_pos_iff.mpr ⟨c, hc, hpc⟩
      simp only [List.countP_cons, hx, if_true] at h
      omega
    rcases List.mem_cons.mp ha with rfl | ha' <;> rcases List.mem_cons.mp hb with rfl | hb'
    case inl.inl => rfl
    case inl.inr => exact (none_left hpa hb' hpb).elim
    case inr.inl => exact (none_left hpb ha' hpa).elim
    case inr.inr => exact ih (by rw [List.countP_cons] at h; omega) ha' hb'

-- A row that says no more about its upload than the row before it.
structure Session.Weakens (x' x : Session) : Prop where
  key : x.stagingKey = x'.stagingKey
  owner : x.ownerId = x'.ownerId
  file {f} : x'.finalFileId = some f → x.finalFileId = some f
  storage {o} : x'.storageObjectId = some o → x.storageObjectId = some o
  active : x'.state = .active → x.state = .active

theorem Session.Weakens.refl {x : Session} : Session.Weakens x x :=
  ⟨rfl, rfl, id, id, id⟩

namespace Store

-- What the history says about the rows of an upload.
structure Recorded (s : Store) : Prop where
  bound {u o v f} : .reserved u o v f ∈ s.history → u < s.next ∧ o < s.next
  count (u) : s.history.countP (·.reserves u) ≤ 1
  object {u w o v v' f f'} : .reserved u o v f ∈ s.history → .reserved w o v' f' ∈ s.history → u = w
  active {u x} : s.sessions.lookup u = some x → x.state = .active →
    s.history.countP (·.reserves u) = 0
  ids {u x} : s.sessions.lookup u = some x → u < s.next ∧ x.stagingKey < s.next
  file {u x f} : s.sessions.lookup u = some x → x.finalFileId = some f →
    ∃ o v, .reserved u o v f ∈ s.history
  storage {u x o} : s.sessions.lookup u = some x → x.storageObjectId = some o →
    ∃ v f, .reserved u o v f ∈ s.history
  keys {u w x y} : s.sessions.lookup u = some x → s.sessions.lookup w = some y →
    x.stagingKey = y.stagingKey → u = w
  returned {u r} : .returned u r ∈ s.history → ∃ o v, .reserved u o v r.fileId ∈ s.history

theorem Recorded.unique {s : Store} {u o v f o' v' f' : Id} (h : s.Recorded)
    (h₁ : .reserved u o v f ∈ s.history) (h₂ : .reserved u o' v' f' ∈ s.history) :
    o = o' ∧ v = v' ∧ f = f' := by
  have := eq_of_countP_le_one (h.count u) h₁ h₂ (by simp [Event.reserves]) (by simp [Event.reserves])
  simpa using this

-- No event is forgotten, and the rows of uploads keep their staging keys.
structure Extends (s s' : Store) : Prop where
  next : s.next ≤ s'.next
  history {e} : e ∈ s.history → e ∈ s'.history
  sessions {w x'} : w < s.next → s'.sessions.lookup w = some x' →
    ∃ x, s.sessions.lookup w = some x ∧ x.stagingKey = x'.stagingKey ∧ x.ownerId = x'.ownerId

structure Follows (s s' : Store) : Prop where
  recorded : s'.Recorded
  extend   : s.Extends s'

-- A step that neither creates an upload nor reserves one.
structure Frame (s s' : Store) (es : List Event) : Prop where
  next    : s.next ≤ s'.next
  history : s'.history = s.history ++ es
  reserved {w o v f} : .reserved w o v f ∉ es
  returned {w r} : .returned w r ∈ es → ∃ o v, .reserved w o v r.fileId ∈ s.history
  session {w x'} : s'.sessions.lookup w = some x' →
    ∃ x, s.sessions.lookup w = some x ∧ Session.Weakens x' x

variable {s s' s'' : Store} {u w o v f : Id} {es : List Event}

theorem Extends.refl : s.Extends s where
  next         := Nat.le_refl _
  history h    := h
  sessions _ h := ⟨_, h, rfl, rfl⟩

theorem Extends.trans (h₁ : s.Extends s') (h₂ : s'.Extends s'') : s.Extends s'' where
  next          := Nat.le_trans h₁.next h₂.next
  history h     := h₂.history (h₁.history h)
  sessions hw h := by
    obtain ⟨x', hx', hk', ho'⟩ := h₂.sessions (Nat.lt_of_lt_of_le hw h₁.next) h
    obtain ⟨x, hx, hk, ho⟩ := h₁.sessions hw hx'
    exact ⟨x, hx, hk.trans hk', ho.trans ho'⟩

theorem Follows.refl (h : s.Recorded) : s.Follows s :=
  ⟨h, .refl⟩

theorem Follows.trans (h₁ : s.Follows s') (h₂ : s'.Follows s'') : s.Follows s'' :=
  ⟨h₂.recorded, h₁.extend.trans h₂.extend⟩

theorem Frame.mem_reserved (m : s.Frame s' es) :
    .reserved w o v f ∈ s'.history ↔ .reserved w o v f ∈ s.history := by
  rw [m.history, List.mem_append]
  exact ⟨(·.resolve_right m.reserved), .inl⟩

theorem Frame.countP (m : s.Frame s' es) (w : Id) :
    s'.history.countP (·.reserves w) = s.history.countP (·.reserves w) := by
  have : es.countP (·.reserves w) = 0 := List.countP_eq_zero.mpr fun e hm => by
    cases e
    case reserved => exact absurd hm m.reserved
    all_goals simp [Event.reserves]
  rw [m.history, List.countP_append, this, Nat.add_zero]

theorem Frame.extend (m : s.Frame s' es) : s.Extends s' where
  next         := m.next
  history h    := m.history ▸ List.mem_append_left _ h
  sessions _ h := by
    obtain ⟨x, hx, hw⟩ := m.session h
    exact ⟨x, hx, hw.key, hw.owner⟩

theorem Recorded.frame (h : s.Recorded) (m : s.Frame s' es) : s'.Recorded where
  bound hr := by
    have := h.bound (m.mem_reserved.mp hr)
    exact ⟨Nat.lt_of_lt_of_le this.left m.next, Nat.lt_of_lt_of_le this.right m.next⟩
  count w := m.countP w ▸ h.count w
  object h₁ h₂ := h.object (m.mem_reserved.mp h₁) (m.mem_reserved.mp h₂)
  active hx ha := by
    obtain ⟨x, hx, hw⟩ := m.session hx
    exact m.countP _ ▸ h.active hx (hw.active ha)
  ids hx := by
    obtain ⟨x, hx, hw⟩ := m.session hx
    have := h.ids hx
    exact ⟨Nat.lt_of_lt_of_le this.left m.next, hw.key ▸ Nat.lt_of_lt_of_le this.right m.next⟩
  file hx hf := by
    obtain ⟨x, hx, hw⟩ := m.session hx
    simpa only [m.mem_reserved] using h.file hx (hw.file hf)
  storage hx ho := by
    obtain ⟨x, hx, hw⟩ := m.session hx
    simpa only [m.mem_reserved] using h.storage hx (hw.storage ho)
  keys hx hy hk := by
    obtain ⟨x, hx, hw⟩ := m.session hx
    obtain ⟨y, hy, hw'⟩ := m.session hy
    exact h.keys hx hy (hw.key.trans (hk.trans hw'.key.symm))
  returned hr := by
    simp only [m.mem_reserved]
    rw [m.history, List.mem_append] at hr
    cases hr
    case inl hr => exact h.returned hr
    case inr hr => exact m.returned hr

theorem Recorded.follow (h : s.Recorded) (es : List Event) (m : s.Frame s' es) : s.Follows s' :=
  ⟨h.frame m, m.extend⟩

-- The uploads are as before, and the events are about other things.
theorem Frame.of_rows (es : List Event) (hn : s.next ≤ s'.next) (hh : s'.history = s.history ++ es)
    (hx : s'.sessions = s.sessions) (hr : ∀ {w o v f}, .reserved w o v f ∉ es)
    (ht : ∀ {w r}, .returned w r ∉ es) : s.Frame s' es where
  next       := hn
  history    := hh
  reserved   := hr
  returned h := absurd h ht
  session h  := ⟨_, hx ▸ h, .refl⟩

theorem Recorded.unreserved (h : s.Recorded) (hw : s.next ≤ w) :
    s.history.countP (·.reserves w) = 0 := by
  refine List.countP_eq_zero.mpr fun e he hr => ?_
  cases e <;> simp only [Event.reserves, decide_eq_true_eq, Bool.false_eq_true] at hr
  case reserved =>
    subst hr
    exact absurd (h.bound he).left (Nat.not_lt_of_le hw)

theorem Recorded.not_reserved_of_active {x : Session} (h : s.Recorded)
    (hx : s.sessions.lookup w = some x) (ha : x.state = .active) :
    .reserved w o v f ∉ s.history := by
  intro hr
  have := List.countP_eq_zero.mp (h.active hx ha) _ hr
  simp [Event.reserves] at this

theorem lookup_sessions_set {x y : Session} (hy : (s.sessions.set u x).lookup w = some y) :
    w = u ∧ y = x ∨ s.sessions.lookup w = some y := by
  rw [Table.lookup_set] at hy
  split at hy
  case isTrue hw => exact .inl ⟨hw, (Option.some.inj hy).symm⟩
  case isFalse   => exact .inr hy

theorem Recorded.createUpload {session : Session} {bytes : List UInt8} (h : s.Recorded)
    (hc : s.createUpload session bytes = some s') : s.Follows s' := by
  obtain ⟨x, _, hk, ho, hf, rfl⟩ := createUpload_some hc
  have grow {n : Id} (hn : n < s.next) : n < s.next + 3 := Nat.lt_add_right 3 hn
  have new : s.next < s.next + 3 ∧ s.next + 1 < s.next + 3 :=
    ⟨Nat.lt_add_of_pos_right (by decide), Nat.add_lt_add_left (by decide : 1 < 3) _⟩
  refine ⟨?recorded, ⟨Nat.le_add_right s.next 3, fun h => h, fun {w y} hw hy => ?sessions⟩⟩
  case recorded =>
    refine ⟨fun hr => ?_, h.count, h.object, fun hy hs => ?_, fun hy => ?_, fun hy hf' => ?_,
      fun hy ho' => ?_, fun hy hz he => ?_, h.returned⟩
    case refine_1 => exact ⟨grow (h.bound hr).left, grow (h.bound hr).right⟩
    case refine_2 =>
      rcases lookup_sessions_set hy with ⟨rfl, rfl⟩ | hy
      case inl => exact h.unreserved (Nat.le_add_right _ _)
      case inr => exact h.active hy hs
    case refine_3 =>
      rcases lookup_sessions_set hy with ⟨rfl, rfl⟩ | hy
      case inl => exact ⟨new.right, hk ▸ new.left⟩
      case inr => exact ⟨grow (h.ids hy).left, grow (h.ids hy).right⟩
    case refine_4 =>
      rcases lookup_sessions_set hy with ⟨rfl, rfl⟩ | hy
      case inl => cases hf.symm.trans hf'
      case inr => exact h.file hy hf'
    case refine_5 =>
      rcases lookup_sessions_set hy with ⟨rfl, rfl⟩ | hy
      case inl => cases ho.symm.trans ho'
      case inr => exact h.storage hy ho'
    case refine_6 =>
      rcases lookup_sessions_set hy with ⟨hw, rfl⟩ | hy' <;>
        rcases lookup_sessions_set hz with ⟨hw', rfl⟩ | hz'
      case inl.inl => exact hw.trans hw'.symm
      case inl.inr => exact absurd (h.ids hz').right (Nat.not_lt_of_le (by simp [← he, hk]))
      case inr.inl => exact absurd (h.ids hy').right (Nat.not_lt_of_le (by simp [he, hk]))
      case inr.inr => exact h.keys hy' hz' he
  case sessions =>
    have hn : w ≠ s.next + 1 := Nat.ne_of_lt (Nat.lt_add_right 1 hw)
    exact ⟨y, by simpa [hn] using hy, rfl, rfl⟩

section

variable {env : Env} {x y : Session} {files : Table Id File} {fileId : Id}

theorem mem_reservation : .reserved u o v f ∈ (s.reservation env w x files fileId).history ↔
    .reserved u o v f ∈ s.history ∨ u = w ∧ o = s.next ∧ v = s.next + 1 ∧ f = fileId := by
  simp [reservation]

theorem countP_reservation : (s.reservation env w x files fileId).history.countP (·.reserves u) =
    s.history.countP (·.reserves u) + if w = u then 1 else 0 := by
  simp [reservation, List.countP_append, Event.reserves]

-- The row of `w` changes its state and gets its ids, and the other rows stay.
theorem lookup_sessions_reservation (hx : s.sessions.lookup w = some x)
    (hy : (s.reservation env w x files fileId).sessions.lookup u = some y) :
    u = w ∧ y = { x with
      state := .finalizing, storageObjectId := some s.next, finalFileId := some fileId } ∨
    u ≠ w ∧ s.sessions.lookup u = some y := by
  simp only [reservation, Table.lookup_filterMap, Option.bind_eq_some_iff, Option.some.injEq] at hy
  obtain ⟨z, hz, he⟩ := hy
  split at he
  case isTrue hw =>
    subst hw
    cases hx.symm.trans hz
    exact .inl ⟨rfl, he.symm⟩
  case isFalse hw => exact .inr ⟨hw, he ▸ hz⟩

theorem Recorded.reserve (h : s.Recorded) (hx : s.sessions.lookup w = some x)
    (ha : x.state = .active) : s.Follows (s.reservation env w x files fileId) := by
  have grow {n : Id} (hn : n < s.next) : n < s.next + 3 := Nat.lt_add_right 3 hn
  have old {e : Event} (he : e ∈ s.history) :
      e ∈ (s.reservation env w x files fileId).history := List.mem_append_left _ he
  refine ⟨?recorded, ⟨Nat.le_add_right s.next 3, old, fun {u y} _ hy => ?sessions⟩⟩
  case recorded =>
    refine ⟨fun hr => ?_, fun w' => ?_, fun h₁ h₂ => ?_, fun hy hs => ?_, fun hy => ?_,
      fun hy hf => ?_, fun hy ho => ?_, fun hy hz he => ?_, fun hr => ?_⟩
    case refine_1 =>
      rcases mem_reservation.mp hr with hr | ⟨rfl, rfl, _⟩
      case inl => exact ⟨grow (h.bound hr).left, grow (h.bound hr).right⟩
      case inr => exact ⟨grow (h.ids hx).left, Nat.lt_add_of_pos_right (by decide)⟩
    case refine_2 =>
      rw [countP_reservation]
      split
      case isTrue hw => simp [← hw, h.active hx ha]
      case isFalse   => exact h.count w'
    case refine_3 =>
      rcases mem_reservation.mp h₁ with h₁' | ⟨hw, ho, _⟩ <;>
        rcases mem_reservation.mp h₂ with h₂' | ⟨hw', ho', _⟩
      case inl.inl => exact h.object h₁' h₂'
      case inl.inr => exact absurd (h.bound h₁').right (Nat.not_lt_of_le (Nat.le_of_eq ho'.symm))
      case inr.inl => exact absurd (h.bound h₂').right (Nat.not_lt_of_le (Nat.le_of_eq ho.symm))
      case inr.inr => exact hw.trans hw'.symm
    case refine_4 =>
      rcases lookup_sessions_reservation hx hy with ⟨_, rfl⟩ | ⟨hw, hy⟩
      case inl => cases hs
      case inr => rw [countP_reservation, h.active hy hs, if_neg fun e => hw e.symm]
    case refine_5 =>
      rcases lookup_sessions_reservation hx hy with ⟨rfl, rfl⟩ | ⟨_, hy⟩
      case inl => exact ⟨grow (h.ids hx).left, grow (h.ids hx).right⟩
      case inr => exact ⟨grow (h.ids hy).left, grow (h.ids hy).right⟩
    case refine_6 =>
      rcases lookup_sessions_reservation hx hy with ⟨rfl, rfl⟩ | ⟨_, hy⟩
      case inl =>
        cases hf
        exact ⟨_, _, mem_reservation.mpr (.inr ⟨rfl, rfl, rfl, rfl⟩)⟩
      case inr =>
        obtain ⟨o, v, hr⟩ := h.file hy hf
        exact ⟨o, v, old hr⟩
    case refine_7 =>
      rcases lookup_sessions_reservation hx hy with ⟨rfl, rfl⟩ | ⟨_, hy⟩
      case inl =>
        cases ho
        exact ⟨_, _, mem_reservation.mpr (.inr ⟨rfl, rfl, rfl, rfl⟩)⟩
      case inr =>
        obtain ⟨v, f, hr⟩ := h.storage hy ho
        exact ⟨v, f, old hr⟩
    case refine_8 =>
      rcases lookup_sessions_reservation hx hy with ⟨hw, rfl⟩ | ⟨_, hy'⟩ <;>
        rcases lookup_sessions_reservation hx hz with ⟨hw', rfl⟩ | ⟨_, hz'⟩
      case inl.inl => exact hw.trans hw'.symm
      case inl.inr => exact hw.trans (h.keys hx hz' he)
      case inr.inl => exact (h.keys hy' hx he).trans hw'.symm
      case inr.inr => exact h.keys hy' hz' he
    case refine_9 =>
      obtain ⟨o, v, hr⟩ := h.returned (by simpa [reservation] using hr)
      exact ⟨o, v, old hr⟩
  case sessions =>
    rcases lookup_sessions_reservation hx hy with ⟨rfl, rfl⟩ | ⟨_, hy⟩
    case inl => exact ⟨x, hx, rfl, rfl⟩
    case inr => exact ⟨y, hy, rfl, rfl⟩

end

theorem Recorded.log_returned {r : UploadFinalized} (h : s.Recorded)
    (hr : ∃ o v, .reserved w o v r.fileId ∈ s.history) : s.Follows (s.returned w r) := by
  refine h.follow [.returned w r] ⟨Nat.le_refl _, rfl, by simp, fun he => ?_,
    fun hx => ⟨_, hx, .refl⟩⟩
  simp only [List.mem_singleton, Event.returned.injEq] at he
  obtain ⟨rfl, rfl⟩ := he
  exact hr

theorem Recorded.log_enqueued (h : s.Recorded) : s.Follows (s.log (.enqueued u v)) :=
  h.follow [.enqueued u v] (.of_rows _ (Nat.le_refl _) rfl rfl (by simp) (by simp))

theorem lookup_completed {x' : Session} {id : Id} {checksum : String}
    (hx' : ((s.readied id checksum).updateSession w
      fun x => { x with state := .completed }).sessions.lookup u = some x') :
    ∃ x, s.sessions.lookup u = some x ∧
      (u = w ∧ x' = { x with state := .completed } ∨ u ≠ w ∧ x' = x) := by
  simp only [lookup_updateSession, sessions_readied] at hx'
  obtain ⟨x, hx, rfl⟩ := Option.map_eq_some_iff.mp hx'
  refine ⟨x, hx, ?_⟩
  split
  case isTrue hw  => exact .inl ⟨hw, rfl⟩
  case isFalse hw => exact .inr ⟨hw, rfl⟩

theorem Recorded.complete {owner : Id} {t : Target} {checksum : String} {r : Option Id}
    (h : s.Recorded) (hc : s.complete owner w t checksum = .ok (s', r)) : s.Follows s' := by
  obtain ⟨session, hx, ⟨_, rfl, _⟩ | ⟨_, _, _, _, rfl⟩⟩ := complete_ok hc
  case inl => exact .refl h
  case inr =>
    have weakens {w' x'} (hx' : ((s.readied t.objectId checksum).updateSession w
        fun x => { x with state := .completed }).sessions.lookup w' = some x') :
        ∃ x, s.sessions.lookup w' = some x ∧ Session.Weakens x' x := by
      obtain ⟨x, hx, ⟨_, rfl⟩ | ⟨_, rfl⟩⟩ := lookup_completed hx'
      case inl => exact ⟨x, hx, rfl, rfl, id, id, by simp⟩
      case inr => exact ⟨_, hx, .refl⟩
    rcases readied_cases s t.objectId checksum with ⟨_, he⟩ | ⟨_, _, _, he⟩ <;> rw [he] at weakens ⊢
    case inl => exact h.follow [] ⟨Nat.le_refl _, by simp [updateSession], by simp, by simp, weakens⟩
    case inr => exact h.follow [.readied t.objectId] ⟨Nat.le_refl _, rfl, by simp, by simp, weakens⟩

theorem lookup_deleteFiles {ids : List Id} {x' : Session} (hd : s.deleteFiles ids = .ok s')
    (hx' : s'.sessions.lookup u = some x') : ∃ x, s.sessions.lookup u = some x ∧
      x.finalFileId.all (· ∉ ids) ∧
      x' = { x with replaceFileId := x.replaceFileId.filter (· ∉ ids) } := by
  obtain ⟨_, rfl⟩ := deleteFiles_ok hd
  simp only [Table.lookup_filterMap, Option.bind_eq_some_iff] at hx'
  obtain ⟨x, hx, he⟩ := hx'
  split at he <;> cases he
  case isFalse hn =>
    refine ⟨x, hx, ?_, rfl⟩
    cases hf : x.finalFileId <;> simp_all

theorem Recorded.deleteFiles {ids : List Id} (h : s.Recorded) (hd : s.deleteFiles ids = .ok s') :
    s.Follows s' := by
  refine h.follow [] ⟨?_, ?_, by simp, by simp, fun hx' => ?_⟩
  case refine_1 => obtain ⟨_, rfl⟩ := deleteFiles_ok hd; exact Nat.le_refl _
  case refine_2 => obtain ⟨_, rfl⟩ := deleteFiles_ok hd; simp
  case refine_3 =>
    obtain ⟨x, hx, _, rfl⟩ := lookup_deleteFiles hd hx'
    exact ⟨x, hx, rfl, rfl, id, id, id⟩

theorem lookup_deleteFolders {ids : List Id} {x' : Session} (hd : s.deleteFolders ids = .ok s')
    (hx' : s'.sessions.lookup u = some x') : ∃ x, s.sessions.lookup u = some x ∧
      x' = { x with parentId := x.parentId.filter (· ∉ ids) } := by
  cases deleteFolders_ok hd
  simp only [Table.lookup_filterMap, Option.bind_eq_some_iff, Option.some.injEq] at hx'
  obtain ⟨x, hx, he⟩ := hx'
  exact ⟨x, hx, he.symm⟩

theorem Recorded.deleteFolders {ids : List Id} (h : s.Recorded)
    (hd : s.deleteFolders ids = .ok s') : s.Follows s' := by
  refine h.follow [] ⟨?_, ?_, by simp, by simp, fun hx' => ?_⟩
  case refine_1 => cases deleteFolders_ok hd; exact Nat.le_refl _
  case refine_2 => cases deleteFolders_ok hd; simp
  case refine_3 =>
    obtain ⟨x, hx, rfl⟩ := lookup_deleteFolders hd hx'
    exact ⟨x, hx, rfl, rfl, id, id, id⟩

theorem lookup_deleteObject {x' : Session} (hd : s.deleteObject o = .ok s')
    (hx' : s'.sessions.lookup u = some x') : ∃ x, s.sessions.lookup u = some x ∧
      x' = { x with storageObjectId := x.storageObjectId.filter (· ≠ o) } := by
  obtain ⟨_, _, rfl⟩ := deleteObject_ok hd
  simp only [Table.lookup_filterMap, Option.bind_eq_some_iff, Option.some.injEq] at hx'
  obtain ⟨x, hx, he⟩ := hx'
  exact ⟨x, hx, he.symm⟩

theorem Recorded.deleteObject (h : s.Recorded) (hd : s.deleteObject o = .ok s') :
    s.Follows s' := by
  refine h.follow [] ⟨?_, ?_, by simp, by simp, fun hx' => ?_⟩
  case refine_1 => obtain ⟨_, _, rfl⟩ := deleteObject_ok hd; exact Nat.le_refl _
  case refine_2 => obtain ⟨_, _, rfl⟩ := deleteObject_ok hd; simp
  case refine_3 =>
    obtain ⟨x, hx, rfl⟩ := lookup_deleteObject hd hx'
    exact ⟨x, hx, rfl, rfl, id, fun ho => (Option.filter_eq_some_iff.mp ho).left, id⟩

theorem Recorded.failUpload (h : s.Recorded) : s.Follows (s.failUpload w) := by
  refine h.follow [] ⟨Nat.le_refl _, by simp [Store.failUpload, updateSession], by simp, by simp,
    fun hx' => ?_⟩
  rw [Store.failUpload, lookup_updateSession] at hx'
  obtain ⟨x, hx, rfl⟩ := Option.map_eq_some_iff.mp hx'
  refine ⟨x, hx, ?_⟩
  split
  case isTrue  => exact ⟨rfl, rfl, by simp, by simp, by simp⟩
  case isFalse => exact .refl

theorem Recorded.files {files : Table Id File} {versions : Table Id FileVersion}
    (h : s.Recorded) : s.Follows { s with files, versions } :=
  h.follow [] (.of_rows [] (Nat.le_refl _) (by simp) rfl (by simp) (by simp))

theorem Recorded.removeFile (h : s.Recorded) (hd : s.removeFile f = .ok s') : s.Follows s' := by
  have files : s.Follows ((s.setCurrent f none).deleteVersions fun _ v => v.fileId = f) := h.files
  exact files.trans (files.recorded.deleteFiles hd)

theorem Recorded.restorePrevious {newVersion previous : Option Id} (h : s.Recorded) :
    s.Follows (s.restorePrevious f newVersion previous) := by
  simp only [Store.restorePrevious]
  split
  case h_1 => exact h.files
  case h_2 => exact h.files

theorem Recorded.reject {row : Option Id} {owner : Id} {t : Target} (h : s.Recorded)
    (hr : s.rejectMismatchedUpload row owner w t = some (.ok (some s'))) : s.Follows s' := by
  obtain ⟨session, _, _, _, _, y, z, hz, rfl, hy⟩ := rejectMismatchedUpload_ok hr
  have failed : s.Follows (s.failUpload w) := h.failUpload
  have undone : s.Follows y := by
    rcases hy with ⟨previous, _, _, rfl⟩ | ⟨_, hy⟩ | ⟨_, _, rfl⟩
    case inl     => exact failed.trans failed.recorded.restorePrevious
    case inr.inl => exact failed.trans (failed.recorded.removeFile hy)
    case inr.inr => exact failed
  have deleted := undone.trans (undone.recorded.deleteObject hz)
  refine deleted.trans (deleted.recorded.follow [.rejected w] ?_)
  exact .of_rows _ (Nat.le_refl _) rfl rfl (by simp) (by simp)

-- `k` is the staging key of the upload `w`, which is one of `owner`.
structure Key (s : Store) (w k owner : Id) : Prop where
  upload : w < s.next
  bound  : k < s.next
  row {x} : s.sessions.lookup w = some x → x.stagingKey = k ∧ x.ownerId = owner

theorem Recorded.key {x : Session} (h : s.Recorded) (hx : s.sessions.lookup w = some x) :
    s.Key w x.stagingKey x.ownerId where
  upload := (h.ids hx).left
  bound  := (h.ids hx).right
  row hy := by cases hx.symm.trans hy; exact ⟨rfl, rfl⟩

theorem Key.extend {k owner : Id} (h : s.Key w k owner) (g : s.Extends s') : s'.Key w k owner where
  upload := Nat.lt_of_lt_of_le h.upload g.next
  bound  := Nat.lt_of_lt_of_le h.bound g.next
  row hx := by
    obtain ⟨x, hx, hk, ho⟩ := g.sessions h.upload hx
    exact ⟨hk ▸ (h.row hx).left, ho ▸ (h.row hx).right⟩

end Store

namespace Finalize

-- The ids that a finalizer works with are those of its upload.
def Bound (s : Store) (c : Finalize) : Prop :=
  match c.stage with
  | .begun                                              => True
  | .committed session                                  =>
    s.Key c.upload session.stagingKey c.owner ∧
    (∀ f, session.finalFileId = some f → ∃ o v, .reserved c.upload o v f ∈ s.history) ∧
    (∀ o, session.storageObjectId = some o → ∃ v f, .reserved c.upload o v f ∈ s.history)
  | .fileRead session f                                 =>
    s.Key c.upload session.stagingKey c.owner ∧ ∃ o v, .reserved c.upload o v f ∈ s.history
  | .located session f o | .opened session f o          =>
    s.Key c.upload session.stagingKey c.owner ∧ ∃ v, .reserved c.upload o v f ∈ s.history
  | .promoting t _ | .sourceChecked t _ _ | .destinationFree t | .renameLost t | .destinationSeen t
  | .promoted t | .hashed t _ | .mismatched t | .completed t _ | .rejected t =>
    s.Key c.upload t.stagingKey c.owner ∧ ∃ v, .reserved c.upload t.objectId v t.fileId ∈ s.history

variable {s s' : Store} {c : Finalize}

theorem Bound.extend (h : c.Bound s) (g : s.Extends s') : c.Bound s' := by
  obtain ⟨_, w, _, stage⟩ := c
  cases stage <;> simp only [Bound] at h ⊢
  case committed =>
    refine ⟨h.left.extend g, fun f hf => ?_, fun o ho => ?_⟩
    case refine_1 =>
      obtain ⟨o, v, hr⟩ := h.right.left f hf
      exact ⟨o, v, g.history hr⟩
    case refine_2 =>
      obtain ⟨v, f, hr⟩ := h.right.right o ho
      exact ⟨v, f, g.history hr⟩
  case fileRead =>
    obtain ⟨hk, o, v, hr⟩ := h
    exact ⟨hk.extend g, o, v, g.history hr⟩
  all_goals
    obtain ⟨hk, v, hr⟩ := h
    exact ⟨hk.extend g, v, g.history hr⟩

variable [Collation] [Digest] {env : Env} {k : Option Finalize}

theorem Moves.follow (m : c.Moves s env s' k) (h : s.Recorded) (hb : c.Bound s) :
    s.Follows s' ∧ ∀ c', k = some c' → c'.Bound s' := by
  have same {stage} (hb : Bound s { c with stage }) :
      s.Follows s ∧ ∀ c', c.goto stage = some c' → c'.Bound s :=
    ⟨.refl h, fun _ he => Option.some.inj he ▸ hb⟩
  have moved {stage} (hf : s.Follows s') (hb : Bound s { c with stage }) :
      s.Follows s' ∧ ∀ c', c.goto stage = some c' → c'.Bound s' :=
    ⟨hf, fun _ he => Option.some.inj he ▸ Bound.extend (c := { c with stage }) hb hf.extend⟩
  cases m <;> simp only [Bound, *] at hb
  case stop                     => exact ⟨.refl h, by simp⟩
  case again hx _ hf            => exact ⟨h.log_returned (h.file hx hf), by simp⟩
  case reserve session _ hx ho hs hr =>
    obtain ⟨_, files, fileId, rfl, _⟩ := Store.reserve_ok hr
    exact moved (h.reserve hx hs) ⟨ho ▸ h.key hx, fun _ => h.file hx, fun _ => h.storage hx⟩
  case resume hx ho _           =>
    exact same ⟨ho ▸ h.key hx, fun _ => h.file hx, fun _ => h.storage hx⟩
  case locate                   =>
    obtain ⟨hk, hf, ho⟩ := hb
    obtain ⟨o, v, hr⟩ := hf _ rfl
    obtain ⟨v', f, hr'⟩ := ho _ rfl
    obtain ⟨rfl, _, _⟩ := h.unique hr hr'
    exact same ⟨hk, v, hr⟩
  case readFile hx hf           => exact same ⟨hb.left, h.file hx hf⟩
  case readObject hx ho         =>
    obtain ⟨hk, o, v, hr⟩ := hb
    obtain ⟨v', f, hr'⟩ := h.storage hx ho
    obtain ⟨rfl, _, _⟩ := h.unique hr hr'
    exact same ⟨hk, v, hr⟩
  case rename t bytes _ _       =>
    exact moved (h.follow [] (.of_rows [] (Nat.le_refl _) (by simp) rfl (by simp) (by simp))) hb
  case complete hc              => exact moved (h.complete hc) hb
  case index hc _               =>
    have complete := h.complete hc
    exact moved (complete.trans complete.recorded.log_enqueued) hb
  case already hc               =>
    obtain ⟨session, hx, ⟨_, rfl, hf, _⟩ | ⟨_, _, _, he, _⟩⟩ := Store.complete_ok hc
    case inl => exact ⟨h.log_returned (h.file hx hf.symm), by simp⟩
    case inr => cases he
  case answer t sum _           => exact ⟨h.log_returned ⟨_, hb.right⟩, by simp⟩
  case reject hr                => exact moved (h.reject hr) hb
  case unlink                   =>
    exact ⟨h.follow [] (.of_rows [] (Nat.le_refl _) (by simp) rfl (by simp) (by simp)), by simp⟩
  all_goals exact same hb

end Finalize

def Call.Bound (s : Store) : Call → Prop
  | .finalize c => c.Bound s
  | _           => True

variable {s s' : Store} {env : Env}

theorem Call.Bound.extend {c : Call} (h : c.Bound s) (g : s.Extends s') : c.Bound s' := by
  cases c
  case finalize => exact Finalize.Bound.extend h g
  all_goals trivial

theorem Store.Recorded.attach {files : Table Id File} {f : Id} {v : FileVersion} (h : s.Recorded) :
    s.Follows (s.attachment files f v) :=
  h.follow [.attached s.next f] (.of_rows _ (Nat.le_add_right _ _) rfl rfl (by simp) (by simp))

theorem Store.Recorded.insertCopies [Collation] {c : Copy} (h : s.Recorded)
    (hc : s.insertCopies env c = .ok s') : s.Follows s' := by
  refine Except.foldlM_invariant (P := fun t => s.Follows t) hc (.refl h) fun t f t' _ ht hf => ?_
  refine ht.trans ?_
  obtain ⟨_, rfl⟩ | ⟨_, _, _, _, rfl⟩ := insertCopy_ok hf
  case inl =>
    exact ht.recorded.follow []
      (.of_rows _ (Nat.le_add_right _ _) (by simp) rfl (by simp) (by simp))
  case inr => exact ht.recorded.attach

theorem Store.Recorded.objects {objects : Table Id StorageObject}
    {payloads : Table Id (List UInt8)} (h : s.Recorded) : s.Follows { s with objects, payloads } :=
  h.follow [] (.of_rows [] (Nat.le_refl _) (by simp) rfl (by simp) (by simp))

theorem Store.Recorded.purgeFiles {ids : List Id} (h : s.Recorded)
    (hp : s.purgeFiles ids = .ok s') : s.Follows s' := by
  have files : s.Follows (s.deleteVersions fun _ v => v.fileId ∈ ids) := h.files
  exact files.trans (files.recorded.deleteFiles hp)

theorem Store.Recorded.purgeTree {tree : Subtree} (h : s.Recorded)
    (hp : s.purgeTree tree = .ok s') : s.Follows s' := by
  obtain ⟨t, ht, hp⟩ := Except.bind_eq_ok_iff.mp hp
  have files := h.purgeFiles ht
  exact files.trans (files.recorded.deleteFolders hp)

theorem Store.Recorded.sweep {c : Sweep} (h : s.Recorded) : s.Follows (c.next s env).1 := by
  rw [Sweep.next]
  split
  case h_1 => exact .refl h
  case h_2 =>
    split
    case isTrue => exact h.objects
    case isFalse => split <;> exact .refl h
  case h_3 =>
    split
    case h_1 => exact .refl h
    case h_2 hd =>
      obtain rfl | hd := deleteMarked_ok hd
      case inl => exact .refl h
      case inr => exact h.deleteObject hd

theorem Request.start_follow {r : Request} {k : Option Call} (h : s.Recorded)
    (hr : r.start s = some (s', k)) : s.Follows s' ∧ ∀ c, k = some c → c.Bound s' := by
  cases r <;> simp only [Request.start] at hr
  case upload =>
    obtain ⟨t, ht, he⟩ := Option.map_eq_some_iff.mp hr
    cases he
    exact ⟨h.createUpload ht, by simp⟩
  case entry =>
    cases hr
    exact ⟨h.files, by simp⟩
  case link => split at hr <;> cases hr <;> exact ⟨.refl h, fun c hc => by cases hc <;> trivial⟩
  all_goals
    cases hr
    exact ⟨.refl h, fun c hc => by cases hc; trivial⟩

theorem Call.next_follow [Collation] [Digest] {c : Call} {k : Option Call} (h : s.Recorded)
    (hb : c.Bound s) (hn : c.next s env = some (s', k)) :
    s.Follows s' ∧ ∀ c', k = some c' → c'.Bound s' := by
  cases c <;> simp only [Call.next] at hn
  case finalize =>
    obtain ⟨⟨t, k'⟩, hm, he⟩ := Option.map_eq_some_iff.mp hn
    cases he
    obtain ⟨hf, hc⟩ := (Finalize.next_moves hm).follow h hb
    refine ⟨hf, fun c' he => ?_⟩
    obtain ⟨d, rfl, rfl⟩ := Option.map_eq_some_iff.mp he
    exact hc d rfl
  case link =>
    obtain ⟨⟨t, k'⟩, hm, he⟩ := Option.map_eq_some_iff.mp hn
    cases he
    refine ⟨?_, fun c' hc => by obtain ⟨d, _, rfl⟩ := Option.map_eq_some_iff.mp hc; trivial⟩
    obtain rfl | ⟨id, hc, hl⟩ := Link.next_cases hm
    case inl => exact .refl h
    case inr =>
      obtain ⟨_, files, fileId, rfl, _⟩ := Store.linkObject_ok hl
      exact h.attach
  case copy c =>
    cases hn
    refine ⟨?_, fun c' hc => by obtain ⟨d, _, rfl⟩ := Option.map_eq_some_iff.mp hc; trivial⟩
    obtain he | ⟨hc, hn⟩ := Copy.next_cases s env c
    case inl => rw [he]; exact .refl h
    case inr => exact h.insertCopies hn
  case purge =>
    cases hn
    exact ⟨.refl h, fun c' hc => by cases hc; trivial⟩
  case purgeObjects =>
    split at hn <;> cases hn
    case h_1 => exact ⟨.refl h, by simp⟩
    case h_2 hp => exact ⟨h.purgeTree hp, fun c' hc => by cases hc; trivial⟩
  case mark =>
    cases hn
    exact ⟨h.objects, fun c' hc => by cases hc; trivial⟩
  case sweep =>
    cases hn
    exact ⟨h.sweep, fun c' hc => by obtain ⟨d, _, rfl⟩ := Option.map_eq_some_iff.mp hc; trivial⟩

theorem Store.recorded_empty : ({} : Store).Recorded := by
  refine ⟨?_, ?_, ?_, ?_, ?_, ?_, ?_, ?_, ?_⟩
  case refine_2 => intro; exact Nat.zero_le _
  all_goals intros; contradiction

end MyDrive.Transfers
