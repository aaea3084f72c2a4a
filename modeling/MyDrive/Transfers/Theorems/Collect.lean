import MyDrive.Transfers.Theorems.Finalize

open Execution

namespace MyDrive.Transfers
namespace Store

-- The invariant of the tables and directories, as long as no version of an object that a collector
-- has marked is added.
structure Sound (s : Store) : Prop where
  referenced {x v} : s.versions.lookup x = some v →
    ∃ o, s.objects.lookup v.objectId = some o ∧ o.state ≠ .deleting
  finalizing {x u id} : s.sessions.lookup x = some u → u.state = .finalizing →
    u.storageObjectId = some id → ∃ o, s.objects.lookup id = some o ∧ o.state ≠ .deleting
  payload {id o} : s.objects.lookup id = some o → o.state = .ready → (s.payloads.lookup id).isSome
  readied {id o} : .readied id ∈ s.history → s.objects.lookup id = some o →
    o.state = .ready ∨ o.state = .deleting
  objectIds {id o} : s.objects.lookup id = some o → id < s.next
  readiedIds {id} : .readied id ∈ s.history → id < s.next
  sessionIds {x u id} : s.sessions.lookup x = some u → u.storageObjectId = some id → id < s.next

-- Deleted objects do not come back, a mark is final, and only the payload of an object that is
-- deleted or marked is removed.
structure Evolves (s s' : Store) : Prop where
  next : s.next ≤ s'.next
  objects {id o'} : id < s.next → s'.objects.lookup id = some o' →
    ∃ o, s.objects.lookup id = some o ∧ (o.state = .deleting → o'.state = .deleting)
  payloads {id} : id < s.next → (s.payloads.lookup id).isSome →
    (s'.payloads.lookup id).isSome ∨ ∀ o, s'.objects.lookup id = some o → o.state = .deleting

structure Safe (s s' : Store) : Prop where
  sound   : s'.Sound
  evolves : s.Evolves s'

variable {s s' s'' : Store} {id : Id}

theorem Evolves.refl : s.Evolves s where
  next          := Nat.le_refl _
  objects _ h   := ⟨_, h, id⟩
  payloads _ h  := .inl h

theorem Evolves.trans (h₁ : s.Evolves s') (h₂ : s'.Evolves s'') : s.Evolves s'' where
  next := Nat.le_trans h₁.next h₂.next
  objects {id o''} hi ho := by
    obtain ⟨o', ho', hd'⟩ := h₂.objects (Nat.lt_of_lt_of_le hi h₁.next) ho
    obtain ⟨o, ho, hd⟩ := h₁.objects hi ho'
    exact ⟨o, ho, fun h => hd' (hd h)⟩
  payloads {id} hi hp := by
    have hi' := Nat.lt_of_lt_of_le hi h₁.next
    cases h₁.payloads hi hp
    case inl hp => exact h₂.payloads hi' hp
    case inr hd =>
      refine .inr fun o'' ho'' => ?_
      obtain ⟨o', ho', hd'⟩ := h₂.objects hi' ho''
      exact hd' (hd o' ho')

theorem Safe.refl (h : s.Sound) : s.Safe s :=
  ⟨h, .refl⟩

theorem Safe.trans (h₁ : s.Safe s') (h₂ : s'.Safe s'') : s.Safe s'' :=
  ⟨h₂.sound, h₁.evolves.trans h₂.evolves⟩

-- A step that leaves the objects and the payloads alone.
theorem Sound.frame (h : s.Sound) (ho : s'.objects = s.objects) (hp : s'.payloads = s.payloads)
    (hn : s.next ≤ s'.next) (hh : ∀ id, .readied id ∈ s'.history → .readied id ∈ s.history)
    (hv : ∀ {x v}, s'.versions.lookup x = some v →
      ∃ o, s.objects.lookup v.objectId = some o ∧ o.state ≠ .deleting)
    (hu : ∀ {x u' id}, s'.sessions.lookup x = some u' → u'.storageObjectId = some id →
      ∃ u, s.sessions.lookup x = some u ∧ u.storageObjectId = some id ∧
        (u'.state = .finalizing → u.state = .finalizing)) : s.Safe s' where
  sound := {
    referenced := by rw [ho]; exact hv
    finalizing hx hf hi := by
      obtain ⟨u, hx, hi, hf'⟩ := hu hx hi
      rw [ho]
      exact h.finalizing hx (hf' hf) hi
    payload    := by rw [ho, hp]; exact h.payload
    readied hr := by rw [ho]; exact h.readied (hh _ hr)
    objectIds  := by rw [ho]; exact fun hi => Nat.lt_of_lt_of_le (h.objectIds hi) hn
    readiedIds hr := Nat.lt_of_lt_of_le (h.readiedIds (hh _ hr)) hn
    sessionIds hx hi := by
      obtain ⟨u, hx, hi, _⟩ := hu hx hi
      exact Nat.lt_of_lt_of_le (h.sessionIds hx hi) hn }
  evolves := {
    next := hn
    objects _ h  := by rw [ho] at h; exact ⟨_, h, fun h => h⟩
    payloads _ h := by rw [hp]; exact .inl h }

theorem Sound.setCurrent (h : s.Sound) (id : Id) (v : Option Id) : s.Safe (s.setCurrent id v) :=
  h.frame rfl rfl (Nat.le_refl _) (fun _ h => h) h.referenced fun hx hi => ⟨_, hx, hi, fun h => h⟩

theorem Sound.log {e : Event} (h : s.Sound) (he : ∀ id, e ≠ .readied id) : s.Safe (s.log e) := by
  refine h.frame rfl rfl (Nat.le_refl _) (fun id hr => ?_) h.referenced
    fun hx hi => ⟨_, hx, hi, fun h => h⟩
  simp only [Store.log, List.mem_append, List.mem_singleton] at hr
  exact hr.resolve_right fun hr => he id hr.symm

theorem Sound.deleteVersions {p : Id → FileVersion → Bool} (h : s.Sound) :
    s.Safe (s.deleteVersions p) := by
  refine h.frame rfl rfl (Nat.le_refl _) (fun _ => id) (fun hv => ?_)
    fun hx hi => ⟨_, hx, hi, fun h => h⟩
  simp only [Store.deleteVersions, Table.lookup_filterMap, Option.bind_eq_some_iff] at hv
  obtain ⟨w, hw, hv⟩ := hv
  split at hv <;> cases hv
  exact h.referenced hw

theorem Sound.deleteFiles {ids : List Id} (h : s.Sound) (hd : s.deleteFiles ids = .ok s') :
    s.Safe s' := by
  obtain ⟨_, rfl⟩ := deleteFiles_ok hd
  refine h.frame rfl rfl (Nat.le_refl _) (fun _ => id) h.referenced fun hx hi => ?_
  simp only [Table.lookup_filterMap, Option.bind_eq_some_iff] at hx
  obtain ⟨u, hx, hu⟩ := hx
  split at hu <;> cases hu
  exact ⟨u, hx, hi, id⟩

theorem Sound.purgeTree {tree : Subtree} (h : s.Sound) (hd : s.purgeTree tree = .ok s') :
    s.Safe s' := by
  obtain ⟨t, ht, hd⟩ := Except.bind_eq_ok_iff.mp hd
  have versions := h.deleteVersions (p := fun _ v => v.fileId ∈ tree.files)
  have files := versions.trans (versions.sound.deleteFiles ht)
  cases deleteFolders_ok hd
  refine files.trans (files.sound.frame rfl rfl (Nat.le_refl _) (fun _ => id)
    files.sound.referenced fun hx hi => ?_)
  simp only [Table.lookup_filterMap, Option.bind_eq_some_iff, Option.some.injEq] at hx
  obtain ⟨u, hx, rfl⟩ := hx
  exact ⟨u, hx, hi, id⟩

-- A session that leaves the finalization.
theorem Sound.updateSession {f : Session → Session} (h : s.Sound)
    (hf : ∀ u, (f u).state ≠ .finalizing)
    (ho : ∀ u id, (f u).storageObjectId = some id → u.storageObjectId = some id) :
    s.Safe (s.updateSession id f) := by
  refine h.frame rfl rfl (Nat.le_refl _) (fun _ => fun h => h) h.referenced fun hx hi => ?_
  rw [lookup_updateSession] at hx
  obtain ⟨u, hu, rfl⟩ := Option.map_eq_some_iff.mp hx
  refine ⟨u, hu, ?_⟩
  split at hi
  case isTrue he  => exact ⟨ho _ _ hi, fun h => absurd (by simpa [he] using h) (hf u)⟩
  case isFalse he => exact ⟨hi, by simp [he]⟩

theorem Sound.deleteObject (h : s.Sound) (hd : s.deleteObject id = .ok s') : s.Safe s' := by
  obtain ⟨hv, hu, rfl⟩ := deleteObject_ok hd
  have row {x u' k} (hx : ((s.sessions.filterMap fun _ u =>
      some { u with storageObjectId := u.storageObjectId.filter (· ≠ id) }).lookup x = some u'))
      (hk : u'.storageObjectId = some k) : ∃ u, s.sessions.lookup x = some u ∧
        u.storageObjectId = some k ∧ k ≠ id ∧ u'.state = u.state := by
    simp only [Table.lookup_filterMap, Option.bind_eq_some_iff, Option.some.injEq] at hx
    obtain ⟨u, hx, rfl⟩ := hx
    simp only [Option.filter_eq_some_iff, decide_eq_true_eq] at hk
    exact ⟨u, hx, hk.left, hk.right, rfl⟩
  refine ⟨?sound, ?evolves⟩
  case sound =>
    refine ⟨?_, ?_, ?_, ?_, ?_, h.readiedIds, ?_⟩ <;> simp only [Table.lookup_erase]
    case refine_1 => exact fun hx => by simpa [hv _ _ hx] using h.referenced hx
    case refine_2 =>
      intro _ _ _ hx hf hk
      obtain ⟨u, hx, hk, hn, he⟩ := row hx hk
      simpa [hn] using h.finalizing hx (he ▸ hf) hk
    case refine_3 =>
      intro k o ho hs
      split at ho <;> try contradiction
      exact h.payload ho hs
    case refine_4 =>
      intro k o hr ho
      split at ho <;> try contradiction
      exact h.readied hr ho
    case refine_5 =>
      intro k o ho
      split at ho <;> try contradiction
      exact h.objectIds ho
    case refine_6 =>
      intro _ _ _ hx hk
      obtain ⟨u, hx, hk, _⟩ := row hx hk
      exact h.sessionIds hx hk
  case evolves =>
    refine ⟨Nat.le_refl _, fun _ ho => ?_, fun _ hp => .inl hp⟩
    simp only [Table.lookup_erase] at ho
    split at ho <;> try contradiction
    exact ⟨_, ho, fun h => h⟩

theorem Sound.reserve (h : s.Sound) (env : Env) (upload : Id) (session : Session)
    (files : Table Id File) (fileId : Id) :
    s.Safe (s.reservation env upload session files fileId) := by
  have old {k o} (ho : s.objects.lookup k = some o) : k ≠ s.next :=
    Nat.ne_of_lt (h.objectIds ho)
  refine ⟨?sound, ?evolves⟩
  case sound =>
    refine ⟨?_, ?_, ?_, ?_, ?_, ?_, ?_⟩ <;> simp only [reservation, Table.lookup_set,
      Table.lookup_filterMap]
    case refine_1 =>
      intro x v hx
      split at hx
      case isTrue => cases hx; simp
      case isFalse =>
        obtain ⟨o, ho, hd⟩ := h.referenced hx
        exact ⟨o, by simp [old ho, ho], hd⟩
    case refine_2 =>
      intro x u' k hx hf hk
      simp only [Option.bind_eq_some_iff, Option.some.injEq] at hx
      obtain ⟨u, hx, hu⟩ := hx
      split at hu
      case isTrue => cases hu; cases hk; simp
      case isFalse =>
        subst hu
        obtain ⟨o, ho, hd⟩ := h.finalizing hx hf hk
        exact ⟨o, by simp [old ho, ho], hd⟩
    case refine_3 =>
      intro k o ho hs
      split at ho
      case isTrue  => cases ho; contradiction
      case isFalse => exact h.payload ho hs
    case refine_4 =>
      intro k o hr ho
      have hr : .readied k ∈ s.history := by simpa using hr
      have := h.readiedIds hr
      simp only [Nat.ne_of_lt this, if_false] at ho
      exact h.readied hr ho
    case refine_5 =>
      intro k o ho
      split at ho
      case isTrue he => exact he ▸ Nat.lt_add_of_pos_right (by decide)
      case isFalse   => exact Nat.lt_add_right 3 (h.objectIds ho)
    case refine_6 =>
      intro k hr
      have hr : .readied k ∈ s.history := by simpa using hr
      exact Nat.lt_add_right 3 (h.readiedIds hr)
    case refine_7 =>
      intro x u' k hx hk
      simp only [Option.bind_eq_some_iff, Option.some.injEq] at hx
      obtain ⟨u, hx, hu⟩ := hx
      split at hu
      case isTrue  => cases hu; cases hk; exact Nat.lt_add_of_pos_right (by decide)
      case isFalse => subst hu; exact Nat.lt_add_right 3 (h.sessionIds hx hk)
  case evolves =>
    refine ⟨?_, fun {k _} hk ho => ?_, fun _ hp => .inl hp⟩
    case refine_1 => simp [reservation]
    case refine_2 =>
      simp only [reservation, Table.lookup_set, Nat.ne_of_lt hk, if_false] at ho
      exact ⟨_, ho, fun h => h⟩

theorem Sound.deleteMarked {cutoff : Option Time} (h : s.Sound)
    (hd : s.deleteMarked cutoff id = .ok s') : s.Safe s' := by
  obtain rfl | hd := deleteMarked_ok hd
  case inl => exact .refl h
  case inr => exact h.deleteObject hd

theorem Sound.attach {files : Table Id File} {fileId : Id} {v : FileVersion} (h : s.Sound)
    (hv : ∃ o, s.objects.lookup v.objectId = some o ∧ o.state ≠ .deleting) :
    s.Safe (s.attachment files fileId v) := by
  refine h.frame rfl rfl (Nat.le_add_right _ _) (fun _ h => by simpa [attachment] using h)
    (fun hx => ?_) fun hx hi => ⟨_, hx, hi, fun h => h⟩
  simp only [attachment, Table.lookup_set] at hx
  split at hx
  case isTrue  => cases hx; exact hv
  case isFalse => exact h.referenced hx

theorem Sound.createUpload {session : Session} {bytes : List UInt8} (h : s.Sound)
    (hc : s.createUpload session bytes = some s') : s.Safe s' := by
  obtain ⟨x, _, _, ho, _, rfl⟩ := createUpload_some hc
  refine h.frame rfl rfl (Nat.le_add_right _ _) (fun _ h => h) h.referenced fun hx hi => ?_
  simp only [Table.lookup_set] at hx
  split at hx
  case isTrue  => cases hx; cases ho.symm.trans hi
  case isFalse => exact ⟨_, hx, hi, fun h => h⟩

theorem Sound.setEntry {parentId : Option Id} {name : String} {deletedAt : Option Time}
    (h : s.Sound) : s.Safe (s.setEntry id parentId name deletedAt) :=
  h.frame rfl rfl (Nat.le_refl _) (fun _ h => h) h.referenced fun hx hi => ⟨_, hx, hi, fun h => h⟩

theorem Sound.mark {cutoff : Option Time} {candidates : List Id} (h : s.Sound) :
    s.Safe (s.markDeleting cutoff candidates).1 := by
  refine ⟨⟨?referenced, ?finalizing, ?payload, ?readied, ?objectIds, h.readiedIds, h.sessionIds⟩,
    ⟨Nat.le_refl _, ?objects, fun _ hp => .inl hp⟩⟩
  case referenced =>
    intro x v hx
    obtain ⟨o, ho, hd⟩ := h.referenced hx
    exact ⟨o, lookup_markDeleting_of_used ho (.inl (referenced_iff.mpr ⟨x, v, hx, rfl⟩)), hd⟩
  case finalizing =>
    intro x u id hx hf hi
    obtain ⟨o, ho, hd⟩ := h.finalizing hx hf hi
    exact ⟨o, lookup_markDeleting_of_used ho (.inr (finalizing_iff.mpr ⟨x, u, hx, hi, hf⟩)), hd⟩
  case payload =>
    intro id o' ho' hr
    obtain ⟨o, ho, rfl | ⟨_, _, hd⟩⟩ := lookup_markDeleting ho'
    case inl => exact h.payload ho hr
    case inr => cases hr.symm.trans hd
  case readied =>
    intro id o' hr ho'
    obtain ⟨o, ho, rfl | ⟨_, _, hd⟩⟩ := lookup_markDeleting ho'
    case inl => exact h.readied hr ho
    case inr => exact .inr hd
  case objectIds =>
    intro id o' ho'
    obtain ⟨o, ho, _⟩ := lookup_markDeleting ho'
    exact h.objectIds ho
  case objects =>
    intro id o' _ ho'
    obtain ⟨o, ho, rfl | ⟨_, _, hd⟩⟩ := lookup_markDeleting ho'
    case inl => exact ⟨_, ho, fun h => h⟩
    case inr => exact ⟨o, ho, fun _ => hd⟩

-- A payload may go once its object is deleted or marked.
theorem Sound.unlink (h : s.Sound) (hd : ∀ o, s.objects.lookup id = some o → o.state = .deleting) :
    s.Safe { s with payloads := s.payloads.erase id } := by
  refine ⟨⟨h.referenced, h.finalizing, fun {k o} ho hr => ?payload, h.readied, h.objectIds,
    h.readiedIds, h.sessionIds⟩, ⟨Nat.le_refl _, fun _ ho => ⟨_, ho, fun h => h⟩,
    fun {k} _ hp => ?payloads⟩⟩ <;> simp only [Table.lookup_erase]
  case payload =>
    have hn : k ≠ id := by
      rintro rfl
      cases hr.symm.trans (hd o ho)
    simpa [hn] using h.payload ho hr
  case payloads =>
    split
    case isTrue he  => exact .inr (he ▸ hd)
    case isFalse    => exact .inl hp

theorem Sound.promote {bytes : List UInt8} {key : Id} (h : s.Sound) :
    s.Safe { s with staging := s.staging.erase key, payloads := s.payloads.set id bytes } := by
  have kept {k} (hp : (s.payloads.lookup k).isSome) :
      ((s.payloads.set id bytes).lookup k).isSome := by
    rw [Table.lookup_set]
    split
    case isTrue  => rfl
    case isFalse => exact hp
  exact ⟨⟨h.referenced, h.finalizing, fun ho hr => kept (h.payload ho hr), h.readied, h.objectIds,
    h.readiedIds, h.sessionIds⟩, ⟨Nat.le_refl _, fun _ ho => ⟨_, ho, fun h => h⟩,
    fun _ hp => .inl (kept hp)⟩⟩

theorem Sound.readied_of_payload (h : s.Sound) (checksum : String)
    (hp : (s.payloads.lookup id).isSome) : s.Safe (s.readied id checksum) := by
  rcases readied_cases s id checksum with ⟨_, he⟩ | ⟨o, ho, hs, he⟩ <;> rw [he]
  case inl => exact .refl h
  case inr =>
    have live : o.state ≠ .deleting := by
      rcases hs with hs | hs <;> simp [hs]
    -- The row is there before and after, and neither row is marked.
    have other {k o'} (ho' : s.objects.lookup k = some o') (hd : o'.state ≠ .deleting) :
        ∃ o'', (s.objects.set id { o with checksum := some checksum, state := .ready }).lookup k =
          some o'' ∧ o''.state ≠ .deleting := by
      rw [Table.lookup_set]
      split
      case isTrue  => exact ⟨_, rfl, by simp⟩
      case isFalse => exact ⟨o', ho', hd⟩
    refine ⟨⟨fun hx => ?_, fun hx hf hi => ?_, fun {k o'} ho' hr => ?_, fun {k o'} hr ho' => ?_,
      fun {k o'} ho' => ?_, fun {k} hr => ?_, h.sessionIds⟩, ⟨Nat.le_refl _, fun {k o'} _ ho' => ?_,
      fun _ hp => .inl hp⟩⟩
    case refine_1 =>
      obtain ⟨o', ho', hd⟩ := h.referenced hx
      exact other ho' hd
    case refine_2 =>
      obtain ⟨o', ho', hd⟩ := h.finalizing hx hf hi
      exact other ho' hd
    all_goals simp only [Store.log, Table.lookup_set, List.mem_append, List.mem_singleton,
      Event.readied.injEq] at *
    case refine_3 =>
      split at ho'
      case isTrue he => exact he ▸ hp
      case isFalse   => exact h.payload ho' hr
    case refine_4 =>
      split at ho'
      case isTrue     => cases ho'; exact .inl rfl
      case isFalse hn => exact h.readied (hr.resolve_right hn) ho'
    case refine_5 =>
      split at ho'
      case isTrue he => exact he ▸ h.objectIds ho
      case isFalse   => exact h.objectIds ho'
    case refine_6 =>
      cases hr
      case inl hr => exact h.readiedIds hr
      case inr he => exact he ▸ h.objectIds ho
    case refine_7 =>
      split at ho'
      case isTrue he => exact ⟨o, he ▸ ho, fun hd => absurd hd live⟩
      case isFalse   => exact ⟨o', ho', fun h => h⟩

-- The payload stays as long as the object is neither deleted nor marked.
def Kept (s : Store) (id : Id) : Prop :=
  ∀ o, s.objects.lookup id = some o → o.state ≠ .deleting → (s.payloads.lookup id).isSome

def Dropped (s : Store) (id : Id) : Prop :=
  ∀ o, s.objects.lookup id = some o → o.state = .deleting

theorem Evolves.dropped (e : s.Evolves s') (hi : id < s.next) (hd : s.Dropped id) :
    s'.Dropped id := by
  intro o' ho'
  obtain ⟨o, ho, he⟩ := e.objects hi ho'
  exact he (hd o ho)

theorem Evolves.kept (e : s.Evolves s') (hi : id < s.next) (hk : s.Kept id) : s'.Kept id := by
  intro o' ho' hn
  obtain ⟨o, ho, he⟩ := e.objects hi ho'
  cases e.payloads hi (hk o ho fun h => hn (he h))
  case inl hp => exact hp
  case inr hd => exact absurd (hd o' ho') hn

end Store

open Store

def Finalize.Knows (s : Store) (c : Finalize) : Prop :=
  match c.stage with
  | .begun | .fileRead _ _                                => True
  | .committed session                                    =>
    ∀ id, session.storageObjectId = some id → id < s.next
  | .located _ _ id | .opened _ _ id                      => id < s.next
  | .promoting t _ | .sourceChecked t _ _                 => t.objectId < s.next
  | .destinationFree t | .renameLost t                    => t.objectId < s.next
  | .destinationSeen t | .promoted t | .hashed t _        => t.objectId < s.next ∧ s.Kept t.objectId
  | .mismatched t | .completed t _                        => t.objectId < s.next
  | .rejected t                                           => t.objectId < s.next ∧ s.Dropped t.objectId

def Call.Knows (s : Store) : Call → Prop
  | .finalize c => c.Knows s
  | .sweep c    => ∀ id ∈ c.objects, id < s.next ∧ s.Dropped id
  | _           => True

variable {s s' : Store} {env : Env}

theorem Finalize.Knows.evolve {c : Finalize} (h : c.Knows s) (e : s.Evolves s') : c.Knows s' := by
  have lt {id} (h : id < s.next) : id < s'.next := Nat.lt_of_lt_of_le h e.next
  obtain ⟨_, _, _, stage⟩ := c
  cases stage <;> simp only [Finalize.Knows] at h ⊢
  all_goals first
    | exact lt h
    | exact ⟨lt h.left, e.kept h.left h.right⟩
    | exact ⟨lt h.left, e.dropped h.left h.right⟩
    | exact fun id hi => lt (h id hi)

theorem Call.Knows.evolve {c : Call} (h : c.Knows s) (e : s.Evolves s') : c.Knows s' := by
  cases c
  case finalize => exact Finalize.Knows.evolve h e
  case sweep    => exact fun id hi => ⟨Nat.lt_of_lt_of_le (h id hi).left e.next,
    e.dropped (h id hi).left (h id hi).right⟩
  all_goals trivial

theorem Store.Sound.complete {owner upload : Id} {t : Target} {checksum : String} {r : Option Id}
    (hs : s.Sound) (hk : s.Kept t.objectId)
    (h : s.complete owner upload t checksum = .ok (s', r)) : s.Safe s' := by
  obtain ⟨session, hu, ⟨_, rfl, _⟩ | ⟨hf, _, hi, _, rfl⟩⟩ := complete_ok h
  case inl => exact .refl hs
  case inr =>
    obtain ⟨o, ho, hd⟩ := hs.finalizing hu hf hi
    have safe := hs.readied_of_payload checksum (hk o ho hd)
    exact safe.trans (safe.sound.updateSession (by simp) (by simp))

theorem Store.Sound.reject {row : Option Id} {owner upload : Id} {t : Target} (hs : s.Sound)
    (h : s.rejectMismatchedUpload row owner upload t = some (.ok (some s'))) :
    s.Safe s' ∧ s'.Dropped t.objectId := by
  obtain ⟨session, _, _, _, _, u, w, hw, rfl, hu⟩ := rejectMismatchedUpload_ok h
  have failed : s.Safe (s.failUpload upload) := hs.updateSession (by simp) (by simp)
  have undone : s.Safe u := by
    rcases hu with ⟨previous, _, _, rfl⟩ | ⟨_, hu⟩ | ⟨_, _, rfl⟩
    case inl =>
      have current := failed.trans (failed.sound.setCurrent t.fileId previous)
      simp only [restorePrevious]
      split
      case h_1 => exact current
      case h_2 => exact current.trans current.sound.deleteVersions
    case inr.inl =>
      have current := failed.trans (failed.sound.setCurrent t.fileId none)
      have versions := current.trans
        (current.sound.deleteVersions (p := fun _ v => v.fileId = t.fileId))
      exact versions.trans (versions.sound.deleteFiles hu)
    case inr.inr => exact failed
  have deleted := undone.trans (undone.sound.deleteObject hw)
  refine ⟨deleted.trans (deleted.sound.log (by simp)), fun o ho => ?_⟩
  obtain ⟨_, _, rfl⟩ := deleteObject_ok hw
  simp [Store.log] at ho

-- The objects of the versions that the next step of a call commits, if it commits any.
def Call.attaches : Call → List Id
  | .link c => c.object.toList
  | .copy c => if c.todo = [] then c.copied.filterMap (·.version.map Prod.fst) else []
  | _       => []

def Store.Live (s : Store) (id : Id) : Prop :=
  ∀ o, s.objects.lookup id = some o → o.state ≠ .deleting

theorem Sweep.next_safe {c : Sweep} (hs : s.Sound) (hk : (Call.sweep c).Knows s) :
    s.Safe (c.next s env).1 ∧ ∀ c', (c.next s env).2 = some c' →
      (Call.sweep c').Knows (c.next s env).1 := by
  obtain ⟨cutoff, objects, unlinked⟩ := c
  cases objects
  case nil => exact ⟨.refl hs, by simp [Sweep.next]⟩
  case cons id ids =>
    have rest (x) (hx : x ∈ ids) := hk x (List.mem_cons_of_mem _ hx)
    cases unlinked <;> simp only [Sweep.next]
    case false =>
      split
      case isTrue =>
        have safe := hs.unlink (hk id (by simp)).right
        refine ⟨safe, fun c' hc => ?_⟩
        cases hc
        exact Call.Knows.evolve (c := .sweep ⟨cutoff, id :: ids, true⟩) hk safe.evolves
      case isFalse =>
        split
        case isTrue  => exact ⟨.refl hs, fun c' hc => by cases hc; exact rest⟩
        case isFalse => exact ⟨.refl hs, by simp⟩
    case true =>
      split
      case h_1 => exact ⟨.refl hs, by simp⟩
      case h_2 hd =>
        have safe := hs.deleteMarked hd
        refine ⟨safe, fun c' hc => ?_⟩
        cases hc
        exact Call.Knows.evolve (c := .sweep ⟨cutoff, ids, false⟩) rest safe.evolves

theorem Request.start_safe {r : Request} {k : Option Call} (hs : s.Sound)
    (h : r.start s = some (s', k)) : s.Safe s' ∧ ∀ c, k = some c → c.Knows s' := by
  cases r <;> simp only [Request.start] at h
  case upload =>
    obtain ⟨t, ht, he⟩ := Option.map_eq_some_iff.mp h
    cases he
    exact ⟨hs.createUpload ht, by simp⟩
  case entry => cases h; exact ⟨hs.setEntry, by simp⟩
  case link =>
    split at h <;> cases h
    case h_1 => exact ⟨.refl hs, fun _ hc => by cases hc; trivial⟩
    case h_2 => exact ⟨.refl hs, by simp⟩
  all_goals cases h; exact ⟨.refl hs, fun _ hc => by cases hc; trivial⟩

theorem System.sound_init : Shared.Holds Store.Sound (fun s c => Call.Knows s c) System.init where
  store := by constructor <;> intros <;> contradiction
  calls h := by contradiction

section

variable [Collation]

theorem Store.Sound.insertCopy {owner : Id} {f : CopiedFile} (hs : s.Sound)
    (hl : ∀ id size, f.version = some (id, size) → s.Live id)
    (h : Store.insertCopy owner env s f = .ok s') : s.Safe s' ∧ s'.objects = s.objects := by
  obtain ⟨_, rfl⟩ | ⟨id, size, hv, ⟨o, ho⟩, rfl⟩ := insertCopy_ok h
  case inl =>
    refine ⟨hs.frame rfl rfl (Nat.le_add_right _ _) (fun _ h => h) hs.referenced ?_, rfl⟩
    exact fun hx hi => ⟨_, hx, hi, fun h => h⟩
  case inr => exact ⟨hs.attach ⟨o, ho, hl id size hv o ho⟩, rfl⟩

theorem Store.Sound.insertCopies {c : Copy} (hs : s.Sound)
    (hl : ∀ id ∈ c.copied.filterMap (·.version.map Prod.fst), s.Live id)
    (h : s.insertCopies env c = .ok s') : s.Safe s' := by
  obtain ⟨owner, todo, copied⟩ := c
  simp only [Store.insertCopies, List.mem_filterMap, Option.map_eq_some_iff, Prod.exists] at h hl
  induction copied generalizing s
  case nil => cases h; exact .refl hs
  case cons f fs ih =>
    rw [List.foldlM_cons] at h
    obtain ⟨t, ht, h⟩ := Except.bind_eq_ok_iff.mp h
    obtain ⟨safe, ho⟩ := hs.insertCopy (fun id size hv => hl id ⟨f, by simp, id, size, hv, rfl⟩) ht
    refine safe.trans (ih safe.sound h fun id hf => ?_)
    obtain ⟨f', hf', hv⟩ := hf
    simpa only [Store.Live, ho] using hl id ⟨f', List.mem_cons_of_mem _ hf', hv⟩

variable [Digest]

theorem Finalize.Moves.safe {c : Finalize} {k : Option Finalize} (m : c.Moves s env s' k)
    (hs : s.Sound) (hk : c.Knows s) : s.Safe s' ∧ ∀ c', k = some c' → c'.Knows s' := by
  have same {stage} (h : Finalize.Knows s { c with stage }) :
      s.Safe s ∧ ∀ c', c.goto stage = some c' → c'.Knows s :=
    ⟨.refl hs, fun _ he => Option.some.inj he ▸ h⟩
  cases m <;> simp only [Finalize.Knows, *] at hk
  case stop                => exact ⟨.refl hs, by simp⟩
  case again               => exact ⟨hs.log (by simp), by simp⟩
  case answer              => exact ⟨hs.log (by simp), by simp⟩
  case resume hu _ _       => exact same fun _ hi => hs.sessionIds hu hi
  case locate              => exact same (hk _ rfl)
  case readFile            => exact same trivial
  case readObject hu ho    => exact same (hs.sessionIds hu ho)
  case find hp             => exact same ⟨hk, fun _ _ _ => hp⟩
  case seeDestination hp   => exact same ⟨hk, fun _ _ _ => hp⟩
  case mismatch            => exact same hk.left
  case reserve session _ hu _ _ hr =>
    obtain ⟨_, files, fileId, rfl, _⟩ := reserve_ok hr
    have safe := hs.reserve env c.upload session files fileId
    refine ⟨safe, fun c' hc => ?_⟩
    cases hc
    exact fun id hi => Nat.lt_of_lt_of_le (hs.sessionIds hu hi) safe.evolves.next
  case rename t bytes _ _ =>
    refine ⟨hs.promote, fun c' hc => ?_⟩
    cases hc
    exact ⟨hk, fun _ _ _ => by simp⟩
  case complete hc =>
    have safe := hs.complete hk.right hc
    refine ⟨safe, fun c' hc => ?_⟩
    cases hc
    exact Nat.lt_of_lt_of_le hk.left safe.evolves.next
  case index hc _ =>
    have safe := hs.complete hk.right hc
    refine ⟨safe.trans (safe.sound.log (by simp)), fun c' hc => ?_⟩
    cases hc
    exact Nat.lt_of_lt_of_le hk.left safe.evolves.next
  case already hc =>
    have safe := hs.complete hk.right hc
    exact ⟨safe.trans (safe.sound.log (by simp)), by simp⟩
  case reject hr =>
    obtain ⟨safe, hd⟩ := hs.reject hr
    refine ⟨safe, fun c' hc => ?_⟩
    cases hc
    exact ⟨Nat.lt_of_lt_of_le hk safe.evolves.next, hd⟩
  case unlink => exact ⟨hs.unlink hk.right, by simp⟩
  all_goals exact same hk

theorem Call.next_safe {c : Call} {k : Option Call} (hs : s.Sound) (hk : c.Knows s)
    (hl : ∀ id ∈ c.attaches, s.Live id) (h : c.next s env = some (s', k)) :
    s.Safe s' ∧ ∀ c', k = some c' → c'.Knows s' := by
  cases c <;> simp only [Call.next] at h
  case finalize c =>
    obtain ⟨⟨t, k'⟩, hn, he⟩ := Option.map_eq_some_iff.mp h
    cases he
    obtain ⟨safe, hc⟩ := (Finalize.next_moves hn).safe hs hk
    refine ⟨safe, fun c' he => ?_⟩
    obtain ⟨d, rfl, rfl⟩ := Option.map_eq_some_iff.mp he
    exact hc d rfl
  case link c =>
    obtain ⟨⟨t, k'⟩, hn, he⟩ := Option.map_eq_some_iff.mp h
    cases he
    refine ⟨?_, fun c' hc => ?_⟩
    case refine_1 =>
      obtain rfl | ⟨id, hc, hn⟩ := Link.next_cases hn
      case inl => exact .refl hs
      case inr =>
        obtain ⟨⟨o, ho⟩, files, fileId, rfl, _⟩ := linkObject_ok hn
        exact hs.attach ⟨o, ho, hl id (by simp [Call.attaches, hc]) o ho⟩
    case refine_2 =>
      obtain ⟨d, _, rfl⟩ := Option.map_eq_some_iff.mp hc
      trivial
  case copy c =>
    cases h
    refine ⟨?_, fun c' hc => ?_⟩
    case refine_1 =>
      obtain he | ⟨hc, hn⟩ := Copy.next_cases s env c
      case inl => rw [he]; exact .refl hs
      case inr => exact hs.insertCopies (by simpa [Call.attaches, hc] using hl) hn
    case refine_2 =>
      obtain ⟨d, _, rfl⟩ := Option.map_eq_some_iff.mp hc
      trivial
  case purge => cases h; exact ⟨.refl hs, fun _ h => by cases h; trivial⟩
  case purgeObjects tree objects =>
    split at h <;> cases h
    case h_1 => exact ⟨.refl hs, by simp⟩
    case h_2 hd => exact ⟨hs.purgeTree hd, fun _ h => by cases h; trivial⟩
  case mark cutoff candidates =>
    cases h
    refine ⟨hs.mark, fun _ h => ?_⟩
    cases h
    intro id hi
    obtain ⟨⟨o, ho⟩, hd⟩ := mem_markDeleting hi
    exact ⟨hs.objectIds ho, hd⟩
  case sweep c =>
    cases h
    obtain ⟨safe, hc⟩ := Sweep.next_safe hs hk
    refine ⟨safe, fun c' he => ?_⟩
    obtain ⟨d, hd, rfl⟩ := Option.map_eq_some_iff.mp he
    exact hc d hd

namespace System

-- A step that commits versions does so while none of their objects is marked for deletion.
def AttachesLive (s : System) (a : Action) : Prop :=
  ∀ i env c, a = .next i env → s.calls.lookup i = some c → ∀ id ∈ c.attaches, s.store.Live id

theorem sound_step {s s' : System} {a : Action}
    (h : Shared.Holds Store.Sound (fun s c => c.Knows s) s) (ha : s.AttachesLive a)
    (hs : s.step a = some s') : Shared.Holds Store.Sound (fun s c => c.Knows s) s' := by
  refine h.step (fun _ hr => ?start) (fun he hc hk hn => ?next) hs
  case start =>
    obtain ⟨safe, hk⟩ := Request.start_safe h.store hr
    exact ⟨safe.sound, hk _, (·.evolve safe.evolves)⟩
  case next =>
    obtain ⟨safe, hk⟩ := Call.next_safe h.store hk (ha _ _ _ he hc) hn
    exact ⟨safe.sound, hk _, (·.evolve safe.evolves)⟩

theorem version_keeps_payload {s : System} {x : Id} {v : FileVersion}
    (r : Steps step AttachesLive init s) (hv : s.store.versions.lookup x = some v)
    (hr : .readied v.objectId ∈ s.store.history) :
    (∃ o, s.store.objects.lookup v.objectId = some o ∧ o.state = .ready) ∧
    (s.store.payloads.lookup v.objectId).isSome := by
  have h := r.invariant sound_init sound_step |>.store
  obtain ⟨o, ho, hd⟩ := h.referenced hv
  have hr := (h.readied hr ho).resolve_right hd
  exact ⟨⟨o, ho, hr⟩, h.payload ho hr⟩

end System
end

section

attribute [local instance] Collation.binary Digest.hi

-- The file `a.txt` of owner 7: the upload 1, and then the object 3, its version 4 and the file 5.
def uploaded : List Action :=
  let session := {
    ownerId := 7, filename := "a.txt", stagingKey := 0, expectedSize := 2, expiresAt := 10 }
  [.start 0 (.upload session [104, 105]), .start 0 (.finalize 7 1 none)] ++
    List.replicate 11 (.next 0 {})

-- The object 3 is linked to a second file.
def linked : List Action :=
  [.start 1 (.link 7 none "b.txt" 2
    "8f434346648f6b96df89dda901c5176b10a6d83961dd3c1ac88b59b2dc327aa4"),
   .next 1 { row := some 3 }]

-- The first file goes to the trash and is purged, up to the mark of its object.
def purged : List Action :=
  [.start 2 (.entry 5 none "a.txt" (some 1)), .start 2 (.purge { files := [5] }), .next 2 {},
   .next 2 {}, .next 2 {}]

def attachesLive (s : System) : Action → Bool
  | .next i _ =>
    match s.calls.lookup i with
    | some c => c.attaches.all fun id => (s.store.objects.lookup id).all (·.state ≠ .deleting)
    | none   => true
  | _         => true

theorem attachesLive_iff {s : System} {a : Action} (h : attachesLive s a) : s.AttachesLive a := by
  intro i env c ha hc id hi o ho
  subst ha
  simp only [attachesLive, hc, List.all_eq_true] at h
  simpa [ho] using h id hi

theorem version_keeps_payload_linked : ∃ s, Steps System.step System.AttachesLive System.init s ∧
    s.store.files.lookup 5 = none ∧ (s.store.payloads.lookup 3).isSome := by
  have run : (Execution.run (fun s a => if attachesLive s a then System.step s a else none)
      System.init (uploaded ++ linked ++ [.next 1 {}] ++ purged ++ [.next 2 {}])).map
      (fun s => (s.store.files.lookup 5, s.store.versions.lookup 6,
        decide (.readied 3 ∈ s.store.history))) =
      some (none, some { fileId := 7, objectId := 3, size := 2, createdAt := 0 }, true) := by
    decide +kernel
  obtain ⟨s, hs, he⟩ := Option.map_eq_some_iff.mp run
  obtain ⟨hf, he⟩ := Prod.mk.inj he
  obtain ⟨hv, hr⟩ := Prod.mk.inj he
  have steps := Execution.steps_of_run (fun _ _ => attachesLive_iff) hs
  exact ⟨s, steps, hf, (System.version_keeps_payload steps hv (of_decide_eq_true hr)).right⟩

-- The link picks the object before the purge, and commits between the mark and the unlink.
theorem linked_payload_unlinked : ∃ s, Reaches System.step System.init s ∧
    ∃ x v, s.store.versions.lookup x = some v ∧ .readied v.objectId ∈ s.store.history ∧
      s.store.payloads.lookup v.objectId = none := by
  have run : (Execution.run System.step System.init
      (uploaded ++ linked ++ purged ++ [.next 1 {}, .next 2 {}])).map
      (fun s => (s.store.versions.lookup 6, decide (.readied 3 ∈ s.store.history),
        s.store.payloads.lookup 3)) =
      some (some { fileId := 7, objectId := 3, size := 2, createdAt := 0 }, true, none) := by
    decide +kernel
  obtain ⟨s, hs, he⟩ := Option.map_eq_some_iff.mp run
  obtain ⟨hv, he⟩ := Prod.mk.inj he
  obtain ⟨hr, hp⟩ := Prod.mk.inj he
  exact ⟨s, Execution.reaches_of_run hs, 6, _, hv, of_decide_eq_true hr, hp⟩

end
end MyDrive.Transfers
