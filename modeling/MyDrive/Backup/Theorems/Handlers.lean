import MyDrive.Backup.Theorems.Server

-- The handlers of the uploads keep the server sound, whatever the order of their steps.

namespace MyDrive.Backup.Wire

open Transfers

variable [Digest]

-- How the store may go on: an upload that is settled stays as it is, and what is new is right.
structure Advances (g : Setting) (store store' : Store) : Prop where
  follows : store.Follows store'
  grows : Server.Grows store store'
  settled {u x} : store.sessions.lookup u = some x → x.state ≠ .active →
    ∃ x', store'.sessions.lookup u = some x' ∧ x'.state ≠ .active ∧
      x'.receivedSize = x.receivedSize ∧ x'.expectedSize = x.expectedSize
  closed {u x} : store.sessions.lookup u = some x → x.state ≠ .active → x.state ≠ .finalizing →
    store'.sessions.lookup u = some x
  kept {o} : store.payloads.lookup o = some g.file → store'.payloads.lookup o = some g.file
  full {u o v f} : .reserved u o v f ∈ store'.history → .reserved u o v f ∈ store.history ∨
    ∃ x, store'.sessions.lookup u = some x ∧ x.state ≠ .active ∧ x.receivedSize = x.expectedSize
  payload {o bytes} : store'.payloads.lookup o = some bytes →
    store.payloads.lookup o = some bytes ∨ bytes = g.file ∧ o < store'.next
  completed {u x} : store'.sessions.lookup u = some x → x.state = .completed →
    store.sessions.lookup u = some x ∨ Stored g store' u
  returned {u r} : .returned u r ∈ store'.history → .returned u r ∈ store.history ∨ Stored g store' u

variable {g : Setting} {store store' : Store} {u w : Id}

theorem Advances.refl (h : store.Recorded) : Advances g store store where
  follows         := .refl h
  grows           := Server.Grows.refl
  settled hx ha   := ⟨_, hx, ha, rfl, rfl⟩
  closed hx _ _   := hx
  kept h          := h
  full h          := .inl h
  payload h       := .inl h
  completed hx _  := .inl hx
  returned h      := .inl h

-- The rows of the uploads stay, and no upload is reserved.
theorem Advances.of_rows (hf : store.Follows store') (hx : store'.sessions = store.sessions)
    (kept : ∀ {o}, store.payloads.lookup o = some g.file → store'.payloads.lookup o = some g.file)
    (full : ∀ {u o v f}, .reserved u o v f ∈ store'.history → .reserved u o v f ∈ store.history)
    (payload : ∀ {o bytes}, store'.payloads.lookup o = some bytes →
      store.payloads.lookup o = some bytes ∨ bytes = g.file ∧ o < store'.next)
    (returned : ∀ {u r}, .returned u r ∈ store'.history →
      .returned u r ∈ store.history ∨ Stored g store' u) : Advances g store store' where
  follows       := hf
  grows h       := ⟨_, hx ▸ h, Nat.le_refl _⟩
  settled h ha  := ⟨_, hx ▸ h, ha, rfl, rfl⟩
  closed h _ _  := hx ▸ h
  kept          := kept
  full h        := .inl (full h)
  payload       := payload
  completed h _ := .inl (hx ▸ h)
  returned      := returned

theorem Advances.stored (a : Advances g store store') (h : Stored g store u) : Stored g store' u :=
  h.mono (fun hx hc => ⟨_, a.closed hx (by simp [hc]) (by simp [hc]), hc, rfl⟩) a.kept

theorem Advances.knows (a : Advances g store store') {c : Finalize} (h : Knows g store c) :
    Knows g store' c := by
  unfold Knows at *
  split at h
  case h_1 => exact a.kept h
  case h_2 => exact a.stored h
  case h_3 => exact h
  case h_4 => exact h
  case h_5 => trivial

theorem Advances.trans {store'' : Store} (a : Advances g store store') (b : Advances g store' store'') :
    Advances g store store'' where
  follows       := a.follows.trans b.follows
  grows hx      := by
    obtain ⟨x', hx', hr⟩ := a.grows hx
    obtain ⟨x'', hx'', hr'⟩ := b.grows hx'
    exact ⟨x'', hx'', Nat.le_trans hr hr'⟩
  settled hx hn := by
    obtain ⟨x', hx', hn', hr, he⟩ := a.settled hx hn
    obtain ⟨x'', hx'', hn'', hr', he'⟩ := b.settled hx' hn'
    exact ⟨x'', hx'', hn'', hr'.trans hr, he'.trans he⟩
  closed hx h h' := b.closed (a.closed hx h h') h h'
  kept h        := b.kept (a.kept h)
  full h        := by
    rcases b.full h with h | new
    case inr => exact .inr new
    rcases a.full h with h | ⟨x, hx, hn, hf⟩
    case inl => exact .inl h
    case inr =>
      obtain ⟨x', hx', hn', hr, he⟩ := b.settled hx hn
      exact .inr ⟨x', hx', hn', hr.trans (hf.trans he.symm)⟩
  payload h     := by
    rcases b.payload h with h | new
    case inr => exact .inr new
    rcases a.payload h with h | ⟨he, hn⟩
    case inl => exact .inl h
    case inr => exact .inr ⟨he, Nat.lt_of_lt_of_le hn b.follows.extend.next⟩
  completed h hc := by
    rcases b.completed h hc with h | new
    case inl => exact (a.completed h hc).imp id b.stored
    case inr => exact .inr new
  returned h    := by
    rcases b.returned h with h | new
    case inl => exact (a.returned h).imp id b.stored
    case inr => exact .inr new

omit [Digest] in
theorem inv_restate {up : Upload} {session : UploadSession} (h : up.Inv) (hp : up.patch = none)
    (hr : session.receivedSize = up.session.receivedSize)
    (he : session.expectedSize = up.session.expectedSize) : Upload.Inv { up with session } where
  prefixed := by simpa only [hr] using h.prefixed
  size     := by simpa only [hr] using h.size
  bound    := by simpa only [hr, he] using h.bound
  complete := by simpa only [hr, he] using h.complete
  patch e  := by cases hp.symm.trans e

namespace Server

variable {s s' : Server} {c : Finalize} {i : Nat}

omit [Digest] in
theorem upload_of_rows {x : Session} {bytes : List UInt8} (hx : s.store.sessions.lookup u = some x)
    (hb : s.store.staging.lookup x.stagingKey = some bytes) : s.upload u = some {
      session  := x.toUploadSession
      staging  := bytes
      patch    := (s.patches.lookup u).map (·.patch)
      accepted := (s.accepted.lookup u).getD [] } := by
  simp [Server.upload, hx, hb]

theorem Sound.advance (h : s.Sound g) (patches : Table Id Receiving)
    (accepted : Table Id (List (List UInt8))) (a : Advances g s.store store)
    (size : ∀ {u x}, store.sessions.lookup u = some x → x.expectedSize = g.file.length)
    (upload : ∀ {u up}, Server.upload { s with store, patches, accepted } u = some up →
      up.Inv ∧ up.accepted.flatten <+: g.file)
    (patch : ∀ {u r}, patches.lookup u = some r → Receives g store u r)
    (fresh : ∀ {u bodies}, accepted.lookup u = some bodies → u < store.next)
    (live : ∀ {u x}, store.sessions.lookup u = some x → Live store x) :
    Sound g { s with store, patches, accepted } where
  recorded := a.follows.recorded
  size     := size
  upload   := upload
  patch    := patch
  full hr  := by
    rcases a.full hr with hr | done
    case inl =>
      obtain ⟨x, hx, hn, hf⟩ := h.full hr
      obtain ⟨x', hx', hn', hr', he'⟩ := a.settled hx hn
      exact ⟨x', hx', hn', hr'.trans (hf.trans he'.symm)⟩
    case inr => exact done
  payload hb := by
    rcases a.payload hb with hb | new
    case inl => exact ⟨(h.payload hb).left, Nat.lt_of_lt_of_le (h.payload hb).right a.follows.extend.next⟩
    case inr => exact new
  completed hx hc := (a.completed hx hc).elim (fun hx => a.stored (h.completed hx hc)) id
  returned hr     := (a.returned hr).elim (fun hr => a.stored (h.returned hr)) id
  call hc         :=
    have := h.call hc
    ⟨this.left, this.right.left.extend a.follows.extend, a.knows this.right.right⟩
  fresh := fresh
  live  := live
  cleaning hc := by
    obtain ⟨x, hx, hk, hs⟩ := h.cleaning hc
    exact ⟨x, a.closed hx (by rintro he; simp [he] at hs) (by rintro he; simp [he] at hs), hk, hs⟩

-- A step that writes no staging file, and no row of an upload that a request is working on.
theorem Sound.restate (h : s.Sound g) (a : Advances g s.store store)
    (row : ∀ {w x'}, store.sessions.lookup w = some x' → ∃ x, s.store.sessions.lookup w = some x ∧
      x'.receivedSize = x.receivedSize ∧ x'.expectedSize = x.expectedSize ∧
      x'.stagingKey = x.stagingKey)
    (held : ∀ {w r}, s.patches.lookup w = some r →
      store.sessions.lookup w = s.store.sessions.lookup w)
    (staging : ∀ {k bytes}, store.staging.lookup k = some bytes →
      s.store.staging.lookup k = some bytes)
    (live : ∀ {u x}, store.sessions.lookup u = some x → Live store x) : Sound g { s with store } := by
  refine h.advance s.patches s.accepted a (fun hx' => ?size)
    (fun {w up} hu => ?upload) (fun {w r} hr => ?patch) (fun hb => ?fresh) live
  case size =>
    obtain ⟨x, hx, _, he, _⟩ := row hx'
    exact he.trans (h.size hx)
  case upload =>
    simp only [Server.upload, Option.bind_eq_some_iff, Option.map_eq_some_iff] at hu
    obtain ⟨x', hx', bytes, hb, rfl⟩ := hu
    obtain ⟨x, hx, hr, he, hk⟩ := row hx'
    obtain ⟨inv, content⟩ := h.upload (upload_of_rows hx (hk ▸ staging hb))
    refine ⟨?_, content⟩
    cases hp : s.patches.lookup w
    case none =>
      simp only [hp] at inv
      exact inv_restate inv rfl hr he
    case some =>
      cases (held hp).symm.trans hx' |>.symm.trans hx
      simpa only [hp] using inv
  case patch =>
    obtain ⟨⟨x, hx, ha⟩, request, body, rest, filled⟩ := h.patch hr
    exact ⟨⟨x, (held hr).trans hx, ha⟩, request, body, rest, filled⟩
  case fresh => exact Nat.lt_of_lt_of_le (h.fresh hb) a.follows.extend.next

omit [Digest] in
theorem returned_of_result {es : List Transfers.Event} {r : UploadFinalized}
    (h : store'.history = store.history ++ es) (hr : result store store' = some r) :
    ∃ w, .returned w r ∈ es := by
  rw [result, h, List.drop_left] at hr
  obtain ⟨e, he, hm⟩ := List.exists_of_findSome?_eq_some hr
  cases e <;> simp only [reduceCtorEq, Option.some.injEq] at hm
  case returned w _ => exact ⟨w, hm ▸ he⟩

-- What a step of a finalization leaves behind.
structure Finalized (g : Setting) (s : Server) (c : Finalize) (store : Store) (k : Option Finalize) :
    Prop where
  sound : Sound g { s with store }
  advances : Advances g s.store store
  call {c'} : k = some c' → c'.checksum = c.checksum ∧ c'.upload = c.upload ∧ Knows g store c'
  events : ∃ es, store.history = s.store.history ++ es ∧ ∀ w r, .returned w r ∈ es → w = c.upload

theorem Finalized.stay {k : Option Finalize} (h : s.Sound g)
    (hk : ∀ {c'}, k = some c' → c'.checksum = c.checksum ∧ c'.upload = c.upload ∧ Knows g s.store c') :
    Finalized g s c s.store k where
  sound    := h
  advances := .refl h.recorded
  call     := hk
  events   := ⟨[], by simp, by simp⟩

theorem Finalized.returned {r : UploadFinalized} (h : s.Sound g) (hd : Stored g s.store c.upload)
    (hr : ∃ o v, .reserved c.upload o v r.fileId ∈ s.store.history) :
    Finalized g s c (s.store.returned c.upload r) none := by
  have advances : Advances g s.store (s.store.returned c.upload r) := by
    refine .of_rows (h.recorded.log_returned hr) rfl id (fun hm => ?_) .inl fun hm => ?_
    case refine_1 => simpa [Store.returned, Store.log] using hm
    case refine_2 =>
      rcases List.mem_append.mp hm with hm | hm
      case inl => exact .inl hm
      case inr => cases List.mem_singleton.mp hm; exact .inr hd
  exact ⟨h.restate advances (fun hx => ⟨_, hx, rfl, rfl, rfl⟩) (fun _ => rfl) id h.live, advances, by simp,
    [.returned c.upload r], rfl, by simp⟩

section

variable [Collation] {env : Env} {k : Option Finalize}

-- The upload is settled, with all of its bytes in the staging file.
theorem Finalized.reserve {x : Session} (h : s.Sound g) (hw : s.patches.lookup c.upload = none)
    (hx : s.store.sessions.lookup c.upload = some x) (ha : x.state = .active)
    (hr : s.store.reserve env c.owner c.upload x = .ok store) :
    Finalized g s c store (c.goto (.committed x)) := by
  obtain ⟨size, files, fileId, rfl, _⟩ := Store.reserve_ok hr
  have others {w y} (hn : w ≠ c.upload) (hy : s.store.sessions.lookup w = some y) :
      (s.store.reservation env c.upload x files fileId).sessions.lookup w = some y := by
    simp [Store.reservation, hy, hn]
  have own : (s.store.reservation env c.upload x files fileId).sessions.lookup c.upload = some { x with
      state := .finalizing, storageObjectId := some s.store.next, finalFileId := some fileId } := by
    simp [Store.reservation, hx]
  have advances : Advances g s.store (s.store.reservation env c.upload x files fileId) := by
    refine ⟨h.recorded.reserve hx ha, fun {w y} hy => ?grows, fun {w y} hy hn => ?settled,
      fun {w y} hy hn _ => ?closed, id, fun hm => ?full, .inl, fun hy hc => ?completed, fun hm => ?returned⟩
    case grows =>
      by_cases hn : w = c.upload
      case pos => subst hn; cases hx.symm.trans hy; exact ⟨_, own, Nat.le_refl _⟩
      case neg => exact ⟨y, others hn hy, Nat.le_refl _⟩
    case settled =>
      refine ⟨y, others (fun hw => ?_) hy, hn, rfl, rfl⟩
      subst hw
      cases hx.symm.trans hy
      exact hn ha
    case closed =>
      refine others (fun hw => ?_) hy
      subst hw
      cases hx.symm.trans hy
      exact hn ha
    case full =>
      rcases Store.mem_reservation.mp hm with hm | ⟨rfl, _⟩
      case inl => exact .inl hm
      case inr => exact .inr ⟨_, own, by simp, size⟩
    case completed =>
      rcases Store.lookup_sessions_reservation hx hy with ⟨_, rfl⟩ | ⟨_, hy⟩
      case inl => cases hc
      case inr => exact .inl hy
    case returned => exact .inl (by simpa [Store.reservation] using hm)
  refine ⟨h.restate advances (fun hy => ?row) (fun {w r} hp => ?held) id (fun hy => ?live), advances,
    fun he => ?call, [.reserved c.upload s.store.next (s.store.next + 1) fileId], rfl, by simp⟩
  case row =>
    rcases Store.lookup_sessions_reservation hx hy with ⟨rfl, rfl⟩ | ⟨_, hy⟩
    case inl => exact ⟨x, hx, rfl, rfl, rfl⟩
    case inr => exact ⟨_, hy, rfl, rfl, rfl⟩
  case held =>
    have hn : w ≠ c.upload := fun he => by cases (he ▸ hw).symm.trans hp
    obtain ⟨⟨y, hy, _⟩, _⟩ := h.patch hp
    exact (others hn hy).trans hy.symm
  case live =>
    rcases Store.lookup_sessions_reservation hx hy with ⟨rfl, rfl⟩ | ⟨_, hy⟩
    case inl => exact ⟨by simp, fun _ => ⟨_, rfl, .inl ((h.live hx).left ha)⟩⟩
    case inr => exact h.live hy
  case call => cases he; exact ⟨rfl, rfl, trivial⟩

omit [Collation] in
-- The staged bytes become the object of their upload.
theorem Finalized.rename {t : Target} {bytes : List UInt8} (h : s.Sound g)
    (hr : ∃ v, .reserved c.upload t.objectId v t.fileId ∈ s.store.history)
    (hk : s.store.Key c.upload t.stagingKey c.owner)
    (hb : s.store.staging.lookup t.stagingKey = some bytes) :
    Finalized g s c { s.store with
      staging  := s.store.staging.erase t.stagingKey
      payloads := s.store.payloads.set t.objectId bytes } (c.goto (.promoted t)) := by
  obtain ⟨v, hr⟩ := hr
  obtain ⟨x, hx, hn, _⟩ := h.full hr
  have key := (hk.row hx).left
  obtain rfl := h.staged hr hx (key ▸ hb)
  have advances : Advances g s.store { s.store with
      staging  := s.store.staging.erase t.stagingKey
      payloads := s.store.payloads.set t.objectId g.file } := by
    refine .of_rows (h.recorded.follow [] (.of_rows [] (Nat.le_refl _) (by simp) rfl (by simp) (by simp)))
      rfl (fun ho => ?_) id (fun ho => ?_) .inl
    case refine_1 => rw [Table.lookup_set]; split <;> trivial
    case refine_2 =>
      rw [Table.lookup_set] at ho
      split at ho
      case isTrue he => cases ho; exact .inr ⟨rfl, he ▸ (h.recorded.bound hr).right⟩
      case isFalse   => exact .inl ho
  refine ⟨h.restate advances (fun hx => ⟨_, hx, rfl, rfl, rfl⟩) (fun _ => rfl) (fun hb => ?staging)
    (fun {w y} hy => ?live), advances, fun he => ?call, [], by simp, by simp⟩
  case staging =>
    rw [Table.lookup_erase] at hb
    split at hb <;> trivial
  case live =>
    by_cases hw : w = c.upload
    case pos =>
      subst hw
      cases hx.symm.trans hy
      refine ⟨fun ha => absurd ha hn, fun hs => ?_⟩
      obtain ⟨o, ho, _⟩ := (h.live hx).right hs
      obtain ⟨_, _, hr'⟩ := h.recorded.storage hx ho
      obtain ⟨rfl, _⟩ := h.recorded.unique hr hr'
      exact ⟨_, ho, .inr (by simp)⟩
    case neg =>
      have apart : y.stagingKey ≠ t.stagingKey := fun he => hw (h.recorded.keys hy hx (he.trans key.symm))
      refine ⟨fun ha => ?_, fun hs => ?_⟩
      case refine_1 => simpa [apart] using (h.live hy).left ha
      case refine_2 =>
        obtain ⟨o, ho, held⟩ := (h.live hy).right hs
        refine ⟨o, ho, held.imp (by simp [apart]) fun hp => ?_⟩
        rw [Table.lookup_set]
        split <;> trivial
  case call => cases he; exact ⟨rfl, rfl, trivial⟩

omit [Digest] [Collation] in
theorem rows_readied (id : Id) (sum : String) : (store.readied id sum).staging = store.staging ∧
    (store.readied id sum).payloads = store.payloads ∧ (store.readied id sum).next = store.next ∧
    ∃ es, (store.readied id sum).history = store.history ++ es ∧ ∀ e ∈ es, e = .readied id := by
  rcases Store.readied_cases store id sum with ⟨_, he⟩ | ⟨_, _, _, he⟩ <;> rw [he]
  case inl => exact ⟨rfl, rfl, rfl, [], by simp, by simp⟩
  case inr => exact ⟨rfl, rfl, rfl, [.readied id], rfl, by simp⟩

omit [Collation] in
-- The object that an upload is completed with is the file.
theorem Finalized.complete {t : Target} {sum : String} (h : s.Sound g)
    (hp : s.store.payloads.lookup t.objectId = some g.file)
    (hc : s.store.complete c.owner c.upload t sum = .ok (store, none)) :
    Finalized g s c store (c.goto (.completed t sum)) := by
  obtain ⟨x, hx, ⟨_, _, hn, hs⟩ | ⟨hs, _, ho, _, rfl⟩⟩ := Store.complete_ok hc
  case inl => simp at hs
  have follows := h.recorded.complete hc
  obtain ⟨staging, payloads, next, history⟩ := @rows_readied s.store t.objectId sum
  generalize hs' : (s.store.readied t.objectId sum).updateSession c.upload
    (fun u => { u with state := .completed }) = store at *
  have rows {w} : store.sessions.lookup w = (s.store.sessions.lookup w).map fun y =>
      if w = c.upload then { y with state := .completed } else y := by
    rw [← hs', Store.lookup_updateSession, Store.sessions_readied]
  have others {w y} (hy : s.store.sessions.lookup w = some y) (hn : w ≠ c.upload) :
      store.sessions.lookup w = some y := by
    simp [rows, hy, hn]
  have own : store.sessions.lookup c.upload = some { x with state := .completed } := by
    simp [rows, hx]
  have same : store.staging = s.store.staging ∧ store.payloads = s.store.payloads := by
    cases hs'
    exact ⟨staging, payloads⟩
  have events : ∃ es, store.history = s.store.history ++ es ∧
      ∀ e ∈ es, e = .readied t.objectId := by
    cases hs'
    exact history
  obtain ⟨es, hh, he⟩ := events
  have old {e : Transfers.Event} (hm : e ∈ store.history) (hn : e ≠ .readied t.objectId) :
      e ∈ s.store.history :=
    (List.mem_append.mp (hh ▸ hm)).resolve_right fun hm => hn (he e hm)
  have stored : Stored g store c.upload := ⟨_, _, own, rfl, ho, same.right ▸ hp⟩
  have advances : Advances g s.store store := by
    refine ⟨follows, fun {w y} hy => ?grows, fun {w y} hy hn => ?settled, fun {w y} hy hn hf => ?closed,
      fun ho => same.right ▸ ho, fun hm => ?full, fun ho => .inl (same.right ▸ ho),
      fun {w y} hy _ => ?completed, fun hm => ?returned⟩
    case grows =>
      by_cases hn : w = c.upload
      case pos => subst hn; cases hx.symm.trans hy; exact ⟨_, own, Nat.le_refl _⟩
      case neg => exact ⟨y, others hy hn, Nat.le_refl _⟩
    case settled =>
      by_cases hn : w = c.upload
      case pos => subst hn; cases hx.symm.trans hy; exact ⟨_, own, by simp, rfl, rfl⟩
      case neg => exact ⟨y, others hy hn, by assumption, rfl, rfl⟩
    case closed =>
      refine others hy fun hw => ?_
      subst hw
      cases hx.symm.trans hy
      exact hf hs
    case full => exact .inl (old hm (by simp))
    case completed =>
      by_cases hn : w = c.upload
      case pos => exact .inr (hn ▸ stored)
      case neg =>
        rw [rows] at hy
        obtain ⟨z, hz, he⟩ := Option.map_eq_some_iff.mp hy
        rw [if_neg hn] at he
        exact .inl (he ▸ hz)
    case returned => exact .inl (old hm (by simp))
  refine ⟨h.restate advances (fun {w y} hy => ?row) (fun {w r} hr => ?held) (fun hb => same.left ▸ hb)
    (fun {w y} hy => ?live), advances, fun hk => ?call, es, hh, fun w r hm => ?events⟩
  case row =>
    rw [rows] at hy
    obtain ⟨z, hz, rfl⟩ := Option.map_eq_some_iff.mp hy
    refine ⟨z, hz, ?_⟩
    split <;> exact ⟨rfl, rfl, rfl⟩
  case held =>
    obtain ⟨⟨y, hy, ha⟩, _⟩ := h.patch hr
    refine (others hy fun hw => ?_).trans hy.symm
    subst hw
    cases hx.symm.trans hy
    cases hs.symm.trans ha
  case live =>
    rw [rows] at hy
    obtain ⟨z, hz, rfl⟩ := Option.map_eq_some_iff.mp hy
    split
    case isTrue  => exact ⟨by simp, by simp⟩
    case isFalse => rw [Live, same.left, same.right]; exact h.live hz
  case call   => cases hk; exact ⟨rfl, rfl, stored⟩
  case events => cases he _ hm

omit [Collation] in
theorem Sound.enqueued {v : Id} (h : s.Sound g) :
    Sound g { s with store := s.store.log (.enqueued u v) } ∧
      Advances g s.store (s.store.log (.enqueued u v)) := by
  have advances : Advances g s.store (s.store.log (.enqueued u v)) := by
    refine .of_rows h.recorded.log_enqueued rfl id (fun hm => ?_) .inl fun hm => .inl ?_
    case refine_1 => simpa [Store.log] using hm
    case refine_2 => simpa [Store.log] using hm
  exact ⟨h.restate advances (fun hx => ⟨_, hx, rfl, rfl, rfl⟩) (fun _ => rfl) id h.live, advances⟩

theorem Sound.finalized (h : s.Sound g) (hc : s.calls.lookup i = some c) (hw : waits s c = false)
    (m : c.Moves s.store env store k) : Finalized g s c store k := by
  obtain ⟨checksum, bound, knows⟩ := h.call hc
  have goes {stage : Transfers.Stage} (hk : Knows g s.store { c with stage }) :
      Finalized g s c s.store (c.goto stage) :=
    .stay h fun he => by cases he; exact ⟨rfl, rfl, hk⟩
  cases m
  case stop => exact .stay h (by simp)
  case again hx hs hf => exact .returned h (h.completed hx hs) (h.recorded.file hx hf)
  case reserve x ht hx _ ha hr =>
    refine .reserve h ?_ hx ha hr
    simpa [waits, ht] using hw
  case rename ht hb =>
    simp only [Finalize.Bound, ht] at bound
    exact .rename h bound.right bound.left hb
  case hash hb _ => exact goes ((h.payload hb).left ▸ hb)
  case mismatch hb hd hn =>
    rw [checksum, g.declares, (h.payload hb).left] at *
    cases hd
    contradiction
  case complete ht hs =>
    simp only [Knows, ht] at knows
    exact .complete h knows hs
  case index v ht hs hv =>
    simp only [Knows, ht] at knows
    have complete := Finalized.complete h knows hs
    obtain ⟨sound, advances⟩ := complete.sound.enqueued
    obtain ⟨es, hh, he⟩ := complete.events
    refine ⟨sound, complete.advances.trans advances, fun hk => ?_, es ++ [.enqueued c.upload v],
      by simp [Store.log, hh], fun w r hm => ?_⟩
    case refine_1 => cases hk; exact complete.call rfl
    case refine_2 => exact he w r (by simpa using hm)
  case already ht hs =>
    obtain ⟨x, hx, ⟨hc, rfl, hf, _⟩ | ⟨_, _, _, he, _⟩⟩ := Store.complete_ok hs
    case inl => exact .returned h (h.completed hx hc) (h.recorded.file hx hf.symm)
    case inr => cases he
  case answer ht =>
    simp only [Knows, ht] at knows
    simp only [Finalize.Bound, ht] at bound
    exact .returned h knows ⟨_, bound.right⟩
  case reject ht _ =>
    simp only [Knows, ht] at knows
  case unlink ht =>
    simp only [Knows, ht] at knows
  all_goals exact goes trivial

theorem Sound.stepFinalize {r : Finalize × Option UploadFinalized × Server} (h : s.Sound g)
    (hs : s.stepFinalize i env = some r) : r.2.2.Sound g ∧ Advances g s.store r.2.2.store ∧
      s.calls.lookup i = some r.1 ∧ r.2.2.patches = s.patches ∧
      (∀ {j c}, r.2.2.calls.lookup j = some c → ∃ d, s.calls.lookup j = some d ∧ c.upload = d.upload) ∧
      ∀ {a}, r.2.1 = some a → .returned r.1.upload a ∈ r.2.2.store.history := by
  simp only [Server.stepFinalize, Option.bind_eq_some_iff] at hs
  obtain ⟨c, hc, hs⟩ := hs
  split at hs
  case isTrue => contradiction
  case isFalse hw =>
    obtain ⟨⟨store, k⟩, hm, he⟩ := Option.map_eq_some_iff.mp hs
    have moves := Finalize.next_moves hm
    have done := h.finalized hc (by simpa using hw) moves
    have bound := (moves.follow h.recorded (h.call hc).right.left).right
    have calls {j d} (hd : r.2.2.calls.lookup j = some d) :
        j ≠ i ∧ s.calls.lookup j = some d ∨ j = i ∧ k = some d := by
      rw [← he] at hd
      cases k <;> simp only [Table.lookup_erase, Table.lookup_set] at hd <;> split at hd
      case none.isTrue     => contradiction
      case none.isFalse hn => exact .inl ⟨hn, hd⟩
      case some.isTrue hj  => exact .inr ⟨hj, hd⟩
      case some.isFalse hn => exact .inl ⟨hn, hd⟩
    subst he
    refine ⟨{ done.sound with call := fun hd => ?_ }, done.advances, hc, rfl, fun hd => ?_, fun ha => ?_⟩
    case refine_1 =>
      rcases calls hd with ⟨_, hd⟩ | ⟨rfl, hk⟩
      case inl => exact done.sound.call hd
      case inr =>
        obtain ⟨hs, _, knows⟩ := done.call hk
        exact ⟨hs.trans (h.call hc).left, bound _ hk, knows⟩
    case refine_2 =>
      rcases calls hd with ⟨_, hd⟩ | ⟨rfl, hk⟩
      case inl => exact ⟨_, hd, rfl⟩
      case inr => exact ⟨c, hc, (done.call hk).right.left⟩
    case refine_3 =>
      obtain ⟨es, hh, he⟩ := done.events
      obtain ⟨w, hm⟩ := returned_of_result hh ha
      exact hh ▸ List.mem_append_right _ (he w _ hm ▸ hm)

end

omit [Digest] in
theorem createUpload_empty {session : Session} (hc : store.createUpload session [] = some store') :
    ∃ x : Session, x.state = .active ∧ x.receivedSize = 0 ∧ x.expectedSize = session.expectedSize ∧
      x.stagingKey = store.next ∧ store' = { store with
        next     := store.next + 3
        sessions := store.sessions.set (store.next + 1) x
        staging  := store.staging.set store.next [] } := by
  rw [Store.createUpload] at hc
  split at hc <;> cases hc
  exact ⟨{ session with
    receivedSize    := 0
    state           := .active
    stagingKey      := store.next
    storageObjectId := none
    finalFileId     := none }, rfl, rfl, rfl, rfl, rfl⟩

-- An upload that begins is empty.
theorem Sound.create {session : Session} (h : s.Sound g) (he : session.expectedSize = g.file.length)
    (hc : s.store.createUpload session [] = some store) :
    Sound g { s with store } ∧ Advances g s.store store ∧
      ∃ x, store.sessions.lookup (s.store.next + 1) = some x := by
  have follows := h.recorded.createUpload hc
  obtain ⟨x, ha, hr, hs, hk, rfl⟩ := createUpload_empty hc
  have grow {n : Id} (hn : n < s.store.next) : n < s.store.next + 3 := Nat.lt_add_right 3 hn
  have fresh {w y} (hy : s.store.sessions.lookup w = some y) : w ≠ s.store.next + 1 :=
    Nat.ne_of_lt (Nat.lt_add_right 1 (h.recorded.ids hy).left)
  have others {w y} (hy : s.store.sessions.lookup w = some y) :
      (s.store.sessions.set (s.store.next + 1) x).lookup w = some y := by
    simpa [fresh hy] using hy
  have advances : Advances g s.store { s.store with
      next     := s.store.next + 3
      sessions := s.store.sessions.set (s.store.next + 1) x
      staging  := s.store.staging.set s.store.next [] } := by
    refine ⟨follows, fun hy => ⟨_, others hy, Nat.le_refl _⟩,
      fun hy hn => ⟨_, others hy, hn, rfl, rfl⟩, fun hy _ _ => others hy, id, .inl, .inl,
      fun hy hd => ?_, .inl⟩
    rcases Store.lookup_sessions_set hy with ⟨_, rfl⟩ | hy
    case inl => cases ha.symm.trans hd
    case inr => exact .inl hy
  refine ⟨h.advance s.patches s.accepted advances (fun {w y} hy => ?size)
    (fun {w up} hu => ?upload) (fun {w r} hp => ?patch) (fun hb => grow (h.fresh hb))
    (fun {w y} hy => ?live), advances, x, by simp⟩
  case size =>
    rcases Store.lookup_sessions_set hy with ⟨_, rfl⟩ | hy
    case inl => exact hs.trans he
    case inr => exact h.size hy
  case upload =>
    simp only [Server.upload, Option.bind_eq_some_iff, Option.map_eq_some_iff] at hu
    obtain ⟨y, hy, bytes, hb, rfl⟩ := hu
    rcases Store.lookup_sessions_set hy with ⟨rfl, rfl⟩ | hy
    case inl =>
      have idle : s.patches.lookup (s.store.next + 1) = none := by
        refine Option.eq_none_iff_forall_ne_some.mpr fun r hp => ?_
        obtain ⟨⟨y, hy, _⟩, _⟩ := h.patch hp
        exact fresh hy rfl
      have empty : s.accepted.lookup (s.store.next + 1) = none := by
        refine Option.eq_none_iff_forall_ne_some.mpr fun bodies hb => ?_
        exact absurd (h.fresh hb) (Nat.not_lt_of_le (Nat.le_add_right _ _))
      rw [hk, Table.lookup_set, if_pos rfl] at hb
      cases hb
      simp only [idle, empty, Option.map_none, Option.getD_none, List.flatten_nil]
      refine ⟨⟨⟨?_, ?_, ?_⟩, ?_, ?_⟩, List.nil_prefix⟩ <;> simp [hr]
    case inr =>
      have key : y.stagingKey ≠ s.store.next := Nat.ne_of_lt (h.recorded.ids hy).right
      rw [Table.lookup_set, if_neg key] at hb
      exact h.upload (upload_of_rows hy hb)
  case patch =>
    obtain ⟨⟨y, hy, ha⟩, request, body, rest, filled⟩ := h.patch hp
    exact ⟨⟨y, others hy, ha⟩, request, body, rest, filled⟩
  case live =>
    rcases Store.lookup_sessions_set hy with ⟨_, rfl⟩ | hy
    case inl => exact ⟨fun _ => by simp [hk], fun hf => by cases ha.symm.trans hf⟩
    case inr =>
      have key : y.stagingKey ≠ s.store.next := Nat.ne_of_lt (h.recorded.ids hy).right
      simpa [Live, key] using h.live hy

omit [Digest] in
theorem state_of_admitPatch {session : UploadSession} {headers : PatchHeaders} {now : Time} {p : Patch}
    (h : admitPatch session headers now = .ok p) : session.state = .active := by
  simp only [admitPatch, Except.bind_eq_ok_iff] at h
  obtain ⟨_, _, _, ha, _⟩ := h
  unfold requireActive at ha
  split at ha <;> trivial

omit [Digest] in
theorem offset_of_patchOffset {offset n : Nat} {body : List UInt8}
    (h : patchOffset (headers offset body) = .ok n) : offset = n := by
  simp only [patchOffset, headers, ne_eq, not_true_eq_false, if_false] at h
  split at h <;> cases h
  rfl

-- A `PATCH` that is let in is about the next bytes of its upload.
theorem Sound.beginPatch {ticket owner offset : Nat} {body : List UInt8} {now : Time}
    (h : s.Sound g) (hf : s.patches.lookup u = none) (hb : body <+: g.file.drop offset)
    (hp : s.beginPatch ticket owner u offset body now = .ok s') :
    s'.Sound g ∧ s'.store = s.store ∧ s'.calls = s.calls ∧ ∃ r, s'.patches = s.patches.set u r ∧
      r.ticket = ticket ∧ r.request = .patch u offset body := by
  simp only [Server.beginPatch, Except.bind_eq_ok_iff] at hp
  obtain ⟨x, hx, p, ha, hp⟩ := hp
  cases hp
  obtain ⟨hx, _⟩ := Store.fetchUploadForUpdate_ok hx
  obtain ⟨ho, _, rfl⟩ := admitPatch_ok ha
  obtain rfl := offset_of_patchOffset ho
  refine ⟨h.advance _ _ (.refl h.recorded) h.size (fun {w up} hu => ?upload) (fun {w r} hr => ?patch) h.fresh
    h.live, rfl, rfl, _, rfl, rfl, rfl⟩
  case upload =>
    simp only [Server.upload, Option.bind_eq_some_iff, Option.map_eq_some_iff] at hu
    obtain ⟨y, hy, bytes, hb, rfl⟩ := hu
    by_cases hw : w = u
    case pos =>
      subst hw
      cases hx.symm.trans hy
      obtain ⟨inv, content⟩ := h.upload (upload_of_rows hx hb)
      simp only [Table.lookup_set, if_true, Option.map_some]
      exact ⟨inv.begin ha, content⟩
    case neg =>
      simp only [Table.lookup_set, hw, if_false]
      exact h.upload (upload_of_rows hy hb)
  case patch =>
    rw [Table.lookup_set] at hr
    split at hr
    case isFalse => exact h.patch hr
    case isTrue hw =>
      subst hw
      cases hr
      exact ⟨⟨x, hx, state_of_admitPatch ha⟩, ⟨body, rfl⟩, List.nil_prefix, fun _ => hb, by simp⟩

theorem Sound.stepPatch {l : Label} {q : Receiving × Upload × Server} (h : s.Sound g)
    (hs : s.stepPatch u l = some q) : q.2.2.Sound g ∧ Advances g s.store q.2.2.store ∧
      s.patches.lookup u = some q.1 ∧ q.2.2.calls = s.calls ∧
      (∀ {w r}, q.2.2.patches.lookup w = some r →
        ∃ r', s.patches.lookup w = some r' ∧ r.ticket = r'.ticket ∧ r.request = r'.request) ∧
      (l = .commit → q.1.patch.currentOffset < q.2.1.session.receivedSize ∧
        ∃ x, q.2.2.store.sessions.lookup u = some x ∧
          x.receivedSize = q.2.1.session.receivedSize) := by
  obtain ⟨r, x, up, rest, up', patches, f, others, own, rfl⟩ := stepPatch_eq_some hs
  obtain ⟨inv, content⟩ := h.upload f.view
  have receives := h.patch f.patch
  have state : x.state = .active := by
    obtain ⟨y, hy, ha⟩ := receives.active
    cases f.row.symm.trans hy
    exact ha
  have state' : up'.session.state = .active := by
    rcases Upload.session_of_step f.step with he | ⟨p, _, he⟩ <;> rw [he, f.same] <;> exact state
  obtain ⟨grows, sized⟩ := inv.session_step f.step
  rw [f.same] at grows sized
  have row : (s.put u x.stagingKey up').store.sessions.lookup u =
      some { x with toUploadSession := up'.session } := by
    simp [f.row]
  have rows {w} (hw : w ≠ u) : (s.put u x.stagingKey up').store.sessions.lookup w =
      s.store.sessions.lookup w := by
    simp [hw]
  have follows : s.store.Follows (s.put u x.stagingKey up').store := by
    refine h.recorded.follow [] ⟨Nat.le_refl _, by simp, by simp, by simp, fun {w y} hy => ?_⟩
    by_cases hw : w = u
    case pos =>
      subst hw
      cases row.symm.trans hy
      exact ⟨x, f.row, rfl, rfl, id, id, fun _ => state⟩
    case neg => exact ⟨y, rows hw ▸ hy, .refl⟩
  have other {w y} (hy : s.store.sessions.lookup w = some y) (hn : y.state ≠ .active) : w ≠ u := by
    rintro rfl
    cases f.row.symm.trans hy
    exact hn state
  have advances : Advances g s.store (s.put u x.stagingKey up').store := by
    refine ⟨follows, fun {w y} hy => ?grows, fun hy hn => ⟨_, (rows (other hy hn)).trans hy, hn, rfl, rfl⟩,
      fun hy hn _ => (rows (other hy hn)).trans hy, id, .inl, .inl, fun {w y} hy hc => ?completed,
      .inl⟩
    case grows =>
      by_cases hw : w = u
      case pos => subst hw; cases f.row.symm.trans hy; exact ⟨_, row, grows⟩
      case neg => exact ⟨y, (rows hw).trans hy, Nat.le_refl _⟩
    case completed =>
      refine .inl ?_
      by_cases hw : w = u
      case pos => subst hw; cases row.symm.trans hy; cases state'.symm.trans hc
      case neg => exact rows hw ▸ hy
  refine ⟨h.advance _ _ advances (fun {w y} hy => ?size) (fun {w v} hv => ?upload) (fun {w q} hq => ?patch)
    (fun {w bodies} hb => ?fresh) (fun {w y} hy => ?live), advances, f.patch, rfl, fun {w q} hq => ?same, fun hl => ?commit⟩
  case size =>
    by_cases hw : w = u
    case pos => subst hw; cases row.symm.trans hy; exact sized.trans (h.size f.row)
    case neg => exact h.size (rows hw ▸ hy)
  case upload =>
    by_cases hw : w = u
    case pos =>
      subst hw
      have held : (patches.lookup w).map (·.patch) = up'.patch := by
        rw [own]
        cases up'.patch <;> rfl
      cases (upload_put_self f.row held).symm.trans hv
      refine ⟨inv.step f.step, ?_⟩
      rcases accepted_of_step f.step with ⟨he, _⟩ | ⟨_, _, _, _, _, _, hl⟩
      case inl => rw [he]; exact content
      case inr => exact (h.commit f hl).left
    case neg => exact h.upload ((upload_put_of_ne h.recorded f.row hw (others w hw)).symm.trans hv)
  case patch =>
    by_cases hw : w = u
    case pos =>
      subst hw
      rw [own] at hq
      obtain ⟨p, hp, rfl⟩ := Option.map_eq_some_iff.mp hq
      obtain ⟨offset, body, remains, filled⟩ := receives.body_step f.held f.fed f.step hp
      exact ⟨⟨_, row, state'⟩, offset ▸ receives.request, body, remains, filled⟩
    case neg =>
      obtain ⟨⟨y, hy, ha⟩, request, body, remains, filled⟩ := h.patch (others w hw ▸ hq)
      exact ⟨⟨y, (rows hw).trans hy, ha⟩, request, body, remains, filled⟩
  case fresh =>
    simp only [put, Table.lookup_set] at hb
    split at hb
    case isTrue hw => exact hw ▸ (h.recorded.ids f.row).left
    case isFalse   => exact h.fresh hb
  case live =>
    have kept {key : Id} (hs : (s.store.staging.lookup key).isSome) :
        ((s.put u x.stagingKey up').store.staging.lookup key).isSome := by
      simp only [put, Table.lookup_set]
      split <;> trivial
    by_cases hw : w = u
    case pos =>
      subst hw
      cases row.symm.trans hy
      exact ⟨fun _ => by simp [put], fun hf => by cases state'.symm.trans hf⟩
    case neg =>
      have live := h.live (rows hw ▸ hy)
      refine ⟨fun ha => kept (live.left ha), fun hf => ?_⟩
      obtain ⟨o, ho, held⟩ := live.right hf
      exact ⟨o, ho, held.imp kept id⟩
  case same =>
    by_cases hw : w = u
    case pos =>
      subst hw
      rw [own] at hq
      obtain ⟨p, _, rfl⟩ := Option.map_eq_some_iff.mp hq
      exact ⟨r, f.patch, rfl, rfl⟩
    case neg => exact ⟨q, others w hw ▸ hq, rfl, rfl⟩
  case commit => exact ⟨(h.commit f hl).right, _, row, rfl⟩

section

variable {x : Session} {k owner : Id} {now : Time}

-- What a clean-up does to the server.
structure Cleans (g : Setting) (s s' : Server) : Prop where
  sound : s'.Sound g
  advances : Advances g s.store s'.store
  patches : s'.patches = s.patches
  calls : s'.calls = s.calls

theorem Cleans.refl (h : s.Sound g) : Cleans g s s :=
  ⟨h, .refl h.recorded, rfl, rfl⟩

theorem Cleans.mark (h : s.Sound g) (hx : s.store.sessions.lookup u = some x)
    (hs : x.state = .expired ∨ x.state = .failed) :
    Cleans g s { s with cleaning := s.cleaning ++ [(u, x.stagingKey)] } := by
  refine ⟨{ h with cleaning := fun {w k} hc => ?_ }, .refl h.recorded, rfl, rfl⟩
  rcases List.mem_append.mp hc with hc | hc
  case inl => exact h.cleaning hc
  case inr => cases List.mem_singleton.mp hc; exact ⟨x, hx, rfl, hs⟩

-- An upload is closed only while no request works on it.
theorem Cleans.close (h : s.Sound g) (hf : s.patches.lookup u = none)
    (hx : s.store.sessions.lookup u = some x) (hs : x.state = .active ∨ x.state = .expired) :
    Cleans g s (s.close u x.stagingKey) := by
  have own : (s.close u x.stagingKey).store.sessions.lookup u = some { x with state := .expired } := by
    simp [Server.close, hx]
  have others {w} (hw : w ≠ u) :
      (s.close u x.stagingKey).store.sessions.lookup w = s.store.sessions.lookup w := by
    simp [Server.close, hw]
  have after {w y} (hy : s.store.sessions.lookup w = some y) :
      w = u ∧ y = x ∨ (s.close u x.stagingKey).store.sessions.lookup w = some y := by
    by_cases hw : w = u
    case pos => subst hw; cases hx.symm.trans hy; exact .inl ⟨rfl, rfl⟩
    case neg => exact .inr ((others hw).trans hy)
  have before {w y} (hy : (s.close u x.stagingKey).store.sessions.lookup w = some y) :
      w = u ∧ y = { x with state := .expired } ∨ s.store.sessions.lookup w = some y := by
    by_cases hw : w = u
    case pos => subst hw; cases own.symm.trans hy; exact .inl ⟨rfl, rfl⟩
    case neg => exact .inr (others hw ▸ hy)
  have follows : s.store.Follows (s.close u x.stagingKey).store := by
    refine h.recorded.follow []
      ⟨Nat.le_refl _, by simp [Server.close, Store.updateSession], by simp, by simp, fun hy => ?_⟩
    rcases before hy with ⟨rfl, rfl⟩ | hy
    case inl => exact ⟨x, hx, rfl, rfl, id, id, by simp⟩
    case inr => exact ⟨_, hy, .refl⟩
  have advances : Advances g s.store (s.close u x.stagingKey).store := by
    refine ⟨follows, fun hy => ?grows, fun hy hn => ?settled, fun hy hn hf => ?closed, id, .inl, .inl,
      fun hy hc => ?completed, .inl⟩
    case grows =>
      rcases after hy with ⟨rfl, rfl⟩ | hy
      case inl => exact ⟨_, own, Nat.le_refl _⟩
      case inr => exact ⟨_, hy, Nat.le_refl _⟩
    case settled =>
      rcases after hy with ⟨rfl, rfl⟩ | hy
      case inl => exact ⟨_, own, by simp, rfl, rfl⟩
      case inr => exact ⟨_, hy, hn, rfl, rfl⟩
    case closed =>
      rcases after hy with ⟨rfl, rfl⟩ | hy
      case inl => rw [own, ← hs.resolve_left hn]
      case inr => exact hy
    case completed =>
      rcases before hy with ⟨rfl, rfl⟩ | hy
      case inl => cases hc
      case inr => exact .inl hy
  have restated := h.restate advances (fun {w y} hy => ?row) (fun {w r} hr => ?held) id
    fun {w y} hy => ?live
  case row =>
    rcases before hy with ⟨rfl, rfl⟩ | hy
    case inl => exact ⟨x, hx, rfl, rfl, rfl⟩
    case inr => exact ⟨_, hy, rfl, rfl, rfl⟩
  case held =>
    refine others fun hw => ?_
    subst hw
    cases hf.symm.trans hr
  case live =>
    rcases before hy with ⟨rfl, rfl⟩ | hy
    case inl => exact ⟨by simp, by simp⟩
    case inr => exact h.live hy
  refine ⟨{ restated with cleaning := fun {w k} hc => ?_ }, advances, rfl, rfl⟩
  rcases List.mem_append.mp hc with hc | hc
  case inl => exact restated.cleaning hc
  case inr => cases List.mem_singleton.mp hc; exact ⟨_, own, rfl, .inl rfl⟩

theorem Cleans.cleanExpired (h : s.Sound g) (hs : s.cleanExpired u now = some s') : Cleans g s s' := by
  obtain ⟨x, hx, hs⟩ := Option.bind_eq_some_iff.mp hs
  split at hs
  case isTrue => contradiction
  case isFalse hf =>
    have free : s.patches.lookup u = none := by simpa using hf
    split at hs
    case h_1 ha => split at hs <;> cases hs; exact .close h free hx (.inl ha)
    case h_2 he => cases hs; exact .close h free hx (.inr he)
    case h_3 hd => cases hs; exact .mark h hx (.inr hd)
    case h_4    => contradiction

theorem Cleans.cancelUpload (h : s.Sound g) (hs : s.cancelUpload owner u = some s') :
    Cleans g s s' := by
  unfold Server.cancelUpload at hs
  split at hs
  case isTrue => contradiction
  case isFalse hf =>
    have free : s.patches.lookup u = none := by simpa using hf
    split at hs
    case h_1 => cases hs; exact .refl h
    case h_2 x hx =>
      have hx := (Store.fetchUploadForUpdate_ok hx).left
      split at hs <;> cases hs
      case h_1 ha => exact .close h free hx (.inl ha)
      case h_2 he => exact .close h free hx (.inr he)
      case h_3 hd => exact .mark h hx (.inr hd)
      case h_4    => exact .refl h

-- Only the staging files of uploads that are closed for good are removed.
theorem Cleans.removeStagingFile (h : s.Sound g) (hs : s.removeStagingFile u k = some s') :
    Cleans g s s' := by
  unfold Server.removeStagingFile at hs
  split at hs <;> cases hs
  case isTrue hm =>
    obtain ⟨x, hx, hk, hc⟩ := h.cleaning hm
    have advances : Advances g s.store { s.store with staging := s.store.staging.erase k } :=
      .of_rows (h.recorded.follow [] (.of_rows [] (Nat.le_refl _) (by simp) rfl (by simp) (by simp)))
        rfl id id .inl .inl
    have restated := h.restate advances (fun hx => ⟨_, hx, rfl, rfl, rfl⟩) (fun _ => rfl)
      (fun hb => ?staging) fun {w y} hy => ?live
    exact ⟨{ restated with cleaning := fun hc => restated.cleaning (List.mem_of_mem_erase hc) }, advances,
      rfl, rfl⟩
    case staging =>
      rw [Table.lookup_erase] at hb
      split at hb <;> trivial
    case live =>
      by_cases he : y.stagingKey = k
      case pos =>
        have same : w = u := h.recorded.keys hy hx (he.trans hk.symm)
        subst same
        cases hx.symm.trans hy
        rcases hc with hc | hc <;> exact ⟨by simp [hc], by simp [hc]⟩
      case neg => simpa [Live, he] using h.live hy

end

theorem Sound.init : Sound g {} where
  recorded      := Store.recorded_empty
  size hx       := by simp at hx
  upload hu     := by simp [Server.upload] at hu
  patch hr      := by simp at hr
  full hr       := by cases hr
  payload hb    := by simp at hb
  completed hx  := by simp at hx
  returned hr   := by cases hr
  call hc       := by simp at hc
  fresh hb      := by simp at hb
  live hx       := by simp at hx
  cleaning hc   := by cases hc

theorem Sound.crash (h : s.Sound g) :
    Sound g { s with patches := .empty, calls := .empty, cleaning := [] } where
  recorded  := h.recorded
  size      := h.size
  upload hu := by
    simp only [Server.upload, Option.bind_eq_some_iff, Option.map_eq_some_iff] at hu
    obtain ⟨x, hx, bytes, hb, rfl⟩ := hu
    obtain ⟨inv, content⟩ := h.upload (upload_of_rows hx hb)
    exact ⟨⟨inv.toIntact.with_staging rfl _, inv.complete, by simp⟩, content⟩
  patch hr  := by simp at hr
  full      := h.full
  payload   := h.payload
  completed := h.completed
  returned  := h.returned
  call hc   := by simp at hc
  fresh     := h.fresh
  live      := h.live
  cleaning hc := by cases hc

end Server
end MyDrive.Backup.Wire
