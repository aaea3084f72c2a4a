import MyDrive.Transfers.Theorems.Rows

open Execution

namespace MyDrive.Transfers

-- The version that an event names, with the upload that it names it for.
def Event.names : Event → Option (Id × Id)
  | .enqueued u v => some (u, v)
  | .returned u r => r.versionId.map (u, ·)
  | _             => none

theorem Event.names_of_plain {e : Event} (h : e.plain) : e.names = none := by
  cases e <;> simp_all [plain, names]

section

variable {s : Store} {env : Env} {w f g v : Id} {x : Session} {files : Table Id File}

theorem Store.file_reservation {owner : Id} (hg : s.Goes owner x files g)
    (hf : ((s.reservation env w x files g).files.lookup f).isSome) :
    (s.files.lookup f).isSome ∨ f = g := by
  have row : (files.lookup f).isSome := by
    cases hx : files.lookup f <;> simp_all [reservation]
  rcases hg with ⟨_, rfl, _⟩ | ⟨_, _, rfl⟩
  case inl => exact .inl row
  case inr =>
    by_cases he : f = g
    case pos => exact .inr he
    case neg => simp_all

theorem Store.currentVersion_reservation_self
    (hv : (s.reservation env w x files g).currentVersion g = some v) : v = s.next + 1 := by
  cases hx : files.lookup g <;> simp_all [reservation, currentVersion]

theorem Store.currentVersion_reservation_of_ne {owner : Id} (hg : s.Goes owner x files g)
    (hn : f ≠ g) : (s.reservation env w x files g).currentVersion f = s.currentVersion f := by
  have row : files.lookup f = s.files.lookup f := by
    rcases hg with ⟨_, rfl, _⟩ | ⟨_, _, rfl⟩
    case inl => rfl
    case inr => simp [hn]
  cases hx : s.files.lookup f <;> simp_all [reservation, currentVersion]

end

namespace System

-- The upload `u` of the file `f` has been reserved and is yet to be answered: it is finalizing, or its
-- completion has been committed.
inductive Awaits (s : System) (u f : Id) : Prop
  | finalizing {x} : s.store.sessions.lookup u = some x → x.state = .finalizing →
    x.finalFileId = some f → Awaits s u f
  | completed {i c t sum} : s.calls.lookup i = some (.finalize c) → c.upload = u →
    c.stage = .completed t sum → t.fileId = f → Awaits s u f

structure Owned (s : System) : Prop where
  recorded : Shared.Holds Store.Recorded (fun s c => c.Bound s) s
  file {g} : (s.store.files.lookup g).isSome → g < s.store.next
  target {u o v f} : .reserved u o v f ∈ s.store.history → v < s.store.next ∧ f < s.store.next
  version {u o v f y} : .reserved u o v f ∈ s.store.history → s.store.versions.lookup v = some y →
    y.objectId = o
  sole {u w f} : Awaits s u f → Awaits s w f → u = w
  left {i c t sum x} : s.calls.lookup i = some (.finalize c) → c.stage = .completed t sum →
    s.store.sessions.lookup c.upload = some x → x.state ≠ .finalizing
  own {u o v v' f} : Awaits s u f → .reserved u o v f ∈ s.store.history →
    s.store.currentVersion f = some v' → v' = v
  named {e u v} : e ∈ s.store.history → e.names = some (u, v) →
    ∃ o f, .reserved u o v f ∈ s.store.history

variable {s s' : System} {u o v f : Id}

theorem Owned.reserved_of_awaits (h : Owned s) (ha : Awaits s u f) :
    ∃ o v, .reserved u o v f ∈ s.store.history := by
  cases ha
  case finalizing hx _ hf => exact h.recorded.store.file hx hf
  case completed c t sum hc hu ht hf =>
    have bound := h.recorded.calls hc
    simp only [Call.Bound, Finalize.Bound, ht] at bound
    obtain ⟨_, v, hr⟩ := bound
    exact ⟨t.objectId, v, hu ▸ hf ▸ hr⟩

theorem Owned.own_of_awaits (h : Owned s) (ha : Awaits s u f)
    (hv : s.store.currentVersion f = some v) : ∃ o, .reserved u o v f ∈ s.store.history := by
  obtain ⟨o, w, hr⟩ := h.reserved_of_awaits ha
  cases h.own ha hr hv
  exact ⟨o, hr⟩

theorem Owned.named_of_reports {i : Nat} {c : Call} {e : Event} (h : Owned s)
    (hi : s.calls.lookup i = some c) (hc : c.Reports s.store e) (he : e.names = some (u, v)) :
    ∃ o f, .reserved u o v f ∈ s.store.history := by
  cases hc
  case enqueued hx hs hf hv =>
    cases he
    obtain ⟨o, hr⟩ := h.own_of_awaits (.finalizing hx hs hf) hv
    exact ⟨o, _, hr⟩
  case returned c t sum ht =>
    obtain ⟨w, hv, he⟩ := Option.map_eq_some_iff.mp he
    cases he
    obtain ⟨o, hr⟩ := h.own_of_awaits (.completed hi rfl ht rfl) hv
    exact ⟨o, _, hr⟩

theorem start_stage {r : Request} {x y : Store} {c : Finalize}
    (h : r.start x = some (y, some (.finalize c))) : c.stage = .begun := by
  cases r <;> simp only [Request.start] at h
  case upload =>
    obtain ⟨_, _, he⟩ := Option.map_eq_some_iff.mp h
    cases he
  case link => split at h <;> cases h
  all_goals
    cases h
  rfl

theorem complete_closes {x y : Store} {owner u : Id} {t : Target} {sum : String}
    (h : x.complete owner u t sum = .ok (y, none)) :
    (∃ z, x.sessions.lookup u = some z ∧ z.state = .finalizing ∧ z.finalFileId = some t.fileId) ∧
    ∀ z, y.sessions.lookup u = some z → z.state ≠ .finalizing := by
  obtain ⟨z, hz, ⟨_, _, _, hr⟩ | ⟨hs, hf, _, _, rfl⟩⟩ := Store.complete_ok h
  case inl => contradiction
  case inr =>
    refine ⟨⟨z, hz, hs, hf⟩, fun z' hz' => ?_⟩
    obtain ⟨_, _, ⟨_, rfl⟩ | ⟨hn, _⟩⟩ := Store.lookup_completed hz'
    case inl => simp
    case inr => exact absurd rfl hn

variable [Collation] [Digest] {a : Action}

theorem next_completed {call : Call} {env : Env} {x y : Store} {c : Finalize} {t : Target}
    {sum : String} (h : call.next x env = some (y, some (.finalize c)))
    (ht : c.stage = .completed t sum) :
    ∃ d, call = .finalize d ∧ d.upload = c.upload ∧ d.stage = .hashed t sum ∧
      (∃ z, x.sessions.lookup c.upload = some z ∧ z.state = .finalizing ∧
        z.finalFileId = some t.fileId) ∧
      ∀ z, y.sessions.lookup c.upload = some z → z.state ≠ .finalizing := by
  cases call <;> simp only [Call.next] at h
  case finalize d =>
    obtain ⟨⟨y', k⟩, hm, he⟩ := Option.map_eq_some_iff.mp h
    simp only [Prod.mk.injEq, Option.map_eq_some_iff, Call.finalize.injEq, exists_eq_right] at he
    obtain ⟨rfl, rfl⟩ := he
    have m := Finalize.next_moves hm
    generalize hk : some c = k at m
    cases m <;> cases hk <;> cases ht
    case complete hd hz =>
      obtain ⟨before, after⟩ := complete_closes hz
      exact ⟨d, rfl, rfl, hd, before, after⟩
    case index hv hd hz =>
      obtain ⟨before, after⟩ := complete_closes hz
      exact ⟨d, rfl, rfl, hd, before, after⟩
  case link =>
    obtain ⟨_, _, he⟩ := Option.map_eq_some_iff.mp h
    simp at he
  case purgeObjects => split at h <;> cases h
  all_goals simp at h

-- A call whose completion is committed was in that state before, or has just completed its upload.
theorem completed_step {i : Nat} {c : Finalize} {t : Target} {sum : String}
    (hs : s.step a = some s') (hc : s'.calls.lookup i = some (.finalize c))
    (ht : c.stage = .completed t sum) :
    s.calls.lookup i = some (.finalize c) ∨
    ∃ env d, a = .next i env ∧ s.calls.lookup i = some (.finalize d) ∧ d.upload = c.upload ∧
      d.stage = .hashed t sum ∧ (∃ x, s.store.sessions.lookup c.upload = some x ∧
        x.state = .finalizing ∧ x.finalFileId = some t.fileId) ∧
      ∀ x, s'.store.sessions.lookup c.upload = some x → x.state ≠ .finalizing := by
  cases a <;> simp only [System.step, Shared.System.step] at hs
  case start =>
    split at hs <;> try contradiction
    obtain ⟨⟨y, k⟩, hr, rfl⟩ := Option.map_eq_some_iff.mp hs
    rw [Shared.System.lookup_put] at hc
    split at hc
    case isFalse => exact .inl hc
    case isTrue  => cases hc; cases (start_stage hr).symm.trans ht
  case drop =>
    split at hs <;> cases hs
    rw [Shared.System.lookup_put] at hc
    split at hc
    case isFalse => exact .inl hc
    case isTrue  => contradiction
  case next j env =>
    split at hs <;> try contradiction
    case h_1 call hj =>
      obtain ⟨⟨y, k⟩, hr, rfl⟩ := Option.map_eq_some_iff.mp hs
      rw [Shared.System.lookup_put] at hc
      split at hc
      case isFalse => exact .inl hc
      case isTrue hi =>
        subst hi
        cases hc
        obtain ⟨d, rfl, hd, hn, hx, hx'⟩ := next_completed hr ht
        exact .inr ⟨env, d, rfl, hj, hd, hn, hx, hx'⟩

section

variable {files folders moved : List Id} {new : Event → Prop}

theorem Awaits.back (hs : s.step a = some s')
    (hc : Store.Carries files folders moved new s.store s'.store) (ha : Awaits s' u f) :
    Awaits s u f := by
  cases ha
  case finalizing x hx hx' hf =>
    rcases hc.session hx with ⟨y, hy, row⟩ | ⟨_, hn⟩
    case inr => exact absurd hx' hn
    case inl =>
      rcases row.state with ⟨he, hf'⟩ | ⟨_, hn⟩
      case inl => exact .finalizing hy (he ▸ hx') (hf' ▸ hf)
      case inr => exact absurd hx' hn
  case completed hi hu ht hf =>
    subst hu hf
    rcases completed_step hs hi ht with hi | ⟨_, _, _, _, _, _, ⟨x, hx, hx', hf⟩, _⟩
    case inl => exact .completed hi rfl ht rfl
    case inr => exact .finalizing hx hx' hf

-- A step that reserves nothing: what it names, and the versions that it moves, have to be right.
theorem Owned.carry (h : Owned s) (hs : s.step a = some s')
    (hc : Store.Carries files folders moved new s.store s'.store)
    (hr : ∀ {u o v f}, ¬new (.reserved u o v f))
    (hm : ∀ {u f v}, f ∈ moved → Awaits s' u f → s'.store.currentVersion f = some v →
      s.store.currentVersion f = some v)
    (hn : ∀ {e u v}, new e → e.names = some (u, v) → ∃ o f, .reserved u o v f ∈ s.store.history) :
    Owned s' where
  recorded := recorded_step h.recorded hs
  file hg := (hc.file hg).elim (fun hg => Nat.lt_of_lt_of_le (h.file hg) hc.next) id
  target hf := by
    obtain ⟨hv, hf⟩ := h.target (hc.reserved hr hf)
    exact ⟨Nat.lt_of_lt_of_le hv hc.next, Nat.lt_of_lt_of_le hf hc.next⟩
  version hf hy := by
    have hf := hc.reserved hr hf
    rcases hc.version hy with hy | hn
    case inl => exact h.version hf hy
    case inr => exact absurd (h.target hf).left (Nat.not_lt_of_le hn)
  sole hu hw := h.sole (hu.back hs hc) (hw.back hs hc)
  left hi ht hx := by
    rcases completed_step hs hi ht with hi | ⟨_, _, _, _, _, _, _, hx'⟩
    case inr => exact hx' _ hx
    case inl =>
      rcases hc.session hx with ⟨y, hy, row⟩ | ⟨_, hn⟩
      case inr => exact hn
      case inl =>
        rcases row.state with ⟨he, _⟩ | ⟨_, hn⟩
        case inl => exact he ▸ h.left hi ht hy
        case inr => exact hn
  own {u o v v' f} ha hf hv := by
    have hf := hc.reserved hr hf
    by_cases hg : f ∈ moved
    case pos => exact h.own (ha.back hs hc) hf (hm hg ha hv)
    case neg => exact h.own (ha.back hs hc) hf (hc.current (h.target hf).right hg hv)
  named {e u v} he hu := by
    have old : (∃ o f, .reserved u o v f ∈ s.store.history) →
        ∃ o f, .reserved u o v f ∈ s'.store.history := fun hr => by
      obtain ⟨o, f, hr⟩ := hr
      exact ⟨o, f, (extends_step h.recorded hs).history hr⟩
    rcases hc.event he with he | he | he
    case inl     => exact old (h.named he hu)
    case inr.inl => cases (Event.names_of_plain he).symm.trans hu
    case inr.inr => exact old (hn he hu)

end

-- A file gets another version only while no upload of it is to be answered.
structure TakesTurns (s : System) (a : Action) : Prop where
  reserve {i env c x f w} : a = .next i env → s.calls.lookup i = some (.finalize c) →
    c.stage = .begun → s.store.sessions.lookup c.upload = some x → x.state = .active →
    x.replaceFileId = some f → ¬Awaits s w f
  link {i env c f o w} : a = .next i env → s.calls.lookup i = some (.link c) → c.object.isSome →
    s.store.existingFile c = some (f, o) → ¬Awaits s w f

-- A rejection moves the version of its own upload, which is not awaited any more.
theorem Owned.rejects {i : Nat} {env : Env} {c : Finalize} {t : Target} {x : Session}
    (h : Owned s) (hs : s.step (.next i env) = some s') (hi : s.calls.lookup i = some (.finalize c))
    (ht : c.stage = .mismatched t) (hx : s.store.sessions.lookup c.upload = some x)
    (hx' : x.state = .finalizing) (hf : x.finalFileId = some t.fileId) (ha : Awaits s' u t.fileId)
    (back : Awaits s u t.fileId) : s'.store = s.store := by
  have own : c.upload = u := h.sole (.finalizing hx hx' hf) back
  obtain ⟨⟨y, k⟩, hn, rfl⟩ := Option.map_eq_some_iff.mp ((Shared.System.step_next hi).symm.trans hs)
  obtain ⟨⟨y', k'⟩, hm, he⟩ := Option.map_eq_some_iff.mp hn
  cases he
  rcases (Finalize.next_moves hm).mismatched ht with rfl | hr
  case inl => rfl
  case inr =>
    cases ha
    case finalizing hy hy' _ => exact absurd hy' (Store.reject_closes hr (own ▸ hy))
    case completed j d t' sum hj hd hd' _ =>
      rcases completed_step hs hj hd' with hj | ⟨env', d', he, hj', _, hd'', _⟩
      case inl => exact absurd hx' (h.left hj hd' (hd ▸ own ▸ hx))
      case inr =>
        cases he
        cases hi.symm.trans hj'
        cases ht.symm.trans hd''

theorem Owned.call {i : Nat} {env : Env} {c : Call} (h : Owned s) (ha : TakesTurns s (.next i env))
    (hs : s.step (.next i env) = some s') (hi : s.calls.lookup i = some c)
    (hc : Store.Carries (c.files s.store) c.folders (c.moved s.store) (c.Reports s.store) s.store
      s'.store) : Owned s' := by
  refine h.carry hs hc Call.Reports.not_reserved (fun {u f v} hm hw hv => ?_)
    (h.named_of_reports hi)
  have back := hw.back hs hc
  cases c <;> simp only [Call.moved, List.not_mem_nil] at hm
  case finalize c =>
    split at hm <;> try contradiction
    case h_1 t ht =>
      rw [List.mem_ite_nil_right, List.mem_singleton, Option.any_eq_true] at hm
      obtain ⟨⟨x, hx, hx'⟩, rfl⟩ := hm
      simp only [Bool.and_eq_true, decide_eq_true_eq] at hx'
      rw [← h.rejects hs hi ht hx hx'.left hx'.right hw back]
      exact hv
  case link c =>
    rw [List.mem_ite_nil_right, Option.mem_toList, Option.map_eq_some_iff] at hm
    obtain ⟨ho, ⟨g, o⟩, hg, rfl⟩ := hm
    exact absurd back (ha.link rfl hi ho hg)

section

variable {i : Nat} {env : Env} {c : Finalize} {x : Session}

theorem Awaits.back_reserve {files : Table Id File} {g : Id}
    (hs : s.step a = some s') (hx : s.store.sessions.lookup c.upload = some x)
    (he : s'.store = s.store.reservation env c.upload x files g) (ha : Awaits s' u f) :
    Awaits s u f ∨ u = c.upload ∧ f = g := by
  cases ha
  case finalizing y hy hy' hf =>
    rw [he] at hy
    rcases Store.lookup_sessions_reservation hx hy with ⟨rfl, rfl⟩ | ⟨_, hy⟩
    case inl => exact .inr ⟨rfl, (Option.some.inj hf).symm⟩
    case inr => exact .inl (.finalizing hy hy' hf)
  case completed hi hu ht hf =>
    subst hu hf
    rcases completed_step hs hi ht with hi | ⟨_, _, _, _, _, _, ⟨y, hy, hy', hf⟩, _⟩
    case inl => exact .inl (.completed hi rfl ht rfl)
    case inr => exact .inl (.finalizing hy hy' hf)

omit [Digest] in
-- Nothing else is awaited of the file that the upload goes to.
theorem Owned.idle {g : Id} (h : Owned s) (ha : TakesTurns s (.next i env))
    (hi : s.calls.lookup i = some (.finalize c)) (hr : c.Reserves s.store env x s'.store)
    (hg : x.replaceFileId = some g ∨ s.store.next ≤ g) (w : Id) : ¬Awaits s w g := by
  intro hw
  rcases hg with hg | hg
  case inl => exact ha.reserve rfl hi hr.stage hr.session hr.active hg hw
  case inr =>
    obtain ⟨o, v, hr⟩ := h.reserved_of_awaits hw
    exact absurd (h.target hr).right (Nat.not_lt_of_le hg)

theorem Owned.reserve (h : Owned s) (ha : TakesTurns s (.next i env))
    (hs : s.step (.next i env) = some s') (hi : s.calls.lookup i = some (.finalize c))
    (hr : c.Reserves s.store env x s'.store) : Owned s' := by
  obtain ⟨_, files, g, he, hg⟩ := Store.reserve_ok hr.reserve
  have fresh {o v f} : .reserved c.upload o v f ∉ s.store.history :=
    h.recorded.store.not_reserved_of_active hr.session hr.active
  have idle (w) : ¬Awaits s w g :=
    h.idle ha hi hr (hg.imp (·.left) (fun hg => hg.right.left ▸ Nat.le_add_right _ _)) w
  have back {u f} (ha : Awaits s' u f) := ha.back_reserve hs hr.session he
  have bound : g < s.store.next + 3 := by
    rcases hg with ⟨_, _, y, hy⟩ | ⟨_, rfl, _⟩
    case inl => exact Nat.lt_add_right 3 (h.file (by simp [hy]))
    case inr => exact Nat.lt_succ_self _
  refine ⟨recorded_step h.recorded hs, fun {f} hf => ?file, fun hf => ?target,
    fun hf hy => ?version, fun hu hw => ?sole,
    fun {j d t sum y} hj hd hy => ?left, fun {u o v v' f} hu hf hv => ?own, fun {e u v} hm hn => ?named⟩
  case file =>
    rw [he] at hf ⊢
    rcases Store.file_reservation hg hf with hf | rfl
    case inl => exact Nat.lt_add_right 3 (h.file hf)
    case inr => exact bound
  case target =>
    rw [he] at hf ⊢
    rcases Store.mem_reservation.mp hf with hf | ⟨_, _, rfl, rfl⟩
    case inl => exact (h.target hf).imp (Nat.lt_add_right 3) (Nat.lt_add_right 3)
    case inr => exact ⟨Nat.add_lt_add_left (by decide : 1 < 3) _, bound⟩
  case version =>
    rw [he] at hf hy
    simp only [Store.reservation, Table.lookup_set] at hy
    rcases Store.mem_reservation.mp hf with hf | ⟨_, rfl, rfl, _⟩
    case inl =>
      rw [if_neg (Nat.ne_of_lt (Nat.lt_add_right 1 (h.target hf).left))] at hy
      exact h.version hf hy
    case inr =>
      rw [if_pos rfl] at hy
      cases hy
      rfl
  case sole =>
    rcases back hu with hu' | ⟨rfl, rfl⟩ <;> rcases back hw with hw' | ⟨rfl, hf⟩
    case inl.inl => exact h.sole hu' hw'
    case inl.inr => exact absurd (hf ▸ hu') (idle _)
    case inr.inl => exact absurd hw' (idle _)
    case inr.inr => rfl
  case left =>
    rcases completed_step hs hj hd with hj | ⟨_, _, _, _, _, _, _, hy'⟩
    case inr => exact hy' _ hy
    case inl =>
      rw [he] at hy
      rcases Store.lookup_sessions_reservation hr.session hy with ⟨hu, _⟩ | ⟨_, hy⟩
      case inr => exact h.left hj hd hy
      case inl =>
        obtain ⟨o, v, hm⟩ := h.reserved_of_awaits (.completed hj hu hd rfl)
        exact absurd hm fresh
  case own =>
    rw [he] at hf hv
    rcases Store.mem_reservation.mp hf with hf | ⟨_, _, rfl, rfl⟩
    case inr => exact Store.currentVersion_reservation_self hv
    case inl =>
      rcases back hu with hu | ⟨rfl, _⟩
      case inr => exact absurd hf fresh
      case inl =>
        have hn : f ≠ g := fun e => idle u (e ▸ hu)
        exact h.own hu hf (Store.currentVersion_reservation_of_ne hg hn ▸ hv)
  case named =>
    rw [he] at hm ⊢
    simp only [Store.reservation, List.mem_append, List.mem_singleton] at hm
    rcases hm with hm | rfl
    case inr => cases hn
    case inl =>
      obtain ⟨o, f, hf⟩ := h.named hm hn
      exact ⟨o, f, Store.mem_reservation.mpr (.inl hf)⟩

end

omit [Collation] [Digest] in
theorem owned_init : Owned init := by
  refine ⟨recorded_init, ?_, ?_, ?_, ?_, ?_, ?_, ?_⟩
  case refine_4 => rintro _ _ _ (hx | hc) <;> contradiction
  case refine_6 => rintro _ _ _ _ _ (hx | hc) <;> contradiction
  all_goals intros; contradiction

theorem owned_step (h : Owned s) (ha : TakesTurns s a) (hs : s.step a = some s') : Owned s' := by
  rcases step_carries hs with hc | ⟨i, env, c, x, rfl, hi, hr⟩ | ⟨i, env, c, rfl, hi, hc⟩
  case inl     => exact h.carry hs hc id (by simp) (by simp)
  case inr.inl => exact h.reserve ha hs hi hr
  case inr.inr => exact h.call ha hs hi hc

-- The version `v` is the one that stores the object of the upload `u`.
structure Owns (s : Store) (u v : Id) : Prop where
  reserved : ∃ o f, .reserved u o v f ∈ s.history ∧
    ∀ y, s.versions.lookup v = some y → y.objectId = o

theorem finalize_names_own_version {s : System} (r : Steps step TakesTurns init s) :
    (∀ u v, .enqueued u v ∈ s.store.history → Owns s.store u v) ∧
    ∀ u r v, .returned u r ∈ s.store.history → r.versionId = some v → Owns s.store u v := by
  have owned := r.invariant owned_init owned_step
  have owns {e : Event} {u v} (he : e ∈ s.store.history) (hn : e.names = some (u, v)) :
      Owns s.store u v := by
    obtain ⟨o, f, hf⟩ := owned.named he hn
    exact ⟨o, f, hf, fun y hy => owned.version hf hy⟩
  exact ⟨fun u v he => owns he rfl, fun u r v hr hv => owns hr (by simp [Event.names, hv])⟩

end System

section

attribute [local instance] Collation.binary Digest.hi

def awaited (s : System) (f : Id) : Bool :=
  (s.store.sessions.any fun _ x => x.state = .finalizing && x.finalFileId = some f) ||
  s.calls.any fun _ call =>
    match call with
    | .finalize c =>
      match c.stage with
      | .completed t _ => t.fileId = f
      | _              => false
    | _           => false

def takesTurns (s : System) : Action → Bool
  | .next i _ =>
    match s.calls.lookup i with
    | some (.finalize c) => (s.store.sessions.lookup c.upload).all fun x =>
      x.replaceFileId.all fun f => x.state ≠ .active || !awaited s f
    | _                  => false
  | _         => true

theorem awaited_of_awaits {s : System} {u f : Id} (h : System.Awaits s u f) : awaited s f := by
  simp only [awaited, Bool.or_eq_true, Table.any_iff]
  cases h
  case finalizing x hx hs hf   => exact .inl ⟨u, x, hx, by simp [hs, hf]⟩
  case completed hi _ ht hf    => exact .inr ⟨_, _, hi, by simp [ht, hf]⟩

theorem takesTurns_of_check {s : System} {a : Action} (h : takesTurns s a) :
    System.TakesTurns s a where
  reserve he hi _ hx ha hf hw := by
    subst he
    simp [takesTurns, hi, hx, ha, hf, awaited_of_awaits hw] at h
  link he hi := by
    subst he
    simp [takesTurns, hi] at h

-- The uploads 7 and 10 replace the file 5, which the upload 1 has created.
def replacements : List Action :=
  let session := {
    ownerId := 7, filename := "a.txt", stagingKey := 0, expectedSize := 2, expiresAt := 10 }
  let replacement := { session with replaceFileId := some 5 }
  [.start 0 (.upload session [104, 105]), .start 0 (.finalize 7 1 none)] ++
  List.replicate 11 (.next 0 {}) ++
  [.start 0 (.upload replacement [104, 106]), .start 0 (.upload replacement [104, 107]),
   .start 1 (.finalize 7 7 none), .start 2 (.finalize 7 10 none)]

def answer (i : Nat) : List Action :=
  List.replicate 8 (.next i {}) ++ [.next i { indexable := true }, .next i {}]

theorem finalize_names_own_version_turns : ∃ s r v, Steps System.step System.TakesTurns System.init s ∧
    .returned 7 r ∈ s.store.history ∧ r.versionId = some v ∧ System.Owns s.store 7 v := by
  have run : (Execution.run (fun s a => if takesTurns s a then System.step s a else none)
      System.init (replacements ++ [.next 1 {}] ++ answer 1 ++ [.next 2 {}] ++ answer 2)).map
      (·.store.history.contains (.returned 7 ⟨5, some 13, some (Digest.sha256 [104, 106])⟩)) =
      some true := by
    decide +kernel
  obtain ⟨s, hs, returned⟩ := Option.map_eq_some_iff.mp run
  have steps : Steps System.step System.TakesTurns System.init s :=
    Execution.steps_of_run (fun _ _ => takesTurns_of_check) hs
  have returned := List.contains_iff_mem.mp returned
  exact ⟨s, _, 13, steps, returned, rfl,
    (System.finalize_names_own_version steps).right 7 _ 13 returned rfl⟩

-- The second replacement is reserved between the two transactions of the first one, whose media jobs
-- and response then name the version of the second one.
theorem finalize_names_other_version : ∃ s r, Reaches System.step System.init s ∧
    .enqueued 7 16 ∈ s.store.history ∧ .returned 7 r ∈ s.store.history ∧ r.versionId = some 16 ∧
    .reserved 10 15 16 5 ∈ s.store.history ∧ ¬System.Owns s.store 7 16 := by
  have run : (Execution.run System.step System.init
      (replacements ++ [.next 1 {}, .next 2 {}] ++ answer 1)).map
      (fun s => [.enqueued 7 16, .returned 7 ⟨5, some 16, some (Digest.sha256 [104, 106])⟩,
        .reserved 7 12 13 5, .reserved 10 15 16 5].all (s.store.history.contains ·)) = some true := by
    decide +kernel
  obtain ⟨s, hs, events⟩ := Option.map_eq_some_iff.mp run
  simp only [List.all_cons, List.all_nil, Bool.and_true, Bool.and_eq_true, List.contains_iff_mem]
    at events
  obtain ⟨enqueued, returned, own, other⟩ := events
  have reaches : Reaches System.step System.init s := Execution.reaches_of_run hs
  have recorded := reaches.invariant System.recorded_init fun h _ hs => System.recorded_step h hs
  refine ⟨s, _, reaches, enqueued, returned, rfl, other, fun owns => ?_⟩
  obtain ⟨o, f, reserved, _⟩ := owns
  cases (recorded.store.unique own reserved).right.left

end
end MyDrive.Transfers
