import MyDrive.Transfers.Theorems.Line

namespace MyDrive.Transfers
namespace Store

-- The upload `u` is between its two transactions.
structure Underway (s : Store) (u : Id) (x : Session) (o v f : Id) : Prop where
  reserved : .reserved u o v f ∈ s.history
  accepted : s.rejects u = false
  target   : x.finalFileId = some f
  storage  : x.storageObjectId = some o
  last     : (s.line f).getLast? = some v
  version  : ∃ y, s.versions.lookup v = some y ∧ y.objectId = o
  pending  : ∃ y, s.objects.lookup o = some y ∧ y.state = .pending
  sole {v' y} : s.versions.lookup v' = some y → y.objectId = o → v' = v
  created  : x.replaceFileId = none → s.line f = [v]
  replaced {f'} : x.replaceFileId = some f' → f' = f ∧ 2 ≤ (s.line f).length

structure Turns (s : Store) : Prop where
  object {o x} : s.objects.lookup o = some x → o < s.next
  underway {u x} : s.sessions.lookup u = some x → x.state = .finalizing →
    ∃ o v f, s.Underway u x o v f
  ready {v x} : s.versions.lookup v = some x → s.Ready x.objectId ∨ s.finalizing x.objectId
  rejected {u} : s.rejects u → ∃ o v f, .reserved u o v f ∈ s.history

-- A replacement comes after every other version of its file, and no other upload is under way there.
structure Alone (s : Store) (env : Env) (f : Id) : Prop where
  idle {w x} : s.sessions.lookup w = some x → x.state = .finalizing → x.finalFileId ≠ some f
  later {v x} : s.versions.lookup v = some x → x.fileId = f → x.createdAt < env.startedAt
  current : (s.currentVersion f).isSome

-- The version `v` of the upload `u` and its object `o` are gone.
structure Undone (s s' : Store) (u o v : Id) : Prop where
  next    : s'.next = s.next
  history : s'.history = s.history ++ [.rejected u]
  versions (v') : s'.versions.lookup v' = if v' = v then none else s.versions.lookup v'
  current (g) : s'.currentVersion g = ((s.line g).filter (· ≠ v)).getLast?
  objects (o') : s'.objects.lookup o' = if o' = o then none else s.objects.lookup o'
  sessions {w x} : x.state = .finalizing →
    (s'.sessions.lookup w = some x ↔ w ≠ u ∧ s.sessions.lookup w = some x)

structure Lasts (s s' : Store) : Prop where
  linear : s'.Linear
  turns  : s'.Turns
  ready {o} : s.Ready o → s'.Ready o

variable {s s' : Store} {u w o v f g : Id} {x : Session}

theorem Lasts.refl (h : s.Linear) (t : s.Turns) : s.Lasts s :=
  ⟨h, t, id⟩

theorem Lasts.trans {s'' : Store} (h₁ : s.Lasts s') (h₂ : s'.Lasts s'') : s.Lasts s'' :=
  ⟨h₂.linear, h₂.turns, fun h => h₂.ready (h₁.ready h)⟩

theorem Underway.keep (h : s.Underway w x o v f) (hh : ∀ {e}, e ∈ s.history → e ∈ s'.history)
    (hr : s'.rejects w = s.rejects w) (hl : s'.line f = s.line f)
    (hv : s'.versions.lookup v = s.versions.lookup v)
    (ho : s'.objects.lookup o = s.objects.lookup o)
    (hs : ∀ {v' y}, s'.versions.lookup v' = some y → y.objectId = o →
      s.versions.lookup v' = some y) : s'.Underway w x o v f where
  reserved      := hh h.reserved
  accepted      := hr.trans h.accepted
  target        := h.target
  storage       := h.storage
  last          := hl ▸ h.last
  version       := hv ▸ h.version
  pending       := ho ▸ h.pending
  sole hv' hy   := h.sole (hs hv' hy) hy
  created hx    := hl ▸ h.created hx
  replaced hx   := hl ▸ h.replaced hx

theorem Underway.not_ready (h : s.Underway w x o v f) : ¬s.Ready o := by
  rintro ⟨y, hy, hr⟩
  obtain ⟨y', hy', hp⟩ := h.pending
  cases hy.symm.trans hy'
  cases hr.symm.trans hp

theorem Turns.object_of_version (t : s.Turns) {y : FileVersion}
    (hy : s.versions.lookup v = some y) : y.objectId < s.next := by
  rcases t.ready hy with ⟨_, ho, _⟩ | hf
  case inl => exact t.object ho
  case inr =>
    obtain ⟨w, x, hx, ho, hs⟩ := finalizing_iff.mp hf
    obtain ⟨o', v', f', hw⟩ := t.underway hx hs
    cases hw.storage.symm.trans ho
    obtain ⟨_, ho, _⟩ := hw.pending
    exact t.object ho

-- The versions, the objects and the uploads that are under way are as before.
theorem Turns.frame (t : s.Turns) (es : List Event) (hn : s.next ≤ s'.next)
    (hh : s'.history = s.history ++ es) (he : ∀ e ∈ es, e.version = none)
    (hr : ∀ w, .rejected w ∉ es) (hv : s'.versions = s.versions) (ho : s'.objects = s.objects)
    (hs : ∀ {w x}, x.state = .finalizing →
      (s'.sessions.lookup w = some x ↔ s.sessions.lookup w = some x)) : s'.Turns := by
  have old {e} (he : e ∈ s.history) : e ∈ s'.history := hh ▸ List.mem_append_left _ he
  refine ⟨fun hx => ?object, fun hx hf => ?underway, fun hx => ?ready, fun hu => ?rejected⟩
  case object => exact Nat.lt_of_lt_of_le (t.object (ho ▸ hx)) hn
  case underway =>
    obtain ⟨o, v, f, hu⟩ := t.underway ((hs hf).mp hx) hf
    refine ⟨o, v, f, hu.keep old (rejects_append hh hr) (line_append es hh he hr) ?_ ?_ ?_⟩
    case refine_1 => rw [hv]
    case refine_2 => rw [ho]
    case refine_3 => exact fun hx _ => hv ▸ hx
  case ready =>
    refine (t.ready (hv ▸ hx)).imp (fun hr => ?_) fun hf => ?_
    case refine_1 => rwa [Ready, ho]
    case refine_2 =>
      obtain ⟨w, y, hy, ho, hf⟩ := finalizing_iff.mp hf
      exact finalizing_iff.mpr ⟨w, y, (hs hf).mpr hy, ho, hf⟩
  case rejected =>
    rw [rejects_append hh hr] at hu
    obtain ⟨o, v, f, hr⟩ := t.rejected hu
    exact ⟨o, v, f, old hr⟩

theorem Linear.lasts (h : s.Linear) (t : s.Turns) (es : List Event) (hn : s.next ≤ s'.next)
    (hh : s'.history = s.history ++ es) (he : ∀ e ∈ es, e.version = none)
    (hr : ∀ w, .rejected w ∉ es) (hv : s'.versions = s.versions) (ho : s'.objects = s.objects)
    (hs : ∀ {w x}, x.state = .finalizing →
      (s'.sessions.lookup w = some x ↔ s.sessions.lookup w = some x))
    (hc : ∀ f, s'.currentVersion f = s.currentVersion f) : s.Lasts s' where
  linear   := h.frame es hn hh he hr hv hc
  turns    := t.frame es hn hh he hr hv ho hs
  ready hr := by rwa [Ready, ho]

theorem bind_currentVersion {files : Table Id File} :
    ((files.filterMap fun id x => some (if id = f then { x with currentVersion := some v } else x)).lookup
      g).bind (·.currentVersion) =
    if g = f then (files.lookup f).map fun _ => v else (files.lookup g).bind (·.currentVersion) := by
  rw [Table.lookup_filterMap]
  split
  case isTrue hg  => cases hx : files.lookup f <;> simp [hg, hx]
  case isFalse    => cases files.lookup g <;> simp

theorem Turns.idle_fresh (t : s.Turns) (h : s.Linear) (hf : s.next ≤ f) :
    ∀ {w x}, s.sessions.lookup w = some x → x.state = .finalizing → x.finalFileId ≠ some f := by
  intro w x hx hs he
  obtain ⟨o, v, f', hu⟩ := t.underway hx hs
  cases hu.target.symm.trans he
  exact absurd (h.file hu.reserved rfl) (Nat.not_lt_of_le hf)

theorem Linear.later_fresh (h : s.Linear) (hf : s.next ≤ f) :
    ∀ {v x}, s.versions.lookup v = some x → x.fileId ≠ f := by
  rintro v x hx rfl
  have := h.row hx
  rw [h.line_fresh hf] at this
  cases this

theorem Turns.reserve {env : Env} {files : Table Id File} (t : s.Turns) (h : s.Linear)
    (hr : s.Recorded) (hx : s.sessions.lookup u = some x) (ha : x.state = .active)
    (hi : ∀ {w x}, s.sessions.lookup w = some x → x.state = .finalizing → x.finalFileId ≠ some f)
    (hc : x.replaceFileId = none → s.line f = [])
    (hp : ∀ f', x.replaceFileId = some f' → f' = f ∧ s.line f ≠ []) :
    (s.reservation env u x files f).Turns := by
  have accepted : s.rejects u = false := by
    rw [Bool.eq_false_iff]
    intro hu
    obtain ⟨_, _, _, hu⟩ := t.rejected hu
    exact hr.not_reserved_of_active hx ha hu
  have hh : (s.reservation env u x files f).history =
    s.history ++ [.reserved u s.next (s.next + 1) f] := rfl
  have old {e} (he : e ∈ s.history) : e ∈ (s.reservation env u x files f).history :=
    List.mem_append_left _ he
  have rejects w : (s.reservation env u x files f).rejects w = s.rejects w :=
    rejects_append hh (by simp)
  have lines g : (s.reservation env u x files f).line g =
      s.line g ++ if g = f then [s.next + 1] else [] :=
    line_place hh (by simp [Event.places, accepted])
  have kept {o y} (ho : s.objects.lookup o = some y) :
      (s.reservation env u x files f).objects.lookup o = some y := by
    simpa [reservation, Nat.ne_of_lt (t.object ho)] using ho
  have rows {v' y} (hy : (s.reservation env u x files f).versions.lookup v' = some y) :
      v' = s.next + 1 ∧ y.objectId = s.next ∨ s.versions.lookup v' = some y := by
    simp only [reservation, Table.lookup_set] at hy
    split at hy
    case isTrue hv => cases hy; exact .inl ⟨hv, rfl⟩
    case isFalse   => exact .inr hy
  refine ⟨fun {o y} ho => ?object, fun {w y} hy hs => ?underway, fun {v y} hy => ?ready, fun hu => ?rejected⟩
  case object =>
    simp only [reservation, Table.lookup_set] at ho
    split at ho
    case isTrue he => exact he ▸ Nat.lt_add_of_pos_right (by decide)
    case isFalse   => exact Nat.lt_add_right 3 (t.object ho)
  case underway =>
    rcases lookup_sessions_reservation hx hy with ⟨rfl, rfl⟩ | ⟨hw, hy'⟩
    case inl =>
      refine ⟨s.next, s.next + 1, f, mem_reservation.mpr (.inr ⟨rfl, rfl, rfl, rfl⟩),
        (rejects _).trans accepted, rfl, rfl, ?_, ?_, ?_, fun hy ho => ?_, fun hn => ?_, fun hn => ?_⟩
      case refine_1 => simp [lines]
      case refine_2 => simp [reservation]
      case refine_3 => simp [reservation]
      case refine_4 =>
        rcases rows hy with ⟨hv, _⟩ | hy
        case inl => exact hv
        case inr => exact absurd (t.object_of_version hy) (Nat.not_lt_of_le (Nat.le_of_eq ho.symm))
      case refine_5 => simp [lines, hc hn]
      case refine_6 =>
        obtain ⟨he, hl⟩ := hp _ hn
        have := List.length_pos_iff.mpr hl
        exact ⟨he, by simp [lines]; omega⟩
    case inr =>
      obtain ⟨o, v, g, hu⟩ := t.underway hy' hs
      obtain ⟨z, hz, _⟩ := hu.pending
      have hg : g ≠ f := by
        rintro rfl
        exact hi hy' hs hu.target
      refine ⟨o, v, g, hu.keep old (rejects w) (by simp [lines, hg]) ?_ (by rw [hz, kept hz])
        fun hy ho => ?_⟩
      case refine_1 =>
        obtain ⟨y, hy, _⟩ := hu.version
        have : v ≠ s.next + 1 := Nat.ne_of_lt (Nat.lt_add_right 1 (h.lt_next hy))
        simp [reservation, this]
      case refine_2 =>
        rcases rows hy with ⟨_, ho'⟩ | hy
        case inl => exact absurd (t.object hz) (Nat.not_lt_of_le (Nat.le_of_eq (ho'.symm.trans ho)))
        case inr => exact hy
  case ready =>
    rcases rows hy with ⟨_, ho⟩ | hy
    case inl =>
      have hy : (s.reservation env u x files f).sessions.lookup u = some { x with
          state := .finalizing, storageObjectId := some s.next, finalFileId := some f } := by
        simp [reservation, hx]
      exact .inr (finalizing_iff.mpr ⟨u, _, hy, by rw [ho], rfl⟩)
    case inr =>
      refine (t.ready hy).imp (fun hr => ?_) fun hf => ?_
      case refine_1 =>
        obtain ⟨z, hz, hr⟩ := hr
        exact ⟨z, kept hz, hr⟩
      case refine_2 =>
        obtain ⟨w, z, hz, ho, hs⟩ := finalizing_iff.mp hf
        have hw : w ≠ u := by
          rintro rfl
          cases hx.symm.trans hz
          cases ha.symm.trans hs
        exact finalizing_iff.mpr ⟨w, z, by simp [reservation, hz, hw], ho, hs⟩
  case rejected =>
    rw [rejects] at hu
    obtain ⟨o, v, f, hr⟩ := t.rejected hu
    exact ⟨o, v, f, old hr⟩

theorem Linear.reserve [Collation] {env : Env} {owner : Id} (h : s.Linear) (t : s.Turns)
    (hr : s.Recorded) (hx : s.sessions.lookup u = some x) (hs : x.state = .active)
    (ha : ∀ f, x.replaceFileId = some f → s.Alone env f)
    (hs' : s.reserve env owner u x = .ok s') : s.Lasts s' := by
  obtain ⟨_, files, f, rfl, hf⟩ := reserve_ok hs'
  have accepted : s.rejects u = false := by
    rw [Bool.eq_false_iff]
    intro hu
    obtain ⟨_, _, _, hu⟩ := t.rejected hu
    exact hr.not_reserved_of_active hx hs hu
  have current g : (s.reservation env u x files f).currentVersion g =
      if g = f then (files.lookup f).map fun _ => s.next + 1
      else (files.lookup g).bind (·.currentVersion) :=
    bind_currentVersion
  have ready {o} (ho : s.Ready o) : (s.reservation env u x files f).Ready o := by
    obtain ⟨y, hy, hr⟩ := ho
    exact ⟨y, by simpa [reservation, Nat.ne_of_lt (t.object hy)] using hy, hr⟩
  have places : (Event.reserved u s.next (s.next + 1) f).places f s.rejects = some (s.next + 1) := by
    simp [Event.places, accepted]
  rcases hf with ⟨hf, rfl, x', hx', _⟩ | ⟨hf, rfl, rfl⟩
  case inl =>
    have alone := ha f hf
    have line : s.line f ≠ [] := by
      intro hl
      simpa [h.current, hl] using alone.current
    refine ⟨?linear, ?turns, ready⟩
    case linear =>
      refine h.place (Nat.le_succ _) (Nat.add_lt_add_left (by decide : 1 < 3) _) ?_ rfl places rfl rfl
        (fun v y => alone.later) fun g => ?_
      case refine_1 =>
        obtain ⟨v, hv⟩ := List.exists_mem_of_ne_nil _ line
        obtain ⟨e, he, hp⟩ := mem_placed.mp hv
        exact Nat.lt_add_right 3 (h.file he (Event.places_eq_some hp).right)
      case refine_2 => rw [current, hx']; rfl
    case turns =>
      refine t.reserve h hr hx hs alone.idle (fun hn => ?_) fun f' hf' => ?_
      case refine_1 => cases hn.symm.trans hf
      case refine_2 => cases hf.symm.trans hf'; exact ⟨rfl, line⟩
  case inr =>
    have fresh : s.next ≤ s.next + 2 := Nat.le_add_right _ _
    refine ⟨?linear, ?turns, ready⟩
    case linear =>
      refine h.place (Nat.le_succ _) (Nat.add_lt_add_left (by decide : 1 < 3) _)
        (Nat.add_lt_add_left (by decide : 2 < 3) _) rfl places rfl rfl
        (fun v y hy hf => absurd hf (h.later_fresh fresh hy)) fun g => ?_
      rw [current]
      split
      case isTrue     => simp
      case isFalse hg => simp [hg, currentVersion]
    case turns =>
      refine t.reserve h hr hx hs (t.idle_fresh h fresh) (fun _ => h.line_fresh fresh) fun f' hf' => ?_
      cases hf.symm.trans hf'

theorem Linear.complete {owner : Id} {t : Target} {checksum : String} {r : Option Id}
    (h : s.Linear) (ht : s.Turns) (hr : s.Recorded)
    (hc : s.complete owner u t checksum = .ok (s', r)) : s.Lasts s' := by
  obtain ⟨x, hx, ⟨_, rfl, _⟩ | ⟨hs, _, ho, _, rfl⟩⟩ := complete_ok hc
  case inl => exact .refl h ht
  case inr =>
    obtain ⟨o, v, f, hu⟩ := ht.underway hx hs
    cases hu.storage.symm.trans ho
    obtain ⟨y, hy, hp⟩ := hu.pending
    have sessions {w z} (hf : z.state = .finalizing) :
        ((s.readied t.objectId checksum).updateSession u
          fun x => { x with state := .completed }).sessions.lookup w = some z ↔
        w ≠ u ∧ s.sessions.lookup w = some z := by
      constructor
      case mp =>
        intro hz
        obtain ⟨z', hz', ⟨_, rfl⟩ | ⟨hw, rfl⟩⟩ := lookup_completed hz
        case inl => cases hf
        case inr => exact ⟨hw, hz'⟩
      case mpr =>
        rintro ⟨hw, hz⟩
        simp [hw, hz]
    rcases readied_cases s t.objectId checksum with ⟨hn, _⟩ | ⟨y', _, _, he⟩
    case inl => exact absurd hp (hn y hy).left
    case inr =>
      rw [he] at sessions ⊢
      have ready {o'} (ho : s.Ready o' ∨ o' = t.objectId) : Ready
          (({ s with objects := s.objects.set t.objectId { y' with
            checksum := some checksum, state := .ready } }.log (.readied t.objectId)).updateSession u
            fun x => { x with state := .completed }) o' := by
        by_cases ho' : o' = t.objectId
        case pos =>
          subst ho'
          exact ⟨_, by rw [updateSession, Store.log, Table.lookup_set, if_pos rfl], rfl⟩
        case neg =>
          obtain ⟨z, hz, hr⟩ := ho.resolve_right ho'
          exact ⟨z, by simpa [ho', updateSession, Store.log] using hz, hr⟩
      refine ⟨?linear, ⟨fun {o z} hz => ?object, fun hz hf => ?underway, fun hz => ?ready,
        fun hr => ?rejected⟩, fun ho => ready (.inl ho)⟩
      case linear =>
        exact h.frame [.readied t.objectId] (Nat.le_refl _) rfl (by simp [Event.version]) (by simp)
          rfl fun _ => rfl
      case object =>
        simp only [updateSession, Store.log, Table.lookup_set] at hz
        split at hz
        case isTrue ho => subst ho; exact ht.object hy
        case isFalse   => exact ht.object hz
      case underway =>
        obtain ⟨hw, hz⟩ := (sessions hf).mp hz
        obtain ⟨o', v', f', hu'⟩ := ht.underway hz hf
        have ho' : o' ≠ t.objectId := by
          rintro rfl
          exact hw (hr.object hu'.reserved hu.reserved)
        refine ⟨o', v', f', hu'.keep (List.mem_append_left _ ·) ?_ ?_ rfl ?_ fun hv _ => hv⟩
        case refine_1 => simp [rejects, updateSession, Store.log]
        case refine_2 =>
          exact line_append [.readied t.objectId] rfl (by simp [Event.version]) (by simp)
        case refine_3 => simp [updateSession, Store.log, ho']
      case ready =>
        rcases ht.ready hz with hr | hf
        case inl => exact .inl (ready (.inl hr))
        case inr =>
          obtain ⟨w, z', hz', ho', hf⟩ := finalizing_iff.mp hf
          by_cases hw : w = u
          case pos =>
            subst hw
            cases hx.symm.trans hz'
            exact .inl (ready (.inr (Option.some.inj (ho'.symm.trans ho))))
          case neg => exact .inr (finalizing_iff.mpr ⟨w, z', (sessions hf).mpr ⟨hw, hz'⟩, ho', hf⟩)
      case rejected =>
        obtain ⟨o, v, f, hr⟩ := ht.rejected (by simpa [rejects, updateSession, Store.log] using hr)
        exact ⟨o, v, f, List.mem_append_left _ hr⟩

-- A new file gets a version of an object that is ready.
theorem Linear.attach {files : Table Id File} {y : FileVersion} (h : s.Linear) (t : s.Turns)
    (hf : s.next < f) (hf' : f < s.next + 3) (hy : y.fileId = f) (ho : s.Ready y.objectId)
    (hx : (files.lookup f).isSome) (hg : ∀ g, g ≠ f → files.lookup g = s.files.lookup g) :
    s.Lasts (s.attachment files f y) := by
  have hh : (s.attachment files f y).history = s.history ++ [.attached s.next f] := rfl
  have fresh : s.next ≤ f := Nat.le_of_lt hf
  have rows {v' z} (hz : (s.attachment files f y).versions.lookup v' = some z) :
      z = y ∨ s.versions.lookup v' = some z := by
    simp only [attachment, Table.lookup_set] at hz
    split at hz
    case isTrue  => exact .inl (Option.some.inj hz).symm
    case isFalse => exact .inr hz
  refine ⟨?linear, ⟨fun hz => ?object, fun {w z} hz hs => ?underway, fun hz => ?ready, fun hr => ?rejected⟩, id⟩
  case linear =>
    refine h.place (Nat.le_refl _) (Nat.lt_add_of_pos_right (by decide)) hf' hh
      (by simp [Event.places]) rfl hy (fun v x hv hx => absurd hx (h.later_fresh fresh hv)) fun g => ?_
    refine bind_currentVersion.trans ?_
    split
    case isTrue =>
      obtain ⟨x, hx⟩ := Option.isSome_iff_exists.mp hx
      rw [hx]
      rfl
    case isFalse hn => rw [hg g hn]; rfl
  case object => exact Nat.lt_add_right 3 (t.object hz)
  case underway =>
    obtain ⟨o, v, g, hu⟩ := t.underway hz hs
    have hn : g ≠ f := by
      rintro rfl
      exact t.idle_fresh h fresh hz hs hu.target
    refine ⟨o, v, g, hu.keep (List.mem_append_left _ ·) (rejects_append hh (by simp)) ?_ ?_ rfl
      fun hv ho' => ?_⟩
    case refine_1 =>
      rw [line_place hh (f := f) (v := s.next) (by simp [Event.places]), if_neg hn, List.append_nil]
    case refine_2 =>
      obtain ⟨x, hx, _⟩ := hu.version
      simp [attachment, Nat.ne_of_lt (h.lt_next hx)]
    case refine_3 =>
      rcases rows hv with rfl | hv
      case inl => exact absurd (ho' ▸ ho) hu.not_ready
      case inr => exact hv
  case ready =>
    rcases rows hz with rfl | hz
    case inl => exact .inl ho
    case inr => exact t.ready hz
  case rejected =>
    rw [rejects_append hh (by simp)] at hr
    obtain ⟨o, v, f, hr⟩ := t.rejected hr
    exact ⟨o, v, f, List.mem_append_left _ hr⟩

theorem Linear.insertCopy [Collation] {owner : Id} {env : Env} {c : CopiedFile} (h : s.Linear)
    (t : s.Turns) (ho : ∀ o n, c.version = some (o, n) → s.Ready o)
    (hc : Store.insertCopy owner env s c = .ok s') : s.Lasts s' := by
  have other {x : File} {g : Id} (hg : g ≠ s.next + 1) :
      (s.files.set (s.next + 1) x).lookup g = s.files.lookup g := by
    simp [hg]
  obtain ⟨_, rfl⟩ | ⟨objectId, size, hv, _, rfl⟩ := insertCopy_ok hc
  case inl =>
    refine h.lasts t [] (Nat.le_add_right _ _) (by simp) (by simp) (by simp) rfl rfl
      (fun _ => Iff.rfl) fun f => ?_
    simp only [currentVersion, Table.lookup_set]
    split
    case isTrue hf =>
      have := h.current f
      rw [h.line_fresh (hf ▸ Nat.le_succ _)] at this
      exact this.symm
    case isFalse => rfl
  case inr =>
    exact h.attach t (Nat.lt_succ_self _) (Nat.add_lt_add_left (by decide : 1 < 3) _) rfl
      (ho _ _ hv) (by simp) fun g => other

theorem Linear.insertCopies [Collation] {env : Env} {c : Copy} (h : s.Linear) (t : s.Turns)
    (ho : ∀ f ∈ c.copied, ∀ o n, f.version = some (o, n) → s.Ready o)
    (hc : s.insertCopies env c = .ok s') : s.Lasts s' := by
  refine Except.foldlM_invariant (P := fun t => s.Lasts t) hc (.refl h t) fun t f t' hf ht hc => ?_
  exact ht.trans (ht.linear.insertCopy ht.turns (fun o n hv => ht.ready (ho f hf o n hv)) hc)

-- Uploads that are under way at the same time share nothing.
theorem Underway.disjoint {o' v' f' : Id} {y : Session} (hu : s.Underway u x o v f)
    (hw : s.Underway w y o' v' f') (h : s.Linear) (hr : s.Recorded) (hn : w ≠ u) :
    o' ≠ o ∧ v' ≠ v ∧ f' ≠ f := by
  have version : v' ≠ v := by
    rintro rfl
    have := h.unique hw.reserved hu.reserved rfl rfl
    simp only [Event.reserved.injEq] at this
    exact hn this.left
  refine ⟨?object, version, ?file⟩
  case object =>
    rintro rfl
    exact hn (hr.object hw.reserved hu.reserved)
  case file =>
    rintro rfl
    exact version (Option.some.inj (hw.last.symm.trans hu.last))

-- The version of an upload is on no other file.
theorem Underway.filter_line (hu : s.Underway u x o v f) (h : s.Linear) (hg : g ≠ f) :
    (s.line g).filter (· ≠ v) = s.line g := by
  refine List.filter_eq_self.mpr fun q hq => ?_
  simp only [decide_eq_true_eq]
  rintro rfl
  obtain ⟨y, hy, rfl⟩ := h.mem hq
  obtain ⟨y', hy', rfl⟩ := h.mem (List.mem_of_getLast? hu.last)
  cases hy.symm.trans hy'
  exact hg rfl

theorem Underway.line_eq (hu : s.Underway u x o v f) (h : s.Linear) :
    ∃ l, s.line f = l ++ [v] ∧ (s.line f).filter (· ≠ v) = l := by
  obtain ⟨l, hl⟩ := List.getLast?_eq_some_iff.mp hu.last
  refine ⟨l, hl, ?_⟩
  have hv : v ∉ l := by
    intro hm
    have ordered := h.ordered f
    rw [hl] at ordered
    have before := (List.pairwise_append.mp ordered).right.right v hm v (List.mem_singleton_self v)
    obtain ⟨y, hy, _⟩ := hu.version
    exact Nat.lt_irrefl _ (before y y hy hy)
  have kept : l.filter (· ≠ v) = l :=
    List.filter_eq_self.mpr fun q hq => by simpa using fun e : q = v => hv (e ▸ hq)
  rw [hl, List.filter_append, kept]
  simp

theorem Linear.undo (h : s.Linear) (t : s.Turns) (hr : s.Recorded) (hu : s.Underway u x o v f)
    (hd : s.Undone s' u o v) : s.Lasts s' := by
  have old {e} (he : e ∈ s.history) : e ∈ s'.history := hd.history ▸ List.mem_append_left _ he
  have ready {o'} (ho : s.Ready o') : s'.Ready o' := by
    obtain ⟨y, hy, hs⟩ := ho
    have : o' ≠ o := by
      rintro rfl
      exact hu.not_ready ⟨y, hy, hs⟩
    exact ⟨y, by simpa [hd.objects, this] using hy, hs⟩
  have rows {v' y} (hy : s'.versions.lookup v' = some y) :
      v' ≠ v ∧ s.versions.lookup v' = some y := by
    rw [hd.versions] at hy
    split at hy
    case isTrue     => cases hy
    case isFalse hv => exact ⟨hv, hy⟩
  refine ⟨h.unplace hr hu.reserved hd.next hd.history hd.versions hd.current,
    ⟨fun {o' y} hy => ?object, fun {w y} hy hf => ?underway, fun {v' y} hy => ?ready, fun {w} hw => ?rejected⟩,
    ready⟩
  case object =>
    rw [hd.objects] at hy
    split at hy
    case isTrue  => cases hy
    case isFalse => exact hd.next ▸ t.object hy
  case underway =>
    obtain ⟨hw, hy⟩ := (hd.sessions hf).mp hy
    obtain ⟨o', v', f', hu'⟩ := t.underway hy hf
    obtain ⟨ho, hv, hf⟩ := hu.disjoint hu' h hr hw
    refine ⟨o', v', f', hu'.keep old ?_ ?_ (by simp [hd.versions, hv]) (by simp [hd.objects, ho])
      fun hy _ => (rows hy).right⟩
    case refine_1 => simp [rejects, hd.history, hw]
    case refine_2 => rw [h.line_reject hr hu.reserved hd.history, hu.filter_line h hf]
  case ready =>
    obtain ⟨hv, hy⟩ := rows hy
    refine (t.ready hy).imp ready fun hf => ?_
    obtain ⟨w, z, hz, ho, hf⟩ := finalizing_iff.mp hf
    have hw : w ≠ u := by
      rintro rfl
      obtain ⟨o', v', f', hu'⟩ := t.underway hz hf
      obtain ⟨rfl, _, _⟩ := hr.unique hu'.reserved hu.reserved
      exact hv (hu.sole hy (Option.some.inj (ho.symm.trans hu'.storage)))
    exact finalizing_iff.mpr ⟨w, z, (hd.sessions hf).mpr ⟨hw, hz⟩, ho, hf⟩
  case rejected =>
    simp only [rejects, hd.history, List.mem_append, List.mem_singleton, Event.rejected.injEq,
      decide_eq_true_eq] at hw
    rcases hw with hw | rfl
    case inl =>
      obtain ⟨o, v, f, hr⟩ := t.rejected (by simpa [rejects] using hw)
      exact ⟨o, v, f, old hr⟩
    case inr => exact ⟨_, _, _, old hu.reserved⟩

theorem currentVersion_setCurrent {v : Option Id} (hf : (s.files.lookup f).isSome) :
    (s.setCurrent f v).currentVersion g = if g = f then v else s.currentVersion g := by
  obtain ⟨y, hy⟩ := Option.isSome_iff_exists.mp hf
  simp only [currentVersion, lookup_setCurrent]
  split
  case isTrue hg  => simp [hg, hy]
  case isFalse hg => cases s.files.lookup g <;> simp

theorem currentVersion_deleteVersions {p : Id → FileVersion → Bool} :
    (s.deleteVersions p).currentVersion g =
      (s.currentVersion g).filter fun id => !(s.versions.lookup id).any (p id) := by
  simp only [currentVersion, deleteVersions, Table.lookup_filterMap]
  cases s.files.lookup g <;> simp

-- The current version of a file is kept unless it is among those that are deleted.
theorem filter_currentVersion {p : Id → FileVersion → Bool} {c : Option Id}
    (h : ∀ v x, c = some v → s.versions.lookup v = some x → p v x = false) :
    c.filter (fun id => !(s.versions.lookup id).any (p id)) = c := by
  cases c
  case none => rfl
  case some v =>
    rw [Option.filter_some, if_pos]
    cases hx : s.versions.lookup v
    case none   => rfl
    case some x => simp [h v x rfl hx]

theorem lookup_deleteVersions {p : Id → FileVersion → Bool} :
    (s.deleteVersions p).versions.lookup v =
      (s.versions.lookup v).bind fun x => if p v x then none else some x := by
  simp [deleteVersions]

theorem lookup_failUpload {y : Session} (hs : y.state = .finalizing) :
    (s.failUpload u).sessions.lookup w = some y ↔ w ≠ u ∧ s.sessions.lookup w = some y := by
  rw [failUpload, lookup_updateSession]
  constructor
  case mp =>
    intro hy
    obtain ⟨z, hz, rfl⟩ := Option.map_eq_some_iff.mp hy
    split at hs
    case isTrue     => cases hs
    case isFalse hw => simp [hw, hz]
  case mpr =>
    rintro ⟨hw, hy⟩
    simp [hw, hy]

theorem lookup_sessions_deleteObject {y z : Store} (hz : y.deleteObject o = .ok z) :
    z.sessions.lookup w = (y.sessions.lookup w).map fun x =>
      { x with storageObjectId := x.storageObjectId.filter (· ≠ o) } := by
  obtain ⟨_, _, rfl⟩ := deleteObject_ok hz
  simp [Option.map_eq_bind, Function.comp_def]

-- The last part of a rejection, once the upload is failed and its version is gone.
theorem Linear.undone {y z : Store} (h : s.Linear) (t : s.Turns) (hr : s.Recorded)
    (hu : s.Underway u x o v f) (hz : y.deleteObject o = .ok z) (hn : y.next = s.next)
    (hh : y.history = s.history)
    (hv : ∀ v', y.versions.lookup v' = if v' = v then none else s.versions.lookup v')
    (hc : ∀ g, y.currentVersion g = ((s.line g).filter (· ≠ v)).getLast?)
    (ho : y.objects = s.objects)
    (hs : ∀ {w x}, x.state = .finalizing →
      (y.sessions.lookup w = some x ↔ w ≠ u ∧ s.sessions.lookup w = some x)) :
    s.Undone (z.log (.rejected u)) u o v := by
  have row {w x} (hf : x.state = .finalizing) (hw : w ≠ u) (hx : s.sessions.lookup w = some x) :
      { x with storageObjectId := x.storageObjectId.filter (· ≠ o) } = x := by
    obtain ⟨o', v', f', hu'⟩ := t.underway hx hf
    have := (hu.disjoint hu' h hr hw).left
    rw [hu'.storage, Option.filter_some, if_pos (by simpa using this), ← hu'.storage]
  have sessions {w x} (hf : x.state = .finalizing) :
      z.sessions.lookup w = some x ↔ w ≠ u ∧ s.sessions.lookup w = some x := by
    rw [lookup_sessions_deleteObject hz, ← hs hf]
    constructor
    case mp =>
      intro hx
      obtain ⟨x', hx', rfl⟩ := Option.map_eq_some_iff.mp hx
      have hf' : x'.state = .finalizing := hf
      obtain ⟨hw, hx⟩ := (hs hf').mp hx'
      rwa [row hf' hw hx]
    case mpr =>
      intro hx
      obtain ⟨hw, hx'⟩ := (hs hf).mp hx
      rw [hx, Option.map_some, row hf hw hx']
  obtain ⟨_, _, rfl⟩ := deleteObject_ok hz
  refine ⟨hn, by simp [Store.log, hh], hv, hc, fun o' => ?_, sessions⟩
  simp [Store.log, ho]

theorem Underway.file (hu : s.Underway u x o v f) (h : s.Linear) : (s.files.lookup f).isSome := by
  have := h.current f
  rw [hu.last, currentVersion] at this
  cases hf : s.files.lookup f <;> simp_all

theorem Underway.version_row (hu : s.Underway u x o v f) (h : s.Linear) :
    ∃ y, s.versions.lookup v = some y ∧ y.fileId = f ∧ y.objectId = o := by
  obtain ⟨y, hy, ho⟩ := hu.version
  obtain ⟨y', hy', hf⟩ := h.mem (List.mem_of_getLast? hu.last)
  cases hy.symm.trans hy'
  exact ⟨y, hy, hf, ho⟩

theorem Linear.current_file {y : FileVersion} (h : s.Linear) (hc : s.currentVersion g = some v)
    (hy : s.versions.lookup v = some y) : y.fileId = g := by
  rw [h.current] at hc
  obtain ⟨y', hy', hf⟩ := h.mem (List.mem_of_getLast? hc)
  cases hy.symm.trans hy'
  exact hf

theorem Underway.restored {p : Option Id} {z : Store} (hu : s.Underway u x o v f) (h : s.Linear)
    (t : s.Turns) (hr : s.Recorded) (hp : p = ((s.line f).filter (· ≠ v)).getLast?)
    (hz : ((s.failUpload u).restorePrevious f (some v) p).deleteObject o = .ok z) :
    s.Undone (z.log (.rejected u)) u o v := by
  refine h.undone t hr hu hz rfl rfl (fun v' => ?versions) (fun g => ?current) rfl lookup_failUpload
  case versions =>
    simp only [restorePrevious, lookup_deleteVersions]
    change (s.versions.lookup v').bind _ = _
    obtain ⟨y, hy, hf, _⟩ := hu.version_row h
    split
    case isTrue he  => simp [he, hy, hf]
    case isFalse he => simp [he]
  case current =>
    have current : ((s.failUpload u).setCurrent f p).currentVersion g =
      if g = f then p else s.currentVersion g := currentVersion_setCurrent (hu.file h)
    simp only [restorePrevious, currentVersion_deleteVersions, current]
    split
    case isTrue hg =>
      rw [hg, ← hp]
      refine filter_currentVersion fun v' y hv' _ => ?_
      have := List.mem_of_getLast? (hp.symm.trans hv')
      simp only [List.mem_filter, decide_eq_true_eq] at this
      simp [this.right]
    case isFalse hg =>
      rw [hu.filter_line h hg, ← h.current]
      refine filter_currentVersion fun v' y hv' hy => ?_
      have : y.fileId = g := h.current_file hv' hy
      simp [this, hg]

theorem Underway.removed {y z : Store} (hu : s.Underway u x o v f) (h : s.Linear) (t : s.Turns)
    (hr : s.Recorded) (hl : s.line f = [v]) (hy : (s.failUpload u).removeFile f = .ok y)
    (hz : y.deleteObject o = .ok z) : s.Undone (z.log (.rejected u)) u o v := by
  -- The deletion of the file leaves the rows of the other uploads that are under way alone.
  have row {w x} (hs : x.state = .finalizing) (hw : w ≠ u) (hx : s.sessions.lookup w = some x) :
      x.finalFileId.any (· ∈ [f]) = false ∧
      { x with replaceFileId := x.replaceFileId.filter (· ∉ [f]) } = x := by
    obtain ⟨o', v', f', hu'⟩ := t.underway hx hs
    have hn := (hu.disjoint hu' h hr hw).right.right
    refine ⟨by simp [hu'.target, hn], ?_⟩
    rcases hf : x.replaceFileId with _ | f''
    case none => rw [Option.filter_none, ← hf]
    case some =>
      obtain ⟨rfl, _⟩ := hu'.replaced hf
      rw [Option.filter_some, if_pos (by simpa using hn), ← hf]
  have sessions {w x} (hs : x.state = .finalizing) :
      y.sessions.lookup w = some x ↔ w ≠ u ∧ s.sessions.lookup w = some x := by
    constructor
    case mp =>
      intro hx
      obtain ⟨x', hx', _, rfl⟩ := lookup_deleteFiles hy hx
      have hs' : x'.state = .finalizing := hs
      obtain ⟨hw, hx'⟩ := (lookup_failUpload hs').mp hx'
      rw [(row hs' hw hx').right]
      exact ⟨hw, hx'⟩
    case mpr =>
      rintro ⟨hw, hx⟩
      obtain ⟨hf, he⟩ := row hs hw hx
      have hx' : ((s.failUpload u).setCurrent f none |>.deleteVersions
          fun _ v => v.fileId = f).sessions.lookup w = some x := (lookup_failUpload hs).mpr ⟨hw, hx⟩
      obtain ⟨_, rfl⟩ := deleteFiles_ok hy
      simp only [Table.lookup_filterMap, hx', Option.bind_some, hf, he, Bool.false_eq_true, if_false]
  obtain ⟨_, rfl⟩ := deleteFiles_ok hy
  refine h.undone t hr hu hz rfl rfl (fun v' => ?versions) (fun g => ?current) rfl sessions
  case versions =>
    rw [lookup_deleteVersions]
    change (s.versions.lookup v').bind _ = _
    obtain ⟨y, hy, hf, _⟩ := hu.version_row h
    split
    case isTrue he  => simp [he, hy, hf]
    case isFalse he =>
      cases hv : s.versions.lookup v'
      case none => rfl
      case some y =>
        have : y.fileId ≠ f := by
          rintro rfl
          have := h.row hv
          rw [hl] at this
          exact he (List.mem_singleton.mp this)
        simp [this]
  case current =>
    have current : ((s.failUpload u).setCurrent f none).currentVersion g =
      if g = f then none else s.currentVersion g := currentVersion_setCurrent (hu.file h)
    by_cases hg : g = f
    case pos => simp [currentVersion, hg, hl]
    case neg =>
      rw [hu.filter_line h hg, ← h.current]
      have kept : (s.currentVersion g).filter
          (fun id => !(s.versions.lookup id).any fun v => v.fileId = f) = s.currentVersion g := by
        refine filter_currentVersion (p := fun _ v => v.fileId = f) fun v' y hv' hy => ?_
        have : y.fileId = g := h.current_file hv' hy
        simp [this, hg]
      have deleted := currentVersion_deleteVersions (s := (s.failUpload u).setCurrent f none) (g := g)
        (p := fun _ v => v.fileId = f)
      rw [current, if_neg hg] at deleted
      rw [← deleted.trans kept]
      simp [currentVersion, hg]

theorem mem_latestVersions {q : Id} : q ∈ s.latestVersions f (some v) ↔
    ∃ y, s.versions.lookup q = some y ∧ y.fileId = f ∧ q ≠ v ∧
      ∀ q' y', s.versions.lookup q' = some y' → y'.fileId = f → q' ≠ v → y'.createdAt ≤ y.createdAt := by
  simp only [latestVersions, List.mem_map, List.mem_filter, Prod.exists, List.all_eq_true,
    Bool.and_eq_true, decide_eq_true_eq, Table.lookup_eq_some_iff, Prod.forall, ne_eq,
    Option.some.injEq]
  constructor
  case mp =>
    rintro ⟨q, y, ⟨⟨hm, hf, hv⟩, hl⟩, rfl⟩
    exact ⟨y, hm, hf, hv, fun q' y' hm' hf' hv' => hl q' y' ⟨hm', hf', hv'⟩⟩
  case mpr =>
    rintro ⟨y, hm, hf, hv, hl⟩
    exact ⟨q, y, ⟨⟨hm, hf, hv⟩, fun q' y' hm' => hl q' y' hm'.left hm'.right.left hm'.right.right⟩, rfl⟩

-- The latest of the other versions is the one that was current before.
theorem Underway.mem_latestVersions {l : List Id} {p q : Id} (hu : s.Underway u x o v f)
    (h : s.Linear) (hl : (s.line f).filter (· ≠ v) = l ++ [p]) :
    q ∈ s.latestVersions f (some v) ↔ q = p := by
  have mem {q} : q ∈ l ++ [p] ↔ q ∈ s.line f ∧ q ≠ v := by
    simp [← hl, List.mem_filter]
  have ordered : (l ++ [p]).Pairwise s.Before := hl ▸ (h.ordered f).filter _
  have before {q} (hq : q ∈ l) : s.Before q p :=
    (List.pairwise_append.mp ordered).right.right q hq p (List.mem_singleton_self p)
  obtain ⟨hp, hv⟩ := mem.mp (List.mem_append_right l (List.mem_singleton_self p))
  obtain ⟨y, hy, hf⟩ := h.mem hp
  rw [Store.mem_latestVersions]
  constructor
  case mp =>
    rintro ⟨z, hz, rfl, hq, hm⟩
    rcases List.mem_append.mp (mem.mpr ⟨h.row hz, hq⟩) with hq | hq
    case inl => exact absurd (hm p y hy hf hv) (Nat.not_le_of_lt (before hq z y hz hy))
    case inr => exact List.mem_singleton.mp hq
  case mpr =>
    rintro rfl
    refine ⟨y, hy, hf, hv, fun q' y' hy' hf' hv' => ?_⟩
    rcases List.mem_append.mp (mem.mpr ⟨hf' ▸ h.row hy', hv'⟩) with hq | hq
    case inl => exact Nat.le_of_lt (before hq y' y hy' hy)
    case inr =>
      cases List.mem_singleton.mp hq
      cases hy.symm.trans hy'
      exact Nat.le_refl _

theorem limitOne_eq_some {rows : List Id} {row r : Option Id} {p : Id}
    (h : ∀ q, q ∈ rows ↔ q = p) (hr : limitOne rows row = some r) : r = some p := by
  cases row <;> simp only [limitOne] at hr <;> split at hr <;> cases hr
  case none.isTrue hn => simpa [hn] using (h p).mpr rfl
  case some.isTrue hm => rw [(h _).mp hm]

-- A replacement has a version before its own.
theorem Underway.previous {f' : Id} (hu : s.Underway u x o v f) (h : s.Linear)
    (hx : x.replaceFileId = some f') : ∃ l p, (s.line f).filter (· ≠ v) = l ++ [p] := by
  obtain ⟨l, hl, hl'⟩ := hu.line_eq h
  have length := (hu.replaced hx).right
  rcases List.eq_nil_or_concat l with rfl | ⟨l', p, rfl⟩
  case inl => simp [hl] at length
  case inr => exact ⟨l', p, by simpa using hl'⟩

theorem Linear.rejected {row : Option Id} {owner : Id} {t : Target} (h : s.Linear) (ht : s.Turns)
    (hr : s.Recorded) (hu : s.rejectMismatchedUpload row owner u t = some (.ok (some s'))) :
    ∃ x v, s.Underway u x t.objectId v t.fileId ∧ s.Undone s' u t.objectId v := by
  obtain ⟨x, hx, hs, hf, ho, y, z, hz, rfl, hy⟩ := rejectMismatchedUpload_ok hu
  obtain ⟨o, v, f, hu⟩ := ht.underway hx hs
  cases hu.target.symm.trans hf
  cases hu.storage.symm.trans ho
  have current : s.currentVersion t.fileId = some v := (h.current _).trans hu.last
  refine ⟨x, v, hu, ?_⟩
  rcases hy with ⟨previous, hp, hl, rfl⟩ | ⟨hp, hy⟩ | ⟨_, hn, _⟩
  case inl =>
    obtain ⟨f', hf'⟩ := Option.isSome_iff_exists.mp hp
    obtain ⟨l, p, hlp⟩ := hu.previous h hf'
    rw [current] at hl hz
    have := limitOne_eq_some (fun q => hu.mem_latestVersions h hlp) hl
    exact hu.restored h ht hr (by rw [hlp, this, List.getLast?_concat]) hz
  case inr.inl => exact hu.removed h ht hr (hu.created hp) hy hz
  case inr.inr => cases current.symm.trans hn

-- Nothing refers to the object of a replacement once its version is gone.
theorem Underway.deleteObject {p : Option Id} (hu : s.Underway u x o v f) (h : s.Linear)
    (hr : s.Recorded) :
    ∃ z, ((s.failUpload u).restorePrevious f (some v) p).deleteObject o = .ok z := by
  obtain ⟨y, hy, hf, _⟩ := hu.version_row h
  have referenced : ((s.failUpload u).restorePrevious f (some v) p).referenced o = false := by
    rw [Bool.eq_false_iff]
    intro hn
    obtain ⟨v', y', hy', ho⟩ := referenced_iff.mp hn
    simp only [restorePrevious, lookup_deleteVersions] at hy'
    obtain ⟨z, hz, hy'⟩ := Option.bind_eq_some_iff.mp hy'
    have hz : s.versions.lookup v' = some z := hz
    split at hy' <;> cases hy'
    case isFalse hn =>
      cases hu.sole hz ho
      cases hy.symm.trans hz
      simp [hf] at hn
  have finalizing : ((s.failUpload u).restorePrevious f (some v) p).finalizing o = false := by
    rw [Bool.eq_false_iff]
    intro hn
    obtain ⟨w, z, hz, ho, hs⟩ := finalizing_iff.mp hn
    obtain ⟨hw, hz⟩ := (lookup_failUpload hs).mp hz
    obtain ⟨v', f', hr'⟩ := hr.storage hz ho
    exact hw (hr.object hr' hu.reserved)
  rw [Store.deleteObject, referenced, finalizing]
  exact ⟨_, rfl⟩

theorem Underway.reject_eq {owner f' : Id} {t : Target} (row : Option Id)
    (hu : s.Underway u x t.objectId v t.fileId) (h : s.Linear)
    (hx : s.sessions.lookup u = some x) (hs : x.state = .finalizing) (ho : x.ownerId = owner)
    (hf : x.replaceFileId = some f') : s.rejectMismatchedUpload row owner u t =
      (limitOne (s.latestVersions t.fileId (some v)) row).map fun previous =>
        (((s.failUpload u).restorePrevious t.fileId (some v) previous).deleteObject t.objectId).map
          fun s => some (s.log (.rejected u)) := by
  have fetched : s.fetchUploadForUpdate owner u = .ok x := by
    simp [fetchUploadForUpdate, hx, ho]
  have current : s.currentVersion t.fileId = some v := (h.current _).trans hu.last
  rw [rejectMismatchedUpload, fetched]
  simp only [hs, hu.target, hu.storage, hf, current, Option.isSome_some, if_true, ne_eq,
    not_true_eq_false, or_self, if_false, reduceCtorEq, Option.map_map]
  rfl

-- Only the version of an upload that is under way is not readable.
theorem Turns.readable {y : FileVersion} (t : s.Turns) (h : s.Linear)
    (hy : s.versions.lookup v = some y)
    (hn : ∀ w x, s.sessions.lookup w = some x → x.state = .finalizing →
      x.finalFileId = some y.fileId → (s.line y.fileId).getLast? ≠ some v) : s.Readable v := by
  refine ⟨y, hy, (t.ready hy).resolve_right fun hf => ?_⟩
  obtain ⟨w, x, hx, ho, hs⟩ := finalizing_iff.mp hf
  obtain ⟨o', v', f', hu⟩ := t.underway hx hs
  cases hu.storage.symm.trans ho
  cases hu.sole hy rfl
  obtain ⟨y', hy', rfl, _⟩ := hu.version_row h
  cases hy.symm.trans hy'
  exact hn w x hx hs hu.target hu.last

theorem Underway.heir_eq (hu : s.Underway u x o v f) (h : s.Linear) (hr : s.Recorded) :
    s.heir f u = ((s.line f).filter (· ≠ v)).getLast? := by
  rw [heir, h.placed_unplace hr hu.reserved]

theorem Underway.heir_readable {f' : Id} (hu : s.Underway u x o v f) (h : s.Linear) (t : s.Turns)
    (hr : s.Recorded) (hx : x.replaceFileId = some f') :
    ∃ p, s.heir f u = some p ∧ p ≠ v ∧ s.Readable p := by
  obtain ⟨l, p, hl⟩ := hu.previous h hx
  have hp : p ∈ (s.line f).filter (· ≠ v) := hl ▸ List.mem_append_right l (List.mem_singleton_self p)
  simp only [List.mem_filter, decide_eq_true_eq] at hp
  obtain ⟨y, hy, rfl⟩ := h.mem hp.left
  refine ⟨p, by rw [hu.heir_eq h hr, hl, List.getLast?_concat], hp.right, t.readable h hy ?_⟩
  intro _ _ _ _ _ hl
  exact hp.right (Option.some.inj (hl.symm.trans hu.last))

end Store
end MyDrive.Transfers
