import MyDrive.Transfers.Theorems.History

-- The versions of a file whose uploads take turns form a line, of which the last one is current. A
-- rejection takes its own version off the end.

namespace MyDrive.Transfers

-- The version that an event puts on the file `f`, where the uploads of `out` do not count.
def Event.places (f : Id) (out : Id → Bool) : Event → Option Id
  | .reserved w _ v f' => if f' = f && !out w then some v else none
  | .attached v f'     => if f' = f then some v else none
  | _                  => none

def Event.version : Event → Option Id
  | .reserved _ _ v _ => some v
  | .attached v _     => some v
  | _                 => none

def Event.file : Event → Option Id
  | .reserved _ _ _ f => some f
  | .attached _ f     => some f
  | _                 => none

theorem Event.places_eq_some {e : Event} {f v : Id} {out : Id → Bool}
    (h : e.places f out = some v) : e.version = some v ∧ e.file = some f := by
  cases e <;> simp_all [places, version, file]

namespace Store

-- The versions that the file `f` got, the oldest one first, where the uploads of `out` do not count.
def placed (s : Store) (f : Id) (out : Id → Bool) : List Id :=
  s.history.filterMap (Event.places f out)

def rejects (s : Store) (u : Id) : Bool :=
  .rejected u ∈ s.history

def line (s : Store) (f : Id) : List Id :=
  s.placed f s.rejects

-- The version of `f` that would be current had `u` never been finalized.
def heir (s : Store) (f u : Id) : Option Id :=
  s.placed f (fun w => w = u || s.rejects w) |>.getLast?

def Ready (s : Store) (o : Id) : Prop :=
  ∃ x, s.objects.lookup o = some x ∧ x.state = .ready

def Readable (s : Store) (v : Id) : Prop :=
  ∃ x, s.versions.lookup v = some x ∧ s.Ready x.objectId

def Before (s : Store) (v v' : Id) : Prop :=
  ∀ x x', s.versions.lookup v = some x → s.versions.lookup v' = some x' → x.createdAt < x'.createdAt

structure Linear (s : Store) : Prop where
  version {e v} : e ∈ s.history → e.version = some v → v < s.next
  file {e f} : e ∈ s.history → e.file = some f → f < s.next
  unique {e e' v} : e ∈ s.history → e' ∈ s.history → e.version = some v → e'.version = some v → e = e'
  row {v x} : s.versions.lookup v = some x → v ∈ s.line x.fileId
  mem {v f} : v ∈ s.line f → ∃ x, s.versions.lookup v = some x ∧ x.fileId = f
  ordered (f) : (s.line f).Pairwise s.Before
  current (f) : s.currentVersion f = (s.line f).getLast?

variable {s s' : Store} {u w o v f g : Id}

theorem mem_placed {out : Id → Bool} :
    v ∈ s.placed f out ↔ ∃ e ∈ s.history, e.places f out = some v :=
  List.mem_filterMap

theorem Linear.mem_line (h : .reserved u o v f ∈ s.history) (hn : s.rejects u = false) :
    v ∈ s.line f :=
  mem_placed.mpr ⟨_, h, by simp [Event.places, hn]⟩

theorem Linear.line_fresh (h : s.Linear) (hf : s.next ≤ f) : s.line f = [] := by
  refine List.eq_nil_iff_forall_not_mem.mpr fun v hv => ?_
  obtain ⟨e, he, hp⟩ := mem_placed.mp hv
  exact absurd (h.file he (Event.places_eq_some hp).right) (Nat.not_lt_of_le hf)

theorem Linear.lt_next (h : s.Linear) {x : FileVersion} (hv : s.versions.lookup v = some x) :
    v < s.next := by
  obtain ⟨e, he, hp⟩ := mem_placed.mp (h.row hv)
  exact h.version he (Event.places_eq_some hp).left

-- The history gets events that neither place nor reject anything.
theorem line_append (es : List Event) (hh : s'.history = s.history ++ es)
    (hv : ∀ e ∈ es, e.version = none) (hr : ∀ w, .rejected w ∉ es) : s'.line f = s.line f := by
  have rejects : s'.rejects = s.rejects := by
    ext w
    simp [Store.rejects, hh, hr]
  have none_placed : es.filterMap (Event.places f s.rejects) = [] := by
    refine List.filterMap_eq_nil_iff.mpr fun e he => ?_
    refine Option.eq_none_iff_forall_ne_some.mpr fun v hp => ?_
    cases (hv e he).symm.trans (Event.places_eq_some hp).left
  rw [line, line, placed, placed, rejects, hh, List.filterMap_append, none_placed, List.append_nil]

theorem rejects_append {es : List Event} (hh : s'.history = s.history ++ es)
    (hr : ∀ w, .rejected w ∉ es) : s'.rejects u = s.rejects u := by
  simp [rejects, hh, hr]

theorem line_place {e : Event} (hh : s'.history = s.history ++ [e])
    (hp : e.places f s.rejects = some v) :
    s'.line g = s.line g ++ if g = f then [v] else [] := by
  obtain ⟨hv, hf⟩ := Event.places_eq_some hp
  have rejects : s'.rejects = s.rejects := by
    ext w
    rw [rejects_append hh]
    intro w hm
    cases List.mem_singleton.mp hm
    cases hv
  rw [line, line, placed, placed, rejects, hh, List.filterMap_append]
  congr 1
  split
  case isTrue hg  => simp [hg, hp]
  case isFalse hg =>
    refine List.filterMap_eq_nil_iff.mpr fun e' he => ?_
    cases List.mem_singleton.mp he
    refine Option.eq_none_iff_forall_ne_some.mpr fun v' hp' => ?_
    cases hf.symm.trans (Event.places_eq_some hp').right
    exact hg rfl

-- The line without the version of an upload that gets rejected.
theorem Linear.placed_unplace (h : s.Linear) (hc : s.Recorded) (hr : .reserved u o v f ∈ s.history) :
    s.placed g (fun w => w = u || s.rejects w) = (s.line g).filter (· ≠ v) := by
  rw [line, placed, placed, List.filter_filterMap]
  refine List.filterMap_congr fun e he => ?_
  by_cases hv : e.version = some v
  case pos =>
    cases h.unique he hr hv rfl
    simp only [Event.places]
    split <;> split <;> simp_all [Option.filter_some]
  case neg =>
    have keep {out} : (e.places g out).filter (· ≠ v) = e.places g out := by
      cases hp : e.places g out
      case none => rfl
      case some v' =>
        have : v' ≠ v := by
          rintro rfl
          exact hv (Event.places_eq_some hp).left
        simp [Option.filter_some, this]
    rw [keep]
    cases e <;> simp only [Event.places]
    case reserved w o' v' f' =>
      have : w ≠ u := by
        rintro rfl
        obtain ⟨_, rfl, _⟩ := hc.unique he hr
        exact hv rfl
      simp [this]

theorem Linear.line_reject (h : s.Linear) (hc : s.Recorded) (hr : .reserved u o v f ∈ s.history)
    (hh : s'.history = s.history ++ [.rejected u]) :
    s'.line g = (s.line g).filter (· ≠ v) := by
  rw [← h.placed_unplace hc hr, line, placed, placed, hh, List.filterMap_append]
  have rejects : s'.rejects = fun w => decide (w = u) || s.rejects w := by
    ext w
    simp only [Store.rejects, hh, List.mem_append, List.mem_singleton, Event.rejected.injEq]
    rw [← Bool.decide_or, decide_eq_decide, or_comm]
  simp [rejects, Event.places]

theorem Linear.frame (h : s.Linear) (es : List Event) (hn : s.next ≤ s'.next)
    (hh : s'.history = s.history ++ es) (hv : ∀ e ∈ es, e.version = none)
    (hr : ∀ w, .rejected w ∉ es) (hs : s'.versions = s.versions)
    (hc : ∀ f, s'.currentVersion f = s.currentVersion f) : s'.Linear := by
  have lines f : s'.line f = s.line f := line_append es hh hv hr
  have old {e v} (he : e ∈ s'.history) (hv' : e.version = some v) : e ∈ s.history := by
    rw [hh] at he
    refine (List.mem_append.mp he).resolve_right fun he => ?_
    cases (hv e he).symm.trans hv'
  refine ⟨fun he hv => ?version, fun {e f} he hf => ?file, fun he he' hv hv' => ?unique, fun hx => ?row,
    fun hv => ?mem, fun f => ?ordered, fun f => ?current⟩
  case version => exact Nat.lt_of_lt_of_le (h.version (old he hv) hv) hn
  case file =>
    have : ∃ v, e.version = some v := by
      cases e <;> simp_all [Event.version, Event.file]
    obtain ⟨v, hv⟩ := this
    exact Nat.lt_of_lt_of_le (h.file (old he hv) hf) hn
  case unique  => exact h.unique (old he hv) (old he' hv') hv hv'
  case row     => exact lines _ ▸ h.row (hs ▸ hx)
  case mem     => exact hs ▸ h.mem (lines _ ▸ hv)
  case ordered =>
    rw [lines]
    refine (h.ordered f).imp fun hb x x' hx hx' => ?_
    exact hb x x' (hs ▸ hx) (hs ▸ hx')
  case current => rw [hc, lines, h.current]

-- A new version is put on the file `f`.
theorem Linear.place {e : Event} {y : FileVersion} (h : s.Linear) (hn : s.next ≤ v)
    (hv : v < s'.next) (hf : f < s'.next) (hh : s'.history = s.history ++ [e])
    (hp : e.places f s.rejects = some v) (hs : s'.versions = s.versions.set v y)
    (hy : y.fileId = f)
    (ho : ∀ v' x, s.versions.lookup v' = some x → x.fileId = f → x.createdAt < y.createdAt)
    (hc : ∀ g, s'.currentVersion g = if g = f then some v else s.currentVersion g) :
    s'.Linear := by
  obtain ⟨hev, hef⟩ := Event.places_eq_some hp
  have lines g : s'.line g = s.line g ++ if g = f then [v] else [] := line_place hh hp
  have grow {n : Id} (hn' : n < s.next) : n < s'.next :=
    Nat.lt_trans (Nat.lt_of_lt_of_le hn' hn) hv
  have cases_of {e'} (he : e' ∈ s'.history) : e' ∈ s.history ∨ e' = e := by
    simpa [hh] using he
  have fresh {e'} (he : e' ∈ s.history) : e'.version ≠ some v :=
    fun hv' => absurd (h.version he hv') (Nat.not_lt_of_le hn)
  have rows {v' x} (hx : s'.versions.lookup v' = some x) :
      v' = v ∧ x = y ∨ v' ≠ v ∧ s.versions.lookup v' = some x := by
    rw [hs, Table.lookup_set] at hx
    split at hx
    case isTrue hv  => exact .inl ⟨hv, (Option.some.inj hx).symm⟩
    case isFalse hv => exact .inr ⟨hv, hx⟩
  have kept {v' x} (hx : s.versions.lookup v' = some x) : s'.versions.lookup v' = some x := by
    have : v' ≠ v := Nat.ne_of_lt (Nat.lt_of_lt_of_le (h.lt_next hx) hn)
    simp [hs, this, hx]
  refine ⟨fun he hv' => ?version, fun he hf' => ?file, fun he he' h₁ h₂ => ?unique, fun hx => ?row,
    fun {v' g} hm => ?mem, fun g => ?ordered, fun g => ?current⟩
  case version =>
    rcases cases_of he with he | rfl
    case inl => exact grow (h.version he hv')
    case inr => cases hev.symm.trans hv'; exact hv
  case file =>
    rcases cases_of he with he | rfl
    case inl => exact grow (h.file he hf')
    case inr => cases hef.symm.trans hf'; exact hf
  case unique =>
    rcases cases_of he with he | rfl <;> rcases cases_of he' with he' | rfl
    case inl.inl => exact h.unique he he' h₁ h₂
    case inl.inr => cases hev.symm.trans h₂; exact absurd h₁ (fresh he)
    case inr.inl => cases hev.symm.trans h₁; exact absurd h₂ (fresh he')
    case inr.inr => rfl
  case row =>
    rw [lines]
    rcases rows hx with ⟨rfl, rfl⟩ | ⟨_, hx⟩
    case inl => simp [hy]
    case inr => exact List.mem_append_left _ (h.row hx)
  case mem =>
    rw [lines] at hm
    rcases List.mem_append.mp hm with hm | hm
    case inl =>
      obtain ⟨x, hx, hf'⟩ := h.mem hm
      exact ⟨x, kept hx, hf'⟩
    case inr =>
      split at hm
      case isTrue hg =>
        cases List.mem_singleton.mp hm
        exact ⟨y, by simp [hs], hg ▸ hy⟩
      case isFalse => cases hm
  case ordered =>
    rw [lines]
    refine List.pairwise_append.mpr ⟨?old, ?new, fun v₁ h₁ v₂ h₂ => ?across⟩
    case old =>
      refine (h.ordered g).imp_of_mem fun h₁ h₂ hb x x' hx hx' => ?_
      obtain ⟨z, hz, _⟩ := h.mem h₁
      obtain ⟨z', hz', _⟩ := h.mem h₂
      cases (kept hz).symm.trans hx
      cases (kept hz').symm.trans hx'
      exact hb _ _ hz hz'
    case new => split <;> simp
    case across =>
      split at h₂
      case isTrue hg =>
        subst hg
        cases List.mem_singleton.mp h₂
        intro x x' hx hx'
        obtain ⟨z, hz, hf'⟩ := h.mem h₁
        cases (kept hz).symm.trans hx
        rw [hs, Table.lookup_set, if_pos rfl] at hx'
        cases hx'
        exact ho _ _ hz hf'
      case isFalse => cases h₂
  case current =>
    rw [hc, lines]
    split
    case isTrue  => simp
    case isFalse => simp [h.current]

-- The version of an upload is taken off its file.
theorem Linear.unplace (h : s.Linear) (hr : s.Recorded) (hu : .reserved u o v f ∈ s.history)
    (hn : s'.next = s.next) (hh : s'.history = s.history ++ [.rejected u])
    (hs : ∀ v', s'.versions.lookup v' = if v' = v then none else s.versions.lookup v')
    (hc : ∀ g, s'.currentVersion g = ((s.line g).filter (· ≠ v)).getLast?) : s'.Linear := by
  have lines g : s'.line g = (s.line g).filter (· ≠ v) := h.line_reject hr hu hh
  have old {e} (he : e ∈ s'.history) : e ∈ s.history ∨ e = .rejected u := by
    simpa [hh] using he
  have rows {v' x} (hx : s'.versions.lookup v' = some x) : v' ≠ v ∧ s.versions.lookup v' = some x := by
    rw [hs] at hx
    split at hx
    case isTrue     => cases hx
    case isFalse hv => exact ⟨hv, hx⟩
  refine ⟨fun he hv' => ?version, fun he hf' => ?file, fun he he' h₁ h₂ => ?unique, fun hx => ?row,
    fun {v' g} hm => ?mem, fun g => ?ordered, fun g => ?current⟩
  case version =>
    rcases old he with he | rfl
    case inl => exact hn ▸ h.version he hv'
    case inr => cases hv'
  case file =>
    rcases old he with he | rfl
    case inl => exact hn ▸ h.file he hf'
    case inr => cases hf'
  case unique =>
    rcases old he with he | rfl
    case inr => cases h₁
    rcases old he' with he' | rfl
    case inr => cases h₂
    exact h.unique he he' h₁ h₂
  case row =>
    obtain ⟨hv', hx⟩ := rows hx
    rw [lines]
    exact List.mem_filter.mpr ⟨h.row hx, by simpa using hv'⟩
  case mem =>
    rw [lines] at hm
    obtain ⟨hm, hv'⟩ := List.mem_filter.mp hm
    obtain ⟨x, hx, hf'⟩ := h.mem hm
    exact ⟨x, by simpa [hs, hx] using hv', hf'⟩
  case ordered =>
    rw [lines]
    refine ((h.ordered g).filter _).imp fun hb x x' hx hx' => ?_
    exact hb _ _ (rows hx).right (rows hx').right
  case current => rw [hc, lines]
end Store
end MyDrive.Transfers
