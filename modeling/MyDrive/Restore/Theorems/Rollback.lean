import MyDrive.Restore.Script

namespace MyDrive.Restore

variable {α δ : Type}

section

variable {β γ : Type} {f : γ → β → γ × Bool} {xs ys : List β} {s s' : γ}

theorem each_append (h : each f xs s = (s', true)) : each f (xs ++ ys) s = each f ys s' := by
  induction xs generalizing s
  case nil => cases h; rfl
  case cons x xs ih =>
    simp only [each, List.cons_append] at h ⊢
    split at h
    case h_1 => exact ih h
    case h_2 => cases h

theorem each_invariant {P : γ → Prop} (hs : P s) (hf : ∀ s x, x ∈ xs → P s → P (f s x).1) :
    P (each f xs s).1 := by
  induction xs generalizing s
  case nil => exact hs
  case cons x xs ih =>
    have hx := hf s x List.mem_cons_self hs
    rw [each]
    split
    case h_1 he => exact ih (by simpa [he] using hx) fun s y hy => hf s y (.tail _ hy)
    case h_2 he => simpa [he] using hx

-- The commands of `xs` and then those of `ys`, cut off.
theorem each_take_append (h : each f xs s = (s', true)) (n : Nat) :
    each f ((xs ++ ys).take n) s =
      if n ≤ xs.length then each f (xs.take n) s else each f (ys.take (n - xs.length)) s' := by
  split
  case isTrue hn  => rw [List.take_append_of_le_length hn]
  case isFalse hn => rw [List.take_append, List.take_of_length_le (by omega), each_append h]

-- A loop whose round for `x` takes `x` from `P` to `Q` and leaves the others where they are.
theorem each_round {l : List β} {I : γ → Prop} {P Q : β → γ → Prop}
    (round : ∀ s, ∀ x ∈ l, I s → P x s → ∃ s', f s x = (s', true) ∧ I s' ∧ Q x s' ∧
      ∀ y ≠ x, (P y s → P y s') ∧ (Q y s → Q y s'))
    (nodup : l.Nodup) (hI : I s) (hP : ∀ x ∈ l, P x s) :
    ∃ s', each f l s = (s', true) ∧ I s' ∧ (∀ x ∈ l, Q x s') ∧
      ∀ y ∉ l, (P y s → P y s') ∧ (Q y s → Q y s') := by
  induction l generalizing s
  case nil => exact ⟨s, rfl, hI, by simp, by simp⟩
  case cons x l ih =>
    obtain ⟨hx, nodup⟩ := List.nodup_cons.mp nodup
    obtain ⟨s₁, he, hI, hQ, frame⟩ := round s x List.mem_cons_self hI (hP x List.mem_cons_self)
    have hP : ∀ y ∈ l, P y s₁ := by
      intro y hy
      exact (frame y (ne_of_mem_of_not_mem hy hx)).left (hP y (.tail _ hy))
    obtain ⟨s₂, he₂, hI, hQs, rest⟩ := ih (fun s y hy => round s y (.tail _ hy)) nodup hI hP
    refine ⟨s₂, by simp [each, he, he₂], hI, ?_, ?_⟩
    case refine_1 => exact List.forall_mem_cons.mpr ⟨(rest x hx).right hQ, hQs⟩
    case refine_2 =>
      intro y hy
      obtain ⟨hn, hy⟩ := List.ne_and_not_mem_of_not_mem_cons hy
      exact ⟨(rest y hy).left ∘ (frame y hn).left, (rest y hy).right ∘ (frame y hn).right⟩

end

namespace State

variable {s s' : State α δ} {b : Backup α δ}

section Storage

variable {old : Roots α} {w : Work α} {r : Roots α} {c : Child}

-- What the cutover has done to a child so far: nothing, moved the old directory out, or moved the new
-- one in as well.
inductive Swap (old live r stage : Roots α) (c : Child) : Prop
  | before : live c = old c → r c = none → (stage c).isSome → Swap old live r stage c
  | between : live c = none → r c = old c → Swap old live r stage c
  | after : r c = old c → stage c = none → Swap old live r stage c

theorem mv_of_free {src dst : Roots α} {d : Dir α} (hs : src c = some d) (hd : dst c = none) :
    src.mv dst c = some (Function.update src c none, Function.update dst c (some d)) := by
  simp [Roots.mv, hs, hd]

-- `s` with other directories of the storage.
def storing (s : State α δ) (live : Roots α) (w : Work α) (r : Roots α) : State α δ :=
  { s with live, work := some w, rollback := some r }

theorem storing_self (hw : s.work = some w) (hr : s.rollback = some r) : s.storing s.live w r = s := by
  rw [storing, ← hw, ← hr]

theorem moveOut_ok {l : Roots α} (hc : r c = none) :
    ∃ live' r', exec b (s.storing l w r) (.moveOut c) = (s.storing live' w r', true) ∧
      live' c = none ∧ r' c = l c ∧ ∀ c' ≠ c, live' c' = l c' ∧ r' c' = r c' := by
  cases hl : l c
  case none   => exact ⟨l, r, by simp [exec, storing, hl], hl, hc, fun _ _ => ⟨rfl, rfl⟩⟩
  case some d =>
    refine ⟨Function.update l c none, Function.update r c (some d), ?_, by simp, by simp, ?_⟩
    case refine_1 => simp [exec, storing, moved, hl, mv_of_free hl hc]
    case refine_2 => intro c' hn; simp [hn]

theorem moveIn_ok {live : Roots α} {d : Dir α} (hd : w.stage c = some d) (hl : live c = none) :
    exec b (s.storing live w r) (.moveIn c) =
      (s.storing (Function.update live c (some d))
        { w with stage := Function.update w.stage c none } r, true) := by
  simp [exec, storing, moved, mv_of_free hd hl]

theorem rollbackChild_before {live : Roots α} (ho : r c = none) (hs : (w.stage c).isSome) :
    rollbackChild (s.storing live w r) c = (s.storing live w r, true) := by
  have := Option.isSome_iff_ne_none.mp hs
  simp [rollbackChild, storing, ho, this]

theorem rollbackChild_between {live : Roots α} (hl : live c = none) (ho : r c = old c) :
    ∃ r', rollbackChild (s.storing live w r) c =
        (s.storing (Function.update live c (old c)) w r', true) ∧
      ∀ c' ≠ c, r' c' = r c' := by
  cases hd : old c
  case none =>
    refine ⟨r, ?_, fun _ _ => rfl⟩
    rw [← hl, Function.update_eq_self]
    simp [rollbackChild, storing, hl, ho, hd]
  case some d =>
    refine ⟨Function.update r c none, ?_, fun c' hc => Function.update_of_ne hc _ _⟩
    simp [rollbackChild, storing, moved, hl, ho, hd, mv_of_free (ho.trans hd) hl]

-- The directory of the backup is moved aside, and what follows is as if it had never come.
theorem rollbackChild_after {live : Roots α} {d : Dir α} (hs : w.stage c = none) (hl : live c = some d)
    (hf : w.failed c = none) :
    rollbackChild (s.storing live w r) c =
      rollbackChild (s.storing (Function.update live c none)
        { w with failed := Function.update w.failed c (some d) } r) c := by
  simp [rollbackChild, storing, moved, hs, hl, mv_of_free hl hf]

theorem rollbackChild_ok {live : Roots α} (hc : Swap old live r w.stage c) (hf : w.failed c = none) :
    ∃ w' r', rollbackChild (s.storing live w r) c =
        (s.storing (Function.update live c (old c)) w' r', true) ∧
      w'.stage = w.stage ∧ ∀ c' ≠ c, r' c' = r c' ∧ w'.failed c' = w.failed c' := by
  cases hc
  case before hl ho hs =>
    refine ⟨w, r, ?_, rfl, fun _ _ => ⟨rfl, rfl⟩⟩
    rw [rollbackChild_before ho hs, ← hl, Function.update_eq_self]
  case between hl ho =>
    obtain ⟨r', he, hr'⟩ := rollbackChild_between hl ho
    exact ⟨w, r', he, rfl, fun c' hn => ⟨hr' c' hn, rfl⟩⟩
  case after ho hs =>
    cases hl : live c
    case none =>
      obtain ⟨r', he, hr'⟩ := rollbackChild_between hl ho
      exact ⟨w, r', he, rfl, fun c' hn => ⟨hr' c' hn, rfl⟩⟩
    case some d =>
      rw [rollbackChild_after hs hl hf]
      obtain ⟨r', he, hr'⟩ := rollbackChild_between (Function.update_self c none live) ho
      rw [Function.update_idem] at he
      refine ⟨_, r', he, rfl, ?_⟩
      intro c' hn
      exact ⟨hr' c' hn, Function.update_of_ne hn _ _⟩

theorem mem_children (c : Child) : c ∈ children := by
  cases c <;> decide

theorem nodup_children : children.Nodup := by
  decide

-- The child can be put back as it was.
def Undoable (old live : Roots α) (w : Work α) (r : Roots α) (c : Child) : Prop :=
  Swap old live r w.stage c ∧ w.failed c = none

theorem Undoable.congr {live live' : Roots α} {w' : Work α} {r' : Roots α}
    (h : Undoable old live w r c) (hl : live' c = live c) (hs : w'.stage = w.stage)
    (hr : r' c = r c) (hf : w'.failed c = w.failed c) : Undoable old live' w' r' c := by
  refine ⟨?_, hf.trans h.right⟩
  rw [hs]
  cases h.left
  case before h₁ h₂ h₃ => exact .before (hl.trans h₁) (hr.trans h₂) h₃
  case between h₁ h₂   => exact .between (hl.trans h₁) (hr.trans h₂)
  case after h₁ h₂     => exact .after (hr.trans h₁) h₂

theorem rollbackStorage_ok {live : Roots α} (h : ∀ c, Undoable old live w r c) :
    ∃ w' r', rollbackStorage (s.storing live w r) = (s.storing old w' r', true) := by
  have loop := each_round (f := rollbackChild) (l := children.reverse) (s := s.storing live w r)
    (I := fun s' => ∃ live w r, s' = s.storing live w r)
    (P := fun c s' => ∃ w r, s'.work = some w ∧ s'.rollback = some r ∧ Undoable old s'.live w r c)
    (Q := fun c s' => s'.live c = old c) ?round (List.nodup_reverse.mpr nodup_children)
    ⟨live, w, r, rfl⟩ fun c _ => ⟨w, r, rfl, rfl, h c⟩
  case round =>
    rintro s' c - ⟨live, w, r, rfl⟩ ⟨_, _, ⟨⟩, ⟨⟩, hs, hf⟩
    obtain ⟨w', r', he, hw, rest⟩ := rollbackChild_ok (s := s) hs hf
    refine ⟨_, he, ⟨_, _, _, rfl⟩, Function.update_self .., ?_⟩
    intro c' hn
    have hl : Function.update live c (old c) c' = live c' := Function.update_of_ne hn _ _
    constructor
    case left =>
      rintro ⟨_, _, ⟨⟩, ⟨⟩, hc⟩
      exact ⟨w', r', rfl, rfl, hc.congr hl hw (rest c' hn).left (rest c' hn).right⟩
    case right => exact hl.trans
  obtain ⟨s', he, ⟨live', w', r', rfl⟩, hQ, -⟩ := loop
  have : live' = old := funext fun c => hQ c (List.mem_reverse.mpr (mem_children c))
  exact ⟨w', r', by rw [← this, ← he]; rfl⟩

end Storage

section Previews

variable {old : Previews α} {w : PreviewWork α} {r : Previews α}

def previewing (s : State α δ) (previews : Previews α) (w : PreviewWork α) (r : Previews α) :
    State α δ :=
  { s with previews, previewWork := some w, previewRollback := some r }

theorem previewing_self (hw : s.previewWork = some w) (hr : s.previewRollback = some r) :
    s.previewing s.previews w r = s := by
  rw [previewing, ← hw, ← hr]

theorem previews_mv_ok {src dst : Previews α} {name : String} {a : α} (hs : src.lookup name = some a)
    (hd : dst.lookup name = none) :
    src.mv dst name = some (src.erase name, dst.set name a) := by
  simp [Previews.mv, hs, hd]

theorem mem_keys {t : Previews α} {name : String} : name ∈ t.keys ↔ ∃ a, t.lookup name = some a := by
  simp [Table.keys, Table.lookup_eq_some_iff]

theorem lookup_of_not_mem_keys {t : Previews α} {name : String} (h : name ∉ t.keys) :
    t.lookup name = none :=
  Option.eq_none_iff_forall_ne_some.mpr fun a ha => h (mem_keys.mpr ⟨a, ha⟩)

theorem failPreview_ok {previews : Previews α} {name : String} {a : α}
    (ha : previews.lookup name = some a) (hf : w.failed.lookup name = none) :
    failPreview (s.previewing previews w r) name =
      (s.previewing (previews.erase name) { w with failed := w.failed.set name a } r, true) := by
  simp [failPreview, previewing, moved, previews_mv_ok ha hf]

theorem returnPreview_ok {previews : Previews α} {name : String} {a : α}
    (ha : r.lookup name = some a) (hf : previews.lookup name = none) :
    returnPreview (s.previewing previews w r) name =
      (s.previewing (previews.set name a) w (r.erase name), true) := by
  simp [returnPreview, previewing, moved, previews_mv_ok ha hf]

theorem failPreviews_ok {p : Previews α} (hf : ∀ name, w.failed.lookup name = none) :
    ∃ p' w', each failPreview p.keys (s.previewing p w r) = (s.previewing p' w' r, true) ∧
      ∀ name, p'.lookup name = none := by
  have loop := each_round (f := failPreview) (l := p.keys) (s := s.previewing p w r)
    (I := fun s' => ∃ q w, s' = s.previewing q w r)
    (P := fun name s' => ∃ w, s'.previewWork = some w ∧ w.failed.lookup name = none ∧
      s'.previews.lookup name = p.lookup name)
    (Q := fun name s' => s'.previews.lookup name = none) ?round p.nodup
    ⟨p, w, rfl⟩ fun name _ => ⟨w, rfl, hf name, rfl⟩
  case round =>
    rintro s' name hn ⟨q, w, rfl⟩ ⟨_, ⟨⟩, hf, hp⟩
    obtain ⟨a, ha⟩ := mem_keys.mp hn
    refine ⟨_, failPreview_ok (hp.trans ha) hf, ⟨_, _, rfl⟩, by simp [previewing], ?_⟩
    intro name' hn
    simp [previewing, hn]
  obtain ⟨s', he, ⟨p', w', rfl⟩, hQ, hP⟩ := loop
  refine ⟨p', w', he, ?_⟩
  intro name
  by_cases hn : name ∈ p.keys
  case pos => exact hQ name hn
  case neg =>
    obtain ⟨_, ⟨⟩, -, hp⟩ := (hP name hn).left ⟨w, rfl, hf name, rfl⟩
    exact hp.trans (lookup_of_not_mem_keys hn)

theorem returnPreviews_ok {previews : Previews α} (hp : ∀ name, previews.lookup name = none) :
    ∃ p' r', each returnPreview r.keys (s.previewing previews w r) = (s.previewing p' w r', true) ∧
      ∀ name, p'.lookup name = r.lookup name := by
  have loop := each_round (f := returnPreview) (l := r.keys) (s := s.previewing previews w r)
    (I := fun s' => ∃ p r, s' = s.previewing p w r)
    (P := fun name s' => ∃ r', s'.previewRollback = some r' ∧ r'.lookup name = r.lookup name ∧
      s'.previews.lookup name = none)
    (Q := fun name s' => s'.previews.lookup name = r.lookup name) ?round r.nodup
    ⟨previews, r, rfl⟩ fun name _ => ⟨r, rfl, rfl, hp name⟩
  case round =>
    rintro s' name hn ⟨p, r', rfl⟩ ⟨_, ⟨⟩, hr, hp⟩
    obtain ⟨a, ha⟩ := mem_keys.mp hn
    refine ⟨_, returnPreview_ok (hr.trans ha) hp, ⟨_, _, rfl⟩, by simp [previewing, ha], ?_⟩
    intro name' hn
    simp [previewing, hn]
  obtain ⟨s', he, ⟨p', r', rfl⟩, hQ, hP⟩ := loop
  refine ⟨p', r', he, ?_⟩
  intro name
  by_cases hn : name ∈ r.keys
  case pos => exact hQ name hn
  case neg =>
    obtain ⟨_, ⟨⟩, -, hp⟩ := (hP name hn).left ⟨r, rfl, rfl, hp name⟩
    exact hp.trans (lookup_of_not_mem_keys hn).symm

-- What is in the data root goes, and what was moved out of it comes back.
theorem rollbackPreviews_ok {p : Previews α} (hf : ∀ name, w.failed.lookup name = none) :
    ∃ p' w' r', rollbackPreviews (s.previewing p w r) = (s.previewing p' w' r', true) ∧
      ∀ name, p'.lookup name = r.lookup name := by
  obtain ⟨p₁, w', he, hp⟩ := failPreviews_ok (s := s) (r := r) (p := p) hf
  obtain ⟨p₂, r', he₂, hr⟩ := returnPreviews_ok (s := s) (w := w') (r := r) hp
  refine ⟨p₂, w', r', ?_, hr⟩
  rw [← he₂]
  simp only [rollbackPreviews, previewing] at he ⊢
  rw [he]

end Previews

section Cleanup

variable {db : δ} {old : Roots α} {kept : String → Option α}

-- How far the renames of the databases have got.
inductive Renamed (db : δ) (s : State α δ) : Prop
  | before : s.target = some db → s.previous = none → Renamed db s
  | between : s.databaseCutover → s.target = none → s.previous = some db → Renamed db s
  | after : s.databaseCutover → s.target.isSome → s.previous = some db → s.scratch = none → Renamed db s

inductive Swapped (old : Roots α) (s : State α δ) : Prop
  | before : s.storageCutover = false → s.live = old → Swapped old s
  | during {w r} : s.storageCutover → s.work = some w → s.rollback = some r →
    (∀ c, Undoable old s.live w r c) → Swapped old s

-- The previews that there are after `cleanup`.
inductive Fetched (kept : String → Option α) (s : State α δ) : Prop
  | before : s.previewCutover = false → (∀ name, s.previews.lookup name = kept name) → Fetched kept s
  | during {w r} : s.previewCutover → s.previewWork = some w → s.previewRollback = some r →
    (∀ name, w.failed.lookup name = none) → (∀ name, r.lookup name = kept name) → Fetched kept s

theorem attempt_ok {f : State α δ → State α δ × Bool} {confirm : State α δ → State α δ}
    (h : f s = (s', true)) : attempt f confirm s = confirm s' := by
  simp [attempt, h]

theorem cleanupDatabase_ok (h : Renamed db s) :
    ∃ previous scratch confirmed, cleanupDatabase s =
        { s with target := some db, previous, scratch, databaseConfirmed := confirmed } ∧
      (s.databaseCutover → confirmed) := by
  cases h
  case before ht hp =>
    rw [cleanupDatabase, ← ht]
    split
    case isFalse hd => exact ⟨s.previous, s.scratch, s.databaseConfirmed, rfl, (absurd · hd)⟩
    case isTrue hd  =>
      have : rollbackDatabase s = (s, true) := by simp [rollbackDatabase, ht, hp]
      exact ⟨s.previous, s.scratch, true, attempt_ok this, by simp⟩
  case between hd ht hp =>
    exact ⟨none, s.scratch, true, by simp [cleanupDatabase, attempt, rollbackDatabase, *], by simp⟩
  case after hd ht hp hs =>
    obtain ⟨new, ht⟩ := Option.isSome_iff_exists.mp ht
    exact ⟨none, some new, true, by simp [cleanupDatabase, attempt, rollbackDatabase, *], by simp⟩

theorem cleanupStorage_ok (hd : s.databaseCutover → s.databaseConfirmed) (h : Swapped old s) :
    ∃ work rollback confirmed, cleanupStorage s =
      { s with live := old, work, rollback, storageConfirmed := confirmed } := by
  rw [cleanupStorage]
  cases h
  case before hs hl =>
    rw [if_pos (by simp [hs]), ← hl]
    exact ⟨s.work, s.rollback, s.storageConfirmed, rfl⟩
  case during w r hs hw hr hc =>
    obtain ⟨w', r', he⟩ := rollbackStorage_ok (s := s) hc
    rw [storing_self hw hr] at he
    rw [if_neg (by simp [hs]), if_neg (by simpa using hd)]
    exact ⟨some w', some r', true, attempt_ok he⟩

theorem cleanupPreviews_ok (hd : s.databaseCutover → s.databaseConfirmed) (h : Fetched kept s) :
    ∃ previews work rollback confirmed, cleanupPreviews s =
        { s with
          previews, previewWork := work, previewRollback := rollback, previewConfirmed := confirmed } ∧
      ∀ name, previews.lookup name = kept name := by
  rw [cleanupPreviews]
  cases h
  case before hs hl =>
    rw [if_pos (by simp [hs])]
    exact ⟨s.previews, s.previewWork, s.previewRollback, s.previewConfirmed, rfl, hl⟩
  case during w r hs hw hr hf hk =>
    obtain ⟨p', w', r', he, hp⟩ := rollbackPreviews_ok (s := s) (r := r) (p := s.previews) hf
    rw [previewing_self hw hr] at he
    rw [if_neg (by simp [hs]), if_neg (by simpa using hd)]
    exact ⟨p', some w', some r', true, attempt_ok he, fun name => (hp name).trans (hk name)⟩

structure Undo (db : δ) (old : Roots α) (kept : String → Option α) (s : State α δ) : Prop where
  running  : s.keepServicesStopped = false
  database : Renamed db s
  storage  : Swapped old s
  previews : Fetched kept s

theorem Swapped.congr (h : Swapped old s) (hc : s'.storageCutover = s.storageCutover)
    (hl : s'.live = s.live) (hw : s'.work = s.work) (hr : s'.rollback = s.rollback) : Swapped old s' := by
  cases h
  case before h₁ h₂       => exact .before (hc.trans h₁) (hl.trans h₂)
  case during h₁ h₂ h₃ h₄ => exact .during (hc.trans h₁) (hw.trans h₂) (hr.trans h₃) (hl ▸ h₄)

theorem Fetched.congr (h : Fetched kept s) (hc : s'.previewCutover = s.previewCutover)
    (hp : s'.previews = s.previews) (hw : s'.previewWork = s.previewWork)
    (hr : s'.previewRollback = s.previewRollback) : Fetched kept s' := by
  cases h
  case before h₁ h₂          => exact .before (hc.trans h₁) (hp ▸ h₂)
  case during h₁ h₂ h₃ h₄ h₅ => exact .during (hc.trans h₁) (hw.trans h₂) (hr.trans h₃) h₄ h₅

theorem cleanup_ok (h : Undo db old kept s) :
    (cleanup s).keepServicesStopped = false ∧ (cleanup s).target = some db ∧ (cleanup s).live = old ∧
      ∀ name, (cleanup s).previews.lookup name = kept name := by
  obtain ⟨p, sc, d, h₁, hd⟩ := cleanupDatabase_ok h.database
  have storage : Swapped old (cleanupDatabase s) := by
    rw [h₁]; exact h.storage.congr rfl rfl rfl rfl
  obtain ⟨w, r, c, h₂⟩ := cleanupStorage_ok (by rw [h₁]; exact hd) storage
  have previews : Fetched kept (cleanupStorage (cleanupDatabase s)) := by
    rw [h₂, h₁]; exact h.previews.congr rfl rfl rfl rfl
  obtain ⟨ps, w, r, c, h₃, hp⟩ := cleanupPreviews_ok (by rw [h₂, h₁]; exact hd) previews
  rw [cleanup, h₃, h₂, h₁]
  exact ⟨h.running, rfl, rfl, hp⟩

end Cleanup

end State
end MyDrive.Restore
