import MyDrive.Restore.Theorems.Rollback

namespace MyDrive.Restore

variable {α δ : Type}

section

variable {β γ ι : Type} {f : γ → β → γ × Bool} {c post mid : γ → Prop} {xs ys : List β} {s s' : γ}

theorem each_map {g : ι → β} {zs : List ι} :
    each f (zs.map g) s = each (fun s z => f s (g z)) zs s := by
  induction zs generalizing s
  case nil          => rfl
  case cons z zs ih => simp only [List.map_cons, each, ih]

-- Wherever the commands are cut off the state is in `crash`, and once they are all done in `post`.
structure Runs (f : γ → β → γ × Bool) (crash : γ → Prop) (xs : List β) (s : γ) (post : γ → Prop) :
    Prop where
  crashed : ∀ n, crash (each f (xs.take n) s).1
  done    : ∃ s', each f xs s = (s', true) ∧ post s'

namespace Runs

theorem nil (hc : c s) (hp : post s) : Runs f c [] s post where
  crashed _ := by simpa [each] using hc
  done      := ⟨s, rfl, hp⟩

theorem cons {x : β} (hc : c s) (hx : f s x = (s', true)) (h : Runs f c xs s' post) :
    Runs f c (x :: xs) s post where
  crashed n := by
    cases n
    case zero   => exact hc
    case succ n => simpa [each, hx] using h.crashed n
  done := by simpa [each, hx] using h.done

theorem append (h : Runs f c xs s mid) (h' : ∀ s, mid s → Runs f c ys s post) :
    Runs f c (xs ++ ys) s post where
  crashed n := by
    obtain ⟨s', he, hm⟩ := h.done
    rw [each_take_append he]
    split
    case isTrue  => exact h.crashed n
    case isFalse => exact (h' s' hm).crashed _
  done := by
    obtain ⟨s', he, hm⟩ := h.done
    rw [each_append he]
    exact (h' s' hm).done

theorem map {g : ι → β} {zs : List ι} (h : Runs (fun s z => f s (g z)) c zs s post) :
    Runs f c (zs.map g) s post where
  crashed n := by rw [← List.map_take, each_map]; exact h.crashed n
  done      := by rw [each_map]; exact h.done

theorem weaken (h : Runs f c xs s mid) (hp : ∀ s, mid s → post s) : Runs f c xs s post := by
  obtain ⟨s', he, hm⟩ := h.done
  exact ⟨h.crashed, s', he, hp s' hm⟩

theorem round {I : γ → Prop} {P Q : β → γ → Prop}
    (round : ∀ s, ∀ x ∈ xs, I s → P x s → ∃ s', f s x = (s', true) ∧ I s' ∧ Q x s' ∧
      ∀ y ≠ x, (P y s → P y s') ∧ (Q y s → Q y s'))
    (nodup : xs.Nodup) (hI : I s) (hP : ∀ x, P x s)
    (hc : ∀ s, I s → (∀ x, P x s ∨ Q x s) → c s) :
    Runs f c xs s fun s => I s ∧ (∀ x ∈ xs, Q x s) ∧ ∀ x ∉ xs, P x s where
  crashed n := by
    obtain ⟨s', he, hI, hQ, frame⟩ := each_round (l := xs.take n)
      (fun s x hx => round s x (List.mem_of_mem_take hx)) (nodup.sublist (List.take_sublist n xs)) hI
      fun x _ => hP x
    rw [he]
    apply hc s' hI
    intro x
    by_cases hx : x ∈ xs.take n
    case pos => exact .inr (hQ x hx)
    case neg => exact .inl ((frame x hx).left (hP x))
  done := by
    obtain ⟨s', he, hI, hQ, frame⟩ := each_round round nodup hI fun x _ => hP x
    exact ⟨s', he, hI, hQ, fun x hx => (frame x hx).left (hP x)⟩

end Runs
end

namespace State

variable {s s' : State α δ} {b : Backup α δ} {db : δ} {old : Roots α} {previews : Previews α}

-- What holds up to the cutover of the previews, whatever happens to the storage.
structure Ready (db : δ) (previews : Previews α) (s : State α δ) : Prop where
  target          : s.target = some db
  previous        : s.previous = none
  previews        : s.previews = previews
  previewCutover  : s.previewCutover = false
  databaseCutover : s.databaseCutover = false
  running         : s.keepServicesStopped = false

theorem Ready.undo (h : Ready db previews s) (hs : Swapped old s) : Undo db old previews.lookup s where
  running  := h.running
  database := .before h.target h.previous
  storage  := hs
  previews := .before h.previewCutover (by simp [h.previews])

-- The storage of the backup is unpacked.
structure Unpacked (w : Work α) : Prop where
  stage  : ∀ c, (w.stage c).isSome
  failed : ∀ c, w.failed c = none

structure UnpackedPreviews (b : Backup α δ) (w : PreviewWork α) : Prop where
  stage  : ∀ name, w.stage.lookup name = b.previews.lookup name
  failed : ∀ name, w.failed.lookup name = none

section Preparation

variable {w : Work α} {v : PreviewWork α}

theorem extract_runs (h : Ready db previews s) (hs : s.storageCutover = false) (hl : s.live = old)
    (hw : s.work = some w) (hf : ∀ c, w.failed c = none) :
    Runs (exec b) (Undo db old previews.lookup) (children.map .extract) s
      fun s' => ∃ w, s' = { s with work := some w } ∧ Unpacked w := by
  have loop := Runs.round (f := fun s c => exec b s (.extract c)) (s := s)
    (c := Undo db old previews.lookup)
    (I := fun s' => ∃ w, s' = { s with work := some w } ∧ ∀ c, w.failed c = none)
    (P := fun _ _ => True) (Q := fun c s' => ∃ w, s'.work = some w ∧ (w.stage c).isSome)
    ?round nodup_children ⟨w, by rw [← hw], hf⟩ (fun _ => trivial) ?crash
  case round =>
    rintro s' c - ⟨w, rfl, hf⟩ -
    refine ⟨_, rfl, ⟨_, rfl, hf⟩, ⟨_, rfl, by simp⟩, ?_⟩
    intro c' hn
    refine ⟨id, ?_⟩
    rintro ⟨_, ⟨⟩, hc⟩
    exact ⟨_, rfl, by simpa [hn] using hc⟩
  case crash =>
    rintro s' ⟨w, rfl, -⟩ -
    exact Ready.undo { h with } (.before hs hl)
  apply (Runs.map loop).weaken
  rintro s' ⟨⟨w, rfl, hf⟩, hQ, -⟩
  refine ⟨w, rfl, ?_, hf⟩
  intro c
  obtain ⟨_, ⟨⟩, hc⟩ := hQ c (mem_children c)
  exact hc

theorem extractPreview_ok {name : String} {a : α} (ha : b.previews.lookup name = some a) :
    exec b { s with previewWork := some v } (.extractPreview name) =
      ({ s with previewWork := some { v with stage := v.stage.set name a } }, true) := by
  simp [exec, moved, ha]

theorem extractPreview_runs (h : Ready db previews s) (hs : s.storageCutover = false)
    (hl : s.live = old) (hw : s.previewWork = some v) (he : ∀ name, v.stage.lookup name = none)
    (hf : ∀ name, v.failed.lookup name = none) :
    Runs (exec b) (Undo db old previews.lookup) (b.previews.keys.map .extractPreview) s
      fun s' => ∃ w, s' = { s with previewWork := some w } ∧ UnpackedPreviews b w := by
  have loop := Runs.round (f := fun s name => exec b s (.extractPreview name)) (s := s)
    (c := Undo db old previews.lookup)
    (I := fun s' => ∃ w, s' = { s with previewWork := some w } ∧ ∀ name, w.failed.lookup name = none)
    (P := fun name s' => ∃ w, s'.previewWork = some w ∧ w.stage.lookup name = none)
    (Q := fun name s' => ∃ w, s'.previewWork = some w ∧ w.stage.lookup name = b.previews.lookup name)
    ?round b.previews.nodup ⟨v, by rw [← hw], hf⟩ (fun name => ⟨v, hw, he name⟩) ?crash
  case round =>
    rintro s' name hn ⟨w, rfl, hf⟩ -
    obtain ⟨a, ha⟩ := mem_keys.mp hn
    refine ⟨_, extractPreview_ok ha, ⟨_, rfl, hf⟩, ⟨_, rfl, by simp [ha]⟩, ?_⟩
    intro name' hn
    constructor <;>
    · rintro ⟨_, ⟨⟩, hp⟩
      exact ⟨_, rfl, by simpa [hn] using hp⟩
  case crash =>
    rintro s' ⟨w, rfl, -⟩ -
    exact Ready.undo { h with } (.before hs hl)
  apply (Runs.map loop).weaken
  rintro s' ⟨⟨w, rfl, hf⟩, hQ, hP⟩
  refine ⟨w, rfl, ?_, hf⟩
  intro name
  by_cases hn : name ∈ b.previews.keys
  case pos =>
    obtain ⟨_, ⟨⟩, hp⟩ := hQ name hn
    exact hp
  case neg =>
    obtain ⟨_, ⟨⟩, hp⟩ := hP name hn
    exact hp.trans (lookup_of_not_mem_keys hn).symm

end Preparation

section Storage

variable {w : Work α} {r : Roots α}

theorem Ready.storing (h : Ready db previews s) {live : Roots α} :
    Ready db previews (s.storing live w r) :=
  { h with }

theorem moveOut_runs (h : Ready db previews s) (hs : s.storageCutover) (hl : s.live = old)
    (hr : s.rollback = some fun _ => none) (he : s.work = some w) (hw : Unpacked w) :
    Runs (exec b) (Undo db old previews.lookup) (children.map .moveOut) s
      fun s' => s' = s.storing (fun _ => none) w old := by
  rw [← storing_self he hr, hl]
  have loop := Runs.round (f := fun s c => exec b s (.moveOut c)) (s := s.storing old w fun _ => none)
    (c := Undo db old previews.lookup) (I := fun s' => ∃ live r, s' = s.storing live w r)
    (P := fun c s' => s'.live c = old c ∧ ∃ r, s'.rollback = some r ∧ r c = none)
    (Q := fun c s' => s'.live c = none ∧ ∃ r, s'.rollback = some r ∧ r c = old c)
    ?round nodup_children ⟨_, _, rfl⟩ (fun c => ⟨rfl, _, rfl, rfl⟩) ?crash
  case round =>
    rintro s' c - ⟨live, r, rfl⟩ ⟨hl, _, ⟨⟩, hr⟩
    obtain ⟨live', r', he, hl', hr', rest⟩ := moveOut_ok (b := b) (s := s) (w := w) (l := live) hr
    refine ⟨_, he, ⟨_, _, rfl⟩, ⟨hl', _, rfl, hr'.trans hl⟩, ?_⟩
    intro c' hn
    obtain ⟨hl', hr'⟩ := rest c' hn
    constructor <;>
    · rintro ⟨hl, _, ⟨⟩, hr⟩
      exact ⟨hl'.trans hl, _, rfl, hr'.trans hr⟩
  case crash =>
    rintro s' ⟨live, r, rfl⟩ hc
    apply h.storing.undo (.during hs rfl rfl _)
    intro c
    refine ⟨?_, hw.failed c⟩
    obtain ⟨hl, _, ⟨⟩, hr⟩ | ⟨hl, _, ⟨⟩, hr⟩ := hc c
    case inl => exact .before hl hr (hw.stage c)
    case inr => exact .between hl hr
  apply (Runs.map loop).weaken
  rintro s' ⟨⟨live, r, rfl⟩, hQ, -⟩
  have hl : live = fun _ => none := funext fun c => (hQ c (mem_children c)).left
  have hr : r = old := by
    funext c
    obtain ⟨-, _, ⟨⟩, hr⟩ := hQ c (mem_children c)
    exact hr
  rw [hl, hr]
  rfl

theorem moveIn_runs (h : Ready db previews s) (hs : s.storageCutover) (hw : Unpacked w) :
    Runs (exec b) (Undo db old previews.lookup) (children.map .moveIn)
      (s.storing (fun _ => none) w old)
      fun s' => ∃ live w, s' = s.storing live w old ∧ Swapped old s' := by
  have loop := Runs.round (f := fun s c => exec b s (.moveIn c)) (s := s.storing (fun _ => none) w old)
    (c := Undo db old previews.lookup)
    (I := fun s' => ∃ live w, s' = s.storing live w old ∧ ∀ c, w.failed c = none)
    (P := fun c s' => s'.live c = none ∧ ∃ w, s'.work = some w ∧ (w.stage c).isSome)
    (Q := fun c s' => ∃ w, s'.work = some w ∧ w.stage c = none)
    ?round nodup_children ⟨_, _, rfl, hw.failed⟩ (fun c => ⟨rfl, _, rfl, hw.stage c⟩) ?crash
  case round =>
    rintro s' c - ⟨live, w, rfl, hf⟩ ⟨hl, _, ⟨⟩, hd⟩
    obtain ⟨d, hd⟩ := Option.isSome_iff_exists.mp hd
    refine ⟨_, moveIn_ok hd hl, ⟨_, _, rfl, hf⟩, ⟨_, rfl, by simp⟩, ?_⟩
    intro c' hn
    constructor
    case left =>
      rintro ⟨hl, _, ⟨⟩, hd⟩
      exact ⟨by simpa [State.storing, hn] using hl, _, rfl, by simpa [hn] using hd⟩
    case right =>
      rintro ⟨_, ⟨⟩, hd⟩
      exact ⟨_, rfl, by simpa [hn] using hd⟩
  case crash =>
    rintro s' ⟨live, w, rfl, hf⟩ hc
    apply h.storing.undo (.during hs rfl rfl _)
    intro c
    refine ⟨?_, hf c⟩
    obtain ⟨hl, -⟩ | ⟨_, ⟨⟩, hd⟩ := hc c
    case inl => exact .between hl rfl
    case inr => exact .after rfl hd
  apply (Runs.map loop).weaken
  rintro s' ⟨⟨live, w, rfl, hf⟩, hQ, -⟩
  refine ⟨live, w, rfl, .during hs rfl rfl ?_⟩
  intro c
  obtain ⟨_, ⟨⟩, hd⟩ := hQ c (mem_children c)
  exact ⟨.after rfl hd, hf c⟩

end Storage

-- The state in which the cutover of the previews begins.
structure Opened (db : δ) (old : Roots α) (previews : Previews α) (b : Backup α δ) (s : State α δ) :
    Prop where
  ready           : Ready db previews s
  storage         : Swapped old s
  scratch         : s.scratch = some b.database
  previewWork     : ∃ w, s.previewWork = some w ∧ UnpackedPreviews b w
  previewRollback : s.previewRollback = some .empty

theorem opening_runs :
    Runs (exec b) (Undo db old previews.lookup) (opening b) (stopped db old previews)
      (Opened db old previews b) := by
  have start (s : State α δ) (h : Ready db previews s) (hs : s.storageCutover = false)
      (hl : s.live = old) : Undo db old previews.lookup s :=
    h.undo (.before hs hl)
  simp only [opening, List.append_assoc, List.cons_append, List.nil_append]
  refine .cons (start _ ⟨rfl, rfl, rfl, rfl, rfl, rfl⟩ rfl rfl) rfl ?_
  refine .cons (start _ ⟨rfl, rfl, rfl, rfl, rfl, rfl⟩ rfl rfl) rfl ?_
  refine .cons (start _ ⟨rfl, rfl, rfl, rfl, rfl, rfl⟩ rfl rfl) rfl ?_
  refine .cons (start _ ⟨rfl, rfl, rfl, rfl, rfl, rfl⟩ rfl rfl) rfl ?_
  refine .append (extract_runs ⟨rfl, rfl, rfl, rfl, rfl, rfl⟩ rfl rfl rfl fun _ => rfl) ?_
  rintro _ ⟨w, rfl, hw⟩
  refine .cons (start _ ⟨rfl, rfl, rfl, rfl, rfl, rfl⟩ rfl rfl) rfl ?_
  refine .append
    (extractPreview_runs ⟨rfl, rfl, rfl, rfl, rfl, rfl⟩ rfl rfl rfl (fun _ => rfl) fun _ => rfl) ?_
  rintro _ ⟨v, rfl, hv⟩
  refine .cons (start _ ⟨rfl, rfl, rfl, rfl, rfl, rfl⟩ rfl rfl) rfl ?_
  refine .cons (start _ ⟨rfl, rfl, rfl, rfl, rfl, rfl⟩ rfl rfl) rfl ?_
  refine .append (moveOut_runs ⟨rfl, rfl, rfl, rfl, rfl, rfl⟩ rfl rfl rfl rfl hw) ?_
  rintro _ rfl
  refine .append (moveIn_runs ⟨rfl, rfl, rfl, rfl, rfl, rfl⟩ rfl hw) ?_
  rintro _ ⟨live, w, rfl, hs⟩
  refine .cons (Ready.undo ⟨rfl, rfl, rfl, rfl, rfl, rfl⟩ hs) rfl (.nil ?_ ?_)
  case refine_1 => exact Ready.undo ⟨rfl, rfl, rfl, rfl, rfl, rfl⟩ (hs.congr rfl rfl rfl rfl)
  case refine_2 =>
    exact ⟨⟨rfl, rfl, rfl, rfl, rfl, rfl⟩, hs.congr rfl rfl rfl rfl, rfl, ⟨v, rfl, hv⟩, rfl⟩

section Previews

variable {v : PreviewWork α} {k : Nat}

-- What holds from the cutover of the previews on.
structure Closing (db : δ) (old : Roots α) (b : Backup α δ) (s : State α δ) : Prop where
  target          : s.target = some db
  previous        : s.previous = none
  scratch         : s.scratch = some b.database
  storage         : Swapped old s
  previewCutover  : s.previewCutover
  running         : s.keepServicesStopped = false

theorem Closing.previewing {p r : Previews α} (h : Closing db old b s) :
    Closing db old b (s.previewing p v r) :=
  { h with storage := h.storage.congr rfl rfl rfl rfl }

theorem Closing.undo {kept : String → Option α} (h : Closing db old b s) (hs : Fetched kept s) :
    Undo db old kept s where
  running  := h.running
  database := .before h.target h.previous
  storage  := h.storage
  previews := hs

theorem previewOut_ok {p r : Previews α} {name : String} {a : α} (ha : p.lookup name = some a)
    (hr : r.lookup name = none) :
    exec b (s.previewing p v r) (.previewOut name) =
      (s.previewing (p.erase name) v (r.set name a), true) := by
  simp [exec, State.previewing, moved, previews_mv_ok ha hr]

theorem previewIn_ok {p r : Previews α} {name : String} {a : α} (ha : v.stage.lookup name = some a)
    (hp : p.lookup name = none) :
    exec b (s.previewing p v r) (.previewIn name) =
      (s.previewing (p.set name a) { v with stage := v.stage.erase name } r, true) := by
  simp [exec, State.previewing, moved, previews_mv_ok ha hp]

-- Some of the previews are moved out.
theorem previewOut_each {l : List String} (nodup : l.Nodup) (hl : l ⊆ previews.keys) :
    ∃ p r, each (fun s name => exec b s (.previewOut name)) l (s.previewing previews v .empty) =
        (s.previewing p v r, true) ∧
      (∀ name ∈ l, p.lookup name = none ∧ r.lookup name = previews.lookup name) ∧
      ∀ name ∉ l, p.lookup name = previews.lookup name ∧ r.lookup name = none := by
  have loop := each_round (f := fun s name => exec b s (.previewOut name)) (l := l)
    (s := s.previewing previews v .empty) (I := fun s' => ∃ p r, s' = s.previewing p v r)
    (P := fun name s' => s'.previews.lookup name = previews.lookup name ∧
      ∃ r, s'.previewRollback = some r ∧ r.lookup name = none)
    (Q := fun name s' => s'.previews.lookup name = none ∧
      ∃ r, s'.previewRollback = some r ∧ r.lookup name = previews.lookup name)
    ?round nodup ⟨_, _, rfl⟩ fun name _ => ⟨rfl, _, rfl, rfl⟩
  case round =>
    rintro s' name hn ⟨p, r, rfl⟩ ⟨hp, _, ⟨⟩, hr⟩
    obtain ⟨a, ha⟩ := mem_keys.mp (hl hn)
    refine ⟨_, previewOut_ok (hp.trans ha) hr, ⟨_, _, rfl⟩, ?_, ?_⟩
    case refine_1 => exact ⟨by simp [State.previewing], _, rfl, by simp [ha]⟩
    case refine_2 =>
      intro name' hn
      constructor <;>
      · rintro ⟨hp, _, ⟨⟩, hr⟩
        exact ⟨by simpa [State.previewing, hn] using hp, _, rfl, by simpa [hn] using hr⟩
  obtain ⟨s', he, ⟨p, r, rfl⟩, hQ, hP⟩ := loop
  refine ⟨p, r, he, ?_, ?_⟩
  case refine_1 =>
    intro name hn
    obtain ⟨hp, _, ⟨⟩, hr⟩ := hQ name hn
    exact ⟨hp, hr⟩
  case refine_2 =>
    intro name hn
    obtain ⟨hp, _, ⟨⟩, hr⟩ := (hP name hn).left ⟨rfl, _, rfl, rfl⟩
    exact ⟨hp, hr⟩

theorem previewIn_runs {p r : Previews α} (h : Closing db old b s) (hv : UnpackedPreviews b v)
    (hp : ∀ name, p.lookup name = none) :
    Runs (exec b) (Undo db old r.lookup) (b.previews.keys.map .previewIn) (s.previewing p v r)
      fun s' => ∃ p v, s' = s.previewing p v r ∧ ∀ name, v.failed.lookup name = none := by
  have loop := Runs.round (f := fun s name => exec b s (.previewIn name)) (s := s.previewing p v r)
    (c := Undo db old r.lookup)
    (I := fun s' => ∃ p v, s' = s.previewing p v r ∧ ∀ name, v.failed.lookup name = none)
    (P := fun name s' => s'.previews.lookup name = none ∧
      ∃ v, s'.previewWork = some v ∧ v.stage.lookup name = b.previews.lookup name)
    (Q := fun _ _ => True)
    ?round b.previews.nodup ⟨_, _, rfl, hv.failed⟩ (fun name => ⟨hp name, _, rfl, hv.stage name⟩) ?crash
  case round =>
    rintro s' name hn ⟨p, v, rfl, hf⟩ ⟨hp, _, ⟨⟩, hs⟩
    obtain ⟨a, ha⟩ := mem_keys.mp hn
    refine ⟨_, previewIn_ok (hs.trans ha) hp, ⟨_, _, rfl, hf⟩, trivial, ?_⟩
    intro name' hn
    refine ⟨?_, id⟩
    rintro ⟨hp, _, ⟨⟩, hs⟩
    exact ⟨by simpa [State.previewing, hn] using hp, _, rfl, by simpa [hn] using hs⟩
  case crash =>
    rintro s' ⟨p, v, rfl, hf⟩ -
    exact h.previewing.undo (.during h.previewCutover rfl rfl hf fun _ => rfl)
  exact (Runs.map loop).weaken fun s' h => h.left

theorem renameTarget_ok (ht : s.target = some db) (hp : s.previous = none) :
    exec b s .renameTarget = ({ s with target := none, previous := some db }, true) := by
  simp [exec, ht, hp]

theorem renameScratch_ok {d : δ} (hs : s.scratch = some d) (ht : s.target = none) :
    exec b s .renameScratch = ({ s with scratch := none, target := some d }, true) := by
  simp [exec, hs, ht]

theorem renames_runs {p r : Previews α} (h : Closing db old b s)
    (hf : ∀ name, v.failed.lookup name = none) :
    Runs (exec b) (Undo db old r.lookup) [.setDatabaseCutover, .renameTarget, .renameScratch]
      (s.previewing p v r) fun _ => True := by
  have hs {t : State α δ} (hc : t.storageCutover = s.storageCutover) (hl : t.live = s.live)
      (hw : t.work = s.work) (hr : t.rollback = s.rollback) : Swapped old t :=
    h.storage.congr hc hl hw hr
  refine .cons ⟨h.running, .before h.target h.previous, hs rfl rfl rfl rfl, ?_⟩ rfl ?_
  case refine_1 => exact .during h.previewCutover rfl rfl hf fun _ => rfl
  refine .cons ⟨h.running, .before h.target h.previous, hs rfl rfl rfl rfl, ?_⟩
    (renameTarget_ok h.target h.previous) ?_
  case refine_1 => exact .during h.previewCutover rfl rfl hf fun _ => rfl
  refine .cons ⟨h.running, .between rfl rfl rfl, hs rfl rfl rfl rfl, ?_⟩
    (renameScratch_ok h.scratch rfl) ?_
  case refine_1 => exact .during h.previewCutover rfl rfl hf fun _ => rfl
  refine .nil ⟨h.running, .after rfl rfl rfl rfl, hs rfl rfl rfl rfl, ?_⟩ trivial
  exact .during h.previewCutover rfl rfl hf fun _ => rfl

-- What is in the data root when `k` previews are moved out is all that `cleanup` would bring back.
def movedOut (previews : Previews α) (k : Nat) (name : String) : Option α :=
  if name ∈ previews.keys.take k then previews.lookup name else none

theorem movedOut_all (hk : previews.keys.length ≤ k) : movedOut previews k = previews.lookup := by
  funext name
  rw [movedOut, List.take_of_length_le hk]
  split
  case isTrue     => rfl
  case isFalse hn => exact (lookup_of_not_mem_keys hn).symm

-- What follows the loop that moves the previews out.
def closing (b : Backup α δ) : List Command :=
  b.previews.keys.map .previewIn ++ [.setDatabaseCutover, .renameTarget, .renameScratch]

theorem closing_runs {p r : Previews α} (h : Closing db old b s) (hv : UnpackedPreviews b v)
    (hp : ∀ name, p.lookup name = none) :
    Runs (exec b) (Undo db old r.lookup) (closing b) (s.previewing p v r) fun _ => True := by
  apply (previewIn_runs h hv hp).append
  rintro _ ⟨p, v, rfl, hf⟩
  exact renames_runs h hf

theorem cutover_undo (h : Closing db old b s) (hv : UnpackedPreviews b v) (k : Nat) :
    Undo db old (movedOut previews k)
      (each (exec b) ((previews.keys.map Command.previewOut ++ closing b).take k)
        (s.previewing previews v .empty)).1 := by
  obtain ⟨p, r, he, hm, hn⟩ := previewOut_each (b := b) (s := s) (v := v) (l := previews.keys)
    previews.nodup (List.Subset.refl _)
  rw [← each_map] at he
  rw [each_take_append he, List.length_map]
  split
  case isTrue hk =>
    obtain ⟨p, r, he, hm, hn⟩ := previewOut_each (b := b) (s := s) (v := v)
      (l := previews.keys.take k) (previews.nodup.sublist (List.take_sublist _ _)) (List.take_subset _ _)
    rw [← List.map_take, each_map, he]
    apply h.previewing.undo (.during h.previewCutover rfl rfl hv.failed _)
    intro name
    rw [movedOut]
    split
    case isTrue hc  => exact (hm name hc).right
    case isFalse hc => exact (hn name hc).right
  case isFalse hk =>
    have hr : r.lookup = previews.lookup := by
      funext name
      by_cases hc : name ∈ previews.keys
      case pos => exact (hm name hc).right
      case neg => rw [(hn name hc).right, lookup_of_not_mem_keys hc]
    have hp (name : String) : p.lookup name = none := by
      by_cases hc : name ∈ previews.keys
      case pos => exact (hm name hc).left
      case neg => rw [(hn name hc).left, lookup_of_not_mem_keys hc]
    rw [movedOut_all (Nat.le_of_not_le hk), ← hr]
    exact (closing_runs h hv hp).crashed _

end Previews

section

variable (db : δ) (old : Roots α) (previews : Previews α) (b : Backup α δ) (n : Nat)

theorem script_stopped :
    script (stopped db old previews) b =
      opening b ++ .setPreviewCutover :: (previews.keys.map .previewOut ++ closing b) := by
  simp [script, stopped, closing]

theorem interrupted_before (hn : n ≤ (opening b).length) :
    Undo db old previews.lookup (interrupted (stopped db old previews) b n) := by
  rw [interrupted, script_stopped, List.take_append_of_le_length hn]
  exact opening_runs.crashed n

theorem interrupted_after (hn : (opening b).length < n) :
    Undo db old (movedOut previews (n - (opening b).length - 1))
      (interrupted (stopped db old previews) b n) := by
  obtain ⟨s, he, h⟩ : ∃ s, each (exec b) (opening b) (stopped db old previews) = (s, true) ∧
      Opened db old previews b s := opening_runs.done
  obtain ⟨k, hk⟩ := Nat.exists_eq_add_of_lt hn
  obtain ⟨v, hw, hv⟩ := h.previewWork
  rw [interrupted, script_stopped, each_take_append he, if_neg (Nat.not_le_of_lt hn)]
  have closing : Closing db old b { s with previewCutover := true } :=
    { h.ready with
      scratch := h.scratch, storage := h.storage.congr rfl rfl rfl rfl, previewCutover := rfl }
  have same : ({ s with previewCutover := true } : State α δ) =
      State.previewing { s with previewCutover := true } previews v .empty := by
    rw [State.previewing, ← h.ready.previews, ← hw, ← h.previewRollback]
  have hk : n - (opening b).length = k + 1 := by omega
  rw [hk, List.take_succ_cons, each]
  simp only [exec, Nat.add_sub_cancel]
  rw [same]
  exact cutover_undo closing hv k

-- The three live resources are the ones that were there before.
def Restored (s : State α δ) : Prop :=
  s.target = some db ∧ s.live = old ∧ ∀ name, s.previews.lookup name = previews.lookup name

-- A preview that is not yet moved out is thrown away.
theorem movedOut_of_lt (k : Nat) (hk : k < previews.rows.length) :
    ∃ name, movedOut previews k name ≠ previews.lookup name := by
  have hk : k < previews.keys.length := by simpa [Table.keys] using hk
  obtain ⟨a, ha⟩ := mem_keys.mp (List.getElem_mem hk)
  have notMem : previews.keys[k] ∉ previews.keys.take k := by
    intro hm
    obtain ⟨i, hi, he⟩ := List.mem_take_iff_getElem.mp hm
    have := (previews.nodup.getElem_inj_iff).mp he
    omega
  exact ⟨previews.keys[k], by simp [movedOut, notMem, ha]⟩

theorem rollback_restores :
    (cleanup (interrupted (stopped db old previews) b n)).keepServicesStopped = false ∧
    (Restored db old previews (cleanup (interrupted (stopped db old previews) b n)) ↔
      n ≤ (opening b).length ∨ (opening b).length + 1 + previews.rows.length ≤ n) := by
  by_cases hn : n ≤ (opening b).length
  case pos =>
    obtain ⟨hr, ht, hl, hp⟩ := cleanup_ok (interrupted_before db old previews b n hn)
    exact ⟨hr, by simp [hn, Restored, ht, hl, hp]⟩
  case neg =>
    obtain ⟨hr, ht, hl, hp⟩ := cleanup_ok (interrupted_after db old previews b n (by omega))
    refine ⟨hr, ?_⟩
    simp only [Restored, ht, hl, hp, true_and, hn, false_or]
    constructor
    case mp =>
      intro h
      by_contra hk
      obtain ⟨name, hname⟩ := movedOut_of_lt previews (n - (opening b).length - 1) (by omega)
      exact hname (h name)
    case mpr =>
      intro hk name
      rw [movedOut_all]
      rw [Table.keys, List.length_map]
      omega

end

-- One preview, and a backup without any.
def smallBackup : Backup String Nat where
  blank    := 1
  database := 2
  storage  := fun _ => "new"
  previews := .empty

def onePreview : State String Nat :=
  stopped 0 (fun _ => some ⟨"old", []⟩) (Table.empty.set "a" "thumbnail")

-- A signal right after `preview_cutover_started=1`: every rollback succeeds, and the preview that the
-- script has not yet moved out is in none of the directories any more.
theorem rollback_deletes_preview :
    (cleanup (onePreview.interrupted smallBackup 21)).keepServicesStopped = false ∧
    (cleanup (onePreview.interrupted smallBackup 21)).previews.rows = [] ∧
    (cleanup (onePreview.interrupted smallBackup 21)).previewRollback.map Table.rows = some [] ∧
    (cleanup (onePreview.interrupted smallBackup 21)).previewWork.isNone ∧
    ¬Restored 0 (fun _ => some ⟨"old", []⟩) (Table.empty.set "a" "thumbnail")
      (cleanup (onePreview.interrupted smallBackup 21)) := by
  refine ⟨by decide +kernel, by decide +kernel, by decide +kernel, by decide +kernel, ?_⟩
  rintro ⟨-, -, hp⟩
  exact absurd (hp "a") (by decide +kernel)

end State
end MyDrive.Restore
