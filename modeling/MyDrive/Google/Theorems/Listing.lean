import MyDrive.Google.Listing
import MyDrive.Library.Execution
import MyDrive.Library.Sum

open Execution

namespace MyDrive.Google.Listing

-- The target has been recorded for a run of the account, where a folder is in the queue of the run and
-- has its local folder.
def Remembered (t : Tables) (run owner : Id) : Target → Prop
  | .folder id => (∃ q, t.queue.lookup (run, id) = some q) ∧ ∃ entry, t.linkedFolder owner id = some entry
  | .file id _ => ∃ i, t.items.lookup (run, id) = some i

namespace Tables

variable {t t' t'' : Tables} {remote : Id → Remote} {page : ListPage} {parent : Id}
  {file : RemoteFile} {name : Option String} {target : Target}

-- Recording a file again changes nothing.
theorem recordRemote_remembered (ht : file.target = some target)
    (h : Remembered t page.runId page.ownerId target) : t.recordRemote page parent file name = some t := by
  unfold recordRemote
  rw [ht]
  cases target
  case folder id =>
    obtain ⟨⟨q, hq⟩, entry, he⟩ := h
    simp [rememberFolder, ensureLinkedFolder, he, hq]
  case file id mime =>
    obtain ⟨i, hi⟩ := h
    simp [rememberFile, hi]

theorem recordRemote_none (ht : file.target = none) : t.recordRemote page parent file name = some t := by
  simp [recordRemote, ht]

-- What holds of the rows: the ids are new, the queue has folders of the account, the items have files.
structure Sound (remote : Id → Remote) (t : Tables) : Prop where
  entries {id e}     : t.entries.lookup id = some e → id < t.next
  runs {id r}        : t.runs.lookup id = some r → id < t.next
  links {k link}     : t.links.lookup k = some link → ∃ e, t.entries.lookup link.localEntryId = some e
  sources {id s}     : t.sources.lookup id = some s → s.googleFolderId ∈ (remote s.ownerId).folders
  queue {run id q}   : t.queue.lookup (run, id) = some q →
    ∃ r, t.runs.lookup run = some r ∧ id ∈ (remote r.ownerId).folders ∧ q.localFolderId.isSome
  items {run id i}   : t.items.lookup (run, id) = some i →
    ∃ r, t.runs.lookup run = some r ∧ ∃ mime, Listed (remote i.ownerId).list (.file id mime)

-- No row that somebody knows of goes away.
structure Grows (remote : Id → Remote) (t t' : Tables) : Prop where
  next           : t.next ≤ t'.next
  runs {id r}    : t.runs.lookup id = some r → ∃ r', t'.runs.lookup id = some r' ∧ r'.ownerId = r.ownerId
  queue {k q}    : t.queue.lookup k = some q → ∃ q', t'.queue.lookup k = some q'
  items {k i}    : t.items.lookup k = some i → ∃ i', t'.items.lookup k = some i'
  linked {owner id entry} : Listed (remote owner).list (.folder id) →
    t.linkedFolder owner id = some entry → t'.linkedFolder owner id = some entry

theorem Grows.refl : Grows remote t t where
  next          := Nat.le_refl _
  runs h        := ⟨_, h, rfl⟩
  queue h       := ⟨_, h⟩
  items h       := ⟨_, h⟩
  linked _ h    := h

theorem Grows.trans (h : Grows remote t t') (h' : Grows remote t' t'') : Grows remote t t'' where
  next := h.next.trans h'.next
  runs hr := by
    obtain ⟨r', hr', ho⟩ := h.runs hr
    obtain ⟨r'', hr'', ho'⟩ := h'.runs hr'
    exact ⟨r'', hr'', ho'.trans ho⟩
  queue hq := by
    obtain ⟨q', hq'⟩ := h.queue hq
    exact h'.queue hq'
  items hi := by
    obtain ⟨i', hi'⟩ := h.items hi
    exact h'.items hi'
  linked hl he := h'.linked hl (h.linked hl he)

theorem Grows.remembered {run owner : Id} (g : Grows remote t t')
    (hl : Listed (remote owner).list target) (h : Remembered t run owner target) :
    Remembered t' run owner target := by
  cases target
  case folder id =>
    obtain ⟨⟨q, hq⟩, entry, he⟩ := h
    exact ⟨g.queue hq, entry, g.linked hl he⟩
  case file id mime =>
    obtain ⟨i, hi⟩ := h
    exact g.items hi

-- The runs change, and keep their accounts.
section

variable {f : Id → Run → Run}

def mapRuns (t : Tables) (f : Id → Run → Run) : Tables :=
  { t with runs := t.runs.filterMap fun id r => some (f id r) }

theorem lookup_mapRuns {id : Id} : (t.mapRuns f).runs.lookup id = (t.runs.lookup id).map (f id) := by
  simp only [mapRuns, Table.lookup_filterMap]
  cases t.runs.lookup id <;> rfl

theorem Sound.mapRuns (h : Sound remote t) (hf : ∀ id r, (f id r).ownerId = r.ownerId) :
    Sound remote (t.mapRuns f) where
  entries := h.entries
  runs hr := by
    obtain ⟨r', hr', -⟩ := Option.map_eq_some_iff.mp (lookup_mapRuns.symm.trans hr)
    exact h.runs hr'
  links   := h.links
  sources := h.sources
  queue {run id q} hq := by
    obtain ⟨r, hr, hid, hl⟩ := h.queue hq
    exact ⟨f run r, by rw [lookup_mapRuns, hr]; rfl, by rw [hf]; exact hid, hl⟩
  items {run id i} hi := by
    obtain ⟨r, hr, rest⟩ := h.items hi
    exact ⟨f run r, by rw [lookup_mapRuns, hr]; rfl, rest⟩

theorem Grows.mapRuns (hf : ∀ id r, (f id r).ownerId = r.ownerId) : Grows remote t (t.mapRuns f) where
  next               := Nat.le_refl _
  runs {id r} hr     := ⟨f id r, by rw [lookup_mapRuns, hr]; rfl, hf id r⟩
  queue h            := ⟨_, h⟩
  items h            := ⟨_, h⟩
  linked _ h         := h

end

theorem linkedFolder_eq_some_iff {owner : Id} {id : String} {entry : Id} :
    t.linkedFolder owner id = some entry ↔ ∃ link e, t.links.lookup (owner, id) = some link ∧
      t.entries.lookup link.localEntryId = some e ∧ e.kind = .folder ∧ e.deletedAt = none ∧
      link.localEntryId = entry := by
  simp only [linkedFolder, Option.bind_eq_some_iff, Option.ite_none_right_eq_some, Bool.and_eq_true,
    decide_eq_true_eq, Option.some.injEq]
  constructor
  case mp =>
    rintro ⟨link, hl, e, he, ⟨hk, hd⟩, hid⟩
    exact ⟨link, e, hl, he, hk, hd, hid⟩
  case mpr =>
    rintro ⟨link, e, hl, he, hk, hd, hid⟩
    exact ⟨link, hl, e, he, ⟨hk, hd⟩, hid⟩

-- A new entry, of a file or of a folder.
section

variable {e : Drive.Entry}

theorem Sound.insertEntry (h : Sound remote t) :
    Sound remote (t.insertEntry e) where
  entries he := by
    simp only [Tables.insertEntry, Table.lookup_set] at he
    split at he
    case isTrue hx => exact hx ▸ Nat.lt_succ_self _
    case isFalse   => exact Nat.lt_succ_of_lt (h.entries he)
  runs hr  := Nat.lt_succ_of_lt (h.runs hr)
  links hl := by
    obtain ⟨e', he⟩ := h.links hl
    simp only [Tables.insertEntry, Table.lookup_set]
    split
    case isTrue  => exact ⟨e, rfl⟩
    case isFalse => exact ⟨e', he⟩
  sources  := h.sources
  queue    := h.queue
  items    := h.items

theorem Grows.insertEntry (h : Sound remote t) : Grows remote t (t.insertEntry e) where
  next         := Nat.le_succ _
  runs hr      := ⟨_, hr, rfl⟩
  queue hq     := ⟨_, hq⟩
  items hi     := ⟨_, hi⟩
  linked hl hx := by
    obtain ⟨link, e, hlink, he, rest⟩ := linkedFolder_eq_some_iff.mp hx
    refine linkedFolder_eq_some_iff.mpr ⟨link, e, hlink, ?_, rest⟩
    simp [Tables.insertEntry, Nat.ne_of_lt (h.entries he), he]

end

-- A link takes nothing from a folder that is listed and has its local folder.
section

variable {owner : Id} {id : String} {link : Link}

theorem Sound.setLink (h : Sound remote t) (he : ∃ e, t.entries.lookup link.localEntryId = some e) :
    Sound remote (t.setLink owner id link) where
  entries := h.entries
  runs    := h.runs
  links hl := by
    simp only [Tables.setLink, Table.lookup_set] at hl
    split at hl
    case isTrue  => cases hl; exact he
    case isFalse => exact h.links hl
  sources := h.sources
  queue   := h.queue
  items   := h.items

theorem Grows.setLink
    (hn : ∀ entry, t.linkedFolder owner id = some entry → ¬ Listed (remote owner).list (.folder id)) :
    Grows remote t (t.setLink owner id link) where
  next     := Nat.le_refl _
  runs hr  := ⟨_, hr, rfl⟩
  queue hq := ⟨_, hq⟩
  items hi := ⟨_, hi⟩
  linked {owner' id' entry} hl hx := by
    obtain ⟨link', e, hlink, rest⟩ := linkedFolder_eq_some_iff.mp hx
    have apart : (owner', id') ≠ (owner, id) := by
      intro he
      cases he
      exact hn entry hx hl
    exact linkedFolder_eq_some_iff.mpr ⟨link', e, by simp [Tables.setLink, apart, hlink], rest⟩

end

-- A new row of the queue or of the items, for a run that there is.
section

variable {run : Id} {id : String} {r : Run}

theorem Sound.insertQueue {q : QueueRow} (h : Sound remote t) (hr : t.runs.lookup run = some r)
    (hid : id ∈ (remote r.ownerId).folders) (hq : q.localFolderId.isSome) :
    Sound remote { t with queue := t.queue.set (run, id) q, next := t.next + 1 } where
  entries he  := Nat.lt_succ_of_lt (h.entries he)
  runs hr     := Nat.lt_succ_of_lt (h.runs hr)
  links       := h.links
  sources     := h.sources
  queue hq'   := by
    simp only [Table.lookup_set, Prod.mk.injEq] at hq'
    split at hq'
    case isTrue hk =>
      cases hq'
      obtain ⟨rfl, rfl⟩ := hk
      exact ⟨r, hr, hid, hq⟩
    case isFalse   => exact h.queue hq'
  items := h.items

theorem Grows.insertQueue {q : QueueRow} :
    Grows remote t { t with queue := t.queue.set (run, id) q, next := t.next + 1 } where
  next        := Nat.le_succ _
  runs hr     := ⟨_, hr, rfl⟩
  queue hq    := by
    simp only [Table.lookup_set]
    split
    case isTrue  => exact ⟨_, rfl⟩
    case isFalse => exact ⟨_, hq⟩
  items hi    := ⟨_, hi⟩
  linked _ hx := hx

theorem Sound.setItem {i : Item} {mime : String} (h : Sound remote t)
    (hr : t.runs.lookup run = some r) (hi : Listed (remote i.ownerId).list (.file id mime)) :
    Sound remote { t with items := t.items.set (run, id) i } where
  entries   := h.entries
  runs      := h.runs
  links     := h.links
  sources   := h.sources
  queue     := h.queue
  items hi' := by
    simp only [Table.lookup_set, Prod.mk.injEq] at hi'
    split at hi'
    case isTrue hk =>
      cases hi'
      obtain ⟨rfl, rfl⟩ := hk
      exact ⟨r, hr, mime, hi⟩
    case isFalse   => exact h.items hi'

theorem Grows.setItem {i : Item} : Grows remote t { t with items := t.items.set (run, id) i } where
  next        := Nat.le_refl _
  runs hr     := ⟨_, hr, rfl⟩
  queue hq    := ⟨_, hq⟩
  items hi    := by
    simp only [Table.lookup_set]
    split
    case isTrue  => exact ⟨_, rfl⟩
    case isFalse => exact ⟨_, hi⟩
  linked _ hx := hx

end

-- What a step may do to the rows.
structure Extends (remote : Id → Remote) (t t' : Tables) : Prop where
  sound : Sound remote t'
  grows : Grows remote t t'

theorem Extends.refl (h : Sound remote t) : Extends remote t t where
  sound := h
  grows := .refl

theorem Extends.mapRuns {f : Id → Run → Run} (h : Extends remote t t')
    (hf : ∀ id r, (f id r).ownerId = r.ownerId) : Extends remote t (t'.mapRuns f) where
  sound := h.sound.mapRuns hf
  grows := h.grows.trans (.mapRuns hf)

theorem extends_ensureLinkedFolder {owner : Id} {id : String} {parent : Option Id}
    {r : Tables × Id} (h : Sound remote t)
    (he : t.ensureLinkedFolder owner parent id name = some r) :
    Extends remote t r.1 ∧ r.1.linkedFolder owner id = some r.2 ∧ r.1.queue = t.queue ∧
      r.1.runs = t.runs ∧ r.1.items = t.items := by
  unfold ensureLinkedFolder at he
  split at he
  case h_1 entry hx =>
    cases he
    exact ⟨.refl h, hx, rfl, rfl, rfl⟩
  case h_2 hx =>
    obtain ⟨name, -, rfl⟩ := Option.map_eq_some_iff.mp he
    have entry : Sound remote (t.createChildFolder owner parent name).1 := h.insertEntry
    have grown : Grows remote t (t.createChildFolder owner parent name).1 := .insertEntry h
    have made : (t.createChildFolder owner parent name).1.entries.lookup t.next = some
        { ownerId := owner, parentId := parent, kind := .folder, name } := by
      simp [createChildFolder, Tables.insertEntry]
    -- The new entry is not the one of an old link.
    have missing : (t.createChildFolder owner parent name).1.linkedFolder owner id = none := by
      rw [Option.eq_none_iff_forall_ne_some]
      intro entry' hl
      obtain ⟨link, e, hlink, hentry, rest⟩ := linkedFolder_eq_some_iff.mp hl
      obtain ⟨e', he'⟩ := h.links hlink
      have : t.linkedFolder owner id = some entry' := by
        refine linkedFolder_eq_some_iff.mpr ⟨link, e, hlink, ?_, rest⟩
        simpa [createChildFolder, Tables.insertEntry, Nat.ne_of_lt (h.entries he')] using hentry
      rw [hx] at this
      contradiction
    refine ⟨⟨entry.setLink ⟨_, made⟩, grown.trans (.setLink fun e hl => ?_)⟩, ?_, rfl, rfl, rfl⟩
    case refine_1 =>
      rw [missing] at hl
      contradiction
    case refine_2 =>
      exact linkedFolder_eq_some_iff.mpr
        ⟨{ localEntryId := t.next }, _, by simp [Tables.setLink, createChildFolder], made, rfl, rfl, rfl⟩

theorem updateRun_eq (run : Id) (f : Run → Run) :
    t.updateRun run f = t.mapRuns fun id r => if id = run then f r else r :=
  rfl

-- A file that is recorded for a run of its account.
theorem extends_recordRemote {r : Run} (h : Sound remote t) (hr : t.runs.lookup page.runId = some r)
    (ho : r.ownerId = page.ownerId)
    (hl : ∀ target, file.target = some target → Listed (remote page.ownerId).list target)
    (he : t.recordRemote page parent file name = some t') :
    Extends remote t t' ∧
      ∀ target, file.target = some target → Remembered t' page.runId page.ownerId target := by
  unfold recordRemote at he
  split at he
  case h_1 ht =>
    cases he
    exact ⟨.refl h, fun target ht' => by rw [ht] at ht'; contradiction⟩
  case h_2 id ht =>
    obtain ⟨p, hp, rfl⟩ := Option.map_eq_some_iff.mp he
    obtain ⟨ext, linked, queue, runs, -⟩ := extends_ensureLinkedFolder h hp
    dsimp only
    split
    case h_1 q hq =>
      refine ⟨ext, fun target ht' => ?_⟩
      rw [ht] at ht'
      cases ht'
      exact ⟨⟨q, hq⟩, p.2, linked⟩
    case h_2 hq =>
      have hid : id ∈ (remote r.ownerId).folders := by
        rw [ho]
        exact (remote page.ownerId).closed (hl _ ht)
      have sound := ext.sound.insertQueue (q := { id := p.1.next, localFolderId := some p.2 })
        (runs ▸ hr) hid rfl
      have inserted : Extends remote t _ := ⟨sound, ext.grows.trans .insertQueue⟩
      rw [updateRun_eq]
      refine ⟨inserted.mapRuns fun id r => by split <;> rfl, fun target ht' => ?_⟩
      rw [ht] at ht'
      cases ht'
      exact ⟨⟨_, by simp [Tables.mapRuns]; rfl⟩, p.2, linked⟩
  case h_3 id mime ht =>
    cases he
    unfold rememberFile
    split
    case h_1 i hi =>
      refine ⟨.refl h, fun target ht' => ?_⟩
      rw [ht] at ht'
      cases ht'
      exact ⟨i, hi⟩
    case h_2 hi =>
      have owner : (t.listedItem page parent file id mime).ownerId = page.ownerId := by
        unfold listedItem
        split <;> rfl
      have set : Extends remote t _ := ⟨h.setItem hr (owner ▸ hl _ ht), .setItem⟩
      dsimp only
      rw [updateRun_eq]
      refine ⟨set.mapRuns fun id r => by split <;> rfl, fun target ht' => ?_⟩
      rw [ht] at ht'
      cases ht'
      exact ⟨_, by simp [Tables.mapRuns]; rfl⟩

theorem lookup_queue_recordRemote {k : Id × String} {q : QueueRow} (hq : t.queue.lookup k = some q)
    (h : Sound remote t) (he : t.recordRemote page parent file name = some t') :
    t'.queue.lookup k = some q := by
  unfold recordRemote at he
  split at he
  case h_1 => cases he; exact hq
  case h_2 id ht =>
    obtain ⟨p, hp, rfl⟩ := Option.map_eq_some_iff.mp he
    obtain ⟨-, -, queue, -, -⟩ := extends_ensureLinkedFolder h hp
    dsimp only
    split
    case h_1 => rw [queue]; exact hq
    case h_2 hn =>
      have : k ≠ (page.runId, id) := by
        rintro rfl
        rw [queue, hq] at hn
        contradiction
      simp [updateRun, this, queue, hq]
  case h_3 id mime ht =>
    cases he
    unfold rememberFile
    split
    case h_1 => exact hq
    case h_2 => exact hq

end Tables

namespace World

variable {remote : Id → Remote} {w w' : World} {a : Action}

open Tables (Sound Grows Extends)

-- What the worker knows of its page: the row is not done, the page is one of the account of the run,
-- and the files that are not left to do are recorded.
structure Knows (remote : Id → Remote) (t : Tables) (k : Work) : Prop where
  row    : ∃ q, t.queue.lookup (k.page.runId, k.page.googleFolderId) = some q ∧ q.done = false ∧
    q.pageToken = k.page.pageToken
  folder : k.page.localFolderId.isSome
  run    : ∃ r, t.runs.lookup k.page.runId = some r ∧ r.ownerId = k.page.ownerId
  files  : ∃ l before, (remote k.page.ownerId).list k.page.googleFolderId k.page.pageToken = some l ∧
    k.next = l.nextPageToken.filter validPageToken ∧ l.files = before ++ k.todo ∧
    ∀ file ∈ before, ∀ target, file.target = some target →
      Remembered t k.page.runId k.page.ownerId target

structure Inv (remote : Id → Remote) (w : World) : Prop where
  sound : Sound remote w.tables
  work {k} : w.work = some k → Knows remote w.tables k
  read {run folder token} : .read run folder token ∈ w.history →
    ∃ r, w.tables.runs.lookup run = some r ∧
      ∀ l, (remote r.ownerId).list folder token = some l → ∀ file ∈ l.files, ∀ target,
        file.target = some target → Remembered w.tables run r.ownerId target
  listed {run folder} : .listed run folder ∈ w.history →
    ∃ q, w.tables.queue.lookup (run, folder) = some q ∧ q.done = true
  recorded {run id} : .recorded run id ∈ w.history →
    ∃ i, w.tables.items.lookup (run, id) = some i
  once {e} : (∀ run folder token, e ≠ .read run folder token) → w.history.count e ≤ 1

-- The rows of the folders that are done stay done.
def Settled (t t' : Tables) : Prop :=
  ∀ k q, t.queue.lookup k = some q → ∃ q', t'.queue.lookup k = some q' ∧
    (q.done = true → q'.done = true)

-- A step that writes no history and leaves the worker where it is, or without a page.
theorem Inv.extend {t : Tables} (h : Inv remote w) (work : Option Work) (barred : List Id)
    (failures : Nat) (e : Extends remote w.tables t) (hs : Settled w.tables t)
    (hk : ∀ k, work = some k → Knows remote t k) :
    Inv remote { w with tables := t, work, barred, failures } where
  sound := e.sound
  work {k} hw := hk k hw
  read hr := by
    obtain ⟨r, hr, files⟩ := h.read hr
    obtain ⟨r', hr', ho⟩ := e.grows.runs hr
    refine ⟨r', hr', fun l hl file hf target ht => ?_⟩
    rw [ho] at hl ⊢
    exact e.grows.remembered ⟨_, _, l, file, hf, hl, ht⟩ (files l hl file hf target ht)
  listed hl := by
    obtain ⟨q, hq, hd⟩ := h.listed hl
    obtain ⟨q', hq', hd'⟩ := hs _ q hq
    exact ⟨q', hq', hd' hd⟩
  recorded hr := by
    obtain ⟨i, hi⟩ := h.recorded hr
    exact e.grows.items hi
  once := h.once

theorem Knows.extend {t t' : Tables} {k : Work} (h : Knows remote t k) (e : Extends remote t t')
    (hq : t'.queue.lookup (k.page.runId, k.page.googleFolderId) =
      t.queue.lookup (k.page.runId, k.page.googleFolderId)) : Knows remote t' k where
  row    := hq ▸ h.row
  folder := h.folder
  run    := by
    obtain ⟨r, hr, ho⟩ := h.run
    obtain ⟨r', hr', ho'⟩ := e.grows.runs hr
    exact ⟨r', hr', ho'.trans ho⟩
  files  := by
    obtain ⟨l, before, hl, hn, hf, done⟩ := h.files
    refine ⟨l, before, hl, hn, hf, fun file hb target ht => ?_⟩
    have listed : file ∈ l.files := hf ▸ List.mem_append_left _ hb
    exact e.grows.remembered ⟨_, _, l, file, listed, hl, ht⟩ (done file hb target ht)

theorem Settled.of_queue {t t' : Tables} (h : t'.queue = t.queue) : Settled t t' :=
  fun _ q hq => ⟨q, h ▸ hq, id⟩

-- A step that leaves the queue alone.
theorem Inv.aside {t : Tables} {work : Option Work} {barred : List Id} {failures : Nat}
    (h : Inv remote w) (e : Extends remote w.tables t) (hq : t.queue = w.tables.queue)
    (hk : work = w.work ∨ work = none) : Inv remote { w with tables := t, work, barred, failures } := by
  refine h.extend _ _ _ e (.of_queue hq) fun k hw => ?_
  obtain rfl | rfl := hk
  case inl => exact (h.work hw).extend e (by rw [hq])
  case inr => contradiction

theorem extends_addSource {t : Tables} {owner : Id} {folder name : String} (h : Sound remote t)
    (hf : folder ∈ (remote owner).folders) :
    let r := t.createChildFolder owner none name
    Extends remote t { r.1 with
      sources := r.1.sources.set r.1.next
        { ownerId := owner, googleFolderId := folder, localFolderId := r.2 }
      next    := r.1.next + 1 } := by
  have entry : Sound remote (t.createChildFolder owner none name).1 := h.insertEntry
  have grown : Grows remote t (t.createChildFolder owner none name).1 := .insertEntry h
  constructor
  case sound =>
    refine ⟨fun he => ?_, fun hr => ?_, entry.links, fun hs => ?_, entry.queue, entry.items⟩
    case refine_1 => exact Nat.lt_succ_of_lt (entry.entries he)
    case refine_2 => exact Nat.lt_succ_of_lt (entry.runs hr)
    case refine_3 =>
      simp only [Table.lookup_set] at hs
      split at hs
      case isTrue  => cases hs; exact hf
      case isFalse => exact entry.sources hs
  case grows =>
    exact grown.trans ⟨Nat.le_succ _, fun hr => ⟨_, hr, rfl⟩, fun hq => ⟨_, hq⟩, fun hi => ⟨_, hi⟩,
      fun _ hx => hx⟩

theorem extends_download {t t' : Tables} {run : Id} {id : String} {state : ItemState} {item : Item}
    {stored : Option (Option Drive.Entry × Link)} (h : Sound remote t)
    (hi : t.items.lookup (run, id) = some item)
    (hs : (stored.elim (some { t with items := t.items.set (run, id) { item with state } }) fun s =>
      Tables.storeFile { t with items := t.items.set (run, id) { item with state } } item.ownerId id
        s.1 s.2) = some t') :
    Extends remote t t' ∧ t'.queue = t.queue := by
  obtain ⟨r, hr, mime, listed⟩ := h.items hi
  have set : Extends remote t { t with items := t.items.set (run, id) { item with state } } :=
    ⟨h.setItem hr (i := { item with state }) listed, .setItem⟩
  cases stored
  case none =>
    cases hs
    exact ⟨set, rfl⟩
  case some s =>
    obtain ⟨e, link⟩ := s
    simp only [Option.elim_some, Tables.storeFile, Option.ite_none_right_eq_some,
      Option.some.injEq, Option.isSome_iff_exists] at hs
    obtain ⟨hlink, rfl⟩ := hs
    have file {owner : Id} (t : Tables) (entry : Id) (_ : t.linkedFolder owner id = some entry)
        (ho : owner = item.ownerId) : ¬ Listed (remote owner).list (.folder id) := by
      intro folder
      rw [ho] at folder
      exact (remote item.ownerId).kinds folder listed
    cases e
    case none =>
      exact ⟨⟨set.sound.setLink hlink, set.grows.trans (.setLink fun x hx => file _ x hx rfl)⟩, rfl⟩
    case some e =>
      have entry := set.sound.insertEntry (e := e)
      have grown := set.grows.trans (.insertEntry set.sound (e := e))
      exact ⟨⟨entry.setLink hlink, grown.trans (.setLink fun x hx => file _ x hx rfl)⟩, rfl⟩

theorem Inv.start {source : Id} (h : Inv remote w) (hs : w.start source = some w') : Inv remote w' := by
  unfold World.start at hs
  split at hs <;> try contradiction
  obtain ⟨src, hsrc, rfl⟩ := Option.map_eq_some_iff.mp hs
  have sound := h.sound
  have new {run r} (hr : w.tables.runs.lookup run = some r) : run ≠ w.tables.next :=
    Nat.ne_of_lt (sound.runs hr)
  have old {run id q} (hq : w.tables.queue.lookup (run, id) = some q) :
      (run, id) ≠ (w.tables.next, src.googleFolderId) := by
    intro he
    obtain ⟨r, hr, -⟩ := sound.queue hq
    exact new hr (congrArg Prod.fst he)
  have sound' : Sound remote (w.tables.startRun source src) := by
    refine ⟨fun he => ?_, fun hr => ?_, sound.links, sound.sources, fun hq => ?_, fun hi => ?_⟩
    all_goals simp only [Tables.startRun, Table.lookup_set, Prod.mk.injEq] at *
    case refine_1 => exact Nat.lt_add_right 1 (Nat.lt_succ_of_lt (sound.entries he))
    case refine_2 =>
      split at hr
      case isTrue hx => subst hx; exact Nat.lt_add_of_pos_right (by decide)
      case isFalse   => exact Nat.lt_add_right 1 (Nat.lt_succ_of_lt (sound.runs hr))
    case refine_3 =>
      split at hq
      case isTrue hk =>
        cases hq
        obtain ⟨rfl, rfl⟩ := hk
        exact ⟨_, if_pos rfl, sound.sources hsrc, rfl⟩
      case isFalse =>
        obtain ⟨r, hr, rest⟩ := sound.queue hq
        exact ⟨r, by simp [new hr, hr], rest⟩
    case refine_4 =>
      obtain ⟨r, hr, rest⟩ := sound.items hi
      exact ⟨r, by simp [new hr, hr], rest⟩
  have ext : Extends remote w.tables (w.tables.startRun source src) := by
    refine ⟨sound', Nat.le_add_right _ _, fun {id r} hr => ?_, fun {k q} hq => ?_, fun hi => ⟨_, hi⟩,
      fun _ hx => hx⟩
    case refine_1 => exact ⟨r, by simp [Tables.startRun, new hr, hr], rfl⟩
    case refine_2 => exact ⟨q, by simp [Tables.startRun, old hq, hq]⟩
  refine h.extend _ _ _ ext (fun k q hq => ⟨q, by simp [Tables.startRun, old hq, hq], id⟩) fun k hk => ?_
  have knows := h.work hk
  obtain ⟨q, hq, -⟩ := knows.row
  exact knows.extend ext (by simp [Tables.startRun, old hq])

theorem mem_of_first {rows : List ((Id × String) × QueueRow)} {r : (Id × String) × QueueRow}
    (h : first rows = some r) : r ∈ rows := by
  induction rows generalizing r
  case nil => contradiction
  case cons r' rs ih =>
    rw [first] at h
    split at h
    case h_1 => cases h; exact List.mem_cons_self
    case h_2 hf =>
      split at h <;> cases h
      case isTrue  => exact .tail _ (ih hf)
      case isFalse => exact List.mem_cons_self

theorem pick_some {page : ListPage} (h : w.pick = some page) :
    ∃ q r, w.tables.queue.lookup (page.runId, page.googleFolderId) = some q ∧
      w.waiting (page.runId, page.googleFolderId) q ∧ q.pageToken = page.pageToken ∧
      q.localFolderId = page.localFolderId ∧ w.tables.runs.lookup page.runId = some r ∧
      r.ownerId = page.ownerId := by
  obtain ⟨⟨k, q⟩, hf, hp⟩ := Option.bind_eq_some_iff.mp h
  obtain ⟨r, hr, rfl⟩ := Option.map_eq_some_iff.mp hp
  obtain ⟨hm, hw⟩ := List.mem_filter.mp (mem_of_first hf)
  exact ⟨q, r, Table.lookup_eq_some_iff.mpr hm, hw, rfl, rfl, hr, rfl⟩

theorem Inv.log {e : Event} (h : Inv remote w)
    (read : ∀ run folder token, e = .read run folder token →
      ∃ r, w.tables.runs.lookup run = some r ∧
        ∀ l, (remote r.ownerId).list folder token = some l → ∀ file ∈ l.files, ∀ target,
          file.target = some target → Remembered w.tables run r.ownerId target)
    (listed : ∀ run folder, e = .listed run folder → e ∉ w.history ∧
      ∃ q, w.tables.queue.lookup (run, folder) = some q ∧ q.done = true)
    (recorded : ∀ run id, e = .recorded run id → e ∉ w.history ∧
      ∃ i, w.tables.items.lookup (run, id) = some i) :
    Inv remote { w with history := w.history ++ [e] } where
  sound := h.sound
  work  := h.work
  read hr := by
    obtain hr | hr := List.mem_append.mp hr
    case inl => exact h.read hr
    case inr => exact read _ _ _ (List.mem_singleton.mp hr).symm
  listed hl := by
    obtain hl | hl := List.mem_append.mp hl
    case inl => exact h.listed hl
    case inr => exact (listed _ _ (List.mem_singleton.mp hl).symm).right
  recorded hr := by
    obtain hr | hr := List.mem_append.mp hr
    case inl => exact h.recorded hr
    case inr => exact (recorded _ _ (List.mem_singleton.mp hr).symm).right
  once {e'} hn := by
    rw [List.count_append]
    by_cases he : e = e'
    case neg => simpa [List.count_singleton, he] using h.once hn
    case pos =>
      subst he
      have new : e ∉ w.history := by
        cases e
        case read run folder token => exact absurd rfl (hn run folder token)
        case listed run folder     => exact (listed _ _ rfl).left
        case recorded run id       => exact (recorded _ _ rfl).left
      simp [List.count_eq_zero_of_not_mem new]

theorem Inv.logRead {run : Id} {folder : String} {token : Option String} {r : Run} (h : Inv remote w)
    (hr : w.tables.runs.lookup run = some r)
    (files : ∀ l, (remote r.ownerId).list folder token = some l → ∀ file ∈ l.files, ∀ target,
      file.target = some target → Remembered w.tables run r.ownerId target) :
    Inv remote { w with history := w.history ++ [.read run folder token] } := by
  refine h.log (fun _ _ _ he => ?_) (fun _ _ he => by contradiction) fun _ _ he => by contradiction
  cases he
  exact ⟨r, hr, files⟩

theorem Inv.fetch (h : Inv remote w) (hs : w.fetch remote = some w') : Inv remote w' := by
  unfold World.fetch at hs
  split at hs <;> try contradiction
  simp only [Option.bind_eq_some_iff, Option.map_eq_some_iff] at hs
  obtain ⟨page, hp, l, hl, folder, hfolder, rfl⟩ := hs
  obtain ⟨q, r, hq, hw, token, -, hr, ho⟩ := pick_some hp
  simp only [waiting, Bool.and_eq_true, Bool.not_eq_true'] at hw
  have knows : Knows remote w.tables
      { page, todo := l.files, next := l.nextPageToken.filter validPageToken } := by
    refine ⟨⟨q, hq, hw.left.left, token⟩, by simp [hfolder], ⟨r, hr, ho⟩, l, [], hl, rfl, rfl, ?_⟩
    intro file hf
    contradiction
  have fetched := h.extend (some _) w.barred w.failures
    (.refl h.sound) (fun _ q hq => ⟨q, hq, id⟩) fun k hk => by cases hk; exact knows
  unfold ListPage.reading
  split
  case isFalse   => simpa using fetched
  case isTrue hn =>
    refine fetched.logRead hr fun l' hl' file hf => ?_
    rw [ho, hl] at hl'
    cases hl'
    rw [hn] at hf
    contradiction

theorem Inv.record {name : Option String} (h : Inv remote w) (hs : w.record name = some w') :
    Inv remote w' := by
  unfold World.record at hs
  split at hs <;> try contradiction
  case h_1 page file todo next hw =>
    simp only [Option.bind_eq_some_iff, Option.map_eq_some_iff] at hs
    obtain ⟨parent, hparent, tables, ht, rfl⟩ := hs
    obtain ⟨⟨q, hq, hd, token⟩, folder, ⟨r, hr, ho⟩, l, before, hl, hn, files, done⟩ := h.work hw
    have listed : file ∈ l.files := by simp [files]
    obtain ⟨ext, remembered⟩ := Tables.extends_recordRemote h.sound hr ho
      (fun target ht => ⟨_, _, l, file, listed, hl, ht⟩) ht
    have all (file' : RemoteFile) (hf : file' ∈ before ++ [file]) (target : Target)
        (hfile : file'.target = some target) : Remembered tables page.runId page.ownerId target := by
      obtain hf | hf := List.mem_append.mp hf
      case inr =>
        obtain rfl := List.mem_singleton.mp hf
        exact remembered target hfile
      case inl =>
        have listed : file' ∈ l.files := by simp [files, hf]
        exact ext.grows.remembered ⟨_, _, l, file', listed, hl, hfile⟩ (done file' hf target hfile)
    have row {k : Id × String} {q : QueueRow} (hq : w.tables.queue.lookup k = some q) :
        tables.queue.lookup k = some q := Tables.lookup_queue_recordRemote hq h.sound ht
    have knows : Knows remote tables ⟨page, todo, next⟩ := by
      obtain ⟨r', hr', ho'⟩ := ext.grows.runs hr
      exact ⟨⟨q, row hq, hd, token⟩, folder, ⟨r', hr', ho'.trans ho⟩, l, before ++ [file], hl, hn,
        by simp [files], all⟩
    have moved := h.extend (some ⟨page, todo, next⟩) w.barred w.failures ext (fun _ q hq => ⟨q, row hq, id⟩) fun k hk => by cases hk; exact knows
    have items : Inv remote { w with
        tables
        work    := some ⟨page, todo, next⟩
        history := w.history ++ w.tables.newItem page file } := by
      unfold Tables.newItem
      split
      case h_2 => simpa using moved
      case h_1 id mime htarget =>
        split
        case isTrue => simpa using moved
        case isFalse hnew =>
          refine moved.log (fun _ _ _ he => by contradiction) (fun _ _ he => by contradiction)
            fun run id' he => ?_
          cases he
          refine ⟨fun hm => ?_, remembered _ htarget⟩
          obtain ⟨i, hi⟩ := h.recorded hm
          simp [hi] at hnew
    unfold ListPage.reading
    split
    case isFalse => simpa using items
    case isTrue hnil =>
      obtain ⟨r', hr', ho'⟩ := ext.grows.runs hr
      refine items.logRead hr' fun l' hl' file' hf target htarget => ?_
      rw [ho', ho, hl] at hl'
      cases hl'
      rw [ho', ho]
      exact all file' (by simpa [files, hnil] using hf) target htarget

theorem extends_advance {t : Tables} {k : Id × String} {next : Option String} (h : Sound remote t) :
    Extends remote t (t.advance k next) := by
  constructor
  case sound =>
    refine ⟨h.entries, h.runs, h.links, h.sources, fun {run id q} hq => ?_, h.items⟩
    simp only [Tables.advance, Table.lookup_filterMap, Option.bind_eq_some_iff,
      Option.some.injEq] at hq
    obtain ⟨q₀, hq₀, rfl⟩ := hq
    obtain ⟨r, hr, hid, hl⟩ := h.queue hq₀
    refine ⟨r, hr, hid, ?_⟩
    split
    case isTrue  => exact hl
    case isFalse => exact hl
  case grows =>
    refine ⟨Nat.le_refl _, fun hr => ⟨_, hr, rfl⟩, fun {k q} hq => ?_, fun hi => ⟨_, hi⟩,
      fun _ hx => hx⟩
    exact ⟨_, by simp [Tables.advance, hq]; rfl⟩

theorem Inv.finish (h : Inv remote w) (hs : w.finish = some w') : Inv remote w' := by
  unfold World.finish at hs
  split at hs <;> cases hs
  case h_1 page next hw =>
    obtain ⟨⟨q, hq, hd, token⟩, folder, run, files⟩ := h.work hw
    have fresh : Event.listed page.runId page.googleFolderId ∉ w.history := by
      intro hm
      obtain ⟨q', hq', hd'⟩ := h.listed hm
      rw [hq] at hq'
      cases hq'
      rw [hd] at hd'
      contradiction
    have settled : Settled w.tables (w.tables.advance (page.runId, page.googleFolderId) next) := by
      intro k q' hq'
      refine ⟨_, by simp [Tables.advance, hq']; rfl, fun hd' => ?_⟩
      split
      case isFalse => exact hd'
      case isTrue hk =>
        rw [hk, hq] at hq'
        cases hq'
        rw [hd] at hd'
        contradiction
    have finished := h.extend none w.barred 0
      (extends_advance h.sound) settled fun k hk => by contradiction
    split
    case isFalse   => simpa using finished
    case isTrue hn =>
      refine finished.log (fun _ _ _ he => by contradiction) (fun run folder he => ?_)
        fun _ _ he => by contradiction
      cases he
      exact ⟨fresh, _, by simp [Tables.advance, hq]; rfl, by simp [hn]⟩

theorem inv_step (h : Inv remote w) (hs : w.step remote a = some w') : Inv remote w' := by
  cases a <;> simp only [World.step] at hs
  case addSource owner folder name =>
    unfold World.addSource at hs
    split at hs <;> cases hs
    case isTrue hc =>
      simp only [Bool.and_eq_true, List.contains_iff_mem] at hc
      exact h.aside (extends_addSource h.sound hc.left) rfl (.inl rfl)
  case start source => exact h.start hs
  case setBarred =>
    cases hs
    exact h.aside (.refl h.sound) rfl (.inl rfl)
  case cancel run =>
    cases hs
    rw [Tables.updateRun_eq]
    refine h.aside ((Extends.refl h.sound).mapRuns fun id r => ?_) rfl (.inl rfl)
    split
    case isFalse => rfl
    case isTrue  => split <;> rfl
  case download run id state stored =>
    unfold World.download at hs
    simp only [Option.bind_eq_some_iff, Option.map_eq_some_iff] at hs
    obtain ⟨item, hi, tables, ht, rfl⟩ := hs
    obtain ⟨ext, queue⟩ := extends_download h.sound hi ht
    exact h.aside ext queue (.inl rfl)
  case fetch  => exact h.fetch hs
  case record => exact h.record hs
  case finish => exact h.finish hs
  case fail =>
    cases hs
    unfold World.fail
    split
    case isFalse => exact h.aside (.refl h.sound) rfl (.inr rfl)
    case isTrue  =>
      exact h.aside ((Extends.refl h.sound).mapRuns fun id r => by split <;> rfl) rfl (.inr rfl)
  case idle =>
    unfold World.idle at hs
    split at hs <;> cases hs
    exact h.aside ((Extends.refl h.sound).mapRuns fun id r => by split <;> rfl) rfl (.inl rfl)
  case crash =>
    cases hs
    exact h.aside (.refl h.sound) rfl (.inr rfl)

theorem inv_init : Inv remote {} where
  sound      := by constructor <;> simp
  work h     := by contradiction
  read h     := by contradiction
  listed h   := by contradiction
  recorded h := by contradiction
  once _     := by simp

end World
end MyDrive.Google.Listing
