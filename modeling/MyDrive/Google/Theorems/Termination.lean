import Mathlib.Algebra.Order.BigOperators.Group.List
import Mathlib.Order.WellFounded
import MyDrive.Google.Theorems.Listing

-- The listing of a graph that does not change comes to an end: a page that has been listed is not
-- listed again, and ticks that fail in a row give the runs up.

open Execution

namespace MyDrive.Google.Listing

variable {remote : Id → Remote}

namespace Tables

-- How many pages of a folder the run has still to list.
def pages (remote : Id → Remote) (t : Tables) (run owner : Id) (folder : String) : Nat :=
  match t.queue.lookup (run, folder) with
  | none   => (remote owner).left folder none + 1
  | some q => if q.done then 0 else (remote owner).left folder q.pageToken + 1

def pagesOf (remote : Id → Remote) (t : Tables) (run : Id) (r : Run) : Nat :=
  ((remote r.ownerId).folders.map (t.pages remote run r.ownerId)).sum

def pagesLeft (remote : Id → Remote) (t : Tables) : Nat :=
  t.runs.sum (t.pagesOf remote)

def activeRuns (t : Tables) : Nat :=
  t.runs.sum fun _ r => if r.active then 1 else 0

variable {t t' : Tables} {page : ListPage} {parent : Id} {file : RemoteFile} {name : Option String}

theorem weight_mapRuns {f : Id → Run → Run} {g : Id → Run → Nat} {run : Id} :
    (t.mapRuns f).runs.weight g run = t.runs.weight (fun run r => g run (f run r)) run := by
  rw [Table.weight, Table.weight, lookup_mapRuns]
  cases t.runs.lookup run <;> rfl

theorem activeRuns_mapRuns {f : Id → Run → Run} (hf : ∀ id r, (f id r).active = r.active) :
    (t.mapRuns f).activeRuns = t.activeRuns := by
  refine Table.sum_congr fun run => ?_
  rw [weight_mapRuns]
  simp only [hf]

theorem pagesLeft_congr (hr : ∀ run, (t'.runs.lookup run).map (·.ownerId) =
      (t.runs.lookup run).map (·.ownerId))
    (hq : ∀ run owner folder, t'.pages remote run owner folder = t.pages remote run owner folder) :
    t'.pagesLeft remote = t.pagesLeft remote := by
  refine Table.sum_congr fun run => ?_
  have := hr run
  unfold Table.weight
  cases h : t.runs.lookup run <;> cases h' : t'.runs.lookup run <;> simp [h, h'] at this ⊢
  simp only [pagesOf, this]
  congr 1
  exact List.map_congr_left fun folder _ => hq _ _ _

theorem activeRuns_pos {run : Id} {r : Run} (hr : t.runs.lookup run = some r) (ha : r.active) :
    0 < t.activeRuns := by
  have others : ∀ k ≠ run, (t.runs.filterMap fun id r => if id = run then none else some r).weight
      (fun _ r => if r.active then 1 else 0) k ≤ t.runs.weight (fun _ r => if r.active then 1 else 0) k :=
    fun k hk => by simp [Table.weight, hk]
  have split := Table.sum_le_of_ne run others
  rw [Table.weight_of_lookup hr, if_pos ha] at split
  have gone : (t.runs.filterMap fun id r => if id = run then none else some r).weight
      (fun _ r => if r.active then 1 else 0) run = 0 := by
    simp [Table.weight]
  have : t.activeRuns = t.runs.sum fun _ r => if r.active then 1 else 0 := rfl
  omega

theorem activeRuns_failActiveRuns : t.failActiveRuns.activeRuns = 0 := by
  have failed (r : Run) : (if r.active then { r with state := .failed } else r).active = false := by
    split
    case isTrue    => rfl
    case isFalse h => simpa using h
  have weights (run : Id) : t.failActiveRuns.runs.weight (fun _ r => if r.active then 1 else 0) run =
      (Table.empty : Table Id Run).weight (fun _ _ => 0) run := by
    simp only [Table.weight, failActiveRuns, Table.lookup_filterMap]
    cases t.runs.lookup run
    case none   => rfl
    case some r => simp [failed]
  exact Table.sum_congr weights

-- Recording a file may add a folder, of which every page is left.
theorem recordRemote_left (h : Sound remote t) (he : t.recordRemote page parent file name = some t') :
    t'.pagesLeft remote = t.pagesLeft remote ∧ t'.activeRuns = t.activeRuns := by
  unfold recordRemote at he
  split at he
  case h_1 => cases he; exact ⟨rfl, rfl⟩
  case h_2 id ht =>
    obtain ⟨p, hp, rfl⟩ := Option.map_eq_some_iff.mp he
    obtain ⟨-, -, queue, runs, -⟩ := extends_ensureLinkedFolder h hp
    dsimp only
    split
    case h_1 q hq =>
      refine ⟨pagesLeft_congr (by simp [runs]) ?_, by rw [activeRuns, runs]; rfl⟩
      intro run owner folder
      simp only [pages, queue]
    case h_2 hn =>
      rw [updateRun_eq]
      refine ⟨pagesLeft_congr (fun run => ?_) fun run owner folder => ?_, ?_⟩
      case refine_1 =>
        rw [lookup_mapRuns]
        dsimp only
        rw [runs]
        cases t.runs.lookup run
        case none   => rfl
        case some r => simp only [Option.map_some]; split <;> rfl
      case refine_2 =>
        simp only [pages, mapRuns, Table.lookup_set, queue]
        split
        case h_1 hq =>
          split at hq <;> try contradiction
          simp [hq]
        case h_2 q hq =>
          split at hq
          case isFalse => simp [hq]
          case isTrue hk =>
            cases hq
            rw [hk, ← queue, hn]
            rfl
      case refine_3 =>
        rw [activeRuns_mapRuns (by intro id r; split <;> rfl)]
        rw [activeRuns, activeRuns, runs]
  case h_3 id mime ht =>
    cases he
    unfold rememberFile
    split
    case h_1 => exact ⟨rfl, rfl⟩
    case h_2 =>
      dsimp only
      rw [updateRun_eq]
      refine ⟨pagesLeft_congr (fun run => ?_) fun run owner folder => rfl, ?_⟩
      case refine_1 =>
        rw [lookup_mapRuns]
        cases t.runs.lookup run
        case none   => rfl
        case some r => simp only [Option.map_some]; split <;> rfl
      case refine_2 => exact activeRuns_mapRuns (by intro id r; split <;> rfl)

-- The page that is over was one of those left.
theorem advance_left {q : QueueRow} {l : RemoteList} {r : Run} {run : Id} {folder : String}
    (h : Sound remote t) (hr : t.runs.lookup run = some r)
    (hq : t.queue.lookup (run, folder) = some q) (hd : q.done = false)
    (hl : (remote r.ownerId).list folder q.pageToken = some l) :
    (t.advance (run, folder) (l.nextPageToken.filter validPageToken)).pagesLeft remote <
      t.pagesLeft remote := by
  have other {run' folder' owner} (hn : (run', folder') ≠ (run, folder)) :
      (t.advance (run, folder) (l.nextPageToken.filter validPageToken)).pages remote run' owner folder' =
        t.pages remote run' owner folder' := by
    simp only [pages, advance, Table.lookup_filterMap]
    cases t.queue.lookup (run', folder') <;> simp [hn]
  have own : (t.advance (run, folder) (l.nextPageToken.filter validPageToken)).pages remote run
      r.ownerId folder < t.pages remote run r.ownerId folder := by
    simp only [pages, advance, Table.lookup_filterMap, hq, Option.bind_some, hd]
    cases hn : l.nextPageToken.filter validPageToken
    case none => simp
    case some next =>
      have := (remote r.ownerId).ends hl (Option.filter_eq_some_iff.mp hn).left
      simpa using this
  have less : (t.advance (run, folder) (l.nextPageToken.filter validPageToken)).pagesOf remote run r <
      t.pagesOf remote run r := by
    refine List.sum_lt_sum _ _ (fun folder' _ => ?_) ⟨folder, ?_, own⟩
    case refine_1 =>
      by_cases hf : folder' = folder
      case pos => exact hf ▸ own.le
      case neg => exact (other (by simp [hf])).le
    case refine_2 =>
      obtain ⟨r', hr', hf, -⟩ := h.queue hq
      rw [hr] at hr'
      cases hr'
      exact hf
  have others : ∀ run' ≠ run, t.runs.weight
      ((t.advance (run, folder) (l.nextPageToken.filter validPageToken)).pagesOf remote) run' ≤
        t.runs.weight (t.pagesOf remote) run' := by
    intro run' hn
    simp only [Table.weight]
    cases t.runs.lookup run'
    case none    => rfl
    case some r' =>
      refine (congrArg List.sum ?_).le
      exact List.map_congr_left fun folder' _ => other (by simp [hn])
  have rest := Table.sum_le_of_ne run others
  rw [Table.weight_of_lookup hr, Table.weight_of_lookup hr] at rest
  have same : (t.advance (run, folder) (l.nextPageToken.filter validPageToken)).pagesLeft remote =
    t.runs.sum ((t.advance (run, folder) (l.nextPageToken.filter validPageToken)).pagesOf remote) := rfl
  have whole : t.pagesLeft remote = t.runs.sum (t.pagesOf remote) := rfl
  omega

end Tables

namespace World

variable {w w' : World} {a : Action}

-- The steps of ticks that list a page.
def Lists (w : World) : Action → Prop
  | .fetch | .record _ | .finish => True
  | .fail                        => w.work ≠ none ∨ w.pick ≠ none
  | _                            => False

def Goes (remote : Id → Remote) (w' w : World) : Prop :=
  ∃ a, w.Lists a ∧ w.step remote a = some w'

-- A page leaves fewer pages, a tick that fails leaves fewer failures, and a step within a page leaves
-- less of it.
def size (remote : Id → Remote) (w : World) : Nat × Nat × Nat × Nat :=
  (w.tables.pagesLeft remote + w.tables.activeRuns,
   if w.tables.activeRuns = 0 then 0 else failureLimit - w.failures,
   if w.work = none ∧ w.tables.activeRuns ≠ 0 then 1 else 0,
   w.work.elim 0 fun k => k.todo.length + 1)

abbrev Smaller : Nat × Nat × Nat × Nat → Nat × Nat × Nat × Nat → Prop :=
  Prod.Lex (· < ·) (Prod.Lex (· < ·) (Prod.Lex (· < ·) (· < ·)))

theorem wellFounded_smaller : WellFounded Smaller :=
  Nat.lt_wfRel.wf.prod_lex (Nat.lt_wfRel.wf.prod_lex (Nat.lt_wfRel.wf.prod_lex Nat.lt_wfRel.wf))

theorem pick_active {page : ListPage} (h : w.pick = some page) : 0 < w.tables.activeRuns := by
  obtain ⟨q, r, -, hw, -, -, hr, -⟩ := pick_some h
  simp only [waiting, hr, Option.any_some, Bool.and_eq_true] at hw
  exact Tables.activeRuns_pos hr hw.right

theorem smaller_fail (h : w.work ≠ none ∨ w.pick ≠ none) :
    Smaller (w.fail.size remote) (w.size remote) := by
  have busy (hn : w.tables.activeRuns = 0) : ∃ k, w.work = some k := by
    obtain hw | hp := h
    case inl => exact Option.ne_none_iff_exists'.mp hw
    case inr =>
      obtain ⟨page, hp⟩ := Option.ne_none_iff_exists'.mp hp
      exact absurd hn (Nat.ne_of_gt (pick_active hp))
  unfold World.fail
  split
  case isTrue =>
    have left : w.tables.failActiveRuns.pagesLeft remote = w.tables.pagesLeft remote := by
      refine Tables.pagesLeft_congr (fun run => ?_) fun _ _ _ => rfl
      simp only [Tables.failActiveRuns, Table.lookup_filterMap]
      cases w.tables.runs.lookup run
      case none   => rfl
      case some r => simp only [Option.bind_some, Option.map_some]; split <;> rfl
    by_cases hn : w.tables.activeRuns = 0
    case neg =>
      refine Prod.Lex.left _ _ ?_
      rw [left, Tables.activeRuns_failActiveRuns]
      omega
    case pos =>
      obtain ⟨k, hk⟩ := busy hn
      simp [Smaller, size, left, Tables.activeRuns_failActiveRuns, hn, hk, Prod.lex_def]
  case isFalse hl =>
    by_cases hn : w.tables.activeRuns = 0
    case neg =>
      refine Prod.Lex.right _ (Prod.Lex.left _ _ ?_)
      simp only [hn, if_false]
      omega
    case pos =>
      obtain ⟨k, hk⟩ := busy hn
      simp [Smaller, size, hn, hk, Prod.lex_def]

theorem smaller_step (h : Inv remote w) (g : Goes remote w' w) :
    Smaller (w'.size remote) (w.size remote) := by
  obtain ⟨a, ha, hs⟩ := g
  cases a <;> simp only [Lists, World.step] at ha hs
  case fetch =>
    unfold World.fetch at hs
    split at hs <;> try contradiction
    case h_2 hn =>
      simp only [Option.bind_eq_some_iff, Option.map_eq_some_iff] at hs
      obtain ⟨page, hp, l, hl, folder, hfolder, rfl⟩ := hs
      have active := Nat.ne_of_gt (pick_active hp)
      simp [Smaller, size, hn, active, Prod.lex_def]
  case record name =>
    unfold World.record at hs
    split at hs <;> try contradiction
    case h_1 page file todo next hw =>
      simp only [Option.bind_eq_some_iff, Option.map_eq_some_iff] at hs
      obtain ⟨parent, hparent, tables, ht, rfl⟩ := hs
      obtain ⟨left, active⟩ := Tables.recordRemote_left h.sound ht
      simp [Smaller, size, left, active, hw, Prod.lex_def]
  case finish =>
    unfold World.finish at hs
    split at hs <;> cases hs
    case h_1 page next hw =>
      obtain ⟨⟨q, hq, hd, token⟩, folder, ⟨r, hr, ho⟩, l, before, hl, hn, -⟩ := h.work hw
      have left : (w.tables.advance (page.runId, page.googleFolderId) next).pagesLeft remote <
          w.tables.pagesLeft remote := by
        have := Tables.advance_left h.sound hr hq hd (l := l) (by rw [ho, token]; exact hl)
        rwa [← hn] at this
      exact Prod.Lex.left _ _ (Nat.add_lt_add_right left _)
  case fail =>
    cases hs
    exact smaller_fail ha

theorem acc_goes (h : Inv remote w) : Acc (Goes remote) w := by
  have acc (n : Nat × Nat × Nat × Nat) : ∀ w, Inv remote w → w.size remote = n →
      Acc (Goes remote) w := by
    induction n using wellFounded_smaller.induction
    case h n ih =>
      intro w h hn
      refine ⟨_, fun w' g => ?_⟩
      obtain ⟨a, -, hs⟩ := id g
      exact ih _ (hn ▸ smaller_step h g) w' (inv_step h hs) rfl
  exact acc _ w h rfl

-- A page that waits is listed, if the request for it is answered and its folders find names.
theorem goes_on (h : Inv remote w) (hw : w.work ≠ none ∨ w.pick ≠ none) (name : String) :
    (∃ a ∈ [.fetch, .record (some name), .finish], ∃ w', w.step remote a = some w') ∨
      ∃ page, w.pick = some page ∧
        (remote page.ownerId).list page.googleFolderId page.pageToken = none := by
  cases hk : w.work
  case none =>
    obtain ⟨page, hp⟩ := Option.ne_none_iff_exists'.mp (hw.resolve_left (not_not.mpr hk))
    obtain ⟨q, r, hq, -, -, local_, -⟩ := pick_some hp
    obtain ⟨-, -, -, found⟩ := h.sound.queue hq
    obtain ⟨folder, hf⟩ := Option.isSome_iff_exists.mp (local_ ▸ found)
    cases hl : (remote page.ownerId).list page.googleFolderId page.pageToken
    case none   => exact .inr ⟨page, hp, hl⟩
    case some l => exact .inl ⟨.fetch, by simp, by simp [World.step, World.fetch, hk, hp, hl, hf]⟩
  case some k =>
    obtain ⟨page, todo, next⟩ := k
    obtain ⟨parent, hparent⟩ := Option.isSome_iff_exists.mp (h.work hk).folder
    dsimp only at hparent
    cases todo
    case nil => exact .inl ⟨.finish, by simp, by simp [World.step, World.finish, hk]⟩
    case cons file todo =>
      have recorded : ∃ t, w.tables.recordRemote page parent file (some name) = some t := by
        unfold Tables.recordRemote
        split
        case h_1 => exact ⟨_, rfl⟩
        case h_2 => unfold Tables.rememberFolder Tables.ensureLinkedFolder; split <;> simp
        case h_3 => exact ⟨_, rfl⟩
      obtain ⟨t, ht⟩ := recorded
      exact .inl ⟨.record (some name), by simp, by simp [World.step, World.record, hk, hparent, ht]⟩

def recordPage (t : Tables) (page : ListPage) (parent : Id) (names : RemoteFile → Option String)
    (files : List RemoteFile) : Option Tables :=
  files.foldlM (fun t file => t.recordRemote page parent file (names file)) t

theorem recordPage_remembered {t : Tables} {page : ListPage} {parent : Id}
    {names : RemoteFile → Option String} {files : List RemoteFile}
    (h : ∀ file ∈ files, ∀ target, file.target = some target →
      Remembered t page.runId page.ownerId target) : recordPage t page parent names files = some t := by
  unfold recordPage
  induction files
  case nil => rfl
  case cons file files ih =>
    have same : t.recordRemote page parent file (names file) = some t := by
      cases ht : file.target
      case none        => exact Tables.recordRemote_none ht
      case some target => exact Tables.recordRemote_remembered ht (h file List.mem_cons_self target ht)
    rw [List.foldlM_cons, same]
    exact ih fun file hf => h file (.tail _ hf)

-- No folder is listed to its end twice and no file is recorded twice, the listing comes to an end and
-- stands still only at a page that is not answered, and a page that has been read once changes no row
-- when it is read again.
theorem sync_run (e : Reaches (World.step remote) {} w) :
    (∀ run folder, w.history.count (.listed run folder) ≤ 1) ∧
      (∀ run id, w.history.count (.recorded run id) ≤ 1) ∧
      Acc (Goes remote) w ∧
      (∀ name, w.work ≠ none ∨ w.pick ≠ none →
        (∃ a ∈ [.fetch, .record (some name), .finish], ∃ w', w.step remote a = some w') ∨
          ∃ page, w.pick = some page ∧
            (remote page.ownerId).list page.googleFolderId page.pageToken = none) ∧
      ∀ page r l, .read page.runId page.googleFolderId page.pageToken ∈ w.history →
        w.tables.runs.lookup page.runId = some r → page.ownerId = r.ownerId →
        (remote page.ownerId).list page.googleFolderId page.pageToken = some l →
        ∀ parent names, recordPage w.tables page parent names l.files = some w.tables := by
  have inv : Inv remote w := e.invariant inv_init fun h _ hs => inv_step h hs
  refine ⟨fun run folder => ?_, fun run id => ?_, acc_goes inv, fun name hw => goes_on inv hw name,
    fun page r l hm hr ho hl parent names => ?_⟩
  case refine_1 => exact inv.once fun _ _ _ he => by contradiction
  case refine_2 => exact inv.once fun _ _ _ he => by contradiction
  case refine_3 =>
    obtain ⟨r', hr', files⟩ := inv.read hm
    rw [hr] at hr'
    cases hr'
    refine recordPage_remembered fun file hf target ht => ?_
    rw [ho]
    exact files l (ho ▸ hl) file hf target ht

-- The folder `a` has two pages, and is listed again in its own folder `b` and by a shortcut; its image
-- is listed three times.
def image : RemoteFile where
  id       := "x"
  mimeType := some "image/png"

def folder (id : String) : RemoteFile where
  id       := id
  mimeType := some folderMime

def shortcut (id mime : String) : RemoteFile where
  id              := "s"
  mimeType        := some shortcutMime
  shortcutDetails := some { targetId := some id, targetMimeType := some mime }

def firstPage : RemoteList where
  files         := [image, folder "b"]
  nextPageToken := some "t"

def secondPage : RemoteList where
  files := [shortcut "a" folderMime, shortcut "x" "image/png"]

def innerPage : RemoteList where
  files := [folder "a", image]

def cycleList (folder : String) (token : Option String) : Option RemoteList :=
  if folder = "a" ∧ token = none then some firstPage
  else if folder = "a" ∧ token = some "t" then some secondPage
  else if folder = "b" ∧ token = none then some innerPage
  else none

theorem target_of_cycleList {target : Target} (h : Listed cycleList target) :
    target = .folder "a" ∨ target = .folder "b" ∨ target = .file "x" "image/png" := by
  obtain ⟨f, token, l, file, hf, hl, ht⟩ := h
  have pages : l ∈ [firstPage, secondPage, innerPage] := by
    unfold cycleList at hl
    split at hl
    case isTrue => cases hl; simp
    split at hl
    case isTrue => cases hl; simp
    split at hl <;> cases hl
    simp
  have targets : ∀ l ∈ [firstPage, secondPage, innerPage], ∀ file ∈ l.files,
      file.target = some (.folder "a") ∨ file.target = some (.folder "b") ∨
        file.target = some (.file "x" "image/png") := by
    decide +kernel
  simpa [ht] using targets l pages file hf

def cycle (_ : Id) : Remote where
  list    := cycleList
  folders := ["a", "b"]
  left folder token := if folder = "a" ∧ token = none then 1 else 0
  ends {folder token l next} hl hn := by
    unfold cycleList at hl
    split at hl
    case isTrue h => simp [h]
    split at hl
    case isTrue => cases hl; contradiction
    split at hl <;> cases hl
    contradiction
  closed h := by
    obtain h | h | h := target_of_cycleList h <;> cases h <;> simp
  kinds h h' := by
    obtain h' | h' | h' := target_of_cycleList h'
    case inl         => contradiction
    case inr.inl     => contradiction
    case inr.inr     =>
      cases h'
      obtain h | h | h := target_of_cycleList h
      case inl     => exact absurd (Target.folder.inj h) (by decide)
      case inr.inl => exact absurd (Target.folder.inj h) (by decide)
      case inr.inr => contradiction

def cycleRun : List Action :=
  [.addSource 1 "a" "A", .start 2, .fetch, .record none, .record (some "B"), .crash,
    .fetch, .record none, .record none, .finish,
    .fetch, .record (some "A2"), .record none, .finish,
    .fetch, .record none, .record none, .finish]

def cyclePage : ListPage where
  runId          := 3
  sourceId       := 2
  ownerId        := 1
  googleFolderId := "a"
  localFolderId  := some 1
  pageToken      := none

theorem sync_run_cycle : ∃ w : World, Reaches (World.step cycle) {} w ∧
    w.history.count (.listed 3 "a") = 1 ∧ w.history.count (.listed 3 "b") = 1 ∧
    w.history.count (.recorded 3 "x") = 1 ∧ Acc (Goes cycle) w ∧
    recordPage w.tables cyclePage 1 (fun _ => none) firstPage.files = some w.tables := by
  have run : (Execution.run (World.step cycle) {} cycleRun).map (fun w =>
      (w.history.contains (.listed 3 "a"), w.history.contains (.listed 3 "b"),
        w.history.contains (.recorded 3 "x"), w.history.contains (.read 3 "a" none),
        (w.tables.runs.lookup 3).map (·.ownerId))) = some (true, true, true, true, some 1) := by
    decide +kernel
  obtain ⟨w, hw, h⟩ := Option.map_eq_some_iff.mp run
  simp only [Prod.mk.injEq, List.contains_iff_mem, Option.map_eq_some_iff] at h
  obtain ⟨a, b, x, read, r, hr, ho⟩ := h
  obtain ⟨listed, recorded, acc, -, again⟩ := sync_run (Execution.reaches_of_run hw)
  refine ⟨w, Execution.reaches_of_run hw, ?_, ?_, ?_, acc, ?_⟩
  case refine_1 => exact (listed 3 "a").antisymm (List.count_pos_iff.mpr a)
  case refine_2 => exact (listed 3 "b").antisymm (List.count_pos_iff.mpr b)
  case refine_3 => exact (recorded 3 "x").antisymm (List.count_pos_iff.mpr x)
  case refine_4 => exact again cyclePage r firstPage read hr ho.symm rfl 1 _

end World
end MyDrive.Google.Listing
