import MyDrive.Google.Sync
import MyDrive.Google.Theorems.Listing

-- What the counters of a run count, in every state that requests, ticks and crashes lead to.

open Execution

namespace MyDrive.Google

namespace Listing.Tables

variable {t t' : Tables} {run : Id} {p : ItemState → Bool}

def unfinished (state : ItemState) : Bool :=
  state = .pending || state = .downloading || state = .committing

-- The items of a run that have been deleted.
def dropped (deleted : List (Id × String)) (run : Id) : Nat :=
  deleted.countP (·.1 = run)

theorem number_congr
    (h : ∀ k, k.1 = run → (t'.items.lookup k).map (p ·.state) = (t.items.lookup k).map (p ·.state)) :
    t'.number run p = t.number run p := by
  refine Table.sum_congr fun k => ?_
  by_cases hk : k.1 = run
  case neg =>
    simp only [Table.weight, hk, decide_false, Bool.false_and]
    cases t.items.lookup k <;> cases t'.items.lookup k <;> rfl
  case pos =>
    have := h k hk
    unfold Table.weight
    cases hi : t.items.lookup k <;> cases hi' : t'.items.lookup k <;> simp_all

theorem number_eq_of_ne {k : Id × String} (hk : k.1 = run)
    (h : ∀ k' ≠ k, t'.items.lookup k' = t.items.lookup k') :
    t'.number run p + (t.items.lookup k).elim 0 (fun i => if p i.state then 1 else 0) =
      t.number run p + (t'.items.lookup k).elim 0 (fun i => if p i.state then 1 else 0) := by
  let f := fun (k : Id × String) (i : Item) => if k.1 = run && p i.state then 1 else 0
  have same (k' : Id × String) (hn : k' ≠ k) : t'.items.weight f k' = t.items.weight f k' := by
    simp only [Table.weight, h k' hn]
  have := Table.sum_eq_of_ne k same
  simp only [Table.weight, f, hk, decide_true, Bool.true_and] at this
  exact this

theorem number_map {f : Id × String → Item → Item}
    (hi : ∀ k, t'.items.lookup k = (t.items.lookup k).map (f k))
    (hp : ∀ k i, p (f k i).state = p i.state) : t'.number run p = t.number run p := by
  refine number_congr fun k _ => ?_
  rw [hi]
  cases t.items.lookup k <;> simp [hp]

theorem number_eq_zero (h : ∀ k i, t.items.lookup k = some i → k.1 ≠ run) : t.number run p = 0 := by
  refine Table.sum_congr (t := (Table.empty : Table (Id × String) Item)) (f := fun _ _ => 0) fun k => ?_
  unfold Table.weight
  cases hi : t.items.lookup k
  case none   => rfl
  case some i => simp [h k i hi]

theorem holds_iff {k : Id × String} {states : List ItemState} :
    t.holds k states ↔ ∃ i, t.items.lookup k = some i ∧ i.state ∈ states := by
  simp [holds, Option.any_eq_true]

-- Every item is in one of the states.
theorem number_true : t.number run (fun _ => true) =
    t.number run (· = .skipped) + (t.number run (· = .pending) + t.number run (· = .downloading) +
      t.number run (· = .committing) + t.number run (· = .stored) + t.number run (· = .failed)) := by
  simp only [number, ← Table.sum_add]
  refine Table.sum_congr fun k => ?_
  unfold Table.weight
  cases t.items.lookup k
  case none   => rfl
  case some i => by_cases hk : k.1 = run <;> cases hs : i.state <;> simp [hk, hs]

-- What holds of the rows that count and of those that are counted.
structure Counted (t : Tables) (tallies : Table Id Sync.Tally) (gone : List (Id × String)) : Prop where
  runs {run r}       : t.runs.lookup run = some r → run < t.next
  items {k i}        : t.items.lookup k = some i →
    ∃ r, t.runs.lookup k.1 = some r ∧ r.sourceId = i.sourceId
  deleted {k}        : k ∈ gone → k.1 < t.next
  discovered {run r} : t.runs.lookup run = some r →
    r.discoveredFiles = t.number run (fun _ => true) + dropped gone run
  skipped {run r}    : t.runs.lookup run = some r → r.skippedFiles = t.number run (· = .skipped)
  downloaded {run r} : t.runs.lookup run = some r →
    ∃ y, tallies.lookup run = some y ∧ y.downloadedFiles = t.number run (· = .stored)
  settled {k i r}    : t.items.lookup k = some i → unfinished i.state → t.runs.lookup k.1 = some r →
    r.state ≠ .completed

variable {tallies : Table Id Sync.Tally} {deleted : List (Id × String)}

theorem Counted.init : Counted {} .empty [] := by
  constructor <;> simp

-- The runs change, and keep what they count. The items stay.
theorem Counted.mapRuns {f : Id → Run → Run} (h : Counted t tallies deleted)
    (hr : ∀ run, t'.runs.lookup run = (t.runs.lookup run).map (f run))
    (hi : t'.items = t.items) (hn : t.next ≤ t'.next)
    (source : ∀ run r, (f run r).sourceId = r.sourceId)
    (discovered : ∀ run r, (f run r).discoveredFiles = r.discoveredFiles)
    (skipped : ∀ run r, (f run r).skippedFiles = r.skippedFiles)
    (state : ∀ run r, (f run r).state = .completed → r.state = .completed ∨ t.unsettled run = false) :
    Counted t' tallies deleted where
  runs {run r} hl := by
    obtain ⟨r', hr', -⟩ := Option.map_eq_some_iff.mp ((hr run).symm.trans hl)
    exact (h.runs hr').trans_le hn
  items {k i} hl := by
    obtain ⟨r, hl', hs⟩ := h.items (hi ▸ hl)
    exact ⟨f k.1 r, by rw [hr, hl']; rfl, (source _ _).trans hs⟩
  deleted hk := (h.deleted hk).trans_le hn
  discovered {run r} hl := by
    obtain ⟨r', hr', rfl⟩ := Option.map_eq_some_iff.mp ((hr run).symm.trans hl)
    rw [discovered, h.discovered hr', number, number, hi]
  skipped {run r} hl := by
    obtain ⟨r', hr', rfl⟩ := Option.map_eq_some_iff.mp ((hr run).symm.trans hl)
    rw [skipped, h.skipped hr', number, number, hi]
  downloaded {run r} hl := by
    obtain ⟨r', hr', rfl⟩ := Option.map_eq_some_iff.mp ((hr run).symm.trans hl)
    rw [number, hi]
    exact h.downloaded hr'
  settled {k i r} hl hu hl' hc := by
    obtain ⟨r', hr', rfl⟩ := Option.map_eq_some_iff.mp ((hr k.1).symm.trans hl')
    obtain hc | hs := state _ _ hc
    case inl => exact h.settled (hi ▸ hl) hu hr' hc
    case inr =>
      have : t.unsettled k.1 = true := by
        refine Table.any_iff.mpr ⟨k, i, hi ▸ hl, ?_⟩
        simpa [unfinished, or_assoc] using hu
      simp [hs] at this

-- The items change their states, of which none begins or ends to be skipped or stored.
theorem Counted.mapItems {f : Id × String → Item → Item} (h : Counted t tallies deleted)
    (hr : t'.runs = t.runs) (hi : ∀ k, t'.items.lookup k = (t.items.lookup k).map (f k))
    (hn : t'.next = t.next) (source : ∀ k i, (f k i).sourceId = i.sourceId)
    (skipped : ∀ k i, (f k i).state = .skipped ↔ i.state = .skipped)
    (stored : ∀ k i, (f k i).state = .stored ↔ i.state = .stored)
    (state : ∀ k i, unfinished (f k i).state → unfinished i.state) :
    Counted t' tallies deleted where
  runs hl := by
    rw [hr] at hl
    exact hn ▸ h.runs hl
  items {k i} hl := by
    obtain ⟨i', hi', rfl⟩ := Option.map_eq_some_iff.mp ((hi k).symm.trans hl)
    rw [source, hr]
    exact h.items hi'
  deleted hk := hn ▸ h.deleted hk
  discovered {run r} hl := by
    rw [number_map hi fun _ _ => rfl]
    exact h.discovered (hr ▸ hl)
  skipped {run r} hl := by
    rw [number_map hi fun k i => by simp [skipped]]
    exact h.skipped (hr ▸ hl)
  downloaded {run r} hl := by
    rw [number_map hi fun k i => by simp [stored]]
    exact h.downloaded (hr ▸ hl)
  settled {k i r} hl hu hl' := by
    obtain ⟨i', hi', rfl⟩ := Option.map_eq_some_iff.mp ((hi k).symm.trans hl)
    exact h.settled hi' (state _ _ hu) (hr ▸ hl')

theorem lookup_moveItem {k k' : Id × String} {states : List ItemState} {state : ItemState} :
    (t.moveItem k states state).items.lookup k' = (t.items.lookup k').map fun i =>
      if k' = k && states.contains i.state then { i with state } else i := by
  simp only [moveItem, Table.lookup_filterMap]
  cases t.items.lookup k' <;> rfl

-- An unfinished item moves on, but is not stored.
theorem Counted.moveItem {k : Id × String} {states : List ItemState} {state : ItemState}
    (h : Counted t tallies deleted) (hs : ∀ s ∈ states, unfinished s)
    (ht : unfinished state ∨ state = .failed) : Counted (t.moveItem k states state) tallies deleted := by
  have hskip : state ≠ .skipped := by
    rintro rfl
    obtain h | h := ht <;> contradiction
  have hstore : state ≠ .stored := by
    rintro rfl
    obtain h | h := ht <;> contradiction
  refine h.mapItems rfl (fun k' => lookup_moveItem) rfl ?_ ?_ ?_ ?_
  case refine_1 => intro k' i; split <;> rfl
  case refine_2 =>
    intro k' i
    split
    case isFalse   => rfl
    case isTrue hc =>
      simp only [Bool.and_eq_true, List.contains_iff_mem] at hc
      have := hs _ hc.right
      refine iff_of_false hskip fun he => ?_
      simp [he, unfinished] at this
  case refine_3 =>
    intro k' i
    split
    case isFalse   => rfl
    case isTrue hc =>
      simp only [Bool.and_eq_true, List.contains_iff_mem] at hc
      have := hs _ hc.right
      refine iff_of_false hstore fun he => ?_
      simp [he, unfinished] at this
  case refine_4 =>
    intro k' i
    split
    case isFalse   => exact id
    case isTrue hc =>
      simp only [Bool.and_eq_true, List.contains_iff_mem] at hc
      exact fun _ => hs _ hc.right

theorem Counted.recoverDownloads (h : Counted t tallies deleted) :
    Counted t.recoverDownloads tallies deleted := by
  have lookup (k : Id × String) : t.recoverDownloads.items.lookup k = (t.items.lookup k).map fun i =>
      if i.state = .downloading then { i with state := .pending } else i := by
    simp only [Tables.recoverDownloads, Table.lookup_filterMap]
    cases t.items.lookup k <;> rfl
  refine h.mapItems (f := fun _ i => _) rfl lookup rfl ?_ ?_ ?_ ?_
  case refine_1 => intro k i; split <;> rfl
  all_goals
    intro k i
    split
    case isTrue hd => simp [hd, unfinished]
    case isFalse   => simp

-- `finish_ready` counts the item that it stores.
theorem Counted.store {k : Id × String} (h : Counted t tallies deleted)
    (hk : t.holds k [.committing]) :
    Counted (t.moveItem k [.committing] .stored)
      (tallies.filterMap fun id y => some <|
        if id = k.1 then { y with downloadedFiles := y.downloadedFiles + 1 } else y) deleted := by
  obtain ⟨i, hi, hs⟩ := holds_iff.mp hk
  have hs : i.state = .committing := by simpa using hs
  have others {p : ItemState → Bool} (hp : p .stored = p .committing) {run : Id} :
      (t.moveItem k [.committing] .stored).number run p = t.number run p := by
    refine number_map (fun _ => lookup_moveItem) fun k' i' => ?_
    split
    case isFalse   => rfl
    case isTrue hc => simp_all
  exact {
    runs         := h.runs
    deleted      := h.deleted
    items hl     := by
      obtain ⟨i', hi', rfl⟩ := Option.map_eq_some_iff.mp (lookup_moveItem.symm.trans hl)
      obtain ⟨r, hr, he⟩ := h.items hi'
      exact ⟨r, hr, he.trans (by split <;> rfl)⟩
    discovered hr := by rw [others rfl]; exact h.discovered hr
    skipped hr    := by rw [others rfl]; exact h.skipped hr
    downloaded {run r} hr := by
      obtain ⟨y, hy, hn⟩ := h.downloaded hr
      refine ⟨_, by simp [hy]; rfl, ?_⟩
      split
      case isTrue he =>
        have others (k' : Id × String) (hn : k' ≠ k) :
            (t.moveItem k [.committing] .stored).items.lookup k' = t.items.lookup k' := by
          rw [lookup_moveItem]
          simp [hn]
        have := number_eq_of_ne (p := (· = .stored)) he.symm others
        rw [lookup_moveItem, hi] at this
        simp only [Option.elim_some, Option.map_some, hs] at this
        simpa [hn] using this.symm
      case isFalse he =>
        rw [hn]
        refine (number_congr fun k' hk' => ?_).symm
        rw [lookup_moveItem]
        cases t.items.lookup k'
        case none    => rfl
        case some i' =>
          have : k' ≠ k := by
            rintro rfl
            exact he hk'.symm
          simp [this]
    settled hl hu hr := by
      obtain ⟨i', hi', rfl⟩ := Option.map_eq_some_iff.mp (lookup_moveItem.symm.trans hl)
      refine h.settled hi' ?_ hr
      split at hu
      case isTrue  => contradiction
      case isFalse => exact hu }

-- The rows of a source go together.
theorem Counted.dropSources {gone : Id → Bool} (h : Counted t tallies deleted) :
    Counted (t.dropSources gone)
      (tallies.filterMap fun id y => if ((t.dropSources gone).runs.lookup id).isSome then some y else none)
      deleted := by
  have runs {run : Id} {r : Run} : (t.dropSources gone).runs.lookup run = some r ↔
      t.runs.lookup run = some r ∧ gone r.sourceId = false := by
    simp only [Tables.dropSources, Table.lookup_filterMap]
    cases t.runs.lookup run
    case none    => simp
    case some r' =>
      simp only [Option.bind_some, Option.some.injEq]
      split <;> grind
  have items {k : Id × String} {i : Item} : (t.dropSources gone).items.lookup k = some i ↔
      t.items.lookup k = some i ∧ gone i.sourceId = false := by
    simp only [Tables.dropSources, Table.lookup_filterMap]
    cases hi : t.items.lookup k
    case none    => simp
    case some i' =>
      obtain ⟨r, hr, hs⟩ := h.items hi
      simp only [Option.bind_some, Option.some.injEq, hr, Option.any_some, hs, Bool.or_self]
      split <;> grind
  have number {run : Id} {r : Run} {p : ItemState → Bool}
      (hr : (t.dropSources gone).runs.lookup run = some r) :
      (t.dropSources gone).number run p = t.number run p := by
    obtain ⟨hr, hg⟩ := runs.mp hr
    refine number_congr fun k hk => ?_
    congr 1
    ext i
    refine items.trans (and_iff_left_of_imp fun hi => ?_)
    obtain ⟨r', hr', hs⟩ := h.items hi
    rw [hk, hr] at hr'
    cases hr'
    rw [← hs, hg]
  exact {
    runs hr          := h.runs (runs.mp hr).left
    deleted          := h.deleted
    items hi         := by
      obtain ⟨hi, hg⟩ := items.mp hi
      obtain ⟨r, hr, hs⟩ := h.items hi
      exact ⟨r, runs.mpr ⟨hr, hs ▸ hg⟩, hs⟩
    discovered hr    := by rw [number hr]; exact h.discovered (runs.mp hr).left
    skipped hr       := by rw [number hr]; exact h.skipped (runs.mp hr).left
    downloaded hr    := by
      rw [number hr]
      obtain ⟨y, hy, hn⟩ := h.downloaded (runs.mp hr).left
      exact ⟨y, by simp [hy, hr], hn⟩
    settled hi hu hr := h.settled (items.mp hi).left hu (runs.mp hr).left }

theorem dropped_append {items items' : List (Id × String)} :
    dropped (items ++ items') run = dropped items run + dropped items' run :=
  List.countP_append

theorem dropped_keys {rows : List ((Id × String) × Item)} :
    dropped (rows.map (·.1)) run = (rows.map fun r => if r.1.1 = run && true then 1 else 0).sum := by
  induction rows
  case nil => rfl
  case cons r rs ih =>
    rw [dropped] at ih ⊢
    rw [List.map_cons, List.countP_cons, ih, List.map_cons, List.sum_cons, Nat.add_comm]
    simp

-- The pending items that are deleted are counted apart.
theorem Counted.deleteItems {items : List (Id × String)} (h : Counted t tallies deleted) :
    Counted (t.deleteItems items) tallies
      (deleted ++ (t.items.rows.filter fun r => deletable items r.1 r.2).map (·.1)) := by
  have kept {k : Id × String} {i : Item} (hi : (t.deleteItems items).items.lookup k = some i) :
      t.items.lookup k = some i := by
    simp only [Tables.deleteItems, Table.lookup_filterMap, Option.bind_eq_some_iff] at hi
    obtain ⟨i', hi', he⟩ := hi
    split at he
    case isTrue  => contradiction
    case isFalse => exact hi'.trans he
  have number {run : Id} {p : ItemState → Bool} : (t.deleteItems items).number run p +
      ((t.items.rows.filter fun r => deletable items r.1 r.2).map
        fun r => if r.1.1 = run && p r.2.state then 1 else 0).sum = t.number run p :=
    Table.sum_delete
  have pending {run : Id} {p : ItemState → Bool} (hp : p .pending = false) :
      (t.deleteItems items).number run p = t.number run p := by
    rw [← number (p := p), Nat.left_eq_add]
    refine List.sum_eq_zero fun n hn => ?_
    obtain ⟨r, hr, rfl⟩ := List.mem_map.mp hn
    have := (List.mem_filter.mp hr).right
    simp only [deletable, Bool.and_eq_true, decide_eq_true_eq] at this
    simp [this.right, hp]
  exact {
    runs             := h.runs
    items hi         := h.items (kept hi)
    deleted hk       := by
      obtain hk | hk := List.mem_append.mp hk
      case inl => exact h.deleted hk
      case inr =>
        obtain ⟨r, hr, rfl⟩ := List.mem_map.mp hk
        obtain ⟨r', hr', -⟩ := h.items (Table.lookup_eq_some_iff.mpr (List.mem_filter.mp hr).left)
        exact h.runs hr'
    discovered hr    := by
      rw [h.discovered hr, dropped_append, dropped_keys, ← number]
      omega
    skipped hr       := by rw [pending (by rfl)]; exact h.skipped hr
    downloaded hr    := by rw [pending (by rfl)]; exact h.downloaded hr
    settled hi hu hr := h.settled (kept hi) hu hr }

theorem Counted.startRun {source : Id} {s : Source} (h : Counted t tallies deleted) :
    Counted (t.startRun source s) (tallies.set t.next {}) deleted := by
  have fresh {k : Id × String} {i : Item} (hi : t.items.lookup k = some i) : k.1 ≠ t.next := by
    obtain ⟨r, hr, -⟩ := h.items hi
    exact Nat.ne_of_lt (h.runs hr)
  have runs {run : Id} {r : Run} (hr : (t.startRun source s).runs.lookup run = some r) :
      run = t.next ∧ r = { sourceId := source, ownerId := s.ownerId } ∨
        run ≠ t.next ∧ t.runs.lookup run = some r := by
    simp only [Tables.startRun, Table.lookup_set] at hr
    split at hr
    case isTrue he  => exact .inl ⟨he, (Option.some.inj hr).symm⟩
    case isFalse he => exact .inr ⟨he, hr⟩
  have none (p : ItemState → Bool) : (t.startRun source s).number t.next p = 0 :=
    number_eq_zero fun _ _ hi => fresh hi
  exact {
    runs hr          := by
      obtain ⟨rfl, -⟩ | ⟨-, hr⟩ := runs hr
      case inl => exact Nat.lt_add_of_pos_right (by decide)
      case inr => exact (h.runs hr).trans (Nat.lt_add_of_pos_right (by decide))
    items hi         := by
      obtain ⟨r, hr, hs⟩ := h.items hi
      exact ⟨r, by simp [Tables.startRun, fresh hi, hr], hs⟩
    deleted hk       := (h.deleted hk).trans (Nat.lt_add_of_pos_right (by decide))
    discovered hr    := by
      obtain ⟨rfl, rfl⟩ | ⟨-, hr⟩ := runs hr
      case inl =>
        rw [none]
        refine (List.countP_eq_zero.mpr fun k hk => ?_).symm.trans (Nat.zero_add _).symm
        simpa using Nat.ne_of_lt (h.deleted hk)
      case inr => exact h.discovered hr
    skipped hr       := by
      obtain ⟨rfl, rfl⟩ | ⟨-, hr⟩ := runs hr
      case inl => exact (none _).symm
      case inr => exact h.skipped hr
    downloaded hr    := by
      obtain ⟨rfl, -⟩ | ⟨hn, hr⟩ := runs hr
      case inl => exact ⟨{}, by simp, (none _).symm⟩
      case inr =>
        obtain ⟨y, hy, he⟩ := h.downloaded hr
        exact ⟨y, by simp [hn, hy], he⟩
    settled hi hu hr := by
      obtain ⟨he, -⟩ | ⟨-, hr⟩ := runs hr
      case inl => exact absurd he (fresh hi)
      case inr => exact h.settled hi hu hr }

theorem ensureLinkedFolder_frame {owner : Id} {parent : Option Id} {id : String} {name : Option String}
    {r : Tables × Id} (h : t.ensureLinkedFolder owner parent id name = some r) :
    r.1.runs = t.runs ∧ r.1.items = t.items ∧ t.next ≤ r.1.next := by
  unfold ensureLinkedFolder at h
  split at h
  case h_1 => cases h; exact ⟨rfl, rfl, Nat.le_refl _⟩
  case h_2 =>
    obtain ⟨name, -, rfl⟩ := Option.map_eq_some_iff.mp h
    exact ⟨rfl, rfl, Nat.le_succ _⟩

theorem listedItem_source {page : ListPage} {parent : Id} {file : RemoteFile} {id mime : String} :
    (t.listedItem page parent file id mime).sourceId = page.sourceId := by
  unfold listedItem
  dsimp only
  split <;> rfl

theorem listedItem_state {page : ListPage} {parent : Id} {file : RemoteFile} {id mime : String} :
    (t.listedItem page parent file id mime).state = .skipped ∨
      (t.listedItem page parent file id mime).state = .pending := by
  unfold listedItem
  dsimp only
  split
  case h_1 => exact .inl rfl
  all_goals
    dsimp only
    split
    case isTrue  => exact .inl rfl
    case isFalse => exact .inr rfl

-- What `remember_file` counts of a new item.
def countItem (own : Id) (item : Item) (run : Id) (r : Run) : Run :=
  if run = own then
    { r with
      discoveredFiles := r.discoveredFiles + 1
      discoveredBytes := r.discoveredBytes + item.sizeBytes.getD 0
      skippedFiles    := r.skippedFiles + (if item.state = ItemState.skipped then 1 else 0) }
  else r

section

variable {own : Id} {id : String} {item i : Item} {k : Id × String} {r : Run}

theorem countItem_source : (countItem own item run r).sourceId = r.sourceId := by
  unfold countItem
  split <;> rfl

theorem countItem_state : (countItem own item run r).state = r.state := by
  unfold countItem
  split <;> rfl

theorem countItem_discovered : (countItem own item run r).discoveredFiles =
    r.discoveredFiles + if run = own then 1 else 0 := by
  unfold countItem
  split <;> rfl

theorem countItem_skipped : (countItem own item run r).skippedFiles =
    r.skippedFiles + if run = own ∧ item.state = .skipped then 1 else 0 := by
  unfold countItem
  by_cases he : run = own <;> simp [he]

def addItem (t : Tables) (own : Id) (id : String) (item : Item) : Tables :=
  ({ t with items := t.items.set (own, id) item } : Tables).mapRuns (countItem own item)

theorem lookup_addItem_runs :
    (t.addItem own id item).runs.lookup run = (t.runs.lookup run).map (countItem own item run) :=
  lookup_mapRuns

theorem lookup_addItem_items :
    (t.addItem own id item).items.lookup k = if k = (own, id) then some item else t.items.lookup k :=
  Table.lookup_set

theorem number_addItem (hn : t.items.lookup (own, id) = none) :
    (t.addItem own id item).number run p = t.number run p + if run = own ∧ p item.state then 1 else 0 := by
  by_cases he : own = run
  case neg =>
    have same : (t.addItem own id item).number run p = t.number run p := by
      refine number_congr fun k hk => ?_
      have : k ≠ (own, id) := by
        rintro rfl
        exact he hk
      rw [lookup_addItem_items, if_neg this]
    simp [same, Ne.symm he]
  case pos =>
    have others (k : Id × String) (hk : k ≠ (own, id)) :
        (t.addItem own id item).items.lookup k = t.items.lookup k := by
      rw [lookup_addItem_items, if_neg hk]
    have := number_eq_of_ne (p := p) he others
    rw [lookup_addItem_items, hn] at this
    simpa [he] using this

-- A new item is counted, be it pending or skipped.
theorem Counted.addItem (h : Counted t tallies deleted) (hn : t.items.lookup (own, id) = none)
    (hr : t.runs.lookup own = some r) (hs : r.sourceId = item.sourceId) (hc : r.state ≠ .completed)
    (state : item.state = .skipped ∨ item.state = .pending) :
    Counted (t.addItem own id item) tallies deleted := by
  have runs {run : Id} {r : Run} (hl : (t.addItem own id item).runs.lookup run = some r) :
      ∃ r', t.runs.lookup run = some r' ∧ countItem own item run r' = r :=
    Option.map_eq_some_iff.mp (lookup_addItem_runs.symm.trans hl)
  have items {k : Id × String} {i : Item} (hi : (t.addItem own id item).items.lookup k = some i) :
      k = (own, id) ∧ i = item ∨ t.items.lookup k = some i := by
    rw [lookup_addItem_items] at hi
    split at hi
    case isTrue he => exact .inl ⟨he, (Option.some.inj hi).symm⟩
    case isFalse   => exact .inr hi
  exact {
    runs hl          := by
      obtain ⟨r', hr', -⟩ := runs hl
      exact h.runs hr'
    items hi         := by
      obtain ⟨rfl, rfl⟩ | hi := items hi
      case inl =>
        exact ⟨_, lookup_addItem_runs.trans (congrArg (Option.map _) hr), countItem_source.trans hs⟩
      case inr =>
        obtain ⟨r', hr', hs'⟩ := h.items hi
        exact ⟨_, lookup_addItem_runs.trans (congrArg (Option.map _) hr'), countItem_source.trans hs'⟩
    deleted          := h.deleted
    discovered hl    := by
      obtain ⟨r', hr', rfl⟩ := runs hl
      rw [number_addItem hn, countItem_discovered, h.discovered hr']
      simp only [and_true]
      omega
    skipped hl       := by
      obtain ⟨r', hr', rfl⟩ := runs hl
      rw [number_addItem hn, countItem_skipped, h.skipped hr']
      simp
    downloaded hl    := by
      obtain ⟨r', hr', rfl⟩ := runs hl
      obtain ⟨y, hy, he⟩ := h.downloaded hr'
      refine ⟨y, hy, he.trans ?_⟩
      obtain hp | hp := state <;> simp [number_addItem hn, hp]
    settled hi hu hl := by
      obtain ⟨r', hr', rfl⟩ := runs hl
      rw [countItem_state]
      obtain ⟨rfl, rfl⟩ | hi := items hi
      case inl =>
        rw [hr] at hr'
        cases hr'
        exact hc
      case inr => exact h.settled hi hu hr' }

end

theorem Counted.rememberFile {page : ListPage} {parent : Id} {file : RemoteFile} {id mime : String}
    {r : Run} (h : Counted t tallies deleted) (hr : t.runs.lookup page.runId = some r)
    (hs : r.sourceId = page.sourceId) (hc : r.state ≠ .completed) :
    Counted (t.rememberFile page parent file id mime) tallies deleted := by
  unfold Tables.rememberFile
  split
  case h_1    => exact h
  case h_2 hn => exact h.addItem hn hr (hs.trans listedItem_source.symm) hc listedItem_state

theorem Counted.recordRemote {page : ListPage} {parent : Id} {file : RemoteFile} {name : Option String}
    (h : Counted t tallies deleted)
    (hr : file.target = none ∨ ∃ r, t.runs.lookup page.runId = some r ∧ r.sourceId = page.sourceId ∧
      r.state ≠ .completed)
    (he : t.recordRemote page parent file name = some t') : Counted t' tallies deleted := by
  unfold Tables.recordRemote at he
  split at he
  case h_1 => cases he; exact h
  case h_2 id ht =>
    obtain ⟨p, hp, rfl⟩ := Option.map_eq_some_iff.mp he
    obtain ⟨runs, items, next⟩ := ensureLinkedFolder_frame hp
    dsimp only
    split
    case h_1 =>
      exact h.mapRuns (f := fun _ r => r) (fun run => by simp [runs]) items next (fun _ _ => rfl)
        (fun _ _ => rfl) (fun _ _ => rfl) fun _ _ => .inl
    case h_2 =>
      rw [updateRun_eq]
      refine h.mapRuns (f := fun id r => if id = page.runId then
        { r with discoveredFolders := r.discoveredFolders + 1 } else r) (fun run => ?_) items
          (next.trans (Nat.le_succ _)) ?_ ?_ ?_ ?_
      case refine_1 => rw [lookup_mapRuns]; dsimp only; rw [runs]
      case refine_5 => intro run r; split <;> exact .inl
      all_goals intro run r; split <;> rfl
  case h_3 id mime ht =>
    cases he
    obtain hr | ⟨r, hr, hs, hc⟩ := hr
    case inl => rw [ht] at hr; contradiction
    case inr => exact h.rememberFile hr hs hc

-- The runs that there are stay as they are to the worker, or go.
structure Follows (t t' : Tables) : Prop where
  next : t.next ≤ t'.next
  runs {run r'} : t'.runs.lookup run = some r' → run < t.next →
    ∃ r, t.runs.lookup run = some r ∧ r'.sourceId = r.sourceId ∧ (r'.state = .completed → r.state = .completed)

theorem Follows.of_eq (hr : t'.runs = t.runs) (hn : t.next ≤ t'.next) : Follows t t' where
  next       := hn
  runs hl _  := ⟨_, hr ▸ hl, rfl, id⟩

theorem Follows.mapRuns {f : Id → Run → Run} (hn : t.next ≤ t'.next)
    (hr : ∀ run, t'.runs.lookup run = (t.runs.lookup run).map (f run))
    (source : ∀ run r, (f run r).sourceId = r.sourceId)
    (state : ∀ run r, (f run r).state = .completed → r.state = .completed) : Follows t t' where
  next              := hn
  runs {run r} hl _ := by
    obtain ⟨r', hr', rfl⟩ := Option.map_eq_some_iff.mp ((hr run).symm.trans hl)
    exact ⟨r', hr', source run r', state run r'⟩

theorem Follows.startRun {source : Id} {s : Source} (h : Follows t t') :
    Follows t (t'.startRun source s) where
  next       := h.next.trans (Nat.le_add_right _ _)
  runs hl hn := by
    rw [Tables.startRun, Table.lookup_set, if_neg (Nat.ne_of_lt (hn.trans_le h.next))] at hl
    exact h.runs hl hn

theorem Follows.dropSources {gone : Id → Bool} : Follows t (t.dropSources gone) where
  next       := Nat.le_refl _
  runs hl _  := by
    simp only [Tables.dropSources, Table.lookup_filterMap, Option.bind_eq_some_iff] at hl
    obtain ⟨r, hr, he⟩ := hl
    split at he <;> cases he
    exact ⟨_, hr, rfl, id⟩

theorem follows_recordRemote {page : ListPage} {parent : Id} {file : RemoteFile} {name : Option String}
    (he : t.recordRemote page parent file name = some t') : Follows t t' := by
  unfold Tables.recordRemote at he
  split at he
  case h_1 => cases he; exact .of_eq rfl (Nat.le_refl _)
  case h_2 id ht =>
    obtain ⟨p, hp, rfl⟩ := Option.map_eq_some_iff.mp he
    obtain ⟨runs, -, next⟩ := ensureLinkedFolder_frame hp
    dsimp only
    split
    case h_1 => exact .of_eq runs next
    case h_2 =>
      rw [updateRun_eq]
      refine .mapRuns (f := fun id r => if id = page.runId then
        { r with discoveredFolders := r.discoveredFolders + 1 } else r) (next.trans (Nat.le_succ _))
          (fun run => ?_) ?_ ?_
      case refine_1 => rw [lookup_mapRuns]; dsimp only; rw [runs]
      case refine_2 => intro run r; split <;> rfl
      case refine_3 => intro run r; split <;> exact fun hc => hc
  case h_3 id mime ht =>
    cases he
    unfold Tables.rememberFile
    split
    case h_1 => exact .of_eq rfl (Nat.le_refl _)
    case h_2 =>
      exact .mapRuns (f := countItem _ _) (Nat.le_refl _) (fun run => lookup_addItem_runs)
        (fun _ _ => countItem_source) fun _ _ hc => countItem_state.symm.trans hc

-- The statements that end runs.
section

variable {runs : List Id}

theorem lookup_failActiveRuns : t.failActiveRuns.runs.lookup run = (t.runs.lookup run).map fun r =>
    if r.active then { r with state := .failed } else r := by
  simp only [failActiveRuns, Table.lookup_filterMap]
  cases t.runs.lookup run <;> rfl

theorem Counted.failActiveRuns (h : Counted t tallies deleted) : Counted t.failActiveRuns tallies deleted := by
  refine h.mapRuns (f := fun _ r => if r.active then { r with state := .failed } else r)
    (fun _ => lookup_failActiveRuns) rfl (Nat.le_refl _) ?_ ?_ ?_ fun _ r hc => .inl ?_
  case refine_4 => split at hc <;> [contradiction; exact hc]
  all_goals intro run r; split <;> rfl

theorem lookup_cancelRuns : (t.cancelRuns runs).runs.lookup run = (t.runs.lookup run).map fun r =>
    if runs.contains run && r.active then { r with state := .cancelled } else r := by
  simp only [cancelRuns, Table.lookup_filterMap]
  cases t.runs.lookup run <;> rfl

theorem Follows.cancelRuns {items : List (Id × String)} :
    Follows t ((t.cancelRuns runs).deleteItems items) := by
  refine .mapRuns (f := fun run r =>
      if runs.contains run && r.active then { r with state := .cancelled } else r)
    (Nat.le_refl _) (fun _ => lookup_cancelRuns) ?_ fun _ r hc => ?_
  case refine_1 => intro run r; split <;> rfl
  case refine_2 => split at hc <;> [contradiction; exact hc]

theorem Counted.cancelRuns (h : Counted t tallies deleted) :
    Counted (t.cancelRuns runs) tallies deleted := by
  refine h.mapRuns (f := fun run r =>
      if runs.contains run && r.active then { r with state := .cancelled } else r)
    (fun _ => lookup_cancelRuns) rfl (Nat.le_refl _) ?_ ?_ ?_ fun _ r hc => .inl ?_
  case refine_4 => split at hc <;> [contradiction; exact hc]
  all_goals intro run r; split <;> rfl

theorem Counted.finishRuns (h : Counted t tallies deleted) : Counted t.finishRuns tallies deleted := by
  refine h.mapRuns (f := fun id r => if r.active && !t.unlisted id then
      { r with state := if t.unsettled id then .downloading else .completed } else r)
    (fun run => ?_) rfl (Nat.le_refl _) ?_ ?_ ?_ fun run r hc => ?_
  case refine_1 =>
    simp only [Tables.finishRuns, Table.lookup_filterMap]
    cases t.runs.lookup run <;> rfl
  case refine_5 =>
    split at hc
    case isFalse => exact .inl hc
    case isTrue  =>
      refine .inr (Bool.eq_false_iff.mpr fun hu => ?_)
      rw [hu] at hc
      contradiction
  all_goals intro run r; split <;> rfl

end

end Listing.Tables

namespace Sync

open Listing (Tables ListPage Run Item Work)
open Listing.Tables

namespace World

variable {w w' : World}

-- The page that the worker is at belongs to a run that is not over.
def Working (t : Tables) (work : Work) : Prop :=
  work.page.runId < t.next ∧ ∀ r, t.runs.lookup work.page.runId = some r →
    r.sourceId = work.page.sourceId ∧ r.state ≠ .completed

theorem Working.follows {t t' : Tables} {work work' : Work} (h : Working t work) (hf : Follows t t')
    (hp : work'.page = work.page) : Working t' work' := by
  rw [Working, hp]
  refine ⟨h.left.trans_le hf.next, fun r' hr' => ?_⟩
  obtain ⟨r, hr, hs, hc⟩ := hf.runs hr' h.left
  obtain ⟨hs', hc'⟩ := h.right r hr
  exact ⟨hs.trans hs', fun he => hc' (hc he)⟩

structure Sound (w : World) : Prop where
  counted : Counted w.tables w.tallies w.deleted
  working : ∀ work, w.stage = .listing work → Working w.tables work

-- A request leaves the worker where it is.
theorem Sound.request (h : Sound w) (counted : Counted w'.tables w'.tallies w'.deleted)
    (hs : w'.stage = w.stage) (hf : Follows w.tables w'.tables) : Sound w' where
  counted         := counted
  working work hw := (h.working work (hs ▸ hw)).follows hf rfl

-- The worker is at no page afterwards.
theorem Sound.away (counted : Counted w'.tables w'.tallies w'.deleted)
    (hs : ∀ work, w'.stage ≠ .listing work) : Sound w' where
  counted         := counted
  working work hw := absurd hw (hs work)

-- A failure is counted elsewhere.
theorem counted_updateTally {run : Id} (h : Counted w.tables w.tallies w.deleted) :
    Counted w.tables
      (w.updateTally run fun y => { y with failedFiles := y.failedFiles + 1 }).tallies w.deleted where
  runs       := h.runs
  items      := h.items
  deleted    := h.deleted
  discovered := h.discovered
  skipped    := h.skipped
  downloaded hr := by
    obtain ⟨y, hy, hn⟩ := h.downloaded hr
    refine ⟨_, by simp [updateTally, hy]; rfl, ?_⟩
    split
    case isTrue  => exact hn
    case isFalse => exact hn
  settled    := h.settled

theorem Sound.startRun {source : Id} (h : Sound w) (hs : w.startRun source = some w') : Sound w' := by
  obtain ⟨s, -, rfl⟩ := Option.map_eq_some_iff.mp hs
  exact h.request h.counted.startRun rfl (.startRun (.of_eq rfl (Nat.le_refl _)))

-- New sources and folders.
theorem counted_of_eq {t t' : Tables} {tallies : Table Id Tally} {deleted : List (Id × String)}
    (h : Counted t tallies deleted) (hr : t'.runs = t.runs) (hi : t'.items = t.items) (hn : t.next ≤ t'.next) :
    Counted t' tallies deleted :=
  h.mapRuns (f := fun _ r => r) (fun run => by simp [hr]) hi hn (fun _ _ => rfl) (fun _ _ => rfl)
    (fun _ _ => rfl) fun _ _ => .inl

theorem Sound.selectSource {owner : Id} {folder name : String} (h : Sound w)
    (hs : w.selectSource owner folder name = some w') : Sound w' := by
  unfold World.selectSource at hs
  dsimp only at hs
  split at hs
  case isTrue => contradiction
  split at hs
  case h_1 =>
    refine Sound.startRun ?_ hs
    exact h.request (counted_of_eq h.counted rfl rfl (Nat.le_add_right _ 2)) rfl
      (.of_eq rfl (Nat.le_add_right _ 2))
  case h_2 =>
    split at hs
    case isFalse => contradiction
    case isTrue =>
      refine Sound.startRun ?_ hs
      exact h.request (counted_of_eq h.counted rfl rfl (Nat.le_succ _)) rfl (.of_eq rfl (Nat.le_succ _))

theorem Sound.dropSources {gone : Id → Bool} (h : Sound w) : Sound (w.dropSources gone) :=
  h.request h.counted.dropSources rfl .dropSources

theorem Sound.commitRemoval {request : Nat} (h : Sound w) (hs : w.commitRemoval request = some w') :
    Sound w' := by
  unfold World.commitRemoval at hs
  split at hs
  case h_2 => contradiction
  case h_1 source runs items committing _ =>
    dsimp only at hs
    split at hs
    case isTrue =>
      cases hs
      exact h.request h.counted.cancelRuns.deleteItems rfl .cancelRuns
    case isFalse =>
      cases hs
      exact Sound.dropSources ⟨h.counted, h.working⟩

theorem Sound.listPage {answer : Option Listing.RemoteList} (h : Sound w)
    (hs : w.listPage answer = some w') : Sound w' := by
  unfold World.listPage at hs
  split at hs
  case h_1 => cases hs; exact .away h.counted (by simp)
  case h_2 l _ =>
    obtain ⟨page, hp, hs⟩ := Option.bind_eq_some_iff.mp hs
    obtain ⟨parent, -, rfl⟩ := Option.map_eq_some_iff.mp hs
    refine ⟨h.counted, fun work hw => ?_⟩
    cases hw
    obtain ⟨⟨k, q⟩, hf, hp⟩ := Option.bind_eq_some_iff.mp hp
    obtain ⟨r, hr, rfl⟩ := Option.map_eq_some_iff.mp hp
    have hw := (List.mem_filter.mp (Listing.World.mem_of_first hf)).right
    simp only [Listing.World.waiting, hr, Option.any_some, Bool.and_eq_true] at hw
    refine ⟨h.counted.runs hr, fun r' hr' => ?_⟩
    cases hr.symm.trans hr'
    exact ⟨rfl, fun hc => by simp [Run.active, hc] at hw⟩
  case h_3 => contradiction

theorem Sound.record {name : Option String} (h : Sound w) (hs : w.record name = some w') : Sound w' := by
  unfold World.record at hs
  split at hs
  case h_2 => contradiction
  case h_1 page file todo next hw =>
    have working := h.working _ hw
    split at hs
    case isFalse => contradiction
    case isTrue hg =>
      obtain ⟨parent, -, hs⟩ := Option.bind_eq_some_iff.mp hs
      obtain ⟨t, ht, rfl⟩ := Option.map_eq_some_iff.mp hs
      refine ⟨h.counted.recordRemote ?_ ht, fun work hw' => ?_⟩
      case refine_1 =>
        simp only [Bool.or_eq_true, decide_eq_true_eq, Option.isSome_iff_exists] at hg
        refine hg.imp_right fun hr => ?_
        obtain ⟨r, hr⟩ := hr
        exact ⟨r, hr, working.right r hr⟩
      case refine_2 =>
        cases hw'
        exact working.follows (follows_recordRemote ht) rfl

-- What `claim_item`, `commit_staged`, `release_item` and the two failures do to an item.
theorem counted_withItem {k : Id × String} {states : List ItemState} {state : ItemState} (h : Sound w)
    (hs : ∀ s ∈ states, unfinished s) (ht : unfinished state ∨ state = .failed) :
    Counted (w.withItem k states state).tables w.tallies w.deleted :=
  h.counted.moveItem hs ht

theorem sound_step {a : Action} (h : Sound w) (hs : w.step a = some w') : Sound w' := by
  cases a <;> simp only [World.step] at hs
  case setDrive =>
    cases hs
    exact h.request (counted_of_eq h.counted rfl rfl (Nat.le_refl _)) rfl (.of_eq rfl (Nat.le_refl _))
  case suspend      => cases hs; exact ⟨h.counted, h.working⟩
  case selectSource => exact h.selectSource hs
  case startRun     => exact h.startRun hs
  case disconnect   => cases hs; exact h.dropSources
  case cancelRuns =>
    unfold World.cancelRuns at hs
    split at hs <;> cases hs
    exact ⟨h.counted, h.working⟩
  case deleteItems =>
    unfold World.deleteItems at hs
    split at hs <;> cases hs
    exact ⟨h.counted, h.working⟩
  case countCommitting =>
    unfold World.countCommitting at hs
    split at hs <;> cases hs
    exact ⟨h.counted, h.working⟩
  case commitRemoval => exact h.commitRemoval hs
  case rollback      => cases hs; exact ⟨h.counted, h.working⟩
  case recoverDownloads =>
    split at hs <;> cases hs
    exact .away h.counted.recoverDownloads (by simp)
  case resumeCommit =>
    unfold World.resumeCommit at hs
    split at hs
    case h_1 => split at hs <;> cases hs; exact .away h.counted (by simp)
    case h_2 => split at hs <;> cases hs; exact .away h.counted (by simp)
    case h_3 => contradiction
  case finishReady =>
    have store (k : Id × String) (hk : w.tables.holds k [.committing]) :
        Sound ((w.withItem k [.committing] .stored).updateTally k.1 fun y =>
          { y with downloadedFiles := y.downloadedFiles + 1 }).worked :=
      .away (h.counted.store hk) (by simp [worked])
    unfold World.finishReady at hs
    split at hs <;> try contradiction
    all_goals
      split at hs
      case isTrue hk => cases hs; exact store _ hk
      case isFalse   => cases hs; exact .away h.counted (by simp [worked])
  case abandonCommit =>
    unfold World.abandonCommit at hs
    split at hs <;> try contradiction
    split at hs
    case isTrue =>
      cases hs
      have failed (k : Id × String) :
          Counted (w.withItem k [.committing] .failed).tables w.tallies w.deleted :=
        counted_withItem h (by simp [unfinished]) (.inr rfl)
      exact .away (counted_updateTally (failed _)) (by simp [worked])
    case isFalse => cases hs; exact .away h.counted (by simp [worked])
  case postpone =>
    unfold World.postpone at hs
    split at hs <;> cases hs
    all_goals exact .away h.counted (by simp [worked])
  case defer =>
    unfold World.defer at hs
    split at hs <;> cases hs
    exact .away h.counted (by simp)
  case claimItem =>
    unfold World.claimItem at hs
    split at hs
    case h_1 =>
      split at hs <;> cases hs
      exact .away (counted_withItem h (by simp [unfinished]) (.inl rfl)) (by simp)
    case h_2 => cases hs; exact .away h.counted (by simp)
    case h_3 => contradiction
  case stageDownload =>
    unfold World.stageDownload at hs
    split at hs <;> cases hs
    exact .away h.counted (by simp)
  case commitStaged =>
    unfold World.commitStaged at hs
    split at hs <;> cases hs
    exact .away (counted_withItem h (by simp [unfinished]) (.inl rfl)) (by simp)
  case releaseItem =>
    unfold World.releaseItem at hs
    split at hs <;> cases hs
    exact .away (counted_withItem h (by simp [unfinished]) (.inl rfl)) (by simp)
  case refuse =>
    unfold World.refuse at hs
    split at hs <;> cases hs
    case h_1 =>
      refine .away ?_ (by simp)
      dsimp only
      split
      case isTrue  => exact h.counted.failActiveRuns
      case isFalse => exact h.counted
    all_goals exact .away h.counted (by simp)
  case failItem =>
    unfold World.failItem at hs
    split at hs <;> try contradiction
    dsimp only at hs
    split at hs
    case isTrue  => cases hs; exact .away (counted_withItem h (by simp [unfinished]) (.inr rfl)) (by simp)
    case isFalse => cases hs; exact .away h.counted (by simp [worked])
  case countFailed =>
    unfold World.countFailed at hs
    split at hs <;> cases hs
    exact .away (counted_updateTally h.counted) (by simp [worked])
  case listPage => exact h.listPage hs
  case record   => exact h.record hs
  case advance =>
    unfold World.advance at hs
    split at hs <;> cases hs
    exact .away (counted_of_eq h.counted rfl rfl (Nat.le_refl _)) (by simp [worked])
  case finishRuns =>
    unfold World.finishRuns at hs
    split at hs <;> cases hs
    exact .away h.counted.finishRuns (by simp [worked])
  case fail =>
    cases hs
    unfold World.fail
    split
    case isTrue =>
      refine .away ?_ (by simp)
      dsimp only
      split
      case isTrue  => exact h.counted.failActiveRuns
      case isFalse => exact h.counted
    case isFalse => exact .away h.counted (by simp)
  case crash => cases hs; exact .away h.counted (by simp)

theorem sound_reaches (e : Reaches World.step {} w) : Sound w :=
  e.invariant ⟨.init, fun _ h => by contradiction⟩ fun h _ => sound_step h

-- The counters of a run agree with its items, of which `missing` have been deleted.
structure Agrees (t : Tables) (run : Id) (r : Run) (y : Tally) (missing : Nat) : Prop where
  discovered : r.discoveredFiles = r.skippedFiles + (t.number run (· = .pending) +
    t.number run (· = .downloading) + t.number run (· = .committing) + t.number run (· = .stored) +
    t.number run (· = .failed)) + missing
  downloaded : y.downloadedFiles = t.number run (· = .stored)
  completed  : r.state = .completed → ∀ id i, t.items.lookup (run, id) = some i →
    i.state ≠ .pending ∧ i.state ≠ .downloading ∧ i.state ≠ .committing

theorem run_agrees (e : Reaches World.step {} w) (run : Id) (r : Run)
    (hr : w.tables.runs.lookup run = some r) :
    ∃ y, w.tallies.lookup run = some y ∧ Agrees w.tables run r y (dropped w.deleted run) := by
  have counted := (sound_reaches e).counted
  obtain ⟨y, hy, hn⟩ := counted.downloaded hr
  refine ⟨y, hy, ?_, hn, fun hc id i hi => ?_⟩
  case refine_1 =>
    have := counted.discovered hr
    rw [number_true, ← counted.skipped hr] at this
    exact this
  case refine_2 =>
    have settled : unfinished i.state = false := by
      refine Bool.eq_false_iff.mpr fun hu => ?_
      exact counted.settled hi hu hr hc
    simpa [unfinished, and_assoc] using settled

-- A folder with two images, of which one is committed when the folder is removed.
def image (id : String) : Listing.RemoteFile where
  id       := id
  mimeType := some "image/png"

def removalRun : List Action :=
  [.selectSource 1 "f" "F",
    .recoverDownloads, .resumeCommit none, .claimItem none,
    .listPage (some { files := [image "a", image "b"] }), .record none, .record none, .advance,
    .recoverDownloads, .resumeCommit none, .claimItem (some (3, "a")), .stageDownload, .commitStaged,
    .cancelRuns 0 2, .deleteItems 0, .countCommitting 0, .commitRemoval 0]

theorem removal_reaches : ∃ w r, Reaches World.step {} w ∧ w.tables.runs.lookup 3 = some r ∧
    r.discoveredFiles = 2 ∧ r.skippedFiles = 0 ∧ w.tables.number 3 (fun _ => true) = 1 ∧
    dropped w.deleted 3 = 1 := by
  have run : (Execution.run World.step {} removalRun).bind (fun w =>
      (w.tables.runs.lookup 3).map fun r => (r.discoveredFiles, r.skippedFiles,
        w.tables.number 3 (fun _ => true), dropped w.deleted 3)) = some (2, 0, 1, 1) := by
    decide +kernel
  obtain ⟨w, hw, h⟩ := Option.bind_eq_some_iff.mp run
  obtain ⟨r, hr, h⟩ := Option.map_eq_some_iff.mp h
  simp only [Prod.mk.injEq] at h
  exact ⟨w, r, Execution.reaches_of_run hw, hr, h⟩

theorem run_agrees_removal : ∃ (w : World) (r : Run) (y : Tally), w.tables.runs.lookup 3 = some r ∧ w.tallies.lookup 3 = some y ∧
    Agrees w.tables 3 r y 1 := by
  obtain ⟨w, r, e, hr, -, -, -, hd⟩ := removal_reaches
  obtain ⟨y, hy, h⟩ := run_agrees e 3 r hr
  exact ⟨w, r, y, hr, hy, hd ▸ h⟩

theorem not_agrees_removal : ¬ ∀ w, Reaches World.step {} w → ∀ run r y,
    w.tables.runs.lookup run = some r → w.tallies.lookup run = some y → Agrees w.tables run r y 0 := by
  intro claim
  obtain ⟨w, r, e, hr, discovered, skipped, number, -⟩ := removal_reaches
  obtain ⟨y, hy, -⟩ := (sound_reaches e).counted.downloaded hr
  have sum := (claim w e 3 r y hr hy).discovered
  rw [number_true] at number
  omega

end World
end Sync
end MyDrive.Google
