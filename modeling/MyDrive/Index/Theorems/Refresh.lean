import MyDrive.Index.Refresh
import MyDrive.Library.Execution

namespace MyDrive.Index

theorem MediaColumn.append_append (m m' : MediaColumn) : (m.append m').append m' = m.append m' := by
  obtain ⟨w, h⟩ := m
  obtain ⟨w', h'⟩ := m'
  cases w' <;> cases h' <;> rfl

namespace Tables

-- What the foreign keys and the statements that set a current version make sure of.
structure Linked (t : Tables) : Prop where
  files {id f}      : t.files.lookup id = some f → ∃ e, t.entries.lookup id = some e
  current {id f v}  : t.files.lookup id = some f → f.currentVersionId = some v →
    ∃ ver, t.versions.lookup v = some ver ∧ ver.fileId = id
  versions {id ver} : t.versions.lookup id = some ver → ∃ f, t.files.lookup ver.fileId = some f
  objects {id ver}  : t.versions.lookup id = some ver → ∃ o, t.objects.lookup ver.storageObjectId = some o

-- The change leaves no file that it refreshes without dimensions after it had some, and it changes
-- none of a file that it does not refresh.
def Lasting (t : Tables) (c : Change) : Prop :=
  ∀ t' ids, t.write c = some (t', ids) → ∀ id,
    if id ∈ ids then t.dimensions id ≠ none → t'.dimensions id ≠ none
    else t'.dimensions id = t.dimensions id

variable {t t' : Tables} {c : Change} {ids : List Id} {x id : Id}

theorem Linked.currentVersion_eq_none (l : t.Linked) (h : t.entries.lookup x = none) :
    t.currentVersion x = none := by
  have file : t.files.lookup x = none := by
    cases hf : t.files.lookup x
    case none   => rfl
    case some f =>
      obtain ⟨e, he⟩ := l.files hf
      rw [h] at he
      contradiction
  simp [currentVersion, file]

theorem Linked.dimensions_eq_none (l : t.Linked) (h : t.entries.lookup x = none) :
    t.dimensions x = none := by
  simp [dimensions, l.currentVersion_eq_none h]

theorem currentVersion_eq_some_iff {v : Id} {ver : FileVersion} :
    t.currentVersion x = some (v, ver) ↔
      (∃ f, t.files.lookup x = some f ∧ f.currentVersionId = some v) ∧
      t.versions.lookup v = some ver := by
  simp only [currentVersion, Option.bind_eq_some_iff, Option.map_eq_some_iff, Prod.mk.injEq]
  constructor
  case mp =>
    rintro ⟨v', ⟨f, hf, hv⟩, ver', hver, rfl, rfl⟩
    exact ⟨⟨f, hf, hv⟩, hver⟩
  case mpr =>
    rintro ⟨⟨f, hf, hv⟩, hver⟩
    exact ⟨v, ⟨f, hf, hv⟩, ver, hver, rfl, rfl⟩

theorem Linked.currentVersion_fileId (l : t.Linked) {v : Id × FileVersion}
    (h : t.currentVersion x = some v) : v.2.fileId = x := by
  obtain ⟨⟨f, hf, hv⟩, hver⟩ := currentVersion_eq_some_iff.mp h
  obtain ⟨ver, hver', he⟩ := l.current hf hv
  rw [hver] at hver'
  cases hver'
  exact he

theorem upsert_upsert {o : Option Row} {r : Row} : upsert (some (upsert o r)) r = upsert o r := by
  cases o
  case none =>
    simp only [upsert]
    split
    case isTrue  => rfl
    case isFalse =>
      cases r
      simp [MediaColumn.append]
  case some old =>
    simp only [upsert]
    split
    case isTrue h  => rfl
    case isFalse h => simp [MediaColumn.append_append]

-- What a change leaves alone of an entry that it does not refresh.
structure Untouched (t t' : Tables) (x : Id) : Prop where
  currentVersion : t'.currentVersion x = t.currentVersion x
  currentObject  : t'.currentObject x = t.currentObject x
  entry          : (t'.entries.lookup x = t.entries.lookup x ∧ t'.index.lookup x = t.index.lookup x) ∨
    (t'.entries.lookup x = none ∧ t'.index.lookup x = none)

theorem currentVersion_congr (l : t.Linked) (hf : t'.files.lookup x = t.files.lookup x)
    (hv : ∀ v ver, t.versions.lookup v = some ver → ver.fileId = x →
      (t.files.lookup x).bind (·.currentVersionId) = some v → t'.versions.lookup v = some ver) :
    t'.currentVersion x = t.currentVersion x := by
  unfold currentVersion
  rw [hf]
  cases hc : (t.files.lookup x).bind (·.currentVersionId)
  case none   => rfl
  case some v =>
    obtain ⟨f, hf, hfv⟩ := Option.bind_eq_some_iff.mp hc
    obtain ⟨ver, hver, he⟩ := l.current hf hfv
    simp [hver, hv v ver hver he hc]

theorem write_untouched (l : t.Linked) (h : t.write c = some (t', ids)) (hx : x ∉ ids) :
    Untouched t t' x := by
  -- The versions and the objects stay, up to those that are not of a version of `x`.
  have of {t' : Tables} (hv : t'.currentVersion x = t.currentVersion x)
      (ho : ∀ v ver o, t.currentVersion x = some (v, ver) → t.versions.lookup v = some ver →
        t.objects.lookup ver.storageObjectId = some o →
        t'.objects.lookup ver.storageObjectId = some o)
      (he : t'.entries = t.entries) (hi : t'.index = t.index) : Untouched t t' x := by
    refine ⟨hv, ?_, .inl ⟨by rw [he], by rw [hi]⟩⟩
    unfold currentObject
    rw [hv]
    cases hc : t.currentVersion x
    case none   => rfl
    case some v =>
      have hver := (currentVersion_eq_some_iff.mp hc).right
      obtain ⟨o, hobj⟩ := l.objects hver
      simp [hobj, ho v.1 v.2 o hc hver hobj]
  cases c <;> simp only [write] at h
  case insertEntry id e =>
    split at h <;> cases h
    have hn : x ≠ id := by simpa using hx
    exact ⟨rfl, rfl, .inl ⟨by simp [setEntry, hn], rfl⟩⟩
  case updateEntry id e =>
    split at h <;> cases h
    have hn : x ≠ id := by simpa using hx
    exact ⟨rfl, rfl, .inl ⟨by simp [setEntry, hn], rfl⟩⟩
  case deleteEntry id =>
    split at h <;> cases h
    refine ⟨rfl, rfl, ?_⟩
    by_cases hn : x = id
    case pos => exact .inr (by simp [hn])
    case neg => exact .inl (by simp [hn])
  case insertFile id =>
    split at h <;> cases h
    have hn : x ≠ id := by simpa using hx
    refine of (currentVersion_congr l ?_ fun _ _ hv _ _ => hv) (fun _ _ _ _ _ ho => ho) rfl rfl
    simp [setCurrent, hn]
  case setCurrentVersion file version =>
    split at h <;> cases h
    have hn : x ≠ file := by simpa using hx
    refine of (currentVersion_congr l ?_ fun _ _ hv _ _ => hv) (fun _ _ _ _ _ ho => ho) rfl rfl
    simp [setCurrent, hn]
  case deleteFile id =>
    split at h <;> cases h
    case isFalse hver =>
      simp only [Table.any_iff, decide_eq_true_eq, not_exists, not_and] at hver
      refine of ?_ (fun _ _ _ _ _ ho => ho) rfl rfl
      by_cases hn : x = id
      case neg => simp [currentVersion, hn]
      case pos =>
        subst hn
        cases hc : t.currentVersion x
        case none   => simp [currentVersion]
        case some v =>
          exact absurd (l.currentVersion_fileId hc)
            (hver v.1 v.2 (currentVersion_eq_some_iff.mp hc).right)
  case insertVersion id v =>
    split at h <;> cases h
    case isTrue hc =>
      simp only [Bool.and_eq_true, decide_eq_true_eq] at hc
      refine of (currentVersion_congr l rfl fun v' ver hv _ _ => ?_) (fun _ _ _ _ _ ho => ho) rfl rfl
      have hn : v' ≠ id := by
        rintro rfl
        rw [hc.left.left] at hv
        contradiction
      simp [hn, hv]
  case updateVersion id object bytes =>
    split at h <;> try contradiction
    simp only [Option.map_eq_some_iff, Prod.mk.injEq] at h
    obtain ⟨v, hv, rfl, rfl⟩ := h
    refine of (currentVersion_congr l rfl fun v' ver hver he _ => ?_) (fun _ _ _ _ _ ho => ho) rfl rfl
    have hn : v' ≠ id := by
      rintro rfl
      rw [hv] at hver
      cases hver
      simp [he] at hx
    simp [hn, hver]
  case deleteVersion id =>
    cases h
    have hn {f : File} (hf : t.files.lookup x = some f) : f.currentVersionId ≠ some id := by
      intro hv
      refine hx ?_
      simp only [filesAt, List.mem_map, List.mem_filter]
      exact ⟨(x, f), ⟨Table.lookup_eq_some_iff.mp hf, by simp [hv]⟩, rfl⟩
    refine of (currentVersion_congr l ?_ fun v ver hver _ hc => ?_) (fun _ _ _ _ _ ho => ho) rfl rfl
    case refine_1 =>
      cases hf : t.files.lookup x <;> simp [eraseVersion, hf]
      exact fun h => absurd h (hn hf)
    case refine_2 =>
      obtain ⟨f, hf, hv⟩ := Option.bind_eq_some_iff.mp hc
      have : v ≠ id := by
        rintro rfl
        exact hn hf hv
      simp [eraseVersion, this, hver]
  case insertObject id o =>
    split at h <;> cases h
    case isTrue hc =>
      refine of rfl (fun v ver o' _ _ ho => ?_) rfl rfl
      have hn : ver.storageObjectId ≠ id := by
        intro he
        rw [he, hc] at ho
        contradiction
      simp [hn, ho]
  case updateObject id o =>
    split at h <;> cases h
    refine of rfl (fun v ver o' hc hver ho => ?_) rfl rfl
    have hn : ver.storageObjectId ≠ id := by
      intro he
      refine hx ?_
      simp only [filesOf, List.mem_map, List.mem_filter]
      exact ⟨(v, ver), ⟨Table.lookup_eq_some_iff.mp hver, by simp [he]⟩, l.currentVersion_fileId hc⟩
    simp [hn, ho]
  case deleteObject id =>
    split at h <;> cases h
    case isFalse hver =>
      simp only [Table.any_iff, decide_eq_true_eq, not_exists, not_and] at hver
      refine of rfl (fun v ver o' _ hv ho => ?_) rfl rfl
      simp [hver v ver hv, ho]
  case upsertDerivative key d =>
    simp only [Option.map_eq_some_iff, Prod.mk.injEq] at h
    obtain ⟨v, hv, rfl, rfl⟩ := h
    exact of rfl (fun _ _ _ _ _ ho => ho) rfl rfl
  case deleteDerivative key =>
    cases h
    exact of rfl (fun _ _ _ _ _ ho => ho) rfl rfl

theorem Linked.setEntry (l : t.Linked) (id : Id) (e : Entry) : (t.setEntry id e).Linked where
  files {x f} hf := by
    obtain ⟨e', he⟩ := l.files hf
    simp only [Tables.setEntry, Table.lookup_set]
    split
    case isTrue  => exact ⟨e, rfl⟩
    case isFalse => exact ⟨e', he⟩
  current  := l.current
  versions := l.versions
  objects  := l.objects

theorem Linked.setCurrent {file : Id} {version : Option Id} (l : t.Linked)
    (he : ∃ e, t.entries.lookup file = some e)
    (hver : ∀ v, version = some v → ∃ ver, t.versions.lookup v = some ver ∧ ver.fileId = file) :
    (t.setCurrent file version).Linked where
  files {x f} hf := by
    simp only [Tables.setCurrent, Table.lookup_set] at hf
    split at hf
    case isTrue hx => exact hx ▸ he
    case isFalse   => exact l.files hf
  current {x f v} hf hv := by
    simp only [Tables.setCurrent, Table.lookup_set] at hf
    split at hf
    case isTrue hx => cases hf; exact hx ▸ hver v hv
    case isFalse   => exact l.current hf hv
  versions hv := by
    simp only [Tables.setCurrent, Table.lookup_set]
    split
    case isTrue  => exact ⟨_, rfl⟩
    case isFalse => exact l.versions hv
  objects := l.objects

-- A version keeps its file.
theorem Linked.setVersion {v : FileVersion} (l : t.Linked)
    (same : ∀ v₀, t.versions.lookup id = some v₀ → v.fileId = v₀.fileId)
    (hf : ∃ f, t.files.lookup v.fileId = some f)
    (ho : ∃ o, t.objects.lookup v.storageObjectId = some o) :
    ({ t with versions := t.versions.set id v } : Tables).Linked where
  files := l.files
  current {x f v'} hf hv := by
    obtain ⟨ver, hver, he⟩ := l.current hf hv
    by_cases hn : v' = id
    case pos =>
      subst hn
      exact ⟨v, by simp, (same ver hver).trans he⟩
    case neg => exact ⟨ver, by simp [hn, hver], he⟩
  versions hv := by
    simp only [Table.lookup_set] at hv
    split at hv
    case isTrue  => cases hv; exact hf
    case isFalse => exact l.versions hv
  objects hv := by
    simp only [Table.lookup_set] at hv
    split at hv
    case isTrue  => cases hv; exact ho
    case isFalse => exact l.objects hv

theorem Linked.eraseVersion (l : t.Linked) (id : Id) : (t.eraseVersion id).Linked := by
  have file {x f} (hf : (t.eraseVersion id).files.lookup x = some f) :
      ∃ f₀, t.files.lookup x = some f₀ ∧
        (f.currentVersionId = none ∨ f = f₀ ∧ f₀.currentVersionId ≠ some id) := by
    simp only [Tables.eraseVersion, Table.lookup_filterMap, Option.bind_eq_some_iff,
      Option.some.injEq] at hf
    obtain ⟨f₀, hf₀, rfl⟩ := hf
    refine ⟨f₀, hf₀, ?_⟩
    split
    case isTrue    => exact .inl rfl
    case isFalse h => exact .inr ⟨rfl, h⟩
  have version {v ver} (hv : (t.eraseVersion id).versions.lookup v = some ver) :
      t.versions.lookup v = some ver := by
    simp only [Tables.eraseVersion, Table.lookup_erase] at hv
    split at hv <;> try contradiction
    exact hv
  constructor
  case files =>
    intro x f hf
    obtain ⟨f₀, hf₀, -⟩ := file hf
    exact l.files hf₀
  case current =>
    intro x f v hf hv
    obtain ⟨f₀, hf₀, hc⟩ := file hf
    obtain hc | ⟨rfl, hn⟩ := hc
    case inl => rw [hc] at hv; contradiction
    case inr =>
      obtain ⟨ver, hver, he⟩ := l.current hf₀ hv
      have : v ≠ id := by
        rintro rfl
        exact hn hv
      exact ⟨ver, by simp [Tables.eraseVersion, this, hver], he⟩
  case versions =>
    intro v ver hv
    obtain ⟨f, hf⟩ := l.versions (version hv)
    exact ⟨_, by simp [Tables.eraseVersion, hf]; rfl⟩
  case objects =>
    intro v ver hv
    exact l.objects (version hv)

theorem Linked.setObject (l : t.Linked) (id : Id) (o : StorageObject) :
    ({ t with objects := t.objects.set id o } : Tables).Linked where
  files    := l.files
  current  := l.current
  versions := l.versions
  objects {x ver} hv := by
    obtain ⟨o', ho⟩ := l.objects hv
    simp only [Table.lookup_set]
    split
    case isTrue  => exact ⟨o, rfl⟩
    case isFalse => exact ⟨o', ho⟩

theorem Linked.write (l : t.Linked) (h : t.write c = some (t', ids)) : t'.Linked := by
  cases c <;> simp only [Tables.write] at h
  case insertEntry id e =>
    split at h <;> cases h
    exact l.setEntry id e
  case updateEntry id e =>
    split at h <;> cases h
    exact l.setEntry id e
  case deleteEntry id =>
    split at h <;> cases h
    case isTrue hn =>
      refine ⟨fun {x f} hf => ?_, l.current, l.versions, l.objects⟩
      obtain ⟨e, he⟩ := l.files hf
      have : x ≠ id := by
        rintro rfl
        rw [hn] at hf
        contradiction
      exact ⟨e, by simp [this, he]⟩
  case insertFile id =>
    split at h <;> cases h
    case isTrue hc =>
      simp only [Bool.and_eq_true, Option.isSome_iff_exists] at hc
      exact l.setCurrent hc.left fun v hv => by contradiction
  case setCurrentVersion file version =>
    split at h <;> cases h
    case isTrue hc =>
      simp only [Bool.and_eq_true, Option.isSome_iff_exists, Option.all_eq_true,
        Option.any_eq_true, decide_eq_true_eq] at hc
      obtain ⟨f, hf⟩ := hc.left
      exact l.setCurrent (l.files hf) hc.right
  case deleteFile id =>
    split at h <;> cases h
    case isFalse hver =>
      simp only [Table.any_iff, decide_eq_true_eq, not_exists, not_and] at hver
      refine ⟨fun hf => ?_, fun hf hv => ?_, fun hv => ?_, l.objects⟩
      all_goals simp only [Table.lookup_erase] at *
      case refine_1 =>
        split at hf <;> try contradiction
        exact l.files hf
      case refine_2 =>
        split at hf <;> try contradiction
        exact l.current hf hv
      case refine_3 => simp [hver _ _ hv, l.versions hv]
  case insertVersion id v =>
    split at h <;> cases h
    case isTrue hc =>
      simp only [Bool.and_eq_true, decide_eq_true_eq, Option.isSome_iff_exists] at hc
      obtain ⟨⟨hn, hf⟩, ho⟩ := hc
      exact l.setVersion (fun v₀ hv => by rw [hn] at hv; contradiction) hf ho
  case updateVersion id object bytes =>
    split at h <;> try contradiction
    case isTrue ho =>
      simp only [Option.map_eq_some_iff, Prod.mk.injEq] at h
      obtain ⟨v, hv, rfl, rfl⟩ := h
      have hf := l.versions hv
      refine l.setVersion (fun v₀ hv₀ => ?_) hf (Option.isSome_iff_exists.mp ho)
      rw [hv] at hv₀
      cases hv₀
      rfl
  case deleteVersion id =>
    cases h
    exact l.eraseVersion id
  case insertObject id o =>
    split at h <;> cases h
    exact l.setObject id o
  case updateObject id o =>
    split at h <;> cases h
    exact l.setObject id o
  case deleteObject id =>
    split at h <;> cases h
    case isFalse hver =>
      simp only [Table.any_iff, decide_eq_true_eq, not_exists, not_and] at hver
      refine ⟨l.files, l.current, l.versions, fun hv => ?_⟩
      simp [hver _ _ hv, l.objects hv]
  case upsertDerivative key d =>
    simp only [Option.map_eq_some_iff, Prod.mk.injEq] at h
    obtain ⟨v, hv, rfl, rfl⟩ := h
    exact ⟨l.files, l.current, l.versions, l.objects⟩
  case deleteDerivative key =>
    cases h
    exact ⟨l.files, l.current, l.versions, l.objects⟩

-- The entries that a change refreshes are there, with the rows of the index that they had.
theorem write_refreshed (l : t.Linked) (h : t.write c = some (t', ids)) (hx : x ∈ ids) :
    (∃ e, t'.entries.lookup x = some e) ∧ t'.index.lookup x = t.index.lookup x := by
  have entry {v ver} (hv : t.versions.lookup v = some ver) :
      ∃ e, t.entries.lookup ver.fileId = some e := by
    obtain ⟨f, hf⟩ := l.versions hv
    exact l.files hf
  cases c <;> simp only [Tables.write] at h
  case insertEntry id e =>
    split at h <;> cases h
    obtain rfl := List.mem_singleton.mp hx
    exact ⟨⟨e, by simp [Tables.setEntry]⟩, rfl⟩
  case updateEntry id e =>
    split at h <;> cases h
    obtain rfl := List.mem_singleton.mp hx
    exact ⟨⟨e, by simp [Tables.setEntry]⟩, rfl⟩
  case insertFile id =>
    split at h <;> cases h
    case isTrue hc =>
      obtain rfl := List.mem_singleton.mp hx
      simp only [Bool.and_eq_true, Option.isSome_iff_exists] at hc
      exact ⟨hc.left, rfl⟩
  case setCurrentVersion file version =>
    split at h <;> cases h
    case isTrue hc =>
      obtain rfl := List.mem_singleton.mp hx
      simp only [Bool.and_eq_true, Option.isSome_iff_exists] at hc
      obtain ⟨f, hf⟩ := hc.left
      exact ⟨l.files hf, rfl⟩
  case insertVersion id v =>
    split at h <;> cases h
    case isTrue hc =>
      obtain rfl := List.mem_singleton.mp hx
      simp only [Bool.and_eq_true, Option.isSome_iff_exists] at hc
      obtain ⟨f, hf⟩ := hc.left.right
      exact ⟨l.files hf, rfl⟩
  case updateVersion id object bytes =>
    split at h <;> try contradiction
    simp only [Option.map_eq_some_iff, Prod.mk.injEq] at h
    obtain ⟨v, hv, rfl, rfl⟩ := h
    obtain rfl := List.mem_singleton.mp hx
    exact ⟨entry hv, rfl⟩
  case deleteVersion id =>
    cases h
    simp only [filesAt, List.mem_map, List.mem_filter] at hx
    obtain ⟨r, ⟨hr, -⟩, rfl⟩ := hx
    exact ⟨l.files (Table.lookup_eq_some_iff.mpr hr), rfl⟩
  case updateObject id o =>
    split at h <;> cases h
    simp only [filesOf, List.mem_map, List.mem_filter] at hx
    obtain ⟨r, ⟨hr, -⟩, rfl⟩ := hx
    exact ⟨entry (Table.lookup_eq_some_iff.mpr hr), rfl⟩
  case upsertDerivative key d =>
    simp only [Option.map_eq_some_iff, Prod.mk.injEq] at h
    obtain ⟨v, hv, rfl, rfl⟩ := h
    obtain rfl := List.mem_singleton.mp hx
    exact ⟨entry hv, rfl⟩
  case deleteDerivative key =>
    cases h
    contradiction
  all_goals
    split at h <;> cases h
    contradiction

section

variable [Collation]

-- Every row of the index is the one that a refresh from scratch computes.
def Synced (t : Tables) : Prop :=
  ∀ id, t.index.lookup id = t.fresh id

variable {e : Entry} {r old : Row}

theorem fresh_eq : t.fresh x = (t.entries.lookup x).map (t.row x) := by
  unfold fresh refreshEntryIndex
  dsimp only
  split
  case h_1 h => simp [h]
  case h_2 h => simp [h, upsert]; rfl

theorem lookup_refresh : (t.refreshEntryIndex id).index.lookup x =
    if x = id then (t.entries.lookup x).map fun e => upsert (t.index.lookup x) (t.row x e)
    else t.index.lookup x := by
  unfold refreshEntryIndex
  split <;> split
  case h_1.isTrue h hx    => subst hx; simp [h]
  case h_1.isFalse h hx   => simp [hx]
  case h_2.isTrue e h hx  => subst hx; simp [h]
  case h_2.isFalse e h hx => simp [hx]

-- A refresh writes the index only.
theorem refresh_eq (t : Tables) (id : Id) : ∃ index, t.refreshEntryIndex id = { t with index } := by
  unfold refreshEntryIndex
  split
  case h_1 => exact ⟨_, rfl⟩
  case h_2 => exact ⟨_, rfl⟩

theorem refreshes_eq (t : Tables) (ids : List Id) : ∃ index, ids.foldl refreshEntryIndex t = { t with index } := by
  induction ids generalizing t
  case nil => exact ⟨t.index, rfl⟩
  case cons id ids ih =>
    obtain ⟨index, h⟩ := refresh_eq t id
    obtain ⟨index', h'⟩ := ih (t.refreshEntryIndex id)
    exact ⟨index', by rw [List.foldl_cons, h', h]⟩

theorem row_index {index : Table Id Row} : ({ t with index } : Tables).row x e = t.row x e :=
  rfl

theorem lookup_refreshes : (ids.foldl refreshEntryIndex t).index.lookup x =
    if x ∈ ids then (t.entries.lookup x).map fun e => upsert (t.index.lookup x) (t.row x e)
    else t.index.lookup x := by
  induction ids generalizing t
  case nil => simp
  case cons id ids ih =>
    obtain ⟨index, h⟩ := refresh_eq t id
    have entries : (t.refreshEntryIndex id).entries = t.entries := by rw [h]
    have row (e : Entry) : (t.refreshEntryIndex id).row x e = t.row x e := by rw [h]; rfl
    rw [List.foldl_cons, ih, lookup_refresh, entries]
    by_cases hx : x = id
    case pos =>
      subst hx
      cases t.entries.lookup x <;> simp [row, upsert_upsert]
    case neg => simp [hx, row]

theorem row_media : (t.row x e).media =
    (t.dimensions x).elim {} fun d => { width := some d.1, height := some d.2 } := by
  unfold row
  dsimp only
  split
  case h_1 h => simp [h]
  case h_2 h => simp [h]

-- A refresh forgets the row that was there, unless that has dimensions and the new one has none.
theorem upsert_eq_iff : upsert (some old) (t.row x e) = t.row x e ↔
    (old.media ≠ {} → t.dimensions x ≠ none) := by
  have replaced : upsert (some old) (t.row x e) = t.row x e ↔
      (upsert (some old) (t.row x e)).media = (t.row x e).media := by
    constructor
    case mp  => intro h; rw [h]
    case mpr => intro h; simp only [upsert] at h ⊢; rw [h]
  rw [replaced]
  cases hd : t.dimensions x
  case none   => simp [upsert, row_media, hd]
  case some d => simp [upsert, row_media, hd, MediaColumn.append]

theorem fresh_congr (he : t'.entries.lookup x = t.entries.lookup x)
    (hv : t'.currentVersion x = t.currentVersion x) (ho : t'.currentObject x = t.currentObject x)
    (hd : t'.dimensions x = t.dimensions x) : t'.fresh x = t.fresh x := by
  rw [fresh_eq, fresh_eq, he]
  congr 1
  funext e
  simp only [row, hv, ho, hd]

theorem fresh_media (l : t.Linked) :
    (t.fresh x).any (·.media ≠ {}) ↔ t.dimensions x ≠ none := by
  rw [fresh_eq]
  cases he : t.entries.lookup x
  case none   => simp [l.dimensions_eq_none he]
  case some e => cases hd : t.dimensions x <;> simp [row_media, hd]

theorem dimensions_eq_of_fresh (l : t.Linked) (l' : t'.Linked)
    (he : t'.entries.lookup x = t.entries.lookup x) (h : t.fresh x = t'.fresh x) :
    t.dimensions x = t'.dimensions x := by
  cases hx : t.entries.lookup x
  case none   => rw [l.dimensions_eq_none hx, l'.dimensions_eq_none (he.trans hx)]
  case some e =>
    rw [fresh_eq, fresh_eq, he, hx, Option.map_some, Option.map_some, Option.some.injEq] at h
    have hm := congrArg Row.media h
    rw [row_media, row_media] at hm
    cases hd : t.dimensions x <;> cases hd' : t'.dimensions x <;> simp [hd, hd'] at hm ⊢
    case some.some d d' => exact Prod.ext hm.left hm.right

theorem Linked.step (l : t.Linked) (h : t.step c = some t') : t'.Linked := by
  simp only [Tables.step, Option.map_eq_some_iff] at h
  obtain ⟨r, hr, rfl⟩ := h
  obtain ⟨index, h⟩ := refreshes_eq r.1 r.2
  have l' := l.write hr
  rw [h]
  exact ⟨l'.files, l'.current, l'.versions, l'.objects⟩

-- The row of one entry after a change, for an index that has been right so far.
theorem Synced.row_iff (l : t.Linked) (s : t.Synced) (h : t.write c = some (t', ids)) (x : Id) :
    (ids.foldl refreshEntryIndex t').index.lookup x = (ids.foldl refreshEntryIndex t').fresh x ↔
      if x ∈ ids then t.dimensions x ≠ none → t'.dimensions x ≠ none
      else t'.dimensions x = t.dimensions x := by
  have fresh : (ids.foldl refreshEntryIndex t').fresh x = t'.fresh x := by
    obtain ⟨index, h⟩ := refreshes_eq t' ids
    rw [h]
    rfl
  rw [fresh, lookup_refreshes]
  split
  case isTrue hx =>
    obtain ⟨⟨e, he⟩, hi⟩ := write_refreshed l h hx
    simp only [fresh_eq (t := t'), he, hi, Option.map_some, Option.some.injEq, s x]
    rw [← fresh_media l]
    cases ho : t.fresh x
    case none     => simp [upsert]
    case some old => simp [upsert_eq_iff]
  case isFalse hx =>
    obtain ⟨hv, hobj, hentry⟩ := write_untouched l h hx
    obtain ⟨he, hi⟩ | ⟨he, hi⟩ := hentry
    case inl =>
      rw [hi, s x]
      constructor
      case mpr =>
        intro hd
        exact (fresh_congr he hv hobj hd).symm
      case mp =>
        intro hf
        exact (dimensions_eq_of_fresh l (l.write h) he hf).symm
    case inr =>
      have hc := (l.write h).currentVersion_eq_none he
      have hd : t.dimensions x = none := by simp [dimensions, ← hv, hc]
      simp [hi, fresh_eq, he, hd, (l.write h).dimensions_eq_none he]

theorem Synced.step_iff (l : t.Linked) (s : t.Synced) (h : t.step c = some t') :
    t'.Synced ↔ t.Lasting c := by
  simp only [Tables.step, Option.map_eq_some_iff] at h
  obtain ⟨r, hr, rfl⟩ := h
  constructor
  case mp =>
    intro s' t₁ ids hw x
    rw [hr] at hw
    cases hw
    exact (s.row_iff l hr x).mp (s' x)
  case mpr =>
    intro hl x
    exact (s.row_iff l hr x).mpr (hl r.1 r.2 hr x)

theorem Linked.backfill (l : t.Linked) : t.backfill.Linked := by
  obtain ⟨index, h⟩ := refreshes_eq { t with index := .empty } t.entries.keys
  rw [Tables.backfill, h]
  exact ⟨l.files, l.current, l.versions, l.objects⟩

theorem synced_backfill : t.backfill.Synced := by
  intro x
  have fresh : t.backfill.fresh x = t.fresh x := by
    obtain ⟨index, h⟩ := refreshes_eq { t with index := .empty } t.entries.keys
    rw [Tables.backfill, h]
    rfl
  rw [fresh, fresh_eq, Tables.backfill, lookup_refreshes]
  split
  case isTrue    => rfl
  case isFalse h =>
    cases he : t.entries.lookup x
    case none   => rfl
    case some e => exact absurd (Table.mem_keys_iff.mpr ⟨e, he⟩) h

-- The index of a migrated database, for as long as no refresh meets dimensions that the current
-- version of its file no longer has; and after any other change it is wrong.
theorem index_fresh {t₀ : Tables} (l : t₀.Linked)
    (e : Execution.Steps Tables.step Lasting t₀.backfill t) :
    t.Synced ∧ ∀ c t', t.step c = some t' → (t'.Synced ↔ t.Lasting c) := by
  obtain ⟨l, s⟩ : t.Linked ∧ t.Synced := by
    refine e.invariant (I := fun t => t.Linked ∧ t.Synced) ⟨l.backfill, synced_backfill⟩
      fun hi hl hs => ?_
    exact ⟨hi.left.step hs, (hi.right.step_iff hi.left hs).mpr hl⟩
  exact ⟨s, fun c t' hs => s.step_iff l hs⟩

end

attribute [local instance] Collation.binary

def photo (updatedAt : Time) : Entry where
  ownerId   := 7
  parentId  := none
  kind      := .file
  name      := "scan"
  createdAt := 1
  updatedAt := updatedAt

-- An image is uploaded, and the indexer makes its viewer.
def uploaded : List Change :=
  [.insertObject 1 { sizeBytes := 5 }, .insertEntry 1 (photo 1), .insertFile 1,
   .insertVersion 1 { fileId := 1, storageObjectId := 1, sizeBytes := 5 },
   .setCurrentVersion 1 (some 1),
   .updateObject 1 { sizeBytes := 5, mimeDetected := some "image/jpeg", state := .ready },
   .upsertDerivative { fileVersionId := 1, variant := .viewer, recipeVersion := 1 }
     { width := some 20, height := some 10 }]

-- A text is uploaded in its place.
def replaced : List Change :=
  [.insertObject 2 { sizeBytes := 3 },
   .insertVersion 2 { fileId := 1, storageObjectId := 2, sizeBytes := 3 },
   .setCurrentVersion 1 (some 2), .updateEntry 1 (photo 2),
   .updateObject 2 { sizeBytes := 3, mimeDetected := some "text/plain", state := .ready }]

theorem index_stale : ∃ t r r', Execution.Reaches Tables.step {} t ∧
    t.index.lookup 1 = some r ∧ r.media = { width := some 20, height := some 10 } ∧
    t.fresh 1 = some r' ∧ r'.media = {} := by
  have run : (Execution.run Tables.step {} (uploaded ++ replaced)).map (fun t =>
      ((t.index.lookup 1).map Row.media, (t.fresh 1).map Row.media)) =
      some (some { width := some 20, height := some 10 }, some {}) := by
    decide +kernel
  obtain ⟨t, ht, h⟩ := Option.map_eq_some_iff.mp run
  obtain ⟨h₁, h₂⟩ := Prod.mk.inj h
  obtain ⟨r, hr, hm⟩ := Option.map_eq_some_iff.mp h₁
  obtain ⟨r', hr', hm'⟩ := Option.map_eq_some_iff.mp h₂
  exact ⟨t, r, r', Execution.reaches_of_run ht, hr, hm, hr', hm'⟩

-- `Lasting` for the files that there are.
def lasts (t : Tables) (c : Change) : Bool :=
  (t.write c).all fun r => (t.files.keys ++ r.1.files.keys ++ r.2).all fun id =>
    if id ∈ r.2 then (t.dimensions id).isNone || (r.1.dimensions id).isSome
    else r.1.dimensions id = t.dimensions id

theorem dimensions_eq_none_of_files (h : x ∉ t.files.keys) : t.dimensions x = none := by
  cases hf : t.files.lookup x
  case none   => simp [dimensions, currentVersion, hf]
  case some f => exact absurd (Table.mem_keys_iff.mpr ⟨f, hf⟩) h

theorem lasting_of_lasts (h : t.lasts c = true) : t.Lasting c := by
  intro t' ids hw x
  simp only [lasts, hw, Option.all_some, List.all_eq_true] at h
  by_cases hx : x ∈ t.files.keys ++ t'.files.keys ++ ids
  case pos =>
    have := h x hx
    split at this
    case isTrue hi  => simpa [hi, Option.isSome_iff_ne_none, or_iff_not_imp_left] using this
    case isFalse hi => simpa [hi] using this
  case neg =>
    simp only [List.mem_append, not_or] at hx
    simp [hx.right, dimensions_eq_none_of_files hx.left.left,
      dimensions_eq_none_of_files hx.left.right]

theorem index_fresh_uploaded : ∃ (t : Tables) (d : Nat × Nat), t.Synced ∧ t.dimensions 1 = some d := by
  have run : (Execution.run (fun t c => if t.lasts c then t.step c else none) ({} : Tables).backfill
      uploaded).map (·.dimensions 1) = some (some (20, 10)) := by
    decide +kernel
  obtain ⟨t, ht, h⟩ := Option.map_eq_some_iff.mp run
  have linked : Linked {} := by constructor <;> simp
  have steps := Execution.steps_of_run (fun t c => lasting_of_lasts) ht
  exact ⟨t, _, (index_fresh linked steps).left, h⟩

end Tables
end MyDrive.Index
