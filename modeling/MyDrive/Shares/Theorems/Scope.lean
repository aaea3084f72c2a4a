import MyDrive.Drive.Theorems.Hiding
import MyDrive.Shares.Public
import MyDrive.Transfers.Theorems.Responses

open Forest

namespace MyDrive.Shares

open Drive Transfers

-- The entry is the shared file, lies in the shared folder or is in the shared album.
def Db.Within (db : Db) (resource : Resource) (x : Id) : Prop :=
  match resource.type with
  | .file   => x = resource.id
  | .folder => Ancestor (parentOf db.entries) x resource.id
  | .album  => (db.items.lookup (resource.id, x)).isSome

structure Db.InScope (db : Db) (share : Share) (x : Id) : Prop where
  owned  : ∃ e, db.entries.lookup x = some e ∧ e.ownerId = share.ownerId
  within : db.Within share.resource x
  active : Active db.entries x

-- The entries that an answer shows. An album is not one.
def Answer.shown (share : Share) (endpoint : Endpoint) : Answer → List Id
  | .view v    =>
    let place := if share.resource.type = .album then [] else
      v.resource.id :: v.currentFolder.toList ++ v.breadcrumbs.map (·.id)
    place ++ v.entries.map (·.id)
  | .payload _ =>
    match endpoint with
    | .view _            => []
    | .download entryId  => [entryId]
    | .preview entryId   => [entryId]
    | .thumbnail entryId => [entryId]

-- The share that serves a request: it is neither revoked nor expired, and the request carries an
-- access session if the share has a password.
structure Db.Serves (db : Db) (now : Time) (request : Request) (id : Id) (share : Share) : Prop where
  row    : db.shares.lookup id = some share
  token  : decodeToken request.token.toList = some share.token
  active : share.active now = true
  grant  : share.passwordHash.isSome → db.hasGrant now id request.headers = true

variable {db : Db} {now : Time} {request : Request} {id x y : Id} {share : Share} {e : Entry}

theorem Db.Within.of_parent (h : db.Within share.resource y) (hf : share.resource.type = .folder)
    (hp : parentOf db.entries x = some y) : db.Within share.resource x := by
  simp only [Within, hf] at h ⊢
  exact .head hp h

theorem active_of_ancestor {entries : Table Id Entry} (h : Active entries x)
    (ha : Ancestor (parentOf entries) x y) : Active entries y :=
  fun z hz => h z (ha.trans hz)

theorem active_of_parent {entries : Table Id Entry} (hx : entries.lookup x = some e)
    (hd : e.deletedAt = none) (hp : e.parentId = some y) (h : Active entries y) :
    Active entries x := by
  intro z hz
  cases hz.cases_head
  case inl he =>
    subst he
    simp [trashed_iff hx, hd]
  case inr hr =>
    obtain ⟨p, hp', hz⟩ := hr
    cases (parentOf_eq hx).symm.trans hp' |>.symm.trans hp
    exact h z hz

namespace Db

theorem ensureActiveEntry_ok {owner : Id} {requireFolder : Bool}
    (h : ensureActiveEntry db.entries owner x requireFolder = .ok ()) :
    ∃ e, db.entries.lookup x = some e ∧ e.ownerId = owner ∧ Active db.entries x := by
  obtain ⟨e, hx, ho, -, ha⟩ := ensureActiveEntry_iff db.linked |>.mp h
  exact ⟨e, hx, ho, ha⟩

-- What `fetch_active_share` has checked of the shared resource.
def Found (db : Db) (share : Share) : Prop :=
  match share.resource.type with
  | .album => ∃ a, db.albums.lookup share.resource.id = some a ∧ a.ownerId = share.ownerId
  | _      => ∃ e, db.entries.lookup share.resource.id = some e ∧ e.ownerId = share.ownerId ∧
    Active db.entries share.resource.id

theorem fetchActiveShare_ok {token : String} (h : db.fetchActiveShare now token = .ok (id, share)) :
    db.shares.lookup id = some share ∧ decodeToken token.toList = some share.token ∧
      share.active now = true ∧ db.Found share := by
  simp only [fetchActiveShare] at h
  split at h <;> try contradiction
  case h_1 t ht =>
    split at h <;> try contradiction
    case h_1 id' share' hs =>
      have hm := Table.lookup_eq_some_iff.mpr (List.mem_of_find?_eq_some hs)
      have hp := List.find?_some hs
      simp only [Bool.and_eq_true, decide_eq_true_eq] at hp
      split at h
      case h_1 type =>
        obtain ⟨he, h⟩ := Except.ite_throw_eq_ok_iff.mp h
        cases h
        refine ⟨hm, by rw [ht, hp.left], hp.right, ?_⟩
        simpa [Found, type, Option.any_eq_true] using he
      case h_2 type =>
        split at h
        case h_1 => contradiction
        case h_2 he =>
          obtain ⟨-, h⟩ := Except.ite_throw_eq_ok_iff.mp h
          cases h
          refine ⟨hm, by rw [ht, hp.left], hp.right, ?_⟩
          simpa [Found, type] using ensureActiveEntry_ok he

theorem serves_of_fetchActiveShare (h : db.fetchActiveShare now request.token = .ok (id, share))
    (hg : db.requirePasswordGrant now request.headers id share = .ok ()) :
    db.Serves now request id share := by
  obtain ⟨hr, ht, ha, -⟩ := fetchActiveShare_ok h
  refine ⟨hr, ht, ha, fun hp => ?_⟩
  by_contra hc
  simp [requirePasswordGrant, hp, hc] at hg

theorem Serves.unique {j : Id} {other : Share} (h : db.Serves now request id share)
    (h' : db.Serves now request j other) : share = other := by
  have ht : share.token = other.token := Option.some.inj (h.token.symm.trans h'.token)
  cases db.unique h.row h'.row ht
  exact Option.some.inj (h.row.symm.trans h'.row)

theorem Found.inScope (h : db.Found share) (ht : share.resource.type ≠ .album) :
    db.InScope share share.resource.id := by
  cases type : share.resource.type <;> simp only [Found, type] at h
  case album => exact absurd type ht
  case file =>
    obtain ⟨e, he, ho, ha⟩ := h
    exact ⟨⟨e, he, ho⟩, by simp [Within, type], ha⟩
  case folder =>
    obtain ⟨e, he, ho, ha⟩ := h
    exact ⟨⟨e, he, ho⟩, by simpa [Within, type] using Ancestor.refl _, ha⟩

-- The query climbs from the entry to the root, and finds nothing trashed on the way.
theorem chainOf_ok {owner root : Id} {kind : Kind}
    (hr : (Files.chainOf db.entries owner kind x).any (·.1 = root) = true)
    (hd : (Files.chainOf db.entries owner kind x).any (·.2.deletedAt.isSome) = false) :
    ∃ e, db.entries.lookup x = some e ∧ e.ownerId = owner ∧ Active db.entries x ∧
      Ancestor (parentOf db.entries) x root := by
  simp only [List.any_eq_true, Prod.exists, decide_eq_true_eq] at hr
  obtain ⟨_, g, hm, rfl⟩ := hr
  obtain ⟨⟨e, he, hk⟩, hm⟩ := Files.mem_chainOf_iff.mp hm
  have ho : e.ownerId = owner := by
    obtain ⟨n, -, ⟨x', e'⟩, hm, -⟩ := Recursive.mem_rows_iff.mp hm
    obtain ⟨rfl, he', ho⟩ := mem_rowAt_iff.mp hm
    cases he.symm.trans he'
    simpa using ho
  refine ⟨e, he, ho, ?_, (db.linked.mem_parentChain_iff he ho |>.mp hm).left⟩
  rintro y hy ⟨f, hf, hs⟩
  simp only [List.any_eq_false, Prod.forall] at hd
  exact hd y f (Files.mem_chainOf_iff.mpr
    ⟨⟨e, he, hk⟩, db.linked.mem_parentChain_iff he ho |>.mpr ⟨hy, hf⟩⟩) hs

theorem folderInShare_ok {folder : Id}
    (h : db.folderInShare share.ownerId share.resource.id folder = true)
    (ht : share.resource.type = .folder) : db.InScope share folder := by
  simp only [folderInShare, Bool.and_eq_true, Bool.not_eq_true'] at h
  have root : (Files.chainOf db.entries share.ownerId .folder folder).any
      (·.1 = share.resource.id) = true := by
    obtain ⟨r, hm, hr⟩ := List.any_eq_true.mp h.left
    exact List.any_eq_true.mpr ⟨r, hm, (Bool.and_eq_true_iff.mp hr).left⟩
  obtain ⟨e, he, ho, ha, hw⟩ := chainOf_ok root h.right
  exact ⟨⟨e, he, ho⟩, by simpa [Within, ht] using hw, ha⟩

-- The answer for an album rests on the index, which says nothing about the parents of the file.
theorem within_of_fileInShare (h : db.fileInShare share.ownerId share.resource x = true) :
    db.Within share.resource x := by
  cases type : share.resource.type <;> simp only [fileInShare, type, Bool.and_eq_true] at h
  case album => simpa [Within, type] using h.left
  case file => simpa [Within, type] using h.right
  case folder =>
    obtain ⟨-, -, -, -, hw⟩ := chainOf_ok h.left.right (by simpa using h.left.left)
    simpa [Within, type] using hw

theorem mem_of_mem_page {α : Type} {rows : List α} {limit offset : Nat} {r : α}
    (h : r ∈ (page rows limit offset).1) : r ∈ rows :=
  List.mem_of_mem_drop (List.mem_of_mem_take (List.mem_of_mem_take h))

theorem InScope.of_parent {folder : Id} (h : db.InScope share folder)
    (ht : share.resource.type = .folder) (hx : db.entries.lookup x = some e)
    (hp : e.parentId = some folder) (ho : e.ownerId = share.ownerId) (hd : e.deletedAt = none) :
    db.InScope share x where
  owned  := ⟨e, hx, ho⟩
  within := h.within.of_parent ht (parentOf_eq hx ▸ hp)
  active := active_of_parent hx hd hp h.active

-- The walk stops at the shared folder.
theorem mem_fetchBreadcrumbs {folder : Id} {b : Breadcrumb} (h : db.InScope share folder)
    (ht : share.resource.type = .folder)
    (hb : b ∈ db.fetchBreadcrumbs share.ownerId folder share.resource.id) :
    db.InScope share b.id := by
  simp only [fetchBreadcrumbs, List.mem_map, List.mem_reverse] at hb
  obtain ⟨⟨y, g⟩, hm, rfl⟩ := hb
  obtain ⟨n, -, ⟨x, e⟩, hm, hj⟩ := Recursive.mem_rows_iff.mp hm
  obtain ⟨rfl, he, -⟩ := mem_rowAt_iff.mp hm
  refine hj.invariant (P := fun r => db.InScope share r.1 ∧ db.entries.lookup r.1 = some r.2)
    ⟨h, he⟩ ?_ |>.left
  rintro ⟨a, ea⟩ ⟨b, eb⟩ ⟨ha, hea⟩ hb
  split at hb
  case isTrue => contradiction
  case isFalse hn =>
    simp only [List.mem_flatMap, Option.mem_toList] at hb
    obtain ⟨p, hp, hb⟩ := hb
    obtain ⟨rfl, heb, hk⟩ := mem_rowAt_iff.mp hb
    simp only [Bool.and_eq_true, decide_eq_true_eq] at hk
    have parent := (parentOf_eq hea).trans hp
    have within := ha.within
    simp only [Within, ht] at within
    obtain he | ⟨q, hq, hw⟩ := within.cases_head
    case inl => exact absurd he hn
    case inr =>
      cases parent.symm.trans hq
      refine ⟨⟨⟨eb, heb, hk.left⟩, by simpa [Within, ht] using hw, ?_⟩, heb⟩
      exact active_of_ancestor ha.active (.head parent (.refl _))

theorem publicFile_shown {query : PublicShareQuery} {root : PublicEntry} {v : PublicShareView}
    {endpoint : Endpoint} (h : db.InScope share root.id)
    (hv : publicFile id share root query = .ok v) (hx : x ∈ (Answer.view v).shown share endpoint) :
    db.InScope share x := by
  simp only [publicFile] at hv
  split at hv <;> cases hv
  simp only [Answer.shown, Option.toList_none, List.map_nil, List.append_nil] at hx
  split at hx
  case isTrue  => contradiction
  case isFalse => exact List.mem_singleton.mp hx ▸ h

theorem mem_albumRows {album : Id} (h : (x, e) ∈ db.albumRows share.ownerId album) :
    db.entries.lookup x = some e ∧ e.ownerId = share.ownerId ∧
      (db.items.lookup (album, x)).isSome ∧
      (db.index.lookup x).any (fun idx => idx.deletedAt.isNone && !idx.buried) = true := by
  simp only [albumRows, List.mem_filterMap, List.mem_insertionSort, List.mem_filter,
    Bool.and_eq_true, decide_eq_true_eq, Option.map_eq_some_iff] at h
  obtain ⟨⟨⟨a, y⟩, t⟩, ⟨hm, rfl, hi⟩, e', he, hr⟩ := h
  cases hr
  obtain ⟨idx, hx, hi⟩ := Option.any_eq_true _ _ |>.mp hi
  simp only [Bool.and_eq_true, decide_eq_true_eq] at hi
  have ho : e.ownerId = share.ownerId := (db.owner he hx).symm.trans hi.left.left
  refine ⟨he, ho, by simp [Table.lookup_eq_some_iff.mpr hm], ?_⟩
  simp [hx, hi.left.right, hi.right]

-- A listing of an album reaches its items through the index alone.
def AlbumFresh (db : Db) (share : Share) (limit offset : Nat) : Prop :=
  ∀ r ∈ (page (db.albumRows share.ownerId share.resource.id) limit offset).1,
    (db.index.lookup r.1).any (fun idx => idx.deletedAt.isNone && !idx.buried) = true →
      Active db.entries r.1

theorem publicAlbum_entries {query : PublicShareQuery} {v : PublicShareView}
    (h : db.publicAlbum id share query = .ok v) :
    ∃ limit offset, query.folderId.all (· = share.resource.id) = true ∧
      pageValues query.limit query.offset = .ok (limit, offset) ∧
      v.entries.map (·.id) =
        (page (db.albumRows share.ownerId share.resource.id) limit offset).1.map Prod.fst := by
  simp only [publicAlbum] at h
  obtain ⟨hf, h⟩ := Except.ite_throw_eq_ok_iff.mp h
  split at h <;> try contradiction
  obtain ⟨⟨limit, offset⟩, hp, h⟩ := Except.bind_eq_ok_iff.mp h
  cases h
  refine ⟨limit, offset, ?_, hp, by simp [publicEntry]⟩
  cases hq : query.folderId <;> simp_all

theorem publicAlbum_ok {query : PublicShareQuery} {limit offset : Nat} (h : db.Found share)
    (ht : share.resource.type = .album)
    (hf : query.folderId.all (· = share.resource.id) = true)
    (hp : pageValues query.limit query.offset = .ok (limit, offset)) :
    ∃ v, db.publicAlbum id share query = .ok v := by
  simp only [Found, ht] at h
  obtain ⟨album, ha, ho⟩ := h
  have hf : query.folderId.any (fun x => !decide (x = share.resource.id)) = false := by
    cases hq : query.folderId <;> simp_all
  simp only [publicAlbum, ne_eq, decide_not, hf, ha, Option.filter_some, ho, hp]
  exact ⟨_, rfl⟩

theorem publicAlbum_shown {v : PublicShareView} {endpoint : Endpoint}
    {limit offset : Nat} (ht : share.resource.type = .album)
    (he : v.entries.map (·.id) =
      (page (db.albumRows share.ownerId share.resource.id) limit offset).1.map Prod.fst) :
    (∀ x ∈ (Answer.view v).shown share endpoint, db.InScope share x) ↔
      db.AlbumFresh share limit offset := by
  have shown : (Answer.view v).shown share endpoint =
      (page (db.albumRows share.ownerId share.resource.id) limit offset).1.map Prod.fst := by
    simp [Answer.shown, ht, he]
  rw [shown]
  constructor
  case mp =>
    intro h r hr _
    exact (h r.1 (List.mem_map_of_mem hr)).active
  case mpr =>
    intro h x hx
    obtain ⟨r, hr, rfl⟩ := List.mem_map.mp hx
    obtain ⟨hl, ho, hi, hs⟩ := mem_albumRows (mem_of_mem_page hr)
    exact ⟨⟨_, hl, ho⟩, by simpa [Within, ht] using hi, h r hr hs⟩

theorem transfer_ok {r : Except ResponseError Response} {response : Response}
    (h : transfer r = .ok response) : r = .ok response := by
  cases r <;> cases h
  rfl

theorem payload_shown {shown : Id} {entry : DownloadRecord}
    (hw : db.fileInShare share.ownerId share.resource shown = true)
    (h : db.files.loadDownloadRecord share.ownerId shown = .ok entry) : db.InScope share shown := by
  obtain ⟨e, he, ho, ha⟩ := Files.entry_of_loadDownloadRecord db.linked h
  exact ⟨⟨e, he, ho⟩, within_of_fileInShare hw, ha⟩

section

variable {headers : RequestHeaders} {response : Response} [Digest]

theorem thumbnailShared_shown
    (h : db.thumbnailShared share x headers = .ok response) : db.InScope share x := by
  simp only [thumbnailShared] at h
  obtain ⟨hw, h⟩ := Except.ite_throw_eq_ok_iff.mp h
  obtain ⟨entry, he⟩ := Files.record_of_thumbnailResponse (transfer_ok h)
  exact payload_shown (by simpa using hw) he

variable [Services]

theorem downloadShared_shown
    (h : db.downloadShared now share x headers = .ok response) : db.InScope share x := by
  simp only [downloadShared] at h
  obtain ⟨-, h⟩ := Except.ite_throw_eq_ok_iff.mp h
  obtain ⟨hw, h⟩ := Except.ite_throw_eq_ok_iff.mp h
  obtain ⟨-, h⟩ := Except.ite_throw_eq_ok_iff.mp h
  obtain ⟨entry, he⟩ := Files.record_of_downloadResponseInner (transfer_ok h)
  exact payload_shown (by simpa using hw) he

theorem previewShared_shown
    (h : db.previewShared share x headers = .ok response) : db.InScope share x := by
  simp only [previewShared] at h
  obtain ⟨hw, h⟩ := Except.ite_throw_eq_ok_iff.mp h
  have loaded : ∃ entry, db.files.loadDownloadRecord share.ownerId x = .ok entry := by
    split at h <;> exact Files.record_of_previewResponseInner (transfer_ok h)
  obtain ⟨entry, he⟩ := loaded
  exact payload_shown (by simpa using hw) he

end

variable [Collation]

theorem mem_folderRows {folder : Id} :
    (x, e) ∈ db.folderRows share.ownerId folder ↔ db.entries.lookup x = some e ∧
      e.parentId = some folder ∧ e.ownerId = share.ownerId ∧ e.deletedAt = none := by
  simp [folderRows, List.mem_insertionSort, mem_childrenOf_iff]

theorem publicFolder_shown {query : PublicShareQuery} {root : PublicEntry} {v : PublicShareView}
    {endpoint : Endpoint} (h : db.InScope share root.id) (ht : share.resource.type = .folder)
    (hv : db.publicFolder id share root query = .ok v)
    (hx : x ∈ (Answer.view v).shown share endpoint) : db.InScope share x := by
  simp only [publicFolder] at hv
  obtain ⟨-, hv⟩ := Except.ite_throw_eq_ok_iff.mp hv
  obtain ⟨hf, hv⟩ := Except.ite_throw_eq_ok_iff.mp hv
  obtain ⟨-, -, hv⟩ := Except.bind_eq_ok_iff.mp hv
  obtain ⟨⟨limit, offset⟩, -, hv⟩ := Except.bind_eq_ok_iff.mp hv
  cases hv
  have folder := folderInShare_ok (by simpa using hf) ht
  simp only [Answer.shown, ht, reduceCtorEq, if_false, Option.toList_some, List.mem_append,
    List.mem_cons, List.mem_map, List.not_mem_nil, or_false] at hx
  obtain ((rfl | rfl) | ⟨b, hb, rfl⟩) | ⟨p, ⟨⟨y, e⟩, hm, rfl⟩, rfl⟩ := hx
  case inl.inl.inl => exact h
  case inl.inl.inr => exact folder
  case inl.inr     => exact mem_fetchBreadcrumbs folder ht hb
  case inr =>
    obtain ⟨hy, hp, ho, hd⟩ := mem_folderRows.mp (mem_of_mem_page hm)
    exact folder.of_parent ht hy hp ho hd

theorem publicShare_shown {query : PublicShareQuery} {v : PublicShareView} {endpoint : Endpoint}
    (h : db.Found share) (ht : share.resource.type ≠ .album)
    (hv : db.publicShare id share query = .ok v)
    (hx : x ∈ (Answer.view v).shown share endpoint) : db.InScope share x := by
  simp only [publicShare, ht, if_false] at hv
  obtain ⟨root, hr, hv⟩ := Except.bind_eq_ok_iff.mp hv
  have root : db.InScope share root.id := by
    simp only [fetchPublicEntry] at hr
    split at hr <;> cases hr
    exact h.inScope ht
  split at hv
  case isTrue  => exact publicFile_shown root hv hx
  case isFalse hf =>
    have ht : share.resource.type = .folder := by
      cases type : share.resource.type <;> simp_all
    exact publicFolder_shown root ht hv hx

variable [Digest] [Services]

-- Every entry that the answer to the request shows is in the scope of a share with the token, which
-- is neither revoked nor expired and not locked by its password.
def Confined (db : Db) (now : Time) (request : Request) : Prop :=
  ∀ a, db.answer now request = .ok a → ∃ id share, db.Serves now request id share ∧
    ∀ x ∈ a.shown share request.endpoint, db.InScope share x

-- If the request lists an album, then no item on its page that the index shows lies below a trashed
-- folder.
def Fresh (db : Db) (now : Time) (request : Request) : Prop :=
  ∀ {query id share limit offset}, request.endpoint = .view query →
    db.fetchActiveShare now request.token = .ok (id, share) →
    db.requirePasswordGrant now request.headers id share = .ok () →
    share.resource.type = .album → query.folderId.all (· = share.resource.id) = true →
    pageValues query.limit query.offset = .ok (limit, offset) → db.AlbumFresh share limit offset

theorem answer_ok {a : Answer} (h : db.answer now request = .ok a) :
    ∃ id share, db.fetchActiveShare now request.token = .ok (id, share) ∧
      db.requirePasswordGrant now request.headers id share = .ok () ∧
      db.serve now id share request.headers request.endpoint = .ok a := by
  simp only [answer] at h
  obtain ⟨⟨id, share⟩, hf, h⟩ := Except.bind_eq_ok_iff.mp h
  obtain ⟨u, hg, h⟩ := Except.bind_eq_ok_iff.mp h
  exact ⟨id, share, hf, hg, h⟩

theorem serve_shown {a : Answer} {headers : RequestHeaders} {endpoint : Endpoint}
    (h : db.Found share) (ha : db.serve now id share headers endpoint = .ok a)
    (hf : ∀ query, endpoint = .view query → share.resource.type ≠ .album) :
    ∀ x ∈ a.shown share endpoint, db.InScope share x := by
  intro x hx
  cases endpoint <;> simp only [serve] at ha
  all_goals obtain ⟨r, hr, rfl⟩ := Except.map_eq_ok_iff.mp ha
  case view query => exact publicShare_shown h (hf query rfl) hr hx
  all_goals rw [Answer.shown, List.mem_singleton] at hx; subst hx
  case download  => exact downloadShared_shown hr
  case preview   => exact previewShared_shown hr
  case thumbnail => exact thumbnailShared_shown hr

end Db
section

attribute [local instance] Collation.binary Digest.hi Services.offline

-- The folder `p` lies in `g`, and the file `c` in the folder `x`.
def filed : Drive.Db where
  entries := ⟨[(1, ⟨7, none, .folder, "g", none, none⟩), (2, ⟨7, some 1, .folder, "p", none, none⟩),
    (3, ⟨7, none, .folder, "x", none, none⟩), (4, ⟨7, some 3, .file, "c", none, none⟩)], by decide⟩
  index   := ⟨[(1, ⟨7, none, .folder, "g", none, false⟩), (2, ⟨7, some 1, .folder, "p", none, false⟩),
    (3, ⟨7, none, .folder, "x", none, false⟩), (4, ⟨7, some 3, .file, "c", none, false⟩)], by decide⟩

-- The same after `x` was moved into `p`, while `g` was being trashed: the index does not hide `c`.
def stale : Drive.Db where
  entries := ⟨[(3, ⟨7, some 2, .folder, "x", none, none⟩), (1, ⟨7, none, .folder, "g", some 5, none⟩),
    (2, ⟨7, some 1, .folder, "p", none, none⟩), (4, ⟨7, some 3, .file, "c", none, none⟩)], by decide⟩
  index   := ⟨[(4, ⟨7, some 3, .file, "c", none, false⟩), (3, ⟨7, some 2, .folder, "x", none, true⟩),
    (2, ⟨7, some 1, .folder, "p", none, true⟩), (1, ⟨7, none, .folder, "g", some 5, false⟩)], by decide⟩

-- The file `c` is in an album, which is shared.
def shelf : Db where
  files  := { entries := stale.entries }
  index  := stale.index
  albums := ⟨[(8, ⟨7, "a"⟩)], by decide⟩
  items  := ⟨[((8, 4), 0)], by decide⟩
  shares := ⟨[(9, { ownerId := 7, resource := ⟨.album, 8⟩, token := 0 })], by decide⟩
  access := .empty
  linked := linked_of_all (by decide)
  owner  := by
    intro x e r hx hr
    have all : stale.entries.rows.all (fun a => (stale.index.lookup a.1).all
      fun r => r.ownerId = a.2.ownerId) = true := by decide
    have := List.all_eq_true.mp all _ (Table.lookup_eq_some_iff.mp hx)
    simpa [hr] using this
  unique := by
    intro i j s t hs ht _
    cases List.mem_singleton.mp (Table.lookup_eq_some_iff.mp hs)
    cases List.mem_singleton.mp (Table.lookup_eq_some_iff.mp ht)
    rfl

end
end MyDrive.Shares
