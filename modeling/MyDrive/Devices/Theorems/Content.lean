import MyDrive.Devices.Content
import MyDrive.Quota.Theorems.Operations

open MyDrive.Transfers

namespace MyDrive.Transfers.Store

-- The rows of an account: its files, their versions and the objects of these.
def fileOf (s : Store) (a id : Id) : Option File :=
  (s.files.lookup id).filter (·.ownerId = a)

def ownsVersion (s : Store) (a id : Id) (v : FileVersion) : Bool :=
  s.files.any fun f x => x.ownerId = a && (v.fileId = f || x.currentVersion = some id)

def versionOf (s : Store) (a id : Id) : Option FileVersion :=
  (s.versions.lookup id).filter (s.ownsVersion a id)

def ownsObject (s : Store) (a id : Id) : Bool :=
  s.versions.any fun v x => s.ownsVersion a v x && x.objectId = id

def objectOf (s : Store) (a id : Id) : Option StorageObject :=
  (s.objects.lookup id).filter fun _ => s.ownsObject a id

-- Two stores that differ in the rows of other accounts only.
structure Agrees (a : Id) (s s' : Store) : Prop where
  files id    : s'.fileOf a id = s.fileOf a id
  versions id : s'.versionOf a id = s.versionOf a id
  objects id  : s'.objectOf a id = s.objectOf a id

-- There is a ready object with this content, whoever has it.
def Stored (s : Store) (checksum : String) (size : Nat) : Prop :=
  ∃ id o, s.objects.lookup id = some o ∧ o.state = .ready ∧ o.checksum = some checksum ∧ o.size = size

-- The account itself has a version with this content.
def StoredBy (s : Store) (a : Id) (checksum : String) (size : Nat) : Prop :=
  ∃ id o, s.objectOf a id = some o ∧ o.state = .ready ∧ o.checksum = some checksum ∧ o.size = size

-- The object of the file's current version.
def currentObject (s : Store) (f : File) : Option StorageObject :=
  (f.currentVersion.bind s.versions.lookup).bind fun v => s.objects.lookup v.objectId

variable {s s' : Store} {a id v : Id} {f : File} {x : FileVersion} {o : StorageObject}

theorem fileOf_eq_some_iff :
    s.fileOf a id = some f ↔ s.files.lookup id = some f ∧ f.ownerId = a := by
  simp [fileOf, Option.filter_eq_some_iff]

theorem versionOf_current (hf : s.fileOf a id = some f) (hv : f.currentVersion = some v) :
    s.versionOf a v = s.versions.lookup v := by
  obtain ⟨hf, ho⟩ := fileOf_eq_some_iff.mp hf
  cases hx : s.versions.lookup v
  case none   => simp [versionOf, hx]
  case some x =>
    simp only [versionOf, hx, Option.filter_eq_some_iff, true_and]
    exact Table.any_iff.mpr ⟨id, f, hf, by simp [ho, hv]⟩

theorem objectOf_version (hv : s.versionOf a v = some x) :
    s.objectOf a x.objectId = s.objects.lookup x.objectId := by
  obtain ⟨hx, hv⟩ := Option.filter_eq_some_iff.mp hv
  cases ho : s.objects.lookup x.objectId
  case none   => simp [objectOf, ho]
  case some o =>
    simp only [objectOf, ho, Option.filter_eq_some_iff, true_and]
    exact Table.any_iff.mpr ⟨v, x, hx, by simp [hv]⟩

theorem Stored.of_account {sum : String} {size : Nat} (h : s.StoredBy a sum size) :
    s.Stored sum size := by
  obtain ⟨id, o, ho, h⟩ := h
  exact ⟨id, o, (Option.filter_eq_some_iff.mp ho).left, h⟩

theorem mem_matchingObjects_iff {sum : String} {size : Nat} :
    id ∈ s.matchingObjects sum size ↔
      ∃ o, s.objects.lookup id = some o ∧ o.state = .ready ∧ o.checksum = some sum ∧
        o.size = size := by
  simp only [matchingObjects, List.mem_filterMap, Prod.exists, Option.ite_none_right_eq_some]
  constructor
  case mp =>
    rintro ⟨i, o, hm, ho, he⟩
    cases he
    exact ⟨o, Table.lookup_eq_some_iff.mpr hm, ho⟩
  case mpr =>
    rintro ⟨o, hm, ho⟩
    exact ⟨id, o, Table.lookup_eq_some_iff.mp hm, ho, rfl⟩

theorem matchingObjects_eq_nil_iff {sum : String} {size : Nat} :
    s.matchingObjects sum size = [] ↔ ¬s.Stored sum size := by
  simp only [List.eq_nil_iff_forall_not_mem, mem_matchingObjects_iff, Stored, not_exists]

namespace Agrees

theorem symm (h : Agrees a s s') : Agrees a s' s where
  files id    := (h.files id).symm
  versions id := (h.versions id).symm
  objects id  := (h.objects id).symm

theorem file (h : Agrees a s s') (hf : s.fileOf a id = some f) : s'.fileOf a id = some f :=
  (h.files id).trans hf

theorem version (h : Agrees a s s') (hf : s.fileOf a id = some f) (hv : f.currentVersion = some v) :
    s'.versions.lookup v = s.versions.lookup v := by
  rw [← versionOf_current (h.file hf) hv, ← versionOf_current hf hv, h.versions]

theorem object (h : Agrees a s s') (hv : s.versionOf a v = some x) :
    s'.objects.lookup x.objectId = s.objects.lookup x.objectId := by
  have hv' : s'.versionOf a v = some x := (h.versions v).trans hv
  rw [← objectOf_version hv', ← objectOf_version hv, h.objects]

theorem currentObject (h : Agrees a s s') (hf : s.fileOf a id = some f) :
    s'.currentObject f = s.currentObject f := by
  unfold Store.currentObject
  cases hv : f.currentVersion
  case none   => rfl
  case some v =>
    simp only [Option.bind_some, h.version hf hv]
    cases hx : s.versions.lookup v
    case none   => rfl
    case some x => exact h.object ((versionOf_current hf hv).trans hx)

theorem usedBytes (h : Agrees a s s') : s'.usedBytes a = s.usedBytes a := by
  apply used_congr
  intro g
  have same (x : File) (hx : s.fileOf a g = some x) : s'.currentBytes x = s.currentBytes x := by
    unfold currentBytes
    cases hc : x.currentVersion
    case none   => rfl
    case some v =>
      apply readyBytes_congr (h.version hx hc)
      intro y hy
      exact h.object ((versionOf_current hx hc).trans hy)
  -- A file of another account weighs nothing, if it is there at all.
  have weight (t : Store) : t.held a g = (t.fileOf a g).elim 0 t.currentBytes := by
    unfold held Table.weight fileOf
    cases hf : t.files.lookup g
    case none   => rfl
    case some x => by_cases ho : x.ownerId = a <;> simp [Option.filter, ho]
  rw [weight, weight, h.files]
  cases hf : s.fileOf a g
  case none   => rfl
  case some x => exact same x hf

theorem stored (h : Agrees a s s') {sum : String} {size : Nat} (hs : s.StoredBy a sum size) :
    s.Stored sum size ∧ s'.Stored sum size := by
  refine ⟨.of_account hs, ?_⟩
  obtain ⟨id, o, ho, hc⟩ := hs
  exact .of_account ⟨id, o, (h.objects id).trans ho, hc⟩

-- Two such stores that are given by their rows.
theorem of_rows
    (files : s'.files.rows.filter (fun r => r.2.ownerId = a) =
      s.files.rows.filter fun r => r.2.ownerId = a)
    (versions : s'.versions.rows.filter (fun r => s'.ownsVersion a r.1 r.2) =
      s.versions.rows.filter fun r => s.ownsVersion a r.1 r.2)
    (objects : s'.objects.rows.filter (fun r => s'.ownsObject a r.1) =
      s.objects.rows.filter fun r => s.ownsObject a r.1) : Agrees a s s' where
  files id    := by
    rw [fileOf, fileOf, Table.filter_lookup (p := fun _ (f : File) => f.ownerId = a), files,
      Table.filter_lookup (p := fun _ (f : File) => f.ownerId = a)]
  versions id := by rw [versionOf, versionOf, Table.filter_lookup, versions, Table.filter_lookup]
  objects id  := by
    rw [objectOf, objectOf, Table.filter_lookup (p := fun i _ => s'.ownsObject a i), objects,
      Table.filter_lookup (p := fun i _ => s.ownsObject a i)]

end Agrees
end MyDrive.Transfers.Store

namespace MyDrive.Devices

open Store

variable [Collation]

namespace Catalog

-- Two databases that differ in the files, the versions and the objects of other accounts only.
structure Agrees (a : Id) (d d' : Catalog) : Prop where
  accounts : d'.books.accounts = d.books.accounts
  sessions : d'.books.store.sessions = d.books.store.sessions
  folders  : d'.folders = d.folders
  rows     : d.books.store.Agrees a d'.books.store

theorem Agrees.symm {a : Id} {d d' : Catalog} (h : Agrees a d d') : Agrees a d' d where
  accounts := h.accounts.symm
  sessions := h.sessions.symm
  folders  := h.folders.symm
  rows     := h.rows.symm

variable {d d' : Catalog} {c : Link} {id : Id} {o : StorageObject}

def target (c : Link) : File :=
  { ownerId := c.owner, parentId := c.parentId, name := c.name }

theorem owner_of_sameName {f : File} (h : sameName f (target c)) : f.ownerId = c.owner := by
  simp only [sameName, Bool.and_eq_true, decide_eq_true_eq] at h
  exact h.left.left.left.left

theorem existingFile_eq_findSome {s : Store} :
    s.existingFile c = s.files.rows.findSome? fun r =>
      if sameName r.2 (target c) then (s.currentObject r.2).map (r.1, ·) else none := by
  unfold existingFile
  congr 1
  funext r
  simp only [target, currentObject, Option.map_bind, Function.comp_def]

-- The index makes the order of the rows irrelevant.
theorem existingFile_eq_some_iff :
    d.books.store.existingFile c = some (id, o) ↔
      ∃ f, d.books.store.fileOf c.owner id = some f ∧ sameName f (target c) ∧
        d.books.store.currentObject f = some o := by
  rw [existingFile_eq_findSome]
  constructor
  case mp =>
    intro h
    obtain ⟨⟨i, f⟩, hm, hf⟩ := List.exists_of_findSome?_eq_some h
    obtain ⟨hn, hf⟩ := Option.ite_none_right_eq_some.mp hf
    obtain ⟨o, ho, he⟩ := Option.map_eq_some_iff.mp hf
    cases he
    exact ⟨f, fileOf_eq_some_iff.mpr ⟨Table.lookup_eq_some_iff.mpr hm, owner_of_sameName hn⟩, hn, ho⟩
  case mpr =>
    rintro ⟨f, hf, hn, ho⟩
    have hf := (fileOf_eq_some_iff.mp hf).left
    have some : (d.books.store.files.rows.findSome? fun r =>
        if sameName r.2 (target c) then (d.books.store.currentObject r.2).map (r.1, ·)
        else none).isSome := by
      rw [List.findSome?_isSome_iff]
      exact ⟨(id, f), Table.lookup_eq_some_iff.mp hf, by simp [hn, ho]⟩
    obtain ⟨p, hp⟩ := Option.isSome_iff_exists.mp some
    obtain ⟨⟨i, g⟩, hm, hg⟩ := List.exists_of_findSome?_eq_some hp
    obtain ⟨hg, hp'⟩ := Option.ite_none_right_eq_some.mp hg
    have hi := Table.lookup_eq_some_iff.mpr hm
    have names : sameName f g := by
      simp only [sameName, Bool.and_eq_true, decide_eq_true_eq] at hn hg ⊢
      simp [hn, hg]
    cases d.unique hf hi names
    cases hf.symm.trans hi
    rw [hp, ← hp', ho]
    rfl

theorem Agrees.existingFile (h : Agrees c.owner d d') :
    d'.books.store.existingFile c = d.books.store.existingFile c := by
  ext p
  obtain ⟨id, o⟩ := p
  simp only [existingFile_eq_some_iff]
  apply exists_congr
  intro f
  rw [h.rows.files]
  apply and_congr_right
  intro hf
  rw [h.rows.currentObject hf]

theorem Agrees.taken (h : Agrees c.owner d d') :
    (d'.books.store.files.any fun _ g => sameName (target c) g) =
      d.books.store.files.any fun _ g => sameName (target c) g := by
  have owner {f g : File} (hn : sameName f g) : g.ownerId = f.ownerId := by
    simp only [sameName, Bool.and_eq_true, decide_eq_true_eq] at hn
    exact hn.left.left.left.left.symm
  have keep {d d' : Catalog} (h : Agrees c.owner d d')
      (ht : d.books.store.files.any fun _ g => sameName (target c) g) :
      d'.books.store.files.any fun _ g => sameName (target c) g := by
    obtain ⟨id, g, hg, hn⟩ := Table.any_iff.mp ht
    have hg' := h.rows.file (fileOf_eq_some_iff.mpr ⟨hg, owner hn⟩)
    exact Table.any_iff.mpr ⟨id, g, (fileOf_eq_some_iff.mp hg').left, hn⟩
  rw [Bool.eq_iff_iff]
  exact ⟨keep h.symm, keep h⟩

theorem Agrees.ensureQuota {ownerQuota : UInt64} {a now n : Nat} (h : Agrees a d d') :
    d'.books.ensureQuota ownerQuota a now n = d.books.ensureQuota ownerQuota a now n := by
  unfold Quota.Books.ensureQuota Quota.Books.used Quota.Books.reserved Store.reservedBytes
  rw [h.accounts, h.sessions, h.rows.usedBytes]

theorem linkTarget_ok {s t : Store} {f : Id} (h : s.linkTarget c = .ok (t, f)) :
    t.objects = s.objects ∧ (t.files.lookup f).isSome ∧
      ((s.existingFile c).isSome ∨ ¬s.files.any fun _ g => sameName (target c) g) := by
  unfold linkTarget at h
  split at h
  case h_1 id o he =>
    cases h
    obtain ⟨x, hx, -⟩ := owner_of_existingFile he
    exact ⟨rfl, Option.isSome_of_eq_some hx, .inl (by simp [he])⟩
  case h_2 he =>
    obtain ⟨t, ht, h⟩ := Except.map_eq_ok_iff.mp h
    cases h
    unfold insertFile at ht
    split at ht
    case isTrue         => cases ht
    case isFalse absent => cases ht; exact ⟨rfl, by simp, .inr absent⟩

theorem exists_linkTarget {s : Store}
    (h : (s.existingFile c).isSome ∨ ¬s.files.any fun _ g => sameName (target c) g) :
    ∃ t f, s.linkTarget c = .ok (t, f) := by
  unfold linkTarget
  cases he : s.existingFile c
  case some p => exact ⟨_, _, rfl⟩
  case none   =>
    have absent := h.resolve_left (by simp [he])
    exact ⟨_, _, congrArg (Except.map _) (if_neg absent)⟩

-- When the transaction of a link succeeds.
theorem exists_linkObject_iff {s : Store} {env : Env} {objectId : Id} :
    (∃ r, s.linkObject env c objectId = .ok r) ↔
      (s.existingFile c).any (fun p => p.2.checksum = some c.checksum ∧ p.2.size = c.size) ∨
      env.withinQuota ∧ (s.objects.lookup objectId).isSome ∧
        ((s.existingFile c).isSome ∨ ¬s.files.any fun _ g => sameName (target c) g) := by
  unfold linkObject
  split
  case isTrue hu  => exact iff_of_true ⟨none, rfl⟩ (.inl hu)
  case isFalse hu =>
    simp only [Except.bind_eq_ok_iff, Except.ite_throw_eq_ok_iff]
    constructor
    case mp =>
      rintro ⟨r, hq, ⟨t, f⟩, ht, u, hv, -⟩
      obtain ⟨objects, -, room⟩ := linkTarget_ok ht
      obtain ⟨-, ⟨o, ho⟩, -⟩ := insertVersion_ok hv
      exact .inr ⟨by simpa using hq, Option.isSome_of_eq_some (objects ▸ ho), room⟩
    case mpr =>
      rintro (h | ⟨hq, ho, room⟩)
      case inl => exact absurd h hu
      case inr =>
        obtain ⟨t, f, ht⟩ := exists_linkTarget room
        obtain ⟨objects, hf, -⟩ := linkTarget_ok ht
        obtain ⟨x, hx⟩ := Option.isSome_iff_exists.mp hf
        obtain ⟨o, ho⟩ := Option.isSome_iff_exists.mp ho
        let v : FileVersion := { fileId := f, objectId, size := c.size, createdAt := env.startedAt }
        have hv : t.insertVersion s.next v = .ok { t with versions := t.versions.set s.next v } := by
          simp [insertVersion, v, hx, objects, ho]
        exact ⟨_, by simp [hq], (t, f), ht, _, hv, rfl⟩

theorem linkObject_none_iff {s : Store} {env : Env} {objectId : Id} :
    s.linkObject env c objectId = .ok none ↔
      (s.existingFile c).any (fun p => p.2.checksum = some c.checksum ∧ p.2.size = c.size) := by
  unfold linkObject
  split
  case isTrue hu  => exact iff_of_true rfl hu
  case isFalse hu =>
    refine iff_of_false ?_ hu
    intro h
    simp only [Except.bind_eq_ok_iff, Except.ite_throw_eq_ok_iff] at h
    obtain ⟨_, _, _, _, _, he⟩ := h
    cases he

variable {ownerQuota : UInt64} {now : Time} {objectId : Id}

-- When an attachment succeeds. It does not matter which object it is.
theorem exists_attach_iff :
    (∃ r, d.attach ownerQuota now c objectId = .ok r) ↔
      (d.books.store.existingFile c).any
        (fun p => p.2.checksum = some c.checksum ∧ p.2.size = c.size) ∨
      (d.books.ensureQuota ownerQuota c.owner now (Quota.Books.additional d.books.store c)).isOk ∧
        (d.books.store.objects.lookup objectId).isSome ∧
        ((d.books.store.existingFile c).isSome ∨
          ¬d.books.store.files.any (fun _ g => sameName (target c) g) ∧ ¬d.folderNamed c) := by
  unfold attach
  constructor
  case mp =>
    rintro ⟨r, hr⟩
    split at hr
    case h_1       => cases hr
    case h_2 hl    => exact .inl (linkObject_none_iff.mp hl)
    case h_3 s' hl =>
      split at hr
      case isTrue       => cases hr
      case isFalse hn =>
        apply (exists_linkObject_iff.mp ⟨_, hl⟩).imp_right
        rintro ⟨hq, ho, room⟩
        refine ⟨hq, ho, ?_⟩
        cases he : d.books.store.existingFile c
        case some => exact .inl rfl
        case none => simp_all
  case mpr =>
    intro h
    have linked : ∃ r, d.books.linkContent ownerQuota now { now } c objectId = .ok r := by
      apply exists_linkObject_iff.mpr
      exact h.imp_right fun h => ⟨h.left, h.right.left, h.right.right.imp_right And.left⟩
    obtain ⟨r, hr⟩ := linked
    rw [hr]
    cases r
    case none    => exact ⟨none, rfl⟩
    case some s' =>
      have room : ¬((d.books.store.existingFile c).isNone && d.folderNamed c) := by
        obtain hu | ⟨-, -, he | ⟨-, hn⟩⟩ := h
        case inl     => cases hr.symm.trans (linkObject_none_iff.mpr hu)
        case inr.inl => simp [Option.isSome_iff_ne_none.mp he]
        case inr.inr => simp [hn]
      exact ⟨some s', if_neg room⟩

theorem Agrees.attach {objectId' : Id} (h : Agrees c.owner d d')
    (ho : (d'.books.store.objects.lookup objectId').isSome)
    (hl : ∃ r, d.attach ownerQuota now c objectId = .ok r) :
    ∃ r, d'.attach ownerQuota now c objectId' = .ok r := by
  rw [exists_attach_iff] at hl ⊢
  have folder : d'.folderNamed c = d.folderNamed c := by rw [folderNamed, folderNamed, h.folders]
  have grown : Quota.Books.additional d'.books.store c = Quota.Books.additional d.books.store c := by
    unfold Quota.Books.additional
    rw [h.existingFile]
  rw [h.existingFile, h.taken, h.ensureQuota, folder, grown]
  exact hl.imp_right fun h => ⟨h.left, ho, h.right.right⟩

variable {owner : Id} {r : ContentRequest}

-- A link succeeds, with one object or another.
def Links (d : Catalog) (ownerQuota : UInt64) (now : Time) (owner : Id) (r : ContentRequest) : Prop :=
  ∃ row s, d.linkContent ownerQuota now owner r row = some (.ok s)

theorem linkContent_ok {row : Option Id} {s : Option Store}
    (h : d.linkContent ownerQuota now owner r row = some (.ok s)) :
    ∃ c objectId, r.parse owner = .ok c ∧ d.ensureParent c = .ok () ∧
      objectId ∈ d.books.store.matchingObjects c.checksum c.size ∧
      d.attach ownerQuota now c objectId = .ok s := by
  unfold linkContent at h
  split at h
  case h_1      => cases h
  case h_2 c hc =>
    split at h
    case h_1      => cases h
    case h_2 hp =>
      obtain ⟨o, ho, hs⟩ := Option.map_eq_some_iff.mp h
      cases o
      case none          => cases hs
      case some objectId => exact ⟨c, objectId, hc, hp, limitOne_mem ho, hs⟩

theorem links_of_attach {c : Link} {s : Option Store} (hc : r.parse owner = .ok c)
    (hp : d.ensureParent c = .ok ()) (ho : objectId ∈ d.books.store.matchingObjects c.checksum c.size)
    (hs : d.attach ownerQuota now c objectId = .ok s) : d.Links ownerQuota now owner r := by
  refine ⟨some objectId, s, ?_⟩
  simp only [linkContent, hc, hp, limitOne, if_pos ho, Option.map_some, hs]

omit [Collation] in
theorem owner_of_parse {c : Link} (h : r.parse owner = .ok c) : c.owner = owner := by
  unfold ContentRequest.parse at h
  split at h
  case h_2 => cases h
  case h_1 =>
    split at h
    case isTrue  => cases h; rfl
    case isFalse => cases h

-- The one thing that a request depends on beside the rows of its account.
def SameContent (d d' : Catalog) (owner : Id) (r : ContentRequest) : Prop :=
  ∀ c, r.parse owner = .ok c →
    d.books.store.StoredBy owner c.checksum c.size ∨
    (d.books.store.Stored c.checksum c.size ↔ d'.books.store.Stored c.checksum c.size)

theorem Agrees.stored_iff {c : Link} (h : Agrees owner d d') (hs : SameContent d d' owner r)
    (hc : r.parse owner = .ok c) :
    d.books.store.Stored c.checksum c.size ↔ d'.books.store.Stored c.checksum c.size := by
  obtain own | same := hs c hc
  case inl => exact iff_of_true (h.rows.stored own).left (h.rows.stored own).right
  case inr => exact same

theorem Agrees.links (h : Agrees owner d d') (hs : SameContent d d' owner r)
    (hl : d.Links ownerQuota now owner r) : d'.Links ownerQuota now owner r := by
  obtain ⟨row, s, hl⟩ := hl
  obtain ⟨c, objectId, hc, hp, ho, ha⟩ := linkContent_ok hl
  cases owner_of_parse hc
  obtain ⟨o, ho⟩ := mem_matchingObjects_iff.mp ho
  obtain ⟨objectId', o', ho'⟩ := (h.stored_iff hs hc).mp ⟨objectId, o, ho⟩
  obtain ⟨s', ha'⟩ := h.attach (Option.isSome_of_eq_some ho'.left) ⟨s, ha⟩
  have hp' : d'.ensureParent c = .ok () := by rw [ensureParent, h.folders]; exact hp
  exact links_of_attach hc hp' (mem_matchingObjects_iff.mpr ⟨o', ho'⟩) ha'

theorem Agrees.checkContent (h : Agrees owner d d') (hs : SameContent d d' owner r) :
    d'.checkContent owner r = d.checkContent owner r := by
  unfold Catalog.checkContent
  cases hc : r.parse owner
  case error e => rfl
  case ok c    =>
    cases owner_of_parse hc
    have parent : d'.ensureParent c = d.ensureParent c := by
      rw [ensureParent, ensureParent, h.folders]
    have reusable : (d'.books.store.matchingObjects c.checksum c.size).isEmpty =
        (d.books.store.matchingObjects c.checksum c.size).isEmpty := by
      rw [Bool.eq_iff_iff, List.isEmpty_iff, List.isEmpty_iff, matchingObjects_eq_nil_iff,
        matchingObjects_eq_nil_iff, h.stored_iff hs hc]
    have same : checkResponse d'.books.store c = checkResponse d.books.store c := by
      unfold checkResponse
      rw [h.existingFile, reusable]
      cases he : d.books.store.existingFile c
      case none   => rfl
      case some p =>
        obtain ⟨id, o⟩ := p
        obtain ⟨f, hf, -, -⟩ := existingFile_eq_some_iff.mp he
        have row := (fileOf_eq_some_iff.mp hf).left
        have row' := (fileOf_eq_some_iff.mp (h.rows.file hf)).left
        simp only [row, row']
    change (d'.ensureParent c >>= fun _ => pure (checkResponse d'.books.store c)) =
      (d.ensureParent c >>= fun _ => pure (checkResponse d.books.store c))
    rw [parent, same]

-- The version that a link adds refers to a ready object with the content of the request.
theorem linkContent_content {row : Option Id} {s : Store}
    (h : d.linkContent ownerQuota now owner r row = some (.ok (some s))) :
    ∃ c v o, r.parse owner = .ok c ∧ s.versions = d.books.store.versions.set d.books.store.next v ∧
      d.books.store.objects.lookup v.objectId = some o ∧ o.state = .ready ∧
      o.checksum = some c.checksum ∧ o.size = c.size := by
  obtain ⟨c, objectId, hc, -, ho, ha⟩ := linkContent_ok h
  obtain ⟨o, ho⟩ := mem_matchingObjects_iff.mp ho
  unfold attach at ha
  split at ha
  case h_1       => cases ha
  case h_2       => cases ha
  case h_3 t ht =>
    split at ha
    case isTrue  => cases ha
    case isFalse =>
      cases ha
      obtain ⟨-, files, fileId, rfl, -⟩ := linkObject_ok ht
      exact ⟨c, _, o, hc, rfl, ho⟩

theorem content_agrees (agrees : Agrees owner d d') (same : SameContent d d' owner r) :
    d'.checkContent owner r = d.checkContent owner r ∧
    (d'.Links ownerQuota now owner r ↔ d.Links ownerQuota now owner r) ∧
    ∀ row s, d.linkContent ownerQuota now owner r row = some (.ok (some s)) →
      ∃ c v o, r.parse owner = .ok c ∧ s.versions = d.books.store.versions.set d.books.store.next v ∧
        d.books.store.objects.lookup v.objectId = some o ∧ o.state = .ready ∧
        o.checksum = some c.checksum ∧ o.size = c.size := by
  refine ⟨agrees.checkContent same, ⟨?_, agrees.links same⟩, fun row s h => linkContent_content h⟩
  apply agrees.symm.links
  intro c hc
  exact .inr (agrees.stored_iff same hc).symm

end Catalog
end MyDrive.Devices

namespace MyDrive.Devices.Catalog

open Store

-- The account 7 has a file of its own. In two of the three databases, the account 8 has another one.
abbrev owned : String := "0123456789abcdef0123456789abcdef0123456789abcdef0123456789abcdef"

abbrev foreign : String := "fedcba9876543210fedcba9876543210fedcba9876543210fedcba9876543210"

def request : ContentRequest where
  parentId := none
  name     := "copy.txt"
  size     := 5
  checksum := foreign

def users : Table Id Quota.Account where
  rows  := [(7, { role := .owner, member_quota := by decide, quota_le := by simp })]
  nodup := by decide

def ofStore (store : Store)
    (h : ∀ p ∈ store.files.rows, ∀ q ∈ store.files.rows, @sameName .binary p.2 q.2 → p.1 = q.1) :
    @Catalog .binary :=
  @Catalog.mk .binary { accounts := users, items := .empty, store } .empty fun hi hj hn =>
    h _ (Table.lookup_eq_some_iff.mp hi) _ (Table.lookup_eq_some_iff.mp hj) hn

def file (owner : Id) (name : String) (version : Id) : File where
  ownerId        := owner
  parentId       := none
  name           := name
  currentVersion := some version

def object (size : Nat) (checksum : String) : StorageObject where
  size      := size
  checksum  := some checksum
  state     := .ready
  createdAt := 0

def alone : Store where
  files    := Table.empty.set 1 (file 7 "a.txt" 2)
  versions := Table.empty.set 2 { fileId := 1, objectId := 3, size := 4, createdAt := 0 }
  objects  := Table.empty.set 3 (object 4 owned)
  next     := 20

def beside : Store where
  files    := alone.files.set 4 (file 8 "b.txt" 5)
  versions := alone.versions.set 5 { fileId := 4, objectId := 6, size := 5, createdAt := 0 }
  objects  := alone.objects.set 6 (object 5 foreign)
  next     := 20

def beside' : Store where
  files    := alone.files.set 9 (file 8 "c.txt" 10)
  versions := alone.versions.set 10 { fileId := 9, objectId := 11, size := 5, createdAt := 1 }
  objects  := alone.objects.set 11 (object 5 foreign)
  next     := 20

theorem request_parse {c : Link} (h : request.parse 7 = .ok c) :
    c = { owner := 7, parentId := none, name := "copy.txt", size := 5, checksum := foreign } :=
  Except.ok.inj (h.symm.trans rfl)

theorem content_of_others :
    let d := ofStore alone (by decide)
    let d' := ofStore beside (by decide)
    letI := Collation.binary
    Agrees 7 d d' ∧
    d.checkContent 7 request = .ok { action := .upload, reusable := false } ∧
    d'.checkContent 7 request = .ok { action := .link, reusable := true } ∧
    ¬d.Links 100 0 7 request ∧
    d'.Links 100 0 7 request ∧
    d'.books.store.objectOf 7 6 = none ∧
    ∃ s v, d'.linkContent 100 0 7 request (some 6) = some (.ok (some s)) ∧
      s.versionOf 7 20 = some v ∧ v.objectId = 6 := by
  intro d d'
  let := Collation.binary
  have agrees : Agrees 7 d d' :=
    ⟨rfl, rfl, rfl, .of_rows (by decide +kernel) (by decide +kernel) (by decide +kernel)⟩
  have linked : ∃ s v, d'.linkContent 100 0 7 request (some 6) = some (.ok (some s)) ∧
      s.versionOf 7 20 = some v ∧ v.objectId = 6 := ⟨_, _, rfl, rfl, rfl⟩
  refine ⟨agrees, by rfl, by rfl, ?_, ?_, by rfl, linked⟩
  case refine_1 =>
    rintro ⟨row, s, h⟩
    obtain ⟨c, objectId, hc, -, ho, -⟩ := linkContent_ok h
    cases request_parse hc
    have none : alone.matchingObjects foreign 5 = [] := by decide +kernel
    exact absurd (none ▸ ho) List.not_mem_nil
  case refine_2 =>
    obtain ⟨s, -, hs, -⟩ := linked
    exact ⟨some 6, some s, hs⟩

theorem content_agrees_beside :
    let d := ofStore beside (by decide)
    let d' := ofStore beside' (by decide)
    letI := Collation.binary
    Agrees 7 d d' ∧ SameContent d d' 7 request ∧
    d'.checkContent 7 request = d.checkContent 7 request ∧
    (d'.Links 100 0 7 request ↔ d.Links 100 0 7 request) := by
  intro d d'
  let := Collation.binary
  have agrees : Agrees 7 d d' :=
    ⟨rfl, rfl, rfl, .of_rows (by decide +kernel) (by decide +kernel) (by decide +kernel)⟩
  have same : SameContent d d' 7 request := by
    intro c hc
    cases request_parse hc
    exact .inr (iff_of_true ⟨6, _, rfl, rfl, rfl, rfl⟩ ⟨11, _, rfl, rfl, rfl, rfl⟩)
  obtain ⟨check, links, -⟩ : _ ∧ (d'.Links 100 0 7 request ↔ d.Links 100 0 7 request) ∧ _ :=
    content_agrees agrees same
  exact ⟨agrees, same, check, links⟩

end MyDrive.Devices.Catalog
