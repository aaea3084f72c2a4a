import MyDrive.Archive.Tree
import MyDrive.Archive.Theorems.Validate
import MyDrive.Library.Except

-- A tree that is accepted, its archive, and what is extracted from it.

namespace MyDrive.Archive

variable {uuid : UuidParser} {p : Path} {e : Entry} {n : Nat}

theorem last_intercalate (h : ∀ part ∈ p, Name part) (hp : p ≠ []) :
    ∃ c, (['/'].intercalate p).getLast? = some c ∧ c ≠ '/' := by
  induction p
  case nil => contradiction
  case cons part p ih =>
    obtain ⟨nonempty, _, _, plain, _⟩ := h part List.mem_cons_self
    by_cases hr : p = []
    case pos =>
      obtain ⟨c, hc⟩ := Option.ne_none_iff_exists'.mp (mt List.getLast?_eq_none_iff.mp nonempty)
      rw [hr, List.intercalate_singleton]
      exact ⟨c, hc, fun he => plain (he ▸ List.mem_of_getLast? hc)⟩
    case neg =>
      obtain ⟨c, hc, hn⟩ := ih (fun part hp => h part (.tail _ hp)) hr
      refine ⟨c, ?_, hn⟩
      rw [List.intercalate_cons_of_ne_nil hr, List.getLast?_append, hc]
      rfl

theorem splitOn_member (h : ∀ part ∈ p, Name part) (hp : p ≠ []) :
    (cleanName (member p e).name).splitOn '/' = p := by
  obtain ⟨c, hc, hn⟩ := last_intercalate h hp
  have name : (member p e).name = ['/'].intercalate p := by cases e <;> rfl
  rw [name, cleanName, if_neg (by simpa [hc] using hn)]
  exact List.splitOn_intercalate _ (fun part hp => (h part hp).right.right.right.left) hp

theorem memberPath_root {root : Text} (hr : root ∈ StorageTree.checkedRoots) :
    memberPath uuid (member [root] .directory) StorageTree.checkedRoots = .ok [root] := by
  simp only [StorageTree.checkedRoots, List.mem_cons, List.not_mem_nil, or_false] at hr
  rcases hr with rfl | rfl | rfl | rfl <;> rfl

namespace StorageTree

variable {tree : StorageTree} {paths : List (Path × Entry)}

theorem ancestor {p q : Path} {e : Entry} (h : tree.entries.lookup (p ++ q) = some e) (hq : q ≠ []) :
    tree.entries.lookup p = some .directory := by
  induction q using List.reverseRecOn generalizing e
  case nil => contradiction
  case append_singleton q part ih =>
    rw [← List.append_assoc] at h
    have parent := tree.parents h
    by_cases hq : q = []
    case pos => simpa [hq] using parent
    case neg => exact ih parent hq

-- What the check of one path says about it.
theorem checkEntry_ok {rootName : Text} {seen seen' : List (Nat × Nat)} {r : Path × Entry}
    (h : checkEntry uuid checkedRoots rootName seen r = .ok seen') :
    (r.2 = .directory ∨ ∃ inode bytes, r.2 = .file inode bytes) ∧
      ∃ parts, memberPath uuid (member (rootName :: r.1) r.2) checkedRoots = .ok parts := by
  obtain ⟨below, e⟩ := r
  cases e
  case directory =>
    obtain ⟨_, _, h⟩ := Except.bind_eq_ok_iff.mp h
    obtain ⟨parts, hm, _⟩ := Except.bind_eq_ok_iff.mp h
    exact ⟨.inl rfl, parts, hm⟩
  case file =>
    unfold checkEntry at h
    dsimp only at h
    split at h
    case isTrue => contradiction
    obtain ⟨_, _, h⟩ := Except.bind_eq_ok_iff.mp h
    obtain ⟨parts, hm, _⟩ := Except.bind_eq_ok_iff.mp h
    exact ⟨.inr ⟨_, _, rfl⟩, parts, hm⟩
  case symlink => contradiction
  case other   => contradiction

-- What the check of a root says about everything below it.
theorem checkRoot_ok {rootName : Text} {s s' : List (Nat × Nat) × Nat}
    (h : tree.checkRoot uuid checkedRoots s rootName [rootName] = .ok s') :
    (tree.entries.lookup [rootName] = some .directory ∨
      tree.entries.lookup [rootName] = none ∧ rootName ∈ optionalRoots) ∧
    ∀ {below e}, below ≠ [] → tree.entries.lookup (rootName :: below) = some e →
      (e = .directory ∨ ∃ inode bytes, e = .file inode bytes) ∧
        ∃ parts, memberPath uuid (member (rootName :: below) e) checkedRoots = .ok parts := by
  unfold checkRoot at h
  split at h
  case h_2 => contradiction
  case h_3 hn =>
    refine ⟨.inr ⟨hn, ?_⟩, fun hb he => ?_⟩
    case refine_1 =>
      by_contra ho
      simp [ho] at h
    case refine_2 => cases hn.symm.trans (ancestor (p := [rootName]) he hb)
  case h_1 hd =>
    refine ⟨.inl hd, fun {below e} hb he => ?_⟩
    obtain ⟨inodes, hf, _⟩ := Except.bind_eq_ok_iff.mp h
    have listed : (below, e) ∈ tree.walk [rootName] := by
      refine List.mem_filterMap.mpr ⟨_, Table.lookup_eq_some_iff.mp he, ?_⟩
      simp [hb]
    obtain ⟨seen, seen', checked⟩ := Except.foldlM_each hf listed
    exact checkEntry_ok checked

-- Everything that an accepted tree has below its roots.
theorem validateStorageTree_ok (h : tree.validateStorageTree uuid checkedRoots = .ok n) :
    (∀ root ∈ checkedRoots, root ∉ optionalRoots → tree.entries.lookup [root] = some .directory) ∧
    ∀ {p e root}, tree.entries.lookup (root :: p) = some e → root ∈ checkedRoots →
      (e = .directory ∨ ∃ inode bytes, e = .file inode bytes) ∧
        memberPath uuid (member (root :: p) e) checkedRoots = .ok (root :: p) := by
  simp only [validateStorageTree, Except.ite_throw_eq_ok_iff] at h
  obtain ⟨rootsToScan, hn, h⟩ := Except.bind_eq_ok_iff.mp h.right
  obtain ⟨s, hs, _⟩ := Except.bind_eq_ok_iff.mp h
  cases hn
  have checks {root : Text} (hr : root ∈ checkedRoots) :
      ∃ s s', tree.checkRoot uuid checkedRoots s root [root] = .ok s' := by
    have each := Except.foldlM_each hs (x := (root, [root])) (List.mem_map.mpr ⟨root, hr, rfl⟩)
    exact each
  refine ⟨fun root hr ho => ?_, fun {p e root} he hr => ?_⟩
  case refine_1 =>
    obtain ⟨s, s', check⟩ := checks hr
    exact (checkRoot_ok check).left.resolve_right fun hn => ho hn.right
  case refine_2 =>
    obtain ⟨s, s', check⟩ := checks hr
    obtain ⟨root_ok, below_ok⟩ := checkRoot_ok check
    by_cases hp : p = []
    case pos =>
      subst hp
      rcases root_ok with hd | ⟨hn, _⟩
      case inl => cases he.symm.trans hd; exact ⟨.inl rfl, memberPath_root hr⟩
      case inr => cases he.symm.trans hn
    case neg =>
      obtain ⟨regular, parts, path⟩ := below_ok hp he
      obtain ⟨_, split, _⟩ := memberPath_ok_iff.mp path
      rw [splitOn_member (tree.names he) (by simp)] at split
      exact ⟨regular, split ▸ path⟩

-- A root that is checked is archived, when there is anything of it.
theorem head_archived {root : Text} {p : Path} {e : Entry}
    (h : tree.entries.lookup (root :: p) = some e) (hr : root ∈ checkedRoots) :
    root ∈ tree.storageRoots := by
  have there : (tree.entries.lookup [root]).isSome := by
    by_cases hp : p = []
    case pos => simp [hp ▸ h]
    case neg => simp [ancestor (p := [root]) h hp]
  simp only [checkedRoots, List.mem_cons, List.not_mem_nil, or_false] at hr
  rcases hr with rfl | rfl | rfl | rfl
  case inl             => simp [storageRoots]
  case inr.inl         => simp [storageRoots]
  case inr.inr.inl     => simp [storageRoots]
  case inr.inr.inr     => simp [storageRoots, there]

theorem archived_iff (ha : tree.Archives paths) : (p, e) ∈ paths ↔
    tree.entries.lookup p = some e ∧ p.head?.any (· ∈ checkedRoots) := by
  rw [ha.perm.mem_iff, List.mem_filter, Table.lookup_eq_some_iff]
  refine and_congr_right fun he => ?_
  cases p
  case nil => simp
  case cons root p =>
    have archived := head_archived (Table.lookup_eq_some_iff.mpr he)
    simp only [List.head?_cons, Option.any_some, decide_eq_true_eq]
    refine ⟨fun hr => ?_, archived⟩
    have cases := hr
    simp only [storageRoots, List.mem_append, List.mem_cons, List.not_mem_nil, or_false] at cases
    rcases cases with (rfl | rfl | rfl) | hs
    case inl.inl         => decide
    case inl.inr.inl     => decide
    case inl.inr.inr     => decide
    case inr =>
      split at hs
      case isTrue  => simp_all [checkedRoots]
      case isFalse => contradiction

end StorageTree

theorem descend_marked {seen : Table Path Kind} {current path : Path}
    (h : ∀ q, Level current path q → seen.lookup q = some .directory) :
    descend seeAncestor current path seen = .ok seen := by
  induction path generalizing current
  case nil => rfl
  case cons part path ih =>
    have first : seeAncestor seen (current ++ [part]) = .ok seen := by
      rw [seeAncestor, h _ (level_cons.mpr (.inl rfl))]
    rw [descend, first]
    exact ih fun q hq => h q (level_cons.mpr (.inr hq))

-- The check of an archive has come past `done`.
structure Passed (done : List (Path × Entry)) (t : Progress) : Prop where
  unwritten : t.disk = none
  seen {p : Path} {e : Entry} : (p, e) ∈ done → t.seen.lookup p = some (member p e).kind
  unseen {p : Path} : (∀ e, (p, e) ∉ done) → t.seen.lookup p = none
  roots {root : Text} {e : Entry} : ([root], e) ∈ done → root ∈ t.rootsSeen

variable {done todo : List (Path × Entry)} {t : Progress} {roots : List Text}

theorem Passed.next (succeeds : Operation → Bool) (h : Passed done t)
    (regular : e = .directory ∨ ∃ inode bytes, e = .file inode bytes)
    (path : memberPath uuid (member p e) roots = .ok p) (fresh : ∀ e, (p, e) ∉ done)
    (above : ∀ q, Level [] p.dropLast q → (q, .directory) ∈ done) :
    ∃ t', t.processMember succeeds uuid roots (member p e) = .ok t' ∧
      Passed (done ++ [(p, e)]) t' := by
  have marked : descend seeAncestor [] p.dropLast t.seen = .ok t.seen :=
    descend_marked fun q hq => h.seen (above q hq)
  have sees (k : Kind) : see t.seen p k = .ok (t.seen.set p k) := by
    simp [see, h.unseen fresh, marked, Except.map]
  have passes (t' : Progress) (hd : t'.disk = none) (hs : t'.seen = t.seen.set p (member p e).kind)
      (hr : t'.rootsSeen = if p.length = 1 then t.rootsSeen ++ p else t.rootsSeen) :
      Passed (done ++ [(p, e)]) t' := by
    refine ⟨hd, fun {q f} hq => ?_, fun {q} hq => ?_, fun {root f} hq => ?_⟩
    case refine_1 =>
      rw [hs, Table.lookup_set]
      rcases List.mem_append.mp hq with hd | hq
      case inl =>
        have ne : q ≠ p := by
          rintro rfl
          exact fresh f hd
        rw [if_neg ne, h.seen hd]
      case inr =>
        obtain ⟨rfl, rfl⟩ := Prod.mk.inj (List.mem_singleton.mp hq)
        simp
    case refine_2 =>
      have ne : q ≠ p := by
        rintro rfl
        exact hq e (by simp)
      rw [hs, Table.lookup_set, if_neg ne]
      exact h.unseen fun f hf => hq f (List.mem_append_left _ hf)
    case refine_3 =>
      rw [hr]
      rcases List.mem_append.mp hq with hq | hq
      case inl => split <;> simp [h.roots hq]
      case inr =>
        obtain ⟨rfl, rfl⟩ := Prod.mk.inj (List.mem_singleton.mp hq)
        simp
  have unwritten := h.unwritten
  have admitted (k : Kind) (hk : (if (member p e).kind = .directory then .directory else .file) = k) :
      t.accept uuid roots (member p e) = .ok (p, { t with
        seen      := t.seen.set p k
        rootsSeen := if p.length = 1 then t.rootsSeen ++ p else t.rootsSeen }) := by
    rw [Progress.accept, path, hk]
    simp only [bind, Except.bind, sees]
    rfl
  rcases regular with rfl | ⟨inode, bytes, rfl⟩
  case inl =>
    refine ⟨_, ?_, passes { t with
      seen      := t.seen.set p .directory
      rootsSeen := if p.length = 1 then t.rootsSeen ++ p else t.rootsSeen } unwritten rfl rfl⟩
    rw [Progress.processMember, admitted .directory rfl]
    exact descend_none succeeds [] p unwritten
  case inr =>
    have made := descend_none succeeds [] p.dropLast (t := { t with
      seen      := t.seen.set p .file
      rootsSeen := if p.length = 1 then t.rootsSeen ++ p else t.rootsSeen
      total     := t.total + bytes.length }) unwritten
    have read : readAll (member p (.file inode bytes)) { data := bytes } = .ok () := by
      simp [readAll, member]
    refine ⟨_, ?_, passes { t with
      seen      := t.seen.set p .file
      rootsSeen := if p.length = 1 then t.rootsSeen ++ p else t.rootsSeen
      total     := t.total + bytes.length } unwritten rfl rfl⟩
    rw [Progress.processMember, admitted .file rfl]
    simp only [member, reduceCtorEq, if_false, Progress.ensureDirectory, bind, Except.bind] at made ⊢
    rw [made]
    simp only [unwritten]
    simp only [member] at read
    rw [read]

variable {tree : StorageTree} {paths : List (Path × Entry)}

open StorageTree (checkedRoots)

theorem Passed.members (succeeds : Operation → Bool)
    (checked : tree.validateStorageTree uuid checkedRoots = .ok n) (ha : tree.Archives paths)
    (split : done ++ todo = paths) (h : Passed done t) :
    ∃ t', (archive todo).members.foldlM
        (fun s m => s.processMember succeeds uuid checkedRoots m) t = .ok t' ∧ Passed paths t' := by
  induction todo generalizing done t
  case nil => exact ⟨t, rfl, by simpa [← split] using h⟩
  case cons r todo ih =>
    obtain ⟨p, e⟩ := r
    have ordered := ha.ordered
    have listed : (p, e) ∈ paths := by simp [← split]
    obtain ⟨there, rooted⟩ := (StorageTree.archived_iff ha).mp listed
    obtain ⟨_, below⟩ := StorageTree.validateStorageTree_ok checked
    cases p
    case nil => simp at rooted
    case cons root p =>
      have hr : root ∈ checkedRoots := by simpa using rooted
      obtain ⟨regular, path⟩ := below there hr
      rw [← split, List.pairwise_append, List.pairwise_cons] at ordered
      have fresh : ∀ f, (root :: p, f) ∉ done :=
        fun f hf => ordered.right.right _ hf _ List.mem_cons_self (List.prefix_refl _)
      have above (q : Path) (hq : Level [] (root :: p).dropLast q) : (q, .directory) ∈ done := by
        obtain ⟨front, hn, hf, rfl⟩ := hq
        obtain ⟨rest, hrest⟩ := hf.trans (List.dropLast_prefix _)
        have ne : rest ≠ [] := by
          rintro rfl
          rw [List.append_nil] at hrest
          exact not_level_dropLast ⟨q, hn, hf, hrest.symm⟩
        have parent : tree.entries.lookup q = some .directory :=
          StorageTree.ancestor (q := rest) (by rw [hrest]; exact there) ne
        obtain ⟨part, tail, rfl⟩ := List.exists_cons_of_ne_nil hn
        obtain rfl : part = root := (List.cons.inj hrest).left
        have member : (part :: tail, Entry.directory) ∈ paths :=
          (StorageTree.archived_iff ha).mpr ⟨parent, by simpa using hr⟩
        rw [← split] at member
        rcases List.mem_append.mp member with hd | hd
        case inl => exact hd
        case inr =>
          rcases List.mem_cons.mp hd with he | hd
          case inl =>
            rw [← hrest] at he
            exact absurd (List.self_eq_append_right.mp (Prod.mk.inj he).left) ne
          case inr => exact absurd ⟨rest, hrest⟩ (ordered.right.left.left _ hd)
      obtain ⟨t₁, hs, h₁⟩ := h.next succeeds regular path fresh above
      obtain ⟨t', ht, h'⟩ := @ih (done ++ [(root :: p, e)]) _ (by simp [← split]) h₁
      refine ⟨t', ?_, h'⟩
      simp only [archive, List.map_cons, List.foldlM_cons, hs] at ht ⊢
      exact ht

-- What is extracted are the regular files below the roots.
theorem backup_restores (uuid : UuidParser) (succeeds : Operation → Bool)
    (h : tree.validateStorageTree uuid checkedRoots = .ok n) (ha : tree.Archives paths) :
    (∃ s, processArchive uuid succeeds none checkedRoots (archive paths) = .ok s) ∧
    ∃ s disk, processArchive uuid (fun _ => true) (some .empty) checkedRoots (archive paths) = .ok s ∧
      s.disk = some disk ∧ ∀ p bytes, disk.lookup p = some (.file bytes) ↔
        (∃ inode, tree.entries.lookup p = some (.file inode bytes)) ∧
          p.head?.any (· ∈ checkedRoots) := by
  obtain ⟨there, below⟩ := StorageTree.validateStorageTree_ok h
  have start : Passed [] {} := ⟨rfl, by simp, by simp, by simp⟩
  obtain ⟨t, run, passed⟩ := start.members succeeds h ha rfl
  have appeared {root : Text} (hr : root ∈ checkedRoots) (ho : root ∉ optionalRoots) :
      root ∈ t.rootsSeen :=
    passed.roots ((StorageTree.archived_iff ha).mpr ⟨there root hr ho, by simpa using hr⟩)
  have accepted : processArchive uuid succeeds none checkedRoots (archive paths) = .ok t := by
    have missing : (checkedRoots.filter fun root =>
        root ∉ optionalRoots && root ∉ t.rootsSeen) = [] := by
      refine List.filter_eq_nil_iff.mpr fun root hr => ?_
      by_cases ho : root ∈ optionalRoots
      case pos => simp [ho]
      case neg => simp [appeared hr ho]
    simp only [processArchive, Progress.prepareDestination, bind, Except.bind, run, missing]
    exact finish_none passed.unwritten
  refine ⟨⟨t, accepted⟩, ?_⟩
  obtain ⟨s, extracted⟩ := validate_iff_extract.mp ⟨t, accepted⟩
  obtain ⟨_, complete⟩ := processArchive_sound uuid (fun _ => true) checkedRoots (archive paths)
  obtain ⟨disk, extracts, delivered, _, files⟩ := complete s extracted
  have path {p : Path} {e : Entry} (hp : (p, e) ∈ paths) :
      (e = .directory ∨ ∃ inode bytes, e = .file inode bytes) ∧
        memberPath uuid (member p e) checkedRoots = .ok p := by
    obtain ⟨he, hr⟩ := (StorageTree.archived_iff ha).mp hp
    cases p
    case nil         => simp at hr
    case cons root p => exact below he (by simpa using hr)
  have held {p : Path} {inode : Nat × Nat} {bytes : List UInt8}
      (hp : (p, Entry.file inode bytes) ∈ paths) : disk.lookup p = some (.file bytes) := by
    obtain ⟨parts, hm, _, file⟩ := delivered _ (List.mem_map_of_mem hp)
    cases hm.symm.trans (path hp).right
    obtain ⟨source, hs, _, hd⟩ := file (by simp [member])
    cases hs
    exact hd
  refine ⟨s, disk, extracted, extracts.onto, fun p bytes => ⟨fun hp => ?_, ?_⟩⟩
  case refine_1 =>
    obtain ⟨m, hm, hk, parsed⟩ := files p bytes hp
    obtain ⟨r, listed, rfl⟩ := List.mem_map.mp hm
    obtain ⟨q, e⟩ := r
    obtain ⟨regular, own⟩ := path listed
    cases own.symm.trans parsed
    rcases regular with rfl | ⟨inode, bytes', rfl⟩
    case inl => exact absurd rfl hk
    case inr =>
      cases (held listed).symm.trans hp
      obtain ⟨he, hr⟩ := (StorageTree.archived_iff ha).mp listed
      exact ⟨⟨inode, he⟩, hr⟩
  case refine_2 =>
    rintro ⟨⟨inode, he⟩, hr⟩
    exact held ((StorageTree.archived_iff ha).mpr ⟨he, hr⟩)

-- The empty roots, and a key among the secrets.
def keyRows : List (Path × Entry) :=
  [objectsRoot, uploadsRoot, trashRoot, secretsRoot].map (fun root => ([root], .directory)) ++
    [([secretsRoot, ['k', 'e', 'y']], .file (1, 5) [7, 9])]

def keyTree : StorageTree where
  entries   := ⟨([], .directory) :: keyRows, by decide⟩
  names h   := by
    have listed := Table.lookup_eq_some_iff.mp h
    simp only [keyRows, List.map_cons, List.map_nil, List.cons_append, List.nil_append, List.mem_cons,
      List.not_mem_nil, or_false, Prod.mk.injEq] at listed
    rcases listed with ⟨rfl, _⟩ | ⟨rfl, _⟩ | ⟨rfl, _⟩ | ⟨rfl, _⟩ | ⟨rfl, _⟩ | ⟨rfl, _⟩ <;>
      simp [Name, objectsRoot, uploadsRoot, trashRoot, secretsRoot]
  parents {p part e} h := by
    have listed := Table.lookup_eq_some_iff.mp h
    rcases p with _ | ⟨root, _ | ⟨part', p⟩⟩
    case nil      => rfl
    case cons.nil =>
      obtain ⟨⟨rfl, _⟩, _⟩ : (root = secretsRoot ∧ part = ['k', 'e', 'y']) ∧
          e = .file (1, 5) [7, 9] := by
        simpa [keyRows] using listed
      rfl
    case cons.cons => simp [keyRows] at listed

theorem backup_restores_key : ∃ s disk, s.disk = some disk ∧
    processArchive .hyphenless (fun _ => true) (some .empty) checkedRoots (archive keyRows) = .ok s ∧
    disk.lookup [secretsRoot, ['k', 'e', 'y']] = some (.file [7, 9]) := by
  have archives : keyTree.Archives keyRows := by
    refine ⟨?_, by decide⟩
    have rows : (keyTree.entries.rows.filter fun r => r.1.head?.any (· ∈ keyTree.storageRoots)) =
        keyRows := by decide +kernel
    rw [rows]
  have checked : keyTree.validateStorageTree .hyphenless checkedRoots = .ok 1 := rfl
  obtain ⟨_, s, disk, run, onto, restored⟩ :=
    backup_restores .hyphenless (fun _ => true) checked archives
  exact ⟨s, disk, onto, run, (restored _ _).mpr ⟨⟨(1, 5), rfl⟩, by decide⟩⟩

end MyDrive.Archive
