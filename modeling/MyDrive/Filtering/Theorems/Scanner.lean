import MyDrive.Filtering.Scanner
import MyDrive.Filtering.Theorems.Globs

-- What the scanner finds, and when it finds no file twice.

namespace MyDrive.Filtering

theorem split_concat {α : Type} {done before after : List α} {a b : α} :
    done ++ [a] = before ++ b :: after ↔ (done = before ∧ a = b ∧ after = []) ∨
      ∃ after', after = after' ++ [a] ∧ done = before ++ b :: after' := by
  rcases after.eq_nil_or_concat with rfl | ⟨after, c, rfl⟩
  case inl =>
    constructor
    case mp =>
      intro h
      obtain ⟨hd, ha⟩ := List.append_inj' h rfl
      exact .inl ⟨hd, (List.cons.inj ha).left, rfl⟩
    case mpr =>
      rintro (⟨rfl, rfl, _⟩ | ⟨after', he, _⟩)
      case inl => rfl
      case inr => simp at he
  case inr =>
    rw [List.concat_eq_append, ← List.cons_append, ← List.append_assoc]
    constructor
    case mp =>
      intro h
      obtain ⟨hd, hc⟩ := List.append_inj' h rfl
      cases hc
      exact .inr ⟨after, rfl, hd⟩
    case mpr =>
      rintro (⟨_, _, he⟩ | ⟨after', he, rfl⟩)
      case inl => simp at he
      case inr =>
        obtain ⟨rfl, hc⟩ := List.append_inj' he rfl
        cases hc
        rfl

section

variable {ν : Type} {g : Graph ν} {n n' : ν} {es : List (Entry ν)} {e e' : Entry ν} {p q : Path}

theorem Graph.resolve_append {name : Text} :
    g.resolve (p ++ [name]) = (g.resolve p).bind (g.enter · name) := by
  simp [resolve]

def relativeOf (directory : Path) : Text :=
  directory.foldl childRelative []

theorem relativeOf_append {name : Text} :
    relativeOf (p ++ [name]) = childRelative (relativeOf p) name := by
  simp [relativeOf]

theorem eq_of_name (hn : g.entries n = some es) (he : e ∈ es) (he' : e' ∈ es)
    (h : e.name = e'.name) : e = e' :=
  List.inj_on_of_nodup_map (g.names hn) he he' h

theorem Graph.enter_eq (hn : g.entries n = some es) (he : e ∈ es) : g.enter n e.name = some e.node := by
  rw [enter, hn, Option.bind_some]
  cases hf : es.find? (·.name = e.name)
  case none =>
    have none := List.find?_eq_none.mp hf e he
    simp at none
  case some f =>
    have named : f.name = e.name := by simpa using List.find?_some hf
    rw [eq_of_name hn (List.mem_of_find?_eq_some hf) he named]
    rfl

end

section

variable [DotNet] {ν : Type} (g : Graph ν) (job : BackupJob) (settings : ClientSettings)

open DotNet

theorem isMatch_cache (cache : Cache) (pattern path name : Text) :
    (isMatch cache pattern path name).1 = (isMatch .empty pattern path name).1 := by
  unfold isMatch
  dsimp only
  split
  case isTrue => rfl
  case isFalse =>
    split
    case isTrue  => rfl
    case isFalse =>
      exact Bool.eq_iff_iff.mpr (cache.getOrAdd_regex.trans Cache.empty.getOrAdd_regex.symm)

-- The directories that the walk goes into, but for those that have been visited.
def followed (e : Entry ν) : Bool :=
  e.name ∉ dots && e.attributes.any fun attributes =>
    attributes.directory && !excludeDirectory job e.name &&
      !(isSymlink e attributes && !follow job settings) &&
      !(attributes.hidden && !(job.backupHidden.getD settings.backupHiddenFiles)) &&
      !(attributes.system && !(job.backupSystem.getD settings.backupSystemFiles))

-- The file that an entry is, if it is one that is backed up.
def yields (directory : Path) (e : Entry ν) : List ScannedFile :=
  if e.name ∈ dots then [] else match e.attributes with
    | none            => []
    | some attributes =>
      if attributes.directory then [] else
        let file := scanned directory (relativeOf directory) e attributes
        if includeFile job settings file then [file] else []

-- No entry of that name, ignoring case, has come before.
def First (before : List (Entry ν)) (e : Entry ν) : Prop :=
  followed job settings e ∧
    ∀ f ∈ before, followed job settings f → f.name.map fold ≠ e.name.map fold

-- The directories below a node, by the paths that they are walked under.
inductive Leads : ν → Path → ν → Prop
  | nil {n} : Leads n [] n
  | cons {n before e after p n'} : g.entries n = some (before ++ e :: after) →
      First job settings before e → Leads e.node p n' → Leads n (e.name :: p) n'

def Found (levels : Nat) (directory : Path) (n : ν) (s : ScannedFile) : Prop :=
  ∃ p n' es e, Leads g job settings n p n' ∧ p.length < levels ∧ g.entries n' = some es ∧ e ∈ es ∧
    s ∈ yields job settings (directory ++ p) e

variable {g job settings} {n n' : ν} {es : List (Entry ν)} {e : Entry ν} {p directory : Path}
  {s : ScannedFile}
  {walk' : Path → Text → List Path → List ScannedFile × List Path} {visited : List Path} {levels : Nat}

theorem visit_eq : visit job settings walk' directory (relativeOf directory) visited e =
    if followed job settings e then
      walk' (directory ++ [e.name]) (childRelative (relativeOf directory) e.name) visited
    else
      (yields job settings directory e, visited) := by
  unfold visit followed yields
  by_cases hd : e.name ∈ dots
  case pos => simp [hd]
  case neg =>
    cases e.attributes
    case none => simp [hd]
    case some attributes =>
      simp only [hd, if_false, not_false_eq_true, decide_true, Bool.true_and, Option.any_some]
      split
      case isFalse hf => simp [hf]
      case isTrue ht =>
        simp only [ht, Bool.true_and]
        split
        case isTrue h => simp [h]
        split
        case isTrue h => simp [h]
        split
        case isTrue h => simp [h]
        split
        case isTrue h => simp [h]
        case isFalse h₁ h₂ h₃ h₄ => simp [h₁, h₂, h₃, h₄]

theorem yields_of_followed (h : followed job settings e) : yields job settings directory e = [] := by
  unfold yields
  unfold followed at h
  split
  case isTrue => rfl
  case isFalse =>
    split
    case h_1 => rfl
    case h_2 attributes ha =>
      rw [ha] at h
      simp only [Option.any_some, Bool.and_eq_true] at h
      simp [h.2.1.1.1.1]

variable (job settings directory e) in
theorem yields_cases : yields job settings directory e = [] ∨
    ∃ s, yields job settings directory e = [s] ∧ s.fullPath = directory ++ [e.name] := by
  unfold yields
  split
  case isTrue => exact .inl rfl
  case isFalse =>
    split
    case h_1 => exact .inl rfl
    case h_2 =>
      split
      case isTrue => exact .inl rfl
      case isFalse =>
        dsimp only
        split
        case isTrue  => exact .inr ⟨_, rfl, rfl⟩
        case isFalse => exact .inl rfl

theorem eq_of_mem_yields (h : s ∈ yields job settings directory e) :
    yields job settings directory e = [s] ∧ s.fullPath = directory ++ [e.name] := by
  rcases yields_cases job settings e directory with hy | ⟨s', hy, hp⟩
  case inl => simp [hy] at h
  case inr =>
    obtain rfl : s = s' := by simpa [hy] using h
    exact ⟨hy, hp⟩

def key (directory : Path) : Path :=
  directory.map (·.map fold)

theorem key_append {name : Text} : key (directory ++ [name]) = key directory ++ [name.map fold] := by
  simp [key]

variable (g job settings) in
-- The loop over the entries of a directory, after `done`.
structure Looped (levels : Nat) (directory : Path) (visited : List Path) (done : List (Entry ν))
    (s : List ScannedFile × List Path) : Prop where
  files {f : ScannedFile} : f ∈ s.1 ↔ ∃ before e after, done = before ++ e :: after ∧
    (f ∈ yields job settings directory e ∨
      First job settings before e ∧ Found g job settings levels (directory ++ [e.name]) e.node f)
  once : (s.1.map ScannedFile.fullPath).Nodup
  kept {k : Path} : k ∈ visited → k ∈ s.2
  marked {e : Entry ν} : levels ≠ 0 → e ∈ done → followed job settings e →
    key (directory ++ [e.name]) ∈ s.2
  within {k : Path} : k ∈ s.2 → k ∈ visited ∨
    ∃ e ∈ done, followed job settings e ∧ key (directory ++ [e.name]) <+: k

variable (g job settings) in
-- What a walk does that starts where nothing has been visited.
structure Walked (levels : Nat) (directory : Path) (n : ν) (visited : List Path)
    (s : List ScannedFile × List Path) : Prop where
  files {f : ScannedFile} : f ∈ s.1 ↔ Found g job settings levels directory n f
  once : (s.1.map ScannedFile.fullPath).Nodup
  kept {k : Path} : k ∈ visited → k ∈ s.2
  marked : levels ≠ 0 → key directory ∈ s.2
  within {k : Path} : k ∈ s.2 → k ∈ visited ∨ key directory <+: k

theorem Found.fullPath (h : Found g job settings levels directory n s) :
    ∃ q, q ≠ [] ∧ s.fullPath = directory ++ q := by
  obtain ⟨p, n', es, e, _, _, _, _, hy⟩ := h
  exact ⟨p ++ [e.name], by simp, by rw [(eq_of_mem_yields hy).right, List.append_assoc]⟩

-- The name in the directory that a file has been found by.
theorem Looped.fullPath {done : List (Entry ν)} {r : List ScannedFile × List Path}
    (h : Looped g job settings levels directory visited done r)
    (hs : s ∈ r.1) : ∃ e ∈ done, ∃ q, s.fullPath = directory ++ e.name :: q := by
  obtain ⟨before, e, after, rfl, found⟩ := h.files.mp hs
  refine ⟨e, by simp, ?_⟩
  rcases found with hy | ⟨_, found⟩
  case inl => exact ⟨[], (eq_of_mem_yields hy).right⟩
  case inr =>
    obtain ⟨q, _, hq⟩ := found.fullPath
    exact ⟨q, by rw [hq, List.append_assoc]; rfl⟩

theorem Looped.next {done : List (Entry ν)} {r : List ScannedFile × List Path}
    (h : Looped g job settings levels directory visited done r)
    (base : ∀ k ∈ visited, key directory <+: k → k = key directory)
    (fresh : ∀ f ∈ done, f.name ≠ e.name)
    (child : ∀ visited, (∀ k ∈ visited, ¬key (directory ++ [e.name]) <+: k) →
      Walked g job settings levels (directory ++ [e.name]) e.node visited
        (walk g job settings levels (directory ++ [e.name])
          (childRelative (relativeOf directory) e.name) visited)) :
    let v := visit job settings (walk g job settings levels) directory (relativeOf directory) r.2 e
    Looped g job settings levels directory visited (done ++ [e])
      (r.1 ++ v.1, v.2) := by
  have files {f : ScannedFile} : (∃ before e' after, done ++ [e] = before ++ e' :: after ∧
      (f ∈ yields job settings directory e' ∨ First job settings before e' ∧
        Found g job settings levels (directory ++ [e'.name]) e'.node f)) ↔
      f ∈ r.1 ∨ f ∈ yields job settings directory e ∨ First job settings done e ∧
        Found g job settings levels (directory ++ [e.name]) e.node f := by
    rw [h.files]
    constructor
    case mp =>
      rintro ⟨before, e', after, split, found⟩
      rcases split_concat.mp split with ⟨rfl, rfl, _⟩ | ⟨after, _, rfl⟩
      case inl => exact .inr found
      case inr => exact .inl ⟨before, e', after, rfl, found⟩
    case mpr =>
      rintro (⟨before, e', after, rfl, found⟩ | found)
      case inl => exact ⟨before, e', after ++ [e], by simp, found⟩
      case inr => exact ⟨done, e, [], rfl, found⟩
  -- No file of `e` has been found before.
  have apart {new : List ScannedFile} (hn : ∀ f ∈ new, ∃ q, f.fullPath = directory ++ e.name :: q)
      (once : (new.map ScannedFile.fullPath).Nodup) :
      ((r.1 ++ new).map ScannedFile.fullPath).Nodup := by
    rw [List.map_append]
    refine h.once.append once fun path hr hnew => ?_
    obtain ⟨f, hf, rfl⟩ := List.mem_map.mp hr
    obtain ⟨f', hf', same⟩ := List.mem_map.mp hnew
    obtain ⟨e', he', q, hq⟩ := h.fullPath hf
    obtain ⟨q', hq'⟩ := hn f' hf'
    rw [hq', hq] at same
    exact fresh e' he' (List.cons.inj (List.append_cancel_left same)).left.symm
  have widen {k : Path} (hk : ∃ e ∈ done, followed job settings e ∧ key (directory ++ [e.name]) <+: k) :
      ∃ e' ∈ done ++ [e], followed job settings e' ∧ key (directory ++ [e'.name]) <+: k := by
    obtain ⟨e', hm, hk⟩ := hk
    exact ⟨e', List.mem_append_left _ hm, hk⟩
  dsimp only
  rw [visit_eq]
  by_cases hf : followed job settings e
  case neg =>
    rw [if_neg hf]
    refine ⟨fun {f} => ?_, ?_, h.kept, fun {e'} hl hm hf' => ?_, fun {k} hk => ?_⟩
    case refine_1 =>
      rw [files, List.mem_append]
      exact or_congr_right ⟨.inl, Or.rec id fun hx => absurd hx.left.left hf⟩
    case refine_2 =>
      refine apart (fun f hm => ⟨[], (eq_of_mem_yields hm).right⟩) ?_
      rcases yields_cases job settings e directory with hy | ⟨f, hy, _⟩ <;> simp [hy]
    case refine_3 =>
      rcases List.mem_append.mp hm with hm | hm
      case inl => exact h.marked hl hm hf'
      case inr => exact absurd (List.mem_singleton.mp hm ▸ hf') hf
    case refine_4 => exact (h.within hk).imp_right widen
  case pos =>
    rw [if_pos hf]
    have none : yields job settings directory e = [] := yields_of_followed hf
    by_cases first : First job settings done e
    case neg =>
      have before : ∃ f ∈ done, followed job settings f ∧ f.name.map fold = e.name.map fold := by
        by_contra hn
        exact first ⟨hf, fun f hm hf' he => hn ⟨f, hm, hf', he⟩⟩
      obtain ⟨f, hm, hf', same⟩ := before
      have marked (hl : levels ≠ 0) : key (directory ++ [e.name]) ∈ r.2 := by
        have marked := h.marked hl hm hf'
        rwa [key_append, same, ← key_append] at marked
      have skipped : walk g job settings levels (directory ++ [e.name])
          (childRelative (relativeOf directory) e.name) r.2 = ([], r.2) := by
        cases levels
        case zero   => rfl
        case succ l =>
          rw [walk]
          exact if_pos (marked (Nat.succ_ne_zero l))
      rw [skipped, List.append_nil]
      refine ⟨fun {f} => ?_, h.once, h.kept, fun {e'} hl hm hf' => ?_, fun {k} hk => ?_⟩
      case refine_1 =>
        rw [files, none]
        exact ⟨.inl, Or.rec id (Or.rec (absurd · List.not_mem_nil) fun hx => absurd hx.left first)⟩
      case refine_2 =>
        rcases List.mem_append.mp hm with hm | hm
        case inl => exact h.marked hl hm hf'
        case inr => exact List.mem_singleton.mp hm ▸ marked hl
      case refine_3 => exact (h.within hk).imp_right widen
    case pos =>
      have unvisited : ∀ k ∈ r.2, ¬key (directory ++ [e.name]) <+: k := by
        intro k hk hp
        rw [key_append] at hp
        rcases h.within hk with hk | ⟨f, hm, hf', hp'⟩
        case inl =>
          have own := base k hk ((List.prefix_append _ _).trans hp)
          have length := hp.length_le
          rw [own, List.length_append, List.length_singleton] at length
          omega
        case inr =>
          rw [key_append] at hp'
          have equal := List.append_cancel_left
            ((List.prefix_of_prefix_length_le hp' hp (by simp)).eq_of_length (by simp))
          exact first.right f hm hf' (List.cons.inj equal).left
      have walked := child r.2 unvisited
      refine ⟨fun {f} => ?_, ?_, fun hk => walked.kept (h.kept hk), fun {e'} hl hm hf' => ?_,
        fun {k} hk => ?_⟩
      case refine_1 =>
        rw [files, none, List.mem_append, walked.files]
        simp only [List.not_mem_nil, false_or, first, true_and]
      case refine_2 =>
        refine apart (fun f hm => ?_) walked.once
        obtain ⟨q, _, hq⟩ := (walked.files.mp hm).fullPath
        exact ⟨q, by rw [hq, List.append_assoc]; rfl⟩
      case refine_3 =>
        rcases List.mem_append.mp hm with hm | hm
        case inl => exact walked.kept (h.marked hl hm hf')
        case inr => exact List.mem_singleton.mp hm ▸ walked.marked hl
      case refine_4 =>
        rcases walked.within hk with hk | hk
        case inl => exact (h.within hk).imp_right widen
        case inr => exact .inr ⟨e, by simp, hf, hk⟩

theorem found_succ (hn : g.entries n = some es) : Found g job settings (levels + 1) directory n s ↔
    ∃ before e after, es = before ++ e :: after ∧ (s ∈ yields job settings directory e ∨
      First job settings before e ∧ Found g job settings levels (directory ++ [e.name]) e.node s) := by
  constructor
  case mp =>
    rintro ⟨p, n', es', e, leads, short, hn', he, hy⟩
    rcases leads with _ | ⟨hf, first, leads⟩
    case nil =>
      cases hn.symm.trans hn'
      obtain ⟨before, after, rfl⟩ := List.append_of_mem he
      exact ⟨before, e, after, rfl, .inl (by rwa [List.append_nil] at hy)⟩
    case cons =>
      cases hn.symm.trans hf
      refine ⟨_, _, _, rfl, .inr ⟨first, _, n', es', e, leads, ?_, hn', he, ?_⟩⟩
      case refine_1 => exact Nat.lt_of_succ_lt_succ short
      case refine_2 => rwa [List.append_assoc]
  case mpr =>
    rintro ⟨before, e, after, rfl, hy | ⟨first, p, n', es', f, leads, short, hn', hf, hy⟩⟩
    case inl =>
      exact ⟨[], n, _, e, .nil, Nat.succ_pos _, hn, by simp, by rwa [List.append_nil]⟩
    case inr =>
      refine ⟨e.name :: p, n', es', f, .cons hn first leads, Nat.succ_lt_succ short, hn', hf, ?_⟩
      rwa [List.append_assoc] at hy

theorem not_found (hn : g.entries n = none) : ¬Found g job settings levels directory n s := by
  rintro ⟨p, n', es', e, leads, _, hn', _, _⟩
  rcases leads with _ | ⟨hf, _, _⟩
  case nil  => cases hn.symm.trans hn'
  case cons => cases hn.symm.trans hf

variable (job settings) in
theorem walked (hd : g.resolve directory = some n) (unvisited : ∀ k ∈ visited, ¬key directory <+: k) :
    Walked g job settings levels directory n visited
      (walk g job settings levels directory (relativeOf directory) visited) := by
  induction levels generalizing directory n visited
  case zero =>
    refine ⟨fun {f} => ?_, List.nodup_nil, id, absurd rfl, .inl⟩
    refine ⟨(absurd · List.not_mem_nil), ?_⟩
    rintro ⟨_, _, _, _, _, short, _⟩
    exact absurd short (Nat.not_lt_zero _)
  case succ levels ih =>
    have new : key directory ∉ visited := fun hk => unvisited _ hk (List.prefix_refl _)
    have listed : g.enumerateFileSystemEntries directory = g.entries n := by
      rw [Graph.enumerateFileSystemEntries, hd, Option.bind_some]
    rw [walk, if_neg (show directory.map (·.map fold) ∉ visited from new), listed]
    cases hn : g.entries n
    case none =>
      refine ⟨fun {f} => ?_, List.nodup_nil, .tail _, fun _ => List.mem_cons_self, fun hk => ?_⟩
      case refine_1 => exact ⟨(absurd · List.not_mem_nil), (absurd · (not_found hn))⟩
      case refine_2 =>
        rcases List.mem_cons.mp hk with rfl | hk
        case inl => exact .inr (List.prefix_refl _)
        case inr => exact .inl hk
    case some es =>
      have start : Looped g job settings levels directory
          (key directory :: visited) [] ([], key directory :: visited) :=
        ⟨by simp, List.nodup_nil, id, fun _ hm => absurd hm List.not_mem_nil, .inl⟩
      have base : ∀ k ∈ key directory :: visited, key directory <+: k → k = key directory := by
        intro k hk hp
        rcases List.mem_cons.mp hk with rfl | hk
        case inl => rfl
        case inr => exact absurd hp (unvisited k hk)
      -- The induction is on the entries that are left.
      have loop {todo done : List (Entry ν)} {r : List ScannedFile × List Path}
          (split : es = done ++ todo) (h : Looped g job settings levels directory
            (key directory :: visited) done r) :
          Looped g job settings levels directory
            (key directory :: visited) es (todo.foldl (fun s e =>
              let r := visit job settings (walk g job settings levels) directory
                (relativeOf directory) s.2 e
              (s.1 ++ r.1, r.2)) r) := by
        induction todo generalizing done r
        case nil => simpa [split] using h
        case cons e todo ihl =>
          have names := g.names hn
          rw [split, List.map_append, List.map_cons, List.nodup_append] at names
          refine ihl (by simp [split]) (h.next base (fun f hf => ?_) fun visited hv => ?_)
          case refine_1 =>
            exact names.right.right _ (List.mem_map_of_mem hf) _ List.mem_cons_self
          case refine_2 =>
            rw [← relativeOf_append]
            refine ih ?_ hv
            rw [Graph.resolve_append, hd, Option.bind_some]
            exact Graph.enter_eq hn (by simp [split])
      have looped := loop rfl start
      refine ⟨fun {f} => ?_, looped.once, fun hk => looped.kept (.tail _ hk),
        fun _ => looped.kept List.mem_cons_self, fun {k} hk => ?_⟩
      case refine_1 => exact looped.files.trans (found_succ hn).symm
      case refine_2 =>
        rcases looped.within hk with hk | ⟨e, _, _, hp⟩
        case inl =>
          rcases List.mem_cons.mp hk with rfl | hk
          case inl => exact .inr (List.prefix_refl _)
          case inr => exact .inl hk
        case inr =>
          rw [key_append] at hp
          exact .inr ((List.prefix_append _ _).trans hp)

theorem Leads.resolve {q : Path} (h : Leads g job settings n p n') (hq : g.resolve q = some n) :
    g.resolve (q ++ p) = some n' := by
  induction h generalizing q
  case nil => rwa [List.append_nil]
  case cons before e after p n' hn first leads ih =>
    rw [List.append_cons]
    refine ih ?_
    rw [Graph.resolve_append, hq, Option.bind_some]
    exact Graph.enter_eq hn (by simp)

variable (g job settings)

-- An entry that is backed up, of a directory that is walked under the path `p`.
def Holds (p : Path) (n : ν) (e : Entry ν) : Prop :=
  Leads g job settings g.root p n ∧ p.length ≤ 64 ∧ (∃ es, g.entries n = some es ∧ e ∈ es) ∧
    yields job settings p e ≠ []

-- No two entries that are backed up are one file, and no directory has such an entry under two paths.
structure Single : Prop where
  entries {p n e p' n' e'} : Holds g job settings p n e → Holds g job settings p' n' e' →
    e.node = e'.node → n = n' ∧ e.name = e'.name
  directories {p p' n e} : Holds g job settings p n e → Holds g job settings p' n e → p = p'

-- Every physical file is enumerated once at most.
def Once : Prop :=
  ((enumerate g job settings).map fun s => g.resolve s.fullPath).Nodup

-- No file is enumerated behind a link to a directory.
def Direct : Prop :=
  ∀ s ∈ enumerate g job settings, ∀ q name rest, s.fullPath = q ++ name :: rest → rest ≠ [] →
    ∃ n es e attributes, g.resolve q = some n ∧ g.entries n = some es ∧ e ∈ es ∧ e.name = name ∧
      e.attributes = some attributes ∧ isSymlink e attributes = false

variable {g job settings}

theorem mem_enumerate_iff : s ∈ enumerate g job settings ↔
    ∃ p n e, Holds g job settings p n e ∧ s ∈ yields job settings p e := by
  have unvisited : ∀ k ∈ ([] : List Path), ¬key [] <+: k := by simp
  have top : g.resolve [] = some g.root := rfl
  have walk : s ∈ enumerate g job settings ↔ Found g job settings 65 [] g.root s :=
    (walked job settings top unvisited).files
  refine walk.trans ⟨?_, ?_⟩
  case refine_1 =>
    rintro ⟨p, n, es, e, leads, short, hn, he, hy⟩
    exact ⟨p, n, e, ⟨leads, Nat.le_of_lt_succ short, ⟨es, hn, he⟩, List.ne_nil_of_mem hy⟩, hy⟩
  case refine_2 =>
    rintro ⟨p, n, e, ⟨leads, short, ⟨es, hn, he⟩, _⟩, hy⟩
    exact ⟨p, n, es, e, leads, Nat.lt_succ_of_le short, hn, he, hy⟩

theorem Holds.resolve (h : Holds g job settings p n e) : g.resolve (p ++ [e.name]) = some e.node := by
  obtain ⟨leads, _, ⟨es, hn, he⟩, _⟩ := h
  have below := leads.resolve (q := []) rfl
  rw [List.nil_append] at below
  rw [Graph.resolve_append, below, Option.bind_some]
  exact Graph.enter_eq hn he

theorem once_iff : Once g job settings ↔ Single g job settings := by
  have names : ((enumerate g job settings).map ScannedFile.fullPath).Nodup :=
    have top : g.resolve [] = some g.root := rfl
    (walked job settings top (by simp)).once
  have file {p : Path} {n : ν} {e : Entry ν} (h : Holds g job settings p n e) :
      ∃ s ∈ enumerate g job settings, s.fullPath = p ++ [e.name] ∧
        g.resolve s.fullPath = some e.node := by
    obtain ⟨s, hs⟩ := List.exists_mem_of_ne_nil _ h.right.right.right
    have path := (eq_of_mem_yields hs).right
    exact ⟨s, mem_enumerate_iff.mpr ⟨p, n, e, h, hs⟩, path, path ▸ h.resolve⟩
  constructor
  case mp =>
    intro once
    have same {p p' : Path} {n n' : ν} {e e' : Entry ν} (h : Holds g job settings p n e)
        (h' : Holds g job settings p' n' e') (hn : e.node = e'.node) : p = p' ∧ e.name = e'.name := by
      obtain ⟨s, hs, path, node⟩ := file h
      obtain ⟨s', hs', path', node'⟩ := file h'
      obtain rfl := List.inj_on_of_nodup_map once hs hs' (node.trans (hn ▸ node'.symm))
      obtain ⟨hp, hl⟩ := List.append_inj' (path.symm.trans path') rfl
      exact ⟨hp, (List.cons.inj hl).left⟩
    refine ⟨fun {p n e p' n' e'} h h' hn => ?_, fun h h' => (same h h' rfl).left⟩
    obtain ⟨rfl, name⟩ := same h h' hn
    have leads := h.left.resolve (q := []) rfl
    exact ⟨Option.some.inj (leads.symm.trans (h'.left.resolve (q := []) rfl)), name⟩
  case mpr =>
    intro single
    refine List.Nodup.map_on (fun s hs s' hs' he => ?_) (List.Nodup.of_map _ names)
    obtain ⟨p, n, e, holds, hy⟩ := mem_enumerate_iff.mp hs
    obtain ⟨p', n', e', holds', hy'⟩ := mem_enumerate_iff.mp hs'
    rw [(eq_of_mem_yields hy).right, (eq_of_mem_yields hy').right, holds.resolve, holds'.resolve,
      Option.some.injEq] at he
    obtain ⟨rfl, name⟩ := single.entries holds holds' he
    obtain ⟨es, hn, hm⟩ := holds.right.right.left
    obtain ⟨es', hn', hm'⟩ := holds'.right.right.left
    cases hn.symm.trans hn'
    obtain rfl := eq_of_name hn hm hm' name
    obtain rfl := single.directories holds holds'
    have one := (eq_of_mem_yields hy).left
    rw [one] at hy'
    exact (List.mem_singleton.mp hy').symm

theorem Leads.direct {q : Path} {name : Text} {rest : Path} (h : Leads g job settings n p n')
    (off : follow job settings = false) (hp : p = q ++ name :: rest) :
    ∃ m es e attributes, Leads g job settings n q m ∧ g.entries m = some es ∧ e ∈ es ∧
      e.name = name ∧ e.attributes = some attributes ∧ isSymlink e attributes = false := by
  induction h generalizing q
  case nil => simp at hp
  case cons n before e after p n' hn first leads ih =>
    cases q
    case nil =>
      obtain ⟨rfl, _⟩ := List.cons.inj hp
      have into := first.left
      rw [followed, Bool.and_eq_true] at into
      cases ha : e.attributes
      case none => simp [ha] at into
      case some attributes =>
        refine ⟨n, _, e, attributes, .nil, hn, by simp, rfl, ha, ?_⟩
        simp only [ha, off, Option.any_some, Bool.not_false, Bool.and_true, Bool.and_eq_true,
          Bool.not_eq_true'] at into
        exact into.2.1.1.2
    case cons first_name q =>
      obtain ⟨rfl, tails⟩ := List.cons.inj hp
      obtain ⟨m, es, f, attributes, below, found⟩ := ih tails
      exact ⟨m, es, f, attributes, .cons hn first below, found⟩

theorem direct (off : follow job settings = false) : Direct g job settings := by
  intro s hs q name rest hp hr
  obtain ⟨p, n, e, holds, hy⟩ := mem_enumerate_iff.mp hs
  rw [(eq_of_mem_yields hy).right] at hp
  obtain ⟨rest, c, rfl⟩ := (rest.eq_nil_or_concat).resolve_left hr
  rw [List.concat_eq_append, ← List.cons_append, ← List.append_assoc] at hp
  obtain ⟨m, es, f, attributes, leads, found⟩ := holds.left.direct off (List.append_inj' hp rfl).left
  refine ⟨m, es, f, attributes, ?_, found⟩
  simpa using leads.resolve (q := []) rfl

-- Both parts of what is asked of the scanner, of which the second always holds.
theorem enumerate_once_iff (g : Graph ν) (job : BackupJob) (settings : ClientSettings) :
    ((follow job settings → Once g job settings) ∧
      (follow job settings = false → Direct g job settings)) ↔
    (follow job settings → Single g job settings) := by
  rw [and_iff_left direct, once_iff]

end

-- A directory with a file `a` and a link `l` to the directory itself.
def loopGraph : Graph Bool where
  root    := false
  entries | true  => none
          | false => some [
              { name := [97], attributes := some {}, node := true },
              { name := [108], attributes := some { directory := true, reparsePoint := true },
                linkTarget := .target, node := false }]
  names {n es} h := by
    cases n
    case true  => contradiction
    case false => cases h; decide

theorem loop_not_once : @follow { followSymlinks := some true } {} ∧
    ¬@Once ascii Bool loopGraph { followSymlinks := some true } {} := by
  refine ⟨rfl, ?_⟩
  unfold Once
  decide +kernel

theorem enumerate_once_iff_loop :
    @Direct ascii Bool loopGraph { followSymlinks := some false } {} := by
  let := ascii
  exact ((enumerate_once_iff loopGraph { followSymlinks := some false } {}).mpr
    fun h => absurd h (by decide)).right rfl

end MyDrive.Filtering
