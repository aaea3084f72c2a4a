import MyDrive.Archive.Theorems.Members
import Mathlib.Data.List.Induction

-- What an extraction writes, in whichever call it fails.

namespace MyDrive.Archive

-- The path that a call makes, or fills.
def Operation.made : Operation → Option (Bool × Path)
  | .mkdir p _  => some (false, p)
  | .create p _ => some (false, p)
  | .write p    => some (true, p)
  | _           => none

def Below (roots : List Text) (p : Path) : Prop :=
  p = [] ∨ ∃ root rest, p = root :: rest ∧ root ∈ roots ∧ ∀ part ∈ rest, Name part

-- All that is above the path is a directory, and no link.
def Reached (disk : Disk) (p : Path) : Prop :=
  ∀ q, q <+: p → q ≠ p → disk.lookup q = some .directory

def Real (n : Node) : Prop :=
  n = .directory ∨ ∃ bytes, n = .file bytes

def Extends (disk disk' : Disk) : Prop :=
  ∀ {p n}, disk.lookup p = some n → disk'.lookup p = some n

-- No file is new.
def Spares (disk disk' : Disk) : Prop :=
  ∀ {q bytes}, disk'.lookup q = some (.file bytes) → disk.lookup q = some (.file bytes)

structure Sound (roots : List Text) (s : Progress) (disk : Disk) : Prop where
  onto : s.disk = some disk
  inside {p n} : disk.lookup p = some n → Below roots p ∧ Real n
  parent {p part n} : disk.lookup (p ++ [part]) = some n → disk.lookup p = some .directory
  logged {op} : op ∈ s.log → Below roots op.path ∧ Reached disk op.path
  once : (s.log.filterMap Operation.made).Nodup

-- As long as nothing has failed, all that has been made is there.
structure Extracts (roots : List Text) (s : Progress) (disk : Disk) : Prop
    extends Sound roots s disk where
  top : disk.lookup [] = some .directory
  present {fills : Bool} {p} : (fills, p) ∈ s.log.filterMap Operation.made → (disk.lookup p).isSome

def Result.Keeps (roots : List Text) (disk : Disk) (Q : Progress → Disk → Prop) : Result → Prop
  | .ok s    => ∃ disk', Extracts roots s disk' ∧ Extends disk disk' ∧ Q s disk'
  | .error e => ∃ disk', Sound roots e.2 disk'

variable {roots : List Text} {s s' : Progress} {disk disk' : Disk} {p q current : Path} {op : Operation}
  {n : Node} {succeeds : Operation → Bool} {Q Q' : Progress → Disk → Prop}

theorem Extends.refl : Extends disk disk :=
  fun h => h

theorem Extends.trans {disk'' : Disk} (h : Extends disk disk') (h' : Extends disk' disk'') :
    Extends disk disk'' :=
  fun hl => h' (h hl)

theorem Extends.set (hn : disk.lookup p = none) : Extends disk (disk.set p n) := by
  intro q m hq
  have ne : q ≠ p := by
    rintro rfl
    cases hn.symm.trans hq
  rw [Table.lookup_set, if_neg ne]
  exact hq

theorem Spares.refl : Spares disk disk :=
  fun h => h

theorem Spares.trans {disk'' : Disk} (h : Spares disk disk') (h' : Spares disk' disk'') :
    Spares disk disk'' :=
  fun hl => h (h' hl)

theorem Spares.set : Spares disk (disk.set p .directory) := by
  intro q bytes hq
  rw [Table.lookup_set] at hq
  split at hq
  case isTrue  => cases hq
  case isFalse => exact hq

theorem Reached.mono (h : Reached disk p)
    (hd : ∀ {q}, disk.lookup q = some .directory → disk'.lookup q = some .directory) :
    Reached disk' p :=
  fun q hq hn => hd (h q hq hn)

theorem Reached.below {part : Text} (h : Reached disk p) (hp : disk.lookup p = some .directory) :
    Reached disk (p ++ [part]) := by
  intro q hq hn
  rcases List.prefix_concat_iff.mp hq with he | hq
  case inl => exact absurd (by simpa using he) hn
  case inr =>
    by_cases he : q = p
    case pos => exact he ▸ hp
    case neg => exact h q hq he

theorem Below.of_prefix (h : Below roots p) (hq : q <+: p) : Below roots q := by
  rcases h with rfl | ⟨root, rest, rfl, hr, hn⟩
  case inl => exact .inl (List.prefix_nil.mp hq)
  case inr =>
    rcases q with _ | ⟨first, q⟩
    case nil => exact .inl rfl
    case cons =>
      obtain ⟨rfl, hs⟩ := List.cons_prefix_cons.mp hq
      exact .inr ⟨_, q, rfl, hr, fun part hp => hn part (hs.subset hp)⟩

-- A call that only touches its own path.
theorem Sound.call (op : Operation) (h : Sound roots s disk) (hb : Below roots op.path)
    (hr : Reached disk op.path)
    (hn : ∀ {q n}, disk'.lookup q = some n → disk.lookup q = some n ∨ q = op.path ∧ Real n)
    (hd : ∀ {q}, disk.lookup q = some .directory → disk'.lookup q = some .directory)
    (hm : (s.log.filterMap Operation.made ++ op.made.toList).Nodup) :
    Sound roots { s with disk := some disk', log := s.log ++ [op] } disk' where
  onto := rfl
  inside hl := by
    rcases hn hl with hl | ⟨he, hl⟩
    case inl => exact h.inside hl
    case inr => exact ⟨he ▸ hb, hl⟩
  parent {p part n} hl := by
    rcases hn hl with hl | ⟨he, _⟩
    case inl => exact hd (h.parent hl)
    case inr => exact hd (hr p (he ▸ List.prefix_append _ _) (by simp [← he]))
  logged ho := by
    rcases List.mem_append.mp ho with ho | ho
    case inl => exact ⟨(h.logged ho).left, (h.logged ho).right.mono hd⟩
    case inr =>
      obtain rfl := List.mem_singleton.mp ho
      exact ⟨hb, hr.mono hd⟩
  once := by
    have : (s.log ++ [op]).filterMap Operation.made =
        s.log.filterMap Operation.made ++ op.made.toList := by
      cases hm : op.made <;> simp [List.filterMap_append, hm]
    exact this ▸ hm

theorem Extracts.not_made {fills : Bool} (h : Extracts roots s disk) (hn : disk.lookup p = none) :
    (fills, p) ∉ s.log.filterMap Operation.made := by
  intro hp
  simpa [hn] using h.present hp

-- A call that makes a path which is not there.
theorem Extracts.make (op : Operation) (n : Node) (h : Extracts roots s disk) (hb : Below roots p)
    (hr : Reached disk p)
    (hn : disk.lookup p = none) (hm : op.made = some (false, p)) (hp : op.path = p) (hx : Real n) :
    Extracts roots { s with disk := some (disk.set p n), log := s.log ++ [op] } (disk.set p n) where
  toSound := by
    subst hp
    refine h.toSound.call op hb hr (fun hl => ?_) (fun hl => Extends.set hn hl) ?_
    case refine_1 =>
      rw [Table.lookup_set] at hl
      split at hl
      case isTrue hq  => cases hl; exact .inr ⟨hq, hx⟩
      case isFalse    => exact .inl hl
    case refine_2 =>
      rw [hm]
      refine List.nodup_append.mpr ⟨h.once, by simp, fun q hq r hr he => ?_⟩
      obtain rfl := List.mem_singleton.mp hr
      exact h.not_made hn (he ▸ hq)
  top := Extends.set hn h.top
  present hq := by
    rw [Table.lookup_set]
    split
    case isTrue => rfl
    case isFalse he =>
      rw [List.filterMap_append, List.mem_append] at hq
      rcases hq with hq | hq
      case inl => exact h.present hq
      case inr => simp [hm] at hq; exact absurd hq.right he

-- A call on a path that is there already.
theorem Extracts.touch (op : Operation) (disk' : Disk) (h : Extracts roots s disk)
    (hb : Below roots op.path) (hr : Reached disk op.path)
    (hm : (s.log.filterMap Operation.made ++ op.made.toList).Nodup)
    (hx : ∀ r ∈ op.made, (disk.lookup r.2).isSome)
    (hn : ∀ {q n}, disk'.lookup q = some n → disk.lookup q = some n ∨ q = op.path ∧ Real n)
    (hd : ∀ {q}, disk.lookup q = some .directory → disk'.lookup q = some .directory)
    (hp : ∀ {q}, (disk.lookup q).isSome → (disk'.lookup q).isSome) :
    Extracts roots { s with disk := some disk', log := s.log ++ [op] } disk' where
  toSound := h.toSound.call op hb hr hn hd hm
  top := hd h.top
  present hq := by
    rw [List.filterMap_append, List.mem_append] at hq
    rcases hq with hq | hq
    case inl => exact hp (h.present hq)
    case inr => exact hp (hx _ (by simpa using hq))

-- A call that neither makes nor fills anything.
theorem Extracts.chmod (mode : Nat) (h : Extracts roots s disk) (hb : Below roots p)
    (hr : Reached disk p) :
    Extracts roots { s with disk := some disk, log := s.log ++ [.chmod p mode] } disk :=
  h.touch (.chmod p mode) disk hb hr (by simpa [Operation.made] using h.once) (by simp [Operation.made])
    .inl id id

namespace Result

variable {x : Result} {f : Progress → Result}

theorem Keeps.bind (h : x.Keeps roots disk Q)
    (hf : ∀ {s disk'}, x = .ok s → Extracts roots s disk' → Extends disk disk' → Q s disk' →
      (f s).Keeps roots disk' Q') :
    Keeps roots disk Q' (x >>= f) := by
  cases x
  case error => exact h
  case ok s =>
    obtain ⟨disk', hs, he, hq⟩ := h
    have kept := hf rfl hs he hq
    change (f s).Keeps roots disk Q'
    generalize f s = y at kept ⊢
    cases y
    case error => exact kept
    case ok =>
      obtain ⟨disk'', hs', he', hq'⟩ := kept
      exact ⟨disk'', hs', he.trans he', hq'⟩

theorem Keeps.weaken (h : x.Keeps roots disk Q) (hq : ∀ {s disk'}, Q s disk' → Q' s disk') :
    x.Keeps roots disk Q' := by
  cases x
  case error => exact h
  case ok =>
    obtain ⟨disk', hs, he, h⟩ := h
    exact ⟨disk', hs, he, hq h⟩

theorem Keeps.carry (h : x.Keeps roots disk Q)
    (hq : ∀ {s disk'}, Extends disk disk' → Q s disk' → Q' s disk') : x.Keeps roots disk Q' := by
  cases x
  case error => exact h
  case ok =>
    obtain ⟨disk', hs, he, h⟩ := h
    exact ⟨disk', hs, he, hq he h⟩

theorem Keeps.sound (h : x.Keeps roots disk Q) : ∃ disk', Sound roots x.progress disk' := by
  cases x
  case error => exact h
  case ok =>
    obtain ⟨disk', hs, _, _⟩ := h
    exact ⟨disk', hs.toSound⟩

end Result

-- A call either goes through, or leaves everything as it was.
theorem Extracts.keeps_call (h : Extracts roots s disk)
    (h' : Extracts roots { s with disk := some disk', log := s.log ++ [op] } disk')
    (he : Extends disk disk') :
    Result.Keeps roots disk (fun t d => t.seen = s.seen ∧ t.rootsSeen = s.rootsSeen ∧ d = disk')
      (s.call succeeds op disk') := by
  unfold Progress.call
  split
  case isTrue  => exact ⟨disk', h', he, rfl, rfl, rfl⟩
  case isFalse => exact ⟨disk, h.toSound⟩

-- What is above something that is there.
theorem Sound.reached (h : Sound roots s disk) (hp : disk.lookup p = some n) : Reached disk p := by
  induction p using List.reverseRecOn generalizing n
  case nil => exact fun q hq hn => absurd (List.prefix_nil.mp hq) hn
  case append_singleton p part ih => exact (ih (h.parent hp)).below (h.parent hp)

theorem Extracts.keeps_chmod {mode : Nat} (h : Extracts roots s disk) (hp : disk.lookup p = some n) :
    Result.Keeps roots disk (fun _ d => d = disk) (s.call succeeds (.chmod p mode) disk) := by
  have moded := h.chmod mode (h.inside hp).left (h.reached hp)
  exact (h.keeps_call moded Extends.refl).weaken fun hq => hq.right.right

theorem Extracts.ensurePart (h : Extracts roots s disk) (hb : Below roots p) (hr : Reached disk p) :
    Result.Keeps roots disk (fun t d => t.seen = s.seen ∧ t.rootsSeen = s.rootsSeen ∧
      Spares disk d ∧ d.lookup p = some .directory) (s.ensurePart succeeds p) := by
  unfold Progress.ensurePart
  rw [h.onto]
  dsimp only
  split
  case h_1 hp => exact ⟨disk, h, Extends.refl, rfl, rfl, Spares.refl, hp⟩
  case h_2    => exact ⟨disk, h.toSound⟩
  case h_3 hp =>
    have made := h.make (.mkdir p 0o750) .directory hb hr hp rfl rfl (.inl rfl)
    refine Result.Keeps.weaken (h.keeps_call made (Extends.set hp)) ?_
    rintro t d ⟨seen, roots, rfl⟩
    exact ⟨seen, roots, Spares.set, by simp⟩

theorem Extracts.descend {path : Path} (h : Extracts roots s disk)
    (hb : Below roots (current ++ path)) (hr : Reached disk current)
    (hc : disk.lookup current = some .directory) :
    Result.Keeps roots disk (fun t d => t.seen = s.seen ∧ t.rootsSeen = s.rootsSeen ∧
      Spares disk d ∧ Reached d (current ++ path) ∧ d.lookup (current ++ path) = some .directory)
      (Archive.descend (fun s p => s.ensurePart succeeds p) current path s) := by
  induction path generalizing s disk current
  case nil =>
    rw [List.append_nil]
    exact ⟨disk, h, Extends.refl, rfl, rfl, Spares.refl, hr, hc⟩
  case cons part path ih =>
    have split : current ++ part :: path = current ++ [part] ++ path := by simp
    have hb' : Below roots (current ++ [part]) := hb.of_prefix (split ▸ List.prefix_append _ _)
    have reached : Reached disk (current ++ [part]) := hr.below hc
    refine (h.ensurePart hb' reached).bind fun {t d} _ ht he hq => ?_
    obtain ⟨seen, roots, spares, hp⟩ := hq
    rw [split] at hb ⊢
    refine Result.Keeps.weaken (ih ht hb (reached.mono fun hl => he hl) hp) ?_
    rintro u d' ⟨seen', roots', spares', rest⟩
    exact ⟨seen'.trans seen, roots'.trans roots, spares.trans spares', rest⟩

theorem Extracts.ensureDirectory (succeeds : Operation → Bool) (h : Extracts roots s disk)
    (hb : Below roots p) :
    Result.Keeps roots disk (fun t d => t.seen = s.seen ∧ t.rootsSeen = s.rootsSeen ∧
      Spares disk d ∧ Reached d p ∧ d.lookup p = some .directory) (s.ensureDirectory succeeds p) := by
  have top : Reached disk [] := fun q hq hn => absurd (List.prefix_nil.mp hq) hn
  unfold Progress.ensureDirectory
  simpa using h.descend (by simpa using hb) top h.top

-- The marks of a member do not touch the disk.
theorem Sound.marks {seen : Table Path Kind} {rootsSeen : List Text} {total : Int}
    (h : Sound roots s disk) : Sound roots { s with seen, rootsSeen, total } disk :=
  ⟨h.onto, h.inside, h.parent, h.logged, h.once⟩

theorem Extracts.marks {seen : Table Path Kind} {rootsSeen : List Text} {total : Int}
    (h : Extracts roots s disk) : Extracts roots { s with seen, rootsSeen, total } disk :=
  ⟨h.toSound.marks, h.top, h.present⟩

theorem Sound.discard {e : ArchiveError} {base : Disk} (h : Sound roots s disk')
    (hb : Below roots p) (hr : Reached disk p) (hn : disk.lookup p = none)
    (hd : ∀ {q}, q ≠ p → disk'.lookup q = disk.lookup q)
    (hp : ∃ bytes, disk'.lookup p = some (.file bytes)) :
    Result.Keeps roots base Q (s.discard succeeds p disk e) := by
  have grows : Extends disk disk' := by
    intro q n hq
    have ne : q ≠ p := by
      rintro rfl
      cases hn.symm.trans hq
    exact hd ne ▸ hq
  unfold Progress.discard
  split
  case isFalse => exact ⟨disk', h⟩
  case isTrue =>
    refine ⟨disk, h.call (.unlink p) hb (hr.mono fun hl => grows hl) (fun hq => .inl (grows hq))
      (fun {q} hq => ?_) (by simpa [Operation.made] using h.once)⟩
    have ne : q ≠ p := by
      rintro rfl
      obtain ⟨bytes, hp⟩ := hp
      cases hp.symm.trans hq
    exact hd ne ▸ hq

theorem Extracts.extractFile {m : Member} {source : Source} (h : Extracts roots s disk)
    (hb : Below roots p) (hr : Reached disk p) :
    Result.Keeps roots disk (fun t d => t.seen = s.seen ∧ t.rootsSeen = s.rootsSeen ∧
      readAll m source = .ok () ∧ d = disk.set p (.file (source.data.take m.size.toNat)))
      (s.extractFile succeeds disk m source p) := by
  have file {bytes} : Real (.file bytes) := .inr ⟨bytes, rfl⟩
  unfold Progress.extractFile
  split
  case h_1    => exact ⟨disk, h.toSound⟩
  case h_2 hp =>
    by_cases hc : succeeds (.create p (fileMode p))
    case neg =>
      simp only [Progress.call, hc, Bool.false_eq_true, if_false, bind, Except.bind]
      exact ⟨disk, h.toSound⟩
    case pos =>
      generalize hw : disk.set p (.file (source.data.take m.size.toNat)) = written
      have created := h.make (.create p (fileMode p)) (.file []) hb hr hp rfl rfl file
      have empty {q} (hq : q ≠ p) : (disk.set p (.file [])).lookup q = disk.lookup q := by simp [hq]
      have other {q} (hq : q ≠ p) : written.lookup q = disk.lookup q := by simp [← hw, hq]
      have at_p : written.lookup p = some (.file (source.data.take m.size.toNat)) := by simp [← hw]
      have grows : Extends disk written := hw ▸ Extends.set hp
      have wrote := created.touch (.write p) written hb (hr.mono fun hl => Extends.set hp hl) ?once
        (by simp [Operation.made]) (fun {q n} hl => ?node) (fun {q} hl => ?dirs)
        (fun {q} hl => ?present)
      case once =>
        have old {fills : Bool} : (fills, p) ∉ s.log.filterMap Operation.made := h.not_made hp
        have made : (s.log ++ [Operation.create p (fileMode p)]).filterMap Operation.made =
            s.log.filterMap Operation.made ++ [(false, p)] := by
          rw [List.filterMap_append]
          rfl
        dsimp only
        rw [made]
        refine List.nodup_append.mpr ⟨made ▸ created.once, by simp [Operation.made], ?_⟩
        rintro r hr r' hr' rfl
        obtain rfl : r = (true, p) := by simpa [Operation.made] using hr'
        rcases List.mem_append.mp hr with hr | hr
        case inl => exact old hr
        case inr => simp at hr
      case node =>
        by_cases hq : q = p
        case pos => subst hq; rw [at_p] at hl; cases hl; exact .inr ⟨rfl, file⟩
        case neg => exact .inl (by rw [empty hq, ← other hq]; exact hl)
      case dirs =>
        by_cases hq : q = p
        case pos => subst hq; simp at hl
        case neg => rw [other hq, ← empty hq]; exact hl
      case present =>
        by_cases hq : q = p
        case pos => subst hq; simp [at_p]
        case neg => rw [other hq, ← empty hq]; exact hl
      simp only [Progress.call, hc, if_true, bind, Except.bind]
      by_cases hs : succeeds (.write p)
      case neg =>
        simp only [hs, Bool.false_eq_true, if_false]
        exact created.toSound.discard hb hr hp empty ⟨[], by simp⟩
      case pos =>
        simp only [hs, if_true]
        split
        case h_1    => exact wrote.toSound.discard hb hr hp other ⟨_, at_p⟩
        case h_2 hd =>
          have moded := wrote.chmod (fileMode p) hb (hr.mono fun hl => grows hl)
          split
          case isTrue  => exact ⟨written, moded, grows, rfl, rfl, hd, rfl⟩
          case isFalse => exact ⟨written, wrote.toSound⟩

theorem readAll_ok {m : Member} {source : Source} (h : readAll m source = .ok ()) :
    (source.data.length : Int) = m.size := by
  unfold readAll at h
  split at h
  case isTrue => contradiction
  case isFalse =>
    split at h
    case isTrue  => contradiction
    case isFalse => omega

variable {uuid : UuidParser} {m : Member} {parts : Path} {t : Progress}

theorem accept_ok (h : s.accept uuid roots m = .ok (parts, t)) :
    memberPath uuid m roots = .ok parts ∧
      ∃ seen, see s.seen parts (if m.kind = .directory then .directory else .file) = .ok seen ∧
        t = { s with seen, rootsSeen :=
          if parts.length = 1 then s.rootsSeen ++ parts else s.rootsSeen } := by
  simp only [Progress.accept, Except.bind_eq_ok_iff] at h
  obtain ⟨_, hm, seen, hs, he⟩ := h
  cases he
  exact ⟨hm, seen, hs, rfl⟩

theorem below_of_memberPath (h : memberPath uuid m roots = .ok parts) : Below roots parts := by
  have names := names_of_memberPath h
  obtain ⟨_, _, root, rest, rfl, hr, _⟩ := memberPath_ok_iff.mp h
  exact .inr ⟨root, rest, rfl, hr, fun part hp => names part (.tail _ hp)⟩

-- A root is no file.
theorem directory_of_root {root : Text} (h : memberPath uuid m roots = .ok [root]) :
    m.kind = .directory := by
  obtain ⟨_, _, _, _, he, _, hc⟩ := memberPath_ok_iff.mp h
  cases he
  simp only [checkParts, Except.ite_throw_eq_ok_iff, true_and, ne_eq, Decidable.not_not] at hc
  exact hc.right.left

-- A member that has been extracted: a directory that is there, or a file with all of its bytes.
def Delivered (uuid : UuidParser) (roots : List Text) (disk : Disk) (m : Member) : Prop :=
  ∃ parts, memberPath uuid m roots = .ok parts ∧
    (m.kind = .directory → disk.lookup parts = some .directory) ∧
    (m.kind ≠ .directory → ∃ source, m.source = some source ∧ source.data.length = m.size ∧
      disk.lookup parts = some (.file source.data))

theorem Delivered.extend (h : Delivered uuid roots disk m) (he : Extends disk disk') :
    Delivered uuid roots disk' m := by
  obtain ⟨parts, hm, hd, hf⟩ := h
  refine ⟨parts, hm, fun hk => he (hd hk), fun hk => ?_⟩
  obtain ⟨source, hs, hl, hp⟩ := hf hk
  exact ⟨source, hs, hl, he hp⟩

theorem Extracts.processMember (uuid : UuidParser) (succeeds : Operation → Bool) (m : Member)
    (h : Extracts roots s disk) :
    Result.Keeps roots disk (fun t d => Delivered uuid roots d m ∧ (∀ root ∈ t.rootsSeen,
      root ∈ s.rootsSeen ∨ m.kind = .directory ∧ memberPath uuid m roots = .ok [root]) ∧
      ∀ p bytes, d.lookup p = some (.file bytes) → disk.lookup p = some (.file bytes) ∨
        m.kind ≠ .directory ∧ memberPath uuid m roots = .ok p)
      (s.processMember succeeds uuid roots m) := by
  unfold Progress.processMember
  split
  case h_1 => exact ⟨disk, h.toSound⟩
  case h_2 parts t ha =>
    obtain ⟨hm, seen, _, rfl⟩ := accept_ok ha
    have below := below_of_memberPath hm
    have rooted {root} (hr : root ∈ if parts.length = 1 then s.rootsSeen ++ parts else s.rootsSeen) :
        root ∈ s.rootsSeen ∨ m.kind = .directory ∧ memberPath uuid m roots = .ok [root] := by
      split at hr
      case isFalse => exact .inl hr
      case isTrue hl =>
        obtain ⟨part, rfl⟩ := List.length_eq_one_iff.mp hl
        rcases List.mem_append.mp hr with hr | hr
        case inl => exact .inl hr
        case inr =>
          obtain rfl := List.mem_singleton.mp hr
          exact .inr ⟨directory_of_root hm, hm⟩
    split
    case isTrue hk =>
      refine Result.Keeps.weaken (h.marks.ensureDirectory succeeds below) ?_
      rintro t d ⟨_, he, spares, _, hd⟩
      exact ⟨⟨parts, hm, fun _ => hd, fun hn => absurd hk hn⟩,
        fun root hr => rooted (by rw [he] at hr; exact hr), fun p bytes hp => .inl (spares hp)⟩
    case isFalse hk =>
      rcases hs : m.source with _ | source
      case none => exact ⟨disk, h.toSound.marks⟩
      case some =>
        have above : Below roots parts.dropLast := below.of_prefix (List.dropLast_prefix parts)
        refine (h.marks.ensureDirectory succeeds above).bind fun {t d} _ ht _ hq => ?_
        obtain ⟨_, he, spares, reached, hd⟩ := hq
        rw [ht.onto]
        dsimp only
        have target : Reached d parts := by
          have nonempty : parts ≠ [] := by
            obtain ⟨_, _, _, _, he, _, _⟩ := memberPath_ok_iff.mp hm
            simp [he]
          rw [← List.dropLast_append_getLast nonempty]
          exact reached.below hd
        refine Result.Keeps.weaken (ht.extractFile below target) ?_
        rintro u d' ⟨_, he', read, rfl⟩
        have size := readAll_ok read
        refine ⟨⟨parts, hm, fun hd => absurd hd hk, fun _ => ⟨source, hs, size, ?_⟩⟩,
          fun root hr => rooted (by rw [he', he] at hr; exact hr), fun p bytes hp => ?_⟩
        case refine_1 => rw [Table.lookup_set, if_pos rfl, ← size, Int.toNat_natCast, List.take_length]
        case refine_2 =>
          rw [Table.lookup_set] at hp
          split at hp
          case isTrue he => exact .inr ⟨hk, he ▸ hm⟩
          case isFalse   => exact .inl (spares hp)

theorem Extracts.members {ms : List Member} (h : Extracts roots s disk) :
    Result.Keeps roots disk (fun t d => (∀ m ∈ ms, Delivered uuid roots d m) ∧ (∀ root ∈ t.rootsSeen,
      root ∈ s.rootsSeen ∨ ∃ m ∈ ms, m.kind = .directory ∧ memberPath uuid m roots = .ok [root]) ∧
      ∀ p bytes, d.lookup p = some (.file bytes) → disk.lookup p = some (.file bytes) ∨
        ∃ m ∈ ms, m.kind ≠ .directory ∧ memberPath uuid m roots = .ok p)
      (ms.foldlM (fun s m => s.processMember succeeds uuid roots m) s) := by
  induction ms generalizing s disk
  case nil => exact ⟨disk, h, Extends.refl, by simp, fun _ hr => .inl hr, fun _ _ hp => .inl hp⟩
  case cons m ms ih =>
    rw [List.foldlM_cons]
    refine (h.processMember uuid succeeds m).bind fun {t d} _ ht _ hq => ?_
    obtain ⟨delivered, seen, files⟩ := hq
    refine (ih ht).carry ?_
    rintro u d' he ⟨delivered', seen', files'⟩
    refine ⟨fun m' hm' => ?_, fun root hr => ?_, fun p bytes hp => ?_⟩
    case refine_1 =>
      rcases List.mem_cons.mp hm' with rfl | hm'
      case inl => exact delivered.extend he
      case inr => exact delivered' m' hm'
    case refine_2 =>
      rcases seen' root hr with hr | ⟨m', hm', hd⟩
      case inr => exact .inr ⟨m', .tail _ hm', hd⟩
      case inl =>
        rcases seen root hr with hr | hd
        case inl => exact .inl hr
        case inr => exact .inr ⟨m, .head _, hd⟩
    case refine_3 =>
      rcases files' p bytes hp with hp | ⟨m', hm', hd⟩
      case inr => exact .inr ⟨m', .tail _ hm', hd⟩
      case inl =>
        rcases files p bytes hp with hp | hd
        case inl => exact .inl hp
        case inr => exact .inr ⟨m, .head _, hd⟩

theorem Extracts.ensureRoots {names : List Text} (succeeds : Operation → Bool)
    (hr : ∀ root ∈ names, root ∈ roots)
    (h : Extracts roots s disk) :
    Result.Keeps roots disk (fun _ d => Spares disk d)
      (names.foldlM (fun s root => s.ensureDirectory succeeds [root]) s) := by
  induction names generalizing s disk
  case nil => exact ⟨disk, h, Extends.refl, Spares.refl⟩
  case cons root names ih =>
    rw [List.foldlM_cons]
    have below : Below roots [root] := .inr ⟨root, [], rfl, hr root (.head _), by simp⟩
    refine (h.ensureDirectory succeeds below).bind fun _ ht _ hq => ?_
    obtain ⟨_, _, spares, _, _⟩ := hq
    exact (ih (fun r hm => hr r (.tail _ hm)) ht).weaken fun spares' => spares.trans spares'

theorem Extracts.chmods {paths : List Path} {mode : Path → Nat}
    (hp : ∀ p ∈ paths, disk.lookup p = some .directory) (h : Extracts roots s disk) :
    Result.Keeps roots disk (fun _ d => d = disk)
      (paths.foldlM (fun s p => s.call succeeds (.chmod p (mode p)) disk) s) := by
  induction paths generalizing s
  case nil => exact ⟨disk, h, Extends.refl, rfl⟩
  case cons p paths ih =>
    rw [List.foldlM_cons]
    refine (h.keeps_chmod (hp p (.head _))).bind fun {t d} _ ht _ hq => ?_
    obtain rfl := hq
    exact ih (fun q hq => hp q (.tail _ hq)) ht

theorem Extracts.finish (h : Extracts roots s disk) :
    Result.Keeps roots disk (fun _ d => Spares disk d) (s.finish succeeds roots) := by
  unfold Progress.finish
  rw [h.onto]
  dsimp only
  refine (h.ensureRoots succeeds fun _ hr => hr).bind fun {t d} _ ht _ spares => ?_
  rw [ht.onto]
  dsimp only
  refine (ht.chmods fun p hp => ?_).bind fun {u d'} _ hu _ hq => ?_
  case refine_1 =>
    simp only [List.mem_mergeSort, List.mem_filterMap, Prod.exists, Option.ite_none_right_eq_some,
      Option.some.injEq] at hp
    obtain ⟨q, n, hl, ⟨_, rfl⟩, rfl⟩ := hp
    exact Table.lookup_eq_some_iff.mpr hl
  case refine_2 =>
    obtain rfl := hq
    refine (hu.keeps_chmod hu.top).weaken ?_
    rintro _ _ rfl
    exact spares

-- The new directory, before anything is in it.
theorem keeps_prepare (roots : List Text) (succeeds : Operation → Bool) :
    (∃ disk, Sound roots (Progress.prepareDestination succeeds {} (some .empty)).progress disk) ∧
    ∀ t, Progress.prepareDestination succeeds {} (some .empty) = .ok t →
      t.rootsSeen = [] ∧ t.seen = .empty ∧ Extracts roots t (Table.empty.set [] .directory) := by
  have start : Sound roots { disk := some .empty } (.empty : Disk) :=
    ⟨rfl, by simp, by simp, by simp, by simp⟩
  simp only [Progress.prepareDestination, Table.lookup_empty, Option.isSome_none, Bool.false_eq_true,
    if_false, Progress.call]
  split
  case isFalse => exact ⟨⟨_, start⟩, by simp⟩
  case isTrue =>
    have made : Extracts roots
        { disk := some (Table.empty.set [] .directory), log := [.mkdir [] 0o700] }
        (Table.empty.set [] .directory) := by
      refine ⟨start.call (.mkdir [] 0o700) (.inl rfl) ?_ (fun {q n} hl => .inr ?_) (by simp) ?_,
        by simp, ?_⟩
      case refine_1 => exact fun q hq hn => absurd (List.prefix_nil.mp hq) hn
      case refine_2 =>
        rw [Table.lookup_set] at hl
        split at hl
        case isTrue hq => cases hl; exact ⟨hq, .inl rfl⟩
        case isFalse   => simp at hl
      case refine_3 => simp [Operation.made]
      case refine_4 => simp [Operation.made]
    refine ⟨⟨_, made.toSound⟩, ?_⟩
    rintro t ⟨⟩
    exact ⟨rfl, rfl, made⟩

theorem processArchive_sound (uuid : UuidParser) (succeeds : Operation → Bool) (roots : List Text)
    (stream : Stream) :
    (∃ disk, Sound roots (processArchive uuid succeeds (some .empty) roots stream).progress disk) ∧
    ∀ t, processArchive uuid succeeds (some .empty) roots stream = .ok t →
      ∃ disk, Extracts roots t disk ∧
      (∀ m ∈ stream.members, Delivered uuid roots disk m) ∧ (∀ root ∈ roots, root ∉ optionalRoots →
        ∃ m ∈ stream.members, m.kind = .directory ∧ memberPath uuid m roots = .ok [root]) ∧
      ∀ p bytes, disk.lookup p = some (.file bytes) →
        ∃ m ∈ stream.members, m.kind ≠ .directory ∧ memberPath uuid m roots = .ok p := by
  obtain ⟨start, prepared⟩ := keeps_prepare roots succeeds
  unfold processArchive
  cases hp : Progress.prepareDestination succeeds {} (some .empty)
  case error e =>
    rw [hp] at start
    exact ⟨start, by simp [bind, Except.bind]⟩
  case ok s =>
    obtain ⟨none_seen, _, made⟩ := prepared s hp
    have kept : Result.Keeps roots (Table.empty.set [] .directory) (fun _ d =>
        (∀ m ∈ stream.members, Delivered uuid roots d m) ∧ (∀ root ∈ roots, root ∉ optionalRoots →
          ∃ m ∈ stream.members, m.kind = .directory ∧ memberPath uuid m roots = .ok [root]) ∧
        ∀ p bytes, d.lookup p = some (.file bytes) →
          ∃ m ∈ stream.members, m.kind ≠ .directory ∧ memberPath uuid m roots = .ok p)
        (do
          let s ← stream.members.foldlM (fun s m => s.processMember succeeds uuid roots m) s
          let missing := roots.filter fun root => root ∉ optionalRoots && root ∉ s.rootsSeen
          if stream.broken then
            .error (.unreadable, s)
          else if missing ≠ [] then
            .error (.missingRoots missing, s)
          else
            s.finish succeeds roots) := by
      refine made.members.bind fun {t d} _ ht _ hq => ?_
      obtain ⟨delivered, seen, files⟩ := hq
      dsimp only
      split
      case isTrue => exact ⟨d, ht.toSound⟩
      split
      case isTrue => exact ⟨d, ht.toSound⟩
      case isFalse hm =>
        refine ht.finish.carry fun he spares =>
          ⟨fun m hm => (delivered m hm).extend he, fun root hr ho => ?_, fun p bytes hp => ?_⟩
        case refine_1 =>
          simp only [ne_eq, Decidable.not_not, List.filter_eq_nil_iff] at hm
          have appeared : root ∈ t.rootsSeen := by simpa [ho] using hm root hr
          exact (seen root appeared).resolve_left (by simp [none_seen])
        case refine_2 =>
          refine (files p bytes (spares hp)).resolve_left ?_
          rw [Table.lookup_set]
          split <;> simp
    refine ⟨kept.sound, fun t ht => ?_⟩
    simp only [bind, Except.bind] at ht kept
    rw [ht] at kept
    obtain ⟨disk, extracts, _, delivered⟩ := kept
    exact ⟨disk, extracts, delivered⟩

end MyDrive.Archive
