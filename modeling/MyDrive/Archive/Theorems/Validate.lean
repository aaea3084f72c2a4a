import MyDrive.Archive.Theorems.Extract

-- The two modes of the loop agree, when every call of the file system succeeds.

namespace MyDrive.Archive

-- The levels that a loop goes through.
def Level (current path q : Path) : Prop :=
  ∃ front, front ≠ [] ∧ front <+: path ∧ q = current ++ front

variable {current path p q parts : Path} {part : Text}

theorem not_level_nil : ¬Level current [] q := by
  rintro ⟨front, hn, hf, _⟩
  exact hn (List.prefix_nil.mp hf)

theorem level_cons : Level current (part :: path) q ↔
    q = current ++ [part] ∨ Level (current ++ [part]) path q := by
  constructor
  case mp =>
    rintro ⟨front, hn, hf, rfl⟩
    rcases front with _ | ⟨first, front⟩
    case nil => contradiction
    case cons =>
      obtain ⟨rfl, hs⟩ := List.cons_prefix_cons.mp hf
      by_cases he : front = []
      case pos => exact .inl (by rw [he])
      case neg => exact .inr ⟨front, he, hs, by simp⟩
  case mpr =>
    rintro (rfl | ⟨front, _, hf, rfl⟩)
    case inl => exact ⟨[part], by simp, by simp, rfl⟩
    case inr => exact ⟨part :: front, by simp, List.cons_prefix_cons.mpr ⟨rfl, hf⟩, by simp⟩

theorem current_not_level : ¬Level current path current := by
  rintro ⟨front, hn, _, he⟩
  exact hn (by simpa using he)

theorem level_append : ¬Level (current ++ [part]) path (current ++ [part]) :=
  current_not_level

theorem level_iff_dropLast (hp : parts ≠ []) :
    Level [] parts q ↔ q = parts ∨ Level [] parts.dropLast q := by
  constructor
  case mp =>
    rintro ⟨front, hn, hf, rfl⟩
    rw [← List.dropLast_append_getLast hp] at hf
    rcases List.prefix_concat_iff.mp hf with he | hf
    case inl => exact .inl (by simpa [he] using List.dropLast_append_getLast hp)
    case inr => exact .inr ⟨q, hn, hf, rfl⟩
  case mpr =>
    rintro (rfl | ⟨front, hn, hf, rfl⟩)
    case inl => exact ⟨_, hp, List.prefix_rfl, rfl⟩
    case inr => exact ⟨q, hn, hf.trans (List.dropLast_prefix _), rfl⟩

theorem not_level_dropLast : ¬Level [] parts.dropLast parts := by
  rintro ⟨front, hn, hf, he⟩
  have length := hf.length_le
  have : parts.length = front.length := congrArg List.length he
  have := List.length_pos_iff.mpr hn
  rw [List.length_dropLast] at length
  omega

section

variable {seen seen' : Table Path Kind}

theorem descend_see (h : descend seeAncestor current path seen = .ok seen') :
    (∀ {q}, Level current path q → seen.lookup q ≠ some .file ∧
      seen'.lookup q = some ((seen.lookup q).getD .directory)) ∧
    ∀ {q}, ¬Level current path q → seen'.lookup q = seen.lookup q := by
  induction path generalizing current seen
  case nil =>
    cases h
    exact ⟨fun hq => absurd hq not_level_nil, fun _ => rfl⟩
  case cons part path ih =>
    obtain ⟨mid, hm, h⟩ := Except.bind_eq_ok_iff.mp h
    obtain ⟨on, off⟩ := ih h
    have first : seen.lookup (current ++ [part]) ≠ some .file ∧
        mid.lookup (current ++ [part]) = some ((seen.lookup (current ++ [part])).getD .directory) ∧
        ∀ {q}, q ≠ current ++ [part] → mid.lookup q = seen.lookup q := by
      unfold seeAncestor at hm
      split at hm <;> cases hm
      case h_2 k hk hs => exact ⟨by simpa [hs] using hk, by simp [hs], fun _ => rfl⟩
      case h_3 hs      => exact ⟨by simp [hs], by simp [hs], fun hq => by simp [hq]⟩
    obtain ⟨ne, at_first, others⟩ := first
    refine ⟨fun {q} hq => ?_, fun {q} hq => ?_⟩
    case refine_1 =>
      rcases level_cons.mp hq with rfl | hq'
      case inl => exact ⟨ne, (off level_append).trans at_first⟩
      case inr =>
        have hn : q ≠ current ++ [part] := fun he => level_append (he ▸ hq')
        rw [← others hn]
        exact on hq'
    case refine_2 =>
      rw [level_cons, not_or] at hq
      rw [off hq.right, others hq.left]

theorem see_ok {k : Kind} (hp : parts ≠ []) (h : see seen parts k = .ok seen') :
    seen.lookup parts = none ∧ (∀ {q}, Level [] parts.dropLast q → seen.lookup q ≠ some .file) ∧
    seen'.lookup parts = some k ∧
    (∀ {q}, Level [] parts.dropLast q → seen'.lookup q = some ((seen.lookup q).getD .directory)) ∧
    ∀ {q}, ¬Level [] parts q → seen'.lookup q = seen.lookup q := by
  unfold see at h
  split at h
  case isTrue => contradiction
  case isFalse hn =>
    obtain ⟨mid, hm, rfl⟩ := Except.map_eq_ok_iff.mp h
    obtain ⟨on, off⟩ := descend_see hm
    refine ⟨by simpa using hn, fun hq => (on hq).left, by simp, fun {q} hq => ?_, fun {q} hq => ?_⟩
    case refine_1 =>
      have ne : q ≠ parts := fun he => not_level_dropLast (he ▸ hq)
      rw [Table.lookup_set, if_neg ne]
      exact (on hq).right
    case refine_2 =>
      rw [level_iff_dropLast hp, not_or] at hq
      rw [Table.lookup_set, if_neg hq.left, off hq.right]

end

section

variable {s t : Progress} {disk : Disk} {succeeds : Operation → Bool}

theorem descend_none (succeeds : Operation → Bool) (current path : Path) (h : t.disk = none) :
    descend (fun s p => Progress.ensurePart succeeds s p) current path t = .ok t := by
  induction path generalizing current
  case nil => rfl
  case cons part path ih =>
    have : t.ensurePart succeeds (current ++ [part]) = .ok t := by simp [Progress.ensurePart, h]
    rw [descend, this]
    exact ih (current ++ [part])

theorem descend_ensure (h : s.disk = some disk)
    (hl : ∀ {q}, Level current path q → disk.lookup q = none ∨ disk.lookup q = some .directory) :
    ∃ s' disk', descend (fun s p => Progress.ensurePart (fun _ => true) s p) current path s = .ok s' ∧
      s'.disk = some disk' ∧ s'.seen = s.seen ∧ s'.rootsSeen = s.rootsSeen ∧
      (∀ {q}, Level current path q → disk'.lookup q = some .directory) ∧
      ∀ {q}, ¬Level current path q → disk'.lookup q = disk.lookup q := by
  induction path generalizing current s disk
  case nil => exact ⟨s, disk, rfl, h, rfl, rfl, fun hq => absurd hq not_level_nil, fun _ => rfl⟩
  case cons part path ih =>
    have first : ∃ s₁ disk₁, s.ensurePart (fun _ => true) (current ++ [part]) = .ok s₁ ∧
        s₁.disk = some disk₁ ∧ s₁.seen = s.seen ∧ s₁.rootsSeen = s.rootsSeen ∧
        disk₁.lookup (current ++ [part]) = some .directory ∧
        ∀ {q}, q ≠ current ++ [part] → disk₁.lookup q = disk.lookup q := by
      rcases hl (level_cons.mpr (.inl rfl)) with hp | hp
      case inl =>
        refine ⟨{ s with
          disk := some (disk.set (current ++ [part]) .directory)
          log  := s.log ++ [.mkdir (current ++ [part]) 0o750] }, disk.set (current ++ [part]) .directory,
          ?_, rfl, rfl, rfl, by simp, fun hq => by simp [hq]⟩
        simp [Progress.ensurePart, h, hp, Progress.call]
      case inr => exact ⟨s, disk, by simp [Progress.ensurePart, h, hp], h, rfl, rfl, hp, fun _ => rfl⟩
    obtain ⟨s₁, disk₁, hs, hd, seen, roots, at_first, others⟩ := first
    have rest {q} (hq : Level (current ++ [part]) path q) :
        disk₁.lookup q = none ∨ disk₁.lookup q = some .directory := by
      rw [others fun he => level_append (he ▸ hq)]
      exact hl (level_cons.mpr (.inr hq))
    obtain ⟨s', disk', hs', hd', seen', roots', on, off⟩ := ih hd rest
    refine ⟨s', disk', ?_, hd', seen'.trans seen, roots'.trans roots, fun {q} hq => ?_, fun {q} hq => ?_⟩
    case refine_1 => rw [descend, hs]; exact hs'
    case refine_2 =>
      rcases level_cons.mp hq with rfl | hq
      case inl => exact (off level_append).trans at_first
      case inr => exact on hq
    case refine_3 =>
      rw [level_cons, not_or] at hq
      rw [off hq.right, others hq.left]

theorem extractFile_ideal (s : Progress) (m : Member) (source : Source) (hn : disk.lookup p = none) :
    (∀ e, readAll m source = .error e →
      ∃ e', s.extractFile (fun _ => true) disk m source p = .error e') ∧
    (readAll m source = .ok () → ∃ s', s.extractFile (fun _ => true) disk m source p = .ok s' ∧
      s'.disk = some (disk.set p (.file (source.data.take m.size.toNat))) ∧ s'.seen = s.seen ∧
      s'.rootsSeen = s.rootsSeen) := by
  refine ⟨fun e he => ?_, fun hr => ?_⟩ <;>
    simp only [Progress.extractFile, hn, Progress.call, if_true, bind, Except.bind]
  case refine_1 => simp [he, Progress.discard]
  case refine_2 => simp [hr]

end

def Node.kind : Node → Kind
  | .directory => .directory
  | .file _    => .file
  | .symlink   => .symlink
  | .other     => .other

-- `s` extracts what `t` checks.
structure Mirrors (roots : List Text) (s t : Progress) (disk : Disk) : Prop
    extends Extracts roots s disk where
  checks    : t.disk = none
  seen      : s.seen = t.seen
  rootsSeen : s.rootsSeen = t.rootsSeen
  marks {q : Path} : q ≠ [] → t.seen.lookup q = (disk.lookup q).map Node.kind
  noFile {root} : t.seen.lookup [root] ≠ some .file

variable {roots : List Text} {s t t' : Progress} {disk disk' : Disk} {succeeds : Operation → Bool}
  {uuid : UuidParser} {m : Member}

theorem admit_congr (uuid : UuidParser) (roots : List Text) (m : Member) (hs : s.seen = t.seen)
    (hr : s.rootsSeen = t.rootsSeen) :
    s.accept uuid roots m = (t.accept uuid roots m).map fun r =>
      (r.1, { s with seen := r.2.seen, rootsSeen := r.2.rootsSeen }) := by
  simp only [Progress.accept, hs, hr, bind, Except.bind, pure, Except.pure]
  cases memberPath uuid m roots
  case error => rfl
  case ok parts =>
    dsimp only
    cases see t.seen parts (if m.kind = .directory then .directory else .file) <;> rfl

theorem Mirrors.vacant (h : Mirrors roots s t disk) (hp : p ≠ []) (hf : t.seen.lookup p ≠ some .file) :
    disk.lookup p = none ∨ disk.lookup p = some .directory := by
  have marks := h.marks hp
  cases hd : disk.lookup p
  case none => exact .inl rfl
  case some n =>
    rcases (h.inside hd).right with rfl | ⟨bytes, rfl⟩
    case inl => exact .inr rfl
    case inr =>
      rw [hd] at marks
      exact absurd marks hf

-- The marks of a member against what has been made of it.
theorem Mirrors.marked {seen' : Table Path Kind} (n : Node) (h : Mirrors roots s t disk)
    (hp : parts ≠ []) (hs : see t.seen parts n.kind = .ok seen')
    (at_parts : disk'.lookup parts = some n)
    (on : ∀ {q}, Level [] parts.dropLast q → disk'.lookup q = some .directory)
    (off : ∀ {q}, ¬Level [] parts q → disk'.lookup q = disk.lookup q) (hq : q ≠ []) :
    seen'.lookup q = (disk'.lookup q).map Node.kind := by
  obtain ⟨_, levels, marked, above, others⟩ := see_ok hp hs
  by_cases hl : Level [] parts q
  case neg =>
    rw [others hl, off hl]
    exact h.marks hq
  case pos =>
    rcases (level_iff_dropLast hp).mp hl with rfl | hl
    case inl => rw [marked, at_parts]; rfl
    case inr =>
      have marks := h.marks hq
      rw [above hl, on hl, marks]
      rcases h.vacant hq (levels hl) with hd | hd <;> rw [hd] <;> rfl

theorem Mirrors.extracts {s' : Progress} (h : Mirrors roots s t disk)
    (run : s.processMember (fun _ => true) uuid roots m = .ok s') (hd : s'.disk = some disk') :
    Extracts roots s' disk' := by
  have kept := h.toExtracts.processMember uuid (fun _ => true) m
  rw [run] at kept
  obtain ⟨d, hx, _⟩ := kept
  cases hd.symm.trans hx.onto
  exact hx

theorem Mirrors.noFile_see {seen' : Table Path Kind} {k : Kind} (h : Mirrors roots s t disk)
    (hp : parts ≠ []) (hs : see t.seen parts k = .ok seen') (hk : ∀ {root}, parts = [root] → k ≠ .file)
    {root : Text} : seen'.lookup [root] ≠ some .file := by
  obtain ⟨_, _, marked, above, others⟩ := see_ok hp hs
  by_cases hl : Level [] parts [root]
  case neg => rw [others hl]; exact h.noFile
  case pos =>
    rcases (level_iff_dropLast hp).mp hl with he | hl
    case inl =>
      rw [he, marked]
      exact fun hf => hk he.symm (Option.some.inj hf)
    case inr =>
      rw [above hl]
      have none := @h.noFile root
      cases hr : t.seen.lookup [root]
      case none   => simp
      case some k => exact fun hf => none (hr.trans hf)

theorem Mirrors.processMember (succeeds : Operation → Bool) (uuid : UuidParser) (m : Member)
    (h : Mirrors roots s t disk) :
    (∀ e, t.processMember succeeds uuid roots m = .error e →
      ∃ e', s.processMember (fun _ => true) uuid roots m = .error e') ∧
    ∀ t', t.processMember succeeds uuid roots m = .ok t' → ∃ s' disk',
      s.processMember (fun _ => true) uuid roots m = .ok s' ∧ Mirrors roots s' t' disk' := by
  have admits := admit_congr uuid roots m h.seen h.rootsSeen
  cases ha : t.accept uuid roots m
  case error e =>
    rw [ha] at admits
    simp only [Progress.processMember, ha, admits, Except.map]
    exact ⟨fun _ _ => ⟨_, rfl⟩, by simp⟩
  case ok r =>
    obtain ⟨parts, t₁⟩ := r
    obtain ⟨hm, seen', hs, rfl⟩ := accept_ok ha
    rw [ha, Except.map] at admits
    dsimp only at admits
    have hp : parts ≠ [] := by
      obtain ⟨_, _, _, _, he, _, _⟩ := memberPath_ok_iff.mp hm
      simp [he]
    have root {root} (he : parts = [root]) : m.kind = .directory := directory_of_root (he ▸ hm)
    by_cases hk : m.kind = .directory
    case pos =>
      rw [if_pos hk] at hs
      have vacant {q} (hq : Level [] parts q) :
          disk.lookup q = none ∨ disk.lookup q = some .directory := by
        obtain ⟨free, levels, _, _, _⟩ := see_ok hp hs
        rcases (level_iff_dropLast hp).mp hq with rfl | hl
        case inl => exact h.vacant hp (by simp [free])
        case inr => exact h.vacant (fun he => current_not_level (he ▸ hl)) (levels hl)
      obtain ⟨s', disk', made, hd, seen, rootsSeen, on, off⟩ := descend_ensure
        (s := { s with seen := seen', rootsSeen :=
          if parts.length = 1 then t.rootsSeen ++ parts else t.rootsSeen }) h.onto vacant
      have run : s.processMember (fun _ => true) uuid roots m = .ok s' := by
        simp only [Progress.processMember, admits, hk, if_true]
        exact made
      have at_parts := on ((level_iff_dropLast hp).mpr (.inl rfl))
      have above {q} (hl : Level [] parts.dropLast q) := on ((level_iff_dropLast hp).mpr (.inr hl))
      have check : t.processMember succeeds uuid roots m = .ok { t with seen := seen', rootsSeen :=
          if parts.length = 1 then t.rootsSeen ++ parts else t.rootsSeen } := by
        simp only [Progress.processMember, ha, hk, if_true]
        exact descend_none succeeds [] parts h.checks
      rw [check]
      refine ⟨by simp, fun t' ht => ⟨s', disk', run, ?_⟩⟩
      cases ht
      exact ⟨h.extracts run hd, h.checks, seen, rootsSeen,
        h.marked .directory hp hs at_parts above off, h.noFile_see hp hs (by simp)⟩
    case neg =>
      rw [if_neg hk] at hs
      obtain ⟨free, levels, _, _, _⟩ := see_ok hp hs
      have vacant {q} (hq : Level [] parts.dropLast q) :
          disk.lookup q = none ∨ disk.lookup q = some .directory :=
        h.vacant (fun he => current_not_level (he ▸ hq)) (levels hq)
      have unmade : disk.lookup parts = none := by
        have marks := h.marks hp
        rw [free] at marks
        simpa using marks.symm
      cases hsrc : m.source
      case none =>
        simp only [Progress.processMember, ha, admits, hk, if_false, hsrc]
        exact ⟨fun _ _ => ⟨_, rfl⟩, by simp⟩
      case some source =>
        let t₁ := { t with seen := seen', total := t.total + m.size, rootsSeen :=
          if parts.length = 1 then t.rootsSeen ++ parts else t.rootsSeen }
        obtain ⟨s₁, disk₁, made, hd, seen, rootsSeen, on, off⟩ := descend_ensure
          (s := { s with seen := seen', total := s.total + m.size, rootsSeen :=
            if parts.length = 1 then t.rootsSeen ++ parts else t.rootsSeen }) h.onto vacant
        have target : disk₁.lookup parts = none := (off not_level_dropLast).trans unmade
        have extract : s.processMember (fun _ => true) uuid roots m =
            s₁.extractFile (fun _ => true) disk₁ m source parts := by
          simp only [Progress.processMember, admits, hk, if_false, hsrc, Progress.ensureDirectory]
          rw [made]
          simp only [bind, Except.bind, hd]
        have skipped : t₁.ensureDirectory succeeds parts.dropLast = .ok t₁ :=
          descend_none succeeds [] _ h.checks
        have checked : t₁.disk = none := h.checks
        obtain ⟨fails, goes⟩ := extractFile_ideal s₁ m source target
        cases hr : readAll m source
        case error e =>
          have check : t.processMember succeeds uuid roots m = .error (e, t₁) := by
            simp only [Progress.processMember, ha, hk, if_false, hsrc]
            rw [skipped]
            simp only [bind, Except.bind, checked, hr]
          rw [check, extract]
          exact ⟨fun _ _ => fails e hr, by simp⟩
        case ok =>
          have check : t.processMember succeeds uuid roots m = .ok t₁ := by
            simp only [Progress.processMember, ha, hk, if_false, hsrc]
            rw [skipped]
            simp only [bind, Except.bind, checked, hr]
          obtain ⟨s', run, hd', seen', rootsSeen'⟩ := goes hr
          rw [← extract] at run
          rw [check]
          refine ⟨by simp, fun t' ht =>
            ⟨s', disk₁.set parts (.file (source.data.take m.size.toNat)), run, ?_⟩⟩
          cases ht
          have at_parts : (disk₁.set parts (.file (source.data.take m.size.toNat))).lookup parts =
              some (.file (source.data.take m.size.toNat)) := by simp
          have below {q} (hq : Level [] parts.dropLast q) :
              (disk₁.set parts (.file (source.data.take m.size.toNat))).lookup q = some .directory := by
            have ne : q ≠ parts := fun he => not_level_dropLast (he ▸ hq)
            rw [Table.lookup_set, if_neg ne, on hq]
          have others {q} (hq : ¬Level [] parts q) :
              (disk₁.set parts (.file (source.data.take m.size.toNat))).lookup q = disk.lookup q := by
            rw [level_iff_dropLast hp, not_or] at hq
            rw [Table.lookup_set, if_neg hq.left, off hq.right]
          exact ⟨h.extracts run hd', checked, seen'.trans seen, rootsSeen'.trans rootsSeen,
            h.marked (.file (source.data.take m.size.toNat)) hp hs at_parts below others,
            h.noFile_see hp hs fun he => absurd (root he) hk⟩

theorem Mirrors.members (succeeds : Operation → Bool) (uuid : UuidParser) (ms : List Member)
    (h : Mirrors roots s t disk) :
    (∀ e, ms.foldlM (fun s m => Progress.processMember succeeds s uuid roots m) t = .error e →
      ∃ e', ms.foldlM (fun s m => Progress.processMember (fun _ => true) s uuid roots m) s =
        .error e') ∧
    ∀ t', ms.foldlM (fun s m => Progress.processMember succeeds s uuid roots m) t = .ok t' →
      ∃ s' disk', ms.foldlM (fun s m => Progress.processMember (fun _ => true) s uuid roots m) s =
        .ok s' ∧ Mirrors roots s' t' disk' := by
  induction ms generalizing s t disk
  case nil =>
    refine ⟨by simp [List.foldlM_nil, pure, Except.pure], fun t' ht => ⟨s, disk, rfl, ?_⟩⟩
    cases ht
    exact h
  case cons m ms ih =>
    obtain ⟨fails, goes⟩ := h.processMember succeeds uuid m
    simp only [List.foldlM_cons]
    cases ht : t.processMember succeeds uuid roots m
    case error e =>
      obtain ⟨e', he⟩ := fails e ht
      simp only [he, bind, Except.bind]
      exact ⟨fun _ _ => ⟨e', rfl⟩, by simp⟩
    case ok t₁ =>
      obtain ⟨s₁, disk₁, hs, mirrors⟩ := goes t₁ ht
      simp only [hs, bind, Except.bind]
      exact ih mirrors

theorem ensureRoots_ideal {names : List Text} (h : Extracts roots s disk)
    (hr : ∀ root ∈ names, root ∈ roots)
    (hv : ∀ root ∈ names, disk.lookup [root] = none ∨ disk.lookup [root] = some .directory) :
    ∃ s', names.foldlM (fun s root => Progress.ensureDirectory (fun _ => true) s [root]) s = .ok s' := by
  induction names generalizing s disk
  case nil => exact ⟨s, rfl⟩
  case cons root names ih =>
    have levels {q} (hq : Level [] [root] q) :
        disk.lookup q = none ∨ disk.lookup q = some .directory := by
      rcases level_cons.mp hq with rfl | hq
      case inl => exact hv root (.head _)
      case inr => exact absurd hq not_level_nil
    obtain ⟨s₁, disk₁, made, hd, _, _, on, off⟩ := descend_ensure h.onto levels
    have below : Below roots [root] := .inr ⟨root, [], rfl, hr root (.head _), by simp⟩
    have kept := h.ensureDirectory (fun _ => true) below
    have run : s.ensureDirectory (fun _ => true) [root] = .ok s₁ := made
    rw [run] at kept
    obtain ⟨d, extracts, _⟩ := kept
    cases hd.symm.trans extracts.onto
    have rest : ∀ r ∈ names, disk₁.lookup [r] = none ∨ disk₁.lookup [r] = some .directory := by
      intro r hm
      by_cases hl : Level [] [root] [r]
      case pos => exact .inr (on hl)
      case neg => rw [off hl]; exact hv r (.tail _ hm)
    obtain ⟨s', hs'⟩ := ih extracts (fun r hm => hr r (.tail _ hm)) rest
    refine ⟨s', ?_⟩
    rw [List.foldlM_cons, run]
    exact hs'

theorem chmods_ideal (s : Progress) (disk : Disk) (paths : List Path) (mode : Path → Nat) :
    ∃ s', paths.foldlM (fun s p => Progress.call (fun _ => true) s (.chmod p (mode p)) disk) s =
      .ok s' := by
  induction paths generalizing s
  case nil             => exact ⟨s, rfl⟩
  case cons p paths ih => exact ih _

theorem Mirrors.finish (h : Mirrors roots s t disk) : ∃ s', s.finish (fun _ => true) roots = .ok s' := by
  have vacant : ∀ root ∈ roots, disk.lookup [root] = none ∨ disk.lookup [root] = some .directory :=
    fun root _ => h.vacant (by simp) h.noFile
  obtain ⟨s₁, made⟩ := ensureRoots_ideal h.toExtracts (fun _ hr => hr) vacant
  have kept := h.toExtracts.ensureRoots (fun _ => true) (fun _ hr => hr)
  rw [made] at kept
  obtain ⟨disk₁, extracts, _⟩ := kept
  have run (paths : List Path) : ∃ s', (do
      let s ← paths.foldlM
        (fun s p => Progress.call (fun _ => true) s (.chmod p (directoryMode p)) disk₁) s₁
      s.call (fun _ => true) (.chmod [] 0o750) disk₁ : Result) = .ok s' := by
    obtain ⟨s₂, moded⟩ := chmods_ideal s₁ disk₁ paths directoryMode
    rw [moded]
    exact ⟨_, rfl⟩
  unfold Progress.finish
  rw [h.onto, made]
  simp only [bind, Except.bind, extracts.onto] at run ⊢
  exact run _

theorem finish_none (h : t.disk = none) : t.finish succeeds roots = .ok t := by
  simp [Progress.finish, h]

theorem mirrors_start {s : Progress} (he : Extracts roots s (Table.empty.set [] .directory))
    (hs : s.seen = .empty) (hr : s.rootsSeen = []) :
    Mirrors roots s {} (Table.empty.set [] .directory) where
  toExtracts := he
  checks     := rfl
  seen       := hs
  rootsSeen  := hr
  marks hq   := by simp [hq]
  noFile     := by simp

variable {stream : Stream}

-- The checks of a stream accept it if it can be extracted.
theorem validate_iff_extract :
    (∃ s, processArchive uuid succeeds none roots stream = .ok s) ↔
      ∃ s, processArchive uuid (fun _ => true) (some .empty) roots stream = .ok s := by
  obtain ⟨_, prepared⟩ := keeps_prepare roots (fun _ => true)
  have start : ∃ s₀, Progress.prepareDestination (fun _ => true) {} (some .empty) = .ok s₀ :=
    ⟨_, rfl⟩
  obtain ⟨s₀, hs₀⟩ := start
  obtain ⟨rootsSeen, seen, extracts⟩ := prepared s₀ hs₀
  obtain ⟨fails, goes⟩ := (mirrors_start extracts seen rootsSeen).members succeeds uuid
    stream.members
  have checked : Progress.prepareDestination succeeds {} none = .ok {} := rfl
  unfold processArchive
  rw [hs₀, checked]
  simp only [bind, Except.bind]
  cases ht : stream.members.foldlM (fun s m => Progress.processMember succeeds s uuid roots m) {}
  case error e =>
    obtain ⟨e', he⟩ := fails e ht
    simp [he]
  case ok t =>
    obtain ⟨s, disk, hs, mirrors⟩ := goes t ht
    obtain ⟨s', done⟩ := mirrors.finish
    simp only [hs, mirrors.rootsSeen]
    split
    case isTrue => simp
    split
    case isTrue  => simp
    case isFalse => exact ⟨fun _ => ⟨s', done⟩, fun _ => ⟨t, finish_none mirrors.checks⟩⟩

-- The first conjunct is a destination that exists, and the others are a new one.
theorem extract_safe (uuid : UuidParser) (succeeds : Operation → Bool) (roots : List Text)
    (stream : Stream) :
    (∀ disk, (disk.lookup []).isSome → ∃ s, s.log = [] ∧
      processArchive uuid succeeds (some disk) roots stream = .error (.destinationExists, s)) ∧
    (∃ disk, (processArchive uuid succeeds (some .empty) roots stream).progress.disk = some disk ∧
      (∀ p n, disk.lookup p = some n → Below roots p ∧ Real n) ∧
      ∀ op ∈ (processArchive uuid succeeds (some .empty) roots stream).progress.log,
        Below roots op.path ∧ Reached disk op.path) ∧
    ((processArchive uuid succeeds (some .empty) roots stream).progress.log.filterMap
      Operation.made).Nodup ∧
    (∀ s, processArchive uuid succeeds (some .empty) roots stream = .ok s → ∃ disk,
      s.disk = some disk ∧ (∀ m ∈ stream.members, Delivered uuid roots disk m) ∧
      ∀ root ∈ roots, root ∉ optionalRoots →
        ∃ m ∈ stream.members, m.kind = .directory ∧ memberPath uuid m roots = .ok [root]) ∧
    ((∃ s, processArchive uuid succeeds none roots stream = .ok s) ↔
      ∃ s, processArchive uuid (fun _ => true) (some .empty) roots stream = .ok s) := by
  obtain ⟨⟨disk, sound⟩, complete⟩ := processArchive_sound uuid succeeds roots stream
  refine ⟨fun disk hd => ?_, ⟨disk, sound.onto, fun p n hp => sound.inside hp, fun op => sound.logged⟩,
    sound.once, fun s hs => ?_, validate_iff_extract⟩
  case refine_1 =>
    refine ⟨{ disk := some disk }, rfl, ?_⟩
    simp [processArchive, Progress.prepareDestination, hd, bind, Except.bind]
  case refine_2 =>
    obtain ⟨disk, extracts, delivered, appeared, _⟩ := complete s hs
    exact ⟨disk, extracts.onto, delivered, appeared⟩

def tokenKey : Member where
  name   := secretsRoot ++ ['/', 'k', 'e', 'y']
  kind   := .file
  size   := 2
  source := some { data := [7, 9] }

def keyArchive : Stream where
  members := [objectsRoot, uploadsRoot, trashRoot, secretsRoot].map
    (fun root => { name := root, kind := .directory }) ++ [tokenKey]

theorem extract_safe_key : ∃ s disk, s.disk = some disk ∧
    processArchive .hyphenless (fun _ => true) (some .empty)
      [objectsRoot, uploadsRoot, trashRoot, secretsRoot] keyArchive = .ok s ∧
    disk.lookup [secretsRoot, ['k', 'e', 'y']] = some (.file [7, 9]) := by
  obtain ⟨_, _, _, complete, agree⟩ := extract_safe .hyphenless (fun _ => true)
    [objectsRoot, uploadsRoot, trashRoot, secretsRoot] keyArchive
  obtain ⟨s, run⟩ := agree.mp ⟨_, rfl⟩
  obtain ⟨disk, onto, delivered, _⟩ := complete s run
  obtain ⟨parts, path, _, file⟩ := delivered tokenKey (by simp [keyArchive])
  obtain rfl : [secretsRoot, ['k', 'e', 'y']] = parts := Except.ok.inj path
  obtain ⟨source, hs, _, held⟩ := file (by decide)
  cases hs
  exact ⟨s, disk, onto, run, held⟩

end MyDrive.Archive
