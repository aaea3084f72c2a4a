import MyDrive.Archive.Theorems.Keys
import MyDrive.Library.Except

namespace MyDrive.Archive

-- What `member_path` asks of a name, but for its first component.
structure Clean (name : Text) : Prop where
  head     : name.head? ≠ some '/'
  nul      : '\x00' ∉ name
  slash    : '\\' ∉ name
  drive    : hasDrive name = false
  nonempty : cleanName name ≠ []
  parts    : ∀ part ∈ (cleanName name).splitOn '/', part ≠ [] ∧ part ≠ ['.'] ∧ part ≠ ['.', '.']

variable {uuid : UuidParser} {m : Member} {roots : List Text} {parts : Path} {name : Text}

theorem cleanName_nil : cleanName [] = [] :=
  rfl

theorem memberPath_ok_iff : memberPath uuid m roots = .ok parts ↔
    Clean m.name ∧ (cleanName m.name).splitOn '/' = parts ∧
      ∃ root rest, parts = root :: rest ∧ root ∈ roots ∧ checkParts uuid m root rest = .ok () := by
  simp only [memberPath, Except.ite_throw_eq_ok_iff]
  constructor
  case mp =>
    rintro ⟨hn, hd, hp, h⟩
    simp only [not_or, Bool.not_eq_true, List.any_eq_false, Bool.or_eq_true, decide_eq_true_eq,
      and_assoc] at hn hd hp
    have clean : Clean m.name := ⟨hn.2.2.2, hn.2.1, hn.2.2.1, hd, hp.1, hp.2⟩
    refine ⟨clean, ?_⟩
    split at h
    case h_1 => contradiction
    case h_2 root rest hs =>
      simp only [Except.ite_throw_eq_ok_iff, Except.bind_eq_ok_iff, Decidable.not_not] at h
      obtain ⟨hr, _, hc, he⟩ := h
      cases he
      exact ⟨rfl, root, rest, hs, hr, hc⟩
  case mpr =>
    rintro ⟨clean, rfl, root, rest, hs, hr, hc⟩
    have nonempty : m.name ≠ [] := fun he => clean.nonempty (by rw [he, cleanName_nil])
    refine ⟨?_, ?_, ?_, ?_⟩
    case refine_1 => simp [nonempty, clean.nul, clean.slash, clean.head]
    case refine_2 => simp [clean.drive]
    case refine_3 =>
      simp only [clean.nonempty, false_or, Bool.not_eq_true, List.any_eq_false, Bool.or_eq_true,
        decide_eq_true_eq, not_or, and_assoc]
      exact clean.parts
    case refine_4 => simp [hs, hr, hc, bind, Except.bind, pure, Except.pure]

theorem of_mem_splitOn {c : Char} {t part : Text} (h : part ∈ t.splitOn c) :
    c ∉ part ∧ ∀ d ∈ part, d ∈ t := by
  induction t generalizing part
  case nil =>
    simp only [List.splitOn_nil, List.mem_singleton] at h
    simp [h]
  case cons d t ih =>
    rw [List.splitOn_cons_eq_if_modifyHead] at h
    split at h
    case isTrue =>
      rcases List.mem_cons.mp h with rfl | h
      case inl => simp
      case inr => exact ⟨(ih h).left, fun e he => .tail _ ((ih h).right e he)⟩
    case isFalse hd =>
      rcases hs : t.splitOn c with _ | ⟨first, rest⟩ <;> rw [hs] at h
      case nil => contradiction
      case cons =>
        rcases List.mem_cons.mp h with rfl | h
        case inl =>
          have parts := @ih first (by simp [hs])
          refine ⟨?_, fun e he => ?_⟩
          case refine_1 =>
            simp only [List.mem_cons, not_or]
            exact ⟨fun he => hd (by simp [he]), parts.left⟩
          case refine_2 =>
            rcases List.mem_cons.mp he with rfl | he
            case inl => exact .head _
            case inr => exact .tail _ (parts.right e he)
        case inr =>
          have parts := @ih part (by simp [hs, h])
          exact ⟨parts.left, fun e he => .tail _ (parts.right e he)⟩

theorem mem_of_mem_cleanName {c : Char} (h : c ∈ cleanName name) : c ∈ name := by
  unfold cleanName at h
  split at h
  case isTrue  => exact List.dropLast_subset _ h
  case isFalse => exact h

-- The components of a member that is accepted.
theorem names_of_memberPath (h : memberPath uuid m roots = .ok parts) : ∀ part ∈ parts, Name part := by
  obtain ⟨clean, rfl, _⟩ := memberPath_ok_iff.mp h
  intro part hp
  obtain ⟨nonempty, dot, dots⟩ := clean.parts part hp
  obtain ⟨slash, chars⟩ := of_mem_splitOn hp
  exact ⟨nonempty, dot, dots, slash, fun hn => clean.nul (mem_of_mem_cleanName (chars _ hn))⟩

theorem checkParts_object {rest : Path} (hk : m.kind = .file) :
    checkParts uuid m objectsRoot rest = .ok () ↔
      rest ≠ [] ∧ 0 ≤ m.size ∧ checkObjectName uuid m.name rest = .ok () := by
  have other : objectsRoot ≠ uploadsRoot := by decide
  simp only [checkParts, Except.ite_throw_eq_ok_iff]
  simp only [hk, ne_eq, reduceCtorEq, not_false_eq_true, not_true_eq_false, and_false, true_and,
    and_true, Int.not_lt, if_true, other, if_false]
  refine ⟨fun h => ?_, fun h => ?_⟩
  case refine_1 =>
    obtain ⟨hr, hs, h⟩ := h
    rw [if_pos hr] at h
    obtain ⟨_, hc, _⟩ := Except.bind_eq_ok_iff.mp h
    exact ⟨hr, hs, hc⟩
  case refine_2 =>
    obtain ⟨hr, hs, hc⟩ := h
    refine ⟨hr, hs, ?_⟩
    rw [if_pos hr, hc]
    rfl

theorem cleanName_object {key : Text} (h : key.getLast? ≠ some '/') :
    cleanName (objectsRoot ++ '/' :: key) =
      if key = [] then objectsRoot else objectsRoot ++ '/' :: key := by
  split
  case isTrue hk => subst hk; rfl
  case isFalse hk =>
    rw [cleanName, if_neg]
    obtain ⟨c, hc⟩ := Option.ne_none_iff_exists'.mp (mt List.getLast?_eq_none_iff.mp hk)
    rw [List.getLast?_append, List.getLast?_cons, hc]
    simpa [hc] using h

theorem plain_of_mem_storageKey {c : Char} {id : Uuid} (h : c ∈ storageKey id) :
    isHex c ∨ c = '-' ∨ c = '/' := by
  have print {cs : Text} (hs : cs.Sublist id.print) (hc : c ∈ cs) : isHex c ∨ c = '-' ∨ c = '/' := by
    rcases id.mem_print (hs.mem hc) with hc | hc
    case inl => exact .inl hc
    case inr => exact .inr (.inl hc)
  simp only [storageKey, List.mem_append, List.mem_cons] at h
  rcases h with h | h | h | h | h
  case inl                 => exact print (List.take_sublist _ _) h
  case inr.inl             => exact .inr (.inr h)
  case inr.inr.inl         => exact print ((List.take_sublist _ _).trans (List.drop_sublist _ _)) h
  case inr.inr.inr.inl     => exact .inr (.inr h)
  case inr.inr.inr.inr     => exact print (.refl _) h

-- The components of a storage key are names of their own.
theorem name_of_storageKey {id : Uuid} {part : Text}
    (h : part ∈ [id.print.take 2, (id.print.drop 2).take 2, id.print]) : Name part := by
  have chars {c : Char} (hc : c ∈ part) : isHex c ∨ c = '-' := by
    have sub : part.Sublist id.print := by
      simp only [List.mem_cons, List.not_mem_nil, or_false] at h
      rcases h with rfl | rfl | rfl
      case inl     => exact List.take_sublist _ _
      case inr.inl => exact (List.take_sublist _ _).trans (List.drop_sublist _ _)
      case inr.inr => exact .refl _
    exact id.mem_print (sub.mem hc)
  have dot : '.' ∉ part := fun hd => absurd (chars hd) (by decide)
  have length := id.length_print
  refine ⟨?_, ?_, ?_, slash_not_mem fun _ => chars, fun hn => absurd (chars hn) (by decide)⟩
  case refine_1 =>
    simp only [List.mem_cons, List.not_mem_nil, or_false] at h
    rintro rfl
    rcases h with h | h | h <;> have := congrArg List.length h <;> simp [length] at this
  case refine_2 => rintro rfl; exact dot (by simp)
  case refine_3 => rintro rfl; exact dot (by simp)

theorem clean_storageKey (id : Uuid) : Clean (objectsRoot ++ '/' :: storageKey id) := by
  have last : (storageKey id).getLast? ≠ some '/' := by
    have length := id.length_print
    obtain ⟨c, hc⟩ := Option.ne_none_iff_exists'.mp (mt List.getLast?_eq_none_iff.mp
      (fun he : id.print = [] => by simp [he] at length))
    have mem := id.mem_print (List.mem_of_getLast? hc)
    simp only [storageKey, List.getLast?_append, List.getLast?_cons, hc]
    rintro ⟨⟩
    exact absurd mem (by decide)
  have nonempty : storageKey id ≠ [] := by simp [storageKey]
  have name := cleanName_object last
  rw [if_neg nonempty] at name
  have other {c : Char} (hc : c ∈ objectsRoot ++ '/' :: storageKey id)
      (hn : c ≠ '/' ∧ isHex c = false ∧ c ≠ '-') : c ∈ objectsRoot := by
    rcases List.mem_append.mp hc with hc | hc
    case inl => exact hc
    case inr =>
      rcases List.mem_cons.mp hc with hc | hc
      case inl => exact absurd hc hn.left
      case inr => have := plain_of_mem_storageKey hc; simp [hn] at this
  refine ⟨by simp [objectsRoot], fun h => ?_, fun h => ?_, rfl, by rw [name]; simp, ?_⟩
  case refine_1 => exact absurd (other h (by decide)) (by decide)
  case refine_2 => exact absurd (other h (by decide)) (by decide)
  case refine_3 =>
    rw [name, List.splitOn_append_cons_self_of_not_mem (by decide), splitOn_storageKey]
    intro part hp
    rcases List.mem_cons.mp hp with rfl | hp
    case inl => decide
    case inr =>
      have := name_of_storageKey hp
      exact ⟨this.left, this.right.left, this.right.right.left⟩

-- The members of an archive that are objects have the keys of the server.
theorem memberPath_object_iff {key : Text} {size : Int} {source : Option Source}
    (hl : key.getLast? ≠ some '/') (hs : 0 ≤ size) (hr : objectsRoot ∈ roots) :
    (∃ parts, memberPath uuid { name := objectsRoot ++ '/' :: key, kind := .file, size, source } roots =
      .ok parts) ↔ ∃ id, key = storageKey id := by
  have name := cleanName_object hl
  constructor
  case mp =>
    rintro ⟨parts, h⟩
    obtain ⟨clean, split, root, rest, he, _, hc⟩ := memberPath_ok_iff.mp h
    rw [name] at split
    by_cases hk : key = []
    case pos =>
      have single : objectsRoot.splitOn '/' = [objectsRoot] := by decide
      rw [if_pos hk, single, he] at split
      cases split
      exact absurd rfl ((checkParts_object rfl).mp hc).left
    case neg =>
      rw [if_neg hk, List.splitOn_append_cons_self_of_not_mem (by decide), he] at split
      cases split
      obtain ⟨_, _, hc⟩ := (checkParts_object rfl).mp hc
      obtain ⟨id, hi⟩ := checkObjectName_ok_iff.mp hc
      exact ⟨id, eq_of_splitOn hi⟩
  case mpr =>
    rintro ⟨id, rfl⟩
    refine ⟨_, memberPath_ok_iff.mpr
      ⟨clean_storageKey id, rfl, objectsRoot, (storageKey id).splitOn '/', ?_, hr, ?_⟩⟩
    case refine_1 =>
      dsimp only
      rw [name, if_neg (by simp [storageKey]), List.splitOn_append_cons_self_of_not_mem (by decide)]
    case refine_2 =>
      rw [splitOn_storageKey]
      exact (checkParts_object rfl).mpr ⟨by simp, hs, checkObjectName_ok_iff.mpr ⟨id, rfl⟩⟩

theorem storage_keys_agree (server tools : UuidParser) (root : Path) :
    (∀ key, (∃ path, objectPath server root key = .ok path) ↔ ∃ id, key = storageKey id) ∧
    (∀ key key' path, objectPath server root key = .ok path →
      objectPath server root key' = .ok path → key = key') ∧
    (∀ key path, objectPath server root key = .ok path →
      ∃ a b c, path = root ++ [objectsRoot, a, b, c] ∧ ∀ part ∈ [a, b, c], Name part) ∧
    ∀ key : Text, key.getLast? ≠ some '/' →
      (∀ size source roots, 0 ≤ size → objectsRoot ∈ roots →
        ((∃ parts, memberPath tools { name := objectsRoot ++ '/' :: key, kind := .file, size, source }
          roots = .ok parts) ↔ ∃ path, objectPath server root key = .ok path)) ∧
      ∀ seen size checksum, key ∉ seen → 0 ≤ size → fullmatch (List.replicate 64 isHex) checksum →
        (checkReadyRow tools seen { key, size := some size, checksum } = .ok (key :: seen) ↔
          ∃ path, objectPath server root key = .ok path) := by
  have accepted (key) : (∃ path, objectPath server root key = .ok path) ↔ ∃ id, key = storageKey id := by
    constructor
    case mp =>
      rintro ⟨path, h⟩
      obtain ⟨id, hk, _⟩ := objectPath_ok_iff.mp h
      exact ⟨id, hk⟩
    case mpr =>
      rintro ⟨id, hk⟩
      exact ⟨_, objectPath_ok_iff.mpr ⟨id, hk, rfl⟩⟩
  refine ⟨accepted, fun key key' path h h' => ?_, fun key path h => ?_, fun key hl => ⟨?_, ?_⟩⟩
  case refine_1 =>
    obtain ⟨id, rfl, rfl⟩ := objectPath_ok_iff.mp h
    obtain ⟨id', rfl, he⟩ := objectPath_ok_iff.mp h'
    have print : id.print = id'.print := by
      have := List.append_cancel_left he
      simp only [List.cons.injEq] at this
      exact this.2.2.2.1
    rw [storageKey, storageKey, print]
  case refine_2 =>
    obtain ⟨id, rfl, rfl⟩ := objectPath_ok_iff.mp h
    exact ⟨_, _, _, rfl, fun part hp => name_of_storageKey hp⟩
  case refine_3 =>
    intro size source roots hs hr
    rw [accepted]
    exact memberPath_object_iff hl hs hr
  case refine_4 =>
    intro seen size checksum hk hs hc
    have valid : ∃ n, some size = some n ∧ 0 ≤ n := ⟨size, rfl, hs⟩
    rw [accepted, checkReadyRow_ok_iff]
    exact ⟨fun h => h.right.left, fun h => ⟨hk, h, valid, hc⟩⟩

def Uuid.zero : Uuid where
  digits := List.replicate 32 0
  size   := List.length_replicate

theorem storage_keys_agree_zero :
    (∃ path, objectPath .hyphenless [] (storageKey .zero) = .ok path) ∧
    checkReadyRow .hyphenless []
      { key := storageKey .zero, size := some 0, checksum := List.replicate 64 '0' } =
        .ok [storageKey .zero] := by
  have path : ∃ path, objectPath .hyphenless [] (storageKey .zero) = .ok path :=
    (storage_keys_agree .hyphenless .hyphenless []).left _ |>.mpr ⟨.zero, rfl⟩
  have agrees := (storage_keys_agree .hyphenless .hyphenless []).right.right.right
    (storageKey .zero) (by decide)
  exact ⟨path, (agrees.right [] 0 _ (by simp) (by decide) (by decide)).mpr path⟩

end MyDrive.Archive
