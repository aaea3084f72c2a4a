import Mathlib.Data.List.Infix
import MyDrive.Library.Except
import MyDrive.Installer.Config

-- Where the data directories of an accepted configuration are.

namespace MyDrive.Installer

variable {h : Host} {config : Config} {raw : Text} {p q : Path} {value : Value} {a b : List Text}
  {fields : List (String × String)} {paths found : List Path} {v : Validated}

-- One path is the other, or inside of it.
def Nested (a b : List Text) : Prop :=
  a <+: b ∨ b <+: a

instance : Decidable (Nested a b) :=
  inferInstanceAs (Decidable (a <+: b ∨ b <+: a))

namespace Path

theorem tail_parse (raw : Text) : (parse raw).tail = components raw := by
  have slash (text : Text) : components ('/' :: text) = components text := by
    have : ('/' :: text).splitOn '/' = [] :: text.splitOn '/' := by
      rw [List.splitOn_cons_eq_if_modifyHead]
      rfl
    simp [components, this]
  unfold parse
  dsimp only
  unfold splitRoot
  split
  case h_1 => exact (slash _).symm
  case h_2 => rw [slash, slash]
  case h_3 => rw [slash]
  case h_4 => rfl

-- A path that is written with exactly two slashes in front.
def doubled (raw : Text) : Bool :=
  (parse raw).root = ['/', '/']

theorem root_parse (hm : matchesPath raw) : (parse raw).root = if doubled raw then ['/', '/'] else ['/'] := by
  cases raw
  case nil => cases hm
  case cons c text =>
    obtain rfl : c = '/' := by
      by_contra hc
      unfold matchesPath at hm
      split at hm
      case h_1 heq => exact hc (List.cons.inj heq).left
      case h_2     => cases hm
    unfold doubled parse
    dsimp only
    unfold splitRoot
    split <;> simp_all

theorem mem_parents_iff : q ∈ p.parents ↔ q.root = p.root ∧ q.tail <+: p.tail ∧ q.tail ≠ p.tail := by
  simp only [parents, List.mem_map, List.mem_reverse, List.mem_range]
  constructor
  case mp =>
    rintro ⟨n, hn, rfl⟩
    refine ⟨rfl, List.take_prefix n p.tail, fun he => ?_⟩
    have := congrArg List.length he
    simp at this
    omega
  case mpr =>
    rintro ⟨root, inside, proper⟩
    have shorter : q.tail.length < p.tail.length :=
      lt_of_le_of_ne inside.length_le fun hl => proper (inside.eq_of_length hl)
    refine ⟨q.tail.length, shorter, ?_⟩
    rw [← List.prefix_iff_eq_take.mp inside, ← root]

end Path

theorem related_iff : related p q ↔ p.root = q.root ∧ Nested p.tail q.tail := by
  simp only [related, Bool.or_eq_true, decide_eq_true_eq, Path.mem_parents_iff, Nested]
  constructor
  case mp =>
    rintro ((rfl | ⟨root, inside, _⟩) | ⟨root, inside, _⟩)
    case inl.inl => exact ⟨rfl, .inl List.prefix_rfl⟩
    case inl.inr => exact ⟨root.symm, .inr inside⟩
    case inr     => exact ⟨root, .inl inside⟩
  case mpr =>
    rintro ⟨root, nested⟩
    by_cases same : p.tail = q.tail
    case pos =>
      left; left
      cases p
      cases q
      simp_all
    case neg =>
      cases nested
      case inl inside => exact .inr ⟨root, inside, same⟩
      case inr inside => exact .inl (.inr ⟨root.symm, inside, Ne.symm same⟩)

-- What is known of an accepted path.
theorem validPath_eq_ok (hv : validPath h value = .ok p) :
    ∃ raw, value = .str raw ∧ matchesPath raw ∧ p = .parse raw ∧ p ≠ .parse ['/'] := by
  unfold validPath at hv
  split at hv
  case h_2 => cases hv
  case h_1 raw =>
    split at hv
    case isTrue => cases hv
    case isFalse hm =>
      dsimp only at hv
      split at hv
      case isTrue => cases hv
      case isFalse safe =>
        split at hv
        case h_1 => cases hv
        case h_2 =>
          cases hv
          simp only [Bool.or_eq_true, decide_eq_true_eq, not_or] at safe
          exact ⟨raw, rfl, by simpa using hm, rfl, safe.right⟩

-- The texts of the data directories of a configuration.
def dataTexts (config : Config) (fields : List (String × String)) : List Text :=
  fields.filterMap fun f =>
    match config.getD f.1 (.str f.2.toList) with
    | .str raw => some raw
    | _        => none

structure Accepted (raws : List Text) (paths : List Path) : Prop where
  parsed  : paths = raws.map Path.parse
  matched : ∀ raw ∈ raws, matchesPath raw
  root    : ∀ p ∈ paths, p ≠ .parse ['/']
  outside : ∀ p ∈ paths, ¬related p install
  apart   : paths.Pairwise fun p q => ¬related q p

theorem Accepted.push {raws : List Text} (ha : Accepted raws paths) (hm : matchesPath raw) (hr : Path.parse raw ≠ .parse ['/'])
    (ho : ¬related (.parse raw) install) (hp : ¬paths.any (related (.parse raw))) :
    Accepted (raws ++ [raw]) (paths ++ [.parse raw]) where
  parsed  := by simp [ha.parsed]
  matched := by simpa [or_imp, forall_and] using And.intro ha.matched hm
  root    := by simpa [or_imp, forall_and] using And.intro ha.root hr
  outside := by simpa [or_imp, forall_and] using And.intro ha.outside ho
  apart   := by
    refine List.pairwise_append.mpr ⟨ha.apart, List.pairwise_singleton .., ?_⟩
    intro p hmem q hq
    rw [List.mem_singleton.mp hq]
    intro hrel
    exact hp (List.any_eq_true.mpr ⟨p, hmem, hrel⟩)

theorem validDataPaths_eq_ok {raws : List Text} (hv : validDataPaths h config fields paths = .ok found)
    (ha : Accepted raws paths) : Accepted (raws ++ dataTexts config fields) found := by
  induction fields generalizing paths raws
  case nil =>
    cases hv
    simpa [dataTexts] using ha
  case cons f fields hi =>
    unfold validDataPaths at hv
    obtain ⟨p, hp, hv⟩ := Except.bind_eq_ok_iff.mp hv
    obtain ⟨outside, hv⟩ := Except.ite_throw_eq_ok_iff.mp hv
    obtain ⟨apart, hv⟩ := Except.ite_throw_eq_ok_iff.mp hv
    obtain ⟨raw, text, matched, rfl, root⟩ := validPath_eq_ok hp
    have := hi hv (ha.push matched root outside apart)
    simpa [dataTexts, text] using this

theorem accepted_of_validate (hv : validate h config = .ok v) : Accepted (dataTexts config dataFields) v.dataPaths := by
  unfold validate at hv
  obtain ⟨_, hv⟩ := Except.ite_throw_eq_ok_iff.mp hv
  obtain ⟨_, _, hv⟩ := Except.bind_eq_ok_iff.mp hv
  obtain ⟨_, _, hv⟩ := Except.bind_eq_ok_iff.mp hv
  obtain ⟨_, _, hv⟩ := Except.bind_eq_ok_iff.mp hv
  obtain ⟨_, hv⟩ := Except.ite_throw_eq_ok_iff.mp hv
  obtain ⟨_, _, hv⟩ := Except.bind_eq_ok_iff.mp hv
  obtain ⟨_, hv⟩ := Except.ite_throw_eq_ok_iff.mp hv
  obtain ⟨_, _, hv⟩ := Except.bind_eq_ok_iff.mp hv
  obtain ⟨_, _, hv⟩ := Except.bind_eq_ok_iff.mp hv
  obtain ⟨found, directories, hv⟩ := Except.bind_eq_ok_iff.mp hv
  obtain ⟨_, _, hv⟩ := Except.bind_eq_ok_iff.mp hv
  obtain ⟨_, _, hv⟩ := Except.bind_eq_ok_iff.mp hv
  cases hv
  have start : Accepted [] [] := ⟨rfl, by simp, by simp, by simp, List.Pairwise.nil⟩
  exact validDataPaths_eq_ok directories start

-- Directories that may be changed: none is the root, two are apart, and all are apart from the installation.
structure Safe (directories : List (List Text)) : Prop where
  root    : ∀ d ∈ directories, d ≠ []
  outside : ∀ d ∈ directories, ¬Nested d install.tail
  apart   : directories.Pairwise fun a b => ¬Nested a b

-- What the comparison of paths does not see.
structure Settled (raws : List Text) : Prop where
  root    : ∀ raw ∈ raws, Path.doubled raw → Path.components raw ≠ []
  outside : ∀ raw ∈ raws, Path.doubled raw → ¬Nested (Path.components raw) install.tail
  apart   : raws.Pairwise fun a b => Path.doubled a ≠ Path.doubled b → ¬Nested (Path.components a) (Path.components b)

theorem pathLaw_iff (hv : validate h config = .ok v) :
    Safe ((dataTexts config dataFields).map Path.components) ↔ Settled (dataTexts config dataFields) := by
  have ha := accepted_of_validate hv
  generalize dataTexts config dataFields = raws at ha
  have member {raw : Text} (hr : raw ∈ raws) : Path.parse raw ∈ v.dataPaths := ha.parsed ▸ List.mem_map_of_mem hr
  have single {raw : Text} (hr : raw ∈ raws) (hd : ¬Path.doubled raw) : (Path.parse raw).root = ['/'] := by
    rw [Path.root_parse (ha.matched raw hr), if_neg hd]
  constructor
  case mp =>
    intro safe
    refine ⟨fun raw hr _ => ?_, fun raw hr _ => ?_, ?_⟩
    case refine_1 => exact safe.root _ (List.mem_map_of_mem hr)
    case refine_2 => exact safe.outside _ (List.mem_map_of_mem hr)
    case refine_3 =>
      refine (List.pairwise_map.mp safe.apart).imp ?_
      intro a b apart _
      exact apart
  case mpr =>
    intro settled
    constructor
    case root =>
      intro d hd
      obtain ⟨raw, hr, rfl⟩ := List.mem_map.mp hd
      by_cases doubled : Path.doubled raw
      case pos => exact settled.root raw hr doubled
      case neg =>
        intro empty
        refine ha.root _ (member hr) ?_
        have tail := Path.tail_parse raw
        have root := single hr doubled
        cases hp : Path.parse raw
        simp_all
        rfl
    case outside =>
      intro d hd
      obtain ⟨raw, hr, rfl⟩ := List.mem_map.mp hd
      by_cases doubled : Path.doubled raw
      case pos => exact settled.outside raw hr doubled
      case neg =>
        intro nested
        refine ha.outside _ (member hr) (related_iff.mpr ⟨single hr doubled, ?_⟩)
        rwa [Path.tail_parse]
    case apart =>
      have apart := ha.apart
      rw [ha.parsed, List.pairwise_map] at apart
      rw [List.pairwise_map]
      refine (apart.and settled.apart).imp_of_mem ?_
      intro a b hma hmb facts nested
      by_cases same : Path.doubled a = Path.doubled b
      case pos =>
        refine facts.left (related_iff.mpr ⟨?_, ?_⟩)
        · rw [Path.root_parse (ha.matched a hma), Path.root_parse (ha.matched b hmb), same]
        · rw [Path.tail_parse, Path.tail_parse]
          exact nested.symm
      case neg => exact facts.right same nested

def server : Host where
  isSymlink _ := false
  token       := []
  render _    := []

def stored (storage : String) : Config :=
  [("host", .str "example.com".toList), ("email", .str "me@example.com".toList),
   ("owner_password", .str "correct horse battery".toList), ("storage", .str storage.toList)]

def validated (storage : String) : Validated where
  host          := "example.com".toList
  tls           := "acme".toList
  email         := .str "me@example.com".toList
  ownerPassword := "correct horse battery".toList
  mediaIndexing := false
  dataPaths     := [.parse storage.toList, .parse "/var/lib/my-drive/postgres".toList,
    .parse "/var/lib/my-drive/previews".toList]
  numbers       := [100, 5, 5, 30]
  images        := []

theorem pathLaw_stored : Safe ((dataTexts (stored "/srv//data") dataFields).map Path.components) ↔
    Settled (dataTexts (stored "/srv//data") dataFields) :=
  @pathLaw_iff server (stored "/srv//data") (validated "/srv//data") rfl

theorem not_pathLaw : ¬∀ (h : Host) (config : Config) (v : Validated), validate h config = .ok v →
    Safe ((dataTexts config dataFields).map Path.components) := by
  intro law
  have safe := law server (stored "//opt/my-drive") (validated "//opt/my-drive") rfl
  exact safe.outside install.tail List.mem_cons_self (.inl List.prefix_rfl)

end MyDrive.Installer
