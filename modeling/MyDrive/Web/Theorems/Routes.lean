import Mathlib.Data.List.Chain
import MyDrive.Web.Routes

-- What is read from an address that has been written.

namespace MyDrive.Web

variable {text id name : Text} {params : URLSearchParams} {parts : List Text}

-- The parameters of a query.
namespace URLSearchParams

variable {p : Text × Text} {key key' : String} {value : Text} {given : Bool}

theorem get_set : (params.set key value).get key' = if key' = key then some value else params.get key' := by
  have same : key.toList = key'.toList ↔ key' = key := by
    rw [String.toList_inj]
    exact eq_comm
  induction params
  case nil =>
    simp only [set, get, List.find?_cons, List.find?_nil, same]
    split <;> simp_all
  case cons p params ih =>
    rw [set]
    split
    case isTrue hp =>
      by_cases hk : key' = key
      case pos => simp [get, hk]
      case neg =>
        have other : (params.filter (·.1 ≠ key.toList)).find? (·.1 = key'.toList) =
            params.find? (·.1 = key'.toList) := by
          rw [List.find?_filter]
          congr 1
          funext q
          by_cases hq : q.1 = key'.toList
          case pos =>
            have ne : key'.toList ≠ key.toList := fun he => hk (String.toList_inj.mp he)
            simp [hq, ne]
          case neg => simp [hq]
        have first : p.1 ≠ key'.toList := fun he => hk (String.toList_inj.mp (he.symm.trans hp))
        simp only [get, List.find?_cons, same, hk, first, decide_false, if_false]
        rw [other]
    case isFalse hp =>
      by_cases he : p.1 = key'.toList
      case pos =>
        have hk : key' ≠ key := by
          rintro rfl
          exact hp he
        simp [get, he, hk]
      case neg =>
        simp only [get, List.find?_cons, he, decide_false]
        exact ih

theorem get_setIf : (params.setIf given key value).get key' =
    if given ∧ key' = key then some value else params.get key' := by
  cases given
  case false => simp [setIf]
  case true  => simp [setIf, get_set]

theorem get_nil : get [] key = none :=
  rfl

theorem not_mem_serialize {c : Char} (h : c = '&' ∨ c = '=') : c ∉ serialize text := by
  intro mem
  obtain ⟨d, hd, he⟩ := List.mem_map.mp mem
  split at he
  case isTrue => rcases h with rfl | rfl <;> exact absurd he (by decide)
  case isFalse =>
    subst he
    revert hd
    rcases h with rfl | rfl <;> exact Percent.not_mem_encode (by decide) (by decide)

variable [Browser]

theorem deserialize_serialize : deserialize (serialize text) = text := by
  have back : (serialize text).map (fun c => if c = '+' then ' ' else c) =
      Percent.encode (fun c => c.isAlphanum || c ∈ "*-._ ".toList) text := by
    rw [serialize, List.map_map]
    refine (List.map_congr_left fun c hc => ?_).trans (List.map_id _)
    have plus : c ≠ '+' := by
      rintro rfl
      exact Percent.not_mem_encode (by decide) (by decide) hc
    by_cases space : c = ' '
    case pos => simp [space]
    case neg => simp [space, plus]
  rw [deserialize, back, Percent.decode_encode (by decide), Percent.ofUtf8_utf8]
  rfl

theorem parse_toString : parse params.toString = params := by
  by_cases empty : params = []
  case pos =>
    subst empty
    rfl
  case neg =>
    have apart : ∀ part ∈ params.map (fun p => serialize p.1 ++ '=' :: serialize p.2), '&' ∉ part := by
      intro part hp
      obtain ⟨p, -, rfl⟩ := List.mem_map.mp hp
      simp [not_mem_serialize (.inl rfl)]
    have nonempty : ∀ part ∈ params.map (fun p => serialize p.1 ++ '=' :: serialize p.2), part ≠ [] := by
      intro part hp
      obtain ⟨p, -, rfl⟩ := List.mem_map.mp hp
      simp
    rw [parse, toString, List.splitOn_intercalate _ apart (by simpa using empty),
      List.filter_eq_self.mpr (by simpa using nonempty), List.map_map]
    refine (List.map_congr_left fun p _ => ?_).trans (List.map_id _)
    have before : ∀ c ∈ serialize p.1, decide (c ≠ '=') = true := by
      intro c hc
      rw [decide_eq_true_eq]
      rintro rfl
      exact not_mem_serialize (.inr rfl) hc
    rw [Function.comp_apply, List.takeWhile_append_of_pos before, List.dropWhile_append_of_pos before]
    simp [deserialize_serialize]

end URLSearchParams

-- The path and the query of an address.
section

theorem not_mem_encodeURIComponent {c : Char} (h : c = '/' ∨ c = '?') : c ∉ encodeURIComponent text := by
  rcases h with rfl | rfl <;> exact Percent.not_mem_encode (by decide) (by decide)

theorem decodeURIComponent_encodeURIComponent : decodeURIComponent (encodeURIComponent text) = some text := by
  rw [decodeURIComponent, encodeURIComponent, Percent.decode?_encode (by decide), Option.bind_some,
    Percent.ofUtf8_utf8]

theorem splitPath_joinPath (hp : parts ≠ []) (hn : ∀ part ∈ parts, part ≠ []) :
    splitPath (joinPath parts) = parts := by
  have apart : ∀ part ∈ parts.map encodeURIComponent, '/' ∉ part := by
    intro part h
    obtain ⟨p, -, rfl⟩ := List.mem_map.mp h
    exact not_mem_encodeURIComponent (.inl rfl)
  have nonempty : ∀ part ∈ parts.map encodeURIComponent, part ≠ [] := by
    intro part h
    obtain ⟨p, hp, rfl⟩ := List.mem_map.mp h
    exact fun none => hn p hp (Percent.encode_eq_nil_iff.mp none)
  have split : (joinPath parts).splitOn '/' = [] :: parts.map encodeURIComponent := by
    have := List.splitOn_append_cons_self (a := '/') [] (List.intercalate ['/'] (parts.map encodeURIComponent))
    rw [List.splitOn_intercalate _ apart (by simpa using hp)] at this
    exact this
  rw [splitPath, split, List.filter_cons_of_neg (by simp), List.filter_eq_self.mpr (by simpa using nonempty),
    List.map_map]
  refine (List.map_congr_left fun p _ => ?_).trans (List.map_id _)
  rw [Function.comp_apply, decodeURIComponent_encodeURIComponent]
  rfl

theorem not_mem_intercalate {separator c : Char} (hc : c ≠ separator) (hn : ∀ part ∈ parts, c ∉ part) :
    c ∉ List.intercalate [separator] parts := by
  induction parts
  case nil => simp
  case cons part parts ih =>
    have rest := ih fun p hp => hn p (List.mem_cons_of_mem _ hp)
    have first := hn part List.mem_cons_self
    cases parts
    case nil => simpa using first
    case cons => simp [List.intercalate_cons_cons, hc, first, rest]

theorem not_mem_joinPath : '?' ∉ joinPath parts := by
  intro mem
  rcases List.mem_cons.mp mem with he | mem
  case inl => exact absurd he (by decide)
  case inr =>
    refine not_mem_intercalate (by decide) (fun part hp => ?_) mem
    obtain ⟨p, -, rfl⟩ := List.mem_map.mp hp
    exact not_mem_encodeURIComponent (.inr rfl)

theorem pathnameOf_append {query : Text} : pathnameOf (joinPath parts ++ suffixed query) = joinPath parts := by
  have before : ∀ c ∈ joinPath parts, decide (c ≠ '?') = true := by
    intro c hc
    rw [decide_eq_true_eq]
    rintro rfl
    exact not_mem_joinPath hc
  rw [pathnameOf, List.takeWhile_append_of_pos before, suffixed]
  split <;> simp

theorem splitPath_pathnameOf (hp : parts ≠ []) (hn : ∀ part ∈ parts, part ≠ []) {query : Text} :
    splitPath (pathnameOf (joinPath parts ++ suffixed query)) = parts := by
  rw [pathnameOf_append, splitPath_joinPath hp hn]

theorem searchOf_append {query : Text} : searchOf (joinPath parts ++ suffixed query) = suffixed query := by
  have before : ∀ c ∈ joinPath parts, decide (c ≠ '?') = true := by
    intro c hc
    rw [decide_eq_true_eq]
    rintro rfl
    exact not_mem_joinPath hc
  rw [searchOf, List.dropWhile_append_of_pos before, suffixed]
  split <;> simp

theorem searchParams_suffixed [Browser] : searchParams (suffixed params.toString) = params := by
  rw [searchParams, suffixed]
  split
  case isTrue none =>
    have : params = [] := by
      rw [← params.parse_toString, none]
      rfl
    subst this
    rfl
  case isFalse => simp [URLSearchParams.parse_toString]

end

-- Ids, and the segments that end in one.
section

theorem ascii_of_isHex {c : Char} (h : isHex c) : c.toNat < 128 := by
  simp only [isHex, Char.isDigit, Bool.or_eq_true, Bool.and_eq_true, decide_eq_true_eq, Char.le_def,
    UInt32.le_iff_toNat_le] at h
  change c.val.toNat < 128
  rcases h with (⟨-, h⟩ | ⟨-, h⟩) | ⟨-, h⟩
  · exact Nat.lt_of_le_of_lt h (by decide)
  · exact Nat.lt_of_le_of_lt h (by decide)
  · exact Nat.lt_of_le_of_lt h (by decide)

theorem isHex_toLower {c : Char} (h : isHex c) : isHex c.toLower ∧ c.toLower.toLower = c.toLower ∧ c ≠ '-' := by
  have all : ∀ n < 128, isHex (.ofNat n) → isHex (Char.ofNat n).toLower ∧
      (Char.ofNat n).toLower.toLower = (Char.ofNat n).toLower ∧ Char.ofNat n ≠ '-' := by
    decide +kernel
  have := all c.toNat (ascii_of_isHex h)
  rw [Char.ofNat_toNat] at this
  exact this h

variable {pattern : List Bool}

theorem ascii_of_go (h : isUuid.go pattern id) : ∀ c ∈ id, c.toNat < 128 := by
  induction pattern generalizing id
  case nil =>
    cases id
    case nil  => simp
    case cons => cases h
  case cons d pattern ih =>
    cases id
    case nil => cases h
    case cons c id =>
      rw [isUuid.go, Bool.and_eq_true] at h
      refine List.forall_mem_cons.mpr ⟨?_, ih h.right⟩
      cases d
      case true => exact ascii_of_isHex h.left
      case false =>
        cases of_decide_eq_true h.left
        decide

theorem go_toLower (h : isUuid.go pattern id) :
    isUuid.go pattern (id.map Char.toLower) ∧ (id.map Char.toLower).map Char.toLower = id.map Char.toLower := by
  induction pattern generalizing id
  case nil =>
    cases id
    case nil  => exact ⟨rfl, rfl⟩
    case cons => cases h
  case cons d pattern ih =>
    cases id
    case nil => cases h
    case cons c id =>
      rw [isUuid.go, Bool.and_eq_true] at h
      obtain ⟨rest, again⟩ := ih h.right
      cases d
      case true =>
        obtain ⟨hex, same, -⟩ := isHex_toLower h.left
        simp only [List.map_cons, isUuid.go, if_true, hex, Bool.true_and, rest, same, again, and_self]
      case false =>
        cases of_decide_eq_true h.left
        exact ⟨rest, congrArg ('-' :: ·) again⟩

theorem sliceAfterLast_of_go (hp : pattern.IsChain fun d e : Bool => (d || e) = true)
    (h : isUuid.go pattern id) : sliceAfterLast id = none := by
  induction pattern generalizing id
  case nil =>
    cases id
    case nil  => rfl
    case cons => cases h
  case cons d pattern ih =>
    cases id
    case nil => cases h
    case cons c id =>
      rw [isUuid.go, Bool.and_eq_true] at h
      rw [sliceAfterLast, ih hp.tail h.right]
      dsimp only
      rw [if_neg]
      intro hyphens
      rw [Bool.and_eq_true, decide_eq_true_eq, decide_eq_true_eq] at hyphens
      obtain ⟨rfl, next⟩ := hyphens
      obtain ⟨rest, rfl⟩ := List.head?_eq_some_iff.mp next
      cases pattern
      case nil => cases h.right
      case cons e pattern =>
        have apart := (List.isChain_cons_cons.mp hp).left
        have second := h.right
        rw [isUuid.go, Bool.and_eq_true] at second
        cases d <;> cases e
        case false.false => simp at apart
        case false.true => exact absurd second.left (by decide)
        case true.false => exact absurd h.left (by decide)
        case true.true => exact absurd h.left (by decide)

theorem isUuid_head (h : isUuid id) : id.head? ≠ some '-' := by
  intro hyphen
  obtain ⟨rest, rfl⟩ := List.head?_eq_some_iff.mp hyphen
  cases h

theorem sliceAfterLast_append (h : isUuid id) : sliceAfterLast (text ++ '-' :: '-' :: id) = some id := by
  induction text
  case nil =>
    have none := sliceAfterLast_of_go (by decide) h
    have first : sliceAfterLast ('-' :: id) = Option.none := by
      rw [sliceAfterLast, none]
      simp [isUuid_head h]
    rw [List.nil_append, sliceAfterLast, first]
    rfl
  case cons c text ih => rw [List.cons_append, sliceAfterLast, ih]

theorem given_uuid {id : Option Text} (h : ∀ x ∈ id, isUuid x) : given id = id.toList := by
  cases id
  case none => rfl
  case some x =>
    have nonempty : x ≠ [] := by
      rintro rfl
      exact absurd (h [] rfl) (by decide)
    simp [given, nonempty]

variable [Browser]

theorem toLowerCase_uuid (h : isUuid id) :
    isUuid (toLowerCase id) ∧ toLowerCase (toLowerCase id) = toLowerCase id := by
  obtain ⟨uuid, again⟩ := go_toLower h
  have lower : toLowerCase id = id.map Char.toLower := Browser.toLowerCase_ascii (ascii_of_go h)
  have lower' : toLowerCase (id.map Char.toLower) = (id.map Char.toLower).map Char.toLower :=
    Browser.toLowerCase_ascii (ascii_of_go uuid)
  rw [lower, lower', again]
  exact ⟨uuid, rfl⟩

theorem idFromSegment_segmentFor (h : isUuid id) :
    idFromSegment (segmentFor name id) = some (toLowerCase id) := by
  obtain ⟨uuid, again⟩ := toLowerCase_uuid h
  have slice : sliceAfterLast (segmentFor name id) = some (toLowerCase id) := by
    rw [segmentFor, List.append_assoc]
    exact sliceAfterLast_append uuid
  rw [idFromSegment, slice, Option.bind_some, if_pos uuid, again]

theorem mapM_idFromSegment {folders : List NamedEntry} (h : ∀ folder ∈ folders, isUuid folder.id) :
    (folders.map fun folder => segmentFor folder.name folder.id).mapM idFromSegment =
      some (folders.map fun folder => toLowerCase folder.id) := by
  induction folders
  case nil => rfl
  case cons folder folders ih =>
    obtain ⟨first, rest⟩ := List.forall_mem_cons.mp h
    rw [List.map_cons, List.mapM_cons, idFromSegment_segmentFor first, ih rest]
    rfl

theorem segmentFor_ne_nil : segmentFor name id ≠ [] := by
  simp [segmentFor]

theorem uuidOf_uuid {id : Option Text} (h : ∀ x ∈ id, isUuid x) : uuidOf id = id.map toLowerCase := by
  cases id
  case none   => rfl
  case some x => rw [uuidOf, Option.filter_some, if_pos (h x rfl)]

end

-- The fields that are read from the query.
section

theorem getD_given : (if text = [] then none else some text).getD [] = text := by
  by_cases h : text = [] <;> simp [h]

variable [Browser] {route : DriveRoute} {folderPath : List Text}

theorem get_panel : (driveParams route folderPath).get "panel" =
    if keepsPanel route folderPath then route.panel.map (·.text.toList) else none := by
  cases h : route.panel
  all_goals simp [h, driveParams, writeFilters, setFile, URLSearchParams.get_setIf, URLSearchParams.get_nil]

theorem get_query : (driveParams route folderPath).get "q" =
    if route.query = [] then none else some route.query := by
  simp [driveParams, writeFilters, setFile, URLSearchParams.get_setIf, URLSearchParams.get_nil]

theorem get_file : (driveParams route folderPath).get "file" =
    if given route.fileId = [] then none else some (toLowerCase (route.fileId.getD [])) := by
  simp [driveParams, writeFilters, setFile, URLSearchParams.get_setIf, URLSearchParams.get_nil]

theorem get_sort : (driveParams route folderPath).get "sort" =
    if route.sort = .name then none else some route.sort.text.toList := by
  simp [driveParams, writeFilters, setFile, URLSearchParams.get_setIf, URLSearchParams.get_nil]

theorem get_order : (driveParams route folderPath).get "order" =
    if route.order = .asc then none else some route.order.text.toList := by
  simp [driveParams, writeFilters, setFile, URLSearchParams.get_setIf, URLSearchParams.get_nil]

theorem filtersFromSearch_driveParams : filtersFromSearch (driveParams route folderPath) = route.filters := by
  simp [filtersFromSearch, driveParams, writeFilters, setFile, URLSearchParams.get_setIf,
    URLSearchParams.get_nil, getD_given]

theorem panelFromSearch_driveParams : panelFromSearch (driveParams route folderPath) =
    if keepsPanel route folderPath then route.panel else none := by
  have find (panel : DrivePanel) :
      [DrivePanel.accounts, .faces, .indexing, .googleDrive, .security, .developer].find?
        (fun p => some panel.text.toList = some p.text.toList) = some panel := by
    cases panel <;> decide
  rw [panelFromSearch, get_panel]
  cases keepsPanel route folderPath
  case false => rfl
  case true =>
    cases route.panel
    case none => rfl
    case some panel => exact find panel

theorem sortFromSearch_driveParams : sortFromSearch (driveParams route folderPath) = route.sort := by
  rw [sortFromSearch, get_sort]
  cases route.sort <;> decide

theorem orderFromSearch_driveParams : orderFromSearch (driveParams route folderPath) = route.order := by
  rw [orderFromSearch, get_order]
  cases route.order <;> decide

theorem fileIdFromSearch_get {fileId : Option Text} (h : ∀ id ∈ fileId, isUuid id) (hg : params.get "file" =
    if given fileId = [] then none else some (toLowerCase (fileId.getD []))) :
    fileIdFromSearch params = fileId.map toLowerCase := by
  rw [fileIdFromSearch, hg, given_uuid h]
  cases fileId
  case none => rfl
  case some id =>
    obtain ⟨uuid, again⟩ := toLowerCase_uuid (h id rfl)
    simp only [Option.toList_some, List.cons_ne_nil, if_false, Option.getD_some, uuidOf, Option.filter_some,
      uuid, if_true, Option.map_some, again]

theorem fileIdFromSearch_setFile {fileId : Option Text} (h : ∀ id ∈ fileId, isUuid id) :
    fileIdFromSearch (setFile [] fileId) = fileId.map toLowerCase := by
  refine fileIdFromSearch_get h ?_
  simp [setFile, URLSearchParams.get_setIf, URLSearchParams.get_nil]

end

-- The routes that are read from the addresses of routes.
section

def panelParts : Option DrivePanel → List Text
  | some .developer => ["settings".toList, "developer".toList]
  | some panel      => [panel.text.toList]
  | none            => ["drive".toList]

theorem panelPath_eq (panel : Option DrivePanel) :
    panelPath panel = joinPath (panelParts panel) ++ suffixed (URLSearchParams.toString []) := by
  cases panel
  case none       => decide
  case some panel => cases panel <;> decide

variable [Browser] {route : DriveRoute} {folders : List NamedEntry}

theorem searchParams_searchOf :
    searchParams (searchOf (joinPath parts ++ suffixed params.toString)) = params := by
  rw [searchOf_append, searchParams_suffixed]

theorem driveParams_eq_nil (h : ¬keepsPanel route []) (hs : route.sort = .name) (ho : route.order = .asc) :
    driveParams route [] = [] := by
  simp only [keepsPanel, hasActiveFilters, Bool.or_eq_true, decide_eq_true_eq, not_or, List.length_nil,
    gt_iff_lt, Nat.lt_irrefl, Decidable.not_not, Bool.not_eq_true] at h
  simp [driveParams, writeFilters, setFile, URLSearchParams.setIf, keepsPanel, hasActiveFilters, h, hs, ho]

theorem of_driveParams_eq_nil {folderPath : List Text} (h : driveParams route folderPath = []) :
    route.query = [] ∧ given route.fileId = [] ∧ route.sort = .name ∧ route.order = .asc ∧
      route.filters = {} := by
  have query := @get_query _ route folderPath
  have file := @get_file _ route folderPath
  have sort := @sortFromSearch_driveParams _ route folderPath
  have order := @orderFromSearch_driveParams _ route folderPath
  have filters := @filtersFromSearch_driveParams _ route folderPath
  rw [h] at query file sort order filters
  refine ⟨?_, ?_, sort.symm, order.symm, filters.symm⟩
  case refine_1 => by_contra some; simp [some, URLSearchParams.get_nil] at query
  case refine_2 => by_contra some; simp [some, URLSearchParams.get_nil] at file

theorem segments_ne_nil : ∀ part ∈ folders.map fun folder => segmentFor folder.name folder.id, part ≠ [] := by
  intro part hp
  obtain ⟨folder, -, rfl⟩ := List.mem_map.mp hp
  exact segmentFor_ne_nil

-- The part of `parseDriveRoute` that reads folders.
theorem parseDriveRoute_drive {folders : List NamedEntry} (h : ∀ folder ∈ folders, isUuid folder.id) :
    let href := joinPath ("drive".toList :: folders.map fun folder => segmentFor folder.name folder.id) ++
      suffixed params.toString
    parseDriveRoute (pathnameOf href) (searchOf href) =
      { folderIds := folders.map fun folder => toLowerCase folder.id
        panel     := panelFromSearch params
        query     := (params.get "q").getD []
        fileId    := fileIdFromSearch params
        sort      := sortFromSearch params
        order     := orderFromSearch params
        filters   := filtersFromSearch params } := by
  intro href
  rw [parseDriveRoute, splitPath_pathnameOf (by simp) (List.forall_mem_cons.mpr ⟨by decide, segments_ne_nil⟩),
    searchParams_searchOf]
  simp [mapM_idFromSegment h]

theorem parseDriveRoute_panelPath (panel : Option DrivePanel) :
    parseDriveRoute (pathnameOf (panelPath panel)) (searchOf (panelPath panel)) = { panel } := by
  have parts : panelParts panel ≠ [] ∧ ∀ part ∈ panelParts panel, part ≠ [] := by
    cases panel
    case none       => decide
    case some panel => cases panel <;> decide
  rw [panelPath_eq, parseDriveRoute, splitPath_pathnameOf parts.left parts.right, searchParams_searchOf]
  cases panel
  case none       => rfl
  case some panel => cases panel <;> simp [panelParts, DrivePanel.text]

-- What becomes of a route of the drive.
theorem parse_build_drive (h : route.section_ = .drive)
    (hd : route.albumId = none ∧ route.personId = none ∧ route.photosTab = .timeline)
    (hi : route.folderIds = folders.map fun folder => toLowerCase folder.id)
    (hu : ∀ folder ∈ folders, isUuid folder.id) (hf : ∀ id ∈ route.fileId, isUuid id) :
    let href := buildDrivePath route folders
    parseDriveRoute (pathnameOf href) (searchOf href) = { route with
      fileId := route.fileId.map toLowerCase
      panel  := if keepsPanel route (folders.map fun folder => segmentFor folder.name folder.id) ∨
        (route.sort = .name ∧ route.order = .asc) then route.panel else none } := by
  intro href
  simp only [href, buildDrivePath, h, List.length_map]
  split
  case isTrue short =>
    obtain ⟨none, empty⟩ := short
    cases List.length_eq_zero_iff.mp none
    have params : driveParams route [] = URLSearchParams.parse (driveParams route []).toString :=
      URLSearchParams.parse_toString.symm
    rw [show (driveParams route []).toString = [] from empty] at params
    obtain ⟨query, file, sort, order, filters⟩ := of_driveParams_eq_nil params
    rw [given_uuid hf, Option.toList_eq_nil_iff] at file
    rw [parseDriveRoute_panelPath, if_pos (.inr ⟨sort, order⟩)]
    obtain ⟨album, person, tab⟩ := hd
    cases route
    simp only at h hi query file sort order filters album person tab
    subst h
    simp [hi, query, file, sort, order, filters, album, person, tab]
  case isFalse long =>
    have panel :
        (if keepsPanel route (folders.map fun folder => segmentFor folder.name folder.id) then route.panel
          else none) =
        if keepsPanel route (folders.map fun folder => segmentFor folder.name folder.id) ∨
          (route.sort = .name ∧ route.order = .asc) then route.panel else none := by
      by_cases keeps : keepsPanel route (folders.map fun folder => segmentFor folder.name folder.id)
      case pos => simp [keeps]
      case neg =>
        have plain : ¬(route.sort = .name ∧ route.order = .asc) := by
          rintro ⟨sort, order⟩
          have none : folders = [] := by
            by_contra some
            exact keeps (by simp [keepsPanel, List.length_pos_iff.mpr some])
          subst none
          exact long ⟨rfl, congrArg URLSearchParams.toString (driveParams_eq_nil keeps sort order)⟩
        rw [if_neg keeps, if_neg (not_or.mpr ⟨keeps, plain⟩)]
    rw [parseDriveRoute_drive hu, panelFromSearch_driveParams, fileIdFromSearch_get hf get_file,
      sortFromSearch_driveParams, orderFromSearch_driveParams, filtersFromSearch_driveParams, get_query,
      getD_given, panel]
    obtain ⟨album, person, tab⟩ := hd
    cases route
    simp only at h hi album person tab
    simp [h, hi, album, person, tab]

-- What becomes of a route of the photos.
theorem parse_build_photos (h : route.section_ = .photos) (hd : Fits route)
    (hf : ∀ id ∈ route.fileId, isUuid id) (ha : ∀ id ∈ route.albumId, isUuid id) (hp : ∀ id ∈ route.personId, isUuid id) :
    let href := buildDrivePath route folders
    parseDriveRoute (pathnameOf href) (searchOf href) = { route with
      fileId   := route.fileId.map toLowerCase
      albumId  := route.albumId.map toLowerCase
      personId := route.personId.map toLowerCase } := by
  intro href
  have unused := hd.resolve_left fun drive => by cases h.symm.trans drive.left
  obtain ⟨-, ids, panel, query, sort, order, filters, notPeople, notAlbums⟩ := unused
  simp only [href, buildDrivePath, h]
  have nonempty {id : Option Text} : ∀ part ∈ given id, part ≠ [] := by
    intro part hp
    exact of_decide_eq_true (Option.filter_eq_some_iff.mp (Option.mem_toList.mp hp)).right
  have names {first second : Text} {rest : List Text} (hf : first ≠ []) (hs : second ≠ [])
      (hr : ∀ part ∈ rest, part ≠ []) : ∀ part ∈ first :: second :: rest, part ≠ [] :=
    List.forall_mem_cons.mpr ⟨hf, List.forall_mem_cons.mpr ⟨hs, hr⟩⟩
  have third {id : Option Text} (hi : ∀ x ∈ id, isUuid x) : uuidOf (given id)[0]? = id.map toLowerCase := by
    rw [given_uuid hi, ← uuidOf_uuid hi]
    cases id <;> rfl
  cases tab : route.photosTab
  case timeline =>
    have person := notPeople (by simp [tab])
    have album := notAlbums (by simp [tab])
    rw [parseDriveRoute, splitPath_pathnameOf (by simp) (by simp), searchParams_searchOf,
      fileIdFromSearch_setFile hf]
    cases route
    simp only at h ids panel query sort order filters person album tab
    subst h tab
    simp [ids, panel, query, sort, order, filters, person, album]
  case people =>
    have album := notAlbums (by simp [tab])
    rw [parseDriveRoute, splitPath_pathnameOf (by simp) (names (by decide) (by decide) nonempty),
      searchParams_searchOf, fileIdFromSearch_setFile hf]
    cases route
    simp only at h hp ids panel query sort order filters album tab
    subst h tab
    simp [ids, panel, query, sort, order, filters, album, third hp]
  case albums =>
    have person := notPeople (by simp [tab])
    rw [parseDriveRoute, splitPath_pathnameOf (by simp) (names (by decide) (by decide) nonempty),
      searchParams_searchOf, fileIdFromSearch_setFile hf]
    cases route
    simp only at h ha ids panel query sort order filters person tab
    subst h tab
    simp [ids, panel, query, sort, order, filters, person, third ha]

theorem lowered_iff {id : Option Text} : id.map toLowerCase = id ↔ Lowered id := by
  cases id <;> simp [Lowered]

theorem keepsPanel_iff (hi : route.folderIds = folders.map fun folder => toLowerCase folder.id)
    (hf : ∀ id ∈ route.fileId, isUuid id) :
    keepsPanel route (folders.map fun folder => segmentFor folder.name folder.id) ↔
      route.folderIds ≠ [] ∨ route.query ≠ [] ∨ route.fileId ≠ none ∨ hasActiveFilters route.filters := by
  rw [keepsPanel, given_uuid hf, hi]
  simp [List.length_pos_iff, or_assoc]

theorem parse_build_iff (h : Proper route folders) :
    let href := buildDrivePath route folders
    parseDriveRoute (pathnameOf href) (searchOf href) = route ↔
      Lowered route.fileId ∧ Lowered route.albumId ∧ Lowered route.personId ∧ PanelKept route := by
  intro href
  rcases h.fits with ⟨drive, unused⟩ | ⟨photos, -, none, -⟩
  case inl =>
    have fields {fileId : Option Text} {panel : Option DrivePanel} :
        ({ route with fileId, panel } : DriveRoute) = route ↔ fileId = route.fileId ∧ panel = route.panel := by
      cases route
      simp [and_comm]
    have kept {p : Prop} [Decidable p] :
        (if p then route.panel else none) = route.panel ↔ route.panel = none ∨ p := by
      by_cases hp : p <;> simp [hp, eq_comm]
    rw [parse_build_drive drive unused h.folderIds h.entryId h.fileId, fields, kept, lowered_iff,
      keepsPanel_iff h.folderIds h.fileId]
    simp [unused.left, unused.right.left, Lowered, PanelKept, or_assoc]
  case inr =>
    have fields {fileId albumId personId : Option Text} :
        ({ route with fileId, albumId, personId } : DriveRoute) = route ↔
          fileId = route.fileId ∧ albumId = route.albumId ∧ personId = route.personId := by
      cases route
      simp
    rw [parse_build_photos photos h.fits h.fileId h.albumId h.personId, fields, lowered_iff, lowered_iff,
      lowered_iff]
    simp [PanelKept, none]

theorem parsePublicRoute_buildPublicPath {token : Text} {fileId : Option Text} (ht : token ≠ [])
    (hu : ∀ folder ∈ folders, isUuid folder.id) (hf : ∀ id ∈ fileId, isUuid id) :
    let href := buildPublicPath token folders fileId
    parsePublicRoute (pathnameOf href) (searchOf href) = some {
      token
      folderIds := folders.map fun folder => toLowerCase folder.id
      fileId    := fileId.map toLowerCase } := by
  intro href
  have parts : ∀ part ∈ "s".toList :: token :: folders.map fun folder => segmentFor folder.name folder.id,
      part ≠ [] :=
    List.forall_mem_cons.mpr ⟨by decide, List.forall_mem_cons.mpr ⟨ht, segments_ne_nil⟩⟩
  simp only [href, buildPublicPath]
  rw [parsePublicRoute, splitPath_pathnameOf (by simp) parts, searchParams_searchOf,
    fileIdFromSearch_setFile hf]
  simp [ht, mapM_idFromSegment hu]

theorem routes_restored_iff {shared : List NamedEntry} {token : Text} {fileId : Option Text}
    (h : Proper route folders) (ht : token ≠ []) (hu : ∀ folder ∈ shared, isUuid folder.id)
    (hf : ∀ id ∈ fileId, isUuid id) :
    (parseDriveRoute (pathnameOf (buildDrivePath route folders)) (searchOf (buildDrivePath route folders)) =
        route ↔ Lowered route.fileId ∧ Lowered route.albumId ∧ Lowered route.personId ∧ PanelKept route) ∧
    (parsePublicRoute (pathnameOf (buildPublicPath token shared fileId))
        (searchOf (buildPublicPath token shared fileId)) =
      some { token, folderIds := shared.map fun folder => toLowerCase folder.id, fileId } ↔ Lowered fileId) := by
  refine ⟨parse_build_iff h, ?_⟩
  rw [parsePublicRoute_buildPublicPath ht hu hf, ← lowered_iff]
  simp

end

-- A browser whose letters are those of ASCII.
abbrev asciiBrowser : Browser where
  normalizeNFC text   := text
  toLowerCase text    := text.map Char.toLower
  isLetterOrNumber    := Char.isAlphanum
  replaceInvalid _    := []
  toLowerCase_ascii _ := rfl

def albumFolder : NamedEntry where
  id   := "0B2FD9C4-1e8a-4a57-9c7d-0f6a2d3b4c5d".toList
  name := "Holidays & more".toList

def albumRoute : DriveRoute where
  folderIds := ["0b2fd9c4-1e8a-4a57-9c7d-0f6a2d3b4c5d".toList]
  panel     := some .faces
  sort      := .size

theorem routes_restored_album :
    letI := asciiBrowser
    parseDriveRoute (pathnameOf (buildDrivePath albumRoute [albumFolder]))
      (searchOf (buildDrivePath albumRoute [albumFolder])) = albumRoute := by
  let := asciiBrowser
  have proper : Proper albumRoute [albumFolder] := {
    fits      := .inl (by decide)
    fileId    := by simp [albumRoute]
    albumId   := by simp [albumRoute]
    personId  := by simp [albumRoute]
    entryId   := by decide
    folderIds := by decide }
  have restored := @routes_restored_iff asciiBrowser albumRoute [albumFolder] [] ['t'] none proper (by decide)
    (by simp) (by simp)
  refine restored.left.mpr ⟨?_, ?_, ?_, .inr (.inl (by decide))⟩ <;> simp [albumRoute, Lowered]

-- A panel over the entries of the drive, which are in another order.
def orderedPanel : DriveRoute where
  panel := some .faces
  sort  := .size

theorem not_restored_orderedPanel :
    letI := asciiBrowser
    Proper orderedPanel [] ∧
      parseDriveRoute (pathnameOf (buildDrivePath orderedPanel [])) (searchOf (buildDrivePath orderedPanel [])) =
        { sort := .size } := by
  let := asciiBrowser
  have proper : Proper orderedPanel [] := {
    fits      := .inl (by decide)
    fileId    := by simp [orderedPanel]
    albumId   := by simp [orderedPanel]
    personId  := by simp [orderedPanel]
    entryId   := by simp
    folderIds := rfl }
  refine ⟨proper, ?_⟩
  rw [parse_build_drive rfl ⟨rfl, rfl, rfl⟩ proper.folderIds proper.entryId proper.fileId]
  decide

end MyDrive.Web
