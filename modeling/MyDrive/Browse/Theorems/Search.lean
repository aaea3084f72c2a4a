import MyDrive.Browse.Search
import MyDrive.Drive.Theorems.Names

-- The search by days: its last day ends with its last whole second.

namespace MyDrive.Browse

open Calendar (dateText firstDay lastDay mem_dateText)
open Drive (trim isWhitespace)

variable {I : Type} {day first last t : Int}

-- `%Y-%m-%d` reads the days of the years from 0 to 9999, and a date alone is no instant of RFC 3339.
structure SearchTexts.Documented [SearchTexts] : Prop where
  date    : ∀ day, firstDay ≤ day → day ≤ lastDay → parseFromStr (dateText day) = some day
  rfc3339 : ∀ day, firstDay ≤ day → day ≤ lastDay → parseFromRfc3339 (dateText day) = none
  empty   : toLowercase [] = []

-- The date of an instant in UTC.
def utcDate (t : Int) : Int :=
  t / dayLength

-- The instants that the bounds of some days admit.
def admitted (first last t : Int) : Prop :=
  first * dayLength ≤ t ∧ t ≤ last * dayLength + endOfDay

theorem admitted_iff (h : t % dayLength ≤ endOfDay) : admitted first last t ↔ first ≤ utcDate t ∧ utcDate t ≤ last := by
  unfold admitted utcDate dayLength endOfDay at *
  omega

theorem early_of_admitted (h : admitted day day t) : utcDate t = day ∧ t % dayLength ≤ endOfDay := by
  unfold admitted utcDate dayLength endOfDay at *
  omega

theorem trim_dateText : trim (dateText day) = dateText day := by
  have visible : ∀ c ∈ dateText day, isWhitespace c = false := by
    intro c hc
    rcases mem_dateText hc with rfl | digit
    case inl => decide
    case inr =>
      simp only [isWhitespace, Bool.or_eq_false_iff, Bool.and_eq_false_iff, decide_eq_false_iff_not]
      omega
  exact Drive.trim_eq_self (fun c hc => visible c (List.mem_of_mem_head? hc))
    (fun c hc => visible c (List.mem_of_getLast? hc))

theorem dateText_ne_nil : dateText day ≠ [] := by
  simp [dateText]

theorem optionalInstant_date [SearchTexts] (hd : SearchTexts.Documented) (h : firstDay ≤ day) (h' : day ≤ lastDay)
    {atEnd : Bool} : optionalInstant (some (dateText day)) atEnd =
      .ok (some (day * dayLength + if atEnd then endOfDay else 0)) := by
  have given : (some (trim (dateText day))).filter (· ≠ []) = some (dateText day) := by
    rw [trim_dateText]
    exact Option.filter_some_pos (decide_eq_true dateText_ne_nil)
  rw [optionalInstant, Option.map_some, given]
  simp [parseInstant, hd.rfc3339 day h h', hd.date day h h', Except.map]

-- The two filters that take days.
inductive Stamp
  | created
  | updated

def Stamp.of (stamp : Stamp) (r : SearchRow I) : Int :=
  match stamp with
  | .created => r.createdAt
  | .updated => r.updatedAt

def dayQuery (stamp : Stamp) (first last : Int) : SearchQuery I :=
  match stamp with
  | .created => { createdFrom := some (dateText first), createdTo := some (dateText last) }
  | .updated => { modifiedFrom := some (dateText first), modifiedTo := some (dateText last) }

def dayBounds [SearchTexts] (stamp : Stamp) (first last : Int) : SearchBounds I :=
  let bounds : SearchBounds I := {
    term := SearchTexts.toLowercase [], category := none, mimePrefix := none, minSize := none, maxSize := none
    createdFrom := none, createdTo := none, modifiedFrom := none, modifiedTo := none, folderId := none
    sortColumn := .nameNormalized, descending := false, limit := defaultPageSize, offset := 0 }
  match stamp with
  | .created => { bounds with
    createdFrom := some (first * dayLength), createdTo := some (last * dayLength + endOfDay) }
  | .updated => { bounds with
    modifiedFrom := some (first * dayLength), modifiedTo := some (last * dayLength + endOfDay) }

theorem compileSearch_days [SearchTexts] (hd : SearchTexts.Documented) {stamp : Stamp} (hf : firstDay ≤ first)
    (ho : first ≤ last) (hl : last ≤ lastDay) :
    compileSearch (dayQuery stamp first last : SearchQuery I) = .ok (dayBounds stamp first last) := by
  have begins := @optionalInstant_date first _ hd hf (by omega) false
  have ends := @optionalInstant_date last _ hd (by omega) hl true
  cases stamp
  case created =>
    simp [compileSearch, dayQuery, begins, ends]
    rfl
  case updated =>
    simp [compileSearch, dayQuery, begins, ends]
    rfl

-- What a search without more filters is about.
structure Visible (db : SearchDb I) (user : I) (r : I × SearchRow I) : Prop where
  indexed : r ∈ db.index
  entry   : db.entries r.1
  owner   : r.2.ownerId = user
  kept    : r.2.deletedAt = none
  plain   : r.2.buried = false

section

variable [LinearOrder I] [SearchTexts] {db : SearchDb I} {user : I} {r : I × SearchRow I} {stamp : Stamp}

omit [SearchTexts] in
theorem mem_searchRows {bounds : SearchBounds I} :
    r ∈ db.searchRows user bounds ↔ r ∈ db.index ∧ db.selects user bounds r := by
  rw [SearchDb.searchRows, List.mem_mergeSort, List.mem_filter]

theorem mem_searchRows_days (hd : SearchTexts.Documented) (hr : Visible db user r) :
    r ∈ db.searchRows user (dayBounds stamp first last) ↔ admitted first last (stamp.of r.2) := by
  rw [mem_searchRows, and_iff_right hr.indexed]
  cases stamp <;> simp [SearchDb.selects, dayBounds, Stamp.of, admitted, hd.empty, hr.entry, hr.owner, hr.kept, hr.plain]

theorem found_iff (hd : SearchTexts.Documented) (hr : Visible db user r) (hf : firstDay ≤ day) (hl : day ≤ lastDay) :
    (∃ bounds, compileSearch (dayQuery stamp day day) = .ok bounds ∧ r ∈ db.searchRows user bounds) ↔
      admitted day day (stamp.of r.2) := by
  rw [← mem_searchRows_days hd hr, compileSearch_days hd hf le_rfl hl]
  constructor
  case mp =>
    rintro ⟨_, ⟨⟩, found⟩
    exact found
  case mpr => exact fun found => ⟨_, rfl, found⟩

-- An entry is found by the days that it belongs to, and by one of them alone.
structure DayLaw (db : SearchDb I) (user : I) (stamp : Stamp) (r : I × SearchRow I) : Prop where
  exact  : ∀ first last, firstDay ≤ first → first ≤ last → last ≤ lastDay →
    ∃ bounds, compileSearch (dayQuery stamp first last) = .ok bounds ∧
      (r ∈ db.searchRows user bounds ↔ first ≤ utcDate (stamp.of r.2) ∧ utcDate (stamp.of r.2) ≤ last)
  single : ∃! day, (firstDay ≤ day ∧ day ≤ lastDay) ∧
    ∃ bounds, compileSearch (dayQuery stamp day day) = .ok bounds ∧ r ∈ db.searchRows user bounds

theorem dayLaw_iff (hd : SearchTexts.Documented) (db : SearchDb I) (user : I) (stamp : Stamp)
    (r : I × SearchRow I) (hr : Visible db user r) : DayLaw db user stamp r ↔
      (firstDay ≤ utcDate (stamp.of r.2) ∧ utcDate (stamp.of r.2) ≤ lastDay) ∧
        stamp.of r.2 % dayLength ≤ endOfDay := by
  constructor
  case mp =>
    intro law
    obtain ⟨day, ⟨⟨hf, hl⟩, found⟩, -⟩ := law.single
    obtain ⟨rfl, early⟩ := early_of_admitted ((found_iff hd hr hf hl).mp found)
    exact ⟨⟨hf, hl⟩, early⟩
  case mpr =>
    rintro ⟨⟨hf, hl⟩, early⟩
    refine ⟨fun first last hf ho hl => ?_, utcDate (stamp.of r.2), ⟨⟨hf, hl⟩, ?_⟩, ?_⟩
    case refine_1 =>
      exact ⟨_, compileSearch_days hd hf ho hl, (mem_searchRows_days hd hr).trans (admitted_iff early)⟩
    case refine_2 => exact (found_iff hd hr hf hl).mpr ((admitted_iff early).mpr ⟨le_rfl, le_rfl⟩)
    case refine_3 =>
      rintro day ⟨⟨hf, hl⟩, found⟩
      exact (early_of_admitted ((found_iff hd hr hf hl).mp found)).left.symm

end

-- The parsers on the texts of dates, and an entry of the year 2024 at some time of its day.
abbrev plainTexts : SearchTexts where
  parseFromRfc3339 _ := none
  parseFromStr       := Calendar.readDate
  toLowercase        := id

attribute [local instance] plainTexts

theorem documented_plainTexts : SearchTexts.Documented :=
  ⟨fun _ h h' => Calendar.readDate_dateText h h', fun _ _ _ => rfl, rfl⟩

def entryAt (time : Int) : Nat × SearchRow Nat :=
  (1, {
    ownerId        := 0
    category       := .other
    createdAt      := 19844 * dayLength + time
    deletedAt      := none
    buried         := false
    nameNormalized := ['a']
    mimeType       := none
    sizeBytes      := 0
    updatedAt      := 19844 * dayLength + time })

def dayDb (time : Int) : SearchDb Nat where
  index            := [entryAt time]
  entries _        := true
  subtree _ _      := false
  activeFolder _ _ := false
  nameLe _ _       := true

theorem visible_entryAt {time : Int} : Visible (dayDb time) 0 (entryAt time) :=
  ⟨List.mem_singleton.mpr rfl, rfl, rfl, rfl, rfl⟩

theorem dayLaw_noon : DayLaw (dayDb 43200000000) 0 .created (entryAt 43200000000) :=
  (dayLaw_iff documented_plainTexts _ _ _ _ visible_entryAt).mpr (by decide +kernel)

-- Half a second before midnight.
theorem not_dayLaw : ¬ DayLaw (dayDb 86399500000) 0 .created (entryAt 86399500000) := by
  intro law
  obtain ⟨bounds, hb, found⟩ := law.exact 19844 19844 (by decide) le_rfl (by decide)
  have days := @compileSearch_days Nat 19844 19844 _ documented_plainTexts .created (by decide) le_rfl (by decide)
  cases days.symm.trans hb
  have inside := (mem_searchRows_days documented_plainTexts visible_entryAt).mp (found.mpr (by decide +kernel))
  exact absurd inside.right (by decide +kernel)

end MyDrive.Browse
