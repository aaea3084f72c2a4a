import Mathlib.Data.Prod.Lex
import Mathlib.Order.Fin.Basic
import MyDrive.Browse.Photos
import MyDrive.Drive.Theorems.Names
import MyDrive.Library.Except
import MyDrive.Library.Keyset

-- The pages of the photos of a user.

namespace MyDrive.Browse

open Drive (rsplitOnce rsplitOnce_append)
open Rfc3339

variable {I T : Type}

theorem parse_encode [UuidText I] [Rfc3339 T] (time : Rfc3339.Documented T) (uuid : UuidText.Documented I) {createdAt : T} {id : I}
    (h : 0 ≤ year createdAt) (h' : year createdAt ≤ 9999) :
    parseCursor (encodeCursor createdAt id) = .ok (createdAt, id) := by
  have split : rsplitOnce '|' (encodeCursor createdAt id) = some (toRfc3339 createdAt, UuidText.display id) :=
    rsplitOnce_append (uuid.digits id)
  simp [parseCursor, split, time _ h h', uuid.parse]
  rfl

-- The rows of the photos, and their order.
section

variable [LinearOrder I]

abbrev key (r : I × IndexRow I T) : T ×ₗ I :=
  toLex (r.2.createdAt, r.1)

def photos (index : Table I (IndexRow I T)) (user : I) : List (I × IndexRow I T) :=
  index.rows.filter fun r => isPhoto user r.2

theorem distinct_photos {index : Table I (IndexRow I T)} {user : I} :
    (photos index user).Pairwise (key · ≠ key ·) := by
  refine List.Pairwise.filter _ ((List.pairwise_map.mp index.nodup).imp fun apart same => apart ?_)
  exact congrArg (fun k => (ofLex k).2) same

theorem mem_photos {index : Table I (IndexRow I T)} {user id : I} {r : IndexRow I T} :
    (id, r) ∈ photos index user ↔ index.lookup id = some r ∧ isPhoto user r := by
  rw [photos, List.mem_filter, Table.lookup_eq_some_iff]

theorem key_eq_iff {index : Nat → Table I (IndexRow I T)} {user : I} {created : I → T}
    (lasting : Lasting index created) {n m : Nat} {r r' : I × IndexRow I T}
    (h : r ∈ photos (index n) user) (h' : r' ∈ photos (index m) user) : key r = key r' ↔ r.1 = r'.1 := by
  have ofR  := lasting n r.1 r.2 (mem_photos.mp h).left
  have ofR' := lasting m r'.1 r'.2 (mem_photos.mp h').left
  simp only [key, toLex_inj, Prod.mk.injEq, ofR, ofR']
  exact ⟨fun h => h.right, fun h => ⟨by rw [h], h⟩⟩

variable [LinearOrder T]

theorem isBefore_eq {cursor : Option (T ×ₗ I)} {r : I × IndexRow I T} :
    isBefore (cursor.map ofLex) r = cursor.all (key r < ·) := by
  cases cursor
  case none => rfl
  case some c =>
    rw [Bool.eq_iff_iff]
    simp [isBefore, key, Prod.Lex.lt_iff]

theorem newestFirst_eq : newestFirst = fun r r' : I × IndexRow I T => decide (key r' ≤ key r) := by
  funext r r'
  rw [Bool.eq_iff_iff]
  simp [newestFirst, key, Prod.Lex.le_iff]

end

variable [LinearOrder I] [LinearOrder T] [UuidText I] [Rfc3339 T]

section

variable {index : Table I (IndexRow I T)} {user : I} {limit : Option Nat} {l : Nat}

def encodePage (l : Nat) (p : Keyset.Page (I × IndexRow I T) (T ×ₗ I)) : PhotoPage I T where
  items      := p.items
  limit      := l
  nextCursor := p.next.map fun k => encodeCursor (ofLex k).1 (ofLex k).2

theorem listPhotos_eq {cursor : Option (List Char)} {c : Option (T ×ₗ I)} (hl : pageLimit limit = .ok l)
    (hc : cursor.mapM parseCursor = .ok (c.map ofLex)) :
    listPhotos index user ⟨limit, cursor⟩ = .ok (encodePage l (Keyset.page key (photos index user) c l)) := by
  have found : (index.rows.filter fun r => isPhoto user r.2 && isBefore (c.map ofLex) r) =
      (photos index user).filter fun r => c.all (key r < ·) := by
    rw [photos, List.filter_filter]
    simp only [isBefore_eq, Bool.and_comm]
  simp only [listPhotos, hl, hc, Except.ok_bind, found, newestFirst_eq]
  unfold encodePage Keyset.page Keyset.below
  simp only [pure, Except.pure, Except.ok.injEq, PhotoPage.mk.injEq, true_and]
  split
  case isTrue  => simp [Option.map_map, Function.comp_def]
  case isFalse => rfl

end

-- The pages that a client reads are those of a traversal by keys.
section

variable {index : Nat → Table I (IndexRow I T)} {user : I} {limit : Nat → Option Nat} {l : Nat → Nat}
  {created : I → T} {n : Nat}

abbrev traversal (index : Nat → Table I (IndexRow I T)) (user : I) (l : Nat → Nat) :
    Nat → Option (Keyset.Page (I × IndexRow I T) (T ×ₗ I)) :=
  Keyset.traverse key (fun n => photos (index n) user) l

theorem pageLimit_pos {limit : Option Nat} {l : Nat} (h : pageLimit limit = .ok l) : 0 < l := by
  unfold pageLimit at h
  obtain ⟨valid, h⟩ := Except.ite_throw_eq_ok_iff.mp h
  cases h
  simp only [Bool.or_eq_true, decide_eq_true_eq, not_or] at valid
  exact Nat.pos_of_ne_zero valid.left

variable (time : Rfc3339.Documented T) (uuid : UuidText.Documented I)
  (years : ∀ n id r, (index n).lookup id = some r → 0 ≤ year r.createdAt ∧ year r.createdAt ≤ 9999)
  (hl : ∀ n, pageLimit (limit n) = .ok (l n))
include time uuid years hl

theorem photoPages_eq :
    photoPages index user limit n = (traversal index user l n).map fun p => .ok (encodePage (l n) p) := by
  induction n
  case zero =>
    rw [photoPages, listPhotos_eq (c := none) (hl 0) rfl]
    rfl
  case succ n ih =>
    rw [photoPages, ih]
    cases ht : traversal index user l n
    case none => simp [traversal, Keyset.traverse, ht]
    case some p =>
      cases hc : p.next
      case none => simp [traversal, Keyset.traverse, ht, encodePage, hc]
      case some c =>
        obtain ⟨_, shows⟩ := Keyset.traverse_shows (fun _ => distinct_photos) (fun n => pageLimit_pos (hl n)) ht
        obtain ⟨r, hr, rfl⟩ := shows.last c hc
        have listed := (mem_photos.mp (shows.sound r hr).left).left
        have year := years n r.1 r.2 listed
        have parsed : (some (encodeCursor r.2.createdAt r.1)).mapM parseCursor =
            .ok (some (r.2.createdAt, r.1)) :=
          congrArg (some <$> ·) (parse_encode time uuid year.left year.right)
        have page : listPhotos (index (n + 1)) user ⟨limit (n + 1), some (encodeCursor r.2.createdAt r.1)⟩ =
            .ok (encodePage (l (n + 1))
              (Keyset.page key (photos (index (n + 1)) user) (some (key r)) (l (n + 1)))) :=
          listPhotos_eq (hl (n + 1)) parsed
        simp [traversal, Keyset.traverse, ht, encodePage, hc, page]

theorem photoPages_ok {r : Except LibraryError (PhotoPage I T)} (h : photoPages index user limit n = some r) :
    ∃ p, r = .ok p := by
  rw [photoPages_eq time uuid years hl] at h
  obtain ⟨p, -, rfl⟩ := Option.map_eq_some_iff.mp h
  exact ⟨_, rfl⟩

theorem shownPhotos_eq :
    shownPhotos index user limit n = Keyset.shown key (fun n => photos (index n) user) l n := by
  have items (n : Nat) : pageItems (photoPages index user limit n) =
      (traversal index user l n).elim [] (·.items) := by
    rw [photoPages_eq time uuid years hl]
    cases traversal index user l n <;> rfl
  induction n
  case zero => simp [shownPhotos, items, Keyset.shown]
  case succ n ih =>
    rw [Keyset.shown, ← ih, shownPhotos, List.range_succ, List.flatMap_append]
    simp [shownPhotos, items]

end

section

variable {index : Nat → Table I (IndexRow I T)} {user : I} {limit : Nat → Option Nat} {created : I → T}

theorem photos_paged (time : Rfc3339.Documented T) (uuid : UuidText.Documented I)
    (lasting : Lasting index created)
    (years : ∀ n id r, (index n).lookup id = some r → 0 ≤ year r.createdAt ∧ year r.createdAt ≤ 9999)
    (valid : ∀ n, ∃ l, pageLimit (limit n) = .ok l) :
    Paged index user limit created ∧
      ∀ (t : T) (id : I), 0 ≤ year t → year t ≤ 9999 → parseCursor (encodeCursor t id) = .ok (t, id) := by
  refine ⟨?_, fun t id h h' => parse_encode time uuid h h'⟩
  choose l hl using valid
  have distinct (n : Nat) : (photos (index n) user).Pairwise (key · ≠ key ·) := distinct_photos
  have positive (n : Nat) := pageLimit_pos (hl n)
  have shown (n : Nat) : shownPhotos index user limit n =
      Keyset.shown key (fun n => photos (index n) user) l n :=
    shownPhotos_eq time uuid years hl
  have covers {n : Nat} {p : Keyset.Page (I × IndexRow I T) (T ×ₗ I)} (h : traversal index user l n = some p) :
      Keyset.Covers key (fun n => photos (index n) user) n (shownPhotos index user limit n) p.next :=
    shown n ▸ Keyset.traverse_covers distinct positive h
  have sorted (n : Nat) : (shownPhotos index user limit n).Pairwise (key · > key ·) ∧
      ∀ r ∈ shownPhotos index user limit n, ∃ m, r ∈ photos (index m) user := by
    obtain ⟨m, p, hp, same⟩ : ∃ m p, traversal index user l m = some p ∧
        Keyset.shown key (fun n => photos (index n) user) l n =
          Keyset.shown key (fun n => photos (index n) user) l m :=
      Keyset.exists_shown_eq
    have covered := covers hp
    rw [shown n, same, ← shown m]
    exact ⟨covered.sorted, fun r hr => (covered.sound r hr).imp fun m h => h.right⟩
  constructor
  case served => exact fun n r h => photoPages_ok time uuid years hl h
  case once =>
    intro n
    refine List.pairwise_map.mpr ((sorted n).left.imp_of_mem fun ha hb older same => ?_)
    obtain ⟨m, ha⟩ := (sorted n).right _ ha
    obtain ⟨m', hb⟩ := (sorted n).right _ hb
    exact older.ne' ((key_eq_iff lasting ha hb).mpr same)
  case ordered =>
    intro n
    refine (sorted n).left.imp_of_mem fun ha hb older => ?_
    obtain ⟨m, ha⟩ := (sorted n).right _ ha
    obtain ⟨m', hb⟩ := (sorted n).right _ hb
    have ofA := lasting m _ _ (mem_photos.mp ha).left
    have ofB := lasting m' _ _ (mem_photos.mp hb).left
    simpa [key, Prod.Lex.lt_iff, ofA, ofB] using older
  case complete =>
    intro n p hp hn id visible
    rw [photoPages_eq time uuid years hl] at hp
    obtain ⟨page, ht, hp⟩ := Option.map_eq_some_iff.mp hp
    have last : page.next = none := by
      cases hp
      simpa [encodePage] using hn
    have seen (m : Nat) (hm : m ≤ n) :
        ∃ r ∈ photos (index m) user, key r = (toLex (created id, id) : T ×ₗ I) := by
      obtain ⟨r, hr, photo⟩ := visible m hm
      exact ⟨(id, r), mem_photos.mpr ⟨hr, photo⟩, by simp [key, lasting m id r hr]⟩
    rcases (covers ht).rest _ seen with ⟨r, hr, same⟩ | ⟨c, hc, -⟩
    case inl => exact List.mem_map.mpr ⟨r, hr, congrArg (fun k => (ofLex k).2) same⟩
    case inr => simp [last] at hc
  case ends =>
    rintro ⟨ids, finite⟩
    have known (n : Nat) (r : I × IndexRow I T) (hr : r ∈ photos (index n) user) :
        key r ∈ (ids.map fun id => (toLex (created id, id) : T ×ₗ I)).toFinset := by
      have listed := (mem_photos.mp hr).left
      have same : key r = toLex (created r.1, r.1) := by simp [key, lasting n r.1 r.2 listed]
      exact List.mem_toFinset.mpr (List.mem_map.mpr ⟨r.1, finite n r.1 r.2 listed, same.symm⟩)
    obtain ⟨n, p, ht, hn⟩ := Keyset.exists_last_page distinct positive known
    refine ⟨n, encodePage (l n) p, ?_, by simp [encodePage, hn]⟩
    rw [photoPages_eq time uuid years hl]
    exact congrArg (Option.map _) ht

end

-- Two moments of the year 2024 and the first of the year 10000, which no RFC 3339 text can name.
abbrev moments : Rfc3339 (Fin 3) where
  year t             := if t = 2 then 10000 else 2024
  toRfc3339 t        := text t
  parseFromRfc3339 s := [0, 1].find? (text · = s)
where
  text (t : Fin 3) : List Char :=
    if t = 0 then "2024-05-06T07:08:09.123456+00:00".toList
    else if t = 1 then "2024-05-06T07:08:09.123457+00:00".toList
    else "+10000-01-01T00:00:00+00:00".toList

abbrev someIds : UuidText (Fin 3) where
  display    := text
  parseStr s := [0, 1, 2].find? (text · = s)
where
  text (id : Fin 3) : List Char :=
    if id = 0 then "3f2b8f6e-2c54-4b0a-9c1d-6a7e5d4c3b20".toList
    else if id = 1 then "3f2b8f6e-2c54-4b0a-9c1d-6a7e5d4c3b21".toList
    else "3f2b8f6e-2c54-4b0a-9c1d-6a7e5d4c3b22".toList

attribute [local instance] moments someIds

theorem moments_documented : Rfc3339.Documented (Fin 3) := by
  unfold Rfc3339.Documented
  decide +kernel

theorem someIds_documented : UuidText.Documented (Fin 3) :=
  ⟨by decide +kernel, by decide +kernel⟩

def photo (createdAt : Fin 3) : IndexRow (Fin 3) (Fin 3) where
  ownerId   := 0
  category  := .image
  createdAt
  deletedAt := none
  buried    := false

-- Two photos of one moment, and a later one.
def tied : Table (Fin 3) (IndexRow (Fin 3) (Fin 3)) where
  rows  := [(1, photo 0), (0, photo 0), (2, photo 1)]
  nodup := by decide

theorem photos_paged_tied :
    Paged (fun _ => tied) 0 (fun _ => some 1) (fun id => if id = 2 then 1 else 0) ∧
      ∀ t id : Fin 3, 0 ≤ year t → year t ≤ 9999 → parseCursor (encodeCursor t id) = .ok (t, id) := by
  have rows (id : Fin 3) (r : IndexRow (Fin 3) (Fin 3)) (h : tied.lookup id = some r) :
      r = photo (if id = 2 then 1 else 0) := by
    rw [Table.lookup_eq_some_iff] at h
    simp only [tied, List.mem_cons, Prod.mk.injEq, List.not_mem_nil, or_false] at h
    rcases h with ⟨rfl, rfl⟩ | ⟨rfl, rfl⟩ | ⟨rfl, rfl⟩ <;> rfl
  refine photos_paged moments_documented someIds_documented (fun n id r h => ?_)
    (fun n id r h => ?_) fun n => ⟨1, rfl⟩
  case refine_1 =>
    rw [rows id r h]
    rfl
  case refine_2 =>
    rw [rows id r h]
    split <;> decide

theorem not_parse_encode : Rfc3339.Documented (Fin 3) ∧ UuidText.Documented (Fin 3) ∧
    ¬∀ t id : Fin 3, parseCursor (encodeCursor t id) = .ok (t, id) := by
  refine ⟨moments_documented, someIds_documented, fun h => ?_⟩
  have rejected : (parseCursor (encodeCursor (2 : Fin 3) (0 : Fin 3)) : Except _ (Fin 3 × Fin 3)) =
      .error .badRequest := by
    decide +kernel
  cases rejected.symm.trans (h 2 0)

end MyDrive.Browse
