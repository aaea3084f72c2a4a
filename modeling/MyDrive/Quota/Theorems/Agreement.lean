import MyDrive.Library.Except
import MyDrive.Quota.Usage

namespace MyDrive.Quota.Books

open Transfers Google

variable {b : Books} {ownerQuota : UInt64} {id : Id} {now : Time} {a : Account}

def limit (ownerQuota : UInt64) (a : Account) : Nat :=
  if a.role = .member then a.quotaBytes.getD 0 else ownerQuota.toNat

theorem bigint_ok {n m : Nat} : bigint n = .ok m ↔ n < 2 ^ 63 ∧ m = n := by
  unfold bigint
  split
  case isTrue h  => simp only [Except.ok.injEq, h, true_and, eq_comm]
  case isFalse h => simp only [reduceCtorEq, h, false_and]

theorem checkedAdd_ok {n m k : Nat} : checkedAdd n m = .ok k ↔ n + m < 2 ^ 64 ∧ k = n + m := by
  unfold checkedAdd
  split
  case isTrue h  => simp only [Except.ok.injEq, h, true_and, eq_comm]
  case isFalse h => simp only [reduceCtorEq, h, false_and]

theorem saturatingAdd_small {n m : Nat} (hn : n < 2 ^ 63) (hm : m < 2 ^ 63) :
    saturatingAdd n m = n + m := by
  unfold saturatingAdd
  omega

theorem ite_throw_ok {c : Prop} [Decidable c] {e : QuotaError} :
    (if c then throw e else pure () : Except QuotaError Unit) = .ok () ↔ ¬c := by
  split <;> simp_all [throw, throwThe, MonadExceptOf.throw, pure, Except.pure]

theorem limitOf_eq (e : QuotaError) : limitOf ownerQuota a e = .ok (limit ownerQuota a) := by
  unfold limitOf limit
  split
  case isFalse => rfl
  case isTrue hm =>
    obtain ⟨q, hq⟩ := Option.isSome_iff_exists.mp (a.member_quota hm)
    simp [hq]

theorem limit_le (hm : a.role = .member) : limit ownerQuota a ≤ maxAccountQuotaBytes := by
  obtain ⟨q, hq⟩ := Option.isSome_iff_exists.mp (a.member_quota hm)
  simpa [limit, hm, hq] using a.quota_le q hq

theorem limit_lt : limit ownerQuota a < 2 ^ 64 := by
  unfold limit
  split
  case isFalse => exact ownerQuota.toNat_lt
  case isTrue hm =>
    obtain ⟨q, hq⟩ := Option.isSome_iff_exists.mp (a.member_quota hm)
    simp only [hq, Option.getD_some]
    exact Nat.lt_of_le_of_lt (a.quota_le q hq) (by decide)

theorem reservedWithImports_ok {n : Nat} :
    b.reservedWithImports id now = .ok n ↔
      b.store.reservedBytes id now + b.committingBytes id < 2 ^ 63 ∧
      n = b.store.reservedBytes id now + b.committingBytes id := by
  simp only [reservedWithImports, reserved, Except.bind_eq_ok_iff, bigint_ok]
  constructor
  case mp =>
    rintro ⟨_, ⟨h₁, rfl⟩, _, ⟨h₂, rfl⟩, h₃, rfl⟩
    exact ⟨h₃, rfl⟩
  case mpr =>
    rintro ⟨h, rfl⟩
    exact ⟨_, ⟨by omega, rfl⟩, _, ⟨by omega, rfl⟩, h, rfl⟩

section

variable (ha : b.accounts.lookup id = some a)

include ha

theorem createUpload_ok {size : Nat} :
    b.createUpload ownerQuota id now size = .ok () ↔
      a.enabled ∧ b.store.usedBytes id < 2 ^ 63 ∧
      b.store.reservedBytes id now + b.committingBytes id < 2 ^ 63 ∧
      b.store.usedBytes id + (b.store.reservedBytes id now + b.committingBytes id) + size ≤
        limit ownerQuota a := by
  have hl : limit ownerQuota a < 2 ^ 64 := limit_lt
  simp only [createUpload, ha, limitOf_eq, Except.ite_throw_eq_ok_iff, Except.bind_eq_ok_iff, used,
    bigint_ok, reservedWithImports_ok, checkedAdd_ok, ite_throw_ok]
  constructor
  case mp =>
    rintro ⟨he, _, ⟨⟩, _, ⟨hu, rfl⟩, _, ⟨hr, rfl⟩, _, ⟨-, rfl⟩, _, ⟨-, rfl⟩, h⟩
    exact ⟨by simpa using he, hu, hr, by omega⟩
  case mpr =>
    rintro ⟨he, hu, hr, h⟩
    exact ⟨by simpa using he, _, rfl, _, ⟨hu, rfl⟩, _, ⟨hr, rfl⟩, _, ⟨by omega, rfl⟩, _,
      ⟨by omega, rfl⟩, by omega⟩

theorem commitStaged_ok {size : Nat} :
    b.commitStaged ownerQuota id now size = .ok () ↔
      a.enabled ∧ b.store.usedBytes id < 2 ^ 63 ∧
      b.store.reservedBytes id now + b.committingBytes id < 2 ^ 63 ∧
      size ≤ limit ownerQuota a -
        (b.store.usedBytes id + (b.store.reservedBytes id now + b.committingBytes id)) := by
  simp only [commitStaged, quotaRoomTx, ha, limitOf_eq, Except.ite_throw_eq_ok_iff, Except.bind_eq_ok_iff,
    used, bigint_ok, reservedWithImports_ok, ite_throw_ok]
  constructor
  case mp =>
    rintro ⟨_, ⟨he, _, ⟨⟩, _, ⟨hu, rfl⟩, _, ⟨hr, rfl⟩, ⟨⟩⟩, h⟩
    rw [saturatingAdd_small hu hr] at h
    exact ⟨by simpa using he, hu, hr, Nat.le_of_not_gt h⟩
  case mpr =>
    rintro ⟨he, hu, hr, h⟩
    refine ⟨_, ⟨by simpa using he, _, rfl, _, ⟨hu, rfl⟩, _, ⟨hr, rfl⟩, rfl⟩, ?_⟩
    rw [saturatingAdd_small hu hr]
    exact Nat.not_lt_of_ge h

theorem ensureQuota_ok {size : Nat} :
    b.ensureQuota ownerQuota id now size = .ok () ↔
      a.enabled ∧ b.store.usedBytes id < 2 ^ 63 ∧ b.store.reservedBytes id now < 2 ^ 63 ∧
      min (b.store.usedBytes id + b.store.reservedBytes id now + size) (2 ^ 64 - 1) ≤
        limit ownerQuota a := by
  simp only [ensureQuota, ha, limitOf_eq, Except.ite_throw_eq_ok_iff, Except.bind_eq_ok_iff, used,
    reserved, bigint_ok, ite_throw_ok]
  constructor
  case mp =>
    rintro ⟨he, _, ⟨⟩, _, ⟨hu, rfl⟩, _, ⟨hr, rfl⟩, h⟩
    rw [saturatingAdd_small hu hr] at h
    exact ⟨by simpa using he, hu, hr, Nat.le_of_not_gt h⟩
  case mpr =>
    rintro ⟨he, hu, hr, h⟩
    refine ⟨by simpa using he, _, rfl, _, ⟨hu, rfl⟩, _, ⟨hr, rfl⟩, ?_⟩
    rw [saturatingAdd_small hu hr]
    exact Nat.not_lt_of_ge h

theorem updateAccount_ok {quota : Nat} :
    b.updateAccount id now quota = .ok () ↔
      quota ≤ maxAccountQuotaBytes ∧ a.role = .member ∧ b.store.usedBytes id < 2 ^ 63 ∧
      b.store.reservedBytes id now < 2 ^ 63 ∧
      b.store.usedBytes id + b.store.reservedBytes id now ≤ quota := by
  simp only [updateAccount, ha, Except.ite_throw_eq_ok_iff, Except.bind_eq_ok_iff, used, reserved,
    bigint_ok, ite_throw_ok]
  constructor
  case mp =>
    rintro ⟨hq, hm, _, ⟨hu, rfl⟩, _, ⟨hr, rfl⟩, h⟩
    exact ⟨by omega, not_not.mp hm, hu, hr, by omega⟩
  case mpr =>
    rintro ⟨hq, hm, hu, hr, h⟩
    exact ⟨by omega, not_not.mpr hm, _, ⟨hu, rfl⟩, _, ⟨hr, rfl⟩, by omega⟩

theorem availableBytes_ok {n : Int} :
    b.availableBytes ownerQuota id now = .ok (some n) ↔
      b.store.usedBytes id < 2 ^ 63 ∧ b.store.reservedBytes id now < 2 ^ 63 ∧
      0 < limit ownerQuota a ∧ limit ownerQuota a < 2 ^ 63 ∧
      n = limit ownerQuota a -
        (min (b.store.usedBytes id + b.store.reservedBytes id now) (2 ^ 63 - 1) : Nat) := by
  have hq : (if a.role = .member then a.quotaBytes
      else if ownerQuota.toNat < 2 ^ 63 then some ownerQuota.toNat else none) =
      if limit ownerQuota a < 2 ^ 63 then some (limit ownerQuota a) else none := by
    by_cases hm : a.role = .member
    case neg => simp only [limit, hm, ↓reduceIte]
    case pos =>
      obtain ⟨q, hq⟩ := Option.isSome_iff_exists.mp (a.member_quota hm)
      have : q < 2 ^ 63 := Nat.lt_of_le_of_lt (a.quota_le q hq) (by decide)
      simp only [limit, hm, ↓reduceIte, hq, Option.getD_some, this]
  simp only [availableBytes, ha, Except.bind_eq_ok_iff, used, reserved, bigint_ok, hq]
  constructor
  case mp =>
    rintro ⟨_, ⟨hu, rfl⟩, _, ⟨hr, rfl⟩, h⟩
    by_cases hl : limit ownerQuota a < 2 ^ 63
    case neg => simp only [hl, ↓reduceIte, pure, Except.pure, Except.ok.injEq, reduceCtorEq] at h
    case pos =>
      by_cases h₀ : 0 < limit ownerQuota a
      case neg =>
        simp only [hl, ↓reduceIte, h₀, pure, Except.pure, Except.ok.injEq, reduceCtorEq] at h
      case pos =>
        simp only [hl, ↓reduceIte, h₀, pure, Except.pure, Except.ok.injEq, Option.some.injEq] at h
        exact ⟨hu, hr, h₀, hl, h.symm⟩
  case mpr =>
    rintro ⟨hu, hr, h₀, hl, rfl⟩
    refine ⟨_, ⟨hu, rfl⟩, _, ⟨hr, rfl⟩, ?_⟩
    simp only [hl, ↓reduceIte, h₀]
    rfl

end

-- The four checks admit the same amounts, and no more than the summary shows. `update_account` admits
-- an amount that the quota may be lowered by.
structure Agrees (b : Books) (ownerQuota : UInt64) (id : Id) (now : Time) (a : Account) : Prop where
  imports  : ∀ x < 2 ^ 63,
    b.commitStaged ownerQuota id now x = .ok () ↔ b.createUpload ownerQuota id now x = .ok ()
  links    : ∀ x < 2 ^ 63,
    b.ensureQuota ownerQuota id now x = .ok () ↔ b.createUpload ownerQuota id now x = .ok ()
  accounts : a.role = .member → ∀ x ≤ limit ownerQuota a,
    b.updateAccount id now (limit ownerQuota a - x) = .ok () ↔
      b.createUpload ownerQuota id now x = .ok ()
  summary  : ∀ x < 2 ^ 63, b.createUpload ownerQuota id now x = .ok () →
    ∃ n : Int, b.availableBytes ownerQuota id now = .ok (some n) ∧ x ≤ n

-- A sum that does not fit makes all the queries fail.
def Overflows (b : Books) (id : Id) (now : Time) : Prop :=
  2 ^ 63 ≤ b.store.usedBytes id ∨ 2 ^ 63 ≤ b.store.reservedBytes id now

-- What an enabled account needs: no import that is being committed, no overdraft, and a quota that the
-- summary can show.
def Plain (b : Books) (ownerQuota : UInt64) (id : Id) (now : Time) (a : Account) : Prop :=
  b.committingBytes id = 0 ∧
  b.store.usedBytes id + b.store.reservedBytes id now ≤ limit ownerQuota a ∧
  0 < limit ownerQuota a ∧ limit ownerQuota a < 2 ^ 63

-- Only the two checks that count the imports fail, and the others have no room.
def Drained (b : Books) (ownerQuota : UInt64) (id : Id) (now : Time) (a : Account) : Prop :=
  2 ^ 63 ≤ b.store.reservedBytes id now + b.committingBytes id ∧
  limit ownerQuota a < b.store.usedBytes id + b.store.reservedBytes id now

section

variable (ha : b.accounts.lookup id = some a)

include ha

theorem Agrees.enabled (h : Agrees b ownerQuota id now a) (he : a.enabled)
    (ho : ¬Overflows b id now) (hd : ¬Drained b ownerQuota id now a) : Plain b ownerQuota id now a := by
  have hl : limit ownerQuota a < 2 ^ 64 := limit_lt
  unfold Overflows at ho
  unfold Drained at hd
  -- An amount that `ensure_quota` admits is one that `create_upload` admits.
  have links (x : Nat) (hx : x < 2 ^ 63)
      (hr : b.store.usedBytes id + b.store.reservedBytes id now + x ≤ limit ownerQuota a) :
      b.createUpload ownerQuota id now x = .ok () := by
    rw [← h.links x hx, ensureQuota_ok ha]
    exact ⟨he, by omega, by omega, by omega⟩
  have fits : b.store.reservedBytes id now + b.committingBytes id < 2 ^ 63 := by
    by_contra hf
    have := (createUpload_ok ha).mp (links 0 (by omega) (by omega))
    omega
  -- The importer admits nothing at all even when there is no room.
  have none : b.createUpload ownerQuota id now 0 = .ok () := by
    rw [← h.imports 0 (by omega), commitStaged_ok ha]
    exact ⟨he, by omega, fits, by omega⟩
  have := (createUpload_ok ha).mp none
  obtain ⟨n, hn, -⟩ := h.summary 0 (by omega) none
  obtain ⟨-, -, h₀, hl, -⟩ := (availableBytes_ok ha).mp hn
  have rest := links (limit ownerQuota a - (b.store.usedBytes id + b.store.reservedBytes id now))
    (by omega) (by omega)
  have := (createUpload_ok ha).mp rest
  exact ⟨by omega, by omega, h₀, hl⟩

theorem Agrees.disabled (h : Agrees b ownerQuota id now a) (he : ¬a.enabled) (hm : a.role = .member)
    (ho : ¬Overflows b id now) :
    limit ownerQuota a < b.store.usedBytes id + b.store.reservedBytes id now := by
  by_contra hr
  unfold Overflows at ho
  have lowered : b.updateAccount id now (limit ownerQuota a - 0) = .ok () := by
    rw [updateAccount_ok ha]
    exact ⟨limit_le hm, hm, by omega, by omega, by omega⟩
  have := (createUpload_ok ha).mp ((h.accounts hm 0 (Nat.zero_le _)).mp lowered)
  exact he this.left

-- Nobody admits anything.
theorem agrees_of_refused
    (hu : ¬(a.enabled ∧ b.store.usedBytes id < 2 ^ 63 ∧
      b.store.reservedBytes id now + b.committingBytes id < 2 ^ 63))
    (hr : ¬(b.store.usedBytes id < 2 ^ 63 ∧ b.store.reservedBytes id now < 2 ^ 63 ∧
      (a.enabled ∨ a.role = .member) ∧
      b.store.usedBytes id + b.store.reservedBytes id now ≤ limit ownerQuota a)) :
    Agrees b ownerQuota id now a := by
  have hl : limit ownerQuota a < 2 ^ 64 := limit_lt
  have refused (x : Nat) : ¬b.createUpload ownerQuota id now x = .ok () := by
    rw [createUpload_ok ha]
    rintro ⟨he, h₁, h₂, -⟩
    exact hu ⟨he, h₁, h₂⟩
  constructor
  case imports =>
    intro x _
    refine iff_of_false ?_ (refused x)
    rw [commitStaged_ok ha]
    rintro ⟨he, h₁, h₂, -⟩
    exact hu ⟨he, h₁, h₂⟩
  case links =>
    intro x _
    refine iff_of_false ?_ (refused x)
    rw [ensureQuota_ok ha]
    rintro ⟨he, h₁, h₂, h₃⟩
    exact hr ⟨h₁, h₂, .inl he, by omega⟩
  case accounts =>
    intro hm x hx
    refine iff_of_false ?_ (refused x)
    rw [updateAccount_ok ha]
    rintro ⟨-, -, h₁, h₂, h₃⟩
    exact hr ⟨h₁, h₂, .inr hm, by omega⟩
  case summary =>
    intro x _ h
    exact absurd h (refused x)

theorem agrees_of_plain (he : a.enabled) (h : Plain b ownerQuota id now a) :
    Agrees b ownerQuota id now a := by
  obtain ⟨hc, hr, h₀, hl⟩ := h
  have admits (x : Nat) : b.createUpload ownerQuota id now x = .ok () ↔
      b.store.usedBytes id + b.store.reservedBytes id now + x ≤ limit ownerQuota a := by
    rw [createUpload_ok ha, hc]
    simp only [he, true_and]
    omega
  constructor
  case imports =>
    intro x _
    rw [admits, commitStaged_ok ha, hc]
    simp only [he, true_and]
    omega
  case links =>
    intro x _
    rw [admits, ensureQuota_ok ha]
    simp only [he, true_and]
    omega
  case accounts =>
    intro hm x hx
    have : limit ownerQuota a ≤ maxAccountQuotaBytes := limit_le hm
    rw [admits, updateAccount_ok ha]
    simp only [hm, true_and]
    omega
  case summary =>
    intro x _ h
    rw [admits] at h
    exact ⟨_, (availableBytes_ok ha).mpr ⟨by omega, by omega, h₀, hl, rfl⟩, by omega⟩

end

theorem quota_checks_agree (ha : b.accounts.lookup id = some a) :
    Agrees b ownerQuota id now a ↔
      if a.enabled then
        Overflows b id now ∨ Drained b ownerQuota id now a ∨ Plain b ownerQuota id now a
      else
        a.role = .member → Overflows b id now ∨
          limit ownerQuota a < b.store.usedBytes id + b.store.reservedBytes id now := by
  split
  case isTrue he =>
    constructor
    case mp =>
      intro h
      by_cases ho : Overflows b id now
      case pos => exact .inl ho
      case neg =>
        by_cases hd : Drained b ownerQuota id now a
        case pos => exact .inr (.inl hd)
        case neg => exact .inr (.inr (h.enabled ha he ho hd))
    case mpr =>
      rintro (ho | hd | hp)
      case inl =>
        unfold Overflows at ho
        apply agrees_of_refused ha <;> omega
      case inr.inl =>
        unfold Drained at hd
        apply agrees_of_refused ha <;> omega
      case inr.inr => exact agrees_of_plain ha he hp
  case isFalse he =>
    constructor
    case mp =>
      intro h hm
      by_cases ho : Overflows b id now
      case pos => exact .inl ho
      case neg => exact .inr (h.disabled ha he hm ho)
    case mpr =>
      intro h
      apply agrees_of_refused ha
      case hu => exact fun h => he h.left
      case hr =>
        rintro ⟨h₁, h₂, hm, h₃⟩
        have := h (hm.resolve_left he)
        unfold Overflows at this
        omega

-- A member with ten bytes, of which three are being imported.
def tenBytes : Account where
  role         := .member
  quotaBytes   := some 10
  member_quota := fun _ => rfl
  quota_le     := by rintro _ ⟨⟩; decide

def newMember : Books where
  accounts := Table.empty.set 0 tenBytes
  store    := {}
  items    := .empty

def importing : Books :=
  { newMember with
    items := Table.empty.set 1
      { sourceId := 2, ownerId := 0, googleFileId := "g", name := "a", state := .committing,
        bytesDownloaded := 3 } }

theorem quota_checks_agree_new_member : Agrees newMember 0 0 0 tenBytes :=
  (quota_checks_agree rfl).mpr (.inr (.inr ⟨by decide, by decide, by decide, by decide⟩))

theorem quota_checks_differ :
    importing.ensureQuota 0 0 0 10 = .ok () ∧
    importing.createUpload 0 0 0 10 = .error .quotaExceeded ∧
    importing.availableBytes 0 0 0 = .ok (some 10) ∧
    ¬Agrees importing 0 0 0 tenBytes := by
  have link : importing.ensureQuota 0 0 0 10 = .ok () := by decide
  have upload : importing.createUpload 0 0 0 10 = .error .quotaExceeded := by decide
  refine ⟨link, upload, by decide, ?_⟩
  intro h
  have := (h.links 10 (by decide)).mp link
  rw [upload] at this
  contradiction

end MyDrive.Quota.Books
