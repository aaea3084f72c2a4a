import Mathlib.Data.List.Infix
import MyDrive.Library.Bytes
import MyDrive.Library.Except
import MyDrive.Backup.SecretStore

-- What a store holds when it is opened after a crash.

namespace MyDrive.Backup.Secrets

variable {J : Json} {A : AesGcm} {P : Dpapi} {d d' : Dictionary} {call : Call} {file : Option (List UInt8)}
  {payload : List UInt8} {cut : Option Nat} {n : Nat}

def Alike (d d' : Dictionary) : Prop :=
  ∀ k, d.lookup k = d'.lookup k

def Call.on {β : Type} (found : String → β) (absent : β) (m : String → β) (call : Call) (k : String) : β :=
  match call with
  | .save key value => if k = key then found value else m k
  | .delete key     => if k = key then absent else m k

theorem Call.lookup_apply {k : String} : (call.apply d).lookup k = call.on some none d.lookup k := by
  cases call
  case save key value => simp [apply, on]
  case delete key     => simp [apply, on]

theorem Call.alike_of_not_persists (h : call.persists d = false) : Alike (call.apply d) d := by
  intro k
  cases call
  case save key value => cases h
  case delete key =>
    rw [apply, Table.lookup_erase]
    split
    case isTrue hk =>
      subst hk
      rw [persists, Option.isSome_eq_false_iff, Option.isNone_iff_eq_none] at h
      exact h.symm
    case isFalse hk => rfl

theorem interrupted_whole (h : payload.length ≤ n) : interrupted file (some n) (.ok (some payload)) = some payload := by
  simp [interrupted, List.take_of_length_le h]

theorem rows_eq_nil_iff : d.rows = [] ↔ ∀ k, d.lookup k = none := by
  constructor
  case mp =>
    intro h k
    rw [Table.lookup, h, List.lookup_nil]
  case mpr =>
    intro h
    refine List.eq_nil_iff_forall_not_mem.mpr fun r hr => ?_
    have := Table.lookup_eq_some_iff.mpr hr
    rw [h] at this
    cases this

-- The empty store is what was there before the call or what is there after it.
theorem empty_alike_iff : ((∀ k, (Table.empty : Dictionary).lookup k = d.lookup k) ∨
    ∀ k, (Table.empty : Dictionary).lookup k = call.on some none d.lookup k) ↔ d.rows = [] ∨ (call.apply d).rows = [] := by
  have before : (∀ k, (Table.empty : Dictionary).lookup k = d.lookup k) ↔ d.rows = [] := by
    simp only [rows_eq_nil_iff, Table.lookup_empty, @eq_comm _ none]
  have after : (∀ k, (Table.empty : Dictionary).lookup k = call.on some none d.lookup k) ↔ (call.apply d).rows = [] := by
    simp only [rows_eq_nil_iff, Table.lookup_empty, Call.lookup_apply, @eq_comm _ none]
  rw [before, after]

namespace AesSecretStore

variable {key : List UInt8} {s : Store} {nonce : Nonce}

theorem persist_eq (h : validSize s.key = true) : persist J A s nonce =
    .ok (nonce.val ++ (A.encrypt s.key nonce.val (J.serialize s.values)).2 ++
      (A.encrypt s.key nonce.val (J.serialize s.values)).1) := by
  simp [persist, h]

theorem persist_eq_error (h : validSize s.key = false) : persist J A s nonce = .error .cryptographic := by
  simp [persist, h]

-- The parts of a file, and of one whose cipher was cut.
theorem load_parts {nonce tag cipher : List UInt8} (hn : nonce.length = 12) (ht : tag.length = 16)
    (hk : validSize key = true) : load J A key (some (nonce ++ tag ++ cipher)) =
      values J (A.decrypt key nonce (cipher, tag)) := by
  have front : (nonce ++ tag ++ cipher).take 12 = nonce := by
    rw [List.append_assoc, ← hn, List.take_left]
  have middle : ((nonce ++ tag ++ cipher).drop 12).take 16 = tag := by
    rw [List.append_assoc, ← hn, List.drop_left, ← ht, List.take_left]
  have back : (nonce ++ tag ++ cipher).drop 28 = cipher := by
    rw [show 28 = (nonce ++ tag).length by rw [List.length_append, hn, ht], List.drop_left]
  have long : ¬ (nonce ++ tag ++ cipher).length < 12 + 16 := by
    simp only [List.length_append]
    omega
  rw [load, if_neg long, if_neg (by simp [hk]), front, middle, back]

theorem load_payload (hk : validSize s.key = true) (h : persist J A s nonce = .ok payload) :
    ∃ d, load J A s.key (some payload) = .ok d ∧ Alike d s.values := by
  rw [persist_eq hk, Except.ok.injEq] at h
  obtain ⟨d, read, alike⟩ := J.deserialize_serialize s.values
  refine ⟨d, ?_, alike⟩
  rw [← h, load_parts nonce.property (A.length_tag ..) hk, A.decrypt_encrypt]
  simp only [values, read, Option.getD_some]

theorem load_short (h : payload.length < 28) : load J A key (some payload) = .ok .empty :=
  if_pos h

theorem load_cut (hk : validSize s.key = true) (h : persist J A s nonce = .ok payload) (long : 28 ≤ n)
    (hn : n < payload.length) : load J A s.key (some (payload.take n)) = .error .cryptographic := by
  rw [persist_eq hk, Except.ok.injEq] at h
  have front : (nonce.val ++ (A.encrypt s.key nonce.val (J.serialize s.values)).2).length = 28 := by
    rw [List.length_append, nonce.property, A.length_tag]
  have strict : (A.encrypt s.key nonce.val (J.serialize s.values)).1.take (n - 28) ≠
      (A.encrypt s.key nonce.val (J.serialize s.values)).1 := by
    intro he
    have := congrArg List.length he
    rw [List.length_take] at this
    rw [← h, List.length_append, front] at hn
    omega
  rw [← h, List.take_append, List.take_of_length_le (by omega), front, load_parts nonce.property (A.length_tag ..) hk,
    A.decrypt_cut _ _ _ _ (List.take_prefix _ _) strict, values]

-- The file holds what is in memory.
def Held (J : Json) (A : AesGcm) (s : Store) (file : Option (List UInt8)) : Prop :=
  ∃ d, load J A s.key file = .ok d ∧ Alike d s.values

theorem Held.perform (hk : validSize s.key = true) (h : Held J A s file) :
    Held J A (perform J A s call nonce).1 (written file (perform J A s call nonce).2) := by
  unfold AesSecretStore.perform
  dsimp only
  split
  case isTrue persists =>
    obtain ⟨payload, hp⟩ : ∃ payload, persist J A { s with values := call.apply s.values } nonce = .ok payload :=
      ⟨_, persist_eq hk⟩
    rw [hp]
    exact load_payload hk hp
  case isFalse idle =>
    obtain ⟨d, read, alike⟩ := h
    refine ⟨d, read, fun k => ?_⟩
    rw [alike k]
    exact (Call.alike_of_not_persists (by simpa using idle) k).symm

theorem key_run {calls : List (Call × Nonce)} : (run J A s file calls).1.key = s.key := by
  induction calls generalizing s file
  case nil             => rfl
  case cons c calls ih => exact ih

theorem Held.run {calls : List (Call × Nonce)} (hk : validSize s.key = true) (h : Held J A s file) :
    Held J A (run J A s file calls).1 (run J A s file calls).2 := by
  induction calls generalizing s file
  case nil             => exact h
  case cons c calls ih => exact ih hk (h.perform hk)

-- With a key of another size no call writes.
theorem written_of_not_validSize (hk : validSize s.key = false) : written file (perform J A s call nonce).2 = file := by
  unfold perform
  dsimp only
  split
  case isTrue  => rw [@persist_eq_error J A { s with values := call.apply s.values } nonce hk]; rfl
  case isFalse => rfl

theorem interrupted_of_not_validSize (hk : validSize s.key = false) :
    interrupted file cut (perform J A s call nonce).2 = file := by
  unfold perform
  dsimp only
  split
  case isTrue  => rw [@persist_eq_error J A { s with values := call.apply s.values } nonce hk]; rfl
  case isFalse => rfl

theorem file_run {calls : List (Call × Nonce)} (hk : validSize s.key = false) : (run J A s file calls).2 = file := by
  induction calls generalizing s file
  case nil => rfl
  case cons c calls ih =>
    have same := @written_of_not_validSize J A c.1 file s c.2 hk
    exact (@ih _ (perform J A s c.1 c.2).1 hk).trans same

theorem load_of_not_validSize (hk : validSize key = false) (h : load J A key file = .ok d) : d = .empty := by
  cases file
  case none => cases h; rfl
  case some payload =>
    rw [load] at h
    split at h
    case isTrue  => cases h; rfl
    case isFalse => simp [hk] at h

-- A store that was opened, whatever was in the directory.
structure Session (J : Json) (A : AesGcm) where
  start  : Directory
  random : Key
  dir    : Directory
  store  : Store
  opened : new J A random start = (dir, .ok store)

variable {session : Session J A}

theorem Session.key_dir : session.dir.key = some session.store.key := by
  have := session.opened
  simp only [new, Prod.mk.injEq] at this
  obtain ⟨dir, store⟩ := this
  obtain ⟨d, _, same⟩ := Except.map_eq_ok_iff.mp store
  rw [← dir, ← same]

theorem Session.load_eq : load J A session.store.key session.dir.bin = .ok session.store.values := by
  have := session.opened
  simp only [new, Prod.mk.injEq] at this
  obtain ⟨dir, store⟩ := this
  obtain ⟨d, read, same⟩ := Except.map_eq_ok_iff.mp store
  rw [← dir, ← same]
  exact read

-- The state before the interrupted call.
def Session.now (session : Session J A) (calls : List (Call × Nonce)) : Store × Option (List UInt8) :=
  run J A session.store session.dir.bin calls

def Session.crash (session : Session J A) (calls : List (Call × Nonce)) (last : Call) (nonce : Nonce) (cut : Option Nat) :
    Directory :=
  { session.dir with
    bin := interrupted (session.now calls).2 cut (perform J A (session.now calls).1 last nonce).2 }

def Law (session : Session J A) (calls : List (Call × Nonce)) (last : Call) (nonce : Nonce) (cut : Option Nat) : Prop :=
  ∀ random, ∃ dir reopened, new J A random (session.crash calls last nonce cut) = (dir, .ok reopened) ∧
    ((∀ k, reopened.load k = (session.now calls).1.load k) ∨
      ∀ k, reopened.load k = last.on some none (session.now calls).1.load k)

def Store.size (J : Json) (A : AesGcm) (s : Store) (nonce : Nonce) : Nat :=
  12 + 16 + (A.encrypt s.key nonce.val (J.serialize s.values)).1.length

-- Where the file is written, all or nothing of it is, or less than 28 bytes and one of the two maps is empty.
-- With a key of another size, one of the two maps is empty.
def Spared (J : Json) (A : AesGcm) (s : Store) (last : Call) (nonce : Nonce) (cut : Option Nat) : Prop :=
  if validSize s.key then
    last.persists s.values → ∀ n, cut = some n →
      { s with values := last.apply s.values }.size J A nonce ≤ n ∨
        n < 28 ∧ (s.values.rows = [] ∨ (last.apply s.values).rows = [])
  else s.values.rows = [] ∨ (last.apply s.values).rows = []

-- What is read is one of the two maps.
def Sound (J : Json) (A : AesGcm) (s : Store) (last : Call) (file : Option (List UInt8)) : Prop :=
  ∃ d, load J A s.key file = .ok d ∧
    ((∀ k, d.lookup k = s.values.lookup k) ∨ ∀ k, d.lookup k = last.on some none s.values.lookup k)

theorem sound_empty_iff (h : load J A s.key file = .ok .empty) :
    Sound J A s call file ↔ s.values.rows = [] ∨ (call.apply s.values).rows = [] := by
  rw [← empty_alike_iff]
  simp [Sound, h]

theorem sound_iff (hk : validSize s.key = true) (held : Held J A s file) :
    Sound J A s call (interrupted file cut (perform J A s call nonce).2) ↔ Spared J A s call nonce cut := by
  obtain ⟨d, read, alike⟩ := held
  have same : Sound J A s call file := ⟨d, read, .inl alike⟩
  rw [Spared, if_pos hk]
  cases persists : call.persists s.values
  case false =>
    have idle : (perform J A s call nonce).2 = .ok none := by simp [perform, persists]
    simpa [idle, interrupted] using same
  case true =>
    have hp := @persist_eq J A { s with values := call.apply s.values } nonce hk
    generalize contents : nonce.val ++ (A.encrypt s.key nonce.val (J.serialize (call.apply s.values))).2 ++
      (A.encrypt s.key nonce.val (J.serialize (call.apply s.values))).1 = payload at hp
    have writes : (perform J A s call nonce).2 = .ok (some payload) := by simp [perform, persists, hp, Except.map]
    have size : { s with values := call.apply s.values }.size J A nonce = payload.length := by
      rw [← contents, Store.size, List.length_append, List.length_append, nonce.property, A.length_tag]
    rw [writes, size]
    cases cut
    case none => simpa [interrupted] using same
    case some n =>
      simp only [Option.some.injEq, forall_eq', forall_const]
      by_cases whole : payload.length ≤ n
      case pos =>
        obtain ⟨d, read, alike⟩ := @load_payload J A payload { s with values := call.apply s.values } nonce hk hp
        simp only [whole, true_or, iff_true]
        rw [interrupted_whole whole]
        exact ⟨d, read, .inr fun k => (alike k).trans Call.lookup_apply⟩
      case neg =>
        simp only [whole, false_or]
        by_cases long : 28 ≤ n
        case pos =>
          have cut : load J A s.key (some (payload.take n)) = .error .cryptographic :=
            @load_cut J A payload n { s with values := call.apply s.values } nonce hk hp long (Nat.lt_of_not_le whole)
          simp [interrupted, Sound, cut, Nat.not_lt_of_le long]
        case neg =>
          have short : load J A s.key (some (payload.take n)) = .ok .empty := by
            refine load_short ?_
            rw [List.length_take]
            omega
          have few : n < 28 := by omega
          simpa [interrupted, few] using sound_empty_iff short

theorem Session.held {calls : List (Call × Nonce)} (hk : validSize session.store.key = true) :
    Held J A (session.now calls).1 (session.now calls).2 :=
  Held.run hk ⟨_, session.load_eq, fun _ => rfl⟩

theorem Session.law_iff_sound {calls : List (Call × Nonce)} {last : Call} : Law session calls last nonce cut ↔
    Sound J A (session.now calls).1 last (session.crash calls last nonce cut).bin := by
  have key : (session.crash calls last nonce cut).key = some (session.now calls).1.key := by
    rw [Session.now, key_run]
    exact session.key_dir
  constructor
  case mp =>
    intro law
    obtain ⟨dir, reopened, opened, alike⟩ := law session.random
    simp only [new, Prod.mk.injEq] at opened
    obtain ⟨d, read, rfl⟩ := Except.map_eq_ok_iff.mp opened.right
    rw [key, Option.getD_some] at read
    exact ⟨d, read, alike⟩
  case mpr =>
    intro sound random
    obtain ⟨d, read, alike⟩ := sound
    have opened : (new J A random (session.crash calls last nonce cut)).2 =
        .ok { key := (session.now calls).1.key, values := d } := by
      rw [new, key, Option.getD_some, read]
      rfl
    exact ⟨_, _, Prod.ext rfl opened, alike⟩

theorem Session.law_iff (session : Session J A) (calls : List (Call × Nonce)) (last : Call) (nonce : Nonce)
    (cut : Option Nat) : Law session calls last nonce cut ↔ Spared J A (session.now calls).1 last nonce cut := by
  have key : (session.now calls).1.key = session.store.key := key_run
  rw [law_iff_sound]
  cases hk : validSize session.store.key
  case true  => exact sound_iff (by rw [key, hk]) (session.held hk)
  case false =>
    have hk' : validSize (session.now calls).1.key = false := by rw [key, hk]
    have file : (session.crash calls last nonce cut).bin = session.dir.bin := by
      rw [crash, interrupted_of_not_validSize hk', now, file_run hk]
    have empty := session.load_eq
    rw [load_of_not_validSize hk empty] at empty
    rw [file, sound_empty_iff (by rw [key, empty]), Spared, if_neg (by simp [hk'])]

end AesSecretStore

namespace DpapiSecretStore

variable {s : Dictionary} {noise : List UInt8}

-- The file holds what is in memory.
def Held (J : Json) (s : Dictionary) (file : Option (List UInt8)) : Prop :=
  ∃ d, new J file = .ok d ∧ Alike d s

theorem new_serialize : ∃ d', new J (some (J.serialize d)) = .ok d' ∧ Alike d' d := by
  obtain ⟨d', read, alike⟩ := J.deserialize_serialize d
  exact ⟨d', by simp only [new, read, Option.getD_some], alike⟩

theorem new_cut (h : n < (J.serialize d).length) : new J (some ((J.serialize d).take n)) = .error .json := by
  have strict : (J.serialize d).take n ≠ J.serialize d := by
    intro he
    have := congrArg List.length he
    rw [List.length_take] at this
    omega
  simp only [new, J.deserialize_cut _ _ (List.take_prefix _ _) strict]

theorem persists_withValue {f : String → String} : (call.withValue f).persists s = call.persists s := by
  cases call
  case save   => rfl
  case delete => rfl

theorem Held.perform (h : Held J s file) :
    Held J (perform J P s call noise).1 (written file (perform J P s call noise).2) := by
  unfold DpapiSecretStore.perform
  dsimp only
  split
  case isTrue persists => exact new_serialize
  case isFalse idle =>
    obtain ⟨d, read, alike⟩ := h
    refine ⟨d, read, fun k => ?_⟩
    rw [alike k]
    exact (Call.alike_of_not_persists (by simpa [persists_withValue] using idle) k).symm

theorem Held.run {calls : List (Call × List UInt8)} (h : Held J s file) :
    Held J (run J P s file calls).1 (run J P s file calls).2 := by
  induction calls generalizing s file
  case nil             => exact h
  case cons c calls ih => exact ih h.perform

theorem load_congr (h : Alike d s) (k : String) : load P d k = load P s k := by
  unfold load
  rw [h k]

theorem load_apply {k : String} : load P ((call.withValue (P.protect noise)).apply s) k =
    call.on (fun value => some (some value)) (some none) (load P s) k := by
  cases call
  case save key value =>
    by_cases hk : k = key
    case pos => simp [load, Call.withValue, Call.apply, Call.on, hk, P.unprotect_protect]
    case neg => simp [load, Call.withValue, Call.apply, Call.on, hk]
  case delete key =>
    by_cases hk : k = key
    case pos => simp [load, Call.withValue, Call.apply, Call.on, hk]
    case neg => simp [load, Call.withValue, Call.apply, Call.on, hk]

structure Session (J : Json) where
  file   : Option (List UInt8)
  store  : Dictionary
  opened : new J file = .ok store

def Session.now (session : Session J) (P : Dpapi) (calls : List (Call × List UInt8)) :
    Dictionary × Option (List UInt8) :=
  run J P session.store session.file calls

def Law (session : Session J) (P : Dpapi) (calls : List (Call × List UInt8)) (last : Call) (noise : List UInt8)
    (cut : Option Nat) : Prop :=
  ∃ reopened, new J (interrupted (session.now P calls).2 cut (perform J P (session.now P calls).1 last noise).2) =
    .ok reopened ∧
      ((∀ k, load P reopened k = load P (session.now P calls).1 k) ∨
        ∀ k, load P reopened k = last.on (fun value => some (some value)) (some none) (load P (session.now P calls).1) k)

-- Where the file is written, all or nothing of it is.
def Spared (J : Json) (P : Dpapi) (s : Dictionary) (last : Call) (noise : List UInt8) (cut : Option Nat) : Prop :=
  last.persists s → ∀ n, cut = some n → (J.serialize ((last.withValue (P.protect noise)).apply s)).length ≤ n

theorem Session.law_iff (session : Session J) (P : Dpapi) (calls : List (Call × List UInt8)) (last : Call)
    (noise : List UInt8) (cut : Option Nat) :
    Law session P calls last noise cut ↔ Spared J P (session.now P calls).1 last noise cut := by
  have held : Held J (session.now P calls).1 (session.now P calls).2 :=
    Held.run ⟨_, session.opened, fun _ => rfl⟩
  rw [Law, Spared]
  generalize session.now P calls = now at held ⊢
  obtain ⟨d, read, alike⟩ := held
  cases persists : last.persists now.1
  case false => simpa [perform, persists, interrupted] using ⟨d, read, .inl (load_congr alike)⟩
  case true =>
    cases cut
    case none => simpa [perform, persists, interrupted] using ⟨d, read, .inl (load_congr alike)⟩
    case some n =>
      simp only [perform, persists, if_true, Option.some.injEq, forall_eq', forall_const]
      by_cases whole : (J.serialize ((last.withValue (P.protect noise)).apply now.1)).length ≤ n
      case pos =>
        obtain ⟨d, read, alike⟩ := @new_serialize J ((last.withValue (P.protect noise)).apply now.1)
        rw [interrupted_whole whole]
        simp only [whole, iff_true]
        exact ⟨d, read, .inr fun k => (load_congr alike k).trans load_apply⟩
      case neg =>
        have cut := @new_cut J _ _ (Nat.lt_of_not_le whole)
        simp [interrupted, cut, whole]

end DpapiSecretStore

theorem crashLaw_iff (aes : AesSecretStore.Session J A) (calls : List (Call × AesSecretStore.Nonce)) (last : Call)
    (nonce : AesSecretStore.Nonce) (cut : Option Nat) (dpapi : DpapiSecretStore.Session J) (P : Dpapi)
    (calls' : List (Call × List UInt8)) (last' : Call) (noise : List UInt8) (cut' : Option Nat) :
    (AesSecretStore.Law aes calls last nonce cut ↔ AesSecretStore.Spared J A (aes.now calls).1 last nonce cut) ∧
    (DpapiSecretStore.Law dpapi P calls' last' noise cut' ↔
      DpapiSecretStore.Spared J P (dpapi.now P calls').1 last' noise cut') :=
  ⟨aes.law_iff calls last nonce cut, dpapi.law_iff P calls' last' noise cut'⟩

-- Objects of strings as JSON. Letters and digits stand for themselves.
namespace Plain

open Bytes

abbrev Rows := List (String × String)

def unit (c : Char) : List UInt8 :=
  if c.isAlphanum then [UInt8.ofNat c.toNat] else 92 :: toLe 3 c.toNat

def text (s : String) : List UInt8 :=
  34 :: s.toList.flatMap unit ++ [34]

def member (r : String × String) : List UInt8 :=
  text r.1 ++ 58 :: text r.2

def members (rows : Rows) : List UInt8 :=
  rows.flatMap (fun r => 44 :: member r) ++ [125]

def object : Rows → List UInt8
  | []        => [123, 125]
  | r :: rows => 123 :: member r ++ members rows

def readUnits : List UInt8 → Option (List Char × List UInt8)
  | []         => none
  | b :: bytes =>
    if b = 34 then some ([], bytes)
    else if b = 92 then
      match bytes with
      | x :: y :: z :: bytes => (readUnits bytes).map fun r => (Char.ofNat (fromLe [x, y, z]) :: r.1, r.2)
      | _                    => none
    else (readUnits bytes).map fun r => (Char.ofNat b.toNat :: r.1, r.2)

def skip (b : UInt8) : List UInt8 → Option (List UInt8)
  | []         => none
  | c :: bytes => if c = b then some bytes else none

def readText (bytes : List UInt8) : Option (String × List UInt8) := do
  let r ← readUnits (← skip 34 bytes)
  return (String.ofList r.1, r.2)

def readMember (bytes : List UInt8) : Option ((String × String) × List UInt8) := do
  let k ← readText bytes
  let v ← readText (← skip 58 k.2)
  return ((k.1, v.1), v.2)

def readMembers : Nat → List UInt8 → Option (Rows × List UInt8)
  | 0,        _     => none
  | fuel + 1, bytes =>
    match skip 125 bytes with
    | some bytes => some ([], bytes)
    | none       => do
      let r ← readMember (← skip 44 bytes)
      let rows ← readMembers fuel r.2
      return (r.1 :: rows.1, rows.2)

def read (fuel : Nat) (bytes : List UInt8) : Option (Rows × List UInt8) := do
  let bytes ← skip 123 bytes
  match skip 125 bytes with
  | some bytes => return ([], bytes)
  | none       =>
    let r ← readMember bytes
    let rows ← readMembers fuel r.2
    return (r.1 :: rows.1, rows.2)

def deserialize (bytes : List UInt8) : Option (Option Dictionary) := do
  let r ← read bytes.length bytes
  if h : (r.1.map Prod.fst).Nodup then
    if object r.1 = bytes then return some { rows := r.1, nodup := h } else none
  else none

variable {c : Char} {cs : List Char} {k : String} {r : String × String} {rows rows' : Rows} {bytes rest : List UInt8}
  {fuel : Nat} {d : Dictionary}

theorem readUnits_unit : readUnits (unit c ++ rest) = (readUnits rest).map fun r => (c :: r.1, r.2) := by
  unfold unit
  split
  case isTrue h =>
    have small : c.toNat < 128 ∧ c.toNat ≠ 34 ∧ c.toNat ≠ 92 := by
      delta Char.isAlphanum Char.isAlpha Char.isUpper Char.isLower Char.isDigit at h
      simp only [Bool.or_eq_true, Bool.and_eq_true, decide_eq_true_eq, UInt32.le_iff_toNat_le] at h
      simp at h
      omega
    have value : (UInt8.ofNat c.toNat).toNat = c.toNat := by
      rw [UInt8.toNat_ofNat']
      omega
    have quote : UInt8.ofNat c.toNat ≠ 34 := by
      intro he
      have := congrArg UInt8.toNat he
      rw [value] at this
      exact small.right.left this
    have escape : UInt8.ofNat c.toNat ≠ 92 := by
      intro he
      have := congrArg UInt8.toNat he
      rw [value] at this
      exact small.right.right this
    rw [List.singleton_append, readUnits.eq_def]
    simp only [quote, escape, if_false, value, Char.ofNat_toNat]
  case isFalse =>
    have small : c.toNat < 256 ^ 3 := by
      have valid : c.toNat < 0xd800 ∨ 0xdfff < c.toNat ∧ c.toNat < 0x110000 := c.valid
      omega
    have value := fromLe_toLe small
    simp only [toLe] at value
    simp only [toLe, List.cons_append, List.nil_append]
    rw [readUnits.eq_def]
    simp only [value, Char.ofNat_toNat]
    rfl

theorem readUnits_flatMap : readUnits (cs.flatMap unit ++ 34 :: rest) = some (cs, rest) := by
  induction cs
  case nil => rw [List.flatMap_nil, List.nil_append, readUnits.eq_def]; rfl
  case cons c cs ih => rw [List.flatMap_cons, List.append_assoc, readUnits_unit, ih, Option.map_some]

theorem readText_text : readText (text k ++ rest) = some (k, rest) := by
  have := @readUnits_flatMap k.toList rest
  simp [readText, text, skip, this]

theorem readMember_member : readMember (member r ++ rest) = some (r, rest) := by
  rw [member, List.append_assoc, readMember, readText_text]
  simp [skip, readText_text]

theorem readMembers_members (h : rows.length < fuel) : readMembers fuel (members rows ++ rest) = some (rows, rest) := by
  induction rows generalizing fuel
  case nil =>
    cases fuel
    case zero      => cases h
    case succ fuel => simp [readMembers, members, skip]
  case cons r rows ih =>
    cases fuel
    case zero      => cases h
    case succ fuel =>
      have shape : members (r :: rows) ++ rest = 44 :: (member r ++ (members rows ++ rest)) := by simp [members]
      rw [shape]
      simp [readMembers, skip, readMember_member, ih (Nat.lt_of_succ_lt_succ h)]

theorem read_object (h : rows.length ≤ fuel) : read fuel (object rows ++ rest) = some (rows, rest) := by
  cases rows
  case nil => simp [read, object, skip]
  case cons r rows =>
    have first : skip 125 (member r ++ (members rows ++ rest)) = none := by
      simp [member, text, skip]
    have start : skip 123 (object (r :: rows) ++ rest) = some (member r ++ (members rows ++ rest)) := by
      simp [skip, object]
    simp [read, start, first, readMember_member, readMembers_members h]

theorem length_le : rows.length ≤ (object rows).length := by
  have tail : ∀ rows : Rows, rows.length ≤ (rows.flatMap fun r => 44 :: member r).length := by
    intro rows
    induction rows
    case nil             => exact Nat.le_refl _
    case cons r rows ih =>
      simp only [List.flatMap_cons, List.cons_append, List.length_cons, List.length_append]
      omega
  cases rows
  case nil         => exact Nat.zero_le _
  case cons r rows =>
    have := tail rows
    simp only [object, members, List.cons_append, List.length_cons, List.length_append]
    omega

theorem deserialize_object : deserialize (object d.rows) = some (some d) := by
  have read := @read_object d.rows [] _ length_le
  rw [List.append_nil] at read
  simp [deserialize, read, d.nodup]

theorem deserialize_cut (h : bytes <+: object rows) (hne : bytes ≠ object rows) : deserialize bytes = none := by
  refine Option.eq_none_iff_forall_not_mem.mpr fun d hd => ?_
  simp only [deserialize, Option.mem_def, Option.bind_eq_bind, Option.bind_eq_some_iff] at hd
  obtain ⟨r, _, hd⟩ := hd
  split at hd
  case isFalse => cases hd
  case isTrue =>
    split at hd
    case isFalse => cases hd
    case isTrue same =>
      obtain ⟨tail, whole⟩ := h
      rw [← same] at whole
      have left := @read_object r.1 tail (r.1.length + rows.length) (Nat.le_add_right ..)
      have right := @read_object rows [] (r.1.length + rows.length) (Nat.le_add_left ..)
      rw [whole] at left
      rw [List.append_nil, left] at right
      cases right
      exact hne same.symm

def json : Json where
  serialize d                    := object d.rows
  deserialize                    := deserialize
  deserialize_serialize d        := ⟨d, deserialize_object, fun _ => rfl⟩
  deserialize_cut _ _ h hne      := deserialize_cut h hne

-- A cipher that marks its end.
def encrypt (plain : List UInt8) : List UInt8 :=
  plain.flatMap (fun b => [1, b]) ++ [0]

def decrypt : List UInt8 → Option (List UInt8)
  | []              => none
  | [b]             => if b = 0 then some [] else none
  | a :: b :: bytes => if a = 1 then (decrypt bytes).map (b :: ·) else none

theorem decrypt_encrypt {plain : List UInt8} : decrypt (encrypt plain) = some plain := by
  induction plain
  case nil => rfl
  case cons b plain ih => simpa [encrypt, decrypt] using ih

theorem decrypt_cut {plain cipher : List UInt8} (h : cipher <+: encrypt plain) (hne : cipher ≠ encrypt plain) :
    decrypt cipher = none := by
  induction plain generalizing cipher
  case nil =>
    obtain ⟨tail, whole⟩ := h
    cases cipher
    case nil             => rfl
    case cons c cipher =>
      simp [encrypt] at whole hne
      simp_all
  case cons b plain ih =>
    obtain ⟨tail, whole⟩ := h
    cases cipher
    case nil => rfl
    case cons x bytes =>
      cases bytes
      case nil =>
        simp [encrypt] at whole
        simp [decrypt, whole]
      case cons y bytes =>
        simp [encrypt] at whole
        obtain ⟨rfl, rfl, whole⟩ := whole
        have := @ih bytes ⟨tail, by simpa [encrypt] using whole⟩ (by simpa [encrypt] using hne)
        simp [decrypt, this]

def aes : AesGcm where
  encrypt _ _ plain       := (encrypt plain, List.replicate 16 0)
  decrypt _ _ c           := decrypt c.1
  length_tag _ _ _        := List.length_replicate
  decrypt_encrypt _ _ _   := decrypt_encrypt
  decrypt_cut _ _ _ _ h n := decrypt_cut h n

end Plain

namespace AesSecretStore

def newKey : Key :=
  ⟨List.replicate 32 7, rfl⟩

def newNonce : Nonce :=
  ⟨List.replicate 12 7, rfl⟩

-- A store in a new directory.
def firstSession : Session Plain.json Plain.aes where
  start  := { key := none, bin := none }
  random := newKey
  dir    := { key := some newKey.val, bin := none }
  store  := { key := newKey.val, values := .empty }
  opened := rfl

-- The second of two secrets is saved, and the machine stops before the first byte is in the file.
theorem not_crashLaw : ¬Law firstSession [(.save "server" "a", newNonce)] (.save "token" "b") newNonce (some 0) := by
  intro law
  have sound := Session.law_iff_sound.mp law
  have empty : load Plain.json Plain.aes newKey.val (some []) = .ok .empty := rfl
  have file : (firstSession.crash [(.save "server" "a", newNonce)] (.save "token" "b") newNonce (some 0)).bin = some [] :=
    rfl
  rw [file] at sound
  have rows := (sound_empty_iff empty).mp sound
  revert rows
  simp [firstSession, Session.now, run, perform, Call.apply, Table.set]

end AesSecretStore

end MyDrive.Backup.Secrets
