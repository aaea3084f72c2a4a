import MyDrive.Transfers.Theorems.Rows

open Execution

namespace MyDrive.Transfers

-- The place that a reservation gives to the bytes of an upload: the file that it replaces, or a new
-- entry in its folder.
structure Lands (session : Session) (s s' : Store) (o v f : Id) : Prop where
  version : ∃ y, s'.versions.lookup v = some y ∧ y.fileId = f ∧ y.objectId = o
  current : s'.currentVersion f = some v
  created : session.replaceFileId = none → s.next ≤ f ∧
    ∃ x, s'.files.lookup f = some x ∧ x.parentId = session.parentId ∧ x.name = session.filename
  replaced {g} : session.replaceFileId = some g → f = g ∧ (s.files.lookup g).isSome

-- As long as the upload `u` is active, its row says what `session` says.
structure Chosen (session : Session) (u : Id) (s : Store) : Prop where
  bound : u < s.next
  row {x} : s.sessions.lookup u = some x → x.state = .active →
    x.parentId = session.parentId ∧ x.replaceFileId = session.replaceFileId ∧
      x.filename = session.filename

section

variable {s s' : Store} {u o v f : Id} {session : Session}

theorem Chosen.create {bytes : List UInt8} (h : s.createUpload session bytes = some s') :
    Chosen session (s.next + 1) s' := by
  rw [Store.createUpload] at h
  split at h <;> cases h
  refine ⟨Nat.add_lt_add_left (by decide : 1 < 3) _, fun hx _ => ?_⟩
  simp only [Table.lookup_set, if_true, Option.some.injEq] at hx
  simp [← hx]

theorem Chosen.carry {files folders moved : List Id} {new : Event → Prop} (h : Chosen session u s)
    (hc : Store.Carries files folders moved new s s')
    (hp : ∀ x, s.sessions.lookup u = some x → x.state = .active →
      (∀ d ∈ folders, x.parentId ≠ some d) ∧ ∀ f ∈ files, x.replaceFileId ≠ some f) :
    Chosen session u s' := by
  refine ⟨Nat.lt_of_lt_of_le h.bound hc.next, fun {x'} hx' ha => ?_⟩
  obtain ⟨x, hx, row⟩ := (hc.session hx').resolve_right fun hn => Nat.not_lt_of_le hn.left h.bound
  have active : x.state = .active := by
    rcases row.state with ⟨hs, _⟩ | ⟨hn, _⟩
    case inl => exact hs ▸ ha
    case inr => exact absurd ha hn
  obtain ⟨folder, file⟩ := hp x hx active
  have parent : x'.parentId = x.parentId := row.parent.resolve_right fun hd => by
    obtain ⟨d, hd, he⟩ := hd
    exact folder d hd he
  have replace : x'.replaceFileId = x.replaceFileId := row.replace.resolve_right fun hf => by
    obtain ⟨f, hf, he⟩ := hf
    exact file f hf he
  rw [parent, replace, row.name]
  exact h.row hx active

variable [Collation] {env : Env} {c : Finalize} {x : Session}

theorem Chosen.reserve (h : Chosen session u s) (hr : c.Reserves s env x s') :
    Chosen session u s' := by
  obtain ⟨_, rows, g, rfl, _⟩ := Store.reserve_ok hr.reserve
  refine ⟨Nat.lt_add_right 3 h.bound, fun {y} hy ha => ?_⟩
  rcases Store.lookup_sessions_reservation hr.session hy with ⟨_, rfl⟩ | ⟨_, hy⟩
  case inl => contradiction
  case inr => exact h.row hy ha

-- A reservation that is new belongs to the upload whose step it is.
theorem Finalize.Reserves.lands (hr : c.Reserves s env x s') (h : Chosen session u s)
    (hn : .reserved u o v f ∉ s.history) (hm : .reserved u o v f ∈ s'.history) :
    Lands session s s' o v f := by
  obtain ⟨_, rows, g, rfl, hg⟩ := Store.reserve_ok hr.reserve
  obtain ⟨rfl, rfl, rfl, rfl⟩ := (Store.mem_reservation.mp hm).resolve_left hn
  obtain ⟨parent, replace, name⟩ := h.row hr.session hr.active
  have row : ∃ y, rows.lookup f = some y := by
    rcases hg with ⟨_, rfl, y, hy, _⟩ | ⟨_, rfl, rfl⟩
    case inl => exact ⟨y, hy⟩
    case inr => simp
  obtain ⟨y, hy⟩ := row
  refine ⟨by simp [Store.reservation], ?current, fun he => ?created, fun he => ?replaced⟩
  case current => simp [Store.currentVersion, Store.reservation, hy]
  case created =>
    rcases hg with ⟨hf, _⟩ | ⟨_, rfl, rfl⟩
    case inl => cases he.symm.trans (replace.symm.trans hf)
    case inr => exact ⟨Nat.le_add_right _ _, by simp [Store.reservation, parent, name]⟩
  case replaced =>
    rcases hg with ⟨hf, _, hs⟩ | ⟨hf, _⟩
    case inl =>
      obtain ⟨z, hz, _⟩ := hs
      cases hf.symm.trans (replace.trans he)
      exact ⟨rfl, by simp [hz]⟩
    case inr => cases hf.symm.trans (replace.trans he)

end

namespace System

variable [Collation] [Digest]

-- While the upload `u` is active, no step deletes its folder or the file that it replaces.
def Spares (u : Id) (s : System) (a : Action) : Prop :=
  ∀ i env c x, a = .next i env → s.calls.lookup i = some c → s.store.sessions.lookup u = some x →
    x.state = .active →
    (∀ d ∈ c.folders, x.parentId ≠ some d) ∧ ∀ f ∈ c.files s.store, x.replaceFileId ≠ some f

-- A run in which the upload `u` is reserved, up to the reservation and from it on.
def Reservation (u o v f : Id) (session : Session) (s₁ s : System) : Prop :=
  ∃ s₂ s₃ a, Steps System.step (Spares u) s₁ s₂ ∧ s₂.step a = some s₃ ∧
    Reaches System.step s₃ s ∧ Lands session s₂.store s₃.store o v f

structure Lasting (u : Id) (session : Session) (s₁ s : System) : Prop where
  run      : Steps System.step (Spares u) s₁ s
  recorded : Shared.Holds Store.Recorded (fun s c => Call.Bound s c) s
  chosen   : Chosen session u s.store
  reserved {o v f} : .reserved u o v f ∈ s.store.history → Reservation u o v f session s₁ s

variable {u : Id} {session : Session} {s₁ s s' : System} {a : Action}

theorem Lasting.step (h : Lasting u session s₁ s) (ha : Spares u s a) (hs : s.step a = some s') :
    Lasting u session s₁ s' := by
  have run : Steps System.step (Spares u) s₁ s' := .tail h.run ha hs
  have old {o v f} (hr : .reserved u o v f ∈ s.store.history) :
      Reservation u o v f session s₁ s' := by
    obtain ⟨s₂, s₃, b, before, hb, after, lands⟩ := h.reserved hr
    exact ⟨s₂, s₃, b, before, hb, .tail after trivial hs, lands⟩
  rcases step_carries hs with hc | ⟨i, env, c, x, _, _, hr⟩ | ⟨i, env, c, rfl, hi, hc⟩
  case inl =>
    exact ⟨run, recorded_step h.recorded hs, h.chosen.carry hc (by simp), (old <| hc.reserved (by simp) ·)⟩
  case inr.inl =>
    refine ⟨run, recorded_step h.recorded hs, h.chosen.reserve hr, fun {o v f} hm => ?_⟩
    by_cases hn : .reserved u o v f ∈ s.store.history
    case pos => exact old hn
    case neg => exact ⟨s, s', a, h.run, hs, .refl, hr.lands h.chosen hn hm⟩
  case inr.inr =>
    have chosen := h.chosen.carry hc fun x => ha i env c x rfl hi
    exact ⟨run, recorded_step h.recorded hs, chosen, (old <| hc.reserved Call.Reports.not_reserved ·)⟩

theorem Lasting.create {s₀ : System} {i : Nat} {bytes : List UInt8}
    (h : Shared.Holds Store.Recorded (fun s c => Call.Bound s c) s₀)
    (hs : s₀.step (.start i (.upload session bytes)) = some s) :
    Lasting (s₀.store.next + 1) session s s := by
  have recorded := recorded_step h hs
  simp only [System.step, Shared.System.step] at hs
  split at hs <;> try contradiction
  obtain ⟨⟨t, k⟩, hr, rfl⟩ := Option.map_eq_some_iff.mp hs
  obtain ⟨t, ht, he⟩ := Option.map_eq_some_iff.mp hr
  cases he
  refine ⟨.refl, recorded, .create ht, fun hm => ?_⟩
  have carries : Store.Carries [] [] [] (fun _ => False) s₀.store t := .createUpload ht
  exact absurd (h.store.bound (carries.reserved id hm)).left (Nat.not_lt_of_le (Nat.le_add_right _ _))

theorem upload_lands {s₀ s₁ s : System} {i : Nat} {session : Session} {bytes : List UInt8}
    {r : UploadFinalized} (before : Reaches step init s₀)
    (create : s₀.step (.start i (.upload session bytes)) = some s₁)
    (run : Steps step (Spares (s₀.store.next + 1)) s₁ s)
    (returned : .returned (s₀.store.next + 1) r ∈ s.store.history) :
    ∃ s₂ s₃ a o v, Steps step (Spares (s₀.store.next + 1)) s₁ s₂ ∧ s₂.step a = some s₃ ∧
      Reaches step s₃ s ∧ Lands session s₂.store s₃.store o v r.fileId := by
  have recorded := before.invariant recorded_init fun h _ hs => recorded_step h hs
  have lasting : Lasting (s₀.store.next + 1) session s₁ s :=
    run.invariant (Lasting.create recorded create) Lasting.step
  obtain ⟨o, v, hr⟩ := lasting.recorded.store.returned returned
  obtain ⟨s₂, s₃, a, before, hs, after, lands⟩ := lasting.reserved hr
  exact ⟨s₂, s₃, a, o, v, before, hs, after, lands⟩

end System

section

attribute [local instance] Collation.binary Digest.hi

def spares (s : System) : Action → Bool
  | .next i _ => (s.calls.lookup i).all fun c => c.folders = [] && c.files s.store = []
  | _         => true

theorem spares_of_check {u : Id} {s : System} {a : Action} (h : spares s a) :
    System.Spares u s a := by
  intro i env c x he hc _ _
  subst he
  simp only [spares, hc, Option.all_some, Bool.and_eq_true, decide_eq_true_eq] at h
  simp [h]

-- The upload 1 of `a.txt`, which is the file 5.
def created : List Action :=
  let session := {
    ownerId := 7, filename := "a.txt", stagingKey := 0, expectedSize := 2, expiresAt := 10 }
  [.start 0 (.upload session [104, 105]), .start 0 (.finalize 7 1 none)] ++
  List.replicate 11 (.next 0 {})

-- The upload 7, of the same name.
def second : Session where
  ownerId      := 7
  filename     := "a.txt"
  stagingKey   := 0
  expectedSize := 2
  expiresAt    := 10

def finalized : List Action :=
  .start 1 (.finalize 7 7 none) :: List.replicate 11 (.next 1 {})

def Event.returns (u : Id) : Event → Option UploadFinalized
  | .returned w r => if w = u then some r else none
  | _             => none

theorem Event.mem_of_returns {u : Id} {es : List Event} {r : UploadFinalized} {rs : List UploadFinalized}
    (h : es.filterMap (Event.returns u) = r :: rs) : .returned u r ∈ es := by
  obtain ⟨e, he, hr⟩ := List.mem_filterMap.mp (h ▸ List.mem_cons_self : r ∈ es.filterMap _)
  cases e <;> simp only [returns, reduceCtorEq] at hr
  case returned w r' =>
    split at hr <;> cases hr
    case isTrue hw => exact hw ▸ he

theorem upload_lands_replaced : ∃ s₀ s₁ s r, Reaches System.step System.init s₀ ∧
    s₀.step (.start 1 (.upload { second with replaceFileId := some 5 } [104, 105])) = some s₁ ∧
    Steps System.step (System.Spares 7) s₁ s ∧ .returned 7 r ∈ s.store.history ∧ r.fileId = 5 := by
  have run : ((Execution.run System.step System.init created).bind fun s₀ =>
      (s₀.step (.start 1 (.upload { second with replaceFileId := some 5 } [104, 105]))).bind fun s₁ =>
        (Execution.run (fun s a => if spares s a then System.step s a else none) s₁ finalized).map
          fun s => (s₀.store.next, s.store.history.filterMap (Event.returns 7))) =
      some (6, [⟨5, some 10, some (Digest.sha256 [104, 105])⟩]) := by
    decide +kernel
  obtain ⟨s₀, before, run⟩ := Option.bind_eq_some_iff.mp run
  obtain ⟨s₁, create, run⟩ := Option.bind_eq_some_iff.mp run
  obtain ⟨s, run, he⟩ := Option.map_eq_some_iff.mp run
  simp only [Prod.mk.injEq] at he
  obtain ⟨next, history⟩ := he
  have returned := Event.mem_of_returns history
  have before := Execution.reaches_of_run before
  have run : Steps System.step (System.Spares 7) s₁ s :=
    Execution.steps_of_run (fun _ _ => spares_of_check) run
  obtain ⟨_, _, _, _, _, _, _, _, lands⟩ :=
    System.upload_lands before create (by rw [next]; exact run) (by rw [next]; exact returned)
  exact ⟨s₀, s₁, s, _, before, create, run, returned, (lands.replaced rfl).left⟩

-- The file that the upload replaces, or the folder that it goes to, is purged before the upload is
-- finalized.
def purges (tree : Subtree) : List Action :=
  [.start 1 (.entry 5 none "a.txt" (some 1)), .start 1 (.purge tree), .next 1 {}, .next 1 {}, .drop 1]

-- The replacement becomes a new file, and the upload to the folder 100 ends up in the root folder.
theorem upload_lands_elsewhere :
    (∃ s₀ s₁ s r, Reaches System.step System.init s₀ ∧
      s₀.step (.start 1 (.upload { second with replaceFileId := some 5 } [104, 105])) = some s₁ ∧
      Reaches System.step s₁ s ∧ .returned 7 r ∈ s.store.history ∧ r.fileId ≠ 5) ∧
    ∃ s₀ s₁ s r f, Reaches System.step System.init s₀ ∧
      s₀.step (.start 1 (.upload { second with parentId := some 100 } [104, 105])) = some s₁ ∧
      Reaches System.step s₁ s ∧ .returned 7 r ∈ s.store.history ∧
      s.store.files.lookup r.fileId = some f ∧ f.parentId = none := by
  constructor
  case left =>
    have run : ((Execution.run System.step System.init created).bind fun s₀ =>
        (s₀.step (.start 1 (.upload { second with replaceFileId := some 5 } [104, 105]))).bind fun s₁ =>
          (Execution.run System.step s₁ (purges { files := [5] } ++ finalized)).map
            fun s => s.store.history.filterMap (Event.returns 7)) =
        some [⟨11, some 10, some (Digest.sha256 [104, 105])⟩] := by
      decide +kernel
    obtain ⟨s₀, before, run⟩ := Option.bind_eq_some_iff.mp run
    obtain ⟨s₁, create, run⟩ := Option.bind_eq_some_iff.mp run
    obtain ⟨s, run, history⟩ := Option.map_eq_some_iff.mp run
    exact ⟨s₀, s₁, s, _, Execution.reaches_of_run before, create, Execution.reaches_of_run run,
      Event.mem_of_returns history, by decide⟩
  case right =>
    have run : ((Execution.run System.step System.init created).bind fun s₀ =>
        (s₀.step (.start 1 (.upload { second with parentId := some 100 } [104, 105]))).bind fun s₁ =>
          (Execution.run System.step s₁ (purges { files := [], folders := [100] } ++ finalized)).map
            fun s => (s.store.history.filterMap (Event.returns 7),
              (s.store.files.lookup 11).map (·.parentId))) =
        some ([⟨11, some 10, some (Digest.sha256 [104, 105])⟩], some none) := by
      decide +kernel
    obtain ⟨s₀, before, run⟩ := Option.bind_eq_some_iff.mp run
    obtain ⟨s₁, create, run⟩ := Option.bind_eq_some_iff.mp run
    obtain ⟨s, run, he⟩ := Option.map_eq_some_iff.mp run
    simp only [Prod.mk.injEq] at he
    obtain ⟨f, hf, parent⟩ := Option.map_eq_some_iff.mp he.right
    exact ⟨s₀, s₁, s, _, f, Execution.reaches_of_run before, create, Execution.reaches_of_run run,
      Event.mem_of_returns he.left, hf, parent⟩

end
end MyDrive.Transfers
