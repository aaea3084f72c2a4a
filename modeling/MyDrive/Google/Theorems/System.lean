import MyDrive.Google.Theorems.Commit

namespace MyDrive.Google

open Transfers Execution

namespace Rows

theorem Aside.of_items {s : Rows} {n : Id} {staging : Table Id (List UInt8)}
    {sources : Table Id Source} {items : Table Id Item} (hn : s.store.next ≤ n)
    (hs : ∀ {k b}, staging.lookup k = some b → s.store.staging.lookup k = some b)
    (hi : ∀ {i x}, items.lookup i = some x → s.items.lookup i = some x) :
    s.Aside { s with store := { s.store with next := n, staging }, sources, items } where
  next    := hn
  staging := fun hb => .inl (hs hb)
  item    := fun hx => .inl ⟨_, hi hx, .refl, rfl, rfl⟩

theorem Aside.removeStaging {s : Rows} {key : Option Id} : s.Aside (s.removeStaging key) := by
  cases key
  case none   => exact ⟨Nat.le_refl _, .inl, fun hx => .inl ⟨_, hx, .refl, rfl, rfl⟩⟩
  case some k =>
    refine .of_items (Nat.le_refl _) (fun hb => ?_) fun hx => hx
    rw [Table.lookup_erase] at hb
    split at hb
    case isTrue  => contradiction
    case isFalse => exact hb

theorem Aside.insertSource {s : Rows} {source : Source} : s.Aside (s.insertSource source) :=
  .of_items (Nat.le_succ _) (fun hb => hb) fun hx => hx

theorem Aside.disconnect {s : Rows} {owner : Id} : s.Aside (s.disconnect owner) := by
  refine .of_items (Nat.le_refl _) (fun hb => hb) fun hx => ?_
  exact lookup_deleteSources (p := fun _ y => y.ownerId = owner) hx

theorem Aside.removeSource {s : Rows} {r : Removal} : s.Aside (s.removeSource r) := by
  have items {i : Id} {x : Item} (hx : (s.removeSource r).items.lookup i = some x) :
      s.items.lookup i = some x := lookup_removeSource hx
  simp only [Rows.removeSource] at items ⊢
  split at items <;> rename_i hc <;> simp only [hc]
  case isTrue  => exact .of_items (Nat.le_refl _) (fun hb => hb) items
  case isFalse => exact .of_items (Nat.le_refl _) (fun hb => hb) items

theorem Aside.insertItem {s : Rows} {item : Item} (ho : item.storageObjectId = none)
    (hk : item.stagingKey = none) : s.Aside (s.insertItem item) where
  next       := Nat.le_succ _
  staging    := .inl
  item hx    := by
    rw [Rows.insertItem, Table.lookup_set] at hx
    split at hx
    case isTrue he => cases hx; exact .inr ⟨Nat.le_of_eq he.symm, hk, ho⟩
    case isFalse   => exact .inl ⟨_, hx, .refl, rfl, rfl⟩

theorem extends_removeStaging {s : Rows} {key : Option Id} :
    s.store.Extends (s.removeStaging key).store := by
  cases key <;> exact .of_rows (Nat.le_refl _) rfl rfl

theorem extends_promote {s s' : Rows} {k o : Id} (hp : s.promote k o = .ok s') : s.store.Extends s'.store := by
  rw [Rows.promote] at hp
  split at hp <;> cases hp
  case h_1 => exact .of_rows (Nat.le_refl _) rfl rfl
  case h_2 => exact .refl

theorem extends_removeSource {s : Rows} {r : Removal} :
    s.store.Extends (s.removeSource r).store := by
  rw [Rows.removeSource]
  split <;> exact .of_rows (Nat.le_refl _) rfl rfl

variable [Digest] {s s' : Rows}

theorem Aside.withStore {store : Store} (h : s.Sound) (hs : s.store.Spares store) :
    s.Aside (s.withStore store) where
  next     := hs.next
  staging  := hs.staging
  item hx' := by
    obtain ⟨x, hx, hf⟩ := (Keeps.withStore h hs).item hx'
    simp only [Rows.withStore, Table.lookup_filterMap, hx, Option.bind_some, Option.some.injEq] at hx'
    exact .inl ⟨x, hx, hf, hx' ▸ rfl, hx' ▸ rfl⟩

-- What a step of the worker comes to.
structure Comes (s s' : Rows) (w : Option Work) : Prop where
  rows   : s'.Sound
  worker {w'} : w = some w' → w'.Holds s'
  extend : s.store.Extends s'.store

theorem Comes.stop (h : s'.Sound) (he : s.store.Extends s'.store) : s.Comes s' none :=
  ⟨h, by simp, he⟩

theorem Comes.failItem {key : Option Id} {id : Id} (h : s.Sound) :
    s.Comes ((s.removeStaging key).failItem id) none :=
  .stop h.removeStaging.failItem (extends_removeStaging.trans extends_removeStaging)

theorem Comes.finishReady {id o k : Id} {c : String} {n : Nat} (h : s.Sound)
    (hh : s.Handles id o k c n) : s.Comes (s.finishReady id o c n) none := by
  apply Comes.stop (h.finishReady hh)
  have store : (s.finishReady id o c n).store =
    { s.store with objects := (readyObject s.store o c n).objects } := readyObject_rows s.store o c n
  rw [store]
  exact .of_rows (Nat.le_refl _) rfl rfl

theorem Comes.promote {w : Work} {id o k : Id} {c : String} {n : Nat} (h : s.Sound)
    (hh : s.Handles id o k c n) (hw : w.Holds s) (hp : s.promote k o = .ok s') :
    s.Comes s' (some w) := by
  refine ⟨h.promote hh hp, ?_, extends_promote hp⟩
  intro w' he
  cases he
  exact hw.aside (.promote hp)

-- An item whose object is gone.
theorem Comes.abandonCommit {id : Id} {key row : Option Id} {r : Except SyncError Rows} (h : s.Sound)
    (hs : s.abandonCommit id key none row = some r) : ∃ s', r = .ok s' ∧ s.Comes s' none := by
  cases hs
  have removed : (s.removeStaging key).Sound := h.removeStaging
  have linked := removed.keep (.withStore removed .refl) removed.regular
  refine ⟨_, rfl, .stop (linked.updateItem fun x _ => ?_) extends_removeStaging⟩
  exact .drop fun _ => ⟨⟨fun h => h, by simp, fun h => h⟩, by simp⟩

variable {a : Answer} {id : Id} {item : Item}

-- The row that the worker has read has an object, a staging file and a checksum, so that only a
-- missing row of the object leads to `abandon_commit`.
theorem resume_comes {stage : ResumeStage} {p : Progress} (h : s.Sound)
    (hw : (Work.resume id item stage).Holds s) (hs : s.resume a id item stage = some (s', p)) :
    s.Comes s' p.work := by
  obtain ⟨hi, o, k, c, ho, hk, hc, hh, hst⟩ := hw
  cases stage <;> simp only [Rows.resume] at hs
  case selected =>
    split at hs
    case h_1 =>
      obtain ⟨r, hr, he⟩ := Option.map_eq_some_iff.mp hs
      obtain ⟨t, rfl, ht⟩ := Comes.abandonCommit h hr
      cases he
      exact ht
    case h_2 o' he =>
      cases hs
      refine ⟨h, ?_, .refl⟩
      intro w' hw'
      cases hw'
      have same : o' = o := by
        obtain ⟨he, -⟩ := Option.filter_eq_some_iff.mp he
        exact Option.some.inj (he.symm.trans ho)
      exact ⟨hi, o, k, c, ho, hk, hc, hh, same⟩
  case known o' =>
    cases hst
    have next : (Work.resume id item (.finishing o)).Holds s := ⟨hi, o, k, c, ho, hk, hc, hh, rfl⟩
    split at hs
    case isTrue =>
      cases hs
      refine ⟨h.removeStaging, ?_, extends_removeStaging⟩
      intro w' hw'
      cases hw'
      exact next.aside .removeStaging
    case isFalse =>
      rw [hk] at hs
      simp only at hs
      split at hs <;> cases hs
      case h_1    => exact .stop h .refl
      case h_2 hp => exact .promote h hh next hp
  case finishing o' =>
    cases hst
    rw [hc] at hs
    cases hs
    exact .finishReady h hh

variable [Collation]

theorem Comes.claimed (h : s.Sound) (hi : id < s.store.next) (hw : s.Claimed id) :
    s.Comes (s.download a id item .claimed).1 (s.download a id item .claimed).2.work := by
  have failed : s.Comes (s.failItem id) none := .stop h.failItem extends_removeStaging
  simp only [Rows.download]
  split
  case h_1 => exact failed
  case h_2 => exact .stop h.releaseItem .refl
  case h_3 => exact failed
  case h_4 =>
    have grown : s.store.next ≤ s.store.next + 3 := Nat.le_add_right _ _
    refine ⟨?_, ?_, .of_rows grown rfl rfl⟩
    case refine_1 =>
      refine h.of_items grown (fun {k b} hb => ?_) fun hx => ⟨_, hx, .refl⟩
      rw [Table.lookup_set] at hb
      split at hb
      case isTrue he => exact .inr (Nat.le_of_eq he.symm)
      case isFalse   => exact .inl hb
    case refine_2 =>
      intro w' he
      cases he
      refine ⟨Nat.lt_add_right 3 hi, hw, Nat.lt_add_of_pos_right (by decide), fun i x hx hk => ?_⟩
      exact Nat.lt_irrefl _ (h.key hx hk)

theorem Comes.keyed {k : Id} (h : s.Sound) (hi : id < s.store.next) (hw : s.Fetches id k) :
    s.Comes (s.download a id item (.keyed k)).1 (s.download a id item (.keyed k)).2.work := by
  simp only [Rows.download]
  split
  case h_1 => exact .failItem h
  case h_2 =>
    refine ⟨?_, ?_, .of_rows (Nat.le_refl _) rfl rfl⟩
    case refine_1 =>
      apply h.fetch hw
      intro j b hj hb
      simp only [Table.lookup_filterMap, Option.bind_eq_some_iff, Option.some.injEq, if_neg hj] at hb
      obtain ⟨b', hb', rfl⟩ := hb
      exact hb'
    case refine_2 =>
      intro w' he
      cases he
      refine ⟨hi, ⟨hw.claimed, hw.row, hw.key, hw.bound⟩, fun b hb => ?_⟩
      simp only [Table.lookup_filterMap, Option.bind_eq_some_iff, Option.some.injEq, if_true] at hb
      obtain ⟨-, -, rfl⟩ := hb
      exact ⟨rfl, rfl⟩

theorem Comes.staged {f : StagedFile} (h : s.Sound) (hi : id < s.store.next)
    (hw : s.Fetches id f.stagingKey) (hb : f.Staged s) :
    s.Comes (s.download a id item (.staged f)).1 (s.download a id item (.staged f)).2.work := by
  simp only [Rows.download]
  split
  case h_1 => exact .failItem h
  case h_2 t hc =>
    obtain ⟨files, g, ht, rfl⟩ := commitStaged_ok hc
    refine ⟨h.commitment hw hb ht, ?_, .of_rows (Nat.le_add_right _ _) rfl rfl⟩
    intro w' he
    cases he
    exact ⟨Nat.lt_add_right 3 hi, s.store.next, Handles.commitment h hw⟩

theorem download_comes {stage : DownloadStage} (h : s.Sound) (hi : id < s.store.next)
    (hw : stage.Holds s id) :
    s.Comes (s.download a id item stage).1 (s.download a id item stage).2.work := by
  cases stage <;> simp only [DownloadStage.Holds] at hw
  case claimed      => exact .claimed h hi hw
  case keyed        => exact .keyed h hi hw
  case staged       => exact .staged h hi hw.left hw.right
  case promoted f o => exact .finishReady h hw
  case created k    =>
    refine ⟨h.setKey hw.left hw.right, ?_, .refl⟩
    intro w' he
    cases he
    exact ⟨hi, .setKey hw.left hw.right⟩
  case committed f  =>
    obtain ⟨o, hw⟩ := hw
    simp only [Rows.download]
    split
    case h_1 => exact .stop h .refl
    case h_2 o' ho =>
      split
      case isFalse => exact .stop h .refl
      case isTrue  =>
        refine ⟨h, ?_, .refl⟩
        intro w' he
        cases he
        obtain ⟨x, hx, ho⟩ := Option.bind_eq_some_iff.mp ho
        cases ho.symm.trans (hw.row hx).right.left
        exact ⟨hi, hw⟩
  case located f o  =>
    simp only [Rows.download]
    split
    case h_1    => exact .stop h .refl
    case h_2 hp => exact .promote h hw (w := .download id item (.promoted f o)) ⟨hi, hw⟩ hp

theorem next_comes {w : Work} {p : Progress} (h : s.Sound) (hw : w.Holds s)
    (hs : w.next s a = some (s', p)) : s.Comes s' p.work := by
  cases w <;> simp only [Work.next] at hs
  case resume => exact resume_comes h hw hs
  case download id item stage =>
    have comes : s.Comes (s.download a id item stage).1 (s.download a id item stage).2.work :=
      download_comes h hw.left hw.right
    rw [Option.some.inj hs] at comes
    exact comes

end Rows

namespace Server

variable [Digest]

structure Sound (s : Server) : Prop where
  rows : s.rows.Sound
  worker {w} : s.worker = some w → w.Holds s.rows
  uploads {i c} : s.uploads.lookup i = some c → c.Bound s.rows.store

variable {s s' : Server} {rows : Rows}

theorem Sound.init : Sound {} where
  worker h  := by contradiction
  uploads h := by contradiction
  rows      := by
    constructor
    case regular    => exact ⟨by constructor <;> intros <;> contradiction,
      by constructor <;> intros <;> contradiction, Store.recorded_empty,
      by constructor <;> intros <;> contradiction⟩
    case imported   => rintro f (⟨i, x, hx, -⟩ | ⟨g, hg⟩) <;> contradiction
    all_goals intros; contradiction

theorem Sound.aside (h : s.Sound) (hr : rows.Sound) (ha : s.rows.Aside rows)
    (he : s.rows.store.Extends rows.store) : Sound { s with rows } where
  rows      := hr
  worker hw := (h.worker hw).aside ha
  uploads h' := (h.uploads h').extend he

theorem Sound.spare {store : Store} (h : s.Sound) (hs : s.rows.store.Spares store)
    (hr : store.Regular) (he : s.rows.store.Extends store) :
    Sound { s with rows := s.rows.withStore store } :=
  h.aside (h.rows.keep (.withStore h.rows hs) hr) (.withStore h.rows hs) he

theorem Sound.createUpload {session : Session} {bytes : List UInt8} {store : Store} (h : s.Sound)
    (hc : s.rows.store.createUpload session bytes = some store) :
    Sound { s with rows := s.rows.withStore store } := by
  have follows := h.rows.regular.recorded.createUpload hc
  exact h.spare (.createUpload hc) ⟨h.rows.regular.proper.createUpload hc,
    h.rows.regular.backed.createUpload hc, follows.recorded, h.rows.regular.carried.createUpload hc⟩
    follows.extend

variable [Collation]

theorem regular_moves {store store' : Store} {env : Env} {c : Finalize} {k : Option Finalize}
    (h : store.Regular) (hb : c.Bound store) (m : c.Moves store env store' k) : store'.Regular where
  proper   := m.proper h.proper
  backed   := m.backed h.backed h.proper
  recorded := (m.follow h.recorded hb).left.recorded
  carried  := m.carried h.carried h.proper h.backed h.recorded

theorem Sound.moves {env : Env} {c : Finalize} {k : Option Finalize} {store : Store} (h : s.Sound)
    (hb : c.Bound s.rows.store) (m : c.Moves s.rows.store env store k) :
    Sound { s with rows := s.rows.withStore store } := by
  have regular := h.rows.regular
  have follows := (m.follow regular.recorded hb).left
  exact h.spare (m.spares regular.carried regular.proper regular.recorded hb)
    (regular_moves regular hb m) follows.extend

theorem Sound.step {l : Label} (h : s.Sound) (hs : s.step l = some s') : s'.Sound := by
  cases l <;> simp only [Server.step] at hs
  case createUpload =>
    obtain ⟨store, hc, rfl⟩ := Option.map_eq_some_iff.mp hs
    exact h.createUpload hc
  case finalize i owner upload checksum =>
    split at hs <;> cases hs
    refine ⟨h.rows, h.worker, fun {j c} hj => ?_⟩
    rw [Table.lookup_set] at hj
    split at hj
    case isTrue  => cases hj; exact trivial
    case isFalse => exact h.uploads hj
  case nextUpload i env =>
    split at hs <;> try contradiction
    case h_2 c hi =>
      obtain ⟨⟨store, k⟩, hn, rfl⟩ := Option.map_eq_some_iff.mp hs
      have m := Finalize.next_moves hn
      have moved := h.moves (h.uploads hi) m
      refine ⟨moved.rows, moved.worker, fun {j c'} hj => ?_⟩
      cases k
      case none =>
        rw [Table.lookup_erase] at hj
        split at hj
        case isTrue  => contradiction
        case isFalse => exact moved.uploads hj
      case some k =>
        rw [Table.lookup_set] at hj
        split at hj
        case isTrue  =>
          cases hj
          exact (m.follow h.rows.regular.recorded (h.uploads hi)).right _ rfl
        case isFalse => exact moved.uploads hj
  case dropUpload i =>
    cases hs
    refine ⟨h.rows, h.worker, fun {j c} hj => ?_⟩
    rw [Table.lookup_erase] at hj
    split at hj
    case isTrue  => contradiction
    case isFalse => exact h.uploads hj
  case addSource =>
    cases hs
    exact h.aside h.rows.insertSource .insertSource (.of_rows (Nat.le_succ _) rfl rfl)
  case list source googleFileId name parentLocalId =>
    split at hs <;> cases hs
    exact h.aside (h.rows.insertItem rfl rfl rfl rfl) (.insertItem rfl rfl)
      (.of_rows (Nat.le_succ _) rfl rfl)
  case recover removed =>
    split at hs <;> cases hs
    case h_1 hw =>
      refine ⟨h.rows.recoverDownloads, fun he => ?_, fun hi => ?_⟩
      case refine_1 => cases hw.symm.trans he
      case refine_2 => exact (h.uploads hi).extend (.of_rows (Nat.le_refl _) rfl rfl)
  case claim id =>
    split at hs <;> try contradiction
    case h_1 item hw hx =>
      split at hs <;> cases hs
      refine ⟨h.rows.updateItem fun x _ => ⟨⟨fun h => h, fun h => h, fun h => h⟩, by simp⟩,
        fun he => ?_, h.uploads⟩
      cases he
      refine ⟨h.rows.ids hx, fun x' hx' => ?_⟩
      obtain ⟨x, -, rfl⟩ := Option.map_eq_some_iff.mp (Rows.lookup_updateItem.symm.trans hx')
      simp
  case resume id =>
    split at hs <;> try contradiction
    case h_1 item hw hx =>
      split at hs
      case isFalse   => cases hs
      case isTrue hc =>
        cases hs
        refine ⟨h.rows, fun he => ?_, h.uploads⟩
        cases he
        obtain ⟨o, k, f, c, hi⟩ := h.rows.committing hx hc
        refine ⟨h.rows.ids hx, o, k, c, hi.object, hi.key, hi.checksum, ⟨fun hy => ?_, fun hy ho => ?_,
          fun hy hk => ?_, (h.rows.object hx hi.object).left, h.rows.key hx hi.key⟩, trivial⟩
        case refine_1 =>
          cases hx.symm.trans hy
          exact ⟨hc, hi.object, hi.key, hi.checksum, rfl⟩
        case refine_2 => exact h.rows.objects hy hx ho hi.object
        case refine_3 => exact h.rows.keys hy hx hk hi.key
  case work a =>
    split at hs <;> try contradiction
    case h_2 w hw =>
      obtain ⟨⟨rows, p⟩, hn, rfl⟩ := Option.map_eq_some_iff.mp hs
      have comes := Rows.next_comes h.rows (h.worker hw) hn
      exact ⟨comes.rows, comes.worker, fun hi => (h.uploads hi).extend comes.extend⟩
  case crash =>
    cases hs
    exact ⟨h.rows, by simp, h.uploads⟩
  case loseStaging =>
    cases hs
    exact h.aside h.rows.removeStaging .removeStaging Rows.extends_removeStaging
  case removeSource =>
    split at hs <;> try contradiction
    split at hs <;> cases hs
    exact ⟨h.rows, h.worker, h.uploads⟩
  case nextRemoval =>
    split at hs <;> cases hs
    case h_2 r _ =>
      have removed : Sound { s with rows := s.rows.removeSource r } :=
        h.aside h.rows.removeSource .removeSource Rows.extends_removeSource
      exact ⟨removed.rows, removed.worker, removed.uploads⟩
  case dropRemoval =>
    cases hs
    exact ⟨h.rows, h.worker, h.uploads⟩
  case disconnect =>
    cases hs
    exact h.aside h.rows.disconnect .disconnect (.of_rows (Nat.le_refl _) rfl rfl)

theorem sound_reaches (e : Reaches Server.step {} s) : s.Sound :=
  e.invariant Sound.init fun h _ hs => h.step hs

end Server
end MyDrive.Google
