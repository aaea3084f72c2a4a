import MyDrive.Backup.Theorems.Handlers
import MyDrive.Backup.Theorems.Transfer

-- Whatever gets lost and whenever either side stops, the client sends nothing but the file, never goes
-- back behind what the server has, and takes no file as backed up that the server does not hold.

namespace MyDrive.Backup.Wire

open Transfers (Store Session UploadFinalized Digest)
open Execution

section

variable [Digest]

variable {g : Setting} {store store' : Store} {u : Id} {n : Nat}

-- The server has the first `n` bytes of an upload.
def Reached (store : Store) (u : Id) (n : Nat) : Prop :=
  ∃ x, store.sessions.lookup u = some x ∧ n ≤ x.receivedSize

-- A row of the index with the file that a finalization has returned.
def Marked (store : Store) (row : FileIndexRow) : Prop :=
  ∃ u r, .returned u r ∈ store.history ∧ row.remoteFileId = some r.fileId

def Request.upload : Request → Option Id
  | .create      => none
  | .head u      => some u
  | .patch u _ _ => some u
  | .finalize u  => some u

def Request.Proper (g : Setting) (store : Store) : Request → Prop
  | .patch u offset body =>
    (body ≠ [] ∧ body.length ≤ Transfers.maxPatchBytes ∧ body <+: g.file.drop offset) ∧
      Reached store u offset
  | _                    => True

def Reply.Proper (store : Store) : Request → Reply → Prop
  | .create,          .created u   => Reached store u 0
  | .head u,          .offset n    => Reached store u n
  | .patch u start _, .offset n    => start < n ∧ Reached store u n
  | .patch u start _, .conflict n  => start < n ∧ Reached store u n
  | .finalize u,      .finalized r => .returned u r ∈ store.history
  | _,                _            => False

def Event.Proper (g : Setting) (store : Store) : Event → Prop
  | .sent _ offset body   =>
    body ≠ [] ∧ body.length ≤ Transfers.maxPatchBytes ∧ body <+: g.file.drop offset
  | .moved u before after => before < after ∧ Reached store u after
  | .stored u             => Stored g store u

structure Fits (g : Setting) (store : Store) (item : UploadItem) : Prop where
  hash : item.contentHash = some g.hash
  size : item.fileSize = g.file.length
  upload {v} : item.remoteUploadId = some v → Reached store v item.bytesSent
  done : item.state = .completed → ∃ u, item.remoteUploadId = some u ∧ Stored g store u

-- What is known where a transfer is.
def Stands (g : Setting) (store : Store) (t : Transfer) : Prop :=
  match t.stage with
  | .touching | .saving _ => True
  | .patching count       => t.item.state ≠ .completed ∧ 0 < count ∧
    count ≤ (g.file.drop t.item.bytesSent).length ∧ count ≤ Transfers.maxPatchBytes
  | .marking row          => t.item.state ≠ .completed ∧ Marked store row ∧
    ∃ u, t.item.remoteUploadId = some u ∧ Stored g store u
  | .completing           => t.item.state ≠ .completed ∧
    ∃ u, t.item.remoteUploadId = some u ∧ Stored g store u
  | _                     => t.item.state ≠ .completed

theorem Reached.advance (a : Advances g store store') (h : Reached store u n) : Reached store' u n := by
  obtain ⟨x, hx, hn⟩ := h
  obtain ⟨x', hx', hr⟩ := a.grows hx
  exact ⟨x', hx', Nat.le_trans hn hr⟩

theorem Marked.advance {row : FileIndexRow} (a : Advances g store store') (h : Marked store row) :
    Marked store' row := by
  obtain ⟨u, r, hr, he⟩ := h
  exact ⟨u, r, a.follows.extend.history hr, he⟩

theorem Request.Proper.advance {q : Request} (a : Advances g store store') (h : q.Proper g store) :
    q.Proper g store' := by
  cases q
  case patch => exact ⟨h.left, h.right.advance a⟩
  all_goals trivial

theorem Reply.Proper.advance {q : Request} {r : Reply} (a : Advances g store store')
    (h : r.Proper store q) : r.Proper store' q := by
  cases q <;> cases r
  case create.created     => exact Reached.advance a h
  case head.offset        => exact Reached.advance a h
  case patch.offset       => exact ⟨h.left, h.right.advance a⟩
  case patch.conflict     => exact ⟨h.left, h.right.advance a⟩
  case finalize.finalized => exact a.follows.extend.history h
  all_goals exact h

theorem Event.Proper.advance {e : Event} (a : Advances g store store') (h : e.Proper g store) :
    e.Proper g store' := by
  cases e
  case sent   => exact h
  case moved  => exact ⟨h.left, h.right.advance a⟩
  case stored => exact a.stored h

theorem Fits.advance {item : UploadItem} (a : Advances g store store') (h : Fits g store item) :
    Fits g store' item where
  hash      := h.hash
  size      := h.size
  upload hu := (h.upload hu).advance a
  done hc   := by
    obtain ⟨u, hu, hs⟩ := h.done hc
    exact ⟨u, hu, a.stored hs⟩

theorem Stands.advance {t : Transfer} (a : Advances g store store') (h : Stands g store t) :
    Stands g store' t := by
  unfold Stands at *
  have stored (h : ∃ u, t.item.remoteUploadId = some u ∧ Stored g store u) :
      ∃ u, t.item.remoteUploadId = some u ∧ Stored g store' u := by
    obtain ⟨u, hu, hs⟩ := h
    exact ⟨u, hu, a.stored hs⟩
  split at h
  case h_4 => exact ⟨h.left, h.right.left.advance a, stored h.right.right⟩
  case h_5 => exact ⟨h.left, stored h.right⟩
  all_goals exact h

omit [Digest] in
theorem chunkBytes_le (settings : ClientSettings) (capabilities : ServerCapabilities) :
    chunkBytes settings capabilities ≤ Transfers.maxPatchBytes := by
  simp only [chunkBytes, Transfers.maxPatchBytes]
  omega

-- An object of a completed upload has all of its bytes.
theorem Stored.reached {s : Server} (h : s.Sound g) (hs : Stored g s.store u) :
    Reached s.store u g.file.length := by
  obtain ⟨x, o, hx, _, ho, _⟩ := hs
  obtain ⟨v, f, hr⟩ := h.recorded.storage hx ho
  obtain ⟨x', hx', _, hf⟩ := h.full hr
  cases hx.symm.trans hx'
  exact ⟨x, hx, Nat.le_of_eq (h.size hx ▸ hf.symm)⟩

-- The item of a row that a transfer writes, which keeps some of its columns.
theorem Fits.of_saveQueue {db : Database} {id id' : Id} {item row : UploadItem}
    (h : Fits g store item) (hq : ∀ {id row}, db.queue.lookup id = some row → Fits g store row)
    (hr : (db.saveQueue id item).queue.lookup id' = some row) : Fits g store row := by
  simp only [Database.saveQueue, Table.lookup_set] at hr
  split at hr
  case isFalse => exact hq hr
  case isTrue =>
    split at hr <;> cases hr
    case h_1 => exact h
    case h_2 => exact ⟨h.hash, h.size, h.upload, h.done⟩

theorem Fits.of_stays {t : Transfer} {a : Answer} {item : UploadItem} (h : Fits g store t.item)
    (hs : t.Stays a item) (ha : ∀ hash size, a ≠ .hashed hash size) (hc : item.state ≠ .completed) :
    Fits g store item := by
  obtain ⟨_, ⟨stamp, hash⟩ | ⟨hash, size, _, he, _⟩, upload⟩ := hs
  case inr => exact absurd he (ha hash size)
  refine ⟨hash.trans h.hash, (congrArg Stamp.fileSize stamp).trans h.size, fun hu => ?_,
    fun hd => absurd hd hc⟩
  rcases upload with ⟨hi, hb⟩ | ⟨hi, _⟩
  case inl => exact hb ▸ h.upload (hi ▸ hu)
  case inr => cases hi.symm.trans hu

-- What an answer tells the transfer.
structure Heard (g : Setting) (store : Store) (t : Transfer) (a : Answer) : Prop where
  created {v m} : a = .created v m → Reached store v m
  offset {v m} : a = .offset m → t.item.remoteUploadId = some v → Reached store v m
  thrown {v m e} : a = .thrown e → e.serverOffset = some m → t.item.remoteUploadId = some v →
    Reached store v m
  slice {m} : a = .slice m →
    m = ((g.file.drop t.item.bytesSent).take (chunkBytes g.settings g.capabilities)).length
  finalized {r} : a = .finalized r → ∃ v r', t.item.remoteUploadId = some v ∧
    .returned v r' ∈ store.history ∧ r.fileId = r'.fileId
  hashed (hash size) : a ≠ .hashed hash size

theorem Heard.of_inside {t : Transfer} {a : Answer} (h : inside a) : Heard g store t a := by
  cases a <;> first | contradiction | exact ⟨by simp, by simp, by simp, by simp, by simp, by simp⟩

structure Known (g : Setting) (store : Store) (db : Database) : Prop where
  queue {id item} : db.queue.lookup id = some item → Fits g store item
  index {k row} : db.index.lookup k = some row → Marked store row

theorem Known.saveQueue {db : Database} {id : Id} {item : UploadItem} (h : Known g store db)
    (hi : Fits g store item) : Known g store (db.saveQueue id item) where
  queue hr := hi.of_saveQueue h.queue hr
  index hr := h.index hr

section

variable {c : Context} {db db' : Database} {t : Transfer} {a : Answer} {k : Option Transfer}

theorem Stands.open (h : Stands g store t) (ht : t.stage ≠ .touching) (hs : ∀ job, t.stage ≠ .saving job) :
    t.item.state ≠ .completed := by
  unfold Stands at h
  split at h
  case h_1 he => exact absurd he ht
  case h_2 he => exact absurd he (hs _)
  case h_3    => exact h.left
  case h_4    => exact h.left
  case h_5    => exact h.left
  case h_6    => exact h

omit [Digest] in
theorem left_ne_completed {item : UploadItem} (h : item.Left) : item.state ≠ .completed := by
  intro he
  simp [UploadItem.Left, he] at h

omit [Digest] in
theorem claimed_ne_completed {item : UploadItem} (h : item.state.claimed) : item.state ≠ .completed := by
  intro he
  simp [he, QueueState.claimed] at h

-- A step of a transfer that has been told the truth.
theorem Known.moves {s : Server} (h : s.Sound g) (hd : Known g s.store db) (hf : Fits g s.store t.item)
    (hs : Stands g s.store t) (ha : Heard g s.store t a) (m : t.Moves c db a db' k) :
    Known g s.store db' ∧ ∀ t', k = some t' → Fits g s.store t'.item ∧ Stands g s.store t' := by
  cases m
  case leave item left stays =>
    exact ⟨hd.saveQueue (hf.of_stays stays ha.hashed (left_ne_completed left)), by simp⟩
  case save item stage claimed hm _ stays =>
    have fits := hf.of_stays stays ha.hashed (claimed_ne_completed claimed)
    refine ⟨hd.saveQueue fits, fun t' he => ?_⟩
    cases he
    refine ⟨fits, ?_⟩
    simp only [List.mem_cons, List.not_mem_nil, or_false] at hm
    rcases hm with rfl | rfl | rfl <;> exact claimed_ne_completed claimed
  case go item stage same hg hm _ stays =>
    have opened : item.state ≠ .completed := by
      rw [same]
      simp only [List.mem_cons, List.not_mem_nil, or_false] at hg
      rcases hg with ht | ht | ht <;> exact hs.open (by simp [ht]) (by simp [ht])
    refine ⟨hd, fun t' he => ?_⟩
    cases he
    refine ⟨hf.of_stays stays ha.hashed opened, ?_⟩
    simp only [List.mem_cons, List.not_mem_nil, or_false] at hm
    rcases hm with rfl | rfl <;> exact opened
  case create v m item ht hi =>
    have fits : Fits g s.store item := by
      rw [hi]
      exact ⟨hf.hash, hf.size, fun hu => by cases hu; exact ha.created rfl, by simp⟩
    exact ⟨hd.saveQueue fits, fun t' he => by cases he; exact ⟨fits, by simp [Stands, hi]⟩⟩
  case resume m item ht hi =>
    have fits : Fits g s.store item := by
      rw [hi]
      exact ⟨hf.hash, hf.size, fun hu => ha.offset rfl hu, by simp⟩
    exact ⟨hd.saveQueue fits, fun t' he => by cases he; exact ⟨fits, by simp [Stands, hi]⟩⟩
  case read m ht hl hn =>
    have opened := hs.open (by simp [ht]) (by simp [ht])
    refine ⟨hd, fun t' he => ?_⟩
    cases he
    have size := ha.slice rfl
    rw [List.length_take] at size
    have cap := chunkBytes_le g.settings g.capabilities
    exact ⟨hf, opened, Nat.pos_of_ne_zero hn, size ▸ Nat.min_le_right _ _,
      Nat.le_trans (size ▸ Nat.min_le_left _ _) cap⟩
  case finalize m ht =>
    have opened := hs.open (by simp [ht]) (by simp [ht])
    exact ⟨hd, fun t' he => by cases he; exact ⟨hf, opened⟩⟩
  case patch n m ht =>
    have opened := hs.open (by simp [ht]) (by simp [ht])
    have fits : Fits g s.store { t.item with bytesSent := m } :=
      ⟨hf.hash, hf.size, fun hu => ha.offset rfl hu, fun hc => absurd hc opened⟩
    exact ⟨hd.saveQueue fits, fun t' he => by cases he; exact ⟨fits, opened⟩⟩
  case resync n e m ht ho =>
    have opened := hs.open (by simp [ht]) (by simp [ht])
    have fits : Fits g s.store { t.item with bytesSent := m } :=
      ⟨hf.hash, hf.size, fun hu => ha.thrown rfl ho hu, fun hc => absurd hc opened⟩
    exact ⟨hd.saveQueue fits, fun t' he => by cases he; exact ⟨fits, opened⟩⟩
  case finish r row ht hm hr =>
    have opened := hs.open (by simp [ht]) (by simp [ht])
    obtain ⟨v, r', hu, hm, he⟩ := ha.finalized rfl
    refine ⟨hd, fun t' hk => ?_⟩
    cases hk
    exact ⟨hf, opened, ⟨v, r', hm, by simp [FileIndexRow.markBackedUp, he]⟩, v, hu, h.returned hm⟩
  case mark row ht =>
    simp only [Stands, ht] at hs
    obtain ⟨opened, marked, stored⟩ := hs
    refine ⟨⟨hd.queue, fun {k row'} hr => ?_⟩, fun t' he => by cases he; exact ⟨hf, opened, stored⟩⟩
    simp only [Database.upsertIndex, Table.lookup_set] at hr
    split at hr
    case isTrue  => cases hr; exact marked
    case isFalse => exact hd.index hr
  case complete item ht hi =>
    simp only [Stands, ht] at hs
    obtain ⟨opened, v, hu, stored⟩ := hs
    have fits : Fits g s.store item := by
      rw [hi]
      refine ⟨hf.hash, hf.size, fun hv => ?_, fun _ => ⟨v, hu, stored⟩⟩
      cases hu.symm.trans hv
      exact hf.size ▸ stored.reached h
    exact ⟨hd.saveQueue fits, fun t' he => by cases he; exact ⟨fits, trivial⟩⟩
  case gone ht hj => exact ⟨hd, by simp⟩
  case touch job ht hj => exact ⟨hd, fun t' he => by cases he; exact ⟨hf, trivial⟩⟩
  case touched job ht => exact ⟨⟨hd.queue, hd.index⟩, by simp⟩

end

-- A request with its ticket, wherever it is.
inductive Asked (s : Exchange) (i : Nat) (q : Request) : Prop
  | waiting : s.requests.lookup i = some q → Asked s i q
  | answered {r} : s.replies.lookup i = some (q, r) → Asked s i q
  | receiving {u r} : s.server.patches.lookup u = some r → r.ticket = i → r.request = q → Asked s i q
  | finalizing {c} : s.server.calls.lookup i = some c → q = .finalize c.upload → Asked s i q

omit [Digest] in
theorem Asked.of_le {s s' : Exchange} {i : Nat} {q : Request} (h : Asked s' i q)
    (requests : ∀ {i q}, s'.requests.lookup i = some q → s.requests.lookup i = some q)
    (replies : ∀ {i r}, s'.replies.lookup i = some r → s.replies.lookup i = some r)
    (server : s'.server = s.server) : Asked s i q := by
  cases h
  case waiting hq         => exact .waiting (requests hq)
  case answered hq        => exact .answered (replies hq)
  case receiving hp ht hr => exact .receiving (server ▸ hp) ht hr
  case finalizing hc he   => exact .finalizing (server ▸ hc) he

namespace Exchange

structure Inv (g : Setting) (s : Exchange) : Prop where
  server : s.server.Sound g
  known : Known g s.server.store s.db
  client {t} : s.client = some t → Fits g s.server.store t.item ∧ Stands g s.server.store t
  free : s.client = none → s.ticket = none
  asked {i q} : Asked s i q → i < s.next ∧ q.Proper g s.server.store
  own {i q t} : Asked s i q → s.ticket = some i → s.client = some t → outgoing g t = some q
  reply {i q r} : s.replies.lookup i = some (q, r) → r.Proper s.server.store q
  events {e} : e ∈ s.history → e.Proper g s.server.store

theorem Inv.init : Inv g {} where
  server   := .init
  known    := ⟨by simp, by simp⟩
  client h := by cases h
  free _   := rfl
  asked h  := by cases h <;> simp_all
  own _ h  := by cases h
  reply h  := by simp at h
  events h := by cases h

section

variable {s s' : Exchange} {i : Nat} {now : Time} {t : Transfer} {a : Answer}

-- What happens on the server, or on the way.
theorem Inv.serve {server : Server} {requests : Table Nat Request} {replies : Table Nat (Request × Reply)}
    (h : s.Inv g) (hs : server.Sound g) (ha : Advances g s.server.store server.store)
    (asked : ∀ {i q}, Asked { s with server, requests, replies } i q → Asked s i q)
    (reply : ∀ {i q r}, replies.lookup i = some (q, r) →
      s.replies.lookup i = some (q, r) ∨ r.Proper server.store q) :
    Inv g { s with server, requests, replies } where
  server   := hs
  known    := ⟨fun hr => (h.known.queue hr).advance ha, fun hr => (h.known.index hr).advance ha⟩
  client h' := ⟨(h.client h').left.advance ha, (h.client h').right.advance ha⟩
  free     := h.free
  asked hq := ⟨(h.asked (asked hq)).left, (h.asked (asked hq)).right.advance ha⟩
  own hq   := h.own (asked hq)
  reply hr := (reply hr).elim (fun hr => (h.reply hr).advance ha) id
  events he := (h.events he).advance ha

theorem Inv.replied {q : Request} {server : Server} {r : Option Reply} (h : s.Inv g)
    (hs : server.Sound g) (ha : Advances g s.server.store server.store) (hq : Asked s i q)
    (patches : ∀ {u r}, server.patches.lookup u = some r → Asked s r.ticket r.request)
    (calls : ∀ {j c}, server.calls.lookup j = some c → Asked s j (.finalize c.upload))
    (hr : ∀ r', r = some r' → r'.Proper server.store q) : Inv g (s.reply i q server r) := by
  have replies {j q' r'} (hj : (s.reply i q server r).replies.lookup j = some (q', r')) :
      s.replies.lookup j = some (q', r') ∨ j = i ∧ q' = q ∧ r = some r' := by
    cases r
    case none => exact .inl hj
    case some =>
      simp only [Exchange.reply, Table.lookup_set] at hj
      split at hj
      case isTrue hi => cases hj; exact .inr ⟨hi, rfl, rfl⟩
      case isFalse   => exact .inl hj
  refine h.serve hs ha (fun {j q'} hj => ?asked) fun {j q' r'} hj => ?reply
  case asked =>
    cases hj
    case waiting hj =>
      simp only [Table.lookup_erase] at hj
      split at hj
      case isTrue  => cases hj
      case isFalse => exact .waiting hj
    case answered hj =>
      rcases replies hj with hj | ⟨rfl, rfl, _⟩
      case inl => exact .answered hj
      case inr => exact hq
    case receiving hp ht hr => exact hr ▸ ht ▸ patches hp
    case finalizing hc he   => exact he ▸ calls hc
  case reply =>
    rcases replies hj with hj | ⟨_, rfl, he⟩
    case inl => exact .inl hj
    case inr => exact .inr (hr _ he)

-- A step of the client, which waits for no response after it.
theorem Inv.go {db : Database} {client : Option Transfer} {replies : Table Nat (Request × Reply)}
    {history : List Event} (h : s.Inv g) (known : Known g s.server.store db)
    (stands : ∀ {t}, client = some t → Fits g s.server.store t.item ∧ Stands g s.server.store t)
    (hr : ∀ {i r}, replies.lookup i = some r → s.replies.lookup i = some r)
    (events : ∀ {e}, e ∈ history → e.Proper g s.server.store) :
    Inv g { s with db, client, ticket := none, replies, history } where
  server   := h.server
  known    := known
  client   := stands
  free _   := rfl
  asked hq := h.asked (hq.of_le id hr rfl)
  own _ ht := by cases ht
  reply hq := h.reply (hr hq)
  events   := events

theorem Inv.db {db : Database} (h : s.Inv g) (known : Known g s.server.store db) :
    Inv g { s with db } where
  server   := h.server
  known    := known
  client   := h.client
  free     := h.free
  asked hq := h.asked (hq.of_le id id rfl)
  own hq   := h.own (hq.of_le id id rfl)
  reply    := h.reply
  events   := h.events

theorem advance_eq_some (hs : s.advance g a now = some s') :
    ∃ t db k, s.client = some t ∧ t.Moves (g.context now) s.db a db k ∧
      s' = { s with db, client := k, ticket := none } := by
  simp only [advance, Option.bind_eq_some_iff, Option.map_eq_some_iff] at hs
  obtain ⟨t, ht, ⟨db, k⟩, hn, rfl⟩ := hs
  exact ⟨t, db, k, ht, Transfer.next_moves hn, rfl⟩

theorem Inv.advance (h : s.Inv g) (ha : ∀ {t}, s.client = some t → Heard g s.server.store t a)
    (hs : s.advance g a now = some s') : s'.Inv g := by
  obtain ⟨t, db, k, ht, m, rfl⟩ := advance_eq_some hs
  obtain ⟨fits, stands⟩ := h.client ht
  obtain ⟨known, client⟩ := h.known.moves h.server fits stands (ha ht) m
  exact h.go known (client _) id h.events

-- The upload of a request is that of the item.
theorem upload_of_outgoing {q : Request} (h : outgoing g t = some q) (hu : q.upload = some u) :
    t.item.remoteUploadId = some u := by
  unfold outgoing at h
  split at h
  case h_1 => cases h; cases hu
  case h_5 => cases h
  all_goals
    obtain ⟨w, hw, rfl⟩ := Option.map_eq_some_iff.mp h
    cases hu
    exact hw

theorem Inv.heard {q : Request} {r : Reply} (h : s.Inv g) (ht : s.client = some t)
    (hi : s.ticket = some i) (hr : s.replies.lookup i = some (q, r)) :
    Heard g s.server.store t r.answer := by
  have proper := h.reply hr
  have upload {u} (hu : q.upload = some u) := upload_of_outgoing (h.own (.answered hr) hi ht) hu
  cases q <;> cases r <;> simp only [Reply.Proper] at proper
  case create.created =>
    refine ⟨fun he => ?_, by simp [Reply.answer], by simp [Reply.answer], by simp [Reply.answer],
      by simp [Reply.answer], by simp [Reply.answer]⟩
    cases he
    exact proper
  case head.offset =>
    refine ⟨by simp [Reply.answer], fun he hu => ?_, by simp [Reply.answer], by simp [Reply.answer],
      by simp [Reply.answer], by simp [Reply.answer]⟩
    cases he
    cases (upload rfl).symm.trans hu
    exact proper
  case patch.offset =>
    refine ⟨by simp [Reply.answer], fun he hu => ?_, by simp [Reply.answer], by simp [Reply.answer],
      by simp [Reply.answer], by simp [Reply.answer]⟩
    cases he
    cases (upload rfl).symm.trans hu
    exact proper.right
  case patch.conflict =>
    refine ⟨by simp [Reply.answer], by simp [Reply.answer], fun he ho hu => ?_, by simp [Reply.answer],
      by simp [Reply.answer], by simp [Reply.answer]⟩
    cases he
    cases ho
    cases (upload rfl).symm.trans hu
    exact proper.right
  case finalize.finalized =>
    refine ⟨by simp [Reply.answer], by simp [Reply.answer], by simp [Reply.answer], by simp [Reply.answer],
      fun he => ?_, by simp [Reply.answer]⟩
    cases he
    exact ⟨_, _, upload rfl, proper, rfl⟩

theorem Inv.received {q : Request} {r : Reply} {e : Event} (h : s.Inv g)
    (hr : s.replies.lookup i = some (q, r)) (he : e ∈ r.received q) : e.Proper g s.server.store := by
  have proper := h.reply hr
  cases q <;> cases r <;> simp only [Reply.received, List.not_mem_nil, List.mem_singleton] at he
  case patch.offset       => cases he; exact proper
  case patch.conflict     => cases he; exact proper
  case finalize.finalized => cases he; exact h.server.returned proper

theorem Inv.receive (h : s.Inv g) (hs : s.receive g now = some s') : s'.Inv g := by
  simp only [Exchange.receive, Option.bind_eq_some_iff, Option.map_eq_some_iff] at hs
  obtain ⟨i, hi, ⟨q, r⟩, hr, x, hx, rfl⟩ := hs
  obtain ⟨t, db, k, ht, m, rfl⟩ := advance_eq_some hx
  obtain ⟨fits, stands⟩ := h.client ht
  obtain ⟨known, client⟩ := h.known.moves h.server fits stands (h.heard ht hi hr) m
  refine h.go known (client _) (fun hj => ?_) fun he => ?_
  case refine_1 =>
    rw [Table.lookup_erase] at hj
    split at hj <;> trivial
  case refine_2 => exact (List.mem_append.mp he).elim h.events (h.received hr)

theorem Inv.send (h : s.Inv g) (hs : s.send g = some s') : s'.Inv g := by
  simp only [Exchange.send, Option.bind_eq_some_iff] at hs
  obtain ⟨t, ht, q, hq, hs⟩ := hs
  split at hs <;> cases hs
  have fresh {q'} (h' : Asked s s.next q') : False := Nat.lt_irrefl _ (h.asked h').left
  have earlier {i q'} (h' : Asked { s with
      ticket   := some s.next
      next     := s.next + 1
      requests := s.requests.set s.next q
      history  := s.history ++ q.sent } i q') : i = s.next ∧ q' = q ∨ Asked s i q' := by
    cases h'
    case waiting hq'        =>
      simp only [Table.lookup_set] at hq'
      split at hq'
      case isTrue hi => cases hq'; exact .inl ⟨hi, rfl⟩
      case isFalse   => exact .inr (.waiting hq')
    case answered hr        => exact .inr (.answered hr)
    case receiving hp ht hr => exact .inr (.receiving hp ht hr)
    case finalizing hc he   => exact .inr (.finalizing hc he)
  obtain ⟨fits, stands⟩ := h.client ht
  have proper : q.Proper g s.server.store ∧ ∀ e ∈ q.sent, e.Proper g s.server.store := by
    unfold outgoing at hq
    split at hq
    case h_1 => cases hq; exact ⟨trivial, by simp [Request.sent]⟩
    case h_5 => cases hq
    case h_3 count hst =>
      obtain ⟨u, hu, rfl⟩ := Option.map_eq_some_iff.mp hq
      simp only [Stands, hst] at stands
      obtain ⟨_, pos, le, cap⟩ := stands
      have body : (g.file.drop t.item.bytesSent).take count ≠ [] ∧
          ((g.file.drop t.item.bytesSent).take count).length ≤ Transfers.maxPatchBytes ∧
          (g.file.drop t.item.bytesSent).take count <+: g.file.drop t.item.bytesSent := by
        refine ⟨List.ne_nil_of_length_pos ?_, ?_, List.take_prefix _ _⟩ <;> rw [List.length_take] <;> omega
      refine ⟨⟨body, fits.upload hu⟩, fun e he => ?_⟩
      cases List.mem_singleton.mp he
      exact body
    all_goals
      obtain ⟨u, _, rfl⟩ := Option.map_eq_some_iff.mp hq
      exact ⟨trivial, by simp [Request.sent]⟩
  refine ⟨h.server, h.known, h.client, fun hn => ?free, fun h' => ?asked, fun {i q' t'} h' hi ht' => ?own,
    h.reply, fun he => ?events⟩
  case free => cases ht.symm.trans hn
  case asked =>
    rcases earlier h' with ⟨rfl, rfl⟩ | h'
    case inl => exact ⟨Nat.lt_succ_self _, proper.left⟩
    case inr => exact ⟨Nat.lt_succ_of_lt (h.asked h').left, (h.asked h').right⟩
  case own =>
    cases hi
    cases ht.symm.trans ht'
    rcases earlier h' with ⟨_, rfl⟩ | h'
    case inl => exact hq
    case inr => exact (fresh h').elim
  case events => exact (List.mem_append.mp he).elim h.events (proper.right _)

theorem Inv.scan {existing : Option Id} {new : Id} {item : UploadItem} (h : s.Inv g)
    (hs : s.scan g existing new item = some s') : s'.Inv g := by
  unfold Exchange.scan at hs
  split at hs
  case isFalse => contradiction
  case isTrue hc =>
    simp only [Bool.and_eq_true, decide_eq_true_eq] at hc
    obtain ⟨⟨⟨⟨⟨_, size⟩, hash⟩, state⟩, _⟩, upload⟩ := hc
    obtain ⟨db, hd, rfl⟩ := Option.map_eq_some_iff.mp hs
    have fits : Fits g s.server.store item :=
      ⟨hash, size, fun hu => by simp [upload] at hu, by simp [state]⟩
    refine h.db ?_
    unfold Database.enqueue at hd
    split at hd
    case h_1 => split at hd <;> cases hd; exact h.known.saveQueue fits
    case h_2 =>
      split at hd
      case isFalse => contradiction
      case isTrue =>
        obtain ⟨current, hq, rfl⟩ := Option.map_eq_some_iff.mp hd
        refine h.known.saveQueue ?_
        unfold UploadItem.renewed
        split
        case isFalse => exact fits
        case isTrue =>
          refine ⟨hash, size, fun hu => (h.known.queue hq).upload hu, fun hc => ?_⟩
          cases hst : current.state <;> simp [QueueState.renewed, hst, state] at hc

theorem Inv.reset (h : s.Inv g) : Inv g { s with db := s.db.resetInterrupted } := by
  refine h.db ⟨fun hr => ?_, h.known.index⟩
  simp only [Database.resetInterrupted, Database.updateQueue, Table.lookup_filterMap,
    Option.bind_eq_some_iff, Option.some.injEq] at hr
  obtain ⟨item, hq, rfl⟩ := hr
  have fits := h.known.queue hq
  split
  case isTrue  => exact ⟨fits.hash, fits.size, fits.upload, by simp⟩
  case isFalse => exact fits

theorem Inv.claim {w : Id} {r : Database × UploadItem} (h : s.Inv g) (hn : s.client = none)
    (hc : s.db.claimNext now w = some r) :
    Inv g { s with db := r.1, client := some { id := w, item := r.2 } } := by
  obtain ⟨item, hq, hc⟩ := Option.bind_eq_some_iff.mp hc
  split at hc <;> cases hc
  have fits : Fits g s.server.store { item with state := .uploading } :=
    have old := h.known.queue hq
    ⟨old.hash, old.size, old.upload, by simp⟩
  have idle := h.free hn
  refine ⟨h.server, ⟨fun hr => ?_, h.known.index⟩, fun ht => ?_, by simp, fun hq => ?_, fun _ hi => ?_, h.reply,
    h.events⟩
  case refine_1 =>
    simp only [Table.lookup_set] at hr
    split at hr
    case isTrue  => cases hr; exact fits
    case isFalse => exact h.known.queue hr
  case refine_2 => cases ht; exact ⟨fits, by simp [Stands]⟩
  case refine_3 => exact h.asked (hq.of_le id id rfl)
  case refine_4 => cases idle.symm.trans hi

theorem Inv.create {session : Session} {store : Store} (h : s.Inv g)
    (hq : s.requests.lookup i = some .create) (hs : session.expectedSize = g.file.length)
    (hc : s.server.store.createUpload session [] = some store) :
    Inv g (s.reply i .create { s.server with store } (some (.created (s.server.store.next + 1)))) := by
  obtain ⟨sound, advances, x, hx⟩ := h.server.create hs hc
  refine h.replied sound advances (.waiting hq) (fun hp => .receiving hp rfl rfl)
    (fun hc => .finalizing hc rfl) fun r hr => ?_
  cases hr
  exact ⟨x, hx, Nat.zero_le _⟩

omit [Digest] in
theorem headUpload_ok {server : Server} {owner : Id} (h : server.headUpload owner u now = .ok n) :
    Reached server.store u n := by
  simp only [Server.headUpload, Except.bind_eq_ok_iff, Except.ite_throw_eq_ok_iff] at h
  obtain ⟨x, hx, _, _, hr⟩ := h
  cases hr
  exact ⟨x, (Store.fetchUploadForUpdate_ok hx).left, Nat.le_refl _⟩

theorem Inv.head (h : s.Inv g) (hq : s.requests.lookup i = some (.head u)) :
    Inv g (s.reply i (.head u) s.server
      ((s.server.headUpload g.owner u now).toOption.map .offset)) := by
  refine h.replied h.server (.refl h.server.recorded) (.waiting hq) (fun hp => .receiving hp rfl rfl)
    (fun hc => .finalizing hc rfl) fun r hr => ?_
  obtain ⟨n, hn, rfl⟩ := Option.map_eq_some_iff.mp hr
  cases ho : s.server.headUpload g.owner u now
  case error => simp [ho, Except.toOption] at hn
  case ok m  =>
    rw [ho] at hn
    cases hn
    exact headUpload_ok ho

omit [Digest] in
theorem offsetConflict_of_admitPatch {session : Transfers.UploadSession} {offset : Nat}
    {body : List UInt8}
    (h : Transfers.admitPatch session (headers offset body) now = .error (.offsetConflict n)) :
    session.receivedSize ≠ offset ∧ n = session.receivedSize := by
  unfold Transfers.admitPatch at h
  cases ho : Transfers.patchOffset (headers offset body)
  case error e =>
    rw [ho] at h
    cases h
    simp only [Transfers.patchOffset, headers, ne_eq, not_true_eq_false, if_false] at ho
    split at ho <;> cases ho
  case ok m =>
    cases Server.offset_of_patchOffset ho
    rw [ho, Except.ok_bind] at h
    cases ha : Transfers.requireActive session now
    case error e =>
      rw [ha] at h
      cases h
      unfold Transfers.requireActive Transfers.requireNotExpired at ha
      split at ha
      case h_1 => split at ha <;> cases ha
      all_goals cases ha
    case ok =>
      rw [ha, Except.ok_bind] at h
      by_cases hn : session.receivedSize ≠ offset
      case pos => rw [if_pos hn] at h; cases h; exact ⟨hn, rfl⟩
      case neg => rw [if_neg hn] at h; split at h <;> cases h

omit [Digest] in
-- The offset that a conflict reports is beyond that of the request.
theorem conflict_of_beginPatch {server : Server} {owner ticket offset : Nat} {body : List UInt8}
    (h : Reached server.store u offset)
    (hb : server.beginPatch ticket owner u offset body now = .error (.offsetConflict n)) :
    offset < n ∧ Reached server.store u n := by
  obtain ⟨x, hx, hn⟩ := h
  unfold Server.beginPatch at hb
  cases hf : server.store.fetchUploadForUpdate owner u
  case error e =>
    rw [hf] at hb
    cases hb
    unfold Store.fetchUploadForUpdate at hf
    split at hf
    case h_1 => cases hf
    case h_2 => split at hf <;> cases hf
  case ok y =>
    cases hx.symm.trans (Store.fetchUploadForUpdate_ok hf).left
    rw [hf, Except.ok_bind] at hb
    cases ha : Transfers.admitPatch x.toUploadSession (headers offset body) now
    case ok    => rw [ha] at hb; cases hb
    case error =>
      rw [ha] at hb
      cases hb
      obtain ⟨hne, rfl⟩ := offsetConflict_of_admitPatch ha
      exact ⟨by omega, x, hx, Nat.le_refl _⟩

theorem Inv.patch {l : Transfers.Label} {q : Receiving × Transfers.Upload × Server} {r : Option Reply}
    (h : s.Inv g) (hs : s.server.stepPatch u l = some q)
    (hr : ∀ r', r = some r' → l = .commit ∧ r' = .offset q.2.1.session.receivedSize) :
    Inv g (s.reply q.1.ticket q.1.request q.2.2 r) := by
  obtain ⟨sound, advances, hp, calls, patches, commit⟩ := h.server.stepPatch hs
  refine h.replied sound advances (.receiving hp rfl rfl) (fun hp => ?_)
    (fun hc => .finalizing (calls ▸ hc) rfl) fun r' he => ?_
  case refine_1 =>
    obtain ⟨r', hr', ticket, request⟩ := patches hp
    exact .receiving hr' ticket.symm request.symm
  case refine_2 =>
    obtain ⟨hl, rfl⟩ := hr r' he
    obtain ⟨body, request⟩ := (h.server.patch hp).request
    obtain ⟨ahead, x, hx, received⟩ := commit hl
    rw [request]
    exact ⟨ahead, x, hx, Nat.le_of_eq received.symm⟩

theorem Inv.finalize (h : s.Inv g) (hq : s.requests.lookup i = some (.finalize u)) :
    Inv g (s.reply i (.finalize u) { s.server with
      calls := s.server.calls.set i { owner := g.owner, upload := u, checksum := some (some g.hash) } }
      none) := by
  refine h.replied { h.server with call := fun {j c} hc => ?_ } (.refl h.server.recorded) (.waiting hq)
    (fun hp => .receiving hp rfl rfl) (fun {j c} hc => ?_) (by simp)
  case refine_1 =>
    rw [Table.lookup_set] at hc
    split at hc
    case isTrue  => cases hc; exact ⟨rfl, trivial, trivial⟩
    case isFalse => exact h.server.call hc
  case refine_2 =>
    rw [Table.lookup_set] at hc
    split at hc
    case isTrue hj => cases hc; exact .waiting (hj ▸ hq)
    case isFalse   => exact .finalizing hc rfl

theorem Inv.clean {server : Server} (h : s.Inv g) (hs : Server.Cleans g s.server server) :
    Inv g { s with server } := by
  refine h.serve hs.sound hs.advances (fun hq => ?_) .inl
  cases hq
  case waiting hq         => exact .waiting hq
  case answered hq        => exact .answered hq
  case receiving hp ht hr => exact .receiving (hs.patches ▸ hp) ht hr
  case finalizing hc he   => exact .finalizing (hs.calls ▸ hc) he

variable [Collation]

theorem Inv.begin (h : s.Inv g) (hs : s.step g (.begin i now) = some s') : s'.Inv g := by
  simp only [Exchange.step] at hs
  split at hs
  case h_2 => contradiction
  case h_1 u offset body hq =>
    split at hs
    case isTrue => contradiction
    case isFalse hp =>
      have refl := Advances.refl (g := g) h.server.recorded
      obtain ⟨⟨_, _, body⟩, reached⟩ := (h.asked (.waiting hq)).right
      split at hs <;> cases hs
      case h_1 server hb =>
        obtain ⟨sound, store, calls, r, patches, ticket, request⟩ :=
          h.server.beginPatch (by simpa using hp) body hb
        refine h.replied sound (store ▸ refl) (.waiting hq) (fun {w r'} hr => ?_)
          (fun hc => .finalizing (calls ▸ hc) rfl) (by simp)
        rw [patches, Table.lookup_set] at hr
        split at hr
        case isTrue  => cases hr; exact .waiting (request ▸ ticket ▸ hq)
        case isFalse => exact .receiving hr rfl rfl
      case h_2 m hb =>
        refine h.replied h.server refl (.waiting hq) (fun hp => .receiving hp rfl rfl)
          (fun hc => .finalizing hc rfl) fun r hr => ?_
        cases hr
        exact conflict_of_beginPatch reached hb
      case h_3 =>
        exact h.replied h.server refl (.waiting hq) (fun hp => .receiving hp rfl rfl)
          (fun hc => .finalizing hc rfl) (by simp)

theorem Inv.finalizing {env : Transfers.Env} {r : Transfers.Finalize × Option UploadFinalized × Server}
    (h : s.Inv g) (hs : s.server.stepFinalize i env = some r) :
    Inv g (s.reply i (.finalize r.1.upload) r.2.2 (r.2.1.map .finalized)) := by
  obtain ⟨sound, advances, hc, patches, calls, returned⟩ := h.server.stepFinalize hs
  refine h.replied sound advances (.finalizing hc rfl) (fun hp => .receiving (patches ▸ hp) rfl rfl)
    (fun hd => ?_) fun r' he => ?_
  case refine_1 =>
    obtain ⟨d, hd, he⟩ := calls hd
    exact .finalizing hd (by rw [he])
  case refine_2 =>
    obtain ⟨x, hx, rfl⟩ := Option.map_eq_some_iff.mp he
    exact returned hx

theorem Inv.step {l : Action} (h : s.Inv g) (hs : s.step g l = some s') : s'.Inv g := by
  cases l <;> simp only [Exchange.step] at hs
  case scan => exact h.scan hs
  case control => cases hs; exact h.db ⟨h.known.queue, h.known.index⟩
  case reset => split at hs <;> cases hs; exact h.reset
  case claim =>
    split at hs
    case isFalse => contradiction
    case isTrue hn =>
      obtain ⟨r, hr, rfl⟩ := Option.map_eq_some_iff.mp hs
      exact h.claim (Option.isNone_iff_eq_none.mp hn) hr
  case work =>
    split at hs
    case isFalse => contradiction
    case isTrue ha =>
      rw [Bool.and_eq_true] at ha
      exact h.advance (fun _ => .of_inside ha.right) hs
  case read =>
    simp only [Exchange.read, Option.bind_eq_some_iff] at hs
    obtain ⟨t, ht, hs⟩ := hs
    split at hs
    case isFalse => contradiction
    case isTrue =>
      refine h.advance (fun ht' => ?_) hs
      cases ht.symm.trans ht'
      refine ⟨by simp, by simp, by simp, fun he => ?_, by simp, by simp⟩
      cases he
      rfl
  case send => exact h.send hs
  case receive => exact h.receive hs
  case fail =>
    split at hs
    case isFalse => contradiction
    case isTrue he =>
      refine h.advance (fun _ => ⟨by simp, by simp, fun ha ho => ?_, by simp, by simp, by simp⟩) hs
      cases ha
      cases he.symm.trans ho
  case cancel =>
    exact h.advance (fun _ => ⟨by simp, by simp, by simp, by simp, by simp, by simp⟩) hs
  case stop => cases hs; exact h.go h.known (by simp) id h.events
  case lose i =>
    cases hs
    have kept {α : Type} {rows : Table Nat α} {j : Nat} {x : α} (hj : (rows.erase i).lookup j = some x) :
        rows.lookup j = some x := by
      rw [Table.lookup_erase] at hj
      split at hj <;> trivial
    exact h.serve h.server (.refl h.server.recorded) (fun hq => hq.of_le kept kept rfl)
      fun hr => .inl (kept hr)
  case create =>
    split at hs
    case isFalse => contradiction
    case isTrue hq =>
      obtain ⟨store, hc, rfl⟩ := Option.map_eq_some_iff.mp hs
      exact h.create hq rfl hc
  case head =>
    split at hs <;> cases hs
    case h_1 hq => exact h.head hq
  case begin => exact h.begin hs
  case patch =>
    obtain ⟨q, hq, rfl⟩ := Option.map_eq_some_iff.mp hs
    refine h.patch hq fun r' he => ?_
    split at he <;> cases he
    exact ⟨rfl, rfl⟩
  case finalize =>
    split at hs
    case h_1 hq =>
      split at hs <;> cases hs
      exact h.finalize hq
    case h_2 =>
      obtain ⟨r, hr, rfl⟩ := Option.map_eq_some_iff.mp hs
      exact h.finalizing hr
  case cleanExpired =>
    obtain ⟨server, hc, rfl⟩ := Option.map_eq_some_iff.mp hs
    exact h.clean (.cleanExpired h.server hc)
  case cancelUpload =>
    obtain ⟨server, hc, rfl⟩ := Option.map_eq_some_iff.mp hs
    exact h.clean (.cancelUpload h.server hc)
  case removeStagingFile =>
    obtain ⟨server, hc, rfl⟩ := Option.map_eq_some_iff.mp hs
    exact h.clean (.removeStagingFile h.server hc)
  case crash =>
    cases hs
    refine h.serve h.server.crash (.refl h.server.recorded) (fun hq => ?_) .inl
    cases hq
    case waiting hq         => exact .waiting hq
    case answered hq        => exact .answered hq
    case receiving hp ht hr => simp at hp
    case finalizing hc he   => simp at hc

theorem transfer_sound (r : Reaches (Exchange.step g) {} s) :
    (∀ e ∈ s.history, e.Proper g s.server.store) ∧
    (∀ w item, s.db.queue.lookup w = some item → item.state = .completed →
      ∃ u, item.remoteUploadId = some u ∧ Stored g s.server.store u) ∧
    (∀ k row, s.db.index.lookup k = some row → ∃ u a, Stored g s.server.store u ∧
      .returned u a ∈ s.server.store.history ∧ row.remoteFileId = some a.fileId) ∧
    (∀ u up, s.server.upload u = some up →
      up.accepted.flatten = g.file.take up.session.receivedSize ∧
      up.staging.take up.session.receivedSize = g.file.take up.session.receivedSize) ∧
    ∀ o bytes, s.server.store.payloads.lookup o = some bytes → bytes = g.file := by
  have inv := r.invariant Inv.init fun h _ hs => h.step hs
  refine ⟨fun _ => inv.events, fun _ _ hq => (inv.known.queue hq).done, fun k row hr => ?index,
    fun u up hu => ?upload, fun _ _ hb => (inv.server.payload hb).left⟩
  case index =>
    obtain ⟨u, a, ha, he⟩ := inv.known.index hr
    exact ⟨u, a, inv.server.returned ha, ha, he⟩
  case upload =>
    obtain ⟨intact, content⟩ := inv.server.upload hu
    have taken := List.prefix_iff_eq_take.mp content
    rw [intact.size] at taken
    exact ⟨taken, intact.prefixed.trans taken⟩

-- No clean-up takes the bytes of an upload that may still be finalized.
theorem upload_kept {x : Session} (r : Reaches (Exchange.step g) {} s)
    (hx : s.server.store.sessions.lookup u = some x) :
    (x.state = .active → ∃ bytes, s.server.store.staging.lookup x.stagingKey = some bytes ∧
      bytes.take x.receivedSize = g.file.take x.receivedSize ∧ x.receivedSize ≤ bytes.length) ∧
    (x.state = .finalizing → s.server.store.staging.lookup x.stagingKey = some g.file ∨
      ∃ o, x.storageObjectId = some o ∧ s.server.store.payloads.lookup o = some g.file) := by
  have inv := r.invariant Inv.init fun h _ hs => h.step hs
  obtain ⟨active, finalizing⟩ := inv.server.live hx
  refine ⟨fun ha => ?_, fun hf => ?_⟩
  case refine_1 =>
    obtain ⟨bytes, hb⟩ := Option.isSome_iff_exists.mp (active ha)
    obtain ⟨intact, content⟩ := inv.server.upload (Server.upload_of_rows hx hb)
    have taken := List.prefix_iff_eq_take.mp content
    rw [intact.size] at taken
    exact ⟨bytes, hb, intact.prefixed.trans taken, intact.received_le_length⟩
  case refine_2 =>
    obtain ⟨o, ho, held⟩ := finalizing hf
    obtain ⟨_, _, reserved⟩ := inv.server.recorded.storage hx ho
    rcases held with held | held
    case inl =>
      obtain ⟨bytes, hb⟩ := Option.isSome_iff_exists.mp held
      exact .inl (inv.server.staged reserved hx hb ▸ hb)
    case inr =>
      obtain ⟨bytes, hb⟩ := Option.isSome_iff_exists.mp held
      exact .inr ⟨o, ho, (inv.server.payload hb).left ▸ hb⟩

end
end Exchange
end

section

attribute [local instance] Collation.binary Digest.hi

def hi : Setting where
  file     := [104, 105]
  hash     := "8f434346648f6b96df89dda901c5176b10a6d83961dd3c1ac88b59b2dc327aa4"
  owner    := 7
  declares := by decide

def enqueued : List Action :=
  let item := { fileSize := 2, modifiedUnixMs := 0, jobId := 1, relativePath := "a.txt",
                contentHash := some hi.hash, remoteParentId := some 3 }
  [.control (Table.empty.set 1 {}) false, .scan none 5 item]

def sessionUntil (expiresAt : Time) : Session where
  ownerId      := 7
  filename     := "a.txt"
  stagingKey   := 0
  expectedSize := 2
  expiresAt

def received (upload : Id) : List Action :=
  [.patch upload .open, .patch upload (.frame [104, 105]), .patch upload .endBody, .patch upload .sync,
   .patch upload .update, .patch upload .commit]

-- The response to the only `PATCH` gets lost, and the client goes on where the server is.
def lossy : List Action :=
  enqueued ++ [.claim 5 0, .work (.checked true true) 0, .send, .create 0 (sessionUntil 1000), .receive 0, .read 0,
    .send, .begin 1 0] ++ received 1 ++
  [.lose 1, .fail .network 0, .claim 5 100, .work (.checked true true) 100, .send, .head 2 100,
    .receive 100, .read 100, .send] ++
  List.replicate 12 (.finalize 3 {}) ++ [.receive 100] ++ List.replicate 4 (.work .done 100)

theorem transfer_sound_lossy : ∃ s, Reaches (Exchange.step hi) {} s ∧ .sent 1 0 [104, 105] ∈ s.history ∧
    .stored 1 ∈ s.history ∧ Stored hi s.server.store 1 := by
  have run : (Execution.run (Exchange.step hi) {} lossy).map (·.history) =
      some [.sent 1 0 [104, 105], .stored 1] := by
    decide +kernel
  obtain ⟨s, hs, events⟩ := Option.map_eq_some_iff.mp run
  have reaches : Reaches (Exchange.step hi) {} s := Execution.reaches_of_run hs
  have stored : .stored 1 ∈ s.history := by simp [events]
  exact ⟨s, reaches, by simp [events], stored, (Exchange.transfer_sound reaches).left _ stored⟩

-- The first upload is lost to the client and cleaned up, while the second one waits for its end.
def cleaned : List Action :=
  enqueued ++ [.claim 5 0, .work (.checked true true) 0, .send, .create 0 (sessionUntil 10), .lose 0,
    .fail .network 0, .claim 5 100, .work (.checked true true) 100, .send, .create 1 (sessionUntil 1000),
    .receive 100, .read 100, .send, .begin 2 100] ++ received 4 ++
  [.cleanExpired 1 100, .removeStagingFile 1 0]

theorem upload_kept_cleaned : ∃ s bytes x, Reaches (Exchange.step hi) {} s ∧
    s.server.store.sessions.lookup 4 = some x ∧ s.server.store.staging.lookup 0 = none ∧
    s.server.store.staging.lookup x.stagingKey = some bytes ∧ bytes.take 2 = hi.file := by
  have run : (Execution.run (Exchange.step hi) {} cleaned).map (fun s =>
      (s.server.store.staging.lookup 0, (s.server.store.sessions.lookup 4).map fun x =>
        (x.state, x.receivedSize))) = some (none, some (.active, 2)) := by
    decide +kernel
  obtain ⟨s, hs, rows⟩ := Option.map_eq_some_iff.mp run
  obtain ⟨gone, row⟩ := Prod.mk.inj rows
  obtain ⟨x, hx, he⟩ := Option.map_eq_some_iff.mp row
  obtain ⟨active, received⟩ := Prod.mk.inj he
  have reaches : Reaches (Exchange.step hi) {} s := Execution.reaches_of_run hs
  obtain ⟨bytes, hb, content, _⟩ := (Exchange.upload_kept reaches hx).left active
  rw [received] at content
  exact ⟨s, bytes, x, reaches, hx, gone, hb, content⟩

end
end MyDrive.Backup.Wire
