import MyDrive.Library.Execution
import MyDrive.Library.Table

-- Programs that run side by side over a shared store. A program is given by its continuations `κ`:
-- `next` takes one atomic step of it, which may return (`none`) or go on (`some`). `start` lets a
-- request in. A program may also be cut off between any two of its steps.

namespace Shared

variable {σ κ ρ ε : Type}

structure System (σ κ : Type) where
  store : σ
  calls : Table Nat κ := .empty

inductive Label (ρ ε : Type)
  | start (i : Nat) (r : ρ)
  | next (i : Nat) (e : ε)
  | drop (i : Nat)

structure Program (σ κ ρ ε : Type) where
  start : σ → ρ → Option (σ × Option κ)
  next  : σ → ε → κ → Option (σ × Option κ)

namespace System

def put (s : System σ κ) (i : Nat) (r : σ × Option κ) : System σ κ where
  store := r.1
  calls := match r.2 with
    | none   => s.calls.erase i
    | some c => s.calls.set i c

def step (p : Program σ κ ρ ε) (s : System σ κ) : Label ρ ε → Option (System σ κ)
  | .start i r =>
    match s.calls.lookup i with
    | some _ => none
    | none   => (p.start s.store r).map (s.put i)
  | .next i e  =>
    match s.calls.lookup i with
    | some c => (p.next s.store e c).map (s.put i)
    | none   => none
  | .drop i    =>
    match s.calls.lookup i with
    | some _ => some (s.put i (s.store, none))
    | none   => none

@[simp]
theorem lookup_put {s : System σ κ} {i j : Nat} {r : σ × Option κ} :
    (s.put i r).calls.lookup j = if j = i then r.2 else s.calls.lookup j := by
  cases hr : r.2 <;> simp [put, hr]

theorem step_next {p : Program σ κ ρ ε} {s : System σ κ} {i : Nat} {c : κ} {e : ε}
    (h : s.calls.lookup i = some c) : s.step p (.next i e) = (p.next s.store e c).map (s.put i) := by
  simp [step, h]

end System

-- `I` is an invariant of the store, and `J` what a program knows about it between two of its steps,
-- whatever steps the other programs take.
structure Holds (I : σ → Prop) (J : σ → κ → Prop) (s : System σ κ) : Prop where
  store : I s.store
  calls {i c} : s.calls.lookup i = some c → J s.store c

variable {p : Program σ κ ρ ε} {I : σ → Prop} {J : σ → κ → Prop} {s s' : System σ κ}
  {l : Label ρ ε}

-- A step from the store `x` to `x'` that goes on with `call`.
structure Keeps (I : σ → Prop) (J : σ → κ → Prop) (x x' : σ) (call : Option κ) : Prop where
  store : I x'
  own {c} : call = some c → J x' c
  others {c} : J x c → J x' c

theorem Keeps.refl {x : σ} (h : I x) : Keeps I J x x none where
  store  := h
  own h  := by contradiction
  others := id

theorem Holds.put {i : Nat} {r : σ × Option κ} (h : Holds I J s)
    (k : Keeps I J s.store r.1 r.2) : Holds I J (s.put i r) where
  store := k.store
  calls {j c} hc := by
    rw [System.lookup_put] at hc
    split at hc
    case isTrue  => exact k.own hc
    case isFalse => exact k.others (h.calls hc)

theorem Holds.step (h : Holds I J s)
    (start : ∀ {i r s' k}, l = .start i r → p.start s.store r = some (s', k) →
      Keeps I J s.store s' k)
    (next : ∀ {i e c s' k}, l = .next i e → s.calls.lookup i = some c → J s.store c →
      p.next s.store e c = some (s', k) → Keeps I J s.store s' k)
    (hs : s.step p l = some s') : Holds I J s' := by
  cases l <;> simp only [System.step] at hs
  case start =>
    split at hs <;> try contradiction
    obtain ⟨r, hr, rfl⟩ := Option.map_eq_some_iff.mp hs
    exact h.put (start rfl hr)
  case next =>
    split at hs <;> try contradiction
    case h_1 hc =>
      obtain ⟨r, hr, rfl⟩ := Option.map_eq_some_iff.mp hs
      exact h.put (next rfl hc (h.calls hc) hr)
  case drop =>
    split at hs <;> cases hs
    exact h.put (.refl h.store)

-- Invariants that rest on a relation `R` between any two running programs: what the others know has
-- to survive a step only if `R` holds between them and the program that takes it.
section

variable {R : κ → κ → Prop}

def Apart (R : κ → κ → Prop) (s : System σ κ) : Prop :=
  ∀ i j c d, i ≠ j → s.calls.lookup i = some c → s.calls.lookup j = some d → R c d

-- A step from the store `x` to `x'` by which a program goes from `call` to `call'`.
structure KeepsApart (I : σ → Prop) (J : σ → κ → Prop) (R : κ → κ → Prop) (x : σ)
    (call : Option κ) (x' : σ) (call' : Option κ) : Prop where
  store : I x'
  own {c} : call' = some c → J x' c
  others {c} : J x c → (∀ d, call = some d → R d c) → (∀ d, call' = some d → R d c) → J x' c

theorem KeepsApart.refl {x : σ} {call : Option κ} (h : I x) : KeepsApart I J R x call x none where
  store        := h
  own h        := by contradiction
  others h _ _ := h

-- A step that writes nothing.
theorem KeepsApart.read {x : σ} {call : Option κ} {c : κ} (h : I x) (hc : J x c) :
    KeepsApart I J R x call x (some c) where
  store        := h
  own he       := by cases he; exact hc
  others h _ _ := h

theorem Holds.putApart {i : Nat} {r : σ × Option κ} (h : Holds I J s) (ha : Apart R s)
    (ha' : Apart R (s.put i r)) (k : KeepsApart I J R s.store (s.calls.lookup i) r.1 r.2) :
    Holds I J (s.put i r) where
  store := k.store
  calls {j c} hj := by
    have lookup := hj
    rw [System.lookup_put] at lookup
    split at lookup
    case isTrue  => exact k.own lookup
    case isFalse hn =>
      refine k.others (h.calls lookup) (fun d hd => ?_) fun d hd => ?_
      case refine_1 => exact ha i j d c (Ne.symm hn) hd lookup
      case refine_2 => exact ha' i j d c (Ne.symm hn) (by simpa using hd) hj

theorem Holds.stepApart (h : Holds I J s) (ha : Apart R s) (ha' : Apart R s')
    (start : ∀ {i r x k}, l = .start i r → p.start s.store r = some (x, k) →
      KeepsApart I J R s.store none x k)
    (next : ∀ {i e c x k}, l = .next i e → s.calls.lookup i = some c → J s.store c →
      p.next s.store e c = some (x, k) → KeepsApart I J R s.store (some c) x k)
    (hs : s.step p l = some s') : Holds I J s' := by
  cases l <;> simp only [System.step] at hs
  case start =>
    split at hs <;> try contradiction
    case h_2 hi =>
      obtain ⟨r, hr, rfl⟩ := Option.map_eq_some_iff.mp hs
      exact h.putApart ha ha' (hi ▸ start rfl hr)
  case next =>
    split at hs <;> try contradiction
    case h_1 hi =>
      obtain ⟨r, hr, rfl⟩ := Option.map_eq_some_iff.mp hs
      exact h.putApart ha ha' (hi ▸ next rfl hi (h.calls hi) hr)
  case drop =>
    split at hs <;> cases hs
    exact h.putApart ha ha' (.refl h.store)

theorem Apart.put {i : Nat} {r : σ × Option κ} (symm : ∀ {c d}, R c d → R d c) (h : Apart R s)
    (hr : ∀ {j c d}, r.2 = some c → j ≠ i → s.calls.lookup j = some d → R c d) :
    Apart R (s.put i r) := by
  intro j k c d hjk hj hk
  rw [System.lookup_put] at hj hk
  split at hj <;> split at hk
  case isTrue.isTrue hi hi'   => exact absurd (hi.trans hi'.symm) hjk
  case isTrue.isFalse hi hn   => exact hr hj hn hk
  case isFalse.isTrue hn hi   => exact symm (hr hk hn hj)
  case isFalse.isFalse hn hn' => exact h j k c d hjk hj hk

theorem Apart.step (symm : ∀ {c d}, R c d → R d c) (h : Apart R s) (hj : Holds I J s)
    (start : ∀ {r x c d}, p.start s.store r = some (x, some c) → J s.store d → R c d)
    (next : ∀ {e c x c' d}, p.next s.store e c = some (x, some c') → R c d → R c' d)
    (hs : s.step p l = some s') : Apart R s' := by
  cases l <;> simp only [System.step] at hs
  case start =>
    split at hs <;> try contradiction
    obtain ⟨⟨x, k⟩, hr, rfl⟩ := Option.map_eq_some_iff.mp hs
    refine h.put symm fun hk _ hd => ?_
    cases hk
    exact start hr (hj.calls hd)
  case next =>
    split at hs <;> try contradiction
    case h_1 hi =>
      obtain ⟨⟨x, k⟩, hr, rfl⟩ := Option.map_eq_some_iff.mp hs
      refine h.put symm fun hk hn hd => ?_
      cases hk
      exact next hr (h _ _ _ _ (Ne.symm hn) hi hd)
  case drop =>
    split at hs <;> cases hs
    exact h.put symm fun hk _ _ => by contradiction

end

end Shared
