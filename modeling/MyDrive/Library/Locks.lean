import MyDrive.Library.Shared

-- Transactions over shared rows. A transaction keeps the locks on rows that its statements have
-- taken until it ends. A statement that needs a lock which another transaction holds has to wait:
-- its step is not enabled before the other transaction has ended.

namespace Locks

open Shared

inductive Mode
  | share
  | update
  deriving DecidableEq

variable {σ κ ρ ε α : Type} [DecidableEq α]

-- Any number of transactions may share a row, as long as none of them updates it.
def conflicts (a b : α × Mode) : Bool :=
  a.1 = b.1 && (a.2 = .update || b.2 = .update)

def free (as bs : List (α × Mode)) : Bool :=
  as.all fun a => bs.all fun b => !conflicts a b

theorem free_iff {as bs : List (α × Mode)} :
    free as bs = true ↔ ∀ a ∈ as, ∀ b ∈ bs, conflicts a b = false := by
  simp [free]

theorem ne_of_free {as bs : List (α × Mode)} {a b : α} {m : Mode} (h : free as bs = true)
    (ha : (a, .update) ∈ as) (hb : (b, m) ∈ bs) : a ≠ b := by
  have := free_iff.mp h _ ha _ hb
  simpa [conflicts] using this

theorem ne_of_free' {as bs : List (α × Mode)} {a b : α} {m : Mode} (h : free as bs = true)
    (ha : (a, m) ∈ as) (hb : (b, .update) ∈ bs) : a ≠ b := by
  have := free_iff.mp h _ ha _ hb
  simpa [conflicts] using this

-- No two open transactions hold conflicting locks.
def compatible (locks : κ → List (α × Mode)) (s : System σ κ) : Bool :=
  s.calls.rows.all fun c => s.calls.rows.all fun d => c.1 = d.1 || free (locks c.2) (locks d.2)

def step (p : Program σ κ ρ ε) (locks : κ → List (α × Mode)) (s : System σ κ) (l : Label ρ ε) :
    Option (System σ κ) :=
  (s.step p l).filter (compatible locks)

variable {p : Program σ κ ρ ε} {locks : κ → List (α × Mode)} {I : σ → Prop} {J : σ → κ → Prop}
  {s s' : System σ κ} {l : Label ρ ε}

-- Two transactions whose locks do not conflict.
def Free (locks : κ → List (α × Mode)) (c d : κ) : Prop :=
  free (locks c) (locks d) = true

theorem apart_of_compatible (h : compatible locks s = true) : Apart (Free locks) s := by
  intro i j c d hij hc hd
  simp only [compatible, List.all_eq_true] at h
  have := h _ (Table.lookup_eq_some_iff.mp hc) _ (Table.lookup_eq_some_iff.mp hd)
  simpa [Free, hij] using this

-- A step from the rows `x` to `x'` by which a transaction goes from `call` to `call'`.
abbrev Keeps (locks : κ → List (α × Mode)) (I : σ → Prop) (J : σ → κ → Prop) :=
  KeepsApart I J (Free locks)

structure Holds (locks : κ → List (α × Mode)) (I : σ → Prop) (J : σ → κ → Prop)
    (s : System σ κ) : Prop extends Shared.Holds I J s where
  apart : Apart (Free locks) s

theorem Holds.step (h : Holds locks I J s)
    (start : ∀ {i r x k}, l = .start i r → p.start s.store r = some (x, k) →
      Keeps locks I J s.store none x k)
    (next : ∀ {i e c x k}, l = .next i e → s.calls.lookup i = some c → J s.store c →
      p.next s.store e c = some (x, k) → Keeps locks I J s.store (some c) x k)
    (hs : Locks.step p locks s l = some s') : Holds locks I J s' := by
  obtain ⟨hs, hc⟩ := Option.filter_eq_some_iff.mp hs
  have apart := apart_of_compatible hc
  exact ⟨h.stepApart h.apart apart start next hs, apart⟩

end Locks
