import MyDrive.Accounts.Limiter
import Mathlib.Data.List.Sort

-- The buckets are the failures in the window, whatever has been pruned. The delay that is advertised is
-- the one after which the oldest failure leaves, in whole seconds, which may be too early.

open Execution

namespace MyDrive.Accounts.Limiter

variable {κ : Type} [DecidableEq κ] {s s' : State κ} {identity : κ} {now later : Nat} {l : List Nat}

-- Failures in a window.
section

theorem inWindow_inWindow (h : now ≤ later) : inWindow later (inWindow now l) = inWindow later l := by
  rw [inWindow, inWindow, List.filter_filter]
  refine List.filter_congr fun t _ => ?_
  rw [Bool.eq_iff_iff]
  simp only [Bool.and_eq_true, decide_eq_true_eq]
  omega

theorem inWindow_append_now : inWindow now (l ++ [now]) = inWindow now l ++ [now] := by
  simp [inWindow, List.filter_append, loginFailureWindow, second]

theorem getLast?_inWindow (sorted : l.Pairwise (· ≤ ·)) (h : inWindow now l ≠ []) :
    (inWindow now l).getLast? = l.getLast? := by
  obtain rfl | ⟨init, t, rfl⟩ := l.eq_nil_or_concat
  case inl => rfl
  case inr =>
    rw [List.concat_eq_append] at *
    by_cases ht : now - t < loginFailureWindow
    case pos => simp [inWindow, List.filter_append, ht]
    case neg =>
      refine absurd ?_ h
      refine List.filter_eq_nil_iff.mpr fun t' ht' => ?_
      have : t' ≤ t := by
        obtain hi | hi := List.mem_append.mp ht'
        case inl => exact (List.pairwise_append.mp sorted).right.right t' hi t (by simp)
        case inr => exact (List.mem_singleton.mp hi).le
      simp only [decide_eq_true_eq]
      omega

-- The window has emptied enough when the decisive failure has left.
theorem length_inWindow_lt {limit t : Nat} (sorted : l.Pairwise (· ≤ ·)) (pos : 0 < limit)
    (long : limit ≤ l.length) (ht : l[l.length - limit]? = some t) :
    (inWindow later l).length < limit ↔ loginFailureWindow ≤ later - t := by
  have split : l = l.take (l.length - limit) ++ t :: l.drop (l.length - limit + 1) := by
    obtain ⟨hi, rfl⟩ := List.getElem?_eq_some_iff.mp ht
    rw [← List.drop_eq_getElem_cons hi, List.take_append_drop]
  have rest : (l.drop (l.length - limit + 1)).length + 1 = limit := by
    rw [List.length_drop]
    omega
  have before : ∀ t' ∈ l.take (l.length - limit), t' ≤ t := by
    intro t' ht'
    rw [split] at sorted
    exact (List.pairwise_append.mp sorted).right.right t' ht' t List.mem_cons_self
  have after : ∀ t' ∈ l.drop (l.length - limit + 1), t ≤ t' := by
    rw [split] at sorted
    exact (List.pairwise_cons.mp (List.pairwise_append.mp sorted).right.left).left
  generalize l.take (l.length - limit) = first at *
  generalize l.drop (l.length - limit + 1) = last at *
  subst split
  rw [inWindow, List.filter_append, List.filter_cons, List.length_append]
  split
  case isTrue hw =>
    have all : last.filter (fun t => later - t < loginFailureWindow) = last := by
      refine List.filter_eq_self.mpr fun t' ht' => ?_
      have := after t' ht'
      simp only [decide_eq_true_eq] at hw ⊢
      omega
    rw [all, List.length_cons]
    simp only [decide_eq_true_eq] at hw
    omega
  case isFalse hw =>
    have none : first.filter (fun t => later - t < loginFailureWindow) = [] := by
      refine List.filter_eq_nil_iff.mpr fun t' ht' => ?_
      have := before t' ht'
      simp only [decide_eq_true_eq] at hw ⊢
      omega
    have := List.length_filter_le (fun t => decide (later - t < loginFailureWindow)) last
    rw [none, List.length_nil]
    simp only [decide_eq_true_eq] at hw
    omega

-- A delay in whole seconds up to the oldest failure.
theorem delay_iff {window unit oldest t : Nat} (pos : 0 < unit) (ho : oldest ≤ t) (ht : t ≤ now)
    (hw : now - t < window) :
    window ≤ now + max ((window - (now - oldest)) / unit) 1 * unit - t ↔
      window - (now - t) ≤ unit ∨ (oldest = t ∧ unit ∣ window - (now - t)) := by
  have floor := Nat.div_mul_le_self (window - (now - oldest)) unit
  constructor
  case mp =>
    intro h
    by_cases hn : (window - (now - oldest)) / unit ≤ 1
    case pos =>
      rw [Nat.max_eq_right hn, Nat.one_mul] at h
      exact .inl (by omega)
    case neg =>
      rw [Nat.max_eq_left (by omega)] at h
      have same : oldest = t := by omega
      subst same
      refine .inr ⟨rfl, Nat.dvd_of_mod_eq_zero ?_⟩
      have := Nat.div_add_mod' (window - (now - oldest)) unit
      omega
  case mpr =>
    rintro (h | ⟨rfl, h⟩)
    case inl =>
      have : unit ≤ max ((window - (now - oldest)) / unit) 1 * unit :=
        Nat.le_mul_of_pos_left _ (Nat.lt_of_lt_of_le Nat.one_pos (Nat.le_max_right _ _))
      omega
    case inr =>
      have whole := Nat.div_mul_cancel h
      have : (window - (now - oldest)) / unit * unit ≤
          max ((window - (now - oldest)) / unit) 1 * unit :=
        Nat.mul_le_mul_right _ (Nat.le_max_left _ _)
      omega

end

-- What the bucket of an identity is, when the failures are these.
def bucketOf (now : Nat) (failedAt : List Nat) : Option (List Nat) :=
  if inWindow now failedAt = [] then none else some (inWindow now failedAt)

structure Sound (s : State κ) : Prop where
  buckets identity : s.buckets.lookup identity = bucketOf s.clock (failures identity s.history)
  sorted identity  : (failures identity s.history).Pairwise (· ≤ ·)
  past identity    : ∀ t ∈ failures identity s.history, t ≤ s.clock
  bounded          : s.buckets.rows.length ≤ maxLoginIdentities

theorem Sound.init : Sound ({} : State κ) where
  buckets _ := rfl
  sorted _  := .nil
  past _    := by simp [failures]
  bounded   := Nat.zero_le _

theorem bucketOf_eq_some {failedAt : List Nat} (h : bucketOf now l = some failedAt) :
    failedAt = inWindow now l ∧ inWindow now l ≠ [] := by
  unfold bucketOf at h
  split at h
  case isTrue     => contradiction
  case isFalse hn => exact ⟨(Option.some.inj h).symm, hn⟩

theorem getD_bucketOf : (bucketOf now l).getD [] = inWindow now l := by
  unfold bucketOf
  split
  case isTrue hn => exact hn.symm
  case isFalse   => rfl

theorem lookup_prune (h : Sound s) (ht : s.clock ≤ now) :
    (s.buckets.prune now).lookup identity = bucketOf now (failures identity s.history) := by
  rw [Buckets.prune, Table.lookup_filterMap, h.buckets, bucketOf]
  have later : inWindow now (inWindow s.clock (failures identity s.history)) =
      inWindow now (failures identity s.history) := inWindow_inWindow ht
  split
  case isTrue hn =>
    rw [hn] at later
    rw [bucketOf, ← later]
    rfl
  case isFalse =>
    rw [Option.bind_some, later]
    rfl

theorem Sound.prune (h : Sound s) (ht : s.clock ≤ now) :
    Sound { s with buckets := s.buckets.prune now, clock := now } where
  buckets _   := lookup_prune h ht
  sorted      := h.sorted
  past k t hm := (h.past k t hm).trans ht
  bounded     := Table.length_filterMap_le.trans h.bounded

-- An identity that is cleared or evicted has no failures.
theorem Sound.erase {e : Event κ} (h : Sound s)
    (he : ∀ k, failures k (e :: s.history) = if identity = k then [] else failures k s.history) :
    Sound { s with buckets := s.buckets.erase identity, history := e :: s.history } where
  buckets k := by
    rw [he, Table.lookup_erase]
    by_cases hk : identity = k
    case pos => rw [if_pos hk, if_pos hk.symm]; rfl
    case neg => rw [if_neg hk, if_neg (Ne.symm hk)]; exact h.buckets k
  sorted k := by
    rw [he]
    split
    case isTrue  => exact .nil
    case isFalse => exact h.sorted k
  past k t hm := by
    rw [he] at hm
    split at hm
    case isTrue  => contradiction
    case isFalse => exact h.past k t hm
  bounded := Table.length_filterMap_le.trans h.bounded

theorem Sound.add (h : Sound s)
    (room : (s.buckets.lookup identity).isSome ∨ s.buckets.rows.length < maxLoginIdentities) :
    Sound { s with
      buckets := s.buckets.set identity ((s.buckets.lookup identity).getD [] ++ [s.clock])
      history := .failed identity s.clock :: s.history } where
  buckets k := by
    rw [failures, Table.lookup_set]
    by_cases hk : identity = k
    case neg => rw [if_neg hk, if_neg (Ne.symm hk)]; exact h.buckets k
    case pos =>
      subst hk
      rw [if_pos rfl, if_pos rfl, h.buckets, getD_bucketOf, bucketOf, inWindow_append_now, if_neg (by simp)]
  sorted k := by
    rw [failures]
    split
    case isFalse => exact h.sorted k
    case isTrue =>
      refine List.pairwise_append.mpr ⟨h.sorted k, List.pairwise_singleton _ _, fun t hm t' hm' => ?_⟩
      rw [List.mem_singleton.mp hm']
      exact h.past k t hm
  past k t hm := by
    rw [failures] at hm
    split at hm
    case isFalse => exact h.past k t hm
    case isTrue =>
      obtain hm | hm := List.mem_append.mp hm
      case inl => exact h.past k t hm
      case inr => exact (List.mem_singleton.mp hm).le
  bounded := by
    obtain room | room := room
    case inl =>
      obtain ⟨failedAt, hl⟩ := Option.isSome_iff_exists.mp room
      exact (Table.length_set_of_lookup hl).trans h.bounded
    case inr => exact Table.length_set_le.trans room

-- The two ways of a call to `record_failure`.
theorem recordFailure_cases {victim : κ} {p : Buckets κ × List κ}
    (h : s.buckets.recordFailure identity now victim = some p) :
    (p = ((s.buckets.prune now).set identity
        (((s.buckets.prune now).lookup identity).getD [] ++ [now]), []) ∧
      (((s.buckets.prune now).lookup identity).isSome ∨
        (s.buckets.prune now).rows.length < maxLoginIdentities)) ∨
    (p = (((s.buckets.prune now).erase victim).set identity
        ((((s.buckets.prune now).erase victim).lookup identity).getD [] ++ [now]), [victim]) ∧
      (s.buckets.prune now).isOldest victim = true) := by
  unfold Buckets.recordFailure at h
  dsimp only at h
  split at h
  case isFalse hc =>
    cases h
    refine .inl ⟨rfl, ?_⟩
    cases hl : (s.buckets.prune now).lookup identity
    case some => exact .inl rfl
    case none => exact .inr (by simpa [hl] using hc)
  case isTrue =>
    split at h
    case isFalse   => contradiction
    case isTrue ho => cases h; exact .inr ⟨rfl, ho⟩

theorem sound_step {c : Call κ} (h : Sound s) (hs : s.step c = some s') : Sound s' := by
  cases c <;> simp only [State.step] at hs
  case clear identity =>
    cases hs
    exact h.erase fun k => rfl
  case retryAfter identity now =>
    split at hs <;> cases hs
    exact h.prune ‹_›
  case recordFailure identity now victim =>
    split at hs <;> try contradiction
    case isTrue ht =>
      obtain ⟨p, hp, rfl⟩ := Option.map_eq_some_iff.mp hs
      obtain ⟨rfl, room⟩ | ⟨rfl, oldest⟩ := recordFailure_cases hp
      case inl => exact (h.prune ht).add room
      case inr =>
        obtain ⟨failedAt, hl, -⟩ := Option.any_eq_true _ _ |>.mp oldest
        have evicted := @Sound.erase _ _ _ victim (.evicted victim) (h.prune ht) fun k => rfl
        exact evicted.add (.inr ((Table.length_erase_lt hl).trans_le (h.prune ht).bounded))

theorem sound_reaches (e : Reaches State.step {} s) : Sound s :=
  e.invariant .init fun h _ => sound_step h

theorem isSome_retryAfter (h : Sound s) (ht : s.clock ≤ now) :
    (s.buckets.retryAfter identity now).isSome ↔ Blocked s.history identity now := by
  rw [Buckets.retryAfter, lookup_prune h ht, Blocked, bucketOf]
  split
  case isTrue hn => simp [hn, loginFailureLimit]
  case isFalse hn =>
    rw [Option.bind_some]
    split
    case isTrue hl  => simp only [Option.isSome_none, Bool.false_eq_true, false_iff]; omega
    case isFalse hl =>
      rw [Option.isSome_map, List.isSome_head?]
      exact iff_of_true hn (Nat.le_of_not_lt hl)

theorem evicts_oldest {other victim : κ} {p : Buckets κ × List κ} (h : Sound s) (ht : s.clock ≤ now)
    (hp : s.buckets.recordFailure other now victim = some p) :
    ∀ evicted ∈ p.2, ∀ kept failedAt, p.1.lookup kept = some failedAt →
      ∀ latest ∈ (failures evicted s.history).getLast?, ∀ latest' ∈ failedAt.getLast?, latest ≤ latest' := by
  obtain ⟨rfl, -⟩ | ⟨rfl, oldest⟩ := recordFailure_cases hp
  case inl => intro evicted he; contradiction
  case inr =>
    intro evicted he kept failedAt hk latest hl latest' hl'
    obtain rfl := List.mem_singleton.mp he
    obtain ⟨gone, hg, oldest⟩ := Option.any_eq_true _ _ |>.mp oldest
    have past : latest ≤ now := (h.past _ latest (List.mem_of_getLast? hl)).trans ht
    obtain ⟨rfl, nonempty⟩ := bucketOf_eq_some ((lookup_prune h ht).symm.trans hg)
    rw [Table.lookup_set] at hk
    split at hk
    case isTrue =>
      cases hk
      rw [List.getLast?_concat] at hl'
      cases hl'
      exact past
    case isFalse =>
      rw [Table.lookup_erase] at hk
      split at hk
      case isTrue => contradiction
      case isFalse =>
        by_contra hlt
        rw [Bool.not_eq_true', ← Bool.not_eq_true, Table.any_iff] at oldest
        refine oldest ⟨kept, failedAt, hk, ?_⟩
        rw [getLast?_inWindow (h.sorted _) nonempty, Option.mem_def.mp hl, Option.mem_def.mp hl']
        simpa using hlt

theorem delay_prompt (h : Sound s) (ht : s.clock ≤ now) :
    (∀ n, s.buckets.retryAfter identity now = some n →
      ¬ Blocked s.history identity (now + n * second)) ↔ Prompt s.history identity now := by
  have value : s.buckets.retryAfter identity now =
      (bucketOf now (failures identity s.history)).bind fun failedAt =>
        if failedAt.length < loginFailureLimit then none
        else failedAt.head?.map fun oldest =>
          max ((loginFailureWindow - (now - oldest)) / second) 1 := by
    rw [Buckets.retryAfter, lookup_prune h ht]
  have later (n : Nat) : Blocked s.history identity (now + n * second) ↔
      loginFailureLimit ≤ (inWindow (now + n * second) (inWindow now (failures identity s.history))).length := by
    rw [Blocked, inWindow_inWindow (Nat.le_add_right _ _)]
  have sorted : (inWindow now (failures identity s.history)).Pairwise (· ≤ ·) :=
    (h.sorted identity).filter _
  have past : ∀ t ∈ inWindow now (failures identity s.history), t ≤ now ∧ now - t < loginFailureWindow := by
    intro t hm
    obtain ⟨hm, hw⟩ := List.mem_filter.mp hm
    exact ⟨(h.past identity t hm).trans ht, of_decide_eq_true hw⟩
  simp only [later, value, Prompt]
  rw [bucketOf]
  generalize inWindow now (failures identity s.history) = failedAt at *
  by_cases long : loginFailureLimit ≤ failedAt.length
  case neg =>
    refine iff_of_true (fun n hn => ?_) fun h => absurd h long
    split at hn
    case isTrue => contradiction
    case isFalse =>
      rw [Option.bind_some, if_pos (by omega)] at hn
      contradiction
  case pos =>
    have nonempty : failedAt ≠ [] := by
      rintro rfl
      simp [loginFailureLimit] at long
    obtain ⟨oldest, rest, rfl⟩ := List.exists_cons_of_ne_nil nonempty
    have index : (oldest :: rest).length - loginFailureLimit < (oldest :: rest).length := by
      simp only [loginFailureLimit] at long ⊢
      omega
    obtain ⟨t, hd⟩ : ∃ t, (oldest :: rest)[(oldest :: rest).length - loginFailureLimit]? = some t :=
      ⟨_, List.getElem?_eq_getElem index⟩
    have mem := List.mem_of_getElem? hd
    have order : oldest ≤ t := by
      obtain rfl | hm := List.mem_cons.mp mem
      case inl => exact Nat.le_refl _
      case inr => exact (List.pairwise_cons.mp sorted).left t hm
    rw [if_neg nonempty, Option.bind_some, if_neg (by omega), List.head?_cons, Option.map_some]
    simp only [Option.some.injEq, forall_eq', decisive, hd, Option.mem_def, long, true_implies]
    rw [Nat.not_le, length_inWindow_lt sorted (by decide) long hd,
      delay_iff (by decide) order (past t mem).left (past t mem).right]

theorem limiter_lawful_iff (e : Reaches State.step {} s) (ht : s.clock ≤ now) :
    Lawful s identity now ↔ Prompt s.history identity now := by
  have sound := sound_reaches e
  constructor
  case mp  => exact fun h => (delay_prompt sound ht).mp h.delay
  case mpr =>
    intro h
    exact {
      blocked := isSome_retryAfter sound ht
      bounded := sound.bounded
      evicts _ _ _ _ _ hc hp := evicts_oldest sound hc hp
      delay   := (delay_prompt sound ht).mpr h }

-- Ten failures at once, and a question half a second later.
def tenFailures : List (Call Nat) :=
  List.replicate 10 (.recordFailure 0 0 0)

theorem ten_failures : ∃ s, Reaches State.step {} s ∧ s.clock = 0 ∧
    s.history = List.replicate 10 (.failed 0 0) ∧ s.buckets.retryAfter 0 500000000 = some 899 := by
  have run : (Execution.run State.step {} tenFailures).map (fun s =>
      (s.clock, s.history, s.buckets.retryAfter 0 500000000)) =
        some (0, List.replicate 10 (.failed 0 0), some 899) := by
    decide +kernel
  obtain ⟨s, hs, h⟩ := Option.map_eq_some_iff.mp run
  simp only [Prod.mk.injEq] at h
  exact ⟨s, reaches_of_run hs, h⟩

theorem limiter_lawful_iff_ten : ∃ s : State Nat, s.clock ≤ 0 ∧
    (Lawful s 0 0 ↔ Prompt s.history 0 0) := by
  obtain ⟨s, e, hc, -⟩ := ten_failures
  exact ⟨s, hc.le, limiter_lawful_iff e hc.le⟩

theorem not_lawful_half : ¬ ∀ (s : State Nat) (identity now : Nat), Reaches State.step {} s →
    s.clock ≤ now → Lawful s identity now := by
  intro claim
  obtain ⟨s, e, hc, hh, hr⟩ := ten_failures
  refine (claim s 0 500000000 e (hc ▸ Nat.zero_le _)).delay 899 hr ?_
  rw [Blocked, hh]
  decide +kernel

end MyDrive.Accounts.Limiter
