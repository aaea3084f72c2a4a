import Mathlib.Data.List.Perm.Subperm
import Mathlib.Data.List.Induction

-- Greedy thinning of a list. An element stays unless it is in conflict with one that has stayed before it.

namespace Greedy

variable {α : Type} (conflict : α → α → Bool) {as : List α} {a b : α}

def keep (kept : List α) (a : α) : List α :=
  if kept.any (conflict · a) then kept else kept ++ [a]

def thin (as : List α) : List α :=
  as.foldl (keep conflict) []

theorem thin_append (as : List α) (a : α) : thin conflict (as ++ [a]) = keep conflict (thin conflict as) a := by
  simp [thin]

variable {conflict}

theorem keep_of_conflict {kept : List α} (h : ∃ b ∈ kept, conflict b a) : keep conflict kept a = kept := by
  simp [keep, h]

theorem keep_of_apart {kept : List α} (h : ∀ b ∈ kept, ¬conflict b a) : keep conflict kept a = kept ++ [a] := by
  simp_all [keep]

variable (conflict) in
theorem thin_sublist (as : List α) : (thin conflict as).Sublist as := by
  induction as using List.reverseRecOn
  case nil => exact List.Sublist.refl _
  case append_singleton as a hi =>
    rw [thin_append]
    by_cases h : ∃ b ∈ thin conflict as, conflict b a
    case pos => exact (keep_of_conflict h).symm ▸ hi.trans (List.sublist_append_left as [a])
    case neg =>
      rw [keep_of_apart (by simpa using h)]
      exact hi.append (List.Sublist.refl [a])

variable (conflict) in
theorem thin_apart (as : List α) : (thin conflict as).Pairwise fun a b => ¬conflict a b := by
  induction as using List.reverseRecOn
  case nil => exact List.Pairwise.nil
  case append_singleton as a hi =>
    rw [thin_append]
    by_cases h : ∃ b ∈ thin conflict as, conflict b a
    case pos => exact (keep_of_conflict h).symm ▸ hi
    case neg =>
      rw [keep_of_apart (by simpa using h)]
      have apart : ∀ b ∈ thin conflict as, ∀ c ∈ [a], ¬conflict b c := by simpa using h
      exact List.pairwise_append.mpr ⟨hi, List.pairwise_singleton _ a, apart⟩

-- What is left out comes behind something that has stayed and is in conflict with it.
variable (conflict) in
theorem exists_left_out (as : List α) : ∃ out, (thin conflict as ++ out).Perm as ∧
    ∀ b ∈ out, ∃ a ∈ thin conflict as, conflict a b ∧ [a, b].Sublist as := by
  induction as using List.reverseRecOn
  case nil => exact ⟨[], .refl _, by simp⟩
  case append_singleton as c hi =>
    obtain ⟨out, perm, behind⟩ := hi
    have longer {a b : α} (h : [a, b].Sublist as) : [a, b].Sublist (as ++ [c]) :=
      h.trans (List.sublist_append_left as [c])
    rw [thin_append]
    by_cases h : ∃ b ∈ thin conflict as, conflict b c
    case pos =>
      obtain ⟨a, kept, clash⟩ := h
      have last : [a, c].Sublist (as ++ [c]) :=
        (List.singleton_sublist.mpr ((thin_sublist conflict as).mem kept)).append (.refl [c])
      rw [keep_of_conflict ⟨a, kept, clash⟩]
      refine ⟨out ++ [c], ?_, ?_⟩
      · rw [← List.append_assoc]
        exact perm.append_right [c]
      · intro b hb
        cases List.mem_append.mp hb
        case inl hb =>
          obtain ⟨d, hd, clash', earlier⟩ := behind b hb
          exact ⟨d, hd, clash', longer earlier⟩
        case inr hb =>
          rw [List.mem_singleton.mp hb]
          exact ⟨a, kept, clash, last⟩
    case neg =>
      rw [keep_of_apart (by simpa using h)]
      refine ⟨out, ?_, ?_⟩
      · calc (thin conflict as ++ [c]) ++ out
          _ = thin conflict as ++ ([c] ++ out)         := List.append_assoc ..
          List.Perm _ (thin conflict as ++ (out ++ [c])) := List.perm_append_comm.append_left _
          _ = (thin conflict as ++ out) ++ [c]         := (List.append_assoc ..).symm
          List.Perm _ (as ++ [c])                      := perm.append_right [c]
      · intro b hb
        obtain ⟨d, hd, clash, earlier⟩ := behind b hb
        exact ⟨d, List.mem_append_left _ hd, clash, longer earlier⟩

theorem left_out {out : List α} (h : (thin conflict as ++ out).Perm as) (hb : b ∈ out) :
    ∃ a ∈ thin conflict as, conflict a b ∧ [a, b].Sublist as := by
  obtain ⟨out', perm, behind⟩ := exists_left_out conflict as
  have same : out.Perm out' := (List.perm_append_left_iff _).mp (h.trans perm.symm)
  exact behind b (same.mem_iff.mp hb)

theorem thin_of_apart (h : as.Pairwise fun a b => ¬conflict a b) : thin conflict as = as := by
  induction as using List.reverseRecOn
  case nil => rfl
  case append_singleton as a hi =>
    have ⟨init, _, apart⟩ := List.pairwise_append.mp h
    rw [thin_append, hi init]
    exact keep_of_apart fun b hb => apart b hb a (List.mem_singleton_self a)

end Greedy
