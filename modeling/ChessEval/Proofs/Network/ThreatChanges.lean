import ChessEval.Proofs.Network.Updating

/-! The merge of two ascending lists of threats finds what each has beyond the other. -/
namespace ChessEval

variable {l before after : List Threat} {a b t : Threat}

namespace Threat

/-- Threats in the order of their keys, repetitions allowed. -/
def Ascending (l : List Threat) : Prop := l.Pairwise fun a b => a.key ≤ b.key

instance (l : List Threat) : Decidable (Ascending l) :=
  inferInstanceAs (Decidable (l.Pairwise fun a b => a.key ≤ b.key))

/-- Ascending lists of the same threats, each as often, are one list. -/
theorem Ascending.eq_of_perm (hb : Ascending before) (ha : Ascending after)
    (h : before.Perm after) : before = after := by
  unfold Ascending at hb ha
  apply h.eq_of_pairwise _ hb ha
  intro a b _ _ hab hba
  exact key_injective (Nat.le_antisymm hab hba)

/-- A threat before the head of an ascending list does not occur in it. -/
theorem Ascending.not_mem_of_lt (h : Ascending (b :: l)) (hab : a.key < b.key) : a ∉ b :: l := by
  intro hmem
  rcases List.mem_cons.mp hmem with rfl | hmem
  · omega
  · have hle := (List.pairwise_cons.mp h).1 a hmem
    omega

end Threat

open Threat

namespace ThreatChange

/-- With the lists exchanged, what was added is removed and the reverse. -/
theorem between_swap (before after : List Threat) :
    between after before = ⟨(between before after).added, (between before after).removed⟩ := by
  fun_induction between before after with
  | case1 after => cases after <;> simp [between]
  | case2 before h => cases before <;> simp_all [between]
  | case3 a before b after hab d ih =>
    rw [between, if_neg (by omega), if_pos hab, ih]
  | case4 a before b after hab hba d ih =>
    rw [between, if_pos hba, ih]
  | case5 a before b after hab hba ih =>
    rw [between, if_neg hba, if_neg hab, ih]

theorem removed_sublist (before after : List Threat) :
    (between before after).removed.Sublist before := by
  fun_induction between before after with
  | case1 after => exact List.Sublist.refl []
  | case2 before h => exact List.Sublist.refl before
  | case3 a before b after hab d ih => exact ih.cons_cons a
  | case4 a before b after hab hba d ih => exact ih
  | case5 a before b after hab hba ih => exact ih.cons a

theorem added_sublist (before after : List Threat) :
    (between before after).added.Sublist after := by
  have h := removed_sublist after before
  rwa [between_swap] at h

/-- A threat is removed as often as it occurs before beyond its occurrences after. -/
theorem count_removed (hb : Ascending before) (ha : Ascending after) (t : Threat) :
    (between before after).removed.count t = before.count t - after.count t := by
  fun_induction between before after with
  | case1 after => simp
  | case2 before h => simp
  | case3 a before b after hab d ih =>
    have hcount := ih (List.pairwise_cons.mp hb).2 ha
    -- a removed threat stands before the whole other list, so that it does not occur there
    have hnone : (b :: after).count a = 0 := List.count_eq_zero.mpr (ha.not_mem_of_lt hab)
    by_cases hat : a = t
    · subst hat
      rw [List.count_cons_self, List.count_cons_self, hcount]
      omega
    · rw [List.count_cons_of_ne hat, List.count_cons_of_ne hat, hcount]
  | case4 a before b after hab hba d ih =>
    have hcount := ih hb (List.pairwise_cons.mp ha).2
    have hnone : (a :: before).count b = 0 := List.count_eq_zero.mpr (hb.not_mem_of_lt hba)
    by_cases hbt : b = t
    · subst hbt
      rw [List.count_cons_self, hcount]
      omega
    · rw [List.count_cons_of_ne hbt, hcount]
  | case5 a before b after hab hba ih =>
    have hcount := ih (List.pairwise_cons.mp hb).2 (List.pairwise_cons.mp ha).2
    have heq : a = b := key_injective (by omega)
    subst heq
    rw [hcount, List.count_cons, List.count_cons]
    omega

theorem count_added (hb : Ascending before) (ha : Ascending after) (t : Threat) :
    (between before after).added.count t = after.count t - before.count t := by
  have h := count_removed ha hb t
  rwa [between_swap] at h

theorem ascending_removed (hb : Ascending before) (after : List Threat) :
    Ascending (between before after).removed :=
  hb.sublist (removed_sublist before after)

theorem ascending_added (ha : Ascending after) (before : List Threat) :
    Ascending (between before after).added :=
  ha.sublist (added_sublist before after)

/-- Without repetitions the merge removes what does not occur after. -/
theorem removed_eq_filter (hb : Ascending before) (ha : Ascending after) (hn : before.Nodup) :
    (between before after).removed = before.filter (· ∉ after) := by
  have hsub := removed_sublist before after
  apply (ascending_removed hb after).eq_of_perm (hb.sublist List.filter_sublist)
  apply (List.perm_ext_iff_of_nodup (hn.sublist hsub) (hn.filter _)).mpr
  intro t
  have hcount := count_removed hb ha t
  have hone := List.nodup_iff_count_le_one.mp hn t
  rw [← List.count_pos_iff, hcount, List.mem_filter, decide_eq_true_eq, ← List.count_pos_iff,
    ← List.count_eq_zero]
  omega

theorem added_eq_filter (hb : Ascending before) (ha : Ascending after) (hn : after.Nodup) :
    (between before after).added = after.filter (· ∉ before) := by
  have h := removed_eq_filter ha hb hn
  rwa [between_swap] at h

/-- Each list together with what it lacks of the other: both then hold the same threats. -/
theorem balanced (hb : Ascending before) (ha : Ascending after) :
    (before ++ (between before after).added).Perm (after ++ (between before after).removed) := by
  apply List.perm_iff_count.mpr
  intro t
  rw [List.count_append, List.count_append, count_removed hb ha, count_added hb ha]
  omega

theorem isEmpty_between_iff (hb : Ascending before) (ha : Ascending after) :
    (between before after).isEmpty = true ↔ before = after := by
  rw [isEmpty, Bool.and_eq_true, List.isEmpty_iff, List.isEmpty_iff]
  constructor
  · intro h
    have hbalanced := balanced hb ha
    rw [h.1, h.2, List.append_nil, List.append_nil] at hbalanced
    exact hb.eq_of_perm ha hbalanced
  · intro h
    subst h
    have hsame : (between before before).removed = (between before before).added :=
      congrArg removed (between_swap before before)
    have hnone : (between before before).removed = [] := by
      apply List.eq_nil_iff_forall_not_mem.mpr
      intro t
      rw [← List.count_eq_zero, count_removed hb hb, Nat.sub_self]
    exact ⟨hnone, hsame ▸ hnone⟩

/-- The merge of two ascending lists, repetitions allowed, is their difference: ascending lists
without a common threat, of each threat as many as the one list has beyond the other, so that they
balance. Nothing is left exactly if the lists are equal. -/
theorem between_is_exact_difference (hb : Ascending before) (ha : Ascending after) :
    Ascending (between before after).removed ∧ Ascending (between before after).added ∧
      (∀ t ∈ (between before after).removed, t ∉ (between before after).added) ∧
      (before ++ (between before after).added).Perm (after ++ (between before after).removed) ∧
      (∀ t, (between before after).removed.count t = before.count t - after.count t ∧
        (between before after).added.count t = after.count t - before.count t) ∧
      (before.Nodup → (between before after).removed = before.filter (· ∉ after)) ∧
      (after.Nodup → (between before after).added = after.filter (· ∉ before)) ∧
      ((between before after).isEmpty = true ↔ before = after) := by
  refine ⟨ascending_removed hb after, ascending_added ha before, ?_, balanced hb ha, ?_,
    removed_eq_filter hb ha, added_eq_filter hb ha, isEmpty_between_iff hb ha⟩
  · intro t hremoved hadded
    rw [← List.count_pos_iff, count_removed hb ha] at hremoved
    rw [← List.count_pos_iff, count_added hb ha] at hadded
    omega
  · intro t
    exact ⟨count_removed hb ha t, count_added hb ha t⟩

/-- A rook's attacks, two of them listed twice. -/
theorem between_is_exact_difference_of_repetitions :
    let attack : Square → Threat := fun t => ⟨.white, .rook, 0, .black, t⟩
    let before := [attack 1, attack 1, attack 2, attack 8]
    let after := [attack 1, attack 7, attack 8, attack 8]
    Ascending before ∧ Ascending after ∧
      (between before after).removed.count (attack 1) = 1 ∧
      (between before after).added.count (attack 8) = 1 ∧
      (before ++ (between before after).added).Perm (after ++ (between before after).removed) ∧
      (between before after).isEmpty = false := by
  intro attack before after
  have hb : Ascending before := by decide
  have ha : Ascending after := by decide
  obtain ⟨-, -, -, hperm, hcount, -, -, hempty⟩ := between_is_exact_difference hb ha
  refine ⟨hb, ha, ?_, ?_, hperm, ?_⟩
  · rw [(hcount _).1]
    decide
  · rw [(hcount _).2]
    decide
  · apply Bool.eq_false_iff.mpr
    intro h
    exact absurd (hempty.mp h) (by decide)

end ThreatChange

end ChessEval
