/-
# DtnCustody.Base.Largest — taking from the front of a list until it is enough.

When the list is in descending order of a weight, no selection of `k` elements weighs more than the first `k`
(`sum_le_sum_take`). So where enough depends on the number and the weight only, and more weight is never
worse, taking from the front finds enough whenever any selection is enough (`not_enough_of_pick`).
-/
import Mathlib.Algebra.Order.BigOperators.Group.List
import Mathlib.Data.List.Perm.Subperm
import Mathlib.Data.List.TakeDrop

namespace DtnCustody.Base.Largest

variable {α M : Type} [AddCommMonoid M] (f : α → M)

/-- Takes elements until the number of them and their weight are enough. -/
def pick (enough : Nat → M → Bool) : List α → M → List α → List α × M
  | picked, sum, [] => (picked, sum)
  | picked, sum, c :: rest =>
      if enough (picked.length + 1) (sum + f c) then (picked ++ [c], sum + f c)
      else pick enough (picked ++ [c]) (sum + f c) rest

variable {f} {enough : Nat → M → Bool}

/-- **What is taken**: the first few that are enough, or all where no first few are. -/
theorem pick_spec {l : List α} : ∀ {picked : List α} {sum : M}, ∃ n ≤ l.length,
    pick f enough picked sum l = (picked ++ l.take n, sum + ((l.take n).map f).sum) ∧
      (enough (picked.length + n) (sum + ((l.take n).map f).sum) = true ∨
        n = l.length ∧ ∀ k, 0 < k → k ≤ l.length →
          enough (picked.length + k) (sum + ((l.take k).map f).sum) = false) := by
  induction l with
  | nil =>
      intro picked sum
      exact ⟨0, le_rfl, by simp [pick], .inr ⟨rfl, fun k hk hle => absurd hk (not_lt.mpr hle)⟩⟩
  | cons c rest ih =>
      intro picked sum
      rw [pick]
      by_cases henough : enough (picked.length + 1) (sum + f c) = true
      · refine ⟨1, by simp, ?_, .inl ?_⟩
        · rw [if_pos henough]
          simp
        · simpa using henough
      · rw [if_neg henough]
        obtain ⟨n, hn, heq, hcases⟩ := @ih (picked ++ [c]) (sum + f c)
        have hstep : ∀ k, (picked ++ [c]).length + k = picked.length + (k + 1) ∧
            sum + f c + ((rest.take k).map f).sum = sum + (((c :: rest).take (k + 1)).map f).sum := by
          intro k
          refine ⟨by rw [List.length_append, List.length_singleton]; omega, ?_⟩
          rw [List.take_succ_cons, List.map_cons, List.sum_cons, add_assoc]
        rw [(hstep n).1, (hstep n).2] at hcases
        refine ⟨n + 1, by simpa using hn, ?_, hcases.imp_right ?_⟩
        · rw [heq, (hstep n).2, List.take_succ_cons, List.append_assoc, List.singleton_append]
        · rintro ⟨rfl, hnone⟩
          refine ⟨rfl, fun k hk hle => ?_⟩
          cases k with
          | zero => exact absurd hk (lt_irrefl 0)
          | succ k =>
              by_cases hzero : k = 0
              · subst hzero
                simpa using henough
              · have hlater := hnone k (Nat.pos_of_ne_zero hzero) (by simpa using hle)
                rwa [(hstep k).1, (hstep k).2] at hlater

variable [LinearOrder M] [IsOrderedAddMonoid M]

/-- **The first `k` weigh the most.** -/
theorem sum_le_sum_take {l : List α} (hsorted : l.Pairwise fun a b => f b ≤ f a) :
    ∀ {s : List α}, s.Subperm l → (s.map f).sum ≤ ((l.take s.length).map f).sum := by
  classical
  induction l with
  | nil =>
      intro s hs
      rw [List.subperm_nil.mp hs]
      exact le_rfl
  | cons a l ih =>
      intro s hs
      rw [List.pairwise_cons] at hsorted
      cases s with
      | nil => simp
      | cons b s =>
          -- Give up `a` where it was selected, and any element where it was not.
          obtain ⟨c, rest, hperm, hsub, hle⟩ : ∃ c rest, (b :: s).Perm (c :: rest) ∧ rest.Subperm l ∧
              f c ≤ f a := by
            by_cases ha : a ∈ b :: s
            · refine ⟨a, (b :: s).erase a, List.perm_cons_erase ha, ?_, le_rfl⟩
              exact List.subperm_cons a |>.mp ((List.perm_cons_erase ha).symm.subperm.trans hs)
            · have hsub : (b :: s).Subperm l := by
                obtain ⟨t, ht, hsub⟩ := hs
                cases hsub with
                | cons _ h => exact ⟨t, ht, h⟩
                | cons_cons _ h => exact absurd (ht.subset List.mem_cons_self) ha
              refine ⟨b, s, List.Perm.refl _, (List.sublist_cons_self b s).subperm.trans hsub, ?_⟩
              exact hsorted.1 b (hsub.subset List.mem_cons_self)
          have hlen : (b :: s).length = rest.length + 1 := hperm.length_eq
          rw [hlen, List.take_succ_cons, (hperm.map f).sum_eq]
          simp only [List.map_cons, List.sum_cons]
          exact add_le_add hle (ih hsorted.2 hsub)

/-- **Where the first few are never enough, no selection is.** -/
theorem not_enough_of_pick {l : List α} (hsorted : l.Pairwise fun a b => f b ≤ f a)
    (hmono : ∀ n s t, s ≤ t → enough n s = true → enough n t = true)
    (hnone : ∀ k, 0 < k → k ≤ l.length → enough k ((l.take k).map f).sum = false) {s : List α}
    (hs : s.Subperm l) (hne : s ≠ []) : enough s.length (s.map f).sum = false := by
  by_contra henough
  have hmore := hmono _ _ _ (sum_le_sum_take hsorted hs) (Bool.eq_true_of_not_eq_false henough)
  rw [hnone _ (List.length_pos_iff.mpr hne) hs.length_le] at hmore
  cases hmore

end DtnCustody.Base.Largest
