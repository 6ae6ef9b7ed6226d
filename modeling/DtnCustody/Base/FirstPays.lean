/-
# DtnCustody.Base.FirstPays — each key is paid for once, by whoever presents it first.

A bid presents a set of keys, all of them worth the same. Bids are taken in order, and a key that an
earlier bid was paid for pays no more. `paid` is what comes together on the keys of a group.

The order decides which bid is the first, so it can decide the sum. **It does not exactly when two bids
that share a key of the group are worth the same** (`paid_perm_iff`). Where every key is worth one, the
sum counts the keys (`paid_count`).
-/
import Mathlib.Algebra.BigOperators.Group.Finset.Basic
import Mathlib.Algebra.Order.BigOperators.Group.Finset
import Mathlib.Data.Finset.Card
import Mathlib.Tactic.Ring

namespace DtnCustody.Base

structure Bid (κ : Type) where
  keys : Finset κ
  worth : ℕ

namespace Bid

variable {κ : Type} [DecidableEq κ] (P : κ → Prop) [DecidablePred P]

/-- The keys of the group among `ks` that are not paid for yet. -/
def fresh (seen ks : Finset κ) : Finset κ := (ks \ seen).filter P

/-- What the bids are paid for the keys of the group, behind the keys `seen`. -/
def paid : (seen : Finset κ) → List (Bid κ) → ℕ
  | _, [] => 0
  | seen, b :: bs => (fresh P seen b.keys).card * b.worth + paid (seen ∪ b.keys) bs

/-- All keys of the bids. -/
def allKeys (bs : List (Bid κ)) : Finset κ := bs.foldr (fun b ks => b.keys ∪ ks) ∅

@[simp] theorem allKeys_nil : allKeys ([] : List (Bid κ)) = ∅ := rfl

@[simp] theorem allKeys_cons (b : Bid κ) (bs : List (Bid κ)) :
    allKeys (b :: bs) = b.keys ∪ allKeys bs := rfl

theorem mem_allKeys {bs : List (Bid κ)} {k : κ} : k ∈ allKeys bs ↔ ∃ b ∈ bs, k ∈ b.keys := by
  induction bs with
  | nil => simp
  | cons b bs ih => rw [allKeys_cons, Finset.mem_union, ih, List.exists_mem_cons_iff]

theorem allKeys_perm {bs bs' : List (Bid κ)} (h : bs.Perm bs') : allKeys bs = allKeys bs' := by
  ext k
  rw [mem_allKeys, mem_allKeys]
  exact exists_congr fun b => and_congr_left fun _ => h.mem_iff

/-- The keys behind a bid are its fresh keys and those of the rest. -/
theorem fresh_union (seen ks ls : Finset κ) :
    fresh P seen (ks ∪ ls) = fresh P seen ks ∪ fresh P (seen ∪ ks) ls := by
  ext k
  simp only [fresh, Finset.mem_filter, Finset.mem_sdiff, Finset.mem_union]
  tauto

theorem disjoint_fresh (seen ks ls : Finset κ) :
    Disjoint (fresh P seen ks) (fresh P (seen ∪ ks) ls) := by
  rw [Finset.disjoint_left]
  intro k hk hl
  simp only [fresh, Finset.mem_filter, Finset.mem_sdiff, Finset.mem_union, not_or] at hk hl
  exact hl.1.2.2 hk.1.1

/-- **Where the bids agree on what a key is worth, the sum is over the keys.** -/
theorem paid_eq_sum {v : κ → ℕ} {bs : List (Bid κ)}
    (hv : ∀ b ∈ bs, ∀ k ∈ b.keys, P k → b.worth = v k) (seen : Finset κ) :
    paid P seen bs = ∑ k ∈ fresh P seen (allKeys bs), v k := by
  induction bs generalizing seen with
  | nil => simp [paid, fresh]
  | cons b bs ih =>
      rw [List.forall_mem_cons] at hv
      have hhead : ∑ k ∈ fresh P seen b.keys, v k = (fresh P seen b.keys).card * b.worth := by
        refine Finset.sum_const_nat fun k hk => ?_
        simp only [fresh, Finset.mem_filter, Finset.mem_sdiff] at hk
        exact (hv.1 k hk.1.1 hk.2).symm
      rw [paid, ih hv.2, allKeys_cons, fresh_union, Finset.sum_union (disjoint_fresh P seen _ _), hhead]

/-- **Bids that are worth one are counted key by key.** -/
theorem paid_count {bs : List (Bid κ)} (h : ∀ b ∈ bs, b.worth = 1) (seen : Finset κ) :
    paid P seen bs = (fresh P seen (allKeys bs)).card := by
  have hsum := paid_eq_sum (v := fun _ => 1) P (fun b hb k _ _ => h b hb) seen
  rw [hsum, Finset.card_eq_sum_ones]

/-- Two bids share a key of the group and are worth different sums. -/
def Disputed (bs : List (Bid κ)) : Prop :=
  ∃ b ∈ bs, ∃ b' ∈ bs, ∃ k ∈ b.keys, k ∈ b'.keys ∧ P k ∧ b.worth ≠ b'.worth

/-- Of two bids, the keys that only the first can be paid for and those of both. -/
theorem card_fresh (ks ls : Finset κ) :
    (fresh P ∅ ks).card = (fresh P ls ks).card + ((ks ∩ ls).filter P).card := by
  rw [← Finset.card_union_of_disjoint]
  · congr 1
    ext k
    simp only [fresh, Finset.mem_filter, Finset.mem_sdiff, Finset.mem_union, Finset.mem_inter,
      Finset.notMem_empty, not_false_eq_true, and_true]
    tauto
  · rw [Finset.disjoint_left]
    intro k hk hl
    simp only [fresh, Finset.mem_filter, Finset.mem_sdiff, Finset.mem_inter] at hk hl
    exact hk.1.2 hl.1.2

/-- **Two bids at the front can be exchanged only if they are worth the same** or share no key. -/
theorem worth_eq_of_swap {b b' : Bid κ} {rest : List (Bid κ)}
    (h : paid P ∅ (b :: b' :: rest) = paid P ∅ (b' :: b :: rest)) {k : κ} (hk : k ∈ b.keys)
    (hk' : k ∈ b'.keys) (hP : P k) : b.worth = b'.worth := by
  have hseen : b.keys ∪ b'.keys = b'.keys ∪ b.keys := Finset.union_comm _ _
  have hcard := card_fresh P b.keys b'.keys
  have hcard' := card_fresh P b'.keys b.keys
  rw [Finset.inter_comm] at hcard'
  have hpos : 0 < ((b.keys ∩ b'.keys).filter P).card :=
    Finset.card_pos.mpr ⟨k, Finset.mem_filter.mpr ⟨Finset.mem_inter.mpr ⟨hk, hk'⟩, hP⟩⟩
  rw [paid, paid, paid, paid, Finset.empty_union, Finset.empty_union, hseen, hcard, hcard'] at h
  have hmul : ((b.keys ∩ b'.keys).filter P).card * b.worth
      = ((b.keys ∩ b'.keys).filter P).card * b'.worth := by
    rw [Nat.add_mul, Nat.add_mul] at h
    omega
  exact Nat.eq_of_mul_eq_mul_left hpos hmul

theorem exists_perm_cons {α : Type} {x : α} {xs : List α} (h : x ∈ xs) :
    ∃ rest, xs.Perm (x :: rest) := by
  obtain ⟨front, back, rfl⟩ := List.append_of_mem h
  exact ⟨front ++ back, List.perm_middle⟩

/-- **The order does not matter exactly when no key is disputed.** -/
theorem paid_perm_iff (bs : List (Bid κ)) :
    (∀ bs', bs.Perm bs' → paid P ∅ bs' = paid P ∅ bs) ↔ ¬ Disputed P bs := by
  constructor
  · rintro h ⟨b, hb, b', hb', k, hk, hk', hP, hne⟩
    have hbb : b' ≠ b := fun heq => hne (congrArg worth heq.symm)
    obtain ⟨others, hothers⟩ := exists_perm_cons hb
    obtain ⟨rest, hrest⟩ :=
      exists_perm_cons ((List.mem_cons.mp (hothers.mem_iff.mp hb')).resolve_left hbb)
    have hfront : bs.Perm (b :: b' :: rest) := hothers.trans (hrest.cons b)
    have hsame : paid P ∅ (b :: b' :: rest) = paid P ∅ (b' :: b :: rest) := by
      rw [h _ hfront, h _ (hfront.trans (List.Perm.swap _ _ _))]
    exact hne (worth_eq_of_swap P hsame hk hk' hP)
  · intro h bs' hperm
    classical
    -- a key is worth what some bid that presents it is worth
    let v : κ → ℕ := fun k => if hk : ∃ b ∈ bs, k ∈ b.keys then hk.choose.worth else 0
    have hv : ∀ b ∈ bs, ∀ k ∈ b.keys, P k → b.worth = v k := by
      intro b hb k hk hP
      have hex : ∃ b ∈ bs, k ∈ b.keys := ⟨b, hb, hk⟩
      by_contra hne
      simp only [v, dif_pos hex] at hne
      exact h ⟨b, hb, _, hex.choose_spec.1, k, hk, hex.choose_spec.2, hP, hne⟩
    rw [paid_eq_sum P hv, paid_eq_sum P fun b hb => hv b (hperm.mem_iff.mpr hb), allKeys_perm hperm]

end Bid

end DtnCustody.Base
