/-
# DtnCustody.Base.Pieces — a list cut at separators or into slices of one length, and numbered pieces collected.

The words of a list are what stands between its separators: joined they are the list without its separators
(`flatten_wordsBy`).

`slice` is one piece of a list, and the slices in their order are the list again (`flatMap_slice`). What is in of a
set of numbered pieces is a map from numbers to pieces: `Holds` says that it holds exactly the pieces of some
numbers, and is kept when one more piece comes. `hear` is what is in of every lot, one arrival after another,
where a lot that is complete starts again with nothing.
-/
import DtnCustody.Base.JsMap
import Mathlib.Data.Finset.Card
import Mathlib.Data.List.Basic
import Mathlib.Order.Interval.Finset.Nat

namespace DtnCustody.Base

/-! ## Words -/

variable {α : Type} {p : α → Bool}

/-- What stands between the separators. -/
def wordsBy (p : α → Bool) (l : List α) : List (List α) := (l.splitOnP p).filter fun w => !w.isEmpty

theorem wordsBy_append_cons (xs ys : List α) {s : α} (hs : p s = true) :
    wordsBy p (xs ++ s :: ys) = wordsBy p xs ++ wordsBy p ys := by
  rw [wordsBy, List.splitOnP_append_cons xs ys hs, List.filter_append]
  rfl

theorem wordsBy_word {w : List α} (hne : w ≠ []) (h : ∀ x ∈ w, p x = false) : wordsBy p w = [w] := by
  rw [wordsBy, List.splitOnP_eq_singleton h]
  exact List.filter_eq_self.mpr (by simpa using hne)

@[simp] theorem wordsBy_nil : wordsBy p [] = [] := rfl

/-- Separators in front make no difference. -/
theorem wordsBy_append_of_separators {l : List α} (h : ∀ x ∈ l, p x = true) (xs : List α) :
    wordsBy p (l ++ xs) = wordsBy p xs := by
  induction l with
  | nil => rfl
  | cons x l ih =>
      have hcons := wordsBy_append_cons [] (l ++ xs) (h x List.mem_cons_self)
      rw [List.nil_append] at hcons
      rw [List.cons_append, hcons, wordsBy_nil, List.nil_append]
      exact ih fun y hy => h y (List.mem_cons_of_mem _ hy)

/-- A word before a separator. -/
theorem wordsBy_word_cons {w : List α} (hne : w ≠ []) (h : ∀ x ∈ w, p x = false) {s : α} (hs : p s = true)
    (xs : List α) : wordsBy p (w ++ s :: xs) = w :: wordsBy p xs := by
  rw [wordsBy_append_cons w xs hs, wordsBy_word hne h]
  rfl

/-- **The words joined are the list without its separators.** -/
theorem flatten_wordsBy (l : List α) : (wordsBy p l).flatten = l.filter fun x => !p x := by
  have hflatten : ∀ l : List α, (l.splitOnP p).flatten = l.filter fun x => !p x := by
    intro l
    induction l with
    | nil => rfl
    | cons x l ih =>
        rw [List.splitOnP_cons_eq_if_modifyHead]
        by_cases hx : p x = true
        · rw [if_pos hx, List.filter_cons_of_neg (by simp [hx]), ← ih]
          rfl
        · rw [if_neg hx, List.filter_cons_of_pos (by simp [hx]), ← ih]
          cases hsplit : l.splitOnP p with
          | nil => exact absurd hsplit (List.splitOnP_ne_nil p l)
          | cons w ws => rfl
  rw [wordsBy, List.flatten_filter_not_isEmpty, hflatten]

end DtnCustody.Base

namespace DtnCustody.Base.Pieces

/-! ## Slices -/

section Slices

variable {β : Type} {l : List β} {r : Nat}

/-- `l.slice(i * r, (i + 1) * r)`. -/
def slice (l : List β) (r i : Nat) : List β := (l.drop (i * r)).take r

theorem flatMap_slice_eq_take (n : Nat) : (List.range n).flatMap (slice l r) = l.take (n * r) := by
  induction n with
  | zero => rw [Nat.zero_mul, List.take_zero]; rfl
  | succ n ih =>
      rw [List.range_succ, List.flatMap_append, ih, List.flatMap_singleton, slice, ← List.take_add,
        Nat.succ_mul]

/-- **Enough slices are the list again.** -/
theorem flatMap_slice {n : Nat} (h : l.length ≤ n * r) : (List.range n).flatMap (slice l r) = l := by
  rw [flatMap_slice_eq_take, List.take_of_length_le h]

theorem length_slice (i : Nat) : (slice l r i).length = min r (l.length - i * r) := by
  rw [slice, List.length_take, List.length_drop]

theorem length_slice_le (i : Nat) : (slice l r i).length ≤ r := by
  rw [length_slice]
  exact Nat.min_le_left _ _

theorem mem_of_mem_slice {i : Nat} {b : β} (h : b ∈ slice l r i) : b ∈ l :=
  List.mem_of_mem_drop (List.mem_of_mem_take h)

/-- As many slices as a division rounded up. -/
def slices (l : List β) (r : Nat) : Nat := (l.length + r - 1) / r

theorem length_le_slices (hr : 0 < r) : l.length ≤ slices l r * r := by
  have hdiv := Nat.lt_div_mul_add (a := l.length + r - 1) hr
  unfold slices
  omega

theorem lt_slices_iff (hr : 0 < r) {i : Nat} : i < slices l r ↔ i * r < l.length := by
  rw [slices, Nat.lt_iff_add_one_le, Nat.le_div_iff_mul_le hr, Nat.succ_mul]
  omega

theorem slice_ne_nil (hr : 0 < r) {i : Nat} (h : i < slices l r) : slice l r i ≠ [] := by
  have hlt := (lt_slices_iff hr).mp h
  intro hnil
  have hlen := length_slice (l := l) (r := r) i
  rw [hnil, List.length_nil] at hlen
  omega

end Slices

/-! ## What is in of one lot -/

section Holds

variable {β : Type} {m : JsMap Nat β} {got : Finset Nat} {piece : Nat → β}

/-- Exactly the pieces of these numbers are in. -/
def Holds (m : JsMap Nat β) (got : Finset Nat) (piece : Nat → β) : Prop :=
  ∀ i, m.get? i = if i ∈ got then some (piece i) else none

theorem Holds.empty : Holds JsMap.empty ∅ piece := fun i => by
  rw [if_neg (Finset.notMem_empty i)]
  rfl

theorem Holds.set (h : Holds m got piece) (i : Nat) : Holds (m.set i (piece i)) (insert i got) piece := by
  intro j
  by_cases hj : j = i
  · rw [hj, JsMap.get?_set_self, if_pos (Finset.mem_insert_self i got)]
  · rw [JsMap.get?_set_ne _ hj, h j]
    simp only [Finset.mem_insert, hj, false_or]

theorem Holds.size_eq (h : Holds m got piece) : m.size = got.card := by
  have hkeys : m.keys.toFinset = got := by
    ext i
    rw [List.mem_toFinset, JsMap.mem_keys_iff, h i]
    by_cases hi : i ∈ got
    · simp [hi]
    · simp [hi]
  rw [JsMap.size_eq_length_keys, ← hkeys]
  exact (List.toFinset_card_of_nodup m.nodup).symm

/-- Fewer are in than there are, or all of them. -/
theorem Holds.size_lt_iff (h : Holds m got piece) {n : Nat} (hsub : got ⊆ Finset.Icc 1 n) :
    m.size < n ↔ got ≠ Finset.Icc 1 n := by
  have hcard : (Finset.Icc 1 n).card = n := Nat.card_Icc 1 n
  rw [h.size_eq]
  constructor
  · rintro hlt rfl
    omega
  · intro hne
    have hss := Finset.card_lt_card (Finset.ssubset_iff_subset_ne.mpr ⟨hsub, hne⟩)
    omega

/-- All of them, in their order. -/
theorem Holds.joined {γ : Type} {m : JsMap Nat (List γ)} {piece : Nat → List γ} {n : Nat}
    (h : Holds m (Finset.Icc 1 n) piece) :
    (List.range n).flatMap (fun i => (m.get? (i + 1)).getD []) =
      (List.range n).flatMap fun i => piece (i + 1) := by
  refine List.flatMap_congr fun i hi => ?_
  have hlt := List.mem_range.mp hi
  rw [h (i + 1), if_pos (Finset.mem_Icc.mpr ⟨by omega, hlt⟩)]
  rfl

end Holds

/-! ## What is in of every lot -/

section Hear

variable {κ : Type} [DecidableEq κ] (count : κ → Nat)

/-- A piece of a lot comes: the lot is complete, and starts again with nothing, or has it too. -/
def hear (got : κ → Finset Nat) (p : κ × Nat) : κ → Finset Nat :=
  Function.update got p.1
    (if insert p.2 (got p.1) = Finset.Icc 1 (count p.1) then ∅ else insert p.2 (got p.1))

/-- The pieces that came since their lot was last complete. -/
def heard (front : List (κ × Nat)) : κ → Finset Nat := front.foldl (hear count) fun _ => ∅

variable {count}

@[simp] theorem heard_nil : heard count ([] : List (κ × Nat)) = fun _ => ∅ := rfl

theorem heard_append (front : List (κ × Nat)) (p : κ × Nat) :
    heard count (front ++ [p]) = hear count (heard count front) p := by
  rw [heard, List.foldl_append]
  rfl

theorem hear_self (got : κ → Finset Nat) (k : κ) (i : Nat) :
    hear count got (k, i) k = if insert i (got k) = Finset.Icc 1 (count k) then ∅ else insert i (got k) :=
  Function.update_self _ _ _

theorem hear_of_ne (got : κ → Finset Nat) {k k' : κ} (h : k' ≠ k) (i : Nat) :
    hear count got (k, i) k' = got k' := Function.update_of_ne h _ _

/-- Only numbers of the lot are in. -/
theorem heard_subset {front : List (κ × Nat)} (h : ∀ p ∈ front, p.2 ∈ Finset.Icc 1 (count p.1)) (k : κ) :
    heard count front k ⊆ Finset.Icc 1 (count k) := by
  induction front using List.reverseRecOn with
  | nil => exact Finset.empty_subset _
  | append_singleton front p ih =>
      have hsub := ih fun q hq => h q (List.mem_append_left _ hq)
      have hp := h p (List.mem_append_right _ List.mem_cons_self)
      obtain ⟨k', i⟩ := p
      rw [heard_append]
      by_cases hk : k = k'
      · subst hk
        rw [hear_self]
        split
        · exact Finset.empty_subset _
        · exact Finset.insert_subset hp hsub
      · rw [hear_of_ne _ hk]
        exact hsub

end Hear

end DtnCustody.Base.Pieces
