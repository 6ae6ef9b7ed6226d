/-
# DtnCustody.Base.Windows — times that never fall, one in each of a list of windows.

A window is a pair of ends in a linear order. `exists_route_iff` says when there is a route: no
window may close before it opens, nor before an earlier one opens. It is enough to compare windows
two by two, but not to compare neighbours.
-/
import Mathlib.Order.BoundedOrder.Basic
import Mathlib.Order.Lattice
import Mathlib.Order.Defs.LinearOrder
import Mathlib.Data.List.Forall2

namespace DtnCustody.Base.Windows

variable {α : Type} [LinearOrder α]

def Inside (w : α × α) (t : α) : Prop := w.1 ≤ t ∧ t ≤ w.2

/-- One time in each window, in order. -/
def Route (ws : List (α × α)) (ts : List α) : Prop :=
  List.Forall₂ Inside ws ts ∧ ts.Pairwise (· ≤ ·)

/-- A route of times from `start` on: at each window the later of its opening and the time before. -/
theorem exists_route_from {ws : List (α × α)} :
    ∀ {start : α}, (∀ w ∈ ws, start ≤ w.2) → (∀ w ∈ ws, w.1 ≤ w.2) →
      (ws.Pairwise fun v w => v.1 ≤ w.2) → ∃ ts, Route ws ts ∧ ∀ t ∈ ts, start ≤ t := by
  induction ws with
  | nil =>
      intro start _ _ _
      exact ⟨[], ⟨.nil, List.Pairwise.nil⟩, fun t ht => (List.not_mem_nil ht).elim⟩
  | cons w ws ih =>
      intro start hstart hopen hpair
      rw [List.forall_mem_cons] at hstart hopen
      rw [List.pairwise_cons] at hpair
      obtain ⟨ts, ⟨hinside, hsorted⟩, hlow⟩ := @ih (max start w.1)
        (fun v hv => max_le (hstart.2 v hv) (hpair.1 v hv)) hopen.2 hpair.2
      refine ⟨max start w.1 :: ts, ⟨.cons ?_ hinside, List.pairwise_cons.mpr ⟨hlow, hsorted⟩⟩, ?_⟩
      · exact ⟨le_max_right _ _, max_le hstart.1 hopen.1⟩
      · rw [List.forall_mem_cons]
        exact ⟨le_max_left _ _, fun t ht => (le_max_left _ _).trans (hlow t ht)⟩

theorem exists_inside_of_mem {ws : List (α × α)} {ts : List α} (h : List.Forall₂ Inside ws ts)
    {w : α × α} (hw : w ∈ ws) : ∃ t ∈ ts, Inside w t := by
  induction h with
  | nil => cases hw
  | cons hvs _ ih =>
      rcases List.mem_cons.mp hw with rfl | hw
      · exact ⟨_, List.mem_cons_self, hvs⟩
      · obtain ⟨t, ht, hwt⟩ := ih hw
        exact ⟨t, List.mem_cons_of_mem _ ht, hwt⟩

theorem Route.pairwise {ws : List (α × α)} {ts : List α} (h : Route ws ts) :
    ws.Pairwise fun v w => v.1 ≤ w.2 := by
  obtain ⟨hinside, hsorted⟩ := h
  induction hinside with
  | nil => exact List.Pairwise.nil
  | cons hwt htail ih =>
      rw [List.pairwise_cons] at hsorted ⊢
      refine ⟨fun v hv => ?_, ih hsorted.2⟩
      obtain ⟨s, hs, hvs⟩ := exists_inside_of_mem htail hv
      exact (hwt.1.trans (hsorted.1 s hs)).trans hvs.2

/-- **When there is a route.** -/
theorem exists_route_iff {ws : List (α × α)} :
    (∃ ts, Route ws ts) ↔ (∀ w ∈ ws, w.1 ≤ w.2) ∧ ws.Pairwise fun v w => v.1 ≤ w.2 := by
  constructor
  · rintro ⟨ts, h⟩
    refine ⟨fun w hw => ?_, h.pairwise⟩
    obtain ⟨t, _, hwt⟩ := exists_inside_of_mem h.1 hw
    exact hwt.1.trans hwt.2
  · rintro ⟨hopen, hpair⟩
    cases ws with
    | nil => exact ⟨[], .nil, List.Pairwise.nil⟩
    | cons w ws =>
        have hstart : ∀ v ∈ w :: ws, w.1 ≤ v.2 := by
          rw [List.forall_mem_cons]
          exact ⟨hopen w List.mem_cons_self, (List.pairwise_cons.mp hpair).1⟩
        obtain ⟨ts, hts, _⟩ := exists_route_from hstart hopen hpair
        exact ⟨ts, hts⟩

/-- A relation between neighbours, and between elements further apart, is one between any two. -/
theorem pairwise_of_neighbours {ι : Type} {R : ι → ι → Prop} {xs : List ι} (hnext : xs.IsChain R)
    (hfar : ∀ i j x y, i + 1 < j → xs[i]? = some x → xs[j]? = some y → R x y) : xs.Pairwise R := by
  rw [List.pairwise_iff_getElem]
  intro i j hi hj hij
  rcases Nat.lt_or_ge (i + 1) j with hlt | hge
  · exact hfar i j _ _ hlt (List.getElem?_eq_getElem hi) (List.getElem?_eq_getElem hj)
  · obtain rfl : j = i + 1 := by omega
    exact hnext.getElem i hj

/-! ## The earliest times -/

/-- The earliest time behind the windows, on the way from `start`. -/
def passes (start : α) : List (α × α) → Option α
  | [] => some start
  | w :: ws => if max start w.1 ≤ w.2 then passes (max start w.1) ws else none

/-- **The earliest times are enough**: they get through the windows whenever any times do. -/
theorem passes_isSome_iff {ws : List (α × α)} : ∀ {start : α},
    (passes start ws).isSome ↔ ∃ ts, Route ws ts ∧ ∀ t ∈ ts, start ≤ t := by
  induction ws with
  | nil =>
      intro start
      exact ⟨fun _ => ⟨[], ⟨.nil, List.Pairwise.nil⟩, fun t ht => (List.not_mem_nil ht).elim⟩,
        fun _ => rfl⟩
  | cons w ws ih =>
      intro start
      rw [passes]
      constructor
      · intro h
        split at h
        · rename_i hw
          obtain ⟨ts, ⟨hinside, hsorted⟩, hlow⟩ := ih.mp h
          refine ⟨max start w.1 :: ts, ⟨.cons ⟨le_max_right _ _, hw⟩ hinside,
            List.pairwise_cons.mpr ⟨hlow, hsorted⟩⟩, ?_⟩
          rw [List.forall_mem_cons]
          exact ⟨le_max_left _ _, fun t ht => (le_max_left _ _).trans (hlow t ht)⟩
        · cases h
      · rintro ⟨ts, ⟨hinside, hsorted⟩, hlow⟩
        cases hinside with
        | cons hwt htail =>
            rename_i t ts
            rw [List.forall_mem_cons] at hlow
            rw [List.pairwise_cons] at hsorted
            have hmax : max start w.1 ≤ t := max_le hlow.1 hwt.1
            rw [if_pos (hmax.trans hwt.2)]
            exact ih.mpr ⟨ts, ⟨htail, hsorted.2⟩, fun s hs => hmax.trans (hsorted.1 s hs)⟩

/-- From the least time on, it is enough that each window opens before it and the later ones close. -/
theorem passes_bot_iff [OrderBot α] {ws : List (α × α)} : (passes ⊥ ws).isSome ↔
    (∀ w ∈ ws, w.1 ≤ w.2) ∧ ws.Pairwise fun v w => v.1 ≤ w.2 := by
  rw [passes_isSome_iff, ← exists_route_iff]
  exact exists_congr fun ts => ⟨fun h => h.1, fun h => ⟨h, fun t _ => bot_le⟩⟩

end DtnCustody.Base.Windows
